import Ilo2.Lib.Strtol
import Ilo2.Session.Base64
import Ilo2.Session.Params
import Ilo2.Tls.Https

/-!
# Acquiring a console session

`ilo_login`, `fetch_console_params` and `acquire_console_session` of `ilo_session.hpp`.  The iLO
hands out a session key on its login page; the cookie is made of it, and of the user and the
password in base64, and decides what the console page has to say.

* `loginCookie_injective` - the cookie tells the user and the password.
* `acquire_iff` - **a session is had with the credentials of an account, and with no others**, from
  an iLO that gives the parameters of the console for the cookie of an account only.
-/

namespace Ilo2.Session

open Scan Text Checked
open Strtol (decimal)
open Tls (ascii HttpResponse)

/-! ### The requests -/

/-- What `https_get` makes of a path and a cookie: an answer, or the text of an error. -/
abbrev Get := (path cookie : List UInt8) → Except (List UInt8) HttpResponse

structure ConsoleParams where
  info : List (List UInt8 × List UInt8) := []
  sessionIndex : List UInt8 := []
  cookie : List UInt8 := []

namespace ConsoleParams

def get (cp : ConsoleParams) (key dflt : List UInt8) : List UInt8 :=
  (cp.info.lookup key).getD dflt

def has (cp : ConsoleParams) (key : List UInt8) : Bool := (cp.info.lookup key).isSome

end ConsoleParams

/-- `std::to_string`. -/
def toString (n : Int) : List UInt8 := sign (n < 0) ++ decimal n.natAbs

def loginPage : List UInt8 := ascii "/login.htm"
def consolePage : List UInt8 := ascii "/drc2fram.htm"

/-- The session key of an iLO that has no slot free. -/
def NONEAVAILABLE : List UInt8 := ascii "NONEAVAILABLE"

/-- The cookie that `ilo_login` assembles. -/
def loginCookie (index user pass key : List UInt8) : List UInt8 :=
  ascii "hp-iLO-Login=" ++ index ++ ascii ":" ++ base64Encode user ++ ascii ":" ++
    base64Encode pass ++ ascii ":" ++ key

/-- `ilo_login`: the cookie and the session index, or the text of the error.  A scan of the page
takes at most as many rounds as it has bytes, and one. -/
def iloLogin (get : Get) (user pass : List UInt8) :
    Except Fault (Except (List UInt8) (List UInt8 × List UInt8)) :=
  match get loginPage [] with
  | .error err => .ok (.error err)
  | .ok resp =>
      if resp.status ≠ 200 then
        .ok (.error (ascii "login.htm returned HTTP " ++ toString resp.status))
      else do
        let key ← findQuoted resp.body (ascii "sessionkey") (resp.body.length + 1) []
        if key.1 = false then
          .ok (.error (ascii "no sessionkey in login.htm (is this an iLO 2?)"))
        else if key.2 = NONEAVAILABLE then
          .ok (.error (ascii "the iLO has no session slots free -- wait a few minutes and retry"))
        else
          let index ← findQuoted resp.body (ascii "sessionindex") (resp.body.length + 1) []
          if index.1 = false then .ok (.error (ascii "no sessionindex in login.htm"))
          else .ok (.ok (loginCookie index.2 user pass key.2, index.2))

/-- `fetch_console_params`. -/
def fetchConsoleParams (get : Get) (cookie : List UInt8) :
    Except Fault (Except (List UInt8) ConsoleParams) :=
  match get consolePage cookie with
  | .error err => .ok (.error err)
  | .ok resp =>
      if resp.status ≠ 200 then
        .ok (.error (ascii "drc2fram.htm returned HTTP " ++ toString resp.status))
      else do
        let info ← scrapeInfoParams resp.body (resp.body.length + 1) []
        let out : ConsoleParams := { info := info, cookie := cookie }
        if out.has (ascii "info0") = false ∨ out.get (ascii "info0") [] = [] then
          .ok (.error (ascii ("no info0 in drc2fram.htm -- the login was probably rejected, or " ++
            "the remote console is disabled or already in use")))
        else .ok (.ok out)

/-- `acquire_console_session`. -/
def acquireConsoleSession (get : Get) (user pass : List UInt8) :
    Except Fault (Except (List UInt8) ConsoleParams) := do
  match ← iloLogin get user pass with
  | .error err => .ok (.error err)
  | .ok login =>
      match ← fetchConsoleParams get login.1 with
      | .error err => .ok (.error err)
      | .ok out => .ok (.ok { out with sessionIndex := login.2 })

/-! ### The cookie -/

variable {get : Get} {index user pass user' pass' key cookie : List UInt8} {as : List Assignment}

/-- No digit of base64 is a colon. -/
theorem colon_notMem_encode (s : List UInt8) : 0x3A ∉ base64Encode s := by
  intro h
  obtain ⟨body, hbody, heq⟩ := encode_shape s
  rw [heq] at h
  rcases List.mem_append.mp h with h | h
  · exact absurd (hbody _ h) (by decide)
  · exact absurd (List.eq_of_mem_replicate h) (by decide)

/-- What stands in front of the first `c`, and what stands behind it. -/
theorem cut_unique {c : UInt8} {b b' r r' : List UInt8} (hb : c ∉ b) (hb' : c ∉ b')
    (h : b ++ c :: r = b' ++ c :: r') : b = b' ∧ r = r' := by
  have hother {b : List UInt8} (hb : c ∉ b) : ∀ d ∈ b, decide (d ≠ c) = true :=
    fun d hd => decide_eq_true fun hdc => hb (hdc ▸ hd)
  have hstop (r : List UInt8) : ∀ d ∈ (c :: r).head?, decide (d ≠ c) = false := by
    rintro d ⟨⟩
    exact decide_eq_false (not_not.mpr rfl)
  obtain ⟨hsame, hrest⟩ := span_unique (hother hb) (hstop r) (hother hb') (hstop r') h
  exact ⟨hsame, (List.cons.inj hrest).2⟩

/-- **The cookie tells the user and the password**: colons stand behind both of them, and none
inside. -/
theorem loginCookie_injective
    (h : loginCookie index user pass key = loginCookie index user' pass' key) :
    user = user' ∧ pass = pass' := by
  have hparts : base64Encode user ++ 0x3A :: (base64Encode pass ++ 0x3A :: key) =
      base64Encode user' ++ 0x3A :: (base64Encode pass' ++ 0x3A :: key) := by
    simp only [loginCookie, List.append_assoc, List.append_cancel_left_eq] at h
    exact h
  obtain ⟨huser, hrest⟩ :=
    cut_unique (colon_notMem_encode user) (colon_notMem_encode user') hparts
  obtain ⟨hpass, -⟩ :=
    cut_unique (colon_notMem_encode pass) (colon_notMem_encode pass') hrest
  exact ⟨encode_injective huser, encode_injective hpass⟩

/-! ### The pages -/

/-- One text at most is assigned to a name at a place. -/
theorem AssignedAt.unique {page name v v' : List UInt8} {p : Nat} (h : AssignedAt page name p v)
    (h' : AssignedAt page name p v') : v = v' := by
  obtain ⟨-, s, after, hdrop, heq, hv⟩ := h
  obtain ⟨after', heq'⟩ := h'.behind hdrop
  obtain ⟨-, -, -, -, -, hv'⟩ := h'
  have hquoted := heq.unique (by rintro c ⟨⟩; rfl) heq' (by rintro c ⟨⟩; rfl)
  exact (cut_unique hv hv' (List.cons.inj hquoted).2).1

/-- What is first is so for one text only. -/
theorem FirstFrom.unique {page name : List UInt8} {pos : Nat} {r r' : Option (List UInt8)}
    (h : FirstFrom page name pos r) (h' : FirstFrom page name pos r') : r = r' := by
  rcases h with ⟨rfl, hnone⟩ | ⟨v, p, rfl, hp, hv, hfirst⟩ <;>
    rcases h' with ⟨rfl, hnone'⟩ | ⟨v', p', rfl, hp', hv', hfirst'⟩
  · rfl
  · exact absurd hv' (hnone _ _ hp')
  · exact absurd hv (hnone' _ _ hp)
  · obtain rfl : p = p' := Nat.le_antisymm (hfirst _ _ hp' hv') (hfirst' _ _ hp hv)
    rw [hv.unique hv']

/-- **The value of the first assignment is found.** -/
theorem findQuoted_run (page : List UInt8) {name : List UInt8} (hname : name ≠ [])
    (hident : ∀ c ∈ name, isIdent c = true) :
    ∃ r, FirstFrom page name 0 r ∧ findQuoted page name (page.length + 1) [] =
      .ok (r.isSome, r.getD []) := by
  obtain ⟨r, hloop, hr⟩ := loop_ok Fault.rounds _ _ _
    (fun pos _ => quoteRound_good hname hident (Nat.lt_succ_self page.length) pos)
    (page.length + 1) (s := 0) trivial (by omega)
  refine ⟨r, hr, ?_⟩
  rw [findQuoted, hloop, ok_bind]
  cases r with
  | none => rfl
  | some v => rfl

theorem firstFrom_of_run {page name v : List UInt8} (hname : name ≠ [])
    (hident : ∀ c ∈ name, isIdent c = true)
    (h : findQuoted page name (page.length + 1) [] = .ok (true, v)) :
    FirstFrom page name 0 (some v) := by
  obtain ⟨r, hr, hrun⟩ := findQuoted_run _ hname hident
  rw [hrun, Except.ok.injEq, Prod.mk.injEq] at h
  obtain ⟨hsome, rfl⟩ := h
  obtain ⟨v, rfl⟩ := Option.isSome_iff_exists.mp hsome
  exact hr

/-- The text of the first of the assignments to a name. -/
def firstText (as : List Assignment) (name : List UInt8) : Option (List UInt8) :=
  (as.find? fun a => a.name = name).map fun a => a.value.text

/-- What is scraped from a page of pieces. -/
theorem scrape_pieces {page : List UInt8} (h : Pieces page 0 as) :
    ∃ info, scrapeInfoParams page (page.length + 1) [] = .ok info ∧
      ∀ name, info.lookup name = firstText as name := by
  obtain ⟨info, hinfo, hscraping⟩ := scrape_ok (Nat.lt_succ_self page.length) []
  refine ⟨info, hinfo, fun name => ?_⟩
  rw [hscraping as h, lookup_emplaceAll]
  rfl

/-! ### The iLO -/

/-- An iLO that hands out `index` and `key`, and that has a console for the cookies of its accounts:
there its page tells the parameters.  With any other cookie the page that comes back, if there is
one, does not know `info0`. -/
structure Serves (get : Get) (account : List UInt8 → List UInt8 → Prop) (index key : List UInt8) :
    Prop where
  login : ∃ resp, get loginPage [] = .ok resp ∧ resp.status = 200 ∧
    FirstFrom resp.body (ascii "sessionkey") 0 (some key) ∧
    FirstFrom resp.body (ascii "sessionindex") 0 (some index)
  free : key ≠ NONEAVAILABLE
  granted : ∀ user pass, account user pass → ∃ resp as text,
    get consolePage (loginCookie index user pass key) = .ok resp ∧ resp.status = 200 ∧
      Pieces resp.body 0 as ∧ firstText as (ascii "info0") = some text ∧ text ≠ []
  refused : ∀ cookie resp,
    (∀ user pass, account user pass → cookie ≠ loginCookie index user pass key) →
      get consolePage cookie = .ok resp →
        ∃ as, Pieces resp.body 0 as ∧ firstText as (ascii "info0") = none

variable {account : List UInt8 → List UInt8 → Prop}

/-- The login page is the same for everyone: it does not see the password. -/
theorem iloLogin_serves (h : Serves get account index key) (user pass : List UInt8) :
    iloLogin get user pass = .ok (.ok (loginCookie index user pass key, index)) := by
  obtain ⟨resp, hget, hstatus, hkey, hindex⟩ := h.login
  obtain ⟨r, hr, hfind⟩ := findQuoted_run resp.body (show ascii "sessionkey" ≠ [] by decide)
    (List.all_eq_true.mp (by decide))
  obtain ⟨r', hr', hfind'⟩ := findQuoted_run resp.body (show ascii "sessionindex" ≠ [] by decide)
    (List.all_eq_true.mp (by decide))
  obtain rfl := hr.unique hkey
  obtain rfl := hr'.unique hindex
  rw [iloLogin, hget]
  dsimp only
  rw [if_neg (not_not.mpr hstatus), hfind, ok_bind, if_neg (by simp), Option.getD_some,
    if_neg h.free, hfind', ok_bind, if_neg (by simp), Option.getD_some]

/-- The console page of an account. -/
theorem fetch_granted (h : Serves get account index key) (haccount : account user pass) :
    ∃ info, fetchConsoleParams get (loginCookie index user pass key) =
        .ok (.ok { info := info, cookie := loginCookie index user pass key }) ∧
      ∀ resp as, get consolePage (loginCookie index user pass key) = .ok resp →
        Pieces resp.body 0 as → ∀ name, info.lookup name = firstText as name := by
  obtain ⟨resp, as, text, hget, hstatus, has, htext, hne⟩ := h.granted user pass haccount
  obtain ⟨info, hinfo, hlookup⟩ := scrape_pieces has
  refine ⟨info, ?_, fun resp' as' hget' has' name => ?_⟩
  · have hfound : info.lookup (ascii "info0") = some text := (hlookup _).trans htext
    rw [fetchConsoleParams, hget]
    dsimp only
    rw [if_neg (not_not.mpr hstatus), hinfo, ok_bind, if_neg]
    simp [ConsoleParams.has, ConsoleParams.get, hfound, hne]
  · rw [hget, Except.ok.injEq] at hget'
    subst hget'
    obtain ⟨info', hinfo', hlookup'⟩ := scrape_pieces has'
    rw [hinfo, Except.ok.injEq] at hinfo'
    subst hinfo'
    exact hlookup' name

/-- Any other cookie gets an error. -/
theorem fetch_refused (h : Serves get account index key)
    (hcookie : ∀ user pass, account user pass → cookie ≠ loginCookie index user pass key) :
    ∃ err, fetchConsoleParams get cookie = .ok (.error err) := by
  rw [fetchConsoleParams]
  rcases hget : get consolePage cookie with err | resp
  · exact ⟨err, rfl⟩
  dsimp only
  by_cases hstatus : resp.status = 200
  case neg => exact ⟨_, if_pos hstatus⟩
  obtain ⟨as, has, hnone⟩ := h.refused cookie resp hcookie hget
  obtain ⟨info, hinfo, hlookup⟩ := scrape_pieces has
  have hmissing : info.lookup (ascii "info0") = none := (hlookup _).trans hnone
  rw [if_neg (not_not.mpr hstatus), hinfo, ok_bind]
  exact ⟨_, if_pos (Or.inl (by simp [ConsoleParams.has, hmissing]))⟩

/-- The session of an account. -/
theorem acquire_granted (h : Serves get account index key) (haccount : account user pass) :
    ∃ cp, acquireConsoleSession get user pass = .ok (.ok cp) ∧ cp.sessionIndex = index ∧
      cp.cookie = loginCookie index user pass key ∧
      ∀ resp as, get consolePage cp.cookie = .ok resp → Pieces resp.body 0 as →
        ∀ name, cp.info.lookup name = firstText as name := by
  obtain ⟨info, hfetch, hlookup⟩ := fetch_granted h haccount
  refine ⟨⟨info, index, loginCookie index user pass key⟩, ?_, rfl, rfl, hlookup⟩
  rw [acquireConsoleSession, iloLogin_serves h, ok_bind]
  dsimp only
  rw [hfetch, ok_bind]

/-- **Who gets a session**: whoever has the credentials of an account, and nobody else.  The
parameters are those of the page that the iLO has for them. -/
theorem acquire_iff (h : Serves get account index key) (user pass : List UInt8) :
    ∃ r, acquireConsoleSession get user pass = .ok r ∧
      ((∃ cp, r = .ok cp) ↔ account user pass) ∧
      ∀ cp, r = .ok cp → cp.sessionIndex = index ∧
        cp.cookie = loginCookie index user pass key ∧
        ∀ resp as, get consolePage cp.cookie = .ok resp → Pieces resp.body 0 as →
          ∀ name, cp.info.lookup name = firstText as name := by
  by_cases haccount : account user pass
  · obtain ⟨cp, hacquire, hcp⟩ := acquire_granted h haccount
    refine ⟨_, hacquire, ⟨fun _ => haccount, fun _ => ⟨cp, rfl⟩⟩, ?_⟩
    rintro cp ⟨⟩
    exact hcp
  · -- The cookie is that of no account, as it tells who made it.
    have hcookie (user' pass' : List UInt8) (haccount' : account user' pass') :
        loginCookie index user pass key ≠ loginCookie index user' pass' key := by
      intro hsame
      obtain ⟨rfl, rfl⟩ := loginCookie_injective hsame
      exact haccount haccount'
    obtain ⟨err, hfetch⟩ := fetch_refused h hcookie
    refine ⟨.error err, ?_, ⟨?_, fun h => absurd h haccount⟩, ?_⟩
    · rw [acquireConsoleSession, iloLogin_serves h, ok_bind]
      dsimp only
      rw [hfetch, ok_bind]
    · rintro ⟨cp, ⟨⟩⟩
    · rintro cp ⟨⟩

/-! ### A page -/

/-- Nothing opens where the text left is too short for it. -/
theorem not_opens_of_length {page : List UInt8} {p : Nat} (h : page.length < p + 5) :
    ¬ Opens page p := by
  rintro ⟨-, suffix, b, rest, -, -, hopen⟩
  have hlen := congrArg List.length hopen
  have hinfo : (ascii "info").length = 4 := by decide
  rw [List.length_drop, List.length_append, List.length_append, List.length_append,
    List.length_cons] at hlen
  omega

/-- An assignment of a text in quotes, without blanks. -/
def quotedAs (suffix v : List UInt8) (hsuffix : ∀ c ∈ suffix, isParam c = true) (hv : QUOTE ∉ v) :
    Assignment :=
  ⟨suffix, [], [], .quoted v hv, hsuffix, by rintro c ⟨⟩, by rintro c ⟨⟩⟩

/-- Where a quote stands, or nothing, an identifier may begin. -/
theorem boundary_of_quote {before rest : List UInt8} (h : ∀ c ∈ before.getLast?, c = QUOTE) :
    Boundary (before ++ rest) before.length := by
  intro c hpos hc
  rw [List.getElem?_append_left (by omega), ← List.getLast?_eq_getElem?] at hc
  rw [h c hc]
  rfl

/-- Assignments of texts in quotes, side by side, are the pieces of a page. -/
theorem pieces_quoted (as : List Assignment) : ∀ before : List UInt8,
    (∀ c ∈ before.getLast?, c = QUOTE) → (∀ a ∈ as, ∃ v plain, a.value = .quoted v plain) →
      Pieces (before ++ (as.map Assignment.write).flatten) before.length as := by
  induction as with
  | nil =>
      intro before _ _
      refine .text fun p hp => not_opens_of_length ?_
      rw [List.map_nil, List.flatten_nil, List.append_nil]
      omega
  | cons a as ih =>
      intro before hlast hquoted
      obtain ⟨v, plain, hv⟩ := hquoted a List.mem_cons_self
      have hend : ∀ c ∈ (before ++ a.write).getLast?, c = QUOTE := by
        intro c hc
        rw [Assignment.write, hv, Value.write] at hc
        simp [List.getLast?_append, List.getLast?_cons] at hc
        exact hc.symm
      have hrest := ih (before ++ a.write) hend fun a ha => hquoted a (List.mem_cons_of_mem _ ha)
      rw [List.length_append, List.append_assoc] at hrest
      rw [List.map_cons, List.flatten_cons]
      refine .assignment (Nat.le_refl _) (fun p hp hlt => absurd hp (Nat.not_le_of_lt hlt))
        (boundary_of_quote hlast) (List.drop_left ..) ?_ hrest
      rw [hv]
      trivial

/-- An iLO with one account, `a` with the password `b`, for which its page has these assignments. -/
def oneAccount (as : List Assignment) : Get := fun path cookie =>
  if path = loginPage then
    .ok { status := 200, body := ascii "sessionkey=\"K\" sessionindex=\"1\"" }
  else if cookie = loginCookie (ascii "1") (ascii "a") (ascii "b") (ascii "K") then
    .ok { status := 200, body := (as.map Assignment.write).flatten }
  else .ok { status := 200, body := ascii "no" }

theorem serves_oneAccount (hquoted : ∀ a ∈ as, ∃ v plain, a.value = .quoted v plain)
    {text : List UInt8} (htext : firstText as (ascii "info0") = some text) (hne : text ≠ []) :
    Serves (oneAccount as) (fun user pass => user = ascii "a" ∧ pass = ascii "b") (ascii "1")
      (ascii "K") where
  login := ⟨_, rfl, rfl,
    firstFrom_of_run (by decide) (List.all_eq_true.mp (by decide)) (by rfl),
    firstFrom_of_run (by decide) (List.all_eq_true.mp (by decide)) (by rfl)⟩
  free := by decide
  granted := by
    rintro user pass ⟨rfl, rfl⟩
    exact ⟨_, as, text, by rfl, rfl, pieces_quoted as [] (by rintro c ⟨⟩) hquoted, htext, hne⟩
  refused := by
    intro cookie resp hcookie hget
    rw [oneAccount, if_neg (by decide), if_neg (hcookie _ _ ⟨rfl, rfl⟩)] at hget
    cases hget
    exact ⟨[], .text fun p _ => not_opens_of_length (Nat.lt_of_lt_of_le (by decide)
      (Nat.le_add_left 5 p)), rfl⟩

/-- `info0="QQ=="`. -/
def info0 : Assignment :=
  quotedAs (ascii "0") (ascii "QQ==") (List.all_eq_true.mp (by decide)) (by decide)

theorem acquire_iff_one :
    (∃ r, acquireConsoleSession (oneAccount [info0]) (ascii "a") (ascii "b") = .ok r ∧
      ∃ cp, r = .ok cp) ∧
    ∃ r, acquireConsoleSession (oneAccount [info0]) (ascii "a") (ascii "B") = .ok r ∧
      ¬ ∃ cp, r = .ok cp := by
  have hquoted : ∀ a ∈ [info0], ∃ v plain, a.value = .quoted v plain := by
    intro a ha
    rw [List.mem_singleton.mp ha]
    exact ⟨_, _, rfl⟩
  have hserves := serves_oneAccount hquoted
    (show firstText [info0] (ascii "info0") = some (ascii "QQ==") by rfl) (by decide)
  obtain ⟨r, hr, hiff, -⟩ := acquire_iff hserves (ascii "a") (ascii "b")
  obtain ⟨r', hr', hiff', -⟩ := acquire_iff hserves (ascii "a") (ascii "B")
  exact ⟨⟨r, hr, hiff.mpr ⟨rfl, rfl⟩⟩, r', hr', fun h => absurd (hiff'.mp h).2 (by decide)⟩

end Ilo2.Session
