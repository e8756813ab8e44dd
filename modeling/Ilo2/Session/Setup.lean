import Ilo2.Session.Acquire
import Ilo2.Session.Input
import Ilo2.Session.Outbound

/-!
# From the pages to the wire

`live_thread` of `console_core.hpp`, up to the point where it hands the session to `run`: the
parameters of the console are read, the keys are set up, the login text is sent, and the mouse is
made absolute.

* `hex16_hexText`, `toUInt32_spells` - a key and a key index are read back.
* `Ticket` - what an iLO has to tell: a token, the keys, the index of the key, and the port.
* `live_ticket` - **what the console port gets**, for an account of an iLO whose page tells the
  ticket.
-/

namespace Ilo2.Session

open Scan Text Checked Crypto
open Strtol (atoi Numeric)
open Tls (ascii)

/-! ### The thread -/

/-- The lambda `nyb` of `hex16`. -/
def nyb (c : UInt8) : Option Nat :=
  if 0x30 ≤ c ∧ c ≤ 0x39 then some (c.toNat - 0x30)
  else if 0x61 ≤ c ∧ c ≤ 0x66 then some (c.toNat - 0x61 + 10)
  else if 0x41 ≤ c ∧ c ≤ 0x46 then some (c.toNat - 0x41 + 10)
  else none

/-- `out[i]`. -/
def hexByte (s : List UInt8) (i : Nat) : Option UInt8 := do
  let hi ← nyb (s.getD (2 * i) 0)
  let lo ← nyb (s.getD (2 * i + 1) 0)
  some (hi <<< 4 ||| lo).toUInt8

/-- `hex16`: 32 digits; what follows them is not looked at. -/
def hex16 (s : List UInt8) : Option (Vector UInt8 16) :=
  if s.length < 32 then none else Vector.ofFnM fun i => hexByte s i

/-- The arguments of `live_thread`, of its configuration. -/
structure LiveConfig where
  user : List UInt8
  pass : List UInt8
  consolePort : Int := 0

def ESC7 : List UInt8 := [0x1B, 0x5B, 0x37]
def ESC9 : List UInt8 := [0x1B, 0x5B, 0x39]
def ESC4 : List UInt8 := [0x1B, 0x5B, 0x34]

/-- `login`. -/
def loginText (cp : ConsoleParams) : List UInt8 :=
  let login := hpBase64Decode (cp.get (ascii "info0") [])
  if login ≠ [] then
    let login := if cp.has (ascii "info1") then ESC4 ++ login else login
    ESC7 ++ ESC9 ++ login
  else login

/-- The session with its keys, unless they are malformed. -/
def setupKeys (cp : ConsoleParams) : Option Outbound :=
  if cp.get (ascii "infoa") (ascii "1") = ascii "1" then do
    let kb ← hex16 (cp.get (ascii "infob") [])
    let kc ← hex16 (cp.get (ascii "infoc") [])
    some ((Outbound.setupDecryption {} kb).setupEncryption kc
      (UInt32.ofInt (atoi (cp.get (ascii "infod") (ascii "0")))))
  else some {}

/-- The port of the console. -/
def portOf (cfg : LiveConfig) (cp : ConsoleParams) : Int :=
  if cfg.consolePort ≠ 0 then cfg.consolePort else atoi (cp.get (ascii "info6") (ascii "23"))

/-- `live_thread`, up to `run`: the session, or what `fail` is told.  `reached` says whether a
socket can be connected to the port. -/
def liveThread (get : Get) (accept : Accept) (reached : Int → Bool) (cfg : LiveConfig) :
    Except Fault (Except (List UInt8) Outbound) := do
  match ← acquireConsoleSession get cfg.user cfg.pass with
  | .error err => .ok (.error err)
  | .ok cp =>
      if cp.get (ascii "info0") [] = [] then
        .ok (.error (ascii "no info0 in the console parameters"))
      else
        match setupKeys cp with
        | none => .ok (.error (ascii "malformed session keys (infob/infoc)"))
        | some sess =>
            let (opened, sess) := sess.connect accept (reached (portOf cfg cp)) (loginText cp)
            if opened then .ok (.ok (sess.transmit accept (Input.selectMouse true)))
            else .ok (.error (ascii "cannot connect to the console port " ++
              toString (portOf cfg cp)))

/-! ### Keys and numbers -/

/-- A hexadecimal digit, in capitals or not. -/
def hexDigit (upper : Bool) (n : Nat) : UInt8 :=
  if n < 10 then (0x30 + n).toUInt8 else ((if upper then 0x41 else 0x61) + (n - 10)).toUInt8

def hexText (upper : Bool) (key : List UInt8) : List UInt8 :=
  key.flatMap fun b => [hexDigit upper (b.toNat / 16), hexDigit upper (b.toNat % 16)]

theorem nyb_hexDigit (upper : Bool) : ∀ n < 16, nyb (hexDigit upper n) = some n := by
  cases upper with
  | true => decide
  | false => decide

@[simp] theorem length_hexText (upper : Bool) (key : List UInt8) :
    (hexText upper key).length = 2 * key.length := by
  induction key with
  | nil => rfl
  | cons b key ih =>
      rw [hexText, List.flatMap_cons, List.length_append, ← hexText, ih]
      simp only [List.length_cons, List.length_nil]
      omega

/-- The two digits of a byte. -/
theorem getD_hexText (upper : Bool) (rest : List UInt8) : ∀ (key : List UInt8) (i : Nat)
    (h : i < key.length),
    (hexText upper key ++ rest).getD (2 * i) 0 = hexDigit upper (key[i].toNat / 16) ∧
      (hexText upper key ++ rest).getD (2 * i + 1) 0 = hexDigit upper (key[i].toNat % 16) := by
  intro key
  induction key with
  | nil => intro i h; exact absurd h (Nat.not_lt_zero i)
  | cons b key ih =>
      intro i h
      cases i with
      | zero => exact ⟨rfl, rfl⟩
      | succ i => exact ih i (Nat.lt_of_succ_lt_succ h)

/-- A byte is put together again. -/
theorem nibbles (b : UInt8) : ((b.toNat / 16) <<< 4 ||| b.toNat % 16).toUInt8 = b := by
  have hlow : b.toNat % 16 < 2 ^ 4 := Nat.mod_lt _ (by decide)
  have hor : (b.toNat / 16) <<< 4 ||| b.toNat % 16 = b.toNat := by
    rw [← Nat.shiftLeft_add_eq_or_of_lt hlow, Nat.shiftLeft_eq]
    omega
  rw [hor]
  apply UInt8.toNat_inj.mp
  simp [Nat.toUInt8]

/-- **A key is read back**, whatever follows it. -/
theorem hex16_hexText (upper : Bool) (key : Vector UInt8 16) (rest : List UInt8) :
    hex16 (hexText upper key.toList ++ rest) = some key := by
  have hbyte (i : Fin 16) : hexByte (hexText upper key.toList ++ rest) i = pure key[i] := by
    have hi : i.val < key.toList.length := by simp
    obtain ⟨hhi, hlo⟩ := getD_hexText upper rest key.toList i.val hi
    have hb := key.toList[i.val].toNat_lt
    rw [hexByte, hhi, hlo, nyb_hexDigit upper _ (by omega), nyb_hexDigit upper _ (by omega)]
    dsimp only [Option.bind_eq_bind, Option.bind_some]
    rw [nibbles]
    simp
  have hlen : ¬ (hexText upper key.toList ++ rest).length < 32 := by
    rw [List.length_append, length_hexText, Vector.length_toList]
    omega
  rw [hex16, if_neg hlen, funext hbyte, Vector.ofFnM_pure]
  refine congrArg some (Vector.ext fun i hi => ?_)
  simp

/-- The text of an `int` with these 32 bits, in decimal. -/
def Spells (text : List UInt8) (w : UInt32) : Prop :=
  Numeric text w.toNat ∨ ∃ s n, text = 0x2D :: s ∧ Numeric s n ∧ w.toNat + n = 2 ^ 32

theorem ofInt_toInt32 {n : Int} {w : UInt32} (h : n % 2 ^ 32 = w.toNat) :
    UInt32.ofInt (Strtol.toInt32 n) = w := by
  apply UInt32.toNat_inj.mp
  have hmod : Strtol.toInt32 n % 2 ^ 32 = n % 2 ^ 32 := Int.bmod_emod
  have hw : ((UInt32.ofInt (Strtol.toInt32 n)).toNat : Int) = Strtol.toInt32 n % 2 ^ 32 := by
    simp [UInt32.ofInt]
    omega
  omega

/-- **A key index is read back**, also from a negative number. -/
theorem toUInt32_spells {text : List UInt8} {w : UInt32} (h : Spells text w) :
    UInt32.ofInt (atoi text) = w := by
  have hw := w.toNat_lt
  rw [atoi]
  rcases h with h | ⟨s, n, rfl, h, hn⟩
  · rw [Strtol.strtol_digits h]
    refine ofInt_toInt32 ?_
    simp only [Option.getD_some]
    omega
  · rw [Strtol.strtol_minus h]
    refine ofInt_toInt32 ?_
    simp only [Option.getD_some]
    omega

theorem atoi_numeric {text : List UInt8} {n : Nat} (h : Numeric text n) (hn : n < 2 ^ 31) :
    atoi text = n := by
  rw [atoi, Strtol.strtol_digits h, Strtol.toInt32]
  simp only [Option.getD_some]
  rw [Int.bmod_def]
  split <;> omega

/-! ### Tickets -/

/-- What an iLO tells of a console: a token, a flag, the two keys and the index of the second, if
the console is encrypted, and the port. -/
structure Ticket where
  token : List UInt8
  flag : Bool
  keys : Option (Vector UInt8 16 × Vector UInt8 16 × UInt32)
  port : Nat

namespace Ticket

/-- The text that opens the console. -/
def text (t : Ticket) : List UInt8 :=
  ESC7 ++ ESC9 ++ (if t.flag then ESC4 else []) ++
    ((t.token.map fun b => if b = 0x3A then 0x0D else b) ++ [0x0D])

/-- The cipher for what the console sends. -/
def decrypter (t : Ticket) : Option RC4 := t.keys.map fun keys => RC4.ofSeed keys.1

/-- What the console port is to get: with keys, the index of the key in the clear, and everything
else under one keystream. -/
def stream (t : Ticket) (texts : List (List UInt8)) : List UInt8 :=
  match t.keys with
  | some (_, kc, k) =>
      [0xFF, 0xC0] ++ BigEndian.bytes 4 k.toNat ++
        ((RC4.ofSeed kc).crypt (t.text ++ texts.flatten)).1
  | none => t.text ++ texts.flatten

/-- How the keys stand in the parameters: in hexadecimal, with anything behind them. -/
def Keyed (as : List Assignment) : Option (Vector UInt8 16 × Vector UInt8 16 × UInt32) → Prop
  | some (kb, kc, k) =>
      (firstText as (ascii "infoa")).getD (ascii "1") = ascii "1" ∧
        (∃ upper rest, firstText as (ascii "infob") = some (hexText upper kb.toList ++ rest)) ∧
        (∃ upper rest, firstText as (ascii "infoc") = some (hexText upper kc.toList ++ rest)) ∧
        Spells ((firstText as (ascii "infod")).getD (ascii "0")) k
  | none => (firstText as (ascii "infoa")).getD (ascii "1") ≠ ascii "1"

/-- The assignments of a page tell the ticket. -/
structure Told (t : Ticket) (as : List Assignment) : Prop where
  token : firstText as (ascii "info0") = some (base64Encode t.token)
  ne : t.token ≠ []
  flag : (firstText as (ascii "info1")).isSome = t.flag
  keys : Keyed as t.keys
  port : Numeric ((firstText as (ascii "info6")).getD (ascii "23")) t.port ∧ t.port < 2 ^ 31

variable {t : Ticket} {as : List Assignment} {cp : ConsoleParams} {accept : Accept}

/-- The token is decoded, with its quirks. -/
theorem hpBase64Decode_encode {token : List UInt8} (hne : token ≠ []) :
    hpBase64Decode (base64Encode token) =
      (token.map fun b => if b = 0x3A then 0x0D else b) ++ [0x0D] := by
  have hfix : (fun b : UInt8 => fix b.toNat) = fun b => if b = 0x3A then 0x0D else b := by
    funext b
    have hb := b.toNat_lt
    have hlow : b.toNat &&& 0xFF = b.toNat := by
      rw [show 0xFF = 2 ^ 8 - 1 from rfl, Nat.and_two_pow_sub_one_eq_mod]
      omega
    rw [fix, hlow]
    simp [← UInt8.toNat_inj, Nat.toUInt8]
  rw [hpBase64Decode, decodeLoop_encode lowByte_fix, hfix]
  exact if_pos (by simpa using hne)

theorem Told.loginText (h : t.Told as) (hcp : ∀ name, cp.info.lookup name = firstText as name) :
    loginText cp = t.text := by
  have hinfo0 : cp.get (ascii "info0") [] = base64Encode t.token := by
    rw [ConsoleParams.get, hcp, h.token, Option.getD_some]
  have hflag : cp.has (ascii "info1") = t.flag := by
    rw [ConsoleParams.has, hcp, h.flag]
  rw [Session.loginText, hinfo0, hpBase64Decode_encode h.ne, hflag]
  dsimp only
  rw [if_pos (by simp), text]
  cases t.flag with
  | true => simp only [if_true, List.append_assoc]
  | false => simp only [Bool.false_eq_true, if_false, List.append_assoc, List.nil_append]

/-- The session with the keys of the ticket. -/
def session (t : Ticket) : Outbound :=
  match t.keys with
  | some (kb, kc, k) => (Outbound.setupDecryption {} kb).setupEncryption kc k
  | none => {}

theorem Told.setupKeys (h : t.Told as) (hcp : ∀ name, cp.info.lookup name = firstText as name) :
    setupKeys cp = some t.session := by
  have hkeys := h.keys
  rw [Session.setupKeys, session, ConsoleParams.get, ConsoleParams.get, ConsoleParams.get,
    ConsoleParams.get, hcp, hcp, hcp, hcp]
  cases hk : t.keys with
  | none =>
      rw [hk] at hkeys
      exact if_neg hkeys
  | some keys =>
      obtain ⟨kb, kc, k⟩ := keys
      rw [hk] at hkeys
      obtain ⟨ha, ⟨upper, rest, hb⟩, ⟨upper', rest', hc⟩, hd⟩ := hkeys
      rw [if_pos ha, hb, hc, Option.getD_some, Option.getD_some, hex16_hexText, hex16_hexText,
        toUInt32_spells hd]
      rfl

theorem Told.portOf (h : t.Told as) (hcp : ∀ name, cp.info.lookup name = firstText as name)
    (cfg : LiveConfig) :
    portOf cfg cp = if cfg.consolePort ≠ 0 then cfg.consolePort else t.port := by
  rw [Session.portOf, ConsoleParams.get, hcp, atoi_numeric h.port.1 h.port.2]

theorem length_text_le (t : Ticket) : t.text.length ≤ t.token.length + 10 := by
  rw [text]
  simp only [List.length_append, List.length_map, List.length_singleton]
  have hESC : ESC7.length = 3 ∧ ESC9.length = 3 ∧ ESC4.length = 3 := ⟨rfl, rfl, rfl⟩
  cases t.flag with
  | true =>
      rw [if_pos rfl]
      omega
  | false =>
      rw [if_neg Bool.false_ne_true, List.length_nil]
      omega

/-- Texts that are sent in the clear. -/
theorem texts_plain (hlive : Live accept) (texts : List (List UInt8)) : ∀ {o : Outbound},
    o.connected = true → o.encryptionActive = false → (∀ s ∈ texts, s.length < 2 ^ 31) →
      (texts.foldl (Outbound.transmit accept) o).wire = o.wire ++ texts.flatten := by
  induction texts with
  | nil => intro o _ _ _; exact (List.append_nil _).symm
  | cons s texts ih =>
      intro o hopen hplain hshort
      have hstep : o.transmit accept s = o.write accept s := by
        rw [Outbound.transmit, hplain]
        split
        · rename_i hnil
          exact (if_pos (Or.inr hnil)).symm
        · rfl
      rw [List.foldl_cons, hstep, Outbound.write_eq accept o hopen]
      rw [ih (by exact hopen) (by exact hplain) fun s hs => hshort s (List.mem_cons_of_mem _ hs),
        List.flatten_cons, ← List.append_assoc]
      congr 1
      exact sendAll_takes hlive (hshort s List.mem_cons_self)

/-- **The session is streamed**, once the port is reached. -/
theorem connect_stream (hlive : Live accept) (hshort : t.token.length + 16 < 2 ^ 31)
    {texts : List (List UInt8)} (htexts : ∀ s ∈ texts, s.length < 2 ^ 31) :
    (texts.foldl (Outbound.transmit accept) (t.session.connect accept true t.text).2).wire =
      t.stream texts := by
  have hlen := length_text_le t
  rw [session, stream]
  cases hk : t.keys with
  | none =>
      dsimp only
      have hall : (texts.foldl (Outbound.transmit accept)
          (({} : Outbound).connect accept true t.text).2).wire =
          ((t.text :: texts).foldl (Outbound.transmit accept) { connected := true }).wire := rfl
      rw [hall, texts_plain hlive (t.text :: texts) rfl rfl]
      · rfl
      · intro s hs
        rcases List.mem_cons.mp hs with rfl | hs
        · omega
        · exact htexts s hs
  | some keys =>
      obtain ⟨kb, kc, k⟩ := keys
      dsimp only
      obtain ⟨o, ho, hwire, hrun⟩ := Outbound.run_streaming accept kb kc k t.text
      have hfirst := Outbound.length_first kc k t.text
      rw [sendAll_takes hlive (by omega), List.nil_append] at hwire
      rw [show texts.foldl (Outbound.transmit accept) _ =
        Outbound.run accept kb kc k t.text texts from rfl, hrun,
        Outbound.texts_wire hlive texts ho htexts, hwire, Outbound.indexBytes_eq, List.append_assoc]
      show _ = _ ++ (Keystream.crypt RC4.randomValue (RC4.ofSeed kc) (t.text ++ texts.flatten)).1
      rw [Keystream.crypt_append]
      rfl

theorem transmit_decrypter (accept : Accept) (o : Outbound) (s : List UInt8) :
    (o.transmit accept s).session.rc4Decrypter = o.session.rc4Decrypter := by
  have hwrite (o : Outbound) (data : List UInt8) : (o.write accept data).session = o.session := by
    rw [Outbound.write]
    split
    · rfl
    · rfl
  rw [Outbound.transmit]
  split
  · rfl
  split
  · rw [hwrite]
  · rw [hwrite]

theorem connect_reached (accept : Accept) (t : Ticket) :
    (t.session.connect accept true t.text).1 = true ∧
      (t.session.connect accept true t.text).2.session.rc4Decrypter = t.decrypter := by
  rw [session, decrypter]
  cases t.keys with
  | none => exact ⟨rfl, by rw [Outbound.connect]; exact transmit_decrypter accept _ _⟩
  | some keys => exact ⟨rfl, by rw [Outbound.connect]; exact transmit_decrypter accept _ _⟩

theorem connect_unreached (accept : Accept) (t : Ticket) (login : List UInt8) :
    (t.session.connect accept false login).1 = false := by
  rw [session]
  cases t.keys with
  | none => rfl
  | some keys => rfl

end Ticket

variable {get : Get} {account : List UInt8 → List UInt8 → Prop} {index key : List UInt8}
  {t : Ticket} {as : List Assignment} {accept : Accept}

/-- **From the pages to the wire**: with the credentials of an account, on a page that tells the
ticket, the console port gets the stream of the ticket, beginning with the mouse, and what the
console sends is decrypted with the other key; if the port is not reached, the error says so. -/
theorem live_ticket (cfg : LiveConfig) (reached : Int → Bool) (h : Serves get account index key)
    (haccount : account cfg.user cfg.pass) {resp : Tls.HttpResponse}
    (hget : get consolePage (loginCookie index cfg.user cfg.pass key) = .ok resp)
    (has : Pieces resp.body 0 as) (htold : t.Told as) (hlive : Live accept)
    (hshort : t.token.length + 16 < 2 ^ 31) :
    let port : Int := if cfg.consolePort ≠ 0 then cfg.consolePort else t.port
    if reached port = true then
      ∃ o, liveThread get accept reached cfg = .ok (.ok o) ∧
        o.session.rc4Decrypter = t.decrypter ∧
        ∀ texts : List (List UInt8), (∀ s ∈ texts, s.length < 2 ^ 31) →
          (texts.foldl (Outbound.transmit accept) o).wire =
            t.stream (Input.selectMouse true :: texts)
    else
      liveThread get accept reached cfg =
        .ok (.error (ascii "cannot connect to the console port " ++ toString port)) := by
  obtain ⟨cp, hacquire, -, hcookie, hinfo⟩ := acquire_granted h haccount
  have hlookup := hinfo resp as (by rw [hcookie]; exact hget) has
  have hinfo0 : cp.get (ascii "info0") [] ≠ [] := by
    rw [ConsoleParams.get, hlookup, htold.token, Option.getD_some]
    intro hnil
    have hlen := length_encode t.token
    have hpos := List.length_pos_iff.mpr htold.ne
    rw [hnil, List.length_nil] at hlen
    omega
  dsimp only
  rw [liveThread, hacquire, ok_bind]
  dsimp only
  rw [if_neg hinfo0, htold.setupKeys hlookup]
  dsimp only
  rw [htold.portOf hlookup, htold.loginText hlookup]
  by_cases hreached : reached (if cfg.consolePort ≠ 0 then cfg.consolePort else t.port) = true
  · rw [if_pos hreached, hreached, if_pos (Ticket.connect_reached accept t).1]
    refine ⟨_, rfl, ?_, fun texts htexts => ?_⟩
    · rw [Ticket.transmit_decrypter, (Ticket.connect_reached accept t).2]
    · have hall : ∀ s ∈ Input.selectMouse true :: texts, s.length < 2 ^ 31 := by
        intro s hs
        rcases List.mem_cons.mp hs with rfl | hs
        · decide
        · exact htexts s hs
      exact Ticket.connect_stream hlive hshort hall
  · rw [if_neg hreached, Bool.eq_false_iff.mpr hreached]
    rw [if_neg (by rw [Ticket.connect_unreached]; exact Bool.false_ne_true)]

/-- The token `A`, and keys that are all zero. -/
def zeroTicket : Ticket :=
  { token := ascii "A", flag := false, port := 23
    keys := some (Vector.replicate 16 0, Vector.replicate 16 0, 0) }

/-- A key that is zero, on a page. -/
def zeroKey : List UInt8 := List.replicate 32 0x30

/-- The page for it: the index of the key and the port are left out. -/
def zeroPage : List Assignment :=
  [info0, quotedAs (ascii "b") zeroKey (List.all_eq_true.mp (by decide)) (by decide),
    quotedAs (ascii "c") zeroKey (List.all_eq_true.mp (by decide)) (by decide)]

theorem live_ticket_zero :
    ∃ o, liveThread (oneAccount zeroPage) takesAll (fun _ => true) ⟨ascii "a", ascii "b", 0⟩ =
        .ok (.ok o) ∧
      o.wire = zeroTicket.stream [Input.selectMouse true] := by
  have hquoted : ∀ a ∈ zeroPage, ∃ v plain, a.value = .quoted v plain := by
    intro a ha
    rw [zeroPage] at ha
    rcases List.mem_cons.mp ha with rfl | ha
    · exact ⟨_, _, rfl⟩
    rcases List.mem_cons.mp ha with rfl | ha
    · exact ⟨_, _, rfl⟩
    · rw [List.mem_singleton.mp ha]
      exact ⟨_, _, rfl⟩
  have htold : zeroTicket.Told zeroPage :=
    ⟨by rfl, by decide, by rfl,
      ⟨by rfl, ⟨false, [], by rfl⟩, ⟨false, [], by rfl⟩, .inl (by decide +kernel)⟩,
      by decide +kernel⟩
  have hserves := serves_oneAccount hquoted
    (show firstText zeroPage (ascii "info0") = some (ascii "QQ==") by rfl) (by decide)
  have hlive := live_ticket ⟨ascii "a", ascii "b", 0⟩ (fun _ => true) hserves ⟨rfl, rfl⟩ (by rfl)
    (pieces_quoted zeroPage [] (by rintro c ⟨⟩) hquoted) htold live_takesAll (by decide)
  obtain ⟨o, ho, -, hwire⟩ := hlive
  exact ⟨o, ho, hwire [] (by rintro s ⟨⟩)⟩

end Ilo2.Session
