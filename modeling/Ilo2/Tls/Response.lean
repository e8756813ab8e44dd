import Ilo2.Tls.Chunked

/-!
# What `https_get` returns

The read loop decides after every record whether the response is complete, and the result
is computed again from the bytes it stopped with.

* `https_get_whole_iff` - **a response is never cut short**, exactly if the peer does not
  close before the last byte of the declared length, and no accepted chunk size wraps around.
* `https_get_records` - **the cuts between the records do not matter**: after an orderly
  close the result is a function of the bytes.
-/

namespace Ilo2.Tls

open Text Strtol

theorem CRLF2_ne : CRLF2 ≠ [] := by decide

/-- The headers of a response, complete or not. -/
def headersOf (s : List UInt8) : List UInt8 :=
  match find CRLF2 s with
  | none => s
  | some e => s.take e

/-- The bytes that follow the headers. -/
def bodyOf (s : List UInt8) : List UInt8 :=
  match find CRLF2 s with
  | none => []
  | some e => s.drop (e + 4)

variable {s t raw : List UInt8} {e rounds calls : Nat}

theorem headersOf_append (h : find CRLF2 s = some e) (t : List UInt8) :
    headersOf (s ++ t) = headersOf s := by
  have hle := find_le CRLF2_ne h
  rw [headersOf, headersOf, find_append CRLF2_ne h, h]
  dsimp only
  rw [List.take_append_of_le_length (by omega)]

theorem bodyOf_append (h : find CRLF2 s = some e) (t : List UInt8) :
    bodyOf (s ++ t) = bodyOf s ++ t := by
  have hle : e + 4 ≤ s.length := find_le CRLF2_ne h
  rw [bodyOf, bodyOf, find_append CRLF2_ne h, h]
  dsimp only
  rw [List.drop_append_of_le_length hle]

theorem prefix_bodyOf (s t : List UInt8) : bodyOf s <+: bodyOf (s ++ t) := by
  cases h : find CRLF2 s with
  | none =>
      rw [bodyOf, h]
      exact List.nil_prefix
  | some e =>
      rw [bodyOf_append h]
      exact List.prefix_append _ _

theorem bodyOf_length_le (s : List UInt8) : (bodyOf s).length ≤ s.length := by
  unfold bodyOf
  split
  · exact Nat.zero_le _
  · rw [List.length_drop]
    exact Nat.sub_le _ _

/-! ### What the loop knows -/

/-- What the loop knows once it has looked at the bytes `s`. -/
def reading (s : List UInt8) : Reading :=
  match find CRLF2 s with
  | none => { raw := s }
  | some e =>
      let cl := contentLength (s.take e)
      { raw := s, headerEnd := some e, chunked := isChunked (s.take e)
        contentLength := if cl ≠ [] then strtoul 10 cl else ULONG_MAX }

theorem look_fresh (s : List UInt8) : Reading.look { raw := s } = reading s := by
  cases h : find CRLF2 s <;> simp only [Reading.look, reading, h]

theorem reading_raw (s : List UInt8) : (reading s).raw = s := by
  unfold reading
  split <;> rfl

/-- Once found, the end of the headers stays where it is. -/
theorem look_reading (s t : List UInt8) :
    Reading.look { reading s with raw := s ++ t } = reading (s ++ t) := by
  cases h : find CRLF2 s with
  | none =>
      have hr : reading s = { raw := s } := by rw [reading, h]
      rw [hr]
      exact look_fresh (s ++ t)
  | some e =>
      have hle := find_le CRLF2_ne h
      simp only [Reading.look, reading, h, find_append CRLF2_ne h]
      rw [List.take_append_of_le_length (by omega)]

/-- Whether the loop stops with the bytes `s`. -/
def ready (rounds : Nat) (s : List UInt8) : Option Bool := (reading s).complete rounds

theorem ready_none (h : find CRLF2 s = none) : ready rounds s = some false := by
  rw [ready, reading, h]
  rfl

theorem ready_some (h : find CRLF2 s = some e) : ready rounds s =
    if isChunked (headersOf s) then (dechunk rounds (bodyOf s)).map Prod.fst
    else if contentLength (headersOf s) ≠ [] ∧ strtoul 10 (contentLength (headersOf s)) ≠ ULONG_MAX
    then some (decide ((bodyOf s).length ≥ strtoul 10 (contentLength (headersOf s))))
    else some false := by
  have hh : headersOf s = s.take e := by rw [headersOf, h]
  have hb : bodyOf s = s.drop (e + 4) := by rw [bodyOf, h]
  rw [ready, reading, h, hh, hb]
  dsimp only [Reading.complete]
  split
  · rfl
  · by_cases hcl : contentLength (s.take e) = []
    · simp [hcl]
    · simp [hcl]

/-- A response that is ready has its headers. -/
theorem exists_of_ready (h : ready rounds s ≠ some false) : ∃ e, find CRLF2 s = some e := by
  cases hf : find CRLF2 s with
  | none => exact absurd (ready_none hf) h
  | some e => exact ⟨e, rfl⟩

/-! ### The read loop -/

variable {C : Type} {ch : Channel C} {c c' : C} {r : Reading} {rs : List (List UInt8)}

theorem readResponse_succ (hr : r.look = reading s) : readResponse ch rounds (calls + 1) r c =
    match ready rounds s with
    | none => .error .unfinished
    | some true => .ok s
    | some false =>
        match ch.recv c with
        | (.data chunk, c) =>
            if (s ++ chunk).length > MAX_RESPONSE then .error (.failed "response too large")
            else readResponse ch rounds calls { reading s with raw := s ++ chunk } c
        | (.closed _, _) => .ok s
        | (.failed e, _) => .error e := by
  rw [readResponse]
  dsimp only
  rw [hr, reading_raw]
  rfl

/-- **What the loop stops with**: the bytes of some records, and they are complete or the
peer has closed. -/
theorem readResponse_ok (hr : r.look = reading s) (hs : s.length ≤ MAX_RESPONSE)
    (h : readResponse ch rounds calls r c = .ok raw) :
    ∃ rs c', Gets ch c rs c' ∧ raw = s ++ rs.flatten ∧ raw.length ≤ MAX_RESPONSE ∧
      (ready rounds raw = some true ∨ ∃ e, (ch.recv c').1 = .closed e) := by
  induction calls generalizing r s c with
  | zero => cases h
  | succ calls ih =>
      rw [readResponse_succ hr] at h
      have hnil : s = s ++ ([] : List (List UInt8)).flatten := by simp
      cases hready : ready rounds s with
      | none => simp [hready] at h
      | some b =>
          rw [hready] at h
          cases b with
          | true =>
              cases h
              exact ⟨[], c, .nil, hnil, hs, Or.inl hready⟩
          | false =>
              dsimp only at h
              rcases hrecv : ch.recv c with ⟨chunk | e | e, c₁⟩ <;> rw [hrecv] at h <;>
                dsimp only at h
              · split at h
                · cases h
                · rename_i hlen
                  obtain ⟨rs, c', hgets, rfl, hle, hend⟩ :=
                    ih (look_reading s chunk) (Nat.le_of_not_gt hlen) h
                  exact ⟨chunk :: rs, c', .cons hrecv hgets, by simp, hle, hend⟩
              · cases h
                exact ⟨[], c, .nil, hnil, hs, Or.inr ⟨e, by rw [hrecv]⟩⟩
              · cases h

/-- **The loop does stop**, if the decoder ends on every prefix and the response becomes
ready or the peer closes. -/
theorem readResponse_stops (rounds : Nat) (hgets : Gets ch c rs c') (hr : r.look = reading s)
    (hlen : (s ++ rs.flatten).length ≤ MAX_RESPONSE)
    (hends : ∀ p, p <+: rs → ready rounds (s ++ p.flatten) ≠ none)
    (hstop : ready rounds (s ++ rs.flatten) = some true ∨ ∃ e, (ch.recv c').1 = .closed e)
    (hcalls : rs.length < calls) : ∃ p more, rs = p ++ more ∧
      readResponse ch rounds calls r c = .ok (s ++ p.flatten) ∧
      (ready rounds (s ++ p.flatten) = some true ∨ more = []) := by
  induction hgets generalizing r s calls with
  | @nil c =>
      obtain ⟨calls, rfl⟩ : ∃ k, calls = k + 1 := ⟨calls - 1, by omega⟩
      refine ⟨[], [], rfl, ?_, Or.inr rfl⟩
      have hend := hends [] List.nil_prefix
      simp only [List.flatten_nil, List.append_nil] at hstop hend ⊢
      rw [readResponse_succ hr]
      cases hready : ready rounds s with
      | none => exact absurd hready hend
      | some b =>
          cases b with
          | true => rfl
          | false =>
              rw [hready] at hstop
              rcases hstop with h | ⟨e, h⟩
              · cases h
              · rcases hrecv : ch.recv c with ⟨o, c₁⟩
                rw [hrecv] at h
                cases h
                rfl
  | @cons c c₁ c₂ bs rs hrecv _ ih =>
      obtain ⟨calls, rfl⟩ : ∃ k, calls = k + 1 := ⟨calls - 1, by omega⟩
      have hend := hends [] List.nil_prefix
      simp only [List.flatten_nil, List.append_nil] at hend
      rw [readResponse_succ hr]
      cases hready : ready rounds s with
      | none => exact absurd hready hend
      | some b =>
          cases b with
          | true => exact ⟨[], bs :: rs, rfl, by simp, Or.inl (by simpa using hready)⟩
          | false =>
              dsimp only
              rw [hrecv]
              dsimp only
              simp only [List.flatten_cons, ← List.append_assoc] at hlen hstop
              have hshort : ¬ (s ++ bs).length > MAX_RESPONSE := by
                rw [List.length_append] at hlen
                omega
              rw [if_neg hshort]
              obtain ⟨p, more, rfl, hp, hready⟩ := ih (look_reading s bs) hlen
                (fun p hp => by
                  have := hends (bs :: p) (List.cons_prefix_cons.mpr ⟨rfl, hp⟩)
                  rwa [List.flatten_cons, ← List.append_assoc] at this)
                hstop (Nat.lt_of_succ_lt_succ hcalls)
              refine ⟨bs :: p, more, rfl, ?_, ?_⟩
              · rw [hp, List.flatten_cons, List.append_assoc]
              · rwa [List.flatten_cons, ← List.append_assoc]

/-! ### The result -/

theorem splitResponse_fresh (raw : List UInt8) :
    splitResponse raw {} = { headers := headersOf raw, body := bodyOf raw } := by
  cases h : find CRLF2 raw <;> simp only [splitResponse, headersOf, bodyOf, h]

@[simp] theorem readStatus_headers (raw : List UInt8) (out : HttpResponse) :
    (readStatus raw out).headers = out.headers := by
  unfold readStatus
  split
  · split <;> rfl
  · rfl

@[simp] theorem readStatus_body (raw : List UInt8) (out : HttpResponse) :
    (readStatus raw out).body = out.body := by
  unfold readStatus
  split
  · split <;> rfl
  · rfl

/-- A fresh response, once `parseResponse` has returned true. -/
theorem parseResponse_ok {out : HttpResponse} (h : parseResponse rounds raw {} = (.ok (), out)) :
    raw ≠ [] ∧ out.headers = headersOf raw ∧
      if isChunked (headersOf raw) then dechunk rounds (bodyOf raw) = some (true, out.body)
      else out.body = if contentLength (headersOf raw) ≠ [] then
          (bodyOf raw).take (strtoul 10 (contentLength (headersOf raw))) else bodyOf raw := by
  unfold parseResponse at h
  split at h
  · cases h
  rename_i hne
  dsimp only at h
  simp only [readStatus_headers, readStatus_body, splitResponse_fresh] at h
  refine ⟨hne, ?_⟩
  split at h
  · rename_i hch
    split at h
    · cases h
    · cases h
    · rename_i decoded hde
      cases h
      refine ⟨by simp, ?_⟩
      rw [if_pos hch]
      exact hde
  · rename_i hch
    split at h <;> rename_i hcl <;> cases h <;> refine ⟨by simp, ?_⟩ <;>
      rw [if_neg hch] <;> simp [hcl]

/-- And the other way round: when it does. -/
theorem parseResponse_returns (rounds : Nat) (hne : raw ≠ [])
    (h : isChunked (headersOf raw) = true → ∃ d, dechunk rounds (bodyOf raw) = some (true, d)) :
    ∃ out, parseResponse rounds raw {} = (.ok (), out) := by
  unfold parseResponse
  rw [if_neg hne]
  simp only [readStatus_headers, readStatus_body, splitResponse_fresh]
  split
  · rename_i hch
    obtain ⟨d, hd⟩ := h hch
    rw [hd]
    exact ⟨_, rfl⟩
  · split <;> exact ⟨_, rfl⟩

/-! ### Truncation -/

variable {conn : Except Stop C} {host path cookie : List UInt8}

/-- The request has been sent, and `c` is the client after that. -/
def Asked (ch : Channel C) (conn : Except Stop C) (host path cookie : List UInt8) (c : C) : Prop :=
  ∃ c₀, conn = .ok c₀ ∧ ch.send c₀ (request host path cookie) = (.ok (), c)

/-- The records `rs` are next, and `https_get` does not find them too large. -/
structure Arrives (ch : Channel C) (c : C) (rs : List (List UInt8)) (c' : C) : Prop where
  gets : Gets ch c rs c'
  fits : rs.flatten.length ≤ MAX_RESPONSE

/-- The response is complete, as its own headers declare it, in the bytes that arrived. -/
def Whole (ch : Channel C) (c : C) (out : HttpResponse) : Prop :=
  ∃ rs c', Arrives ch c rs c' ∧ out.headers = headersOf rs.flatten ∧
    (isChunked out.headers = true → Chunked (bodyOf rs.flatten) out.body) ∧
    (isChunked out.headers = false → ∀ n, Numeric (contentLength out.headers) n →
      out.body.length = n)

/-- `https_get` returns nothing but whole responses. -/
def NeverCutShort (ch : Channel C) (conn : Except Stop C) (host path cookie : List UInt8) : Prop :=
  ∀ rounds calls out, httpsGet ch rounds calls conn host path cookie {} = (.ok (), out) →
    ∃ c, Asked ch conn host path cookie c ∧ Whole ch c out

/-- The peer closes before the last byte of the length that it declared. -/
def ShortClose (ch : Channel C) (c : C) : Prop :=
  ∃ rs c' n, Arrives ch c rs c' ∧ (∃ e, (ch.recv c').1 = .closed e) ∧ rs.flatten ≠ [] ∧
    isChunked (headersOf rs.flatten) = false ∧
    Numeric (contentLength (headersOf rs.flatten)) n ∧ (bodyOf rs.flatten).length < n

/-- The peer sends a chunked body that `dechunk` accepts although a chunk size in it makes
the position wrap around. -/
def WrappedChunk (ch : Channel C) (c : C) : Prop :=
  ∃ rs c', Arrives ch c rs c' ∧ isChunked (headersOf rs.flatten) = true ∧
    (∃ rounds out, dechunk rounds (bodyOf rs.flatten) = some (true, out)) ∧
    Meets Wraps 0 (bodyOf rs.flatten)

theorem MAX_RESPONSE_lt : MAX_RESPONSE < 2 ^ 32 := by decide

theorem Arrives.body_lt (h : Arrives ch c rs c') : (bodyOf rs.flatten).length < 2 ^ 32 :=
  Nat.lt_of_le_of_lt (Nat.le_trans (bodyOf_length_le _) h.fits) MAX_RESPONSE_lt

/-- What `https_get` returned it has read as a response. -/
theorem httpsGet_ok {out out' : HttpResponse}
    (h : httpsGet ch rounds calls conn host path cookie out = (.ok (), out')) :
    ∃ c rs c', Asked ch conn host path cookie c ∧ Arrives ch c rs c' ∧
      parseResponse rounds rs.flatten out = (.ok (), out') ∧
      (ready rounds rs.flatten = some true ∨ ∃ e, (ch.recv c').1 = .closed e) := by
  unfold httpsGet at h
  cases conn with
  | error e => cases h
  | ok c₀ =>
      dsimp only at h
      rcases hsend : ch.send c₀ (request host path cookie) with ⟨e | ⟨⟩, c⟩ <;> rw [hsend] at h
      · cases h
      dsimp only at h
      split at h
      · cases h
      rename_i raw hread
      obtain ⟨rs, c', hgets, rfl, hle, hend⟩ := readResponse_ok (s := []) rfl (Nat.zero_le _) hread
      exact ⟨c, rs, c', ⟨c₀, rfl, hsend⟩, ⟨hgets, hle⟩, h, hend⟩

/-- The result of `https_get`, from that of its read loop. -/
theorem httpsGet_eq (hasked : Asked ch conn host path cookie c)
    (h : readResponse ch rounds calls {} c = .ok raw) (out : HttpResponse) :
    httpsGet ch rounds calls conn host path cookie out = parseResponse rounds raw out := by
  obtain ⟨c₀, rfl, hsend⟩ := hasked
  unfold httpsGet
  dsimp only
  rw [hsend]
  dsimp only
  rw [h]

/-- What stands in a response that has a length and is ready, or is read to the end. -/
theorem whole_length (rounds : Nat) {n : Nat} (hnum : Numeric (contentLength (headersOf s)) n)
    (hfits : s.length ≤ MAX_RESPONSE) (hch : isChunked (headersOf s) = false)
    (h : ready rounds s = some true ∨ n ≤ (bodyOf s).length) :
    ((bodyOf s).take (strtoul 10 (contentLength (headersOf s)))).length = n := by
  have hval := strtoul_digits hnum
  have hbody := bodyOf_length_le s
  have hmax := MAX_RESPONSE_lt
  have hulong : ULONG_MAX = 2 ^ 64 - 1 := rfl
  rw [List.length_take]
  rcases h with h | h
  · obtain ⟨e, he⟩ := exists_of_ready (by rw [h]; decide : ready rounds s ≠ some false)
    rw [ready_some he, if_neg (by rw [hch]; decide)] at h
    split at h
    · rename_i hcl
      have hge := of_decide_eq_true (Option.some.inj h)
      have hne := hcl.2
      omega
    · cases h
  · omega

/-- Without the two defects, what is returned is whole. -/
theorem whole_of_ok {out : HttpResponse} (harr : Arrives ch c rs c')
    (hshort : ¬ ShortClose ch c) (hwrap : ¬ WrappedChunk ch c)
    (hparse : parseResponse rounds rs.flatten {} = (.ok (), out))
    (hend : ready rounds rs.flatten = some true ∨ ∃ e, (ch.recv c').1 = .closed e) :
    Whole ch c out := by
  obtain ⟨hne, hheaders, hbody⟩ := parseResponse_ok hparse
  refine ⟨rs, c', harr, hheaders, fun hch => ?_, fun hch n hnum => ?_⟩
  · rw [hheaders] at hch
    rw [if_pos hch] at hbody
    refine dechunk_sound (fun hmeets => hwrap ?_) hbody
    exact ⟨rs, c', harr, hch, ⟨rounds, out.body, hbody⟩, hmeets⟩
  · rw [hheaders] at hch hnum
    rw [if_neg (by rw [hch]; decide), if_pos hnum.1] at hbody
    rw [hbody]
    refine whole_length rounds hnum harr.fits hch ?_
    rcases hend with hready | hclosed
    · exact Or.inl hready
    · by_contra hcon
      push Not at hcon
      exact hshort ⟨rs, c', n, harr, hclosed, hne, hch, hnum, hcon.2⟩

/-- A response that is cut short by a close is returned all the same. -/
theorem cut_of_shortClose (h : ShortClose ch c) (hasked : Asked ch conn host path cookie c) :
    ¬ NeverCutShort ch conn host path cookie := by
  obtain ⟨rs, c', n, harr, hclosed, hne, hch, hnum, hlt⟩ := h
  have hval := strtoul_digits hnum
  have hnotch {p : List (List UInt8)} {e : Nat} (hp : p <+: rs) (he : find CRLF2 p.flatten = some e) :
      headersOf rs.flatten = headersOf p.flatten ∧
        (bodyOf p.flatten).length ≤ (bodyOf rs.flatten).length := by
    obtain ⟨more, rfl⟩ := hp
    rw [List.flatten_append]
    exact ⟨headersOf_append he _, (prefix_bodyOf _ _).length_le⟩
  -- no prefix is complete, so the loop runs on to the close
  have hready {p : List (List UInt8)} (hp : p <+: rs) : ready 0 p.flatten = some false := by
    cases he : find CRLF2 p.flatten with
    | none => exact ready_none he
    | some e =>
        obtain ⟨hh, hb⟩ := hnotch hp he
        rw [ready_some he, ← hh, if_neg (by rw [hch]; decide)]
        split
        · rename_i hcl
          rw [decide_eq_false (by omega)]
        · rfl
  obtain ⟨p, more, hpm, hread, hstop⟩ := readResponse_stops 0 (s := []) (r := {}) harr.gets rfl
    harr.fits (fun p hp => by rw [List.nil_append, hready hp]; decide) (Or.inr hclosed)
    (Nat.lt_succ_self _)
  have hmore : more = [] := by
    rcases hstop with hstop | hstop
    · rw [List.nil_append, hready ⟨more, hpm.symm⟩] at hstop
      cases hstop
    · exact hstop
  subst hmore
  rw [List.append_nil] at hpm
  subst hpm
  rw [List.nil_append] at hread
  obtain ⟨out, hout⟩ := parseResponse_returns 0 hne (by rw [hch]; nofun)
  intro hnever
  obtain ⟨d, -, rs', -, -, -, -, hlen⟩ := hnever 0 _ out ((httpsGet_eq hasked hread _).trans hout)
  obtain ⟨-, hheaders, hbody⟩ := parseResponse_ok hout
  rw [if_neg (by rw [hch]; decide), if_pos hnum.1] at hbody
  have hcut := hlen (by rw [hheaders]; exact hch) n (by rw [hheaders]; exact hnum)
  rw [hbody, List.length_take] at hcut
  omega

/-- A text whose body is decoded has its headers whole. -/
theorem find_of_dechunk {s : List UInt8} {rounds : Nat} {d : List UInt8}
    (h : dechunk rounds (bodyOf s) = some (true, d)) : ∃ e, find CRLF2 s = some e := by
  cases he : find CRLF2 s with
  | some e => exact ⟨e, rfl⟩
  | none =>
      rw [bodyOf, he] at h
      cases rounds <;> cases h

/-- Where the decoder ends on a text, it ends on every part of it. -/
theorem ready_of_prefix {p rs : List (List UInt8)} {rounds : Nat} {d : List UInt8}
    (hch : isChunked (headersOf rs.flatten) = true)
    (hde : dechunk rounds (bodyOf rs.flatten) = some (true, d)) (hp : p <+: rs) :
    ready rounds p.flatten ≠ none := by
  obtain ⟨more, rfl⟩ := hp
  rw [List.flatten_append] at hch hde
  cases he : find CRLF2 p.flatten with
  | none =>
      rw [ready_none he]
      nofun
  | some e =>
      rw [headersOf_append he] at hch
      rw [ready_some he, if_pos hch]
      intro hnone
      rw [bodyOf_append he] at hde
      have hnot : (dechunk rounds (bodyOf p.flatten)).map Prod.fst ≠ some false := by
        rw [hnone]
        nofun
      have happ := dechunk_append hnot more.flatten
      rw [hde, hnone] at happ
      cases happ

/-- A body whose chunk sizes wrap around is returned all the same. -/
theorem cut_of_wrappedChunk (h : WrappedChunk ch c) (hasked : Asked ch conn host path cookie c) :
    ¬ NeverCutShort ch conn host path cookie := by
  obtain ⟨rs, c', harr, hch, ⟨rounds, d, hde⟩, hmeets⟩ := h
  obtain ⟨e, he⟩ := find_of_dechunk hde
  have hready : ready rounds rs.flatten = some true := by
    rw [ready_some he, if_pos hch, hde]
    rfl
  obtain ⟨p, more, hpm, hread, hstop⟩ :=
    readResponse_stops rounds (s := []) (r := {}) harr.gets rfl harr.fits
    (fun p hp => ready_of_prefix hch hde hp) (Or.inl hready) (Nat.lt_succ_self _)
  have hreadyp : ready rounds p.flatten = some true := by
    rcases hstop with hstop | rfl
    · exact hstop
    · rw [List.append_nil] at hpm
      rwa [← hpm]
  obtain ⟨e', he'⟩ := exists_of_ready (by rw [hreadyp]; decide : ready rounds p.flatten ≠ some false)
  have hheaders : headersOf rs.flatten = headersOf p.flatten := by
    rw [hpm, List.flatten_append]
    exact headersOf_append he' _
  rw [List.nil_append] at hread
  rw [hheaders] at hch
  obtain ⟨out, hout⟩ := parseResponse_returns rounds (show p.flatten ≠ [] from
    fun h0 => by rw [h0] at he'; cases he') (fun _ => by
      rw [ready_some he', if_pos hch] at hreadyp
      obtain ⟨⟨b, o⟩, hd, hb⟩ := Option.map_eq_some_iff.mp hreadyp
      cases hb
      exact ⟨o, hd⟩)
  intro hnever
  obtain ⟨c₁, hasked₁, rs', c₂, harr', hh', hbody', -⟩ :=
    hnever rounds _ out ((httpsGet_eq hasked hread _).trans hout)
  obtain ⟨c₀, rfl, hsend⟩ := hasked
  obtain ⟨c₀', hc₀, hsend'⟩ := hasked₁
  cases hc₀
  rw [hsend] at hsend'
  cases hsend'
  obtain ⟨-, hhout, -⟩ := parseResponse_ok hout
  have hmsg := hbody' (by rw [hhout]; exact hch)
  have hlt := harr.body_lt
  have hlt' := harr'.body_lt
  -- one of the two bodies continues the other
  rcases harr.gets.comparable harr'.gets with ⟨more', rfl, -⟩ | ⟨more', rfl, -⟩
  · rw [List.flatten_append] at hmsg hlt'
    rw [bodyOf_append he] at hmsg hlt'
    exact hmsg.not_wraps (by omega) (hmeets.append _)
  · obtain ⟨t, ht⟩ := prefix_bodyOf rs'.flatten more'.flatten
    rw [← List.flatten_append] at ht
    exact (hmsg.append t).not_wraps (by rw [ht]; omega) (ht ▸ hmeets)

/-- **No response is cut short**, exactly if the peer neither closes before the last byte
of the length that it declared nor sends a chunk size that makes the position wrap around. -/
theorem https_get_whole_iff (ch : Channel C) (conn : Except Stop C) (host path cookie : List UInt8) :
    NeverCutShort ch conn host path cookie ↔
      ∀ c, Asked ch conn host path cookie c → ¬ ShortClose ch c ∧ ¬ WrappedChunk ch c := by
  constructor
  · intro hnever c hasked
    exact ⟨fun h => cut_of_shortClose h hasked hnever, fun h => cut_of_wrappedChunk h hasked hnever⟩
  · intro hnot rounds calls out hout
    obtain ⟨c, rs, c', hasked, harr, hparse, hend⟩ := httpsGet_ok hout
    obtain ⟨hshort, hwrap⟩ := hnot c hasked
    exact ⟨c, hasked, whole_of_ok harr hshort hwrap hparse hend⟩

/-- A page of ten bytes of which five arrive. -/
theorem https_get_cut_short : ¬ NeverCutShort
    (Channel.script (.closed (.failed "connection closed by peer")))
    (.ok [ascii "HTTP/1.1 200 OK\r\nContent-Length: 10\r\n\r\nhello"]) (ascii "ilo")
    (ascii "/login.htm") [] :=
  cut_of_shortClose
    ⟨_, _, 10, ⟨Channel.script_gets _, by decide +kernel⟩, ⟨_, rfl⟩, by decide +kernel,
      by decide +kernel, by decide +kernel, by decide +kernel⟩
    ⟨_, rfl, rfl⟩

/-! ### The cuts between the records -/

/-- The server answers with the bytes `s`, in `n` records, and closes. -/
def Answers (ch : Channel C) (conn : Except Stop C) (host path cookie s : List UInt8) (n : Nat) :
    Prop :=
  ∃ c rs c', Asked ch conn host path cookie c ∧ Gets ch c rs c' ∧
    (∃ e, (ch.recv c').1 = .closed e) ∧ rs.flatten = s ∧ rs.length = n

theorem readStatus_setBody (raw b : List UInt8) (out : HttpResponse) :
    readStatus raw { out with body := b } = { readStatus raw out with body := b } := by
  unfold readStatus
  split
  · dsimp only
    split <;> rfl
  · rfl

/-- The status is read from the start of the response. -/
theorem readStatus_append (out : HttpResponse) (h : find CRLF2 s = some e)
    (hheaders : out.headers = s.take e) (t : List UInt8) :
    readStatus (s ++ t) out = readStatus s out := by
  have hle : e + 4 ≤ s.length := find_le CRLF2_ne h
  cases hsp : find (ascii " ") out.headers with
  | none => simp [readStatus, hsp]
  | some sp =>
      have hlt := find_le (by decide) hsp
      rw [hheaders, List.length_take] at hlt
      have hone : (ascii " ").length = 1 := by decide
      have hfive : (ascii "HTTP/").length = 5 := by decide
      have hiff : ascii "HTTP/" <+: s ++ t ↔ ascii "HTTP/" <+: s :=
        ⟨fun hp => List.prefix_of_prefix_length_le hp (List.prefix_append _ _) (by omega),
          fun hp => hp.trans (List.prefix_append _ _)⟩
      simp only [readStatus, hiff]

/-- **Bytes that follow** a complete response do not change the result. -/
theorem parseResponse_append (hready : ready rounds s = some true)
    (hfits : (s ++ t).length < rounds) (hshort : (s ++ t).length < 2 ^ 32)
    (hsmall : isChunked (headersOf (s ++ t)) = true → ¬ Meets Large 0 (bodyOf (s ++ t)))
    (out : HttpResponse) : parseResponse rounds (s ++ t) out = parseResponse rounds s out := by
  obtain ⟨e, he⟩ := exists_of_ready (by rw [hready]; decide : ready rounds s ≠ some false)
  have hle : e + 4 ≤ s.length := find_le CRLF2_ne he
  have hne : s ≠ [] := by
    rintro rfl
    simp at hle
  have hnet : s ++ t ≠ [] := fun h0 => hne (List.append_eq_nil_iff.mp h0).1
  have hh : headersOf s = s.take e := by rw [headersOf, he]
  have hb : bodyOf s = s.drop (e + 4) := by rw [bodyOf, he]
  have hsplit : splitResponse s out =
      { { out with headers := s.take e } with body := bodyOf s } := by
    rw [splitResponse, he, hb]
  have hsplit' : splitResponse (s ++ t) out =
      { { out with headers := s.take e } with body := bodyOf s ++ t } := by
    rw [splitResponse, find_append CRLF2_ne he, hb]
    dsimp only
    rw [List.take_append_of_le_length (by omega), List.drop_append_of_le_length hle]
  rw [headersOf_append he, bodyOf_append he] at hsmall
  rw [ready_some he] at hready
  rw [hh] at hready hsmall
  rw [parseResponse, parseResponse, if_neg hne, if_neg hnet, hsplit, hsplit', readStatus_setBody,
    readStatus_setBody, readStatus_append _ he rfl]
  simp only [readStatus_headers]
  by_cases hch : isChunked (s.take e) = true
  · rw [if_pos hch] at hready ⊢
    rw [if_pos hch]
    have hlen := congrArg List.length (bodyOf_append he t)
    have hbody := bodyOf_length_le (s ++ t)
    rw [hlen] at hbody
    have hnot : ¬ Meets Wraps 0 (bodyOf s) := fun hm =>
      hsmall hch ((hm.append t).large (by omega))
    obtain ⟨⟨b, d⟩, hd, hb⟩ := Option.map_eq_some_iff.mp hready
    cases hb
    have hmsg := (dechunk_sound hnot hd).append t
    rw [hd, dechunk_complete hmsg (by omega) (by omega)]
  · rw [if_neg hch] at hready ⊢
    rw [if_neg hch]
    split at hready
    · rename_i hcl
      have hge := of_decide_eq_true (Option.some.inj hready)
      rw [if_pos hcl.1, if_pos hcl.1, List.take_append_of_le_length hge]
    · cases hready

/-- **The result is a function of the bytes** that the server sends before it closes. -/
theorem httpsGet_answers {n : Nat} (h : Answers ch conn host path cookie s n)
    (hfits : s.length ≤ MAX_RESPONSE)
    (hsmall : isChunked (headersOf s) = true → ¬ Meets Large 0 (bodyOf s))
    (hrounds : s.length < rounds) (hcalls : n < calls) (out : HttpResponse) :
    httpsGet ch rounds calls conn host path cookie out = parseResponse rounds s out := by
  obtain ⟨c, rs, c', hasked, hgets, hclosed, rfl, rfl⟩ := h
  have hmax := MAX_RESPONSE_lt
  -- on every prefix the decoder ends, since no chunk is large
  have hends (p : List (List UInt8)) (hp : p <+: rs) : ready rounds ([] ++ p.flatten) ≠ none := by
    obtain ⟨more, rfl⟩ := hp
    rw [List.flatten_append] at hsmall hrounds hfits
    rw [List.length_append] at hrounds hfits
    rw [List.nil_append]
    cases he : find CRLF2 p.flatten with
    | none =>
        rw [ready_none he]
        nofun
    | some e =>
        rw [headersOf_append he, bodyOf_append he] at hsmall
        rw [ready_some he]
        split
        · rename_i hch
          have hbody := bodyOf_length_le p.flatten
          have hnot : ¬ Meets Wraps 0 (bodyOf p.flatten) := fun hm =>
            hsmall hch ((hm.large (by omega)).append _)
          obtain ⟨r, hr⟩ := dechunk_ends hnot (show (bodyOf p.flatten).length < rounds by omega)
          rw [hr]
          nofun
        · split <;> nofun
  obtain ⟨p, more, rfl, hread, hstop⟩ := readResponse_stops rounds (s := []) (r := {}) hgets rfl
    hfits hends (Or.inr hclosed) hcalls
  rw [List.nil_append] at hread hstop
  rw [httpsGet_eq hasked hread]
  rcases hstop with hready | rfl
  · rw [List.flatten_append] at hsmall hrounds hfits ⊢
    exact (parseResponse_append hready hrounds (by omega) hsmall out).symm
  · rw [List.append_nil]

/-- **The cuts between the records do not matter**: two servers that send the same response
and close are answered alike, whatever the records.  Bounds beyond the number of bytes and
of records are never reached. -/
theorem https_get_records {D : Type} {ch' : Channel D} {conn' : Except Stop D} {m n calls' : Nat}
    (h : Answers ch conn host path cookie s m) (h' : Answers ch' conn' host path cookie s n)
    (hfits : s.length ≤ MAX_RESPONSE)
    (hsmall : isChunked (headersOf s) = true → ¬ Meets Large 0 (bodyOf s))
    (hrounds : s.length < rounds) (hcalls : m < calls) (hcalls' : n < calls')
    (out : HttpResponse) :
    httpsGet ch rounds calls conn host path cookie out =
      httpsGet ch' rounds calls' conn' host path cookie out := by
  rw [httpsGet_answers h hfits hsmall hrounds hcalls, httpsGet_answers h' hfits hsmall hrounds hcalls']

/-- The page that the witness reads: one chunk, and bytes that follow the message. -/
def samplePage : List UInt8 :=
  ascii "HTTP/1.1 200 OK\r\nTransfer-Encoding: chunked\r\n\r\n3\r\nilo\r\n0\r\n\r\n"

theorem samplePage_chunked : Chunked (bodyOf samplePage) (ascii "ilo") := by
  have hlast : Chunked (ascii "0" ++ (CRLF ++ CRLF)) [] := .last ⟨by decide, by decide⟩
  have hchunk : Chunked
      (ascii "3" ++ (CRLF ++ (ascii "ilo" ++ (CRLF ++ (ascii "0" ++ (CRLF ++ CRLF))))))
      (ascii "ilo" ++ []) := .chunk ⟨by decide, by decide⟩ (by decide) hlast
  rw [List.append_nil] at hchunk
  exact (by decide +kernel : bodyOf samplePage =
    ascii "3" ++ (CRLF ++ (ascii "ilo" ++ (CRLF ++ (ascii "0" ++ (CRLF ++ CRLF)))))) ▸ hchunk

theorem https_get_records_sample :
    httpsGet (Channel.script (.closed (.failed "connection closed by peer"))) 100 2
        (.ok [samplePage]) [] [] [] {} =
      httpsGet (Channel.script (.closed (.failed "peer sent close_notify"))) 100 4
        (.ok [samplePage.take 46, [], samplePage.drop 46]) [] [] [] {} :=
  https_get_records (s := samplePage)
    ⟨_, _, _, ⟨_, rfl, rfl⟩, Channel.script_gets _, ⟨_, rfl⟩, rfl, rfl⟩
    ⟨_, _, _, ⟨_, rfl, rfl⟩, Channel.script_gets _, ⟨_, rfl⟩, by decide +kernel, rfl⟩
    (by decide +kernel) (fun _ => samplePage_chunked.not_large (by decide +kernel))
    (by decide +kernel) (by decide) (by decide) {}

end Ilo2.Tls
