import Ilo2.Tls.Chunked
import Mathlib.Data.Nat.Digits.Defs

/-!
# Encoding in chunks

A message is written chunk by chunk; its sizes may be written in many ways (`Writes`), and
the data may hold anything, CRLF included.

* `Writes.sizeLine` - every way of writing a size is read as that size.
* `dechunk_encode` - **`dechunk` undoes the encoding**, whatever follows it, and refuses
  every text that is a part of it.
-/

namespace Ilo2.Tls

open Text

variable {line data rest last u b d e s t out p : List UInt8} {c ch : UInt8} {n pos : Nat}

/-! ### Writing a size -/

def digitChar (v : Fin 16) (upper : Bool) : UInt8 :=
  if v.val < 10 then 0x30 + v.val.toUInt8
  else (if upper then 0x41 else 0x61) + (v.val - 10).toUInt8

/-- Digits with their case, the first one the most significant. -/
def hexText (ds : List (Fin 16 × Bool)) : List UInt8 := ds.map fun v => digitChar v.1 v.2

def hexNumber (ds : List (Fin 16 × Bool)) : Nat := Nat.ofDigits 16 (ds.map (·.1.val)).reverse

/-- `line` is a way of writing the size `n`: leading zeros, blanks on both sides and an
extension are allowed, and the digits may be of either case. -/
def Writes (line : List UInt8) (n : Nat) : Prop :=
  ∃ (before : List UInt8) (ds : List (Fin 16 × Bool)) (after ext : List UInt8),
    line = before ++ (hexText ds ++ (after ++ ext)) ∧
    (∀ ch ∈ before, isBlank ch = true) ∧ (∀ ch ∈ after, isBlank ch = true) ∧
    ds ≠ [] ∧ hexNumber ds = n ∧
    (ext = [] ∨ ∃ e, ext = 0x3B :: e ∧ ¬ CRLF <:+: e)

theorem hexValue_digitChar (v : Fin 16) (upper : Bool) : hexValue (digitChar v upper) = some v.val := by
  revert v upper
  decide

theorem blank_cases (h : isBlank ch = true) : ch = 0x20 ∨ ch = 0x09 := of_decide_eq_true h

theorem hexValue_blank (h : isBlank ch = true) : hexValue ch = none := by
  rcases blank_cases h with rfl | rfl <;> decide

/-- What stands before the extension: neither a CR nor a semicolon. -/
theorem text_ne (hch : isBlank ch = true ∨ ∃ v upper, ch = digitChar v upper) :
    ch ≠ 0x0D ∧ ch ≠ 0x3B := by
  rcases hch with hch | ⟨v, upper, rfl⟩
  · rcases blank_cases hch with rfl | rfl <;> decide
  · revert v upper
    decide

theorem exactLoop_blanks (hu : ∀ ch ∈ u, isBlank ch = true) (t : List UInt8) (size : Nat) (any : Bool) :
    exactLoop (u ++ t) size any = exactLoop t size any := by
  induction u with
  | nil => rfl
  | cons ch u ih =>
      have hch := hu ch (List.mem_cons_self ..)
      rw [List.cons_append, exactLoop, hexValue_blank hch]
      dsimp only
      rw [if_pos hch, ih fun c hc => hu c (List.mem_cons_of_mem _ hc)]

theorem hexNumber_cons (v : Fin 16 × Bool) (ds : List (Fin 16 × Bool)) :
    hexNumber (v :: ds) = v.1.val * 16 ^ ds.length + hexNumber ds := by
  rw [hexNumber, List.map_cons, List.reverse_cons, Nat.ofDigits_append, Nat.ofDigits_singleton,
    List.length_reverse, List.length_map, hexNumber]
  ring

/-- Digits that are read after others. -/
theorem exactLoop_digits (ds : List (Fin 16 × Bool)) (t : List UInt8) (size : Nat) (any : Bool) :
    exactLoop (hexText ds ++ t) size any =
      exactLoop t (size * 16 ^ ds.length + hexNumber ds) (any || !ds.isEmpty) := by
  induction ds generalizing size any with
  | nil => simp [hexText, hexNumber]
  | cons v ds ih =>
      rw [hexText, List.map_cons, List.cons_append, exactLoop, hexValue_digitChar]
      dsimp only
      rw [← hexText, ih, hexNumber_cons]
      congr 1
      · rw [List.length_cons]
        ring
      · simp

/-! ### The end of a size line -/

theorem find_single_none (hu : c ∉ u) : find [c] u = none := by
  rw [find_eq_none (by simp)]
  intro i hst
  exact hu (List.mem_of_mem_drop (hst.subset (List.mem_singleton_self c)))

theorem find_single (hu : c ∉ u) (t : List UInt8) : find [c] (u ++ c :: t) = some u.length := by
  induction u with
  | nil => simp [find]
  | cons a u ih =>
      simp only [List.mem_cons, not_or] at hu
      have hne : ¬ [c] <+: a :: (u ++ c :: t) := by
        intro hp
        exact hu.1 (List.cons_prefix_cons.mp hp).1
      rw [List.cons_append, find, if_neg hne, ih hu.2]
      rfl

/-- A text without a CR in front makes no new CRLF. -/
theorem infix_of_append (hu : (0x0D : UInt8) ∉ u) (h : CRLF <:+: u ++ t) : CRLF <:+: t := by
  induction u with
  | nil => exact h
  | cons a u ih =>
      simp only [List.mem_cons, not_or] at hu
      rcases List.infix_cons_iff.mp h with hp | hi
      · exact absurd (List.cons_prefix_cons.mp hp).1 hu.1
      · exact ih hu.2 hi

/-- Behind a text that holds no CRLF, CRLF is found where it is. -/
theorem find_crlf (h : ¬ CRLF <:+: line) : find CRLF (line ++ CRLF) = some line.length := by
  rw [find_eq_some CRLF_ne]
  refine ⟨?_, fun j hj hst => ?_⟩
  · show CRLF <+: (line ++ CRLF).drop line.length
    exact ⟨[], by rw [List.append_nil, List.drop_left]⟩
  · rcases Nat.lt_or_ge line.length (j + 2) with hlast | hin
    · -- the place of the last byte of the line
      obtain rfl : j = line.length - 1 := by omega
      obtain ⟨a, ha⟩ : ∃ a, line.drop (line.length - 1) = [a] :=
        List.length_eq_one_iff.mp (by rw [List.length_drop]; omega)
      rw [Stands, List.drop_append_of_le_length (by omega), ha] at hst
      have := (List.cons_prefix_cons.mp (List.cons_prefix_cons.mp hst).2).1
      exact absurd this (by decide)
    · exact h ((Stands.of_append hst hin).isInfix.trans (List.drop_suffix _ _).isInfix)

/-- **Every way of writing a size is read as that size.** -/
theorem Writes.sizeLine (h : Writes line n) : SizeLine line n := by
  obtain ⟨before, ds, after, ext, rfl, hbefore, hafter, hds, rfl, hext⟩ := h
  have htext : ∀ ch ∈ before ++ (hexText ds ++ after), ch ≠ 0x0D ∧ ch ≠ 0x3B := by
    intro ch hch
    simp only [List.mem_append, hexText, List.mem_map] at hch
    rcases hch with hch | ⟨v, -, rfl⟩ | hch
    · exact text_ne (Or.inl (hbefore ch hch))
    · exact text_ne (Or.inr ⟨v.1, v.2, rfl⟩)
    · exact text_ne (Or.inl (hafter ch hch))
  have hcr : (0x0D : UInt8) ∉ before ++ (hexText ds ++ after) := fun hm => (htext _ hm).1 rfl
  have hsemi : (0x3B : UInt8) ∉ before ++ (hexText ds ++ after) := fun hm => (htext _ hm).2 rfl
  have hline : before ++ (hexText ds ++ (after ++ ext)) =
      (before ++ (hexText ds ++ after)) ++ ext := by simp
  have hread : exactLoop (before ++ (hexText ds ++ after)) 0 false = some (hexNumber ds) := by
    rw [exactLoop_blanks hbefore, exactLoop_digits, ← List.append_nil after,
      exactLoop_blanks hafter, exactLoop, if_pos (by simpa using hds), Nat.zero_mul, Nat.zero_add]
  rw [hline]
  constructor
  · refine find_crlf fun hin => ?_
    have hin := infix_of_append hcr hin
    rcases hext with rfl | ⟨e, rfl, he⟩
    · exact absurd hin.length_le (by decide)
    · rcases List.infix_cons_iff.mp hin with hp | hi
      · exact absurd (List.cons_prefix_cons.mp hp).1 (by decide)
      · exact he hi
  · rw [exactSize]
    rcases hext with rfl | ⟨e, rfl, -⟩
    · rw [List.append_nil, show ascii ";" = [0x3B] by decide, find_single_none hsemi,
        Option.getD_none, List.take_length, hread]
    · rw [show ascii ";" = [0x3B] by decide, find_single hsemi, Option.getD_some, List.take_left, hread]

/-! ### Messages -/

/-- A message: size lines and data, and the last size line. -/
def encode : List (List UInt8 × List UInt8) → (last : List UInt8) → List UInt8
  | [], last => last ++ CRLF
  | (line, data) :: chunks, last => line ++ (CRLF ++ (data ++ (CRLF ++ encode chunks last)))

variable {chunks : List (List UInt8 × List UInt8)}

theorem encode_chunked (hchunks : ∀ c ∈ chunks, Writes c.1 c.2.length ∧ c.2 ≠ [])
    (hlast : Writes last 0) (suffix : List UInt8) :
    Chunked (encode chunks last ++ suffix) (chunks.flatMap (·.2)) := by
  induction chunks with
  | nil =>
      rw [encode, List.append_assoc]
      exact .last hlast.sizeLine
  | cons c chunks ih =>
      obtain ⟨line, data⟩ := c
      obtain ⟨hline, hdata⟩ := hchunks _ (List.mem_cons_self ..)
      simp only [encode, List.append_assoc, List.flatMap_cons]
      exact .chunk hline.sizeLine hdata (ih fun c hc => hchunks c (List.mem_cons_of_mem _ hc))

/-- A part of a message that is a message is all of it. -/
theorem encode_cut (hchunks : ∀ c ∈ chunks, Writes c.1 c.2.length ∧ c.2 ≠ [])
    (hlast : Writes last 0) (hp : Chunked p d) (t : List UInt8) (h : p ++ t = encode chunks last) :
    t = [] := by
  induction chunks generalizing p d with
  | nil =>
      cases hp with
      | @last line rest hline =>
          have hend : line ++ (CRLF ++ (rest ++ t)) = last ++ (CRLF ++ []) := by
            simpa [encode] using h
          have hnil := (hline.unique hlast.sizeLine hend).2.2
          exact (List.append_eq_nil_iff.mp hnil).2
      | @chunk line data rest out hline hdata hrest =>
          have hend : line ++ (CRLF ++ (data ++ (CRLF ++ (rest ++ t)))) = last ++ (CRLF ++ []) := by
            simpa [encode] using h
          exact absurd (List.length_eq_zero_iff.mp (hline.unique hlast.sizeLine hend).2.1) hdata
  | cons c chunks ih =>
      obtain ⟨line', data'⟩ := c
      obtain ⟨hline', hdata'⟩ := hchunks _ (List.mem_cons_self ..)
      have ih := fun {p d} => ih (p := p) (d := d) fun c hc => hchunks c (List.mem_cons_of_mem _ hc)
      cases hp with
      | @last line rest hline =>
          have hend : line ++ (CRLF ++ (rest ++ t)) =
              line' ++ (CRLF ++ (data' ++ (CRLF ++ encode chunks last))) := by simpa [encode] using h
          have hsize := (hline.unique hline'.sizeLine hend).2.1
          exact absurd (List.length_eq_zero_iff.mp hsize.symm) hdata'
      | @chunk line data rest out hline hdata hrest =>
          have hend : line ++ (CRLF ++ (data ++ (CRLF ++ (rest ++ t)))) =
              line' ++ (CRLF ++ (data' ++ (CRLF ++ encode chunks last))) := by simpa [encode] using h
          exact ih hrest (chunk_unique hline hline'.sizeLine hend).2.2

/-- **`dechunk` undoes the encoding**, and refuses every text that is a part of it. -/
theorem dechunk_encode (chunks : List (List UInt8 × List UInt8)) (last : List UInt8)
    (hchunks : ∀ c ∈ chunks, Writes c.1 c.2.length ∧ c.2 ≠ []) (hlast : Writes last 0) :
    (∀ (suffix out : List UInt8) (rounds : Nat), (encode chunks last ++ suffix).length < 2 ^ 64 →
      (encode chunks last ++ suffix).length ≤ rounds →
      dechunkLoop (encode chunks last ++ suffix) rounds 0 out =
        some (true, out ++ chunks.flatMap (·.2))) ∧
    ∀ (p t out : List UInt8) (rounds : Nat), p ++ t = encode chunks last → t ≠ [] →
      (encode chunks last).length < 2 ^ 64 → p.length < rounds →
      ∃ out', dechunkLoop p rounds 0 out = some (false, out') := by
  constructor
  · intro suffix out rounds hfits hrounds
    exact dechunkLoop_complete (encode_chunked hchunks hlast suffix) List.drop_zero hfits hrounds out
  · intro p t out rounds hp ht hfits hrounds
    have hwhole : Chunked (p ++ t) (chunks.flatMap (·.2)) := by
      have h := encode_chunked hchunks hlast []
      rwa [List.append_nil, ← hp] at h
    have hnot : ¬ Meets Wraps 0 p := fun hm =>
      hwhole.not_wraps (by rwa [hp, Nat.zero_add]) (hm.append t)
    rw [← List.drop_zero (l := p)] at hnot
    have hends : ∃ r, dechunkLoop p rounds 0 out = some r :=
      dechunkLoop_ends hnot (by simpa using hrounds)
    obtain ⟨⟨r, out'⟩, hr⟩ := hends
    cases r with
    | false => exact ⟨out', hr⟩
    | true =>
        obtain ⟨d, -, hd⟩ := dechunkLoop_sound hnot hr
        rw [List.drop_zero] at hd
        exact absurd (encode_cut hchunks hlast hd t hp) ht

/-- Two chunks, the data of one a CRLF, with an extension and a leading zero. -/
theorem dechunk_encode_crlf :
    let chunks := [(ascii " 02 ;a=b", CRLF), (ascii "A", ascii "0\r\n0\r\n\r\n0;")]
    (∀ (suffix out : List UInt8) (rounds : Nat),
      (encode chunks (ascii "00") ++ suffix).length < 2 ^ 64 →
      (encode chunks (ascii "00") ++ suffix).length ≤ rounds →
      dechunkLoop (encode chunks (ascii "00") ++ suffix) rounds 0 out =
        some (true, out ++ chunks.flatMap (·.2))) ∧
    ∀ (p t out : List UInt8) (rounds : Nat), p ++ t = encode chunks (ascii "00") → t ≠ [] →
      (encode chunks (ascii "00")).length < 2 ^ 64 → p.length < rounds →
      ∃ out', dechunkLoop p rounds 0 out = some (false, out') := by
  refine dechunk_encode _ _ ?_ ?_
  · intro c hc
    simp only [List.mem_cons, List.not_mem_nil, or_false] at hc
    rcases hc with rfl | rfl
    · refine ⟨⟨ascii " ", [(0, false), (2, false)], ascii " ", ascii ";a=b", by decide +kernel,
        by decide +kernel, by decide +kernel, by decide +kernel, by decide +kernel,
        Or.inr ⟨ascii "a=b", by decide +kernel, by decide +kernel⟩⟩, by decide⟩
    · exact ⟨⟨[], [(10, true)], [], [], by decide +kernel, by decide +kernel, by decide +kernel,
        by decide +kernel, by decide +kernel, Or.inl rfl⟩, by decide +kernel⟩
  · exact ⟨[], [(0, false), (0, false)], [], [], by decide +kernel, by decide +kernel,
      by decide +kernel, by decide +kernel, by decide +kernel, Or.inl rfl⟩

end Ilo2.Tls
