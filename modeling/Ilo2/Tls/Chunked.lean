import Ilo2.Tls.Https

/-!
# Chunked messages

`Chunked b out` is the grammar: `b` starts with chunks that hold `out`, and with the
terminating chunk.  Sizes are numbers without a bound here, while `dechunk` computes modulo
`2 ^ 64`; `Meets bad pos b` says that a chunk size of which `bad` holds is met on the way.

* `dechunk_sound` - what `dechunk` accepts is a message, unless the position wraps around.
* `dechunk_complete` - every message is accepted, and is decoded to what its chunks hold.
* `dechunk_append` - bytes that follow do not change what was not refused.
-/

namespace Ilo2.Tls

open Text

theorem CRLF_ne : CRLF ≠ [] := by decide

/-! ### Chunk sizes -/

/-- `sizeLoop`, with no bound on the size. -/
def exactLoop : List UInt8 → (size : Nat) → (any : Bool) → Option Nat
  | [], size, any => if any then some size else none
  | ch :: line, size, any =>
      match hexValue ch with
      | some v => exactLoop line (size * 16 + v) true
      | none => if isBlank ch then exactLoop line size any else none

def exactSize (line : List UInt8) : Option Nat :=
  exactLoop (line.take ((find (ascii ";") line).getD line.length)) 0 false

theorem sizeLoop_eq (line : List UInt8) (size : Nat) (any : Bool) :
    sizeLoop line (size % 2 ^ 64) any = (exactLoop line size any).map (· % 2 ^ 64) := by
  induction line generalizing size any with
  | nil =>
      rw [sizeLoop, exactLoop]
      split <;> rfl
  | cons ch line ih =>
      rw [sizeLoop, exactLoop]
      cases hexValue ch with
      | some v =>
          dsimp only
          rw [← ih, Nat.add_mod, Nat.mul_mod, Nat.mod_mod, ← Nat.mul_mod, ← Nat.add_mod]
      | none =>
          dsimp only
          split
          · exact ih size any
          · rfl

theorem chunkSize_eq (line : List UInt8) : chunkSize line = (exactSize line).map (· % 2 ^ 64) :=
  sizeLoop_eq _ 0 false

/-- A chunk-size line: the first CRLF is the one behind it, and the size is `n`. -/
structure SizeLine (line : List UInt8) (n : Nat) : Prop where
  ends : find CRLF (line ++ CRLF) = some line.length
  size : exactSize line = some n

variable {line line' data data' rest rest' u b out out' s t : List UInt8} {m n pos : Nat}

theorem SizeLine.find_eq (h : SizeLine line n) (rest : List UInt8) :
    find CRLF (line ++ (CRLF ++ rest)) = some line.length := by
  rw [← List.append_assoc]
  exact find_append CRLF_ne h.ends rest

/-- The text says where the line ends. -/
theorem SizeLine.unique (h : SizeLine line m) (g : SizeLine line' n)
    (heq : line ++ (CRLF ++ rest) = line' ++ (CRLF ++ rest')) :
    line = line' ∧ m = n ∧ rest = rest' := by
  have hlen : line.length = line'.length := by
    have hf := h.find_eq rest
    rw [heq, g.find_eq rest'] at hf
    exact (Option.some.inj hf).symm
  obtain ⟨rfl, htail⟩ := List.append_inj heq hlen
  refine ⟨rfl, ?_, (List.append_inj htail rfl).2⟩
  have hsize := h.size
  rw [g.size] at hsize
  exact (Option.some.inj hsize).symm

/-- A line that was found. -/
theorem exists_sizeLine {k : Nat} (hfind : find CRLF u = some k)
    (hsize : exactSize (u.take k) = some n) :
    ∃ rest, u = u.take k ++ (CRLF ++ rest) ∧ (u.take k).length = k ∧ SizeLine (u.take k) n := by
  have hle := find_le CRLF_ne hfind
  have hlen : (u.take k).length = k := by
    rw [List.length_take]
    omega
  obtain ⟨rest, hrest⟩ := find_stands CRLF_ne hfind
  have hu : u = u.take k ++ (CRLF ++ rest) := by rw [hrest, List.take_append_drop]
  refine ⟨rest, hu, hlen, ?_, hsize⟩
  rw [hlen]
  refine find_of_append (t := rest) CRLF_ne ?_ ?_
  · rw [List.append_assoc, ← hu]
    exact hfind
  · rw [List.length_append, hlen]

/-! ### The grammar -/

inductive Chunked : List UInt8 → List UInt8 → Prop
  | last {line rest : List UInt8} : SizeLine line 0 → Chunked (line ++ (CRLF ++ rest)) []
  | chunk {line data rest out : List UInt8} : SizeLine line data.length → data ≠ [] →
      Chunked rest out → Chunked (line ++ (CRLF ++ (data ++ (CRLF ++ rest)))) (data ++ out)

/-- On the way through the chunks, the size `n` of a chunk whose data starts at `p`
satisfies `bad p n`. -/
inductive Meets (bad : Nat → Nat → Prop) : Nat → List UInt8 → Prop
  | here {pos n : Nat} {line rest : List UInt8} : SizeLine line n →
      bad (pos + line.length + 2) n → Meets bad pos (line ++ (CRLF ++ rest))
  | later {pos : Nat} {line data rest : List UInt8} : SizeLine line data.length → data ≠ [] →
      Meets bad (pos + line.length + 2 + data.length + 2) rest →
      Meets bad pos (line ++ (CRLF ++ (data ++ (CRLF ++ rest))))

/-- The end of a chunk does not fit in a `size_t`. -/
def Wraps (pos n : Nat) : Prop := 2 ^ 64 ≤ pos + n

/-- The size of a chunk has more than 32 bits. -/
def Large (_ n : Nat) : Prop := 2 ^ 32 ≤ n

theorem Chunked.append (h : Chunked b out) (t : List UInt8) : Chunked (b ++ t) out := by
  induction h with
  | last hline =>
      simp only [List.append_assoc]
      exact .last hline
  | chunk hline hdata _ ih =>
      simp only [List.append_assoc]
      exact .chunk hline hdata ih

theorem Meets.append {bad : Nat → Nat → Prop} (h : Meets bad pos b) (t : List UInt8) :
    Meets bad pos (b ++ t) := by
  induction h with
  | here hline hbad =>
      simp only [List.append_assoc]
      exact .here hline hbad
  | later hline hdata _ ih =>
      simp only [List.append_assoc]
      exact .later hline hdata ih

/-- Two chunks that start the same text. -/
theorem chunk_unique (h : SizeLine line data.length) (g : SizeLine line' data'.length)
    (heq : line ++ (CRLF ++ (data ++ (CRLF ++ rest))) =
      line' ++ (CRLF ++ (data' ++ (CRLF ++ rest')))) :
    line = line' ∧ data = data' ∧ rest = rest' := by
  obtain ⟨rfl, hlen, htail⟩ := h.unique g heq
  obtain ⟨rfl, hrest⟩ := List.append_inj htail hlen
  exact ⟨rfl, rfl, (List.append_inj hrest rfl).2⟩

/-- In a message every chunk ends within the text. -/
theorem Chunked.not_meets {bad : Nat → Nat → Prop} (h : Chunked b out)
    (hbad : ∀ p n, p + n ≤ pos + b.length → ¬ bad p n) : ¬ Meets bad pos b := by
  intro hmeets
  have hcrlf : CRLF.length = 2 := rfl
  induction h generalizing pos with
  | @last line rest hline =>
      simp only [List.length_append] at hbad
      generalize hb : line ++ (CRLF ++ rest) = b at hmeets
      cases hmeets with
      | here hline' hn =>
          obtain ⟨rfl, rfl, -⟩ := hline.unique hline' hb
          exact hbad _ _ (by omega) hn
      | later hline' hdata _ =>
          obtain ⟨-, hzero, -⟩ := hline.unique hline' hb
          exact absurd (List.length_eq_zero_iff.mp hzero.symm) hdata
  | @chunk line data rest out hline hdata _ ih =>
      simp only [List.length_append] at hbad
      generalize hb : line ++ (CRLF ++ (data ++ (CRLF ++ rest))) = b at hmeets
      cases hmeets with
      | here hline' hn =>
          obtain ⟨rfl, rfl, -⟩ := hline.unique hline' hb
          exact hbad _ _ (by omega) hn
      | later hline' _ hrest =>
          obtain ⟨rfl, rfl, rfl⟩ := chunk_unique hline hline' hb
          exact ih (fun p n hle => hbad p n (by omega)) hrest

/-- In a message that fits, no chunk ends past `2 ^ 64`. -/
theorem Chunked.not_wraps (h : Chunked b out) (hfits : pos + b.length < 2 ^ 64) :
    ¬ Meets Wraps pos b := by
  refine h.not_meets fun p n hle hw => ?_
  unfold Wraps at hw
  omega

/-- Nor is any chunk of a short message large. -/
theorem Chunked.not_large (h : Chunked b out) (hfits : pos + b.length < 2 ^ 32) :
    ¬ Meets Large pos b := by
  refine h.not_meets fun p n hle hl => ?_
  unfold Large at hl
  omega

/-- In a text that is short, only a large chunk ends past `2 ^ 64`. -/
theorem Meets.large (h : Meets Wraps pos b) (hfits : pos + b.length < 2 ^ 63) :
    Meets Large pos b := by
  have hcrlf : CRLF.length = 2 := rfl
  induction h with
  | here hline hbad =>
      refine .here hline ?_
      simp only [List.length_append] at hfits
      unfold Wraps at hbad
      unfold Large
      omega
  | later hline hdata _ ih =>
      refine .later hline hdata (ih ?_)
      simp only [List.length_append] at hfits
      omega

/-! ### The decoder -/

/-- What a round of `dechunk` comes to: it returns, or goes on at `pos`. -/
inductive Round
  | returns (r : Bool) (out : List UInt8)
  | goes (pos : Nat) (out : List UInt8)
deriving DecidableEq

/-- The body of the loop of `dechunk`. -/
def dechunkRound (s : List UInt8) (pos : Nat) (out : List UInt8) : Round :=
  match findFrom CRLF s pos with
  | none => .returns false out
  | some eol =>
      match chunkSize ((s.drop pos).take (eol - pos)) with
      | none => .returns false out
      | some size =>
          let pos := eol + 2
          if size = 0 then .returns true out
          else if (pos + size) % 2 ^ 64 > s.length then .returns false out
          else
            let out := out ++ (s.drop pos).take size
            let pos := (pos + size) % 2 ^ 64
            if (s.drop pos).take 2 ≠ CRLF then .returns false out else .goes (pos + 2) out

theorem dechunkLoop_succ (s : List UInt8) (rounds pos : Nat) (out : List UInt8) :
    dechunkLoop s (rounds + 1) pos out = match dechunkRound s pos out with
      | .returns r out => some (r, out)
      | .goes pos out => dechunkLoop s rounds pos out := by
  rw [dechunkLoop, dechunkRound]
  cases findFrom CRLF s pos with
  | none => rfl
  | some eol =>
      dsimp only
      cases chunkSize ((s.drop pos).take (eol - pos)) with
      | none => rfl
      | some size =>
          dsimp only
          split_ifs <;> rfl

/-- A round at a chunk-size line. -/
theorem dechunkRound_line (hu : s.drop pos = line ++ (CRLF ++ rest)) (hline : SizeLine line n)
    (out : List UInt8) : dechunkRound s pos out =
      if n % 2 ^ 64 = 0 then .returns true out
      else if (pos + line.length + 2 + n % 2 ^ 64) % 2 ^ 64 > s.length then .returns false out
      else if (s.drop ((pos + line.length + 2 + n % 2 ^ 64) % 2 ^ 64)).take 2 ≠ CRLF then
        .returns false (out ++ rest.take (n % 2 ^ 64))
      else .goes ((pos + line.length + 2 + n % 2 ^ 64) % 2 ^ 64 + 2)
        (out ++ rest.take (n % 2 ^ 64)) := by
  have hfind : findFrom CRLF s pos = some (pos + line.length) := by
    rw [findFrom, hu, hline.find_eq]
    rfl
  have htake : (s.drop pos).take (pos + line.length - pos) = line := by
    rw [hu, Nat.add_sub_cancel_left, List.take_left]
  have hrest : s.drop (pos + line.length + 2) = rest := by
    rw [show pos + line.length + 2 = pos + (line ++ CRLF).length by simp [CRLF]; omega,
      ← List.drop_drop, hu, ← List.append_assoc, List.drop_left]
  rw [dechunkRound, hfind]
  dsimp only
  rw [htake, chunkSize_eq, hline.size, hrest]
  rfl

/-- A round that is not at a chunk-size line. -/
theorem dechunkRound_cases (s : List UInt8) (pos : Nat) (out : List UInt8) :
    dechunkRound s pos out = .returns false out ∨
      ∃ line rest n, s.drop pos = line ++ (CRLF ++ rest) ∧ SizeLine line n := by
  unfold dechunkRound
  cases hfind : find CRLF (s.drop pos) with
  | none =>
      rw [findFrom, hfind]
      exact Or.inl rfl
  | some k =>
      rw [findFrom, hfind]
      dsimp only [Option.map_some]
      rw [Nat.add_sub_cancel_left, chunkSize_eq]
      cases hsize : exactSize ((s.drop pos).take k) with
      | none => exact Or.inl rfl
      | some n =>
          obtain ⟨rest, hu, -, hline⟩ := exists_sizeLine hfind hsize
          exact Or.inr ⟨_, rest, n, hu, hline⟩

/-- A round of `dechunkLoop` at a chunk-size line. -/
theorem dechunkLoop_line {rounds : Nat} (hu : s.drop pos = line ++ (CRLF ++ rest))
    (hline : SizeLine line n) (out : List UInt8) :
    dechunkLoop s (rounds + 1) pos out =
      if n % 2 ^ 64 = 0 then some (true, out)
      else if (pos + line.length + 2 + n % 2 ^ 64) % 2 ^ 64 > s.length then some (false, out)
      else if (s.drop ((pos + line.length + 2 + n % 2 ^ 64) % 2 ^ 64)).take 2 ≠ CRLF then
        some (false, out ++ rest.take (n % 2 ^ 64))
      else dechunkLoop s rounds ((pos + line.length + 2 + n % 2 ^ 64) % 2 ^ 64 + 2)
        (out ++ rest.take (n % 2 ^ 64)) := by
  rw [dechunkLoop_succ, dechunkRound_line hu hline]
  split_ifs <;> rfl

theorem stands_crlf : Stands CRLF s pos ↔ (s.drop pos).take 2 = CRLF :=
  List.prefix_iff_eq_take.trans eq_comm

/-- The data that stands between a chunk-size line and a CRLF. -/
theorem data_of_stands (hu : s.drop pos = line ++ (CRLF ++ rest))
    (hstands : Stands CRLF s (pos + line.length + 2 + n)) :
    ∃ data, data.length = n ∧ rest = data ++ (CRLF ++ s.drop (pos + line.length + 2 + n + 2)) := by
  have hcrlf : CRLF.length = 2 := rfl
  have hle := hstands.le CRLF_ne
  have hrest : s.drop (pos + line.length + 2) = rest := by
    rw [show pos + line.length + 2 = pos + (line ++ CRLF).length by simp [CRLF]; omega,
      ← List.drop_drop, hu, ← List.append_assoc, List.drop_left]
  refine ⟨rest.take n, ?_, ?_⟩
  · rw [List.length_take, ← hrest, List.length_drop]
    omega
  · rw [← stands_crlf.mp hstands, ← List.drop_drop (i := 2), List.take_append_drop,
      ← List.drop_drop (i := n), hrest, List.take_append_drop]

/-- The data of a chunk that ends within the text. -/
theorem dechunkLoop_chunk {rounds : Nat} (hu : s.drop pos = line ++ (CRLF ++ (data ++ (CRLF ++ rest))))
    (hline : SizeLine line data.length) (hdata : data ≠ []) (hfits : s.length < 2 ^ 64)
    (out : List UInt8) : dechunkLoop s (rounds + 1) pos out =
      dechunkLoop s rounds (pos + line.length + 2 + data.length + 2) (out ++ data) := by
  have hcrlf : CRLF.length = 2 := rfl
  have hlen := congrArg List.length hu
  simp only [List.length_drop, List.length_append] at hlen
  have hpos : 0 < data.length := List.length_pos_iff.mpr hdata
  have hend : s.drop (pos + line.length + 2 + data.length) = CRLF ++ rest := by
    rw [show pos + line.length + 2 + data.length = pos + (line ++ (CRLF ++ data)).length by
        simp [CRLF]; omega,
      ← List.drop_drop, hu, show line ++ (CRLF ++ (data ++ (CRLF ++ rest))) =
        (line ++ (CRLF ++ data)) ++ (CRLF ++ rest) by simp, List.drop_left]
  rw [dechunkLoop_line hu hline, Nat.mod_eq_of_lt (show data.length < 2 ^ 64 by omega),
    Nat.mod_eq_of_lt (show pos + line.length + 2 + data.length < 2 ^ 64 by omega),
    if_neg (by omega), if_neg (by omega), hend, if_neg (by simp [CRLF]), List.take_left]

/-- **Every message is accepted**, and its chunks are what is decoded. -/
theorem dechunkLoop_complete (h : Chunked u out) (hu : s.drop pos = u) (hfits : s.length < 2 ^ 64)
    {rounds : Nat} (hrounds : u.length ≤ rounds) (out' : List UInt8) :
    dechunkLoop s rounds pos out' = some (true, out' ++ out) := by
  have hcrlf : CRLF.length = 2 := rfl
  induction h generalizing pos rounds out' with
  | @last line rest hline =>
      simp only [List.length_append] at hrounds
      obtain ⟨rounds, rfl⟩ : ∃ k, rounds = k + 1 := ⟨rounds - 1, by omega⟩
      rw [dechunkLoop_line hu hline, if_pos (by rfl), List.append_nil]
  | @chunk line data rest out hline hdata _ ih =>
      simp only [List.length_append] at hrounds
      obtain ⟨rounds, rfl⟩ : ∃ k, rounds = k + 1 := ⟨rounds - 1, by omega⟩
      rw [dechunkLoop_chunk hu hline hdata hfits, ih ?_ (by omega), List.append_assoc]
      rw [show pos + line.length + 2 + data.length + 2 =
          pos + (line ++ (CRLF ++ (data ++ CRLF))).length by simp [CRLF]; omega,
        ← List.drop_drop, hu, show line ++ (CRLF ++ (data ++ (CRLF ++ rest))) =
          (line ++ (CRLF ++ (data ++ CRLF))) ++ rest by simp, List.drop_left]

theorem dechunk_complete (h : Chunked b out) (hfits : b.length < 2 ^ 64) {rounds : Nat}
    (hrounds : b.length ≤ rounds) : dechunk rounds b = some (true, out) :=
  dechunkLoop_complete h List.drop_zero hfits hrounds []

/-- What a round finds, as long as the position does not wrap around: the end of the
message, a whole chunk, or a reason to refuse. -/
theorem dechunkLoop_step (hnot : ¬ Meets Wraps pos (s.drop pos)) (rounds : Nat)
    (out : List UInt8) :
    (∃ o, dechunkLoop s (rounds + 1) pos out = some (false, o)) ∨
    (∃ line rest, s.drop pos = line ++ (CRLF ++ rest) ∧ SizeLine line 0 ∧
      dechunkLoop s (rounds + 1) pos out = some (true, out)) ∨
    ∃ line data rest, s.drop pos = line ++ (CRLF ++ (data ++ (CRLF ++ rest))) ∧
      SizeLine line data.length ∧ data ≠ [] ∧
      s.drop (pos + line.length + 2 + data.length + 2) = rest ∧
      dechunkLoop s (rounds + 1) pos out =
        dechunkLoop s rounds (pos + line.length + 2 + data.length + 2) (out ++ data) := by
  have hcrlf : CRLF.length = 2 := rfl
  rcases dechunkRound_cases s pos out with hround | ⟨line, rest, n, hu, hline⟩
  · exact Or.inl ⟨out, by rw [dechunkLoop_succ, hround]⟩
  rw [hu] at hnot
  have hw : ¬ Wraps (pos + line.length + 2) n := fun hw => hnot (.here hline hw)
  unfold Wraps at hw
  rw [dechunkLoop_line hu hline, Nat.mod_eq_of_lt (show n < 2 ^ 64 by omega),
    Nat.mod_eq_of_lt (show pos + line.length + 2 + n < 2 ^ 64 by omega)]
  by_cases h0 : n = 0
  · subst h0
    exact Or.inr (Or.inl ⟨line, rest, hu, hline, if_pos rfl⟩)
  rw [if_neg h0]
  by_cases hlong : pos + line.length + 2 + n > s.length
  · exact Or.inl ⟨_, if_pos hlong⟩
  rw [if_neg hlong]
  by_cases hend : (s.drop (pos + line.length + 2 + n)).take 2 = CRLF
  · rw [if_neg (not_not.mpr hend)]
    obtain ⟨data, rfl, rfl⟩ := data_of_stands hu (stands_crlf.mpr hend)
    refine Or.inr (Or.inr ⟨line, data, _, hu, hline, ?_, rfl, ?_⟩)
    · exact fun hnil => h0 (List.length_eq_zero_iff.mpr hnil)
    · rw [List.take_left]
  · exact Or.inl ⟨_, if_pos hend⟩

/-- **What is accepted is a message**, unless the position wraps around. -/
theorem dechunkLoop_sound {rounds : Nat} (hnot : ¬ Meets Wraps pos (s.drop pos))
    (h : dechunkLoop s rounds pos out = some (true, out')) :
    ∃ d, out' = out ++ d ∧ Chunked (s.drop pos) d := by
  induction rounds generalizing pos out with
  | zero => cases h
  | succ rounds ih =>
      rcases dechunkLoop_step hnot rounds out with
        ⟨o, heq⟩ | ⟨line, rest, hu, hline, heq⟩ | ⟨line, data, rest, hu, hline, hdata, hrest, heq⟩
      · rw [heq] at h
        cases h
      · rw [heq] at h
        cases h
        rw [hu]
        exact ⟨[], (List.append_nil _).symm, .last hline⟩
      · rw [heq] at h
        rw [hu] at hnot ⊢
        obtain ⟨d, rfl, hd⟩ := ih (fun hm => hnot (.later hline hdata (hrest ▸ hm))) h
        rw [hrest] at hd
        exact ⟨data ++ d, List.append_assoc _ _ _, .chunk hline hdata hd⟩

theorem dechunk_sound {rounds : Nat} (hnot : ¬ Meets Wraps 0 b)
    (h : dechunk rounds b = some (true, out)) : Chunked b out := by
  rw [← List.drop_zero (l := b)] at hnot
  obtain ⟨d, rfl, hd⟩ := dechunkLoop_sound hnot h
  exact hd

/-- The decoder ends, unless the position wraps around: every round but the last takes a
chunk. -/
theorem dechunkLoop_ends {rounds : Nat} (hnot : ¬ Meets Wraps pos (s.drop pos))
    (hrounds : (s.drop pos).length < rounds) : ∃ r, dechunkLoop s rounds pos out = some r := by
  induction rounds generalizing pos out with
  | zero => exact absurd hrounds (Nat.not_lt_zero _)
  | succ rounds ih =>
      rcases dechunkLoop_step hnot rounds out with
        ⟨o, heq⟩ | ⟨line, rest, hu, hline, heq⟩ | ⟨line, data, rest, hu, hline, hdata, hrest, heq⟩
      · exact ⟨_, heq⟩
      · exact ⟨_, heq⟩
      · rw [heq]
        rw [hu] at hnot hrounds
        refine ih (fun hm => hnot (.later hline hdata (hrest ▸ hm))) ?_
        rw [hrest]
        simp only [List.length_append] at hrounds
        have hcrlf : CRLF.length = 2 := rfl
        omega

theorem dechunk_ends {rounds : Nat} (hnot : ¬ Meets Wraps 0 b) (hrounds : b.length < rounds) :
    ∃ r, dechunk rounds b = some r := by
  rw [← List.drop_zero (l := b)] at hnot hrounds
  exact dechunkLoop_ends hnot hrounds

/-- **Bytes that follow** do not change the verdict, if it was not to refuse. -/
theorem dechunkLoop_append (rounds : Nat) (h : (dechunkLoop s rounds pos out).map Prod.fst ≠ some false)
    (t : List UInt8) (out' : List UInt8) :
    (dechunkLoop (s ++ t) rounds pos out').map Prod.fst =
      (dechunkLoop s rounds pos out).map Prod.fst := by
  induction rounds generalizing pos out out' with
  | zero => rfl
  | succ rounds ih =>
      rw [dechunkLoop] at h ⊢
      rw [dechunkLoop]
      cases hfind : findFrom CRLF s pos with
      | none => simp [hfind] at h
      | some eol =>
          obtain ⟨hpos, -, hle⟩ := findFrom_stands CRLF_ne hfind
          have hcrlf : CRLF.length = 2 := rfl
          have hline : ((s ++ t).drop pos).take (eol - pos) = (s.drop pos).take (eol - pos) := by
            rw [List.drop_append_of_le_length (by omega),
              List.take_append_of_le_length (by rw [List.length_drop]; omega)]
          rw [findFrom_append CRLF_ne hfind]
          rw [hfind] at h
          dsimp only at h ⊢
          rw [hline]
          cases hsize : chunkSize ((s.drop pos).take (eol - pos)) with
          | none => simp [hsize] at h
          | some size =>
              rw [hsize] at h
              dsimp only at h ⊢
              by_cases h0 : size = 0
              · rw [if_pos h0, if_pos h0]
                rfl
              rw [if_neg h0] at h ⊢
              rw [if_neg h0]
              by_cases hlong : (eol + 2 + size) % 2 ^ 64 > s.length
              · rw [if_pos hlong] at h
                exact absurd rfl h
              rw [if_neg hlong] at h ⊢
              rw [if_neg (by rw [List.length_append]; omega)]
              by_cases hend : (s.drop ((eol + 2 + size) % 2 ^ 64)).take 2 = CRLF
              · have hend' : ((s ++ t).drop ((eol + 2 + size) % 2 ^ 64)).take 2 = CRLF := by
                  have hlen := congrArg List.length hend
                  rw [List.length_take, hcrlf] at hlen
                  rw [List.drop_append_of_le_length (by omega),
                    List.take_append_of_le_length (by omega), hend]
                rw [if_neg (not_not.mpr hend)] at h ⊢
                rw [if_neg (not_not.mpr hend')]
                exact ih h _
              · rw [if_pos hend] at h
                exact absurd rfl h

theorem dechunk_append {rounds : Nat} (h : (dechunk rounds b).map Prod.fst ≠ some false)
    (t : List UInt8) : (dechunk rounds (b ++ t)).map Prod.fst = (dechunk rounds b).map Prod.fst :=
  dechunkLoop_append rounds h t []

end Ilo2.Tls
