import Ilo2.Tls.Chunked

/-!
# The rounds of `dechunk`

The position of `dechunk` is computed modulo `2 ^ 64`, so that a chunk size can send it
anywhere in the text, back to a line that it has read among others.

`Head s pos out` says that a round starts at `pos`, and `Comes s pos wrapped` the same in
terms of the text alone: which size lines follow each other, their sizes taken as exact
numbers, and whether the end of some chunk did not fit in a `size_t`.

* `careful_iff` - **when `dechunk` moves on, returns and accepts messages only**: the text
  has no chunk size that leads back, nor one that leads past its chunk to a last line.
* `loops_forever` - a text of 26 bytes on which `dechunk` never returns.
-/

namespace Ilo2.Tls

open Text

variable {s u line data rest out out' d : List UInt8} {pos pos' n : Nat} {wrapped : Bool}

/-- A round of `dechunk s` starts at `pos`, with `out` decoded. -/
inductive Head (s : List UInt8) : Nat → List UInt8 → Prop
  | start : Head s 0 []
  | again {pos pos' : Nat} {out out' : List UInt8} : Head s pos out →
      dechunkRound s pos out = .goes pos' out' → Head s pos' out'

/-- Every round moves on, `dechunk` returns, and it accepts messages only. -/
structure Careful (s : List UInt8) : Prop where
  advances : ∀ {pos pos' : Nat} {out out' : List UInt8}, Head s pos out →
    dechunkRound s pos out = .goes pos' out' → pos < pos'
  returns : ∃ r, dechunk (max 1 s.length) s = some r
  sized : ∀ {rounds : Nat} {out : List UInt8}, dechunk rounds s = some (true, out) → Chunked s out

/-! ### The text alone -/

/-- Where the end of a chunk is sought: its data starts at `p`, and its size is `n`. -/
def chunkEnd (p n : Nat) : Nat := (p + n) % 2 ^ 64

/-- The reading comes to `pos`; `wrapped` if the end of a chunk did not fit before. -/
inductive Comes (s : List UInt8) : Nat → Bool → Prop
  | start : Comes s 0 false
  | chunk {pos n : Nat} {wrapped : Bool} {line rest : List UInt8} : Comes s pos wrapped →
      s.drop pos = line ++ (CRLF ++ rest) → SizeLine line n → n % 2 ^ 64 ≠ 0 →
      Stands CRLF s (chunkEnd (pos + line.length + 2) n) →
      Comes s (chunkEnd (pos + line.length + 2) n + 2)
        (wrapped || decide (2 ^ 64 ≤ pos + line.length + 2 + n))

/-- The size line at `pos` misleads: its size is 0 modulo `2 ^ 64`, and it is not the last
line of a message; or the end of its chunk is found before the line. -/
inductive Misleads (s : List UInt8) : Prop
  | ends {pos n : Nat} {wrapped : Bool} {line rest : List UInt8} : Comes s pos wrapped →
      s.drop pos = line ++ (CRLF ++ rest) → SizeLine line n → n % 2 ^ 64 = 0 →
      (wrapped = true ∨ n ≠ 0) → Misleads s
  | back {pos n : Nat} {wrapped : Bool} {line rest : List UInt8} : Comes s pos wrapped →
      s.drop pos = line ++ (CRLF ++ rest) → SizeLine line n → n % 2 ^ 64 ≠ 0 →
      Stands CRLF s (chunkEnd (pos + line.length + 2) n) →
      chunkEnd (pos + line.length + 2) n + 2 ≤ pos → Misleads s

/-! ### Rounds and the text -/

theorem chunkEnd_eq (p n : Nat) : (p + n % 2 ^ 64) % 2 ^ 64 = chunkEnd p n := Nat.add_mod_mod _ _ _

/-- What a round finds when it goes on. -/
theorem round_goes (h : dechunkRound s pos out = .goes pos' out') :
    ∃ line rest n, s.drop pos = line ++ (CRLF ++ rest) ∧ SizeLine line n ∧ n % 2 ^ 64 ≠ 0 ∧
      Stands CRLF s (chunkEnd (pos + line.length + 2) n) ∧
      pos' = chunkEnd (pos + line.length + 2) n + 2 := by
  rcases dechunkRound_cases s pos out with hround | ⟨line, rest, n, hu, hline⟩
  · rw [hround] at h
    cases h
  · rw [dechunkRound_line hu hline, chunkEnd_eq] at h
    split_ifs at h with h0 hlong hend
    cases h
    exact ⟨line, rest, n, hu, hline, h0, stands_crlf.mpr (not_not.mp hend), rfl⟩

/-- A round that accepts is at a size 0. -/
theorem round_true (h : dechunkRound s pos out = .returns true out') :
    ∃ line rest n, s.drop pos = line ++ (CRLF ++ rest) ∧ SizeLine line n ∧ n % 2 ^ 64 = 0 := by
  rcases dechunkRound_cases s pos out with hround | ⟨line, rest, n, hu, hline⟩
  · rw [hround] at h
    cases h
  · by_cases h0 : n % 2 ^ 64 = 0
    · exact ⟨line, rest, n, hu, hline, h0⟩
    · rw [dechunkRound_line hu hline, if_neg h0] at h
      split_ifs at h
      all_goals cases h

/-- A chunk that is read, whole or not. -/
theorem round_chunk (hu : s.drop pos = line ++ (CRLF ++ rest)) (hline : SizeLine line n)
    (h0 : n % 2 ^ 64 ≠ 0) (hend : Stands CRLF s (chunkEnd (pos + line.length + 2) n))
    (out : List UInt8) : ∃ out', dechunkRound s pos out =
      .goes (chunkEnd (pos + line.length + 2) n + 2) out' := by
  have hle := hend.le CRLF_ne
  rw [dechunkRound_line hu hline, chunkEnd_eq, if_neg h0, if_neg (by omega),
    if_neg (not_not.mpr (stands_crlf.mp hend))]
  exact ⟨_, rfl⟩

theorem Head.comes (h : Head s pos out) : ∃ wrapped, Comes s pos wrapped := by
  induction h with
  | start => exact ⟨false, .start⟩
  | again _ hround ih =>
      obtain ⟨wrapped, ih⟩ := ih
      obtain ⟨line, rest, n, hu, hline, h0, hend, rfl⟩ := round_goes hround
      exact ⟨_, ih.chunk hu hline h0 hend⟩

theorem Comes.head (h : Comes s pos wrapped) : ∃ out, Head s pos out := by
  induction h with
  | start => exact ⟨[], .start⟩
  | chunk _ hu hline h0 hend ih =>
      obtain ⟨out, ih⟩ := ih
      obtain ⟨out', hround⟩ := round_chunk hu hline h0 hend out
      exact ⟨out', ih.again hround⟩

/-- The loop comes to every head. -/
theorem Head.loop (h : Head s pos out) :
    ∃ k, ∀ rounds, dechunk (k + rounds) s = dechunkLoop s rounds pos out := by
  induction h with
  | start => exact ⟨0, fun rounds => by rw [Nat.zero_add]; rfl⟩
  | again _ hround ih =>
      obtain ⟨k, ih⟩ := ih
      refine ⟨k + 1, fun rounds => ?_⟩
      rw [Nat.add_assoc, Nat.add_comm 1, ih, dechunkLoop_succ, hround]

/-- Where the loop ends, there is a head. -/
theorem exists_head {rounds : Nat} {r : Bool} (h : Head s pos out)
    (hloop : dechunkLoop s rounds pos out = some (r, out')) :
    ∃ pos' out₀, Head s pos' out₀ ∧ dechunkRound s pos' out₀ = .returns r out' := by
  induction rounds generalizing pos out with
  | zero => cases hloop
  | succ rounds ih =>
      rw [dechunkLoop_succ] at hloop
      cases hround : dechunkRound s pos out with
      | returns r out =>
          rw [hround] at hloop
          cases hloop
          exact ⟨pos, _, h, hround⟩
      | goes pos out =>
          rw [hround] at hloop
          exact ih (h.again hround) hloop

/-! ### Messages -/

/-- The first chunk of a message ends within it. -/
theorem Chunked.size_le (h : Chunked u d) (hu : u = line ++ (CRLF ++ rest))
    (hline : SizeLine line n) : n ≤ u.length := by
  cases h with
  | last hline' =>
      obtain ⟨-, rfl, -⟩ := hline.unique hline' hu.symm
      exact Nat.zero_le _
  | chunk hline' _ _ =>
      obtain ⟨-, rfl, -⟩ := hline.unique hline' hu.symm
      simp only [List.length_append]
      omega

/-- In a message the reading comes to messages, and no end of a chunk wraps around. -/
theorem Comes.of_chunked (h : Comes s pos wrapped) (hs : Chunked s out)
    (hfits : s.length < 2 ^ 64) : wrapped = false ∧ ∃ d, Chunked (s.drop pos) d := by
  have hcrlf : CRLF.length = 2 := rfl
  induction h with
  | start => exact ⟨rfl, out, hs⟩
  | @chunk pos n wrapped line rest _ hu hline h0 hend ih =>
      obtain ⟨rfl, d, hd⟩ := ih
      have hlen := congrArg List.length hu
      rw [hu] at hd
      generalize hb : line ++ (CRLF ++ rest) = b at hd
      cases hd with
      | last hline' =>
          obtain ⟨-, rfl, -⟩ := hline.unique hline' hb
          exact absurd rfl h0
      | @chunk line' data rest' out' hline' hdata hrest =>
          obtain ⟨rfl, rfl, rfl⟩ := hline.unique hline' hb
          simp only [List.length_drop, List.length_append] at hlen
          have hsmall : pos + line.length + 2 + data.length < 2 ^ 64 := by omega
          refine ⟨by simpa using hsmall, out', ?_⟩
          rw [chunkEnd, Nat.mod_eq_of_lt hsmall, show pos + line.length + 2 + data.length + 2 =
              pos + (line ++ (CRLF ++ (data ++ CRLF))).length by simp [CRLF]; omega,
            ← List.drop_drop, hu, show line ++ (CRLF ++ (data ++ (CRLF ++ rest'))) =
              (line ++ (CRLF ++ (data ++ CRLF))) ++ rest' by simp, List.drop_left]
          exact hrest

/-- A message that it comes to, with no end that wrapped around, is the rest of one. -/
theorem Comes.chunked (h : Comes s pos wrapped) : wrapped = false → Chunked (s.drop pos) d →
    ∃ d', Chunked s d' := by
  induction h generalizing d with
  | start => exact fun _ hd => ⟨d, hd⟩
  | @chunk pos n wrapped line rest _ hu hline h0 hend ih =>
      intro hw hd
      simp only [Bool.or_eq_false_iff, decide_eq_false_iff_not, Nat.not_le] at hw
      have hstands : Stands CRLF s (pos + line.length + 2 + n) := by
        rwa [chunkEnd, Nat.mod_eq_of_lt hw.2] at hend
      rw [chunkEnd, Nat.mod_eq_of_lt hw.2] at hd
      obtain ⟨data, rfl, rfl⟩ := data_of_stands hu hstands
      refine ih hw.1 (d := data ++ d) ?_
      rw [hu]
      refine .chunk hline (fun hnil => h0 ?_) hd
      rw [hnil]
      rfl

/-! ### When `dechunk` is careful -/

theorem advances_of_not_misleads (hs : ¬ Misleads s) (h : Head s pos out)
    (hround : dechunkRound s pos out = .goes pos' out') : pos < pos' := by
  obtain ⟨wrapped, hcomes⟩ := h.comes
  obtain ⟨line, rest, n, hu, hline, h0, hend, rfl⟩ := round_goes hround
  by_contra hle
  exact hs (.back hcomes hu hline h0 hend (by omega))

/-- A round goes on behind a CRLF. -/
theorem goes_le (hround : dechunkRound s pos out = .goes pos' out') :
    2 ≤ pos' ∧ pos' ≤ s.length := by
  obtain ⟨line, rest, n, -, -, -, hend, rfl⟩ := round_goes hround
  exact ⟨by omega, hend.le CRLF_ne⟩

/-- Rounds that move on come to an end. -/
theorem returns_of_advances (hadv : ∀ {pos pos' : Nat} {out out' : List UInt8}, Head s pos out →
      dechunkRound s pos out = .goes pos' out' → pos < pos')
    (rounds : Nat) : ∀ {pos : Nat} {out : List UInt8}, Head s pos out → pos ≤ s.length →
      s.length < pos + rounds → ∃ r, dechunkLoop s rounds pos out = some r := by
  induction rounds with
  | zero => intro pos out _ hle hlt; omega
  | succ rounds ih =>
      intro pos out h hle hlt
      rw [dechunkLoop_succ]
      cases hround : dechunkRound s pos out with
      | returns r out => exact ⟨_, rfl⟩
      | goes pos' out' =>
          have hlt' := hadv h hround
          exact ih (h.again hround) (goes_le hround).2 (by omega)

theorem dechunk_returns (hadv : ∀ {pos pos' : Nat} {out out' : List UInt8}, Head s pos out →
      dechunkRound s pos out = .goes pos' out' → pos < pos') :
    ∃ r, dechunk (max 1 s.length) s = some r := by
  obtain ⟨k, hk⟩ : ∃ k, max 1 s.length = k + 1 := ⟨max 1 s.length - 1, by omega⟩
  rw [hk, dechunk, dechunkLoop_succ]
  cases hround : dechunkRound s 0 [] with
  | returns r out => exact ⟨_, rfl⟩
  | goes pos out =>
      have hle := goes_le hround
      exact returns_of_advances hadv k (Head.start.again hround) hle.2 (by omega)

theorem chunked_of_not_misleads (hs : ¬ Misleads s) (hfits : s.length < 2 ^ 64) {rounds : Nat}
    (h : dechunk rounds s = some (true, out)) : Chunked s out := by
  obtain ⟨pos, out₀, hhead, hround⟩ := exists_head .start h
  obtain ⟨wrapped, hcomes⟩ := hhead.comes
  obtain ⟨line, rest, n, hu, hline, h0⟩ := round_true hround
  have hn : wrapped = false ∧ n = 0 := by
    constructor
    · by_contra hw
      exact hs (.ends hcomes hu hline h0 (Or.inl (by simpa using hw)))
    · by_contra hn
      exact hs (.ends hcomes hu hline h0 (Or.inr hn))
  obtain ⟨hw, rfl⟩ := hn
  obtain ⟨d, hd⟩ := hcomes.chunked hw (hu ▸ Chunked.last hline)
  exact dechunk_sound (hd.not_wraps (by omega)) h

/-- **When `dechunk` is careful**: no size line of the text misleads it. -/
theorem careful_iff (hfits : s.length < 2 ^ 64) : Careful s ↔ ¬ Misleads s := by
  constructor
  · rintro ⟨hadv, -, hsized⟩ (⟨hcomes, hu, hline, h0, hbad⟩ | ⟨hcomes, hu, hline, h0, hend, hle⟩)
    · obtain ⟨out, hhead⟩ := hcomes.head
      obtain ⟨k, hloop⟩ := hhead.loop
      have htrue := hloop 1
      rw [dechunkLoop_succ, dechunkRound_line hu hline, if_pos h0] at htrue
      obtain ⟨rfl, d, hd⟩ := hcomes.of_chunked (hsized htrue) hfits
      have hle := hd.size_le hu hline
      rw [List.length_drop] at hle
      rcases hbad with hw | hn
      · cases hw
      · omega
    · obtain ⟨out, hhead⟩ := hcomes.head
      obtain ⟨out', hround⟩ := round_chunk hu hline h0 hend out
      have := hadv hhead hround
      omega
  · intro hs
    exact ⟨fun h hround => advances_of_not_misleads hs h hround,
      dechunk_returns fun h hround => advances_of_not_misleads hs h hround,
      chunked_of_not_misleads hs hfits⟩

/-- The size of the second chunk is 20 less than `2 ^ 64`. -/
def backInput : List UInt8 := ascii "1\r\nx\r\nFFFFFFFFFFFFFFEC\r\n"

/-- **`dechunk` need not return**: the end of the second chunk is before its own line. -/
theorem loops_forever : (∀ rounds, dechunk rounds backInput = none) ∧ ¬ Careful backInput := by
  have hfirst : dechunkRound backInput 0 [] = .goes 6 [120] := by decide +kernel
  have hback : dechunkRound backInput 6 [120] = .goes 6 [120] := by decide +kernel
  have hloop : ∀ rounds, dechunkLoop backInput rounds 6 [120] = none := by
    intro rounds
    induction rounds with
    | zero => rfl
    | succ rounds ih => rw [dechunkLoop_succ, hback]; exact ih
  refine ⟨fun rounds => ?_, fun hs => ?_⟩
  · cases rounds with
    | zero => rfl
    | succ rounds => rw [dechunk, dechunkLoop_succ, hfirst]; exact hloop rounds
  · exact absurd (hs.advances (Head.start.again hfirst) hback) (by decide)

/-- A message of one chunk misleads nobody. -/
theorem careful_iff_message : Careful (ascii "1\r\nx\r\n0\r\n") ↔
    ¬ Misleads (ascii "1\r\nx\r\n0\r\n") :=
  careful_iff (by decide +kernel)

end Ilo2.Tls
