import Ilo2.Dvc.Bits
import Ilo2.Lib.Bitstring

/-!
# The bit reader is a queue

`Rep b q` says that the accumulator of `b` holds the bit string `q`.  `Calls` is any sequence
of `add_bits` and `get_bits` in which `get_bits` asks for no more than 8 bits that are there,
and `add_bits` finds 24 bits at most.

* `rep_addBits`, `rep_getBits` - the two operations on the queue.
* `reader_correct` - **`DvcBits` is a queue of bits with a detector**: `add_bits` returns 4
  for the first time when 31 zeros in a row have come in.
-/

namespace Ilo2.Dvc

open Bitstring

namespace DvcBits

variable {b b' : DvcBits} {q p : List Bool} {n r : Nat} {c : UInt8}

/-- The accumulator holds the bits `q`. -/
structure Rep (b : DvcBits) (q : List Bool) : Prop where
  ibBcnt : b.ibBcnt = q.length
  ibAcc : b.ibAcc = lsbFirst q

/-- The bits of a byte, in the order in which they come in. -/
def byteBits (c : UInt8) : List Bool := bits 8 c.toNat

/-! ### The tables -/

theorem reversal_bits : ∀ n ≤ 8, ∀ v < 2 ^ n,
    reversal v >>> (8 - n) = msbFirst (bits n v) := by decide +kernel

theorem right_eq : ∀ v < 256, right v = leading (bits 8 v) := by decide +kernel

theorem left_eq : ∀ v < 256, v ≠ 0 → left v = trailing (bits 8 v) ∧ true ∈ bits 8 v := by
  decide +kernel

/-! ### The queue -/

/-- **`add_bits`** appends the bits of the byte. -/
theorem rep_addBits (h : Rep b q) (hb : b.ibBcnt ≤ 24) (c : UInt8) :
    ∃ r b', b.addBits c = .ok (r, b') ∧ Rep b' (q ++ byteBits c) := by
  have hc := c.toNat_lt
  have hacc := lsbFirst_lt q
  have hpow : 2 ^ q.length ≤ 2 ^ 24 := Nat.pow_le_pow_right (by decide) (h.ibBcnt ▸ hb)
  have hfit : c.toNat <<< q.length < 2 ^ 32 := by
    rw [Nat.shiftLeft_eq]
    calc c.toNat * 2 ^ q.length < 2 ^ 8 * 2 ^ q.length :=
          Nat.mul_lt_mul_of_pos_right hc (Nat.two_pow_pos _)
      _ ≤ 2 ^ 8 * 2 ^ 24 := Nat.mul_le_mul_left _ hpow
  have hrep : Rep { b with
      ibAcc := b.ibAcc ||| (c.toNat <<< b.ibBcnt) % 2 ^ 32
      ibBcnt := b.ibBcnt + 8 } (q ++ byteBits c) := by
    constructor
    · simp [h.ibBcnt, byteBits]
    · dsimp only
      rw [h.ibBcnt, h.ibAcc, Nat.mod_eq_of_lt hfit, Nat.or_comm,
        ← Nat.shiftLeft_add_eq_or_of_lt hacc, Nat.shiftLeft_eq, lsbFirst_append, byteBits,
        lsbFirst_bits hc, Nat.add_comm, Nat.mul_comm]
  unfold addBits
  rw [if_neg (by omega)]
  dsimp only
  split
  · exact ⟨_, _, rfl, hrep.ibBcnt, hrep.ibAcc⟩
  · split
    · exact ⟨_, _, rfl, hrep.ibBcnt, hrep.ibAcc⟩
    · exact ⟨_, _, rfl, hrep.ibBcnt, hrep.ibAcc⟩

/-- **`get_bits`** takes the first bits, and leaves their number in `code`. -/
theorem rep_getBits (h : Rep b q) (h8 : n ≤ 8) (hn : n ≤ b.ibBcnt) :
    ∃ b', b.getBits n = .ok b' ∧ Rep b' (q.drop n) ∧ (1 ≤ n → b'.code = msbFirst (q.take n)) ∧
      (n = 0 → b' = b) := by
  have hlen : n ≤ q.length := h.ibBcnt ▸ hn
  have hdrop : lsbFirst (q.drop n) = b.ibAcc >>> n := by
    rw [lsbFirst_drop hlen, h.ibAcc, Nat.shiftRight_eq_div_pow]
  have hcount : b.ibBcnt - n = (q.drop n).length := by rw [List.length_drop, h.ibBcnt]
  have hcode : reversal (b.ibAcc &&& (2 ^ n - 1)) >>> (8 - n) = msbFirst (q.take n) := by
    have htake := bits_lsbFirst (q.take n)
    rw [List.length_take, Nat.min_eq_left hlen, lsbFirst_take hlen] at htake
    rw [Nat.and_two_pow_sub_one_eq_mod, reversal_bits n h8 _ (Nat.mod_lt _ (Nat.two_pow_pos n)),
      h.ibAcc, htake]
  unfold getBits
  rw [if_neg (by omega)]
  by_cases h1 : n = 1
  · subst h1
    rw [if_pos rfl]
    refine ⟨_, rfl, ⟨hcount, hdrop.symm⟩, fun _ => ?_, fun h => absurd h (by decide)⟩
    have hbit : ∀ v < 2, reversal v >>> 7 = v := by decide +kernel
    rw [← hcode]
    exact (hbit _ (Nat.lt_of_le_of_lt Nat.and_le_right (by decide))).symm
  rw [if_neg h1]
  by_cases h0 : n = 0
  · subst h0
    rw [if_pos rfl]
    exact ⟨b, rfl, h, fun h => absurd h (by decide), fun _ => rfl⟩
  rw [if_neg h0]
  exact ⟨_, rfl, ⟨hcount, hdrop.symm⟩, fun _ => hcode, fun h => absurd h h0⟩

/-! ### The detector -/

/-- Before 31 zeros in a row have come in, `zero_count` counts the zeros at the end. -/
def Counts (b : DvcBits) (p : List Bool) : Prop := ¬ Zeros 31 p ∧ b.zeroCount = trailing p

/-- **What `add_bits` returns**, the bits `p` having come in before. -/
theorem counts_addBits (h : Counts b p) (hadd : b.addBits c = .ok (r, b')) :
    (r = 4 ↔ Zeros 31 (p ++ byteBits c)) ∧ (r ≠ 4 → Counts b' (p ++ byteBits c)) := by
  obtain ⟨hp, hz⟩ := h
  have hc := c.toNat_lt
  have hzeros : Zeros 31 (p ++ byteBits c) ↔ 31 ≤ trailing p + leading (byteBits c) :=
    zeros_append hp (by rw [byteBits, length_bits]; decide)
  have hright : right c.toNat = leading (byteBits c) := right_eq _ hc
  unfold addBits at hadd
  split at hadd
  · cases hadd
  dsimp only at hadd
  rw [hz, hright] at hadd
  split at hadd
  · rename_i hcount
    cases hadd
    exact ⟨⟨fun _ => hzeros.mpr hcount, fun _ => rfl⟩, fun h => absurd rfl h⟩
  · rename_i hcount
    have hnot : ¬ Zeros 31 (p ++ byteBits c) := fun hs => hcount (hzeros.mp hs)
    split at hadd
    · rename_i hne
      cases hadd
      have hv : c.toNat ≠ 0 := fun h0 => hne (UInt8.toNat_inj.mp h0)
      obtain ⟨hleft, hone⟩ := left_eq _ hc hv
      refine ⟨⟨fun h => absurd h (by decide), fun hs => absurd hs hnot⟩, fun _ => ⟨hnot, ?_⟩⟩
      rw [byteBits, trailing_append hone]
      exact hleft
    · rename_i h0
      cases hadd
      rw [not_not] at h0
      subst h0
      refine ⟨⟨fun h => absurd h (by decide), fun hs => absurd hs hnot⟩, fun _ => ⟨hnot, ?_⟩⟩
      rw [show byteBits 0 = List.replicate 8 false by decide, trailing_append_zeros]
      exact congrArg (trailing p + ·) (by decide)

/-! ### Sequences of calls -/

inductive Op
  | add (c : UInt8)
  | get (n : Nat)

/-- The calls `ops` lead from `b` to `b'`; `rs` is what the calls of `add_bits` return. -/
inductive Calls : DvcBits → List Op → DvcBits → List Nat → Prop
  | nil {b : DvcBits} : Calls b [] b []
  | add {b b₁ b' : DvcBits} {c : UInt8} {r : Nat} {ops : List Op} {rs : List Nat} :
      b.ibBcnt ≤ 24 → b.addBits c = .ok (r, b₁) → Calls b₁ ops b' rs →
      Calls b (.add c :: ops) b' (r :: rs)
  | get {b b₁ b' : DvcBits} {n : Nat} {ops : List Op} {rs : List Nat} :
      n ≤ 8 → n ≤ b.ibBcnt → b.getBits n = .ok b₁ → Calls b₁ ops b' rs →
      Calls b (.get n :: ops) b' rs

/-- What the calls leave in the queue. -/
def queue : List Bool → List Op → List Bool
  | q, [] => q
  | q, .add c :: ops => queue (q ++ byteBits c) ops
  | q, .get n :: ops => queue (q.drop n) ops

/-- The bytes that come in. -/
def pushed : List Op → List UInt8
  | [] => []
  | .add c :: ops => c :: pushed ops
  | .get _ :: ops => pushed ops

variable {ops : List Op} {rs : List Nat}

theorem Calls.rep (h : Calls b ops b' rs) : ∀ {q}, Rep b q → Rep b' (queue q ops) := by
  induction h with
  | nil => exact fun h => h
  | add hb hadd _ ih =>
      intro q hq
      obtain ⟨r, b₁, hadd', hrep⟩ := rep_addBits hq hb _
      rw [hadd] at hadd'
      cases hadd'
      exact ih hrep
  | get h8 hn hget _ ih =>
      intro q hq
      obtain ⟨b₁, hget', hrep, -⟩ := rep_getBits hq h8 hn
      rw [hget] at hget'
      cases hget'
      exact ih hrep

theorem getBits_zeroCount (h : b.getBits n = .ok b') : b'.zeroCount = b.zeroCount := by
  unfold getBits at h
  split_ifs at h
  all_goals cases h; rfl

/-- Whether 4 has been returned by the end of the first `i` calls of `add_bits`. -/
theorem Calls.detects (h : Calls b ops b' rs) : ∀ {p : List Bool}, Counts b p → ∀ i ≤ rs.length,
    4 ∈ rs.take i ↔ Zeros 31 (p ++ ((pushed ops).take i).flatMap byteBits) := by
  induction h with
  | nil =>
      intro p hp i _
      simpa [pushed] using hp.1
  | @add b b₁ b' c r ops rs _ hadd _ ih =>
      intro p hp i hi
      obtain ⟨hr, hcounts⟩ := counts_addBits hp hadd
      cases i with
      | zero => simpa using hp.1
      | succ i =>
          rw [pushed, List.take_succ_cons, List.take_succ_cons, List.flatMap_cons, ← List.append_assoc]
          rw [List.length_cons] at hi
          by_cases h4 : r = 4
          · subst h4
            exact ⟨fun _ => (hr.mp rfl).append _, fun _ => List.mem_cons_self ..⟩
          · rw [← ih (hcounts h4) i (by omega), List.mem_cons, or_iff_right (Ne.symm h4)]
  | get _ _ hget _ ih =>
      intro p hp i hi
      exact ih ⟨hp.1, (getBits_zeroCount hget).trans hp.2⟩ i hi

/-- The first call of `add_bits` that returns 4 is call `i`. -/
def FirstReset (rs : List Nat) (i : Nat) : Prop := rs[i]? = some 4 ∧ ∀ j < i, rs[j]? ≠ some 4

/-- The bits of the first `i + 1` bytes are the first to have 31 zeros in a row. -/
def FirstZeros (cs : List UInt8) (i : Nat) : Prop :=
  Zeros 31 ((cs.take (i + 1)).flatMap byteBits) ∧ ∀ j ≤ i, ¬ Zeros 31 ((cs.take j).flatMap byteBits)

theorem mem_take_iff {a i : Nat} : a ∈ rs.take i ↔ ∃ j < i, rs[j]? = some a := by
  rw [List.mem_iff_getElem?]
  constructor
  · rintro ⟨j, hj⟩
    rw [List.getElem?_take] at hj
    split at hj
    · exact ⟨j, ‹_›, hj⟩
    · cases hj
  · rintro ⟨j, hlt, hj⟩
    exact ⟨j, by rw [List.getElem?_take, if_pos hlt, hj]⟩

/-- **`DvcBits` is a queue of bits with a detector.** -/
theorem reader_correct (hrep : Rep b q) (hcalls : Calls b ops b' rs) :
    Rep b' (queue q ops) ∧
    (∀ c, b'.ibBcnt ≤ 24 →
      ∃ r b'', b'.addBits c = .ok (r, b'') ∧ Rep b'' (queue q ops ++ byteBits c)) ∧
    (∀ n ≤ 8, n ≤ b'.ibBcnt → ∃ b'', b'.getBits n = .ok b'' ∧ Rep b'' ((queue q ops).drop n) ∧
      (1 ≤ n → b''.code = msbFirst ((queue q ops).take n)) ∧ (n = 0 → b'' = b')) ∧
    (b.zeroCount = 0 → ∀ i < rs.length, FirstReset rs i ↔ FirstZeros (pushed ops) i) := by
  have hrep' := hcalls.rep hrep
  refine ⟨hrep', fun c hb => rep_addBits hrep' hb c, fun n h8 hn => rep_getBits hrep' h8 hn, ?_⟩
  intro hz i hi
  have hfresh : Counts b [] := ⟨by decide, hz⟩
  have hdetects : ∀ j ≤ rs.length,
      4 ∈ rs.take j ↔ Zeros 31 (((pushed ops).take j).flatMap byteBits) := hcalls.detects hfresh
  constructor
  · rintro ⟨hat, hbefore⟩
    refine ⟨(hdetects (i + 1) hi).mp (mem_take_iff.mpr ⟨i, Nat.lt_succ_self i, hat⟩), ?_⟩
    intro j hj hzeros
    obtain ⟨k, hk, h4⟩ := mem_take_iff.mp ((hdetects j (by omega)).mpr hzeros)
    exact hbefore k (by omega) h4
  · rintro ⟨hat, hbefore⟩
    obtain ⟨k, hk, h4⟩ := mem_take_iff.mp ((hdetects (i + 1) hi).mpr hat)
    have hnone : ∀ j < i, rs[j]? ≠ some 4 := by
      intro j hj h4
      refine hbefore i (Nat.le_refl i) ((hdetects i (by omega)).mp ?_)
      exact mem_take_iff.mpr ⟨j, hj, h4⟩
    rcases Nat.lt_or_ge k i with hlt | hge
    · exact absurd h4 (hnone k hlt)
    · obtain rfl : k = i := by omega
      exact ⟨h4, hnone⟩

/-- Three bits are taken out of a byte. -/
theorem reader_correct_three : ∃ b' : DvcBits, Calls {} [.add 0xB6, .get 3] b' [0] ∧
    Rep b' [false, true, true, false, true] := by
  have hcalls : Calls {} [.add 0xB6, .get 3] { ibAcc := 22, ibBcnt := 5, code := 3 } [0] := by
    have hget : Calls { ibAcc := 0xB6, ibBcnt := 8 } [.get 3]
        { ibAcc := 22, ibBcnt := 5, code := 3 } [] :=
      .get (by decide) (by decide) (by decide +kernel) .nil
    exact .add (by decide) (by decide +kernel) hget
  exact ⟨_, hcalls, (reader_correct (q := []) ⟨rfl, rfl⟩ hcalls).1⟩

end DvcBits

end Ilo2.Dvc
