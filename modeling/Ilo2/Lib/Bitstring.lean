import Mathlib.Tactic.Common
import Mathlib.Data.List.TakeWhile
import Mathlib.Tactic.Ring

/-!
# Bit strings

A bit string is a list, its first bit is the one that came in first.

* `lsbFirst_append`, `lsbFirst_drop`, `bits_lsbFirst` - bit strings and the numbers that they
  are, first bit least significant.
* `zeros_append` - **where a run of zeros appears**: once no run of `k` is in `p`, one is in
  `p ++ w` exactly when the zeros at the end of `p` and at the start of `w` are `k`.
-/

namespace Bitstring

/-- The number of a bit string, the first bit least significant. -/
def lsbFirst : List Bool → Nat
  | [] => 0
  | b :: q => b.toNat + 2 * lsbFirst q

/-- The number of a bit string, the first bit most significant. -/
def msbFirst (q : List Bool) : Nat := lsbFirst q.reverse

/-- The `n` lowest bits of a number, the lowest first. -/
def bits : (n v : Nat) → List Bool
  | 0, _ => []
  | n + 1, v => (v % 2 = 1) :: bits n (v / 2)

variable {p q w : List Bool} {k n v : Nat}

@[simp] theorem length_bits (n v : Nat) : (bits n v).length = n := by
  induction n generalizing v with
  | zero => rfl
  | succ n ih => simp [bits, ih]

theorem lsbFirst_lt (q : List Bool) : lsbFirst q < 2 ^ q.length := by
  induction q with
  | nil => decide
  | cons b q ih =>
      have hb := b.toNat_le
      rw [lsbFirst, List.length_cons, Nat.pow_succ]
      omega

theorem lsbFirst_append (p q : List Bool) :
    lsbFirst (p ++ q) = lsbFirst p + 2 ^ p.length * lsbFirst q := by
  induction p with
  | nil => simp [lsbFirst]
  | cons b p ih =>
      rw [List.cons_append, lsbFirst, ih, lsbFirst, List.length_cons, Nat.pow_succ]
      ring

theorem lsbFirst_bits (h : v < 2 ^ n) : lsbFirst (bits n v) = v := by
  induction n generalizing v with
  | zero => rw [Nat.lt_one_iff.mp h]; rfl
  | succ n ih =>
      rw [Nat.pow_succ] at h
      rw [bits, lsbFirst, ih (by omega)]
      rcases Nat.mod_two_eq_zero_or_one v with h0 | h1
      · simp only [h0, Nat.zero_ne_one, decide_false, Bool.toNat_false]
        omega
      · simp only [h1, decide_true, Bool.toNat_true]
        omega

theorem bits_lsbFirst (q : List Bool) : bits q.length (lsbFirst q) = q := by
  induction q with
  | nil => rfl
  | cons b q ih =>
      have hb := b.toNat_le
      rw [List.length_cons, bits, lsbFirst, show (b.toNat + 2 * lsbFirst q) / 2 = lsbFirst q by omega,
        ih, show (b.toNat + 2 * lsbFirst q) % 2 = b.toNat by omega]
      cases b <;> rfl

/-- Bits above others. -/
theorem bits_append (h : v < 2 ^ n) (k u : Nat) :
    bits (n + k) (v + 2 ^ n * u) = bits n v ++ bits k u := by
  induction n generalizing v with
  | zero => rw [Nat.lt_one_iff.mp h, Nat.zero_add, Nat.zero_add, Nat.pow_zero, Nat.one_mul]; rfl
  | succ n ih =>
      have hmul : 2 ^ (n + 1) * u = 2 * (2 ^ n * u) := by ring
      rw [Nat.pow_succ] at h
      rw [Nat.succ_add, bits, hmul, show (v + 2 * (2 ^ n * u)) / 2 = v / 2 + 2 ^ n * u by omega,
        show (v + 2 * (2 ^ n * u)) % 2 = v % 2 by omega, ih (by omega), bits, List.cons_append]

/-- The lowest bits. -/
theorem lsbFirst_take (h : n ≤ q.length) : lsbFirst (q.take n) = lsbFirst q % 2 ^ n := by
  have hsplit := lsbFirst_append (q.take n) (q.drop n)
  have hlt := lsbFirst_lt (q.take n)
  rw [List.take_append_drop] at hsplit
  rw [List.length_take, Nat.min_eq_left h] at hsplit hlt
  rw [hsplit, Nat.add_mul_mod_self_left, Nat.mod_eq_of_lt hlt]

theorem lsbFirst_drop (h : n ≤ q.length) : lsbFirst (q.drop n) = lsbFirst q / 2 ^ n := by
  have hsplit := lsbFirst_append (q.take n) (q.drop n)
  have hlt := lsbFirst_lt (q.take n)
  rw [List.take_append_drop] at hsplit
  rw [List.length_take, Nat.min_eq_left h] at hsplit hlt
  rw [hsplit, Nat.add_mul_div_left _ _ (Nat.two_pow_pos n), Nat.div_eq_of_lt hlt, Nat.zero_add]

/-! ### Runs of zeros -/

/-- The zeros at the start. -/
def leading (q : List Bool) : Nat := (q.takeWhile (!·)).length

/-- The zeros at the end. -/
def trailing (q : List Bool) : Nat := leading q.reverse

/-- There are `k` zeros in a row. -/
def Zeros (k : Nat) (q : List Bool) : Prop := List.replicate k false <:+: q

instance : Decidable (Zeros k q) := inferInstanceAs (Decidable (_ <:+: _))

theorem leading_le (h : ∃ t, q = List.replicate k false ++ t) : k ≤ leading q := by
  obtain ⟨t, rfl⟩ := h
  unfold leading
  rw [List.takeWhile_append_of_pos (by simp), List.length_append, List.length_replicate]
  exact Nat.le_add_right _ _

theorem exists_leading (q : List Bool) : ∃ t, q = List.replicate (leading q) false ++ t := by
  refine ⟨q.dropWhile (!·), ?_⟩
  have hall : q.takeWhile (!·) = List.replicate (leading q) false := by
    refine List.eq_replicate_of_mem fun b hb => ?_
    simpa using List.mem_takeWhile_imp hb
  rw [← hall, List.takeWhile_append_dropWhile]

theorem trailing_le (h : ∃ s, q = s ++ List.replicate k false) : k ≤ trailing q := by
  obtain ⟨s, rfl⟩ := h
  exact leading_le ⟨s.reverse, by simp⟩

theorem exists_trailing (q : List Bool) : ∃ s, q = s ++ List.replicate (trailing q) false := by
  obtain ⟨t, ht⟩ := exists_leading q.reverse
  refine ⟨t.reverse, ?_⟩
  have h := congrArg List.reverse ht
  simpa [trailing] using h

/-- **Where a run of zeros appears.** -/
theorem zeros_append (hp : ¬ Zeros k p) (hw : w.length < k) :
    Zeros k (p ++ w) ↔ k ≤ trailing p + leading w := by
  constructor
  · rintro ⟨s, t, h⟩
    rw [List.append_assoc] at h
    rcases List.append_eq_append_iff.mp h with ⟨a, rfl, hrest⟩ | ⟨c, rfl, rfl⟩
    · rcases List.append_eq_append_iff.mp hrest with ⟨b, rfl, rfl⟩ | ⟨b, hrep, rfl⟩
      · exact absurd ⟨s, b, by simp⟩ hp
      · obtain ⟨-, ha, hb⟩ := List.append_eq_replicate_iff.mp hrep.symm
        have hlen := congrArg List.length hrep
        rw [List.length_replicate, List.length_append] at hlen
        have h1 : a.length ≤ trailing (s ++ a) := trailing_le ⟨s, by rw [← ha]⟩
        have h2 : b.length ≤ leading (b ++ t) := leading_le ⟨t, by rw [← hb]⟩
        omega
    · rw [List.length_append, List.length_append, List.length_replicate] at hw
      omega
  · intro h
    obtain ⟨s, hs⟩ := exists_trailing p
    obtain ⟨t, ht⟩ := exists_leading w
    obtain ⟨j, hj⟩ := Nat.exists_eq_add_of_le h
    refine ⟨s ++ List.replicate j false, t, ?_⟩
    conv_rhs => rw [hs, ht]
    simp only [List.append_assoc]
    rw [← List.append_assoc (List.replicate (trailing p) false), List.replicate_append_replicate,
      hj, Nat.add_comm k j, ← List.replicate_append_replicate, List.append_assoc]

theorem Zeros.append (h : Zeros k p) (w : List Bool) : Zeros k (p ++ w) :=
  h.trans (List.prefix_append p w).isInfix

/-- The zeros at the end, when there is a 1 in what is appended. -/
theorem trailing_append (h : true ∈ w) (p : List Bool) : trailing (p ++ w) = trailing w := by
  unfold trailing leading
  rw [List.reverse_append, List.takeWhile_append, if_neg]
  intro hlen
  have hall := List.takeWhile_eq_self_iff.mp
    ((List.takeWhile_prefix _).eq_of_length hlen)
  have := hall true (List.mem_reverse.mpr h)
  cases this

/-- And when there is none. -/
theorem trailing_append_zeros (n : Nat) (p : List Bool) :
    trailing (p ++ List.replicate n false) = trailing p + n := by
  unfold trailing leading
  rw [List.reverse_append, List.reverse_replicate, List.takeWhile_append_of_pos (by simp),
    List.length_append, List.length_replicate, Nat.add_comm]

end Bitstring
