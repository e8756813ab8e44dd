import Ilo2.Lib.Splice

/-!
# Hashes that absorb blocks of 64 bytes

`Streaming` is the object such a hash keeps between two calls: a chaining state, the
length in bits and a buffer.  An `Algorithm` gives the initial state, the compression
of a block, and how the length and the result are written; `update` and `digest` are
the same for all of them.

* `Absorbed` - the object has been given a message, in whatever pieces.
* `Absorbed.update` - one more piece.
* `Absorbed.digest` - **the result is the one-shot `hash` of the message**.
-/

namespace BlockHash

open Splice

universe u

variable {S : Type u} {n : Nat}

/-- A block hash with results of `n` bytes. -/
structure Algorithm (S : Type u) (n : Nat) where
  iv : S
  compress : S → List UInt8 → S
  lengthBytes : UInt64 → List UInt8
  output : S → Vector UInt8 n

/-- The object that absorbs a message piece by piece. -/
structure Streaming (S : Type u) where
  count : UInt64
  state : S
  buffer : List UInt8

/-- Compress `k` blocks; the rest of the data is left over. -/
def blocks (compress : S → List UInt8 → S) : (k : Nat) → S → List UInt8 → S × List UInt8
  | 0, s, data => (s, data)
  | k + 1, s, data => blocks compress k (compress s (data.take 64)) (data.drop 64)

namespace Algorithm

variable (A : Algorithm S n)

def init : Streaming S := ⟨0, A.iv, List.replicate 64 0⟩

/-- Absorb `data`: fill up the buffer, compress it and every further whole block, and
keep what is left. -/
def update (s : Streaming S) (data : List UInt8) : Streaming S :=
  let idx := ((s.count >>> 3) &&& 0x3F).toNat
  let count := s.count + (UInt64.ofNat data.length) <<< 3
  let part := 64 - idx
  if data.length ≥ part then
    let buffer := splice s.buffer idx (data.take part)
    let (state, rest) := blocks A.compress ((data.length - part) / 64)
      (A.compress s.state buffer) (data.drop part)
    ⟨count, state, splice buffer 0 rest⟩
  else ⟨count, s.state, splice s.buffer idx data⟩

/-- The padding: `0x80` and zeros. -/
def pad (len : Nat) : List UInt8 := (0x80 :: List.replicate 63 0).take len

/-- Pad, write the length and read the result off; the object starts again. -/
def digest (s : Streaming S) : Vector UInt8 n × Streaming S :=
  let bits := A.lengthBytes s.count
  let idx := ((s.count >>> 3) &&& 0x3F).toNat
  let padLen := if idx < 56 then 56 - idx else 120 - idx
  let s := A.update (A.update s (pad padLen)) bits
  (A.output s.state, A.init)

/-! ### What has been absorbed -/

/-- The message, padded to whole blocks. -/
def padded (msg : List UInt8) : List UInt8 :=
  msg ++ (0x80 :: List.replicate ((119 - msg.length % 64) % 64) 0) ++
    A.lengthBytes (UInt64.ofNat (8 * msg.length))

/-- The hash of a message: every block of the padded message is compressed in turn. -/
def hash (msg : List UInt8) : Vector UInt8 n :=
  A.output (blocks A.compress ((A.padded msg).length / 64) A.iv (A.padded msg)).1

/-- The object `s` has compressed the `k` blocks `xs` and holds the bytes `ys`. -/
structure Holds (s : Streaming S) (k : Nat) (xs ys : List UInt8) : Prop where
  whole : xs.length = 64 * k
  tail : ys.length < 64
  count : s.count = UInt64.ofNat (8 * (xs ++ ys).length)
  state : s.state = (blocks A.compress k A.iv xs).1
  length : s.buffer.length = 64
  buffer : s.buffer.take ys.length = ys

/-- The object `s` has been given the message `msg`. -/
def Absorbed (s : Streaming S) (msg : List UInt8) : Prop :=
  ∃ k whole tail, msg = whole ++ tail ∧ A.Holds s k whole tail

end Algorithm

section Blocks

variable (compress : S → List UInt8 → S)

theorem blocks_snd (k : Nat) (s : S) (data : List UInt8) :
    (blocks compress k s data).2 = data.drop (64 * k) := by
  induction k generalizing s data with
  | zero => rfl
  | succ k ih => rw [blocks, ih, List.drop_drop, Nat.mul_succ, Nat.add_comm]

/-- Whole blocks, and what comes after them. -/
theorem blocks_append (k m : Nat) (s : S) {xs : List UInt8} (h : xs.length = 64 * k)
    (ys : List UInt8) :
    blocks compress (k + m) s (xs ++ ys) = blocks compress m (blocks compress k s xs).1 ys := by
  induction k generalizing s xs with
  | zero =>
      have hnil : xs = [] := List.length_eq_zero_iff.mp h
      rw [hnil, Nat.zero_add]
      rfl
  | succ k ih =>
      have hle : 64 ≤ xs.length := by omega
      rw [Nat.succ_add, blocks, blocks, List.take_append_of_le_length hle,
        List.drop_append_of_le_length hle]
      exact ih _ (by rw [List.length_drop]; omega)

/-- The blocks one by one: block `i` begins at byte `64 * i`. -/
theorem blocks_eq_foldl (k : Nat) : ∀ (s : S) (data : List UInt8),
    (blocks compress k s data).1 =
      (List.range k).foldl (fun s i => compress s ((data.drop (64 * i)).take 64)) s := by
  induction k with
  | zero => intro s data; rfl
  | succ k ih =>
      intro s data
      rw [blocks, ih, List.range_succ_eq_map, List.foldl_cons, List.foldl_map]
      simp only [Nat.mul_zero, List.drop_zero, List.drop_drop, Nat.succ_eq_add_one, Nat.mul_add,
        Nat.mul_one, Nat.add_comm]

end Blocks

namespace Algorithm

variable {A : Algorithm S n} {s : Streaming S} {k : Nat} {whole tail msg : List UInt8}

theorem Absorbed.init (A : Algorithm S n) : A.Absorbed A.init [] :=
  ⟨0, [], [], rfl, rfl, by decide, rfl, rfl, List.length_replicate, rfl⟩

/-- The place in the buffer, read off the bit count. -/
theorem Holds.index (h : A.Holds s k whole tail) :
    ((s.count >>> 3) &&& 0x3F).toNat = tail.length := by
  have h3 : (3 : UInt64).toNat % 64 = 3 := by decide
  have h63 : (0x3F : UInt64).toNat = 2 ^ 6 - 1 := by decide
  have hw := h.whole
  have ht := h.tail
  rw [h.count, UInt64.toNat_and, UInt64.toNat_shiftRight, h3, h63, Nat.and_two_pow_sub_one_eq_mod,
    UInt64.toNat_ofNat', Nat.shiftRight_eq_div_pow, List.length_append]
  omega

/-- The bit count after one more piece. -/
theorem Holds.count_add (h : A.Holds s k whole tail) (data : List UInt8) :
    s.count + (UInt64.ofNat data.length) <<< 3 =
      UInt64.ofNat (8 * (whole ++ tail ++ data).length) := by
  have h3 : (3 : UInt64).toNat % 64 = 3 := by decide
  apply UInt64.toNat_inj.mp
  rw [h.count, UInt64.toNat_add, UInt64.toNat_shiftLeft, h3]
  simp only [UInt64.toNat_ofNat', Nat.shiftLeft_eq, List.length_append]
  omega

/-- A piece that does not fill the buffer. -/
theorem Holds.update_short (h : A.Holds s k whole tail) {data : List UInt8}
    (hlt : tail.length + data.length < 64) : A.Holds (A.update s data) k whole (tail ++ data) := by
  have hlen := h.length
  have hle : tail.length ≤ s.buffer.length := by omega
  unfold Algorithm.update
  dsimp only
  rw [h.index, if_neg (by omega)]
  refine ⟨h.whole, by rwa [List.length_append], ?_, h.state, ?_, ?_⟩
  · dsimp only
    rw [h.count_add, List.append_assoc]
  · dsimp only
    rw [length_splice (by omega), hlen]
  · dsimp only
    rw [List.length_append, take_splice hle, h.buffer]

/-- A piece that fills the buffer with `d₁`, goes on for `m` blocks `d₂` and leaves `d₃`. -/
theorem Holds.update_full (h : A.Holds s k whole tail) (m : Nat) (d₁ d₂ d₃ : List UInt8)
    (h₁ : tail.length + d₁.length = 64) (h₂ : d₂.length = 64 * m) (h₃ : d₃.length < 64) :
    A.Holds (A.update s (d₁ ++ (d₂ ++ d₃))) (k + (1 + m)) (whole ++ ((tail ++ d₁) ++ d₂)) d₃ := by
  have hlen := h.length
  have ht := h.tail
  have hle : tail.length ≤ s.buffer.length := by omega
  have hpart : 64 - tail.length = d₁.length := by omega
  have hblock : splice s.buffer tail.length d₁ = tail ++ d₁ := by
    have hdrop : s.buffer.drop (tail.length + d₁.length) = [] := by
      rw [List.drop_eq_nil_iff]
      omega
    rw [splice, h.buffer, hdrop, List.append_nil]
  have h64 : (tail ++ d₁).length = 64 * 1 := by rwa [List.length_append]
  have hm : ((d₁ ++ (d₂ ++ d₃)).length - d₁.length) / 64 = m := by
    simp only [List.length_append]
    omega
  have hcut := blocks_append A.compress m 0 (A.compress s.state (tail ++ d₁)) h₂ d₃
  have hrest : (blocks A.compress m (A.compress s.state (tail ++ d₁)) (d₂ ++ d₃)).2 = d₃ := by
    rw [blocks_snd, ← h₂, List.drop_left]
  unfold Algorithm.update
  dsimp only
  rw [h.index, hpart, if_pos (by simp only [List.length_append]; omega), List.take_left,
    List.drop_left, hblock, hm]
  refine ⟨?_, h₃, ?_, ?_, ?_, ?_⟩
  · have hw := h.whole
    simp only [List.length_append]
    omega
  · dsimp only
    rw [h.count_add]
    simp only [List.append_assoc]
  · dsimp only
    rw [blocks_append _ _ _ _ h.whole, blocks_append _ 1 _ _ h64, ← h.state]
    show _ = (blocks A.compress m (A.compress s.state (List.take 64 (tail ++ d₁))) d₂).1
    rw [List.take_of_length_le (Nat.le_of_eq h64)]
    have hfst := congrArg Prod.fst hcut
    exact hfst
  · dsimp only
    rw [hrest, length_splice (by omega), h64]
  · dsimp only
    have htake := @take_splice _ (tail ++ d₁) d₃ 0 (Nat.zero_le _)
    rw [Nat.zero_add, List.take_zero, List.nil_append] at htake
    rw [hrest, htake]

/-- **One more piece.** -/
theorem Absorbed.update (h : A.Absorbed s msg) (data : List UInt8) :
    A.Absorbed (A.update s data) (msg ++ data) := by
  obtain ⟨k, whole, tail, rfl, h⟩ := h
  have ht := h.tail
  by_cases hlt : tail.length + data.length < 64
  · exact ⟨k, whole, tail ++ data, List.append_assoc _ _ _, h.update_short hlt⟩
  · have hfull := h.update_full ((data.length - (64 - tail.length)) / 64)
      (data.take (64 - tail.length))
      ((data.drop (64 - tail.length)).take (64 * ((data.length - (64 - tail.length)) / 64)))
      ((data.drop (64 - tail.length)).drop (64 * ((data.length - (64 - tail.length)) / 64)))
      (by rw [List.length_take]; omega)
      (by simp only [List.length_take, List.length_drop]; omega)
      (by simp only [List.length_drop]; omega)
    rw [List.take_append_drop, List.take_append_drop] at hfull
    refine ⟨_, _, _, ?_, hfull⟩
    simp only [List.append_assoc, List.take_append_drop]

/-- A number of pieces, one after the other. -/
theorem Absorbed.foldl (h : A.Absorbed s msg) (pieces : List (List UInt8)) :
    A.Absorbed (pieces.foldl A.update s) (msg ++ pieces.flatten) := by
  induction pieces generalizing s msg with
  | nil => simpa using h
  | cons p pieces ih =>
      rw [List.foldl_cons, List.flatten_cons, ← List.append_assoc]
      exact ih (h.update p)

/-- A message that fills its last block has been compressed entirely. -/
theorem Absorbed.state_of_dvd (h : A.Absorbed s msg) (hdvd : msg.length % 64 = 0) :
    s.state = (blocks A.compress (msg.length / 64) A.iv msg).1 := by
  obtain ⟨k, whole, tail, rfl, h⟩ := h
  have hw := h.whole
  have ht := h.tail
  rw [List.length_append] at hdvd
  have hnil : tail = [] := List.length_eq_zero_iff.mp (by omega)
  rw [h.state, hnil, List.append_nil, hw, Nat.mul_div_cancel_left k (by decide)]

/-- **The result is the hash of the message.** -/
theorem Absorbed.digest (h : A.Absorbed s msg) (hlen : ∀ c, (A.lengthBytes c).length = 8) :
    A.digest s = (A.hash msg, A.init) := by
  have hpad : A.Absorbed (A.update (A.update s (0x80 :: List.replicate
      ((119 - msg.length % 64) % 64) 0)) (A.lengthBytes s.count)) (A.padded msg) := by
    obtain ⟨k, whole, tail, rfl, hh⟩ := id h
    rw [hh.count]
    exact (h.update _).update _
  have hdvd : (A.padded msg).length % 64 = 0 := by
    simp only [padded, List.length_append, List.length_cons, List.length_replicate, hlen]
    omega
  have hidx : ((s.count >>> 3) &&& 0x3F).toNat = msg.length % 64 := by
    obtain ⟨k, whole, tail, rfl, hh⟩ := h
    have hw := hh.whole
    have ht := hh.tail
    rw [hh.index, List.length_append]
    omega
  have hbytes : pad (if msg.length % 64 < 56 then 56 - msg.length % 64 else 120 - msg.length % 64) =
      0x80 :: List.replicate ((119 - msg.length % 64) % 64) 0 := by
    have hp : (if msg.length % 64 < 56 then 56 - msg.length % 64 else 120 - msg.length % 64) =
        (119 - msg.length % 64) % 64 + 1 := by
      split <;> omega
    rw [hp, pad, List.take_succ_cons, List.take_replicate, Nat.min_eq_left (by omega)]
  unfold Algorithm.digest
  dsimp only
  rw [hidx, hbytes, hash, hpad.state_of_dvd hdvd]

end Algorithm

end BlockHash
