import Ilo2.Crypto.Rc4
import Ilo2.Lib.Checked
import Mathlib.Data.List.FinRange

/-!
# The arrays of an RC4 object

The class of `rc4.hpp` again, with its arrays `key_`, `sBox_` and `keyBox_`: every access is
checked, and one that is out of range is a fault.

* `schedule_ok`, `randomValue_ok`, `crypt_ok` - the object does what the cipher does, and its
  accesses are in range.
* `permutation_kept` - **the box is a permutation of 0 to 255 between any two calls**, and one
  object takes away what another one in the same state has added.
-/

namespace Ilo2.Crypto

open Checked

namespace RC4

/-- An access out of range, with its index; or a remainder by 0. -/
inductive Fault where
  | sBox (i : Nat)
  | keyBox (i : Nat)
  | key (i : Nat)
  | copy (len : Nat)
  | divide
deriving DecidableEq

/-- The object; `keyBox` is only used by `schedule`, which fills it. -/
structure Object where
  rc : RC4
  keyBox : Vector UInt8 256
deriving DecidableEq

/-- `memcpy` to the start of `key_`. -/
def copyKey (key : Vector UInt8 256) (src : List UInt8) : Except Fault (Vector UInt8 256) :=
  if src.length ≤ 256 then .ok (Vector.ofFn fun i => src.getD i (key.get i))
  else .error (.copy src.length)

namespace Object

/-- `key_[n % keylen_]`. -/
def keyAt (o : Object) (n : Nat) : Except Fault UInt8 :=
  if o.rc.keylen = 0 then .error .divide else rd .key o.rc.key (n % o.rc.keylen)

/-- The body of the first loop of `schedule`. -/
def fillRound (o : Object) (boxes : Vector UInt8 256 × Vector UInt8 256) (n : Nat) :
    Except Fault (Vector UInt8 256 × Vector UInt8 256) := do
  .ok (← wr .sBox boxes.1 n n.toUInt8, ← (do wr .keyBox boxes.2 n (← o.keyAt n)))

/-- The body of its second loop. -/
def swapRound (keyBox : Vector UInt8 256) (s : Nat × Vector UInt8 256) (i : Nat) :
    Except Fault (Nat × Vector UInt8 256) := do
  let j := (s.1 + (← rd .sBox s.2 i).toNat + (← rd .keyBox keyBox i).toNat) &&& 0xFF
  .ok (j, ← swap .sBox s.2 i j)

/-- `schedule`. -/
def schedule (o : Object) : Except Fault Object := do
  let (sBox, keyBox) ← (List.range 256).foldlM o.fillRound (o.rc.sBox, o.keyBox)
  let (_, sBox) ← (List.range 256).foldlM (swapRound keyBox) (0, sBox)
  .ok ⟨{ o.rc with sBox := sBox, i := 0, j := 0 }, keyBox⟩

/-- `update_key`. -/
def updateKey (o : Object) : Except Fault Object := do
  let d := (((MD5.init.update o.rc.pre.toList).update (o.rc.key.toList.take 16)).digest).1
  let key ← copyKey o.rc.key d.toList
  schedule { o with rc := { o.rc with key := key, keylen := 16 } }

/-- `RC4(seed)`; the boxes are not initialised. -/
def ofSeed (sBox keyBox : Vector UInt8 256) (seed : Vector UInt8 16) : Except Fault Object :=
  updateKey ⟨⟨Vector.replicate 256 0, 16, seed, sBox, 0, 0⟩, keyBox⟩

/-- `RC4(RawKey, key, klen)`. -/
def raw (sBox keyBox : Vector UInt8 256) (key : List UInt8) : Except Fault Object := do
  let zeros := Vector.replicate 256 0
  let keylen := if key.length = 0 ∨ key.length > 256 then 1 else key.length
  let key ← if key.length ≠ 0 ∧ key.length ≤ 256 then copyKey zeros key else .ok zeros
  schedule ⟨⟨key, keylen, Vector.replicate 16 0, sBox, 0, 0⟩, keyBox⟩

/-- `randomValue`. -/
def randomValue (o : Object) : Except Fault (UInt8 × Object) := do
  let i := (o.rc.i + 1) &&& 0xFF
  let j := (o.rc.j + (← rd .sBox o.rc.sBox i).toNat) &&& 0xFF
  let sBox ← swap .sBox o.rc.sBox i j
  let n := ((← rd .sBox sBox i).toNat + (← rd .sBox sBox j).toNat) &&& 0xFF
  .ok (← rd .sBox sBox n, { o with rc := { o.rc with sBox := sBox, i := i, j := j } })

/-- `crypt`. -/
def crypt : Object → List UInt8 → Except Fault (List UInt8 × Object)
  | o, [] => .ok ([], o)
  | o, b :: bs => do
      let (r, o) ← o.randomValue
      let (out, o) ← crypt o bs
      .ok ((b ^^^ r) :: out, o)

end Object

/-- A call of a method. -/
inductive Call where
  | randomValue
  | crypt (buf : List UInt8)
  | updateKey
deriving DecidableEq

/-- A call, and the bytes that it yields. -/
def Object.call (o : Object) : Call → Except Fault (List UInt8 × Object)
  | .randomValue => do
      let (r, o) ← o.randomValue
      .ok ([r], o)
  | .crypt buf => o.crypt buf
  | .updateKey => do .ok ([], ← o.updateKey)

/-- Calls, one after the other. -/
def Object.run : Object → List Call → Except Fault (List (List UInt8) × Object)
  | o, [] => .ok ([], o)
  | o, c :: cs => do
      let (out, o) ← o.call c
      let (outs, o) ← run o cs
      .ok (out :: outs, o)

/-! ### In range -/

/-- A permutation of 0 to 255. -/
def Permutation (sBox : Vector UInt8 256) : Prop :=
  sBox.toList.Perm ((List.range 256).map Nat.toUInt8)

/-- What holds of the state between two calls. -/
structure Ready (rc : RC4) : Prop where
  sBox : Permutation rc.sBox
  i : rc.i < 256
  j : rc.j < 256

variable {rc : RC4} {o : Object} {sBox : Vector UInt8 256} {i j : Nat}

theorem Permutation.swap (h : Permutation sBox) (hi : i < 256) (hj : j < 256) :
    Permutation (sBox.swap i j hi hj) :=
  (Vector.swap_perm hi hj).toList.trans h

theorem permutation_start : Permutation (Vector.ofFn fun n : Fin 256 => n.val.toUInt8) := by
  rw [Permutation, Vector.toList_ofFn, List.ofFn_eq_map, ← List.map_coe_finRange_eq_range,
    List.map_map]
  exact List.Perm.refl _

/-- A round of the second loop is one of the cipher, and permutes the box. -/
theorem swapRound_ok (keyBox : Vector UInt8 256) (s : Nat × Vector UInt8 256) (i : Fin 256)
    (h : Permutation s.2) : Object.swapRound keyBox s i = .ok (scheduleStep keyBox s i) ∧
      Permutation (scheduleStep keyBox s i).2 := by
  constructor
  · rw [Object.swapRound, rd_of_lt i.isLt, rd_of_lt i.isLt, ok_bind, ok_bind]
    dsimp only
    rw [swap_of_lt i.isLt (and_255_lt _)]
    rfl
  · exact h.swap i.isLt (and_255_lt _)

theorem swapRounds_ok (keyBox : Vector UInt8 256) (l : List (Fin 256)) {s : Nat × Vector UInt8 256}
    (h : Permutation s.2) :
    (l.map Fin.val).foldlM (Object.swapRound keyBox) s = .ok (l.foldl (scheduleStep keyBox) s) ∧
      Permutation (l.foldl (scheduleStep keyBox) s).2 := by
  rw [List.foldlM_map]
  exact foldlM_ok (fun s => Permutation s.2) (fun s i _ hs => swapRound_ok keyBox s i hs) h

/-- The key that `schedule` spreads over the box. -/
def spread (rc : RC4) : Vector UInt8 256 :=
  Vector.ofFn fun n : Fin 256 => rc.key.toList.getD (n % rc.keylen) 0

theorem keyAt_ok (hpos : 1 ≤ o.rc.keylen) (hle : o.rc.keylen ≤ 256) (n : Nat) :
    o.keyAt n = .ok (o.rc.key.toList.getD (n % o.rc.keylen) 0) := by
  have hlt : n % o.rc.keylen < 256 := Nat.lt_of_lt_of_le (Nat.mod_lt n hpos) hle
  rw [Object.keyAt, if_neg (by omega), rd_of_lt hlt, List.getD_eq_getElem?_getD,
    List.getElem?_eq_getElem (by simpa using hlt), Option.getD_some, Vector.getElem_toList]

theorem eq_of_look {v w : Vector UInt8 256} (h : ∀ k < 256, look 0 v k = look 0 w k) : v = w := by
  apply Vector.ext
  intro k hk
  rw [← look_of_lt (d := 0) hk, ← look_of_lt (d := 0) hk]
  exact h k hk

/-- The first loop fills both boxes. -/
theorem fill_ok (hpos : 1 ≤ o.rc.keylen) (hle : o.rc.keylen ≤ 256) :
    (List.range 256).foldlM o.fillRound (o.rc.sBox, o.keyBox) =
      .ok (Vector.ofFn fun n : Fin 256 => n.val.toUInt8, o.rc.spread) := by
  have hrange : ∀ k ∈ List.range 256, k < 256 := fun k hk => List.mem_range.mp hk
  obtain ⟨w, hw, hwlook⟩ := foldlM_wr Fault.sBox Nat.toUInt8 0 hrange o.rc.sBox
  obtain ⟨u, hu, hulook⟩ := foldlM_wr Fault.keyBox
    (fun n => o.rc.key.toList.getD (n % o.rc.keylen) 0) 0 hrange o.keyBox
  have hbody : o.fillRound = fun p n => (do
      .ok (← wr Fault.sBox p.1 n n.toUInt8,
        ← wr Fault.keyBox p.2 n (o.rc.key.toList.getD (n % o.rc.keylen) 0))) := by
    funext p n
    rw [Object.fillRound, keyAt_ok hpos hle, ok_bind]
  have hsBox : w = Vector.ofFn fun n : Fin 256 => n.val.toUInt8 := by
    refine eq_of_look fun k hk => ?_
    rw [hwlook, if_pos (List.mem_range.mpr hk), look_of_lt hk, Vector.getElem_ofFn]
  have hkeyBox : u = o.rc.spread := by
    refine eq_of_look fun k hk => ?_
    rw [hulook, if_pos (List.mem_range.mpr hk), look_of_lt hk, spread, Vector.getElem_ofFn]
  rw [hbody, foldlM_prod hw hu, hsBox, hkeyBox]

/-- **The key schedule** makes a permutation of any key. -/
theorem schedule_ok (hpos : 1 ≤ o.rc.keylen) (hle : o.rc.keylen ≤ 256) :
    o.schedule = .ok ⟨o.rc.schedule, o.rc.spread⟩ ∧ Ready o.rc.schedule := by
  obtain ⟨hrounds, hperm⟩ := swapRounds_ok o.rc.spread (List.finRange 256)
    (s := (0, Vector.ofFn fun n : Fin 256 => n.val.toUInt8)) permutation_start
  rw [List.map_coe_finRange_eq_range] at hrounds
  constructor
  · rw [Object.schedule, fill_ok hpos hle, ok_bind]
    dsimp only
    rw [hrounds]
    rfl
  · exact ⟨hperm, Nat.succ_pos 255, Nat.succ_pos 255⟩

theorem updateKey_ok (o : Object) :
    ∃ keyBox, o.updateKey = .ok ⟨o.rc.updateKey, keyBox⟩ ∧ Ready o.rc.updateKey := by
  have hcopy (d : Vector UInt8 MD5.DIGEST_SIZE) : copyKey o.rc.key d.toList = .ok
      (Vector.ofFn fun i => if h : i.val < MD5.DIGEST_SIZE then d[i.val] else o.rc.key[i]) := by
    rw [copyKey, if_pos (by rw [Vector.length_toList]; decide)]
    congr 2
    funext i
    by_cases hi : i.val < MD5.DIGEST_SIZE
    · rw [dif_pos hi, List.getD_eq_getElem?_getD, List.getElem?_eq_getElem (by simpa using hi),
        Option.getD_some, Vector.getElem_toList]
    · rw [dif_neg hi, List.getD_eq_getElem?_getD,
        List.getElem?_eq_none (by simpa using Nat.le_of_not_lt hi), Option.getD_none]
      rfl
  rw [Object.updateKey]
  dsimp only
  rw [hcopy, ok_bind]
  obtain ⟨hok, hready⟩ := schedule_ok (o := { o with rc := { o.rc with
    key := Vector.ofFn fun i => if h : i.val < MD5.DIGEST_SIZE then
      (((MD5.init.update o.rc.pre.toList).update (o.rc.key.toList.take 16)).digest).1[i.val]
      else o.rc.key[i]
    keylen := 16 } }) (show 1 ≤ 16 by decide) (show 16 ≤ 256 by decide)
  exact ⟨_, hok, hready⟩

theorem ofSeed_ok (sBox keyBox : Vector UInt8 256) (seed : Vector UInt8 16) :
    ∃ keyBox', Object.ofSeed sBox keyBox seed = .ok ⟨RC4.ofSeed seed, keyBox'⟩ ∧
      Ready (RC4.ofSeed seed) :=
  updateKey_ok ⟨⟨Vector.replicate 256 0, 16, seed, sBox, 0, 0⟩, keyBox⟩

theorem raw_ok (sBox keyBox : Vector UInt8 256) (key : List UInt8) :
    ∃ keyBox', Object.raw sBox keyBox key = .ok ⟨RC4.raw key, keyBox'⟩ ∧ Ready (RC4.raw key) := by
  by_cases hfits : key.length ≠ 0 ∧ key.length ≤ 256
  · have hcopy : copyKey (Vector.replicate 256 0) key = .ok
        (Vector.ofFn fun i => key.getD i 0) := by
      rw [copyKey, if_pos hfits.2]
      congr 2
      funext i
      show key.getD i ((Vector.replicate 256 0)[i.val]) = _
      rw [Vector.getElem_replicate]
    obtain ⟨hok, hready⟩ := schedule_ok (o := ⟨⟨Vector.ofFn fun i => key.getD i 0, key.length,
      Vector.replicate 16 0, sBox, 0, 0⟩, keyBox⟩) (Nat.pos_of_ne_zero hfits.1) hfits.2
    have hraw : RC4.raw key = schedule ⟨Vector.ofFn fun i => key.getD i 0, key.length,
        Vector.replicate 16 0, sBox, 0, 0⟩ := by
      simp only [RC4.raw, hfits, ne_eq, not_false_eq_true, and_self, if_true]
      rfl
    rw [Object.raw, if_pos hfits, hcopy, ok_bind, if_neg (by omega), hraw]
    exact ⟨_, hok, hready⟩
  · obtain ⟨hok, hready⟩ := schedule_ok (o := ⟨⟨Vector.replicate 256 0, 1,
      Vector.replicate 16 0, sBox, 0, 0⟩, keyBox⟩) (Nat.le_refl 1) (show 1 ≤ 256 by decide)
    have hzeros : (Vector.ofFn fun _ : Fin 256 => (0 : UInt8)) = Vector.replicate 256 0 := by
      apply Vector.ext
      intro k hk
      rw [Vector.getElem_ofFn, Vector.getElem_replicate]
    have hraw : RC4.raw key = schedule ⟨Vector.replicate 256 0, 1, Vector.replicate 16 0, sBox, 0,
        0⟩ := by
      simp only [RC4.raw, hfits, if_false, hzeros]
      rfl
    rw [Object.raw, if_neg hfits, ok_bind, if_pos (by omega), hraw]
    exact ⟨_, hok, hready⟩

/-! ### The keystream -/

theorem randomValue_ok (o : Object) (h : Permutation o.rc.sBox) :
    o.randomValue = .ok (o.rc.randomValue.1, ⟨o.rc.randomValue.2, o.keyBox⟩) ∧
      Ready o.rc.randomValue.2 := by
  have hi := and_255_lt (o.rc.i + 1)
  constructor
  · rw [Object.randomValue]
    dsimp only
    rw [rd_of_lt hi, ok_bind, swap_of_lt hi (and_255_lt _), ok_bind, rd_of_lt hi, ok_bind,
      rd_of_lt (and_255_lt _), ok_bind, rd_of_lt (and_255_lt _)]
    rfl
  · exact ⟨h.swap hi (and_255_lt _), hi, and_255_lt _⟩

theorem crypt_ok (keyBox : Vector UInt8 256) (buf : List UInt8) : ∀ {rc : RC4}, Ready rc →
    Object.crypt ⟨rc, keyBox⟩ buf = .ok ((rc.crypt buf).1, ⟨(rc.crypt buf).2, keyBox⟩) ∧
      Ready (rc.crypt buf).2 := by
  induction buf with
  | nil => intro rc h; exact ⟨rfl, h⟩
  | cons b bs ih =>
      intro rc h
      obtain ⟨hrandom, hnext⟩ := randomValue_ok ⟨rc, keyBox⟩ h.sBox
      obtain ⟨hrest, hlast⟩ := ih hnext
      constructor
      · rw [Object.crypt, hrandom, ok_bind]
        dsimp only
        rw [hrest]
        rfl
      · exact hlast

/-! ### Runs -/

theorem call_ok {c : Call} (h : Ready o.rc) : ∃ out o', o.call c = .ok (out, o') ∧ Ready o'.rc := by
  cases c with
  | randomValue =>
      obtain ⟨hrandom, hnext⟩ := randomValue_ok o h.sBox
      exact ⟨[_], ⟨_, o.keyBox⟩, by rw [Object.call, hrandom]; rfl, hnext⟩
  | crypt buf =>
      obtain ⟨hcrypt, hnext⟩ := crypt_ok o.keyBox buf h
      exact ⟨_, _, hcrypt, hnext⟩
  | updateKey =>
      obtain ⟨keyBox, hupdate, hnext⟩ := updateKey_ok o
      exact ⟨[], ⟨o.rc.updateKey, keyBox⟩, by rw [Object.call, hupdate]; rfl, hnext⟩

theorem run_ok (calls : List Call) : ∀ {o : Object}, Ready o.rc →
    ∃ outs o', o.run calls = .ok (outs, o') ∧ Ready o'.rc := by
  induction calls with
  | nil => intro o h; exact ⟨[], o, rfl, h⟩
  | cons c calls ih =>
      intro o h
      obtain ⟨out, o₁, hcall, h₁⟩ := call_ok (c := c) h
      obtain ⟨outs, o₂, hrun, h₂⟩ := ih h₁
      refine ⟨out :: outs, o₂, ?_, h₂⟩
      rw [Object.run, hcall, ok_bind]
      dsimp only
      rw [hrun]
      rfl

/-- Calls of `crypt` only. -/
theorem run_crypt (bss : List (List UInt8)) : ∀ {rc : RC4} {keyBox : Vector UInt8 256}, Ready rc →
    Object.run ⟨rc, keyBox⟩ (bss.map .crypt) =
      .ok ((Keystream.pieces RC4.randomValue rc bss).1,
        ⟨(Keystream.pieces RC4.randomValue rc bss).2, keyBox⟩) := by
  induction bss with
  | nil => intro rc keyBox _; rfl
  | cons bs bss ih =>
      intro rc keyBox h
      obtain ⟨hcrypt, hnext⟩ := crypt_ok keyBox bs h
      rw [List.map_cons, Object.run, Object.call, hcrypt, ok_bind]
      dsimp only
      rw [ih hnext]
      rfl

/-- What an object adds to messages, another one in the same state takes away, however the
ciphertext is cut. -/
def Reverses (o : Object) : Prop :=
  ∀ (o' : Object) (messages : List (List UInt8)), o'.rc = o.rc →
    ∃ cipher o₁, o.run (messages.map .crypt) = .ok (cipher, o₁) ∧
      ∀ cuts : List (List UInt8), cuts.flatten = cipher.flatten →
        ∃ plain o₂, o'.run (cuts.map .crypt) = .ok (plain, o₂) ∧ o₂.rc = o₁.rc ∧
          plain.flatten = messages.flatten

theorem Ready.reverses (h : Ready o.rc) : Reverses o := by
  rintro ⟨rc, keyBox⟩ messages rfl
  refine ⟨_, _, run_crypt messages h, fun cuts hcuts => ?_⟩
  obtain ⟨hplain, hstate⟩ := Keystream.pieces_pieces RC4.randomValue hcuts
  exact ⟨_, _, run_crypt cuts h, hstate, hplain⟩

/-- What a constructor is given. -/
inductive Key where
  | seed (pre : Vector UInt8 16)
  | raw (key : List UInt8)
deriving DecidableEq

/-- The constructors; the boxes are not initialised. -/
def Object.make (sBox keyBox : Vector UInt8 256) : Key → Except Fault Object
  | .seed pre => ofSeed sBox keyBox pre
  | .raw key => raw sBox keyBox key

theorem make_ok (sBox keyBox : Vector UInt8 256) (k : Key) :
    ∃ o, Object.make sBox keyBox k = .ok o ∧ Ready o.rc := by
  cases k with
  | seed pre =>
      obtain ⟨keyBox', hseed, hready⟩ := ofSeed_ok sBox keyBox pre
      exact ⟨_, hseed, hready⟩
  | raw key =>
      obtain ⟨keyBox', hraw, hready⟩ := raw_ok sBox keyBox key
      exact ⟨_, hraw, hready⟩

/-- **The life of an object.**  From either constructor, any calls are executed with every index in
range; after them the box is a permutation of 0 to 255, `i_` and `j_` are in 0 to 255, and `crypt`
is an involution. -/
theorem permutation_kept (sBox keyBox : Vector UInt8 256) (k : Key) (calls : List Call) :
    ∃ outs o, (do (← Object.make sBox keyBox k).run calls) = .ok (outs, o) ∧
      Permutation o.rc.sBox ∧ o.rc.i < 256 ∧ o.rc.j < 256 ∧ Reverses o := by
  obtain ⟨o, hmake, hready⟩ := make_ok sBox keyBox k
  obtain ⟨outs, o', hrun, hready'⟩ := run_ok calls hready
  refine ⟨outs, o', ?_, hready'.sBox, hready'.i, hready'.j, hready'.reverses⟩
  rw [hmake, ok_bind, hrun]

end RC4

end Ilo2.Crypto
