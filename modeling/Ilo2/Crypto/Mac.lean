import Ilo2.Crypto.Hmac
import Ilo2.Crypto.Standard

/-!
# One HMAC object for any number of messages

`P_hash` and the record layer give an object its key once and then call `update` and `digest` on
it for as long as the connection lasts.  Here the public calls come in any order, `init` with
another key among them, also in the middle of a message.

* `block_toList` - the three cases of the key are the one of RFC 2104.
* `Under.run` - **what a sequence of calls returns**: the MAC of each message under the key of its
  time.
* `reuse` - one key, many messages in pieces, for both hashes; and another key later.
-/

namespace Ilo2.Crypto

open Standard

/-- The hash object `H` computes `hash`, in whatever pieces a message comes. -/
def Computes (H : Type) [MacHash H] (hash : List UInt8 → List UInt8) : Prop :=
  ∀ chunks : List (List UInt8),
    (MacHash.digest (chunks.foldl MacHash.update (MacHash.init : H))).1.toList = hash chunks.flatten

theorem computes_md5 : Computes MD5 md5 := by
  intro chunks
  show (MD5.digest (chunks.foldl MD5.update MD5.init)).1.toList = _
  rw [md5_chunks, md5_hash]

theorem computes_sha1 : Computes SHA1 sha1 := by
  intro chunks
  show (SHA1.digest (chunks.foldl SHA1.update SHA1.init)).1.toList = _
  rw [sha1_chunks, sha1_hash]

namespace HMAC

variable {H : Type} [MacHash H] {hash : List UInt8 → List UInt8}

/-! ### Sequences of calls -/

/-- `init` on an object that may have been used. -/
def reinit (m : HMAC H) (key : List UInt8) : HMAC H :=
  begin { m with
    ipad := (block H key).map (· ^^^ 0x36)
    opad := (block H key).map (· ^^^ 0x5C) }

/-- The public calls. -/
inductive Call where
  | init (key : List UInt8)
  | update (data : List UInt8)
  | digest

/-- What the calls of `digest` return. -/
def run (m : HMAC H) : List Call → List (List UInt8)
  | [] => []
  | .init key :: calls => run (m.reinit key) calls
  | .update data :: calls => run (m.update data) calls
  | .digest :: calls => m.digest.1.toList :: run m.digest.2 calls

/-- The MAC of each message under the key of its time; `msg` is what there is of the first one. -/
def macs (mac : List UInt8 → List UInt8 → List UInt8) (key msg : List UInt8) :
    List Call → List (List UInt8)
  | [] => []
  | .init key' :: calls => macs mac key' [] calls
  | .update data :: calls => macs mac key (msg ++ data) calls
  | .digest :: calls => mac key msg :: macs mac key [] calls

/-- The calls for a message that comes in pieces. -/
def message (pieces : List (List UInt8)) : List Call := pieces.map .update ++ [.digest]

/-! ### The key -/

/-- **The block of the key**: hashed if it is longer than a block, and filled up with zeros. -/
theorem block_toList (hc : Computes H hash) (key : List UInt8) :
    (block H key).toList =
      let k := if key.length > MacHash.BLOCK_SIZE H then hash key else key
      k ++ List.replicate (MacHash.BLOCK_SIZE H - k.length) 0 := by
  have hkey := hc [key]
  rw [List.foldl_cons, List.foldl_nil, List.flatten_cons, List.flatten_nil,
    List.append_nil] at hkey
  have hfill : ∀ k : List UInt8, k.length ≤ MacHash.BLOCK_SIZE H →
      (Vector.ofFn fun i : Fin (MacHash.BLOCK_SIZE H) => k.getD i 0).toList =
        k ++ List.replicate (MacHash.BLOCK_SIZE H - k.length) 0 := by
    intro k hk
    rw [Vector.toList_ofFn]
    apply List.ext_getElem
    · rw [List.length_ofFn, List.length_append, List.length_replicate]
      omega
    · intro i h₁ h₂
      rw [List.getElem_ofFn, List.getElem_append]
      split
      · rename_i hi
        rw [List.getD_eq_getElem _ _ hi]
      · rename_i hi
        rw [List.getD_eq_default _ _ (Nat.le_of_not_lt hi), List.getElem_replicate]
  rw [block]
  simp only [hkey]
  apply hfill
  split
  · rw [← hkey, Vector.length_toList]
    exact MacHash.digest_le
  · rename_i hle
    exact Nat.le_of_not_lt hle

/-! ### The object between two calls -/

/-- The object `m` is under `key` and has been given `msg` since it was armed. -/
structure Under (m : HMAC H) (key msg : List UInt8) : Prop where
  ipad : m.ipad = (block H key).map (· ^^^ 0x36)
  opad : m.opad = (block H key).map (· ^^^ 0x5C)
  inner : ∃ chunks : List (List UInt8), m.inner = chunks.foldl MacHash.update MacHash.init ∧
    chunks.flatten = m.ipad.toList ++ msg

theorem Under.reinit (m : HMAC H) (key : List UInt8) : Under (m.reinit key) key [] :=
  ⟨rfl, rfl, [(m.reinit key).ipad.toList], rfl, rfl⟩

theorem Under.init (key : List UInt8) : Under (HMAC.init key : HMAC H) key [] :=
  Under.reinit ⟨MacHash.init, (block H key).map (· ^^^ 0x36), (block H key).map (· ^^^ 0x5C)⟩ key

variable {m : HMAC H} {key msg : List UInt8}

theorem Under.update (h : Under m key msg) (data : List UInt8) :
    Under (m.update data) key (msg ++ data) := by
  obtain ⟨chunks, hinner, hflat⟩ := h.inner
  refine ⟨h.ipad, h.opad, chunks ++ [data], ?_, ?_⟩
  · rw [List.foldl_append, ← hinner]
    rfl
  · rw [List.flatten_append, hflat, List.append_assoc]
    simp [HMAC.update]

/-- **`digest` arms the object again**, with nothing left of the message. -/
theorem Under.rearmed (h : Under m key msg) : Under m.digest.2 key [] := by
  rw [digest_snd]
  refine ⟨h.ipad, h.opad, [m.ipad.toList], rfl, ?_⟩
  rw [List.flatten_singleton, List.append_nil]
  rfl

/-- **`digest` returns the MAC** of what the object has been given. -/
theorem Under.digest (hc : Computes H hash) (h : Under m key msg) :
    m.digest.1.toList = hmac hash (MacHash.BLOCK_SIZE H) key msg := by
  obtain ⟨chunks, hinner, hflat⟩ := h.inner
  have hin : (MacHash.digest m.inner).1.toList = hash (m.ipad.toList ++ msg) := by
    rw [hinner, hc, hflat]
  have hout := hc [m.opad.toList, (MacHash.digest m.inner).1.toList]
  rw [List.flatten_cons, List.flatten_singleton, hin] at hout
  have hpad : ∀ c : UInt8, ((block H key).map (· ^^^ c)).toList =
      (block H key).toList.map (· ^^^ c) := by
    intro c
    exact Vector.toList_map
  rw [hmac, ← block_toList hc, ← hpad, ← hpad, ← h.ipad, ← h.opad, ← hout, ← hin]
  rfl

/-- **What a sequence of calls returns.** -/
theorem Under.run (hc : Computes H hash) (calls : List Call) : ∀ {m : HMAC H} {key msg : List UInt8},
    Under m key msg → m.run calls = macs (hmac hash (MacHash.BLOCK_SIZE H)) key msg calls := by
  induction calls with
  | nil => intro m key msg _; rfl
  | cons call calls ih =>
      intro m key msg h
      cases call with
      | init key' => exact ih (Under.reinit m key')
      | update data => exact ih (h.update data)
      | digest => rw [HMAC.run, macs, h.digest hc, ih h.rearmed]

/-! ### One key, many messages -/

/-- The rest of a message and the messages after it. -/
theorem macs_messages (mac : List UInt8 → List UInt8 → List UInt8) (key : List UInt8)
    (messages : List (List (List UInt8))) :
    macs mac key [] (messages.flatMap message) = messages.map fun pieces => mac key pieces.flatten := by
  have hpieces : ∀ (pieces : List (List UInt8)) (msg : List UInt8) (calls : List Call),
      macs mac key msg (pieces.map .update ++ .digest :: calls) =
        mac key (msg ++ pieces.flatten) :: macs mac key [] calls := by
    intro pieces
    induction pieces with
    | nil => intro msg calls; simp [macs]
    | cons p pieces ih =>
        intro msg calls
        rw [List.map_cons, List.cons_append, macs, ih, List.flatten_cons, List.append_assoc]
  induction messages with
  | nil => rfl
  | cons pieces messages ih =>
      rw [List.flatMap_cons, message, List.append_assoc, List.singleton_append, hpieces, ih,
        List.map_cons, List.nil_append]

/-- One object returns the MAC of each message, whatever has been done with it before `init`. -/
theorem reinit_messages (hc : Computes H hash) (m : HMAC H) (key : List UInt8)
    (messages : List (List (List UInt8))) :
    (m.reinit key).run (messages.flatMap message) =
      messages.map fun pieces => hmac hash (MacHash.BLOCK_SIZE H) key pieces.flatten := by
  rw [(Under.reinit m key).run hc, macs_messages]

end HMAC

/-- **One object, many messages**: with either hash, an object that is given a key once returns
the MAC of each message, in whatever pieces the messages come; and an object that is given another
key, in whatever state it is, does what a fresh one does. -/
theorem HMAC.reuse (key : List UInt8) (messages : List (List (List UInt8))) :
    ((HMAC.init key : HMAC MD5).run (messages.flatMap HMAC.message) =
        (messages.map fun pieces => hmac md5 64 key pieces.flatten) ∧
      ∀ (m : HMAC MD5) (calls : List HMAC.Call),
        m.run (.init key :: calls) = (HMAC.init key : HMAC MD5).run calls) ∧
    ((HMAC.init key : HMAC SHA1).run (messages.flatMap HMAC.message) =
        (messages.map fun pieces => hmac sha1 64 key pieces.flatten) ∧
      ∀ (m : HMAC SHA1) (calls : List HMAC.Call),
        m.run (.init key :: calls) = (HMAC.init key : HMAC SHA1).run calls) :=
  ⟨⟨reinit_messages computes_md5 (HMAC.init key) key messages, fun _ _ => rfl⟩,
    reinit_messages computes_sha1 (HMAC.init key) key messages, fun _ _ => rfl⟩

end Ilo2.Crypto
