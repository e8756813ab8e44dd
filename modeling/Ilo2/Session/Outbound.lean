import Ilo2.Session.Telnet
import Ilo2.Lib.BigEndian

/-!
# The outbound stream

`ilo2_session.hpp` and `telnet.hpp`, as far as sent bytes go: the first packet, which tells
the key index in the clear, and the keystream that everything behind it is encrypted with.

`send` is the operating system's, and `accept` says how much of its buffer it takes in each
call; `send_all` hands it the rest until everything is taken, but computes the length of the
rest in 32 bits.

* `sendAll_takes` - what is shorter than `2 ^ 31` bytes is sent.
* `transmit_active` - one string.
* `streams_iff` - **when the stream is what the peer expects**: no string is longer.
-/

namespace Ilo2.Session

open Crypto

/-! ### The socket -/

/-- `send`: what it returns in its call number `k`, asked to send `len` bytes. -/
abbrev Accept := (k : Nat) → (len : Int) → Int

/-- As long as the connection lives, `send` takes a part of what it is given. -/
def Live (accept : Accept) : Prop := ∀ k len, 0 < len → 0 < accept k len ∧ accept k len ≤ len

/-- `static_cast<int>`. -/
def toInt (n : Nat) : Int := (n : Int).bmod (2 ^ 32)

/-- The loop of `send_all`, with `data` to be sent: the calls of `send` so far, and the bytes
that were written. -/
def sendLoop (accept : Accept) : (rounds : Nat) → (data : List UInt8) → Nat × List UInt8 →
    Nat × List UInt8
  | 0, _, s => s
  | rounds + 1, data, (calls, wire) =>
      if data = [] then (calls, wire)
      else
        let w := accept calls (toInt data.length)
        if w ≤ 0 then (calls + 1, wire)
        else sendLoop accept rounds (data.drop w.toNat) (calls + 1, wire ++ data.take w.toNat)

/-- `send_all`; every round that goes on sends a byte. -/
def sendAll (accept : Accept) (data : List UInt8) (s : Nat × List UInt8) : Nat × List UInt8 :=
  sendLoop accept data.length data s

/-! ### The session -/

/-- The sending state of `CimSession`.  `calls` counts the calls of `send`, and `wire` is what
has been written to the socket. -/
structure Outbound where
  session : CimSession := {}
  encryptionEnabled : Bool := false
  encryptionActive : Bool := false
  keyIndex : UInt32 := 0
  sendingEncryptCommand : Bool := false
  connected : Bool := false
  calls : Nat := 0
  wire : List UInt8 := []

namespace Outbound

def setupDecryption (o : Outbound) (key : Vector UInt8 16) : Outbound :=
  { o with session := o.session.setupDecryption key, encryptionEnabled := true }

def setupEncryption (o : Outbound) (key : Vector UInt8 16) (keyIndex : UInt32) : Outbound :=
  { o with session := o.session.setupEncryption key, keyIndex := keyIndex }

/-- `Telnet::transmit(data, n)`; the socket is open while the session is connected. -/
def write (accept : Accept) (o : Outbound) (data : List UInt8) : Outbound :=
  if o.connected = false ∨ data = [] then o
  else
    let (calls, wire) := sendAll accept data (o.calls, o.wire)
    { o with calls := calls, wire := wire }

/-- The bytes 2 to 5 of the first packet. -/
def indexBytes (keyIndex : UInt32) : List UInt8 :=
  [(keyIndex >>> 24).toUInt8, (keyIndex >>> 16).toUInt8, (keyIndex >>> 8).toUInt8,
    keyIndex.toUInt8]

/-- `CimSession::transmit`. -/
def transmit (accept : Accept) (o : Outbound) (s : List UInt8) : Outbound :=
  if s = [] then o
  else
    match o.encryptionActive, o.session.rc4Encrypter with
    | true, some rc =>
        -- `out` is as long as `s`; what is written past its end is not sent.
        let head :=
          if o.sendingEncryptCommand then
            ([s.getD 0 0, s.getD 1 0] ++ indexBytes o.keyIndex).take s.length
          else []
        let (body, rc) := rc.crypt (s.drop head.length)
        { o with
          sendingEncryptCommand := false
          session := { o.session with rc4Encrypter := some rc } }.write accept (head ++ body)
    | _, _ => o.write accept s

/-- `FF C0`, and four spaces for the key index. -/
def preamble : List UInt8 := [0xFF, 0xC0, 0x20, 0x20, 0x20, 0x20]

/-- `CimSession::connect`: what it returns, and the session.  `reached` says whether a socket
could be connected to the host. -/
def connect (accept : Accept) (reached : Bool) (o : Outbound) (login : List UInt8) :
    Bool × Outbound :=
  let tok := if o.encryptionEnabled then preamble ++ login else login
  let o := if o.encryptionEnabled then
      { o with encryptionActive := true, sendingEncryptCommand := true }
    else o
  if o.connected then (true, o)
  else if reached then (true, { o with connected := true }.transmit accept tok)
  else (false, o)

/-- A session whose keys are set up, connected; then the strings `texts` are sent. -/
def run (accept : Accept) (dkey key : Vector UInt8 16) (keyIndex : UInt32) (login : List UInt8)
    (texts : List (List UInt8)) : Outbound :=
  let o := ({ : Outbound}.setupDecryption dkey).setupEncryption key keyIndex
  texts.foldl (transmit accept) (o.connect accept true login).2

/-- The peer gets the key index, and then all the text under one keystream, however `send`
takes it. -/
def Streams (dkey key : Vector UInt8 16) (keyIndex : UInt32) (login : List UInt8)
    (texts : List (List UInt8)) : Prop :=
  ∀ accept, Live accept →
    (run accept dkey key keyIndex login texts).wire =
      [0xFF, 0xC0] ++ BigEndian.bytes 4 keyIndex.toNat ++
        ((RC4.ofSeed key).crypt (login ++ texts.flatten)).1 ∧
    ((RC4.ofSeed key).crypt ((run accept dkey key keyIndex login texts).wire.drop 6)).1 =
      login ++ texts.flatten

end Outbound

/-! ### What is sent -/

variable {accept : Accept} {data : List UInt8} {s : Nat × List UInt8} {rounds : Nat}

theorem toInt_cases (n : Nat) : (n % 4294967296 < 2147483648 ∧ toInt n = (n % 4294967296 : Nat)) ∨
    (2147483648 ≤ n % 4294967296 ∧ toInt n < 0) := by
  unfold toInt
  rw [Int.bmod_def]
  split <;> omega

theorem toInt_of_lt {n : Nat} (h : n < 2 ^ 31) : toInt n = n := by
  rcases toInt_cases n with ⟨-, hn⟩ | ⟨hn, -⟩ <;> omega

/-- A length that does not fit leaves a multiple of `2 ^ 32`. -/
theorem toInt_of_le {n : Nat} (h : 2 ^ 31 ≤ n) (hpos : 0 < toInt n) :
    ∃ r : Nat, toInt n = r ∧ r < n ∧ (n - r) % 4294967296 = 0 := by
  rcases toInt_cases n with ⟨hsmall, hlen⟩ | ⟨-, hneg⟩
  · exact ⟨n % 4294967296, hlen, by omega, by omega⟩
  · omega

theorem sendLoop_takes (hlive : Live accept) (rounds : Nat) : ∀ {data : List UInt8}
    {s : Nat × List UInt8}, data.length ≤ rounds → data.length < 2 ^ 31 →
      (sendLoop accept rounds data s).2 = s.2 ++ data := by
  induction rounds with
  | zero =>
      intro data s hle _
      rw [List.length_eq_zero_iff.mp (Nat.le_zero.mp hle), List.append_nil]
      rfl
  | succ rounds ih =>
      intro data s hle hlt
      unfold sendLoop
      by_cases hnil : data = []
      · rw [if_pos hnil, hnil, List.append_nil]
      rw [if_neg hnil]
      have hpos := List.length_pos_iff.mpr hnil
      obtain ⟨hw, hwle⟩ := hlive s.1 (toInt data.length) (by rw [toInt_of_lt hlt]; omega)
      dsimp only
      rw [if_neg (by omega), ih, List.append_assoc, List.take_append_drop]
      · rw [List.length_drop]
        omega
      · rw [List.length_drop]
        omega

/-- **What is shorter than `2 ^ 31` bytes is sent.** -/
theorem sendAll_takes (hlive : Live accept) (h : data.length < 2 ^ 31) :
    (sendAll accept data s).2 = s.2 ++ data :=
  sendLoop_takes hlive _ (Nat.le_refl _) h

/-- No more is written than is sent. -/
theorem sendLoop_le (rounds : Nat) : ∀ {data : List UInt8} {s : Nat × List UInt8},
    (sendLoop accept rounds data s).2.length ≤ s.2.length + data.length := by
  induction rounds with
  | zero => exact Nat.le_add_right _ _
  | succ rounds ih =>
      intro data s
      unfold sendLoop
      split
      · exact Nat.le_add_right _ _
      dsimp only
      split
      · exact Nat.le_add_right _ _
      · refine Nat.le_trans ih ?_
        rw [List.length_append, List.length_take, List.length_drop]
        omega

theorem sendAll_le (accept : Accept) (data : List UInt8) (s : Nat × List UInt8) :
    (sendAll accept data s).2.length ≤ s.2.length + data.length := sendLoop_le _

/-- A `send` that takes all it is given, and fails when that is nothing or less. -/
def takesAll : Accept := fun _ len => if 0 < len then len else -1

theorem live_takesAll : Live takesAll := by
  intro k len hlen
  rw [takesAll, if_pos hlen]
  exact ⟨hlen, Int.le_refl len⟩

theorem sendLoop_succ (rounds : Nat) (hnil : data ≠ []) : sendLoop accept (rounds + 1) data s =
    if accept s.1 (toInt data.length) ≤ 0 then (s.1 + 1, s.2)
    else sendLoop accept rounds (data.drop (accept s.1 (toInt data.length)).toNat)
      (s.1 + 1, s.2 ++ data.take (accept s.1 (toInt data.length)).toNat) := by
  obtain ⟨calls, wire⟩ := s
  rw [sendLoop, if_neg hnil]

/-- `send` is not asked to send what is left, when that is a multiple of `2 ^ 32`. -/
theorem sendLoop_stuck (rounds : Nat) (h : data.length % 4294967296 = 0) :
    (sendLoop takesAll rounds data s).2.length ≤ s.2.length := by
  cases rounds with
  | zero => exact Nat.le_refl _
  | succ rounds =>
      have hzero : toInt data.length = 0 := by
        rcases toInt_cases data.length with ⟨-, hn⟩ | ⟨hn, -⟩ <;> omega
      unfold sendLoop
      split
      · exact Nat.le_refl _
      · rw [hzero]
        exact Nat.le_refl _

/-- **What is longer is not sent**: the length that `send` is given is not positive, or leaves
a multiple of `2 ^ 32`. -/
theorem sendAll_short (h : 2 ^ 31 ≤ data.length) :
    (sendAll takesAll data s).2.length < s.2.length + data.length := by
  have hnil : data ≠ [] := List.length_pos_iff.mp (by omega)
  obtain ⟨rounds, hrounds⟩ : ∃ k, data.length = k + 1 := ⟨data.length - 1, by omega⟩
  have hloop : sendAll takesAll data s = sendLoop takesAll (rounds + 1) data s := by
    rw [sendAll, hrounds]
  rw [hloop, sendLoop_succ rounds hnil]
  split
  · show s.2.length < _
    omega
  · rename_i hw
    have hpos : 0 < toInt data.length := by
      by_contra hle
      rw [takesAll, if_neg hle] at hw
      exact hw (by decide)
    have htake : takesAll s.1 (toInt data.length) = toInt data.length := if_pos hpos
    obtain ⟨r, hr, hlt, hrest⟩ := toInt_of_le h hpos
    rw [htake, hr, Int.toNat_natCast]
    -- what is left is a multiple of `2 ^ 32`, and the next call is asked to send 0 bytes
    rw [← List.length_drop] at hrest
    refine Nat.lt_of_le_of_lt (sendLoop_stuck rounds hrest) ?_
    rw [List.length_append, List.length_take]
    omega

namespace Outbound

variable {o : Outbound} {text login : List UInt8} {rc : RC4}

theorem write_eq (accept : Accept) (o : Outbound) (hopen : o.connected = true)
    (data : List UInt8) : o.write accept data =
    { o with
      calls := (sendAll accept data (o.calls, o.wire)).1
      wire := (sendAll accept data (o.calls, o.wire)).2 } := by
  unfold write
  by_cases hnil : data = []
  · rw [if_pos (Or.inr hnil), hnil]
    rfl
  · rw [if_neg (by simp [hnil, hopen])]

theorem indexBytes_eq (k : UInt32) : indexBytes k = BigEndian.bytes 4 k.toNat :=
  (BigEndian.bytes_u32 k).symm

/-- The session while it streams, with the state of its encrypter. -/
structure Streaming (o : Outbound) (rc : RC4) : Prop where
  connected : o.connected = true
  active : o.encryptionActive = true
  command : o.sendingEncryptCommand = false
  encrypter : o.session.rc4Encrypter = some rc

/-- **One string**, once the first packet is sent. -/
theorem transmit_streaming (accept : Accept) (ho : Streaming o rc) (text : List UInt8) :
    Streaming (o.transmit accept text) (rc.crypt text).2 ∧
      (o.transmit accept text).wire =
        (sendAll accept (rc.crypt text).1 (o.calls, o.wire)).2 := by
  unfold transmit
  by_cases hnil : text = []
  · subst hnil
    rw [if_pos rfl]
    exact ⟨ho, rfl⟩
  rw [if_neg hnil, ho.active, ho.encrypter, ho.command]
  simp only [Bool.false_eq_true, if_false, List.length_nil, List.drop_zero, List.nil_append]
  have hwrite := write_eq accept { o with
    session := { o.session with rc4Encrypter := some (rc.crypt text).2 }
    encryptionActive := true
    sendingEncryptCommand := false } ho.connected (rc.crypt text).1
  rw [hwrite]
  exact ⟨⟨ho.connected, rfl, rfl, rfl⟩, rfl⟩

/-- **The first packet.** -/
theorem transmit_first (accept : Accept) (o : Outbound) (rc : RC4) (hopen : o.connected = true)
    (hactive : o.encryptionActive = true) (hcommand : o.sendingEncryptCommand = true)
    (hrc : o.session.rc4Encrypter = some rc) (login : List UInt8) :
    Streaming (o.transmit accept (preamble ++ login)) (rc.crypt login).2 ∧
      (o.transmit accept (preamble ++ login)).wire =
        (sendAll accept ([0xFF, 0xC0] ++ indexBytes o.keyIndex ++ (rc.crypt login).1)
          (o.calls, o.wire)).2 := by
  have heq : o.transmit accept (preamble ++ login) = Outbound.write accept { o with
      session := { o.session with rc4Encrypter := some (rc.crypt login).2 }
      encryptionActive := true
      sendingEncryptCommand := false }
        ([0xFF, 0xC0] ++ indexBytes o.keyIndex ++ (rc.crypt login).1) := by
    -- the token has room for the preamble
    have htake : ([(preamble ++ login).getD 0 0, (preamble ++ login).getD 1 0] ++
        indexBytes o.keyIndex).take (preamble ++ login).length =
          [0xFF, 0xC0] ++ indexBytes o.keyIndex :=
      List.take_of_length_le (by simp [preamble, indexBytes])
    rw [transmit, if_neg (by simp [preamble]), hactive, hrc, hcommand]
    dsimp only
    rw [if_pos rfl, htake]
    rfl
  have hwrite := write_eq accept { o with
    session := { o.session with rc4Encrypter := some (rc.crypt login).2 }
    encryptionActive := true
    sendingEncryptCommand := false } hopen
    ([0xFF, 0xC0] ++ indexBytes o.keyIndex ++ (rc.crypt login).1)
  rw [heq, hwrite]
  exact ⟨⟨hopen, rfl, rfl, rfl⟩, rfl⟩

/-! ### Sequences of strings -/

theorem texts_wire (hlive : Live accept) (texts : List (List UInt8)) :
    ∀ {o : Outbound} {rc : RC4}, Streaming o rc → (∀ s ∈ texts, s.length < 2 ^ 31) →
      (texts.foldl (transmit accept) o).wire = o.wire ++ (rc.crypt texts.flatten).1 := by
  induction texts with
  | nil => intro o rc _ _; exact (List.append_nil _).symm
  | cons s texts ih =>
      intro o rc ho hshort
      obtain ⟨hnext, hwire⟩ := transmit_streaming accept ho s
      rw [sendAll_takes hlive (by
        rw [RC4.crypt, Keystream.length_crypt]
        exact hshort s (List.mem_cons_self ..))] at hwire
      rw [List.foldl_cons, ih hnext fun t ht => hshort t (List.mem_cons_of_mem _ ht), hwire,
        List.flatten_cons, List.append_assoc]
      show o.wire ++ _ = o.wire ++ (Keystream.crypt RC4.randomValue rc (s ++ texts.flatten)).1
      rw [Keystream.crypt_append]
      rfl

/-- With a string that is too long, less is written. -/
theorem texts_short (texts : List (List UInt8)) : ∀ {o : Outbound} {rc : RC4}, Streaming o rc →
    (texts.foldl (transmit takesAll) o).wire.length ≤ o.wire.length + texts.flatten.length ∧
    ((∃ s ∈ texts, 2 ^ 31 ≤ s.length) →
      (texts.foldl (transmit takesAll) o).wire.length < o.wire.length + texts.flatten.length) := by
  induction texts with
  | nil =>
      intro o rc _
      refine ⟨Nat.le_refl _, fun ⟨s, hs, _⟩ => ?_⟩
      cases hs
  | cons t texts ih =>
      intro o rc ho
      obtain ⟨hnext, hwire⟩ := transmit_streaming takesAll ho t
      obtain ⟨hle, hlt⟩ := ih hnext
      have hlen : ((rc.crypt t).1).length = t.length := Keystream.length_crypt _ _ _
      have hsend : (o.transmit takesAll t).wire.length ≤ o.wire.length + t.length := by
        rw [hwire, ← hlen]
        exact sendAll_le _ _ _
      rw [List.foldl_cons, List.flatten_cons, List.length_append]
      refine ⟨by omega, ?_⟩
      rintro ⟨s, hs, hlong⟩
      rcases List.mem_cons.mp hs with rfl | hs
      · have hshort : (o.transmit takesAll s).wire.length < o.wire.length + s.length := by
          rw [hwire, ← hlen]
          exact sendAll_short (by rwa [hlen])
        omega
      · have := hlt ⟨s, hs, hlong⟩
        omega

/-- The session that `run` connects. -/
theorem run_streaming (accept : Accept) (dkey key : Vector UInt8 16) (k : UInt32)
    (login : List UInt8) : ∃ o : Outbound, Streaming o ((RC4.ofSeed key).crypt login).2 ∧
      o.wire = (sendAll accept ([0xFF, 0xC0] ++ indexBytes k ++ ((RC4.ofSeed key).crypt login).1)
        (0, [])).2 ∧
      ∀ texts, run accept dkey key k login texts = texts.foldl (transmit accept) o := by
  obtain ⟨hs, hwire⟩ := transmit_first accept
    { ({ : Outbound}.setupDecryption dkey).setupEncryption key k with
      encryptionActive := true
      sendingEncryptCommand := true
      connected := true } (RC4.ofSeed key) rfl rfl rfl rfl login
  exact ⟨_, hs, hwire, fun texts => rfl⟩

theorem length_first (key : Vector UInt8 16) (k : UInt32) (login : List UInt8) :
    ([0xFF, 0xC0] ++ indexBytes k ++ ((RC4.ofSeed key).crypt login).1).length = login.length + 6 := by
  rw [List.length_append, RC4.crypt, Keystream.length_crypt, Nat.add_comm]
  rfl

/-- A stream that arrives has short strings only. -/
theorem Streams.short {dkey key : Vector UInt8 16} {k : UInt32} {login : List UInt8}
    {texts : List (List UInt8)} (h : Streams dkey key k login texts) :
    login.length + 6 < 2 ^ 31 ∧ ∀ s ∈ texts, s.length < 2 ^ 31 := by
  obtain ⟨o, ho, hwire, hrun⟩ := run_streaming takesAll dkey key k login
  have hall := congrArg List.length (h takesAll live_takesAll).1
  obtain ⟨hle, hlt⟩ := texts_short texts ho
  have hfirst : o.wire.length ≤ login.length + 6 := by
    have hle := sendAll_le takesAll
      ([0xFF, 0xC0] ++ indexBytes k ++ ((RC4.ofSeed key).crypt login).1) (0, [])
    rw [← hwire, length_first] at hle
    simpa using hle
  rw [hrun, RC4.crypt, List.length_append, List.length_append, BigEndian.length_bytes,
    Keystream.length_crypt, List.length_append] at hall
  simp only [List.length_cons, List.length_nil] at hall
  constructor
  · by_contra hlong
    have hshort : o.wire.length < login.length + 6 := by
      have hlt := sendAll_short (s := (0, []))
        (Nat.le_trans (by omega) (Nat.le_of_eq (length_first key k login).symm))
      rw [← hwire, length_first] at hlt
      simpa using hlt
    omega
  · intro s hs
    by_contra hlong
    have := hlt ⟨s, hs, by omega⟩
    omega

/-- **When the stream is what the peer expects**: no string is too long. -/
theorem streams_iff (dkey key : Vector UInt8 16) (k : UInt32) (login : List UInt8)
    (texts : List (List UInt8)) : Streams dkey key k login texts ↔
      login.length + 6 < 2 ^ 31 ∧ ∀ s ∈ texts, s.length < 2 ^ 31 := by
  refine ⟨Streams.short, fun ⟨hlogin, htexts⟩ accept hlive => ?_⟩
  obtain ⟨o, ho, hwire, hrun⟩ := run_streaming accept dkey key k login
  rw [sendAll_takes hlive (by rwa [length_first]), List.nil_append] at hwire
  have hall : (run accept dkey key k login texts).wire = [0xFF, 0xC0] ++ BigEndian.bytes 4 k.toNat ++
      ((RC4.ofSeed key).crypt (login ++ texts.flatten)).1 := by
    rw [hrun, texts_wire hlive texts ho htexts, hwire, indexBytes_eq, List.append_assoc]
    show _ = _ ++ (Keystream.crypt RC4.randomValue (RC4.ofSeed key) (login ++ texts.flatten)).1
    rw [Keystream.crypt_append]
    rfl
  refine ⟨hall, ?_⟩
  have hdrop : (run accept dkey key k login texts).wire.drop 6 =
      ((RC4.ofSeed key).crypt (login ++ texts.flatten)).1 := by
    rw [hall]
    exact List.drop_left' (by simp)
  rw [hdrop]
  exact congrArg Prod.fst (Keystream.crypt_crypt RC4.randomValue (RC4.ofSeed key) _)

/-- A string that is too long does not arrive whole. -/
theorem not_streams_of_le {dkey key : Vector UInt8 16} {k : UInt32} {text : List UInt8}
    (h : 2 ^ 31 ≤ text.length) : ¬ Streams dkey key k [] [text] := by
  intro hs
  have := hs.short.2 text (List.mem_singleton_self _)
  omega

/-- **4 GiB are lost**: `static_cast<int>` makes the length of the string 0. -/
theorem streams_lost : ¬ Streams (Vector.replicate 16 0) (Vector.replicate 16 0) 1 []
    [List.replicate (2 ^ 32) 0x61] :=
  not_streams_of_le (Nat.le_trans (by decide) (Nat.le_of_eq List.length_replicate.symm))

end Outbound

end Ilo2.Session
