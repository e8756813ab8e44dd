import Ilo2.Media.Ranges
import Ilo2.Media.ReadMap

/-!
# Answers of the server

What `process_request` of `httplib.h` makes of a request for the image: the handler and the content
provider of `media_server.hpp`, `apply_ranges`, and `write_content_with_provider`.  The head of an
answer is a structure, and the body is what has been written to the stream.

What the surroundings do is a sequence of moments, one for each round of `write_content` and for
each token of a multipart body.

* `provide_cases` - what the provider can do, whatever file is there.
* `writeContent_round` - what one round of `write_content` does.
* `writeContent_ok` - **one range**, with any file and any moments.
-/

namespace Ilo2.Media.Httplib

open MediaServer Checked Intervals
open Strtol (decimal)
open Tls (ascii)

/-- What the surroundings do in one step. -/
structure Moment where
  /-- `is_shutting_down`. -/
  shutdown : Bool := false
  /-- `wait_writable` and `is_peer_alive`. -/
  writable : Bool := true
  /-- What `fopen` of the image opens. -/
  file : Option (List UInt8)
  /-- What the clock shows. -/
  t : Int
  /-- After how many bytes writing fails, if it does. -/
  cut : Option Nat := none
deriving DecidableEq

/-- The server, and one answer that it writes. -/
structure Sending where
  server : Counted
  /-- `requests_`. -/
  requests : UInt64 := 0
  out : List UInt8 := []
  step : Nat := 0
deriving DecidableEq

def CRLF : List UInt8 := [0x0D, 0x0A]

variable (env : Nat → Moment)

/-! ### Writing -/

/-- `strm.write(token)`, of which the result is ignored. -/
def writeToken (token : List UInt8) (s : Sending) : Sending :=
  { s with
    out := s.out ++ token.take ((env s.step).cut.getD token.length)
    step := s.step + 1 }

/-- `write_content`, with the content provider of the handler. -/
def writeContent (offset endOffset : Nat) (s : Sending) : Except Fault (Bool × Sending) :=
  if offset < endOffset then
    let now := env s.step
    let s := { s with step := s.step + 1 }
    if now.shutdown then .ok (false, s)
    else if ¬ now.writable then .ok (false, s)
    else
      match s.server.provide now.file offset (endOffset - offset) now.t with
      | .error fault => .error fault
      | .ok (none, server) => .ok (false, { s with server := server })
      | .ok (some buf, server) =>
          match now.cut with
          | some k => .ok (false, { s with server := server, out := s.out ++ buf.take k })
          | none =>
              let s := { s with server := server, out := s.out ++ buf }
              -- No progress counts as a short body.
              if buf.length = 0 then .ok (false, s)
              else writeContent (offset + buf.length) endOffset s
  else .ok (true, s)
termination_by endOffset - offset
decreasing_by omega

/-! ### Several ranges -/

/-- `get_range_offset_and_length`. -/
def getRangeOffsetAndLength (r : Range) : Nat × Nat := (r.1.toNat, (r.2 - r.1).toNat + 1)

/-- `make_content_range_header_field`. -/
def makeContentRangeHeaderField (offsetAndLength : Nat × Nat) (n : Nat) : List UInt8 :=
  let st := offsetAndLength.1
  let ed := st + offsetAndLength.2 - 1
  ascii "bytes " ++ decimal st ++ ascii "-" ++ decimal ed ++ ascii "/" ++ decimal n

/-- What stands before a part. -/
def partTokens (boundary contentType : List UInt8) (n : Nat) (r : Range) : List (List UInt8) :=
  [ascii "--", boundary, CRLF] ++
    (if contentType = [] then [] else [ascii "Content-Type: ", contentType, CRLF]) ++
    [ascii "Content-Range: ", makeContentRangeHeaderField (getRangeOffsetAndLength r) n, CRLF, CRLF]

/-- `process_multipart_ranges_data`: `token` and `content` are what the caller does with them. -/
def processMultipartRangesData {σ : Type} (boundary contentType : List UInt8) (n : Nat)
    (token : List UInt8 → σ → σ) (content : Nat → Nat → σ → Except Fault (Bool × σ)) :
    List Range → σ → Except Fault (Bool × σ)
  | [], s => .ok (true, [ascii "--", boundary, ascii "--"].foldl (fun s t => token t s) s)
  | r :: rs, s => do
      let s := (partTokens boundary contentType n r).foldl (fun s t => token t s) s
      let (offset, length) := getRangeOffsetAndLength r
      let (ok, s) ← content offset length s
      if ok then
        processMultipartRangesData boundary contentType n token content rs (token CRLF s)
      else .ok (false, s)

/-- `make_multipart_ranges_data`. -/
def makeMultipartRangesData (boundary contentType : List UInt8) (body : List UInt8)
    (ranges : List Range) : Except Fault (Bool × List UInt8) :=
  processMultipartRangesData boundary contentType body.length (fun t out => out ++ t)
    (fun offset length out => .ok (true, out ++ (body.drop offset).take length)) ranges []

/-- `get_multipart_ranges_data_length`. -/
def getMultipartRangesDataLength (boundary contentType : List UInt8) (n : Nat)
    (ranges : List Range) : Except Fault Nat := do
  let (_, k) ← processMultipartRangesData boundary contentType n (fun t k => k + t.length)
    (fun _ length k => .ok (true, k + length)) ranges 0
  .ok k

/-- `write_multipart_ranges_data`. -/
def writeMultipartRangesData (boundary contentType : List UInt8) (n : Nat) (ranges : List Range)
    (s : Sending) : Except Fault (Bool × Sending) :=
  processMultipartRangesData boundary contentType n (writeToken env)
    (fun offset length => writeContent env offset (offset + length)) ranges s

/-! ### The answer -/

structure Head where
  status : Nat
  contentType : Option (List UInt8) := none
  contentRange : Option (List UInt8) := none
  contentLength : List UInt8 := ascii "0"
deriving DecidableEq

/-- `apply_ranges`, for a content of `n` bytes that a provider has. -/
def applyRanges (boundary : List UInt8) (n : Nat) (ranges : List Range) : Except Fault Head := do
  let octets := ascii "application/octet-stream"
  match ranges with
  | [] => .ok { status := 200, contentType := some octets, contentLength := decimal n }
  | [r] =>
      let offsetAndLength := getRangeOffsetAndLength r
      .ok
        { status := 206
          contentType := some octets
          contentRange := some (makeContentRangeHeaderField offsetAndLength n)
          contentLength := decimal offsetAndLength.2 }
  | ranges =>
      let length ← getMultipartRangesDataLength boundary octets n ranges
      .ok
        { status := 206
          contentType := some (ascii "multipart/byteranges; boundary=" ++ boundary)
          contentLength := decimal length }

/-- `write_content_with_provider`. -/
def writeContentWithProvider (boundary : List UInt8) (n : Nat) (ranges : List Range)
    (s : Sending) : Except Fault (Bool × Sending) :=
  match ranges with
  | [] => writeContent env 0 n s
  | [r] =>
      let (offset, length) := getRangeOffsetAndLength r
      writeContent env offset (offset + length) s
  | ranges =>
      writeMultipartRangesData env boundary (ascii "application/octet-stream") n ranges s

/-- The head of an answer goes to the stream in one piece. -/
def writeHead (s : Sending) : Bool × Sending :=
  ((env s.step).cut.isNone, { s with step := s.step + 1 })

/-- What `process_request` does with a request for the image, and what it returns.  `range` is the
header, if there is one, and `isHead` tells a HEAD from a GET. -/
def processRequest (sort : StdSort) (boundary : List UInt8) (isHead : Bool)
    (range : Option (List UInt8)) (s : Sending) : Except Fault (Head × Bool × Sending) := do
  let some ranges := range.elim (some []) parseRangeHeader
    | .ok ({ status := 416 }, writeHead env s)
  -- The handler: its content has a provider, unless it is empty.
  let s := { s with requests := s.requests + 1 }
  let n := s.server.server.size.toNat
  let octets := ascii "application/octet-stream"
  let some ranges := if ranges = [] then some [] else rangeError sort n ranges
    | .ok ({ status := 416, contentType := some octets }, writeHead env s)
  if n = 0 then .ok ({ status := 200, contentType := some octets }, writeHead env s)
  else
    let head ← applyRanges boundary n ranges
    let (ok, s) := writeHead env s
    if ok = false ∨ isHead = true then .ok (head, ok, s)
    else
      let (ok, s) ← writeContentWithProvider env boundary n ranges s
      .ok (head, ok, s)

/-! ### The provider -/

variable {env} {n : Nat}

/-- The bytes that a round has read, from `offset` on, are marked, and no others. -/
structure Marked (n offset got : Nat) (before after : Counted) : Prop where
  server : after.server = before.server
  bytes : after.bytes = before.bytes + got.toUInt64
  here : ∀ b : Nat, offset ≤ b → b < offset + got →
    ∀ i : Nat, (b : Int) * kMapBuckets / n = i → look 0 after.map i ≠ 0
  only : ∀ i, look 0 after.map i ≠ 0 → look 0 before.map i ≠ 0 ∨ (0 < got ∧
    (offset : Int) * kMapBuckets / n ≤ i ∧ (i : Int) ≤ ((offset : Int) + got - 1) * kMapBuckets / n)
  kept : ∀ i, look 0 before.map i ≠ 0 → look 0 after.map i ≠ 0

theorem Marked.refl (n offset : Nat) (s : Counted) : Marked n offset 0 s s where
  server := rfl
  bytes := by simp
  here b hb hlt := by omega
  only i hi := Or.inl hi
  kept i hi := hi

theorem bucket_mono (hn : 0 < n) {x y : Int} (h : x ≤ y) :
    x * kMapBuckets / n ≤ y * kMapBuckets / n :=
  Buckets.mono (k := kMapBuckets) (by decide) (by omega) h

theorem Marked.trans {offset got got' : Nat} {s s' s'' : Counted} (hn : 0 < n)
    (h : Marked n offset got s s') (h' : Marked n (offset + got) got' s' s'') :
    Marked n offset (got + got') s s'' where
  server := h'.server.trans h.server
  bytes := by
    rw [h'.bytes, h.bytes, UInt64.add_assoc]
    exact congrArg (s.bytes + ·) (UInt64.ofNat_add got got').symm
  here b hb hlt i hi := by
    by_cases hin : b < offset + got
    · exact h'.kept i (h.here b hb hin i hi)
    · exact h'.here b (by omega) (by omega) i hi
  only i hi := by
    rcases h'.only i hi with hi | ⟨hpos, hfirst, hlast⟩
    · rcases h.only i hi with hi | ⟨hpos, hfirst, hlast⟩
      · exact Or.inl hi
      · refine Or.inr ⟨by omega, hfirst, Int.le_trans hlast (bucket_mono hn ?_)⟩
        omega
    · refine Or.inr ⟨by omega, Int.le_trans (bucket_mono hn ?_) hfirst,
        Int.le_trans hlast (bucket_mono hn ?_)⟩ <;> omega
  kept i hi := h'.kept i (h.kept i hi)

/-- **What the provider can do**, whatever file is there: nothing, if the file ends before the
offset, or else it reads some of what is asked for. -/
theorem provide_cases {s : Counted} (hs : s.server.size = n) (hsize : n < 2 ^ 54)
    (file : Option (List UInt8)) {offset length : Nat} (hlength : 0 < length)
    (hinside : offset + length ≤ n) (t : Int) :
    (s.provide file offset length t = .ok (none, s) ∧
      ∀ data, file = some data → data.length ≤ offset) ∨
    ∃ buf server, 0 < buf.length ∧ buf.length ≤ length ∧
      s.provide file offset length t = .ok (some buf, server) ∧
      Marked n offset buf.length s server ∧
      ∀ data, file = some data → buf = (data.drop offset).take buf.length := by
  cases file with
  | none => exact Or.inl ⟨rfl, fun data h => by cases h⟩
  | some data =>
      have hwant : ∃ want, 0 < want ∧ want ≤ length ∧
          (if length < 65536 then length else 65536) = want := by
        split
        · exact ⟨length, hlength, Nat.le_refl _, rfl⟩
        · exact ⟨65536, by decide, by omega, rfl⟩
      obtain ⟨want, hpos, hle, hwant⟩ := hwant
      obtain ⟨buf, hbuf⟩ : ∃ buf, (data.drop offset).take want = buf := ⟨_, rfl⟩
      have hlen : buf.length = min want (data.length - offset) := by
        rw [← hbuf, List.length_take, List.length_drop]
      rw [Counted.provide, hwant, toInt64_of_lt (by omega)]
      dsimp only
      rw [if_neg (show ¬ (offset : Int) < 0 by omega), hbuf]
      by_cases h0 : buf.length = 0
      · rw [if_pos h0]
        refine Or.inl ⟨rfl, fun data' h => ?_⟩
        cases h
        omega
      · rw [if_neg h0]
        obtain ⟨map, hmark, hlook⟩ := Counted.markRead_ok
          (s := { s with bytes := s.bytes + buf.length.toUInt64 })
          ⟨offset, buf.length, t, by omega, by omega, by omega⟩ hs (by omega)
        rw [hmark, ok_bind]
        refine Or.inr ⟨buf, _, by omega, by omega, rfl, ?_, ?_⟩
        · refine ⟨rfl, rfl, fun b hb hlt i hi => ?_, fun i hi => ?_, fun i hi => ?_⟩
          · dsimp only
            rw [hlook, if_pos]
            · exact nowMs_ne_zero t
            · constructor
              · show (offset : Int) * kMapBuckets / n ≤ i
                rw [← hi]
                exact bucket_mono (by omega) (by omega)
              · show (i : Int) ≤ ((offset : Int) + buf.length - 1) * kMapBuckets / n
                rw [← hi]
                exact bucket_mono (by omega) (by omega)
          · dsimp only at hi
            rw [hlook] at hi
            split at hi
            · rename_i htouch
              exact Or.inr ⟨by omega, htouch.1, htouch.2⟩
            · exact Or.inl hi
          · dsimp only
            rw [hlook]
            split
            · exact nowMs_ne_zero t
            · exact hi
        · intro data' h
          cases h
          rw [← hbuf, List.take_eq_take_iff, List.length_take, List.length_drop]
          omega

/-! ### One range -/

/-- The range from `offset` to `endOffset` has been written, as far as it went: of the bytes that
were `sent`, and those that were read, `got`. -/
structure Wrote (n offset endOffset : Nat) (s s' : Sending) (sent : List UInt8) (got : Nat) :
    Prop where
  out : s'.out = s.out ++ sent
  requests : s'.requests = s.requests
  sent_le : sent.length ≤ got
  got_le : got ≤ endOffset - offset
  marked : Marked n offset got s.server s'.server

/-- The surroundings are calm: nothing fails, and the image has the bytes `data`. -/
def Calm (data : List UInt8) (env : Nat → Moment) : Prop :=
  ∀ k, (env k).shutdown = false ∧ (env k).writable = true ∧ (env k).file = some data ∧
    (env k).cut = none

/-- **One round**: either it ends the range, and the surroundings were not calm, or some bytes of
the file are written. -/
theorem writeContent_round (env : Nat → Moment) (hsize : n < 2 ^ 54) {offset endOffset : Nat}
    (hend : endOffset ≤ n) (hlt : offset < endOffset) {s : Sending}
    (hs : s.server.server.size = n) :
    (∃ s' sent got, writeContent env offset endOffset s = .ok (false, s') ∧
      Wrote n offset endOffset s s' sent got ∧ ∀ data, Calm data env → data.length ≠ n) ∨
    ∃ buf s', 0 < buf.length ∧
      writeContent env offset endOffset s = writeContent env (offset + buf.length) endOffset s' ∧
      Wrote n offset endOffset s s' buf buf.length ∧
      ∀ data, Calm data env → buf = (data.drop offset).take buf.length := by
  -- Nothing is written in this round.
  have hnone : Wrote n offset endOffset s { s with step := s.step + 1 } [] 0 :=
    ⟨(List.append_nil _).symm, rfl, Nat.le_refl 0, Nat.zero_le _, Marked.refl n offset s.server⟩
  rw [writeContent, if_pos hlt]
  dsimp only
  by_cases hshutdown : (env s.step).shutdown = true
  · rw [if_pos hshutdown]
    refine Or.inl ⟨_, _, _, rfl, hnone, fun data hcalm => ?_⟩
    rw [(hcalm s.step).1] at hshutdown
    cases hshutdown
  rw [if_neg hshutdown]
  by_cases hwritable : ¬ (env s.step).writable = true
  · rw [if_pos hwritable]
    exact Or.inl ⟨_, _, _, rfl, hnone, fun data hcalm => absurd (hcalm s.step).2.1 hwritable⟩
  rw [if_neg hwritable]
  rcases provide_cases hs hsize (env s.step).file (show 0 < endOffset - offset by omega)
    (show offset + (endOffset - offset) ≤ n by omega) (env s.step).t with
    ⟨hprovide, hfile⟩ | ⟨buf, server, hpos, hle, hprovide, hmarked, hfile⟩
  · rw [hprovide]
    refine Or.inl ⟨_, _, _, rfl, hnone, fun data hcalm => ?_⟩
    have hshort := hfile data (hcalm s.step).2.2.1
    omega
  · rw [hprovide]
    dsimp only
    cases hcut : (env s.step).cut with
    | some m =>
        refine Or.inl ⟨_, buf.take m, buf.length, rfl, ?_, fun data hcalm => ?_⟩
        · exact ⟨rfl, rfl, by rw [List.length_take]; omega, hle, hmarked⟩
        · rw [(hcalm s.step).2.2.2] at hcut
          cases hcut
    | none =>
        dsimp only
        rw [if_neg (by omega)]
        refine Or.inr ⟨buf, _, hpos, rfl, ?_, fun data hcalm => hfile data (hcalm s.step).2.2.1⟩
        exact ⟨rfl, rfl, Nat.le_refl _, hle, hmarked⟩

/-- **Any file, any moments.**  There is no fault, and the range is written as far as it goes; if it
is reported as written, it is complete. -/
theorem writeContent_ok (env : Nat → Moment) (hsize : n < 2 ^ 54) {endOffset : Nat}
    (hend : endOffset ≤ n) (k : Nat) : ∀ {offset : Nat} {s : Sending}, endOffset - offset = k →
    offset ≤ endOffset → s.server.server.size = n →
    ∃ done s' sent got, writeContent env offset endOffset s = .ok (done, s') ∧
      Wrote n offset endOffset s s' sent got ∧ (done = true → sent.length = endOffset - offset) ∧
      ∀ data, Calm data env → data.length = n →
        done = true ∧ sent = (data.drop offset).take (endOffset - offset) := by
  induction k using Nat.strongRecOn with
  | ind k ih =>
      intro offset s hk hoffset hs
      by_cases hlt : offset < endOffset
      · rcases writeContent_round env hsize hend hlt hs with
          ⟨s', sent, got, hrun, hwrote, hcalm⟩ | ⟨buf, s₁, hpos, hrun, hwrote, hcalm⟩
        · refine ⟨false, s', sent, got, hrun, hwrote, by simp, fun data h hdata => ?_⟩
          exact absurd hdata (hcalm data h)
        · have hle := hwrote.got_le
          obtain ⟨done, s', sent, got, hrest, hwrote', hdone, hcalm'⟩ :=
            ih (endOffset - (offset + buf.length)) (by omega) (s := s₁) rfl (by omega)
              (by rw [hwrote.marked.server, hs])
          have hsent' := hwrote'.sent_le
          have hgot' := hwrote'.got_le
          refine ⟨done, s', buf ++ sent, buf.length + got, hrun.trans hrest, ?_, fun h => ?_,
            fun data h hdata => ?_⟩
          · refine ⟨by rw [hwrote'.out, hwrote.out, List.append_assoc],
              hwrote'.requests.trans hwrote.requests, ?_, by omega,
              hwrote.marked.trans (by omega) hwrote'.marked⟩
            rw [List.length_append]
            omega
          · rw [List.length_append, hdone h]
            omega
          · obtain ⟨htrue, hrest⟩ := hcalm' data h hdata
            have hsplit : endOffset - offset =
              buf.length + (endOffset - (offset + buf.length)) := by omega
            rw [hsplit, List.take_add, ← hcalm data h, List.drop_drop, hrest]
            exact ⟨htrue, rfl⟩
      · have hempty : endOffset - offset = 0 := by omega
        rw [writeContent, if_neg hlt, hempty]
        refine ⟨true, s, [], 0, rfl, ?_, fun _ => rfl, fun data _ _ => ⟨rfl, rfl⟩⟩
        exact ⟨(List.append_nil _).symm, rfl, Nat.le_refl 0, Nat.zero_le _, Marked.refl n _ _⟩

end Ilo2.Media.Httplib
