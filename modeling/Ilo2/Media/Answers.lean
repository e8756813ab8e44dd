import Ilo2.Media.Respond

/-!
# Requests and answers

What `process_request` answers, on the whole: the head and the body of an answer agree, whichever
ranges are served, and whatever happens while the body is written.

* `multipart` - the three uses of `process_multipart_ranges_data`.
* `head_body` - what is announced is the length of the body.
* `never_too_long` - **the body never has more bytes than were announced**.
* `answers` - **what is answered if nothing fails**, to any request.
* `range_request` - **the request of the firmware**: one range, with any zeros before its numbers.
-/

namespace Ilo2.Media.Httplib

open MediaServer Checked Intervals
open Strtol (decimal Numeric)
open Tls (ascii)

/-! ### Bodies -/

/-- `body` has been written, as far as it went; `data` is the image. -/
structure Writes (data : List UInt8) (env : Nat → Moment) (s s' : Sending) (done : Bool)
    (body : List UInt8) : Prop where
  le : s'.out.length ≤ s.out.length + body.length
  whole : done = true → (∀ k, (env k).cut = none) → s'.out.length = s.out.length + body.length
  calm : Calm data env → done = true ∧ s'.out = s.out ++ body
  server : s'.server.server = s.server.server
  requests : s'.requests = s.requests

variable {env : Nat → Moment} {data : List UInt8} {s s' s'' : Sending} {done : Bool}
  {body body' : List UInt8}

theorem Writes.trans (h : Writes data env s s' true body) (h' : Writes data env s' s'' done body') :
    Writes data env s s'' done (body ++ body') where
  le := by
    have hle := h.le
    have hle' := h'.le
    rw [List.length_append]
    omega
  whole hdone hcut := by
    have hwhole := h.whole rfl hcut
    have hwhole' := h'.whole hdone hcut
    rw [List.length_append]
    omega
  calm hcalm := by
    obtain ⟨hdone, hout⟩ := h'.calm hcalm
    exact ⟨hdone, by rw [hout, (h.calm hcalm).2, List.append_assoc]⟩
  server := h'.server.trans h.server
  requests := h'.requests.trans h.requests

/-- What has stopped is not continued. -/
theorem Writes.stop (h : Writes data env s s' false body) (body' : List UInt8) :
    Writes data env s s' false (body ++ body') where
  le := by
    have hle := h.le
    rw [List.length_append]
    omega
  whole hdone := by cases hdone
  calm hcalm := by cases (h.calm hcalm).1
  server := h.server
  requests := h.requests

/-- A part of the image, on its own. -/
theorem writes_content (env : Nat → Moment) (hsize : data.length < 2 ^ 54) {offset length : Nat}
    (hinside : offset + length ≤ data.length) (hs : s.server.server.size = data.length) :
    ∃ done s' got, writeContent env offset (offset + length) s = .ok (done, s') ∧
      Writes data env s s' done ((data.drop offset).take length) ∧
      Marked data.length offset got s.server s'.server ∧
      (done = true → got = length ∧ s'.out.length = s.out.length + length) := by
  obtain ⟨done, s', sent, got, hrun, hwrote, hdone, hcalm⟩ :=
    writeContent_ok env hsize hinside _ rfl (Nat.le_add_right offset length) hs
  rw [Nat.add_sub_cancel_left] at hdone hcalm
  have hlen : ((data.drop offset).take length).length = length := by
    rw [List.length_take, List.length_drop]
    omega
  have hsent := hwrote.sent_le
  have hgot := hwrote.got_le
  refine ⟨done, s', got, hrun, ⟨?_, fun h _ => ?_, fun h => ?_, hwrote.marked.server,
    hwrote.requests⟩, hwrote.marked, fun h => ⟨?_, ?_⟩⟩
  · rw [hwrote.out, List.length_append, hlen]
    omega
  · rw [hwrote.out, List.length_append, hlen, hdone h]
  · obtain ⟨htrue, hsent⟩ := hcalm data h rfl
    exact ⟨htrue, by rw [hwrote.out, hsent]⟩
  · have := hdone h
    omega
  · rw [hwrote.out, List.length_append, hdone h]

/-- Tokens are written whatever becomes of them. -/
theorem writes_tokens (data : List UInt8) (env : Nat → Moment) (tokens : List (List UInt8)) :
    ∀ s : Sending, Writes data env s (tokens.foldl (fun s t => writeToken env t s) s) true
      tokens.flatten := by
  induction tokens with
  | nil =>
      intro s
      exact ⟨Nat.le_refl _, fun _ _ => rfl, fun _ => ⟨rfl, (List.append_nil _).symm⟩, rfl, rfl⟩
  | cons t tokens ih =>
      intro s
      have hone : Writes data env s (writeToken env t s) true t := by
        have htake : (∀ k, (env k).cut = none) →
            t.take ((env s.step).cut.getD t.length) = t := by
          intro hcut
          rw [hcut, Option.getD_none, List.take_length]
        refine ⟨?_, fun _ hcut => ?_, fun hcalm => ⟨rfl, ?_⟩, rfl, rfl⟩
        · rw [writeToken, List.length_append, List.length_take]
          omega
        · rw [writeToken, List.length_append, htake hcut]
        · rw [writeToken, htake fun k => (hcalm k).2.2.2]
      rw [List.foldl_cons, List.flatten_cons]
      exact hone.trans (ih _)

/-! ### Several ranges -/

/-- **One body, in three readings**: the bytes of `make_multipart_ranges_data`, their number, and
what `write_multipart_ranges_data` writes of them. -/
theorem multipart (hsize : data.length < 2 ^ 54) (boundary contentType : List UInt8)
    (ranges : List Range) (hinside : ∀ r ∈ ranges, Inside data.length r) :
    ∃ body : List UInt8,
      (∀ out, processMultipartRangesData boundary contentType data.length (fun t out => out ++ t)
        (fun offset length out => .ok (true, out ++ (data.drop offset).take length)) ranges out =
          .ok (true, out ++ body)) ∧
      (∀ k, processMultipartRangesData boundary contentType data.length (fun t k => k + t.length)
        (fun _ length k => .ok (true, k + length)) ranges k = .ok (true, k + body.length)) ∧
      ∀ (env : Nat → Moment) (s : Sending), s.server.server.size = data.length →
        ∃ done s', writeMultipartRangesData env boundary contentType data.length ranges s =
          .ok (done, s') ∧ Writes data env s s' done body := by
  have hbytes (tokens : List (List UInt8)) : ∀ out : List UInt8,
      tokens.foldl (fun out t => out ++ t) out = out ++ tokens.flatten := by
    induction tokens with
    | nil => intro out; exact (List.append_nil _).symm
    | cons t tokens ih =>
        intro out
        rw [List.foldl_cons, ih, List.flatten_cons, List.append_assoc]
  have hlengths (tokens : List (List UInt8)) : ∀ k : Nat,
      tokens.foldl (fun k t => k + t.length) k = k + tokens.flatten.length := by
    induction tokens with
    | nil => intro k; rfl
    | cons t tokens ih =>
        intro k
        rw [List.foldl_cons, ih, List.flatten_cons, List.length_append, Nat.add_assoc]
  induction ranges with
  | nil =>
      refine ⟨[ascii "--", boundary, ascii "--"].flatten, fun out => ?_, fun k => ?_,
        fun env s _ => ?_⟩
      · rw [processMultipartRangesData, hbytes]
      · rw [processMultipartRangesData, hlengths]
      · exact ⟨true, _, rfl, writes_tokens data env _ s⟩
  | cons r ranges ih =>
      obtain ⟨rest, hrest, hcount, hwrite⟩ := ih fun r hr => hinside r (List.mem_cons_of_mem _ hr)
      obtain ⟨h0, hle, hlt⟩ := hinside r List.mem_cons_self
      obtain ⟨offset, length, hrange, hfit⟩ : ∃ offset length,
          getRangeOffsetAndLength r = (offset, length) ∧ offset + length ≤ data.length :=
        ⟨_, _, rfl, by omega⟩
      have hpart : ((data.drop offset).take length).length = length := by
        rw [List.length_take, List.length_drop]
        omega
      refine ⟨(partTokens boundary contentType data.length r).flatten ++
        ((data.drop offset).take length ++ (CRLF ++ rest)), fun out => ?_, fun k => ?_,
        fun env s hs => ?_⟩
      · rw [processMultipartRangesData, hbytes, hrange]
        dsimp only
        rw [ok_bind, if_pos rfl, hrest]
        simp only [List.append_assoc]
      · rw [processMultipartRangesData, hlengths, hrange]
        dsimp only
        rw [ok_bind, if_pos rfl, hcount]
        simp only [List.length_append, hpart, Nat.add_assoc]
      · have htokens := writes_tokens data env (partTokens boundary contentType data.length r) s
        obtain ⟨done, s₁, got, hrun, hwrites, -⟩ := writes_content env hsize hfit
          (htokens.server ▸ hs)
        rw [writeMultipartRangesData, processMultipartRangesData, hrange]
        dsimp only
        rw [hrun, ok_bind]
        cases done with
        | false => exact ⟨false, s₁, rfl, htokens.trans (hwrites.stop _)⟩
        | true =>
            dsimp only
            rw [if_pos rfl]
            have hcrlf : Writes data env s₁ (writeToken env CRLF s₁) true CRLF := by
              have h := writes_tokens data env [CRLF] s₁
              rwa [List.flatten_singleton] at h
            obtain ⟨done, s₂, hrun', hwrites'⟩ := hwrite env (writeToken env CRLF s₁)
              (by rw [hcrlf.server, hwrites.server, htokens.server, hs])
            exact ⟨done, s₂, hrun', htokens.trans (hwrites.trans (hcrlf.trans hwrites'))⟩

/-! ### Requests -/

/-- The ranges that are served, if the request is not refused. -/
def served (sort : StdSort) (n : Nat) (range : Option (List UInt8)) : Option (List Range) :=
  range.elim (some []) fun header => (parseRangeHeader header).bind (rangeError sort n)

/-- The body of an answer, if it is written to the end. -/
def IsBody (boundary data : List UInt8) : List Range → List UInt8 → Prop
  | [], body => body = data
  | [r], body =>
      body = (data.drop (getRangeOffsetAndLength r).1).take (getRangeOffsetAndLength r).2
  | ranges, body =>
      makeMultipartRangesData boundary (ascii "application/octet-stream") data ranges =
        .ok (true, body)

theorem served_inside {sort : StdSort} {n : Nat} {range : Option (List UInt8)} {ranges : List Range}
    (h : served sort n range = some ranges) : ∀ r ∈ ranges, Inside n r := by
  cases range with
  | none =>
      cases h
      simp
  | some header =>
      obtain ⟨asked, hparse, hcheck⟩ := Option.bind_eq_some_iff.mp h
      exact (ranges_served sort hparse hcheck).2.1

/-- **Head and body agree**: what is announced is the length of the body, whichever ranges are
served. -/
theorem head_body (hsize : data.length < 2 ^ 54) (boundary : List UInt8) {ranges : List Range}
    (hinside : ∀ r ∈ ranges, Inside data.length r) :
    ∃ head body, applyRanges boundary data.length ranges = .ok head ∧
      IsBody boundary data ranges body ∧ head.contentLength = decimal body.length ∧
      head.status = (if ranges = [] then 200 else 206) ∧
      ∀ (env : Nat → Moment) (s : Sending), s.server.server.size = data.length →
        ∃ done s', writeContentWithProvider env boundary data.length ranges s = .ok (done, s') ∧
          Writes data env s s' done body := by
  match ranges, hinside with
  | [], _ =>
      refine ⟨_, data, rfl, rfl, rfl, rfl, fun env s hs => ?_⟩
      obtain ⟨done, s', got, hrun, hwrites, -⟩ :=
        writes_content env hsize (show 0 + data.length ≤ data.length by omega) hs
      rw [Nat.zero_add] at hrun
      rw [List.drop_zero, List.take_length] at hwrites
      exact ⟨done, s', hrun, hwrites⟩
  | [r], hinside =>
      obtain ⟨h0, hle, hlt⟩ := hinside r List.mem_cons_self
      have hfit : (getRangeOffsetAndLength r).1 + (getRangeOffsetAndLength r).2 ≤ data.length := by
        unfold getRangeOffsetAndLength
        dsimp only
        omega
      have hlen : ((data.drop (getRangeOffsetAndLength r).1).take
          (getRangeOffsetAndLength r).2).length = (getRangeOffsetAndLength r).2 := by
        rw [List.length_take, List.length_drop]
        omega
      refine ⟨_, _, rfl, rfl, ?_, rfl, fun env s hs => ?_⟩
      · rw [hlen]
      · obtain ⟨done, s', got, hrun, hwrites, -⟩ := writes_content env hsize hfit hs
        exact ⟨done, s', hrun, hwrites⟩
  | r :: r' :: ranges, hinside =>
      obtain ⟨body, hbytes, hcount, hwrite⟩ :=
        multipart hsize boundary (ascii "application/octet-stream") _ hinside
      have hhead : applyRanges boundary data.length (r :: r' :: ranges) = .ok
          { status := 206
            contentType := some (ascii "multipart/byteranges; boundary=" ++ boundary)
            contentLength := decimal body.length } := by
        rw [applyRanges, getMultipartRangesDataLength, hcount 0, Nat.zero_add]
        · rfl
        · simp
        · simp
      exact ⟨_, body, hhead, hbytes [], rfl, rfl, hwrite⟩

/-- The head of an answer goes first. -/
theorem writes_head (data : List UInt8) {env : Nat → Moment} {s : Sending} (body : List UInt8)
    (h : (env s.step).cut.isNone = false) :
    Writes data env s { s with step := s.step + 1 } false body := by
  refine ⟨Nat.le_add_right _ _, fun hdone => (by cases hdone), fun hcalm => ?_, rfl, rfl⟩
  rw [(hcalm s.step).2.2.2] at h
  cases h

/-- What is refused, is refused before the handler or behind it. -/
theorem served_eq {sort : StdSort} {n : Nat} {range : Option (List UInt8)} {asked : List Range}
    (h : range.elim (some []) parseRangeHeader = some asked) :
    (if asked = [] then some [] else rangeError sort n asked) = served sort n range := by
  cases range with
  | none =>
      cases h
      rfl
  | some header =>
      have hparse : parseRangeHeader header = some asked := h
      rw [if_neg (parseRangeHeader_valid hparse).1, served, Option.elim_some, hparse]
      rfl

/-- What becomes of a request: it is refused, or the ranges that are served are announced, and
their bytes are written unless it is a HEAD. -/
inductive Answered (sort : StdSort) (boundary data : List UInt8) (isHead : Bool)
    (range : Option (List UInt8)) (env : Nat → Moment) (s : Sending) :
    Head → Bool → Sending → Prop where
  | refused {head : Head} {s' : Sending} (hserved : served sort data.length range = none)
      (hstatus : head.status = 416) (hlength : head.contentLength = decimal 0)
      (hout : s'.out = s.out) (hserver : s'.server = s.server) :
      Answered sort boundary data isHead range env s head (env s.step).cut.isNone s'
  | head {head : Head} {s' : Sending} {ranges : List Range} {body : List UInt8}
      (hserved : served sort data.length range = some ranges)
      (hbody : IsBody boundary data ranges body)
      (hlength : head.contentLength = decimal body.length)
      (hstatus : head.status = if ranges = [] then 200 else 206) (hhead : isHead = true)
      (hout : s'.out = s.out) (hserver : s'.server = s.server)
      (hrequests : s'.requests = s.requests + 1) :
      Answered sort boundary data isHead range env s head (env s.step).cut.isNone s'
  | body {head : Head} {done : Bool} {s' : Sending} {ranges : List Range} {body : List UInt8}
      (hserved : served sort data.length range = some ranges)
      (hbody : IsBody boundary data ranges body)
      (hlength : head.contentLength = decimal body.length)
      (hstatus : head.status = if ranges = [] then 200 else 206) (hget : isHead = false)
      (hwrites : Writes data env { s with requests := s.requests + 1 } s' done body) :
      Answered sort boundary data isHead range env s head done s'

/-- **A request and its answer**, in any surroundings. -/
theorem processRequest_ok (sort : StdSort) (boundary : List UInt8) (isHead : Bool)
    (range : Option (List UInt8)) (env : Nat → Moment) {s : Sending}
    (hs : s.server.server.size = data.length) (hsize : data.length < 2 ^ 54) :
    ∃ head done s', processRequest env sort boundary isHead range s = .ok (head, done, s') ∧
      Answered sort boundary data isHead range env s head done s' := by
  have hn : s.server.server.size.toNat = data.length := by omega
  rw [processRequest]
  cases hasked : range.elim (some []) parseRangeHeader with
  | none =>
      refine ⟨_, _, _, rfl, .refused ?_ rfl rfl rfl rfl⟩
      cases range with
      | none => cases hasked
      | some header =>
          have hparse : parseRangeHeader header = none := hasked
          rw [served, Option.elim_some, hparse]
          rfl
  | some asked =>
      dsimp only
      rw [hn, served_eq hasked]
      cases hserved : served sort data.length range with
      | none => exact ⟨_, _, _, rfl, .refused hserved rfl rfl rfl rfl⟩
      | some ranges =>
          dsimp only
          have hinside := served_inside hserved
          obtain ⟨head, body, hhead, hbody, hlength, hstatus, hwrite⟩ :=
            head_body hsize boundary hinside
          by_cases hempty : data.length = 0
          · -- Nothing is inside an empty image.
            have hnil : ranges = [] := by
              refine List.eq_nil_iff_forall_not_mem.mpr fun r hr => ?_
              have hr := hinside r hr
              unfold Inside at hr
              omega
            subst hnil
            have hdata : data = [] := List.length_eq_zero_iff.mp hempty
            rw [if_pos hempty]
            cases isHead with
            | true =>
                refine ⟨_, _, _, rfl, .head hserved rfl ?_ rfl rfl rfl rfl rfl⟩
                rw [hdata]
                rfl
            | false =>
                refine ⟨_, _, _, rfl, .body hserved rfl (by rw [hdata]; rfl) rfl rfl ?_⟩
                rw [hdata]
                refine ⟨Nat.le_refl _, fun _ _ => rfl, fun hcalm => ⟨?_, ?_⟩, rfl, rfl⟩
                · exact Option.isNone_iff_eq_none.mpr (hcalm _).2.2.2
                · exact (List.append_nil _).symm
          · rw [if_neg hempty, hhead, ok_bind]
            cases isHead with
            | true =>
                rw [if_pos (Or.inr rfl)]
                exact ⟨_, _, _, rfl, .head hserved hbody hlength hstatus rfl rfl rfl rfl⟩
            | false =>
                cases hfirst : (env s.step).cut.isNone with
                | false =>
                    simp only [writeHead, hfirst]
                    rw [if_pos (Or.inl trivial)]
                    exact ⟨_, _, _, rfl, .body hserved hbody hlength hstatus rfl
                      (writes_head data body hfirst)⟩
                | true =>
                    simp only [writeHead, hfirst]
                    rw [if_neg (by simp)]
                    obtain ⟨done, s', hrun, hwrites⟩ := hwrite env
                      { s with requests := s.requests + 1, step := s.step + 1 } hs
                    rw [hrun, ok_bind]
                    refine ⟨_, _, _, rfl, .body hserved hbody hlength hstatus rfl ?_⟩
                    exact ⟨hwrites.le, hwrites.whole, hwrites.calm, hwrites.server,
                      hwrites.requests⟩

/-- **The body never has more bytes than were announced**, whatever the file is when it is read,
and whatever happens while it is written; and if the answer to a GET is reported as written, with
all its tokens, it has as many. -/
theorem never_too_long (sort : StdSort) (boundary : List UInt8) (isHead : Bool)
    (range : Option (List UInt8)) (env : Nat → Moment) {s : Sending} {n : Nat}
    (hs : s.server.server.size = n) (hsize : n < 2 ^ 54) :
    ∃ head done s' length, processRequest env sort boundary isHead range s = .ok (head, done, s') ∧
      head.contentLength = decimal length ∧ s'.out.length ≤ s.out.length + length ∧
      (isHead = false → done = true → (∀ k, (env k).cut = none) →
        s'.out.length = s.out.length + length) := by
  have hlen : (List.replicate n (0 : UInt8)).length = n := List.length_replicate
  obtain ⟨head, done, s', hrun, hanswered⟩ := processRequest_ok sort boundary isHead range env
    (show s.server.server.size = (List.replicate n (0 : UInt8)).length by rw [hlen]; exact hs)
    (by rw [hlen]; exact hsize)
  cases hanswered with
  | refused _ _ hlength hout _ =>
      exact ⟨head, _, s', 0, hrun, hlength, Nat.le_of_eq (congrArg List.length hout),
        fun _ _ _ => congrArg List.length hout⟩
  | head _ _ hlength _ hhead hout _ _ =>
      refine ⟨head, _, s', _, hrun, hlength, by rw [hout]; exact Nat.le_add_right _ _, fun h => ?_⟩
      rw [hhead] at h
      cases h
  | body _ _ hlength _ _ hwrites =>
      exact ⟨head, done, s', _, hrun, hlength, hwrites.le, fun _ => hwrites.whole⟩

/-- The file of a server for four bytes has shrunk to two. -/
theorem never_too_long_shrunk :
    let s : Sending := { server := { server := { size := 4 } } }
    ∃ head done s' length,
      processRequest (fun _ => { file := some [1, 2], t := 5 }) insertionSort [] false none s =
        .ok (head, done, s') ∧ head.contentLength = decimal length ∧ s'.out.length ≤ length := by
  intro s
  obtain ⟨head, done, s', length, hrun, hlength, hle, -⟩ := never_too_long insertionSort [] false
    none (fun _ => { file := some [1, 2], t := 5 }) (s := s) (n := 4) rfl (by decide)
  exact ⟨head, done, s', length, hrun, hlength, by rwa [List.length_nil, Nat.zero_add] at hle⟩

/-- **What is answered if nothing fails**, to any request: it is refused if its ranges are, and
otherwise the body has the bytes of the image that are served, as many as were announced. -/
theorem answers (sort : StdSort) (boundary : List UInt8) (isHead : Bool)
    (range : Option (List UInt8)) {env : Nat → Moment} {data : List UInt8} (hcalm : Calm data env)
    {s : Sending} (hs : s.server.server.size = data.length) (hsize : data.length < 2 ^ 54) :
    ∃ head s', processRequest env sort boundary isHead range s = .ok (head, true, s') ∧
      (served sort data.length range = none →
        head.status = 416 ∧ head.contentLength = decimal 0 ∧ s'.out = s.out) ∧
      ∀ ranges, served sort data.length range = some ranges →
        ∃ body, IsBody boundary data ranges body ∧ head.contentLength = decimal body.length ∧
          head.status = (if ranges = [] then 200 else 206) ∧
          s'.out = s.out ++ (if isHead then [] else body) ∧ s'.requests = s.requests + 1 := by
  obtain ⟨head, done, s', hrun, hanswered⟩ :=
    processRequest_ok sort boundary isHead range env hs hsize
  have hcut : (env s.step).cut.isNone = true :=
    Option.isNone_iff_eq_none.mpr (hcalm s.step).2.2.2
  cases hanswered with
  | refused hserved hstatus hlength hout _ =>
      rw [hcut] at hrun
      refine ⟨head, s', hrun, fun _ => ⟨hstatus, hlength, hout⟩, fun ranges h => ?_⟩
      rw [hserved] at h
      cases h
  | head hserved hbody hlength hstatus hhead hout _ hrequests =>
      rw [hcut] at hrun
      refine ⟨head, s', hrun, fun h => ?_, fun ranges h => ?_⟩
      · rw [hserved] at h
        cases h
      · rw [hserved] at h
        cases h
        refine ⟨_, hbody, hlength, hstatus, ?_, hrequests⟩
        rw [hout, if_pos hhead, List.append_nil]
  | body hserved hbody hlength hstatus hget hwrites =>
      obtain ⟨rfl, hout⟩ := hwrites.calm hcalm
      refine ⟨head, s', hrun, fun h => ?_, fun ranges h => ?_⟩
      · rw [hserved] at h
        cases h
      · rw [hserved] at h
        cases h
        refine ⟨_, hbody, hlength, hstatus, ?_, hwrites.requests⟩
        rw [hout, if_neg (by rw [hget]; exact Bool.false_ne_true)]

/-- An image of ten bytes, and its server. -/
def tenBytes : List UInt8 := [0, 1, 2, 3, 4, 5, 6, 7, 8, 9]

theorem tenBytes_calm : Calm tenBytes fun _ => { file := some tenBytes, t := 5 } :=
  fun _ => ⟨rfl, rfl, rfl, rfl⟩

/-- Without a header the whole image is the body. -/
theorem answers_whole :
    let s : Sending := { server := { server := { size := 10 } } }
    ∃ head s', processRequest (fun _ => { file := some tenBytes, t := 5 }) insertionSort [] false
        none s = .ok (head, true, s') ∧ head.status = 200 ∧ s'.out = tenBytes := by
  intro s
  obtain ⟨head, s', hrun, -, hserved⟩ := answers insertionSort [] false none tenBytes_calm (s := s)
    rfl (by decide)
  obtain ⟨body, rfl, -, hstatus, hout, -⟩ := hserved [] rfl
  exact ⟨head, s', hrun, hstatus, hout⟩

/-! ### One range -/

/-- One range is served as far as the image goes. -/
theorem served_range (sort : StdSort) {n f l : Nat} {first last : List UInt8}
    (hfirst : Numeric first f) (hlast : Numeric last l) (hle : f ≤ l) (hfits : l < 2 ^ 63) (hf : f < n) :
    parseRangeHeader (ascii "bytes=" ++ (first ++ 0x2D :: last)) = some [((f : Int), (l : Int))] ∧
      rangeError sort n [((f : Int), (l : Int))] =
        some [((f : Int), ((min l (n - 1) : Nat) : Int))] := by
  constructor
  · refine (parseRangeHeader_iff _ _).mpr
      ⟨by simp, [first ++ 0x2D :: last], [some (f, l)], ?_, ?_, rfl⟩
    · have hspec : Spec (first ++ 0x2D :: last) ((f : Int), (l : Int)) :=
        .mk (.number hfirst (by omega)) (.number hlast hfits)
          ⟨by dsimp only; omega, fun _ _ => by dsimp only; omega⟩
      have helement := Element.spec (List.forall_mem_nil _) hspec (List.forall_mem_nil _)
      rw [List.nil_append, List.append_nil] at helement
      exact .cons helement .nil
    · rw [List.intercalate_singleton]
  · have hnormalise : normalise n ((f : Int), (l : Int)) =
        ((f : Int), ((min l (n - 1) : Nat) : Int)) := by
      have hfirst : ¬ (f : Int) = -1 := by omega
      simp only [normalise, hfirst, false_and, if_false, Prod.mk.injEq, true_and]
      split <;> omega
    have hwithin : isWithin n ((f : Int), ((min l (n - 1) : Nat) : Int)) = true :=
      isWithin_iff.mpr ⟨by dsimp only; omega, by dsimp only; omega, by dsimp only; omega⟩
    have hcheck : checkRanges n [] 0 [((f : Int), (l : Int))] =
        some [((f : Int), ((min l (n - 1) : Nat) : Int))] := by
      rw [checkRanges, hnormalise, if_neg (not_not.mpr hwithin), if_neg (by simp)]
      rfl
    have hone : ¬ [((f : Int), (l : Int))].length > CPPHTTPLIB_RANGE_MAX_COUNT := by
      rw [List.length_singleton]
      decide
    rw [rangeError, if_neg hone, hcheck]
    rfl

/-- **The request of the firmware** is for one range, with any zeros before its numbers.  If nothing
fails, the answer names the range, as far as the image goes, and has its bytes; they are counted,
and their buckets are marked. -/
theorem range_request (sort : StdSort) (boundary : List UInt8) {env : Nat → Moment}
    {data : List UInt8} (hcalm : Calm data env) {s : Sending}
    (hs : s.server.server.size = data.length) (hsize : data.length < 2 ^ 54) {f l : Nat}
    {first last : List UInt8} (hfirst : Numeric first f) (hlast : Numeric last l) (hle : f ≤ l)
    (hfits : l < 2 ^ 63) (hf : f < data.length) :
    let e := min l (data.length - 1)
    ∃ s', processRequest env sort boundary false
        (some (ascii "bytes=" ++ (first ++ 0x2D :: last))) s = .ok
          ({ status := 206
             contentType := some (ascii "application/octet-stream")
             contentRange := some (ascii "bytes " ++ decimal f ++ ascii "-" ++ decimal e ++
               ascii "/" ++ decimal data.length)
             contentLength := decimal (e + 1 - f) }, true, s') ∧
      s'.out = s.out ++ (data.drop f).take (e + 1 - f) ∧ s'.requests = s.requests + 1 ∧
      Marked data.length f (e + 1 - f) s.server s'.server := by
  intro e
  obtain ⟨hparse, hcheck⟩ := served_range sort (n := data.length) hfirst hlast hle hfits hf
  have hn : s.server.server.size.toNat = data.length := by omega
  have hrange : getRangeOffsetAndLength ((f : Int), ((min l (data.length - 1) : Nat) : Int)) =
      (f, e + 1 - f) := by
    unfold getRangeOffsetAndLength
    simp only [Prod.mk.injEq]
    omega
  obtain ⟨done, s', got, hrun, hwrites, hmarked, hdone⟩ := writes_content env hsize
    (show f + (e + 1 - f) ≤ data.length by omega)
    (s := { s with requests := s.requests + 1, step := s.step + 1 }) hs
  obtain ⟨rfl, hout⟩ := hwrites.calm hcalm
  obtain ⟨rfl, -⟩ := hdone rfl
  refine ⟨s', ?_, hout, hwrites.requests, hmarked⟩
  have hlast : f + (e + 1 - f) - 1 = e := by omega
  have hcut : (env s.step).cut.isNone = true :=
    Option.isNone_iff_eq_none.mpr (hcalm s.step).2.2.2
  rw [processRequest, Option.elim_some, hparse]
  dsimp only
  rw [hn, if_neg (by simp), hcheck]
  dsimp only
  rw [if_neg (by omega), applyRanges, hrange, ok_bind]
  simp only [writeHead, hcut, writeContentWithProvider, hrange, hrun, makeContentRangeHeaderField,
    hlast]
  rfl

/-- Zeros before the numbers, and an end behind the image. -/
theorem range_request_padded :
    let s : Sending := { server := { server := { size := 10 } } }
    ∃ head s', processRequest (fun _ => { file := some tenBytes, t := 5 }) insertionSort [] false
        (some (ascii "bytes=" ++
          (ascii "00000000000000000007" ++ 0x2D :: ascii "00000000000000002047"))) s =
          .ok (head, true, s') ∧
      head.contentRange = some (ascii "bytes 7-9/10") ∧ s'.out = [7, 8, 9] := by
  intro s
  obtain ⟨s', hrun, hout, -⟩ := range_request insertionSort [] tenBytes_calm (s := s) rfl
    (by decide) (show Numeric (ascii "00000000000000000007") 7 by decide +kernel)
    (show Numeric (ascii "00000000000000002047") 2047 by decide +kernel) (by decide) (by decide)
    (by decide)
  exact ⟨_, s', hrun, by decide +kernel, hout⟩

end Ilo2.Media.Httplib
