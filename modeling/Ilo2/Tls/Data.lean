import Ilo2.Tls.Delivery

/-!
# Application data

After the handshake: `recv` returns the data of one record, `send` cuts data into records.

* `recv_feed` - a call of `recv` returns the next data, or times out and loses nothing.
* `drain` - a caller that receives to the end.
* `stream_delivered` - **whatever the chunks and the timeouts, the caller gets exactly the
  data that was sent; and what it sends itself is in records of 1 to `2 ^ 14` bytes**.
-/

namespace Ilo2.Tls

open Crypto Attempt

/-- A record of the data phase: data, or an alert that the client ignores. -/
inductive Piece.Talk : Piece → Prop
  | data {bs : List UInt8} : bs.length ≤ MAX_PLAINTEXT → Talk ⟨CT_APPLICATION_DATA, bs⟩
  | alert {bs : List UInt8} : Ignored bs → Talk ⟨CT_ALERT, bs⟩

theorem Piece.Talk.fits {p : Piece} (h : p.Talk) : p.Fits := by
  cases h with
  | data hlen => exact ⟨rfl, hlen⟩
  | alert hign => exact ⟨rfl, by rw [hign.length]; decide⟩

/-- The data in a sequence of pieces, record by record. -/
def plaintexts (ps : List Piece) : List (List UInt8) :=
  (ps.filter fun p => p.type = CT_APPLICATION_DATA).map Piece.data

theorem plaintexts_data (bs : List UInt8) (ps : List Piece) :
    plaintexts (⟨CT_APPLICATION_DATA, bs⟩ :: ps) = bs :: plaintexts ps := rfl

theorem plaintexts_alert (bs : List UInt8) (ps : List Piece) :
    plaintexts (⟨CT_ALERT, bs⟩ :: ps) = plaintexts ps := rfl

/-- The records of a sequence of pieces, one by one. -/
def sealRecords : RecordLayer → List Piece → List (List UInt8)
  | _, [] => []
  | w, p :: ps => (sendPiece w p).1 :: sealRecords (sendPiece w p).2 ps

namespace ClientT

variable {T : Type} [Transport T]

/-! ### Receiving -/

/-- The alert that ends the stream. -/
abbrev closed : Stop := .failed "peer sent close_notify"

/-- A caller that receives to the end: after a timeout it calls again.  What it got, what
stopped it if anything did, and the client after that. -/
def drain (records : Nat) : (calls : Nat) → ClientT T →
    List (List UInt8) × Option Stop × ClientT T
  | 0, c => ([], none, c)
  | calls + 1, c =>
      match recv records c with
      | (.ok data, c) =>
          let (got, stop, c) := drain records calls c
          (data :: got, stop, c)
      | (.error e, c) =>
          if e = .failed "timed out waiting for data" then drain records calls c
          else ([], some e, c)

/-- A call of `drain` that times out is made again. -/
theorem drain_timedOut {records calls : Nat} {c c' : ClientT T}
    (h : Fails (recv records) c (.failed "timed out waiting for data") c') :
    drain records (calls + 1) c = drain records calls c' := by
  rw [drain, h]
  rfl

variable [Piped T] {w' : RecordLayer} {p : Piece} {ps qs : List Piece} {rest : List UInt8}
  {c : ClientT T}

/-- The client after a call of `recv` that timed out: what is left to read has the same data. -/
structure Waited (w' : RecordLayer) (ps qs : List Piece) (rest : List UInt8)
    (c c' : ClientT T) (left : List Piece) : Prop where
  feed : Feed w' (left ++ qs) rest c'
  talk : ∀ p ∈ left, p.Talk
  same : plaintexts left = plaintexts ps
  less : left.length ≤ ps.length
  kept : Kept c c'
  waits : Piped.waits c'.sock < Piped.waits c.sock

/-- The record that comes next is an alert to ignore: `recv` goes on after it. -/
theorem recv_alert {body : List UInt8} (hfeed : Feed w' (⟨CT_ALERT, body⟩ :: qs) rest c)
    (hign : Ignored body) (records : Nat) :
    (∃ c', recv (records + 1) c = recv records c' ∧ Feed w' qs rest c' ∧ Kept c c') ∨
      ∃ c', Fails (recv (records + 1)) c timedOut c' ∧
        Feed w' (⟨CT_ALERT, body⟩ :: qs) rest c' ∧ Kept c c' ∧
        Piped.waits c'.sock < Piped.waits c.sock := by
  rcases readRecord_feed hfeed (Piece.Talk.alert hign).fits with
    ⟨h, c₁, hread, htype, hfeed₁, hkept⟩ | ⟨c₁, hfail, hrest⟩
  · refine Or.inl ⟨c₁, ?_, hfeed₁, hkept⟩
    have hnot : ¬ h.type = CT_APPLICATION_DATA := by
      rw [htype]
      exact (by decide : ¬ CT_ALERT = CT_APPLICATION_DATA)
    rw [recv, hread.run_bind]
    dsimp only
    rw [if_neg hnot, if_pos htype, (handleAlert_ignored hign).run_bind]
  · exact Or.inr ⟨c₁, hfail.bind, hrest⟩

/-- **The next data.**  It is returned, or the call times out and nothing is lost. -/
theorem recv_feed (hfeed : Feed w' (ps ++ qs) rest c) (hps : ∀ p ∈ ps, p.Talk)
    {data : List UInt8} {more : List (List UInt8)} (hdata : plaintexts ps = data :: more)
    {records : Nat} (hrecords : ps.length ≤ records) :
    (∃ left c', Returns (recv records) c data c' ∧ Feed w' (left ++ qs) rest c' ∧
        (∀ p ∈ left, p.Talk) ∧ plaintexts left = more ∧ left.length < ps.length ∧ Kept c c') ∨
      ∃ left c', Fails (recv records) c timedOut c' ∧ Waited w' ps qs rest c c' left := by
  induction ps generalizing c records with
  | nil => cases hdata
  | cons p ps ih =>
      obtain ⟨records, rfl⟩ : ∃ n, records = n + 1 := ⟨records - 1, by simp at hrecords; omega⟩
      have hless : ps.length ≤ records := Nat.le_of_succ_le_succ hrecords
      have htail : ∀ p ∈ ps, p.Talk := fun q hq => hps q (List.mem_cons_of_mem p hq)
      cases hps p List.mem_cons_self with
      | @data bs hlen =>
          rw [plaintexts_data] at hdata
          obtain ⟨rfl, rfl⟩ := List.cons.inj hdata
          rcases readRecord_feed hfeed (Piece.Talk.data hlen).fits with
            ⟨h, c₁, hread, htype, hfeed₁, hkept⟩ | ⟨c₁, hfail, hfeed₁, hkept, hwaits⟩
          · refine Or.inl ⟨ps, c₁, hread.bind ?_, hfeed₁, htail, rfl, Nat.lt_succ_self _, hkept⟩
            dsimp only
            rw [if_pos htype]
            exact pure_returns _
          · exact Or.inr ⟨_, c₁, hfail.bind, hfeed₁, hps, rfl, Nat.le_refl _, hkept, hwaits⟩
      | @alert bs hign =>
          rw [plaintexts_alert] at hdata
          rcases recv_alert hfeed hign records with
            ⟨c₁, hrecv, hfeed₁, hkept⟩ | ⟨c₁, hfail, hfeed₁, hkept, hwaits⟩
          · unfold Returns Fails
            rw [hrecv]
            rcases ih hfeed₁ htail hdata hless with
              ⟨left, c₂, hret, hfeed₂, hleft, hmore, hlt, hkept₂⟩ | ⟨left, c₂, hfail, hw⟩
            · exact Or.inl ⟨left, c₂, hret, hfeed₂, hleft, hmore, Nat.lt_succ_of_lt hlt,
                hkept.trans hkept₂⟩
            · exact Or.inr ⟨left, c₂, hfail, hw.feed, hw.talk, hw.same, Nat.le_succ_of_le hw.less,
                hkept.trans hw.kept, Nat.lt_of_lt_of_le hw.waits hkept.waits⟩
          · exact Or.inr ⟨_, c₁, hfail, hfeed₁, hps, rfl, Nat.le_refl _, hkept, hwaits⟩

/-- Without data, the call that finds the end of the stream says so. -/
theorem recv_close {level : UInt8}
    (hfeed : Feed w' (ps ++ ⟨CT_ALERT, [level, 0]⟩ :: qs) rest c) (hps : ∀ p ∈ ps, p.Talk)
    (hdata : plaintexts ps = []) {records : Nat} (hrecords : ps.length < records) :
    (∃ c', Fails (recv records) c closed c' ∧ c'.eof = true) ∨
      ∃ left c', Fails (recv records) c timedOut c' ∧
        Waited w' ps (⟨CT_ALERT, [level, 0]⟩ :: qs) rest c c' left := by
  induction ps generalizing c records with
  | nil =>
      obtain ⟨records, rfl⟩ : ∃ n, records = n + 1 := ⟨records - 1, by simp at hrecords; omega⟩
      rcases readRecord_feed hfeed ⟨rfl, (by decide : 2 ≤ MAX_PLAINTEXT)⟩ with
        ⟨h, c₁, hread, htype, -, -⟩ | ⟨c₁, hfail, hfeed₁, hkept, hwaits⟩
      · have hnot : ¬ h.type = CT_APPLICATION_DATA := by
          rw [htype]
          exact (by decide : ¬ CT_ALERT = CT_APPLICATION_DATA)
        refine Or.inl ⟨{ c₁ with eof := true }, hread.bind_fails ?_, rfl⟩
        dsimp only
        rw [if_neg hnot, if_pos htype]
        rfl
      · exact Or.inr ⟨[], c₁, hfail.bind, hfeed₁, hps, rfl, Nat.le_refl _, hkept, hwaits⟩
  | cons p ps ih =>
      obtain ⟨records, rfl⟩ : ∃ n, records = n + 1 := ⟨records - 1, by simp at hrecords; omega⟩
      have hless : ps.length < records := Nat.lt_of_succ_lt_succ hrecords
      have htail : ∀ p ∈ ps, p.Talk := fun q hq => hps q (List.mem_cons_of_mem p hq)
      cases hps p List.mem_cons_self with
      | @data bs _ => cases hdata
      | @alert bs hign =>
          rcases recv_alert hfeed hign records with
            ⟨c₁, hrecv, hfeed₁, hkept⟩ | ⟨c₁, hfail, hfeed₁, hkept, hwaits⟩
          · unfold Fails
            rw [hrecv]
            rcases ih hfeed₁ htail hdata hless with ⟨c₂, hfail, heof⟩ | ⟨left, c₂, hfail, hw⟩
            · exact Or.inl ⟨c₂, hfail, heof⟩
            · exact Or.inr ⟨left, c₂, hfail, hw.feed, hw.talk, hw.same, Nat.le_succ_of_le hw.less,
                hkept.trans hw.kept, Nat.lt_of_lt_of_le hw.waits hkept.waits⟩
          · exact Or.inr ⟨_, c₁, hfail, hfeed₁, hps, rfl, Nat.le_refl _, hkept, hwaits⟩

/-- The caller gets all the data, and then the end of the stream.  Every call uses up a
record or a timeout. -/
theorem drain_feed {level : UInt8} (hfeed : Feed w' (ps ++ ⟨CT_ALERT, [level, 0]⟩ :: qs) rest c)
    (hps : ∀ p ∈ ps, p.Talk) {records calls : Nat} (hrecords : ps.length < records)
    (hcalls : ps.length + Piped.waits c.sock < calls) :
    ∃ c', drain records calls c = (plaintexts ps, some closed, c') ∧ c'.eof = true := by
  induction calls generalizing c ps with
  | zero => exact absurd hcalls (Nat.not_lt_zero _)
  | succ calls ih =>
      have htimed : ∀ {left : List Piece} {c' : ClientT T}, Fails (recv records) c timedOut c' →
          Waited w' ps (⟨CT_ALERT, [level, 0]⟩ :: qs) rest c c' left →
            ∃ c'', drain records (calls + 1) c = (plaintexts ps, some closed, c'') ∧
              c''.eof = true := by
        intro left c' hfail hw
        have hless := hw.less
        have hwaits := hw.waits
        obtain ⟨c'', hdrain, heof⟩ := ih hw.feed hw.talk (Nat.lt_of_le_of_lt hless hrecords)
          (by omega)
        exact ⟨c'', by rw [drain_timedOut hfail, hdrain, hw.same], heof⟩
      rcases hdata : plaintexts ps with _ | ⟨data, more⟩
      · rcases recv_close hfeed hps hdata hrecords with ⟨c', hfail, heof⟩ | ⟨left, c', hfail, hw⟩
        · refine ⟨c', ?_, heof⟩
          rw [drain, hfail]
          exact if_neg (by decide)
        · exact hdata ▸ htimed hfail hw
      · rcases recv_feed hfeed hps hdata (Nat.le_of_lt hrecords) with
          ⟨left, c', hret, hfeed', hleft, hmore, hlt, hkept⟩ | ⟨left, c', hfail, hw⟩
        · have hwaits := hkept.waits
          obtain ⟨c'', hdrain, heof⟩ := ih hfeed' hleft (Nat.lt_trans hlt hrecords) (by omega)
          refine ⟨c'', ?_, heof⟩
          rw [drain, hret]
          dsimp only
          rw [hdrain, hmore]
        · exact hdata ▸ htimed hfail hw

/-! ### Sending -/

/-- The fragments that `send` cuts data into. -/
def fragments (data : List UInt8) : List (List UInt8) :=
  if _h : data = [] then []
  else data.take MAX_PLAINTEXT :: fragments (data.drop MAX_PLAINTEXT)
termination_by data.length
decreasing_by
  have hpos := List.length_pos_iff.mpr _h
  rw [List.length_drop, MAX_PLAINTEXT]
  omega

theorem flatten_fragments (data : List UInt8) : (fragments data).flatten = data := by
  induction data using fragments.induct with
  | case1 =>
      rw [fragments]
      rfl
  | case2 data h ih => rw [fragments, dif_neg h, List.flatten_cons, ih, List.take_append_drop]

theorem length_fragments {data chunk : List UInt8} (h : chunk ∈ fragments data) :
    1 ≤ chunk.length ∧ chunk.length ≤ MAX_PLAINTEXT := by
  induction data using fragments.induct with
  | case1 =>
      rw [fragments] at h
      cases h
  | case2 data hne ih =>
      rw [fragments, dif_neg hne] at h
      rcases List.mem_cons.mp h with rfl | h
      · have hpos := List.length_pos_iff.mpr hne
        rw [List.length_take, MAX_PLAINTEXT]
        omega
      · exact ih h

/-- A record that fits is sent, if the socket takes it. -/
theorem sendRecord_fits {T : Type} [Transport T] {p : Piece} (h : p.Fits) (c : ClientT T) :
    sendRecord p.type p.data c = match Transport.sendAll c.sock (sendPiece c.recLayer p).1 with
      | (true, sock) => (.ok (), { c with recLayer := (sendPiece c.recLayer p).2, sock := sock })
      | (false, sock) => (.error (.failed "socket write failed"),
          { c with recLayer := (sendPiece c.recLayer p).2, sock := sock }) := by
  have hprot : c.recLayer.protect p.type p.data =
      (some (sendPiece c.recLayer p).1, (sendPiece c.recLayer p).2) := by
    rw [sendPiece_fits h, RecordLayerT.protect_eq, if_neg (Nat.not_lt.mpr h.2)]
  rcases hsend : Transport.sendAll c.sock (sendPiece c.recLayer p).1 with ⟨_ | _, sock⟩
  · simp only [sendRecord, hprot, hsend]
  · simp only [sendRecord, hprot, hsend]

/-- The transport takes these writes, one after the other. -/
def Accepts {T : Type} [Transport T] : T → List (List UInt8) → Prop
  | _, [] => True
  | t, r :: rs => (Transport.sendAll t r).1 = true ∧ Accepts (Transport.sendAll t r).2 rs

/-- **`send` returns** when the transport takes its records. -/
theorem send_accepted {T : Type} [Transport T] (data : List UInt8) {c : ClientT T}
    (h : Accepts c.sock
      (sealRecords c.recLayer ((fragments data).map (Piece.mk CT_APPLICATION_DATA)))) :
    ∃ c', Returns (send data) c () c' := by
  induction data using fragments.induct generalizing c with
  | case1 =>
      rw [send]
      exact ⟨c, rfl⟩
  | case2 data hne ih =>
      have hfits : (Piece.mk CT_APPLICATION_DATA (data.take MAX_PLAINTEXT)).Fits :=
        ⟨rfl, List.length_take_le _ _⟩
      have hrec := sendRecord_fits hfits c
      rw [fragments, dif_neg hne, List.map_cons, sealRecords] at h
      obtain ⟨hone, hrest⟩ := h
      rw [send, dif_neg hne]
      rcases hsend : Transport.sendAll c.sock
        (sendPiece c.recLayer ⟨CT_APPLICATION_DATA, data.take MAX_PLAINTEXT⟩).1 with ⟨ok, sock⟩
      rw [hsend] at hone hrest
      obtain rfl : ok = true := hone
      dsimp only at hrec
      rw [hsend] at hrec
      obtain ⟨c', hret⟩ := ih (c := { c with
        recLayer := (sendPiece c.recLayer ⟨CT_APPLICATION_DATA, data.take MAX_PLAINTEXT⟩).2
        sock := sock }) hrest
      exact ⟨c', Returns.bind hrec hret⟩

/-- What `send` puts on the wire: all the records, or those up to a write that failed. -/
theorem send_sealed {T : Type} [Transport T] [Observed T] (data : List UInt8) {c c' : ClientT T}
    {res : Except Stop Unit} (h : send data c = (res, c')) :
    (res = .ok () ∧ Observed.sent c'.sock = Observed.sent c.sock ++
        sealRecords c.recLayer ((fragments data).map (Piece.mk CT_APPLICATION_DATA))) ∨
      res = .error (.failed "socket write failed") ∧ ∃ n, Observed.sent c'.sock =
        Observed.sent c.sock ++
          (sealRecords c.recLayer ((fragments data).map (Piece.mk CT_APPLICATION_DATA))).take n := by
  induction data using fragments.induct generalizing c with
  | case1 =>
      rw [send] at h
      cases h
      rw [fragments]
      exact Or.inl ⟨rfl, (List.append_nil _).symm⟩
  | case2 data hne ih =>
      have hfits : (Piece.mk CT_APPLICATION_DATA (data.take MAX_PLAINTEXT)).Fits :=
        ⟨rfl, List.length_take_le _ _⟩
      have hrec := sendRecord_fits hfits c
      rw [fragments, dif_neg hne, List.map_cons, sealRecords]
      rw [send, dif_neg hne] at h
      rcases hsend : Transport.sendAll c.sock
        (sendPiece c.recLayer ⟨CT_APPLICATION_DATA, data.take MAX_PLAINTEXT⟩).1 with ⟨ok, sock⟩
      have hsent := Observed.sent_sendAll hsend
      dsimp only at hrec
      rw [hsend] at hrec
      cases ok with
      | true =>
          rw [Returns.run_bind hrec] at h
          rcases ih h with ⟨hres, hall⟩ | ⟨hres, n, hsome⟩
          · refine Or.inl ⟨hres, ?_⟩
            rw [hall, hsent, List.append_assoc]
            rfl
          · refine Or.inr ⟨hres, n + 1, ?_⟩
            rw [hsome, hsent, List.append_assoc]
            rfl
      | false =>
          have hfail := @Fails.bind _ _ _ _ _ _ _ _ (fun _ => send (data.drop MAX_PLAINTEXT)) hrec
          rw [hfail] at h
          cases h
          exact Or.inr ⟨rfl, 1, hsent⟩

end ClientT

/-! ### Socket reads -/

/-- What a socket read finds: nothing in time, or a chunk of at least one byte. -/
inductive Arrival where
  | timeout
  | chunk (b : UInt8) (bs : List UInt8)

/-- The socket reads to come.  After them there are only timeouts. -/
abbrev Script := List Arrival

namespace Script

/-- The bytes of a chunk that were not read are there for the next read. -/
def arrive : List UInt8 → Script → Script
  | [], s => s
  | b :: bs, s => .chunk b bs :: s

def recv : Script → Nat → RecvResult × Script
  | [], _ => (.timeout, [])
  | .timeout :: s, _ => (.timeout, s)
  | .chunk b bs :: s, cap => (.bytes ((b :: bs).take cap), arrive ((b :: bs).drop cap) s)

instance : Transport Script := ⟨recv, fun s _ => (true, s)⟩

def wire : Script → List UInt8
  | [] => []
  | .timeout :: s => wire s
  | .chunk b bs :: s => b :: bs ++ wire s

def waits : Script → Nat
  | [] => 0
  | .timeout :: s => waits s + 1
  | .chunk _ _ :: s => waits s

theorem wire_arrive (bs : List UInt8) (s : Script) : wire (arrive bs s) = bs ++ wire s := by
  cases bs <;> rfl

theorem waits_arrive (bs : List UInt8) (s : Script) : waits (arrive bs s) = waits s := by
  cases bs <;> rfl

instance : Piped Script where
  wire := wire
  waits := waits
  wire_recv {s s' cap r} h := by
    replace h : recv s cap = (r, s') := h
    cases s with
    | nil =>
        cases h
        rfl
    | cons a s =>
        cases a with
        | timeout =>
            cases h
            rfl
        | chunk b bs =>
            cases h
            rw [wire_arrive, wire, RecvResult.data, ← List.append_assoc, List.take_append_drop]
  ready {s s' cap r} hcap hwire h := by
    replace h : recv s cap = (r, s') := h
    cases s with
    | nil => exact absurd rfl hwire
    | cons a s =>
        cases a with
        | timeout =>
            cases h
            exact Or.inl ⟨rfl, Nat.lt_succ_self _⟩
        | chunk b bs =>
            cases h
            refine Or.inr ⟨?_, Nat.le_of_eq (waits_arrive _ s)⟩
            obtain ⟨cap, rfl⟩ : ∃ n, cap = n + 1 := ⟨cap - 1, by omega⟩
            rw [RecvResult.data, List.take_succ_cons]
            exact List.cons_ne_nil _ _

end Script

open ClientT

/-- **Application data arrives as it was sent.**

* A peer in step sends records of data, alerts to ignore in between, and `close_notify`.
  However the socket cuts these bytes into chunks, and wherever it times out, a caller that
  goes on after timeouts gets exactly the data, one record a call, and then the end.
* `send` cuts any data into records of 1 to `2 ^ 14` bytes.  When the transport takes them it
  returns, and has written them; it fails only at a write that fails. -/
theorem stream_delivered :
    (∀ (w : RecordLayer) (c : ClientT Script) (ps : List Piece) (level : UInt8)
        (rest : List UInt8) (records calls : Nat), w.InStep c.recLayer → (∀ p ∈ ps, p.Talk) →
      c.rx ++ c.sock.wire = (sendPieces w (ps ++ [⟨CT_ALERT, [level, 0]⟩])).1 ++ rest →
      ps.length < records → ps.length + c.sock.waits < calls →
        ∃ c', drain records calls c =
          (plaintexts ps, some (.failed "peer sent close_notify"), c') ∧ c'.eof = true) ∧
    ∀ data : List UInt8, ∃ chunks : List (List UInt8), chunks.flatten = data ∧
      (∀ chunk ∈ chunks, 1 ≤ chunk.length ∧ chunk.length ≤ 2 ^ 14) ∧
      ∀ {T : Type} [Transport T] [Observed T] (c : ClientT T),
        (Accepts c.sock (sealRecords c.recLayer (chunks.map (Piece.mk CT_APPLICATION_DATA))) →
          ∃ c', Returns (send data) c () c') ∧
        (∀ c', Returns (send data) c () c' → Observed.sent c'.sock = Observed.sent c.sock ++
          sealRecords c.recLayer (chunks.map (Piece.mk CT_APPLICATION_DATA))) ∧
        ∀ e c', Fails (send data) c e c' → e = .failed "socket write failed" ∧ ∃ n,
          Observed.sent c'.sock = Observed.sent c.sock ++
            (sealRecords c.recLayer (chunks.map (Piece.mk CT_APPLICATION_DATA))).take n := by
  refine ⟨fun w c ps level rest records calls hin hps hbytes hrecords hcalls => ?_, fun data => ?_⟩
  · exact drain_feed ⟨w, hin, rfl, hbytes⟩ hps hrecords hcalls
  · refine ⟨fragments data, flatten_fragments data, fun _ => length_fragments,
      fun c => ⟨send_accepted data, fun c' hret => ?_, fun e c' hfail => ?_⟩⟩
    · rcases send_sealed data hret with ⟨-, h⟩ | ⟨h, -⟩
      · exact h
      · cases h
    · rcases send_sealed data hfail with ⟨h, -⟩ | ⟨h, hn⟩
      · cases h
      · cases h
        exact ⟨rfl, hn⟩

/-- A scripted socket takes every write. -/
theorem Script.accepts (rs : List (List UInt8)) : ∀ t : Logged Script, Accepts t rs := by
  induction rs with
  | nil => intro t; trivial
  | cons r rs ih => intro t; exact ⟨rfl, ih _⟩

/-- A record, a warning and the end, in three chunks with timeouts in between; and 20000 bytes
that are sent. -/
theorem stream_delivered_sample :
    (∃ c' : ClientT Script, drain 3 6
        { sock := [.timeout, .chunk 23 [3, 1, 0], .timeout, .chunk 1 [104, 21, 3, 1, 0, 2, 1],
            .timeout, .chunk 90 [21, 3, 1, 0, 2, 1, 0]]
          rng := [] } =
        ([[104]], some (.failed "peer sent close_notify"), c') ∧ c'.eof = true) ∧
    ∃ (chunks : List (List UInt8)) (c' : ClientT (Logged Script)),
      chunks.flatten = List.replicate 20000 7 ∧
      Returns (send (List.replicate 20000 7)) { sock := { sock := [] }, rng := [] } () c' ∧
      c'.sock.sent = sealRecords {} (chunks.map (Piece.mk CT_APPLICATION_DATA)) := by
  constructor
  · refine stream_delivered.1 {} _ [⟨CT_APPLICATION_DATA, [104]⟩, ⟨CT_ALERT, [1, 90]⟩] 1 [] 3 6
      ⟨rfl, rfl⟩ ?_ rfl (by decide) (by decide)
    intro p hp
    rcases List.mem_cons.mp hp with rfl | hp
    · exact .data (by decide)
    · rw [List.mem_singleton.mp hp]
      exact .alert (ignored_warning (by decide))
  · obtain ⟨chunks, hflat, -, hsend⟩ := stream_delivered.2 (List.replicate 20000 7)
    obtain ⟨hreturns, hsent, -⟩ := hsend ({ sock := { sock := [] }, rng := [] } :
      ClientT (Logged Script))
    obtain ⟨c', hret⟩ := hreturns (Script.accepts _ _)
    exact ⟨chunks, c', hflat, hret, hsent c' hret⟩

end Ilo2.Tls
