import Ilo2.Tls.Agreement

/-!
# After the handshake

What the two sides do once they are linked: the client sends and receives, the server
sends data and alerts.

* `converse` - a sequence of such events.
* `converse_linked` - each side gets what the other one sends, in order.
* `agreement` - **the handshake with an honest server returns, the server accepts it, and
  from then on each side recovers exactly what the other one sends**.
-/

namespace Ilo2.Tls

open Crypto Attempt

/-- The server sends a piece of its own. -/
def Network.push (t : Network) (p : Piece) : Network :=
  let (record, server) := t.server.push p
  { t with server := server, wire := t.wire ++ record }

/-- What happens after the handshake. -/
inductive Event where
  /-- The client sends. -/
  | up (data : List UInt8)
  /-- The server sends a record of data. -/
  | down (data : List UInt8)
  /-- The server sends an alert. -/
  | warn (alert : List UInt8)
  /-- The client receives. -/
  | read

namespace ClientT

def Event.run (records : Nat) : Event → ClientM Network (List (List UInt8))
  | .up data => do
      send data
      pure []
  | .down data => do
      modify fun c => { c with sock := c.sock.push ⟨CT_APPLICATION_DATA, data⟩ }
      pure []
  | .warn alert => do
      modify fun c => { c with sock := c.sock.push ⟨CT_ALERT, alert⟩ }
      pure []
  | .read => do
      let data ← recv records
      pure [data]

/-- One event after the other; what the client received. -/
def converse (records : Nat) : List Event → ClientM Network (List (List UInt8))
  | [] => pure []
  | e :: es => do
      let got ← Event.run records e
      let more ← converse records es
      pure (got ++ more)

end ClientT

namespace Event

/-- What the client sends. -/
def sentUp : List Event → List UInt8
  | [] => []
  | .up data :: es => data ++ sentUp es
  | _ :: es => sentUp es

/-- What the server sends. -/
def sentDown : List Event → List (List UInt8)
  | [] => []
  | .down data :: es => data :: sentDown es
  | _ :: es => sentDown es

def reads : List Event → Nat
  | [] => 0
  | .read :: es => reads es + 1
  | _ :: es => reads es

/-- The server sends what fits in a record and alerts that are ignored; and the client never
receives when there is nothing to come. -/
def Orderly : (pending : Nat) → List Event → Prop
  | _, [] => True
  | n, .up _ :: es => Orderly n es
  | n, .down data :: es => data.length ≤ MAX_PLAINTEXT ∧ Orderly (n + 1) es
  | n, .warn alert :: es => Ignored alert ∧ Orderly n es
  | n, .read :: es => ∃ m, n = m + 1 ∧ Orderly m es

end Event

namespace ClientT

variable {ps : List Piece} {c : ClientT Network}

/-- In the data phase, a record of data is appended to what the server has received. -/
theorem sendData_linked {data : List UInt8} (h : Linked ps c) (hlen : data.length ≤ MAX_PLAINTEXT) :
    ∃ c', Returns (sendRecord CT_APPLICATION_DATA data) c () c' ∧ Linked ps c' ∧
      c'.sock.server.received = c.sock.server.received ++ data := by
  obtain ⟨c', layer, hret, hin, hwriter, hsent⟩ :=
    @sendRecord_handled c ⟨CT_APPLICATION_DATA, data⟩ h.up ⟨rfl, hlen⟩
  have hhandle : ({ c.sock.server with layer := layer } : Server).handle CT_APPLICATION_DATA data =
      ([], { c.sock.server with layer := layer, received := c.sock.server.received ++ data }) := by
    unfold Server.handle
    dsimp only
    rw [h.phase]
    exact if_pos rfl
  rw [hhandle] at hsent
  have hfeed := @Feed.answered c c' _ layer ps [] [] h.down hwriter hsent
  rw [List.append_nil] at hfeed
  refine ⟨c', hret, ⟨?_, ?_, ?_, h.talk⟩, ?_⟩
  · rw [hsent.server]
    exact h.phase
  · rw [hsent.server]
    exact hin
  · rw [hsent.server]
    exact hfeed
  · rw [hsent.server]

/-- All that the client sends is received. -/
theorem send_linked {data : List UInt8} (h : Linked ps c) :
    ∃ c', Returns (send data) c () c' ∧ Linked ps c' ∧
      c'.sock.server.received = c.sock.server.received ++ data := by
  induction data using fragments.induct generalizing c with
  | case1 =>
      rw [send]
      exact ⟨c, pure_returns _, h, (List.append_nil _).symm⟩
  | case2 data hne ih =>
      obtain ⟨c₁, hret₁, hlinked₁, hrec₁⟩ := sendData_linked h (List.length_take_le _ data)
      obtain ⟨c₂, hret₂, hlinked₂, hrec₂⟩ := ih hlinked₁
      rw [send, dif_neg hne]
      refine ⟨c₂, hret₁.bind hret₂, hlinked₂, ?_⟩
      rw [hrec₂, hrec₁, List.append_assoc, List.take_append_drop]

/-- What the server sends is on its way. -/
theorem push_linked {p : Piece} (h : Linked ps c) (hp : p.Talk) :
    Linked (ps ++ [p]) { c with sock := c.sock.push p } := by
  have hpieces : (sendPieces c.sock.server.layer [p]).1 = (sendPiece c.sock.server.layer p).1 :=
    List.append_nil _
  have hsent : Sent c { c with sock := c.sock.push p } (c.sock.push p).server
      ((sendPieces c.sock.server.layer [p]).1 ++ []) := by
    refine ⟨rfl, ?_, rfl, _, _, rfl⟩
    rw [List.append_nil, hpieces]
    rfl
  refine ⟨h.phase, ?_, Feed.answered h.down rfl hsent, ?_⟩
  · exact h.up.of_reader (sendPieces_reader c.sock.server.layer [p])
  · intro q hq
    rcases List.mem_append.mp hq with hq | hq
    · exact h.talk q hq
    · rw [List.mem_singleton.mp hq]
      exact hp

/-- What is on its way is received. -/
theorem recv_linked {data : List UInt8} {more : List (List UInt8)} {records : Nat}
    (h : Linked ps c) (hdata : plaintexts ps = data :: more) (hrecords : ps.length ≤ records) :
    ∃ c' left, Returns (recv records) c data c' ∧ Linked left c' ∧ plaintexts left = more ∧
      left.length < ps.length ∧ c'.sock.server.received = c.sock.server.received := by
  have hfeed : Feed c.sock.server.layer.writer (ps ++ []) [] c := by
    rw [List.append_nil]
    exact h.down
  rcases recv_feed hfeed h.talk hdata hrecords with
    ⟨left, c', hret, hfeed', hleft, hmore, hlt, hkept⟩ | ⟨left, c', -, hw⟩
  · have hserver := Network.server_pulled hkept.pulled
    rw [List.append_nil] at hfeed'
    refine ⟨c', left, hret, ⟨?_, ?_, ?_, hleft⟩, hmore, hlt, congrArg Server.received hserver⟩
    · rw [hserver]
      exact h.phase
    · rw [hserver]
      exact h.up.of_writer hkept.frame.writer
    · rw [hserver]
      exact hfeed'
  · exact absurd hw.waits (Nat.not_lt_zero _)

/-- **A conversation.**  The client receives what the server sends, record by record, and the
server what the client sends. -/
theorem converse_linked {records : Nat} {es : List Event} (h : Linked ps c)
    (horder : Event.Orderly (plaintexts ps).length es) (hrecords : ps.length + es.length ≤ records) :
    ∃ c', Returns (converse records es) c
        ((plaintexts ps ++ Event.sentDown es).take (Event.reads es)) c' ∧
      c'.sock.server.received = c.sock.server.received ++ Event.sentUp es := by
  induction es generalizing c ps with
  | nil =>
      refine ⟨c, ?_, (List.append_nil _).symm⟩
      rw [Event.reads, List.take_zero]
      exact pure_returns _
  | cons e es ih =>
      rw [List.length_cons] at hrecords
      cases e with
      | up data =>
          obtain ⟨c₁, hret₁, hlinked₁, hrec₁⟩ := @send_linked ps c data h
          have hrun : Returns (Event.run records (.up data)) c [] c₁ := hret₁.bind (pure_returns _)
          obtain ⟨c₂, hret₂, hrec₂⟩ := ih hlinked₁ horder (by omega)
          refine ⟨c₂, hrun.bind (hret₂.bind (pure_returns _)), ?_⟩
          rw [hrec₂, hrec₁, List.append_assoc]
          rfl
      | down data =>
          obtain ⟨hlen, horder⟩ := horder
          have hplain : plaintexts (ps ++ [⟨CT_APPLICATION_DATA, data⟩]) = plaintexts ps ++ [data] := by
            simp [plaintexts]
          have hrun : Returns (Event.run records (.down data)) c []
              { c with sock := c.sock.push ⟨CT_APPLICATION_DATA, data⟩ } :=
            (modify_returns _).bind (pure_returns _)
          obtain ⟨c₂, hret₂, hrec₂⟩ := ih (push_linked h (.data hlen))
            (by rw [hplain, List.length_append]; exact horder)
            (by rw [List.length_append, List.length_singleton]; omega)
          refine ⟨c₂, hrun.bind (hret₂.bind ?_), hrec₂⟩
          rw [hplain, List.append_assoc]
          exact pure_returns _
      | warn alert =>
          obtain ⟨hign, horder⟩ := horder
          have hplain : plaintexts (ps ++ [⟨CT_ALERT, alert⟩]) = plaintexts ps := by
            simp [plaintexts, CT_ALERT, CT_APPLICATION_DATA]
          have hrun : Returns (Event.run records (.warn alert)) c []
              { c with sock := c.sock.push ⟨CT_ALERT, alert⟩ } :=
            (modify_returns _).bind (pure_returns _)
          obtain ⟨c₂, hret₂, hrec₂⟩ := ih (push_linked h (.alert hign)) (by rw [hplain]; exact horder)
            (by rw [List.length_append, List.length_singleton]; omega)
          refine ⟨c₂, hrun.bind (hret₂.bind ?_), hrec₂⟩
          rw [hplain]
          exact pure_returns _
      | read =>
          obtain ⟨m, hm, horder⟩ := horder
          rcases hdata : plaintexts ps with _ | ⟨data, more⟩
          · rw [hdata] at hm
            cases hm
          · rw [hdata] at hm
            have hless : ps.length ≤ records := by omega
            obtain ⟨c₁, left, hret₁, hlinked₁, hmore, hlt, hrec₁⟩ := recv_linked h hdata hless
            have hrun : Returns (Event.run records .read) c [data] c₁ := hret₁.bind (pure_returns _)
            have hlen : (plaintexts left).length = m := by
              rw [hmore]
              exact Nat.succ.inj hm
            obtain ⟨c₂, hret₂, hrec₂⟩ := ih hlinked₁ (by rw [hlen]; exact horder) (by omega)
            refine ⟨c₂, hrun.bind (hret₂.bind ?_), ?_⟩
            · rw [hmore]
              exact pure_returns _
            · rw [hrec₂, hrec₁]
              rfl

end ClientT

/-! ### A server -/

/-- Alerts, and then the handshake bytes in records as long as possible. -/
def Packing.after (alerts : List (List UInt8)) (h : ∀ data ∈ alerts, Ignored data) : Packing where
  cut bs := alerts.map (Piece.mk CT_ALERT) ++ (ClientT.fragments bs).map (Piece.mk CT_HANDSHAKE)
  payload_cut bs := by
    have halerts : payload (alerts.map (Piece.mk CT_ALERT)) = [] := by
      rw [payload, List.flatMap_eq_nil_iff]
      intro p hp
      obtain ⟨data, -, rfl⟩ := List.mem_map.mp hp
      rfl
    have hfragments : payload ((ClientT.fragments bs).map (Piece.mk CT_HANDSHAKE)) =
        (ClientT.fragments bs).flatten := by
      rw [payload, List.flatMap_map]
      exact List.flatMap_id
    rw [payload_append, halerts, hfragments, ClientT.flatten_fragments]
    rfl
  legal bs p hp := by
    rcases List.mem_append.mp hp with hp | hp
    · obtain ⟨data, hdata, rfl⟩ := List.mem_map.mp hp
      exact .alert (h data hdata)
    · obtain ⟨chunk, hchunk, rfl⟩ := List.mem_map.mp hp
      obtain ⟨hpos, hle⟩ := ClientT.length_fragments hchunk
      exact .fragment (List.length_pos_iff.mp hpos) hle

/-- A server with the key `mersenneKey`, which sends these alerts before its first flight. -/
def mersenneServer (alerts : List (List UInt8)) (h : ∀ data ∈ alerts, Ignored data) :
    HonestServer where
  key := mersenneKey
  decrypt := fun c => c ^ mersenneExponent % mersenneKey.n.toNat
  chain := [mersenneCert]
  random := Vector.replicate RANDOM_LEN 5
  sessionId := []
  request := none
  flight := .after alerts h
  alerts := []
  finished := .after [] nofun
  inverts m hm := by
    rw [← Nat.pow_mod]
    exact mersenneKey_inverts m hm
  certified := mersenneKey_certified
  chain_lt := by decide
  sessionId_le := Nat.zero_le _
  request_lt := nofun
  alerts_ignored := nofun

/-- Without alerts. -/
def quietServer : HonestServer := mersenneServer [] nofun

namespace ClientT

/-- Enough random bytes for a handshake. -/
def ones : Rng := List.replicate 4 fun _ => 1

theorem rngSucceeds_ones : RngSucceeds {} mersenneKey.k ones :=
  ⟨_, _, _, _, _, _, rfl, rfl, rfl⟩

/-- **Agreement with an honest server.**  Whatever it chooses, however it cuts its messages into
records and the socket the stream into chunks:

* the handshake returns and the server has accepted the client's Finished;
* after that, in every conversation, the client receives exactly the records that the server
  sends, and the server the bytes that the client sends. -/
theorem agreement (conf : HonestServer) (chunk : Nat → Nat) (opt : Options) (rng : Rng)
    (hrng : RngSucceeds opt conf.key.k rng) :
    ∃ bound, ∀ records ≥ bound, ∃ c' : ClientT Network,
      Returns (handshake records)
        (fresh opt { server := { conf := conf }, chunk := chunk } rng) () c' ∧
      c'.connected = true ∧ c'.sock.server.phase = .connected ∧
      ∀ es, Event.Orderly 0 es → ∃ bound', ∀ records ≥ bound', ∃ c'' : ClientT Network,
        Returns (converse records es) c' ((Event.sentDown es).take (Event.reads es)) c'' ∧
          c''.sock.server.received = Event.sentUp es := by
  obtain ⟨bound, hbound⟩ := @handshake_complete conf opt
    { server := { conf := conf }, chunk := chunk } rng rfl rfl hrng
  refine ⟨bound, fun records hrecords => ?_⟩
  obtain ⟨c', ps, hret, hlinked, hnone, hconnected, hreceived⟩ := hbound records hrecords
  refine ⟨c', hret, hconnected, hlinked.phase, fun es horder => ?_⟩
  refine ⟨ps.length + es.length, fun records hrecords => ?_⟩
  obtain ⟨c'', hret', hreceived'⟩ := converse_linked hlinked (by rw [hnone]; exact horder) hrecords
  rw [hnone] at hret'
  rw [hreceived] at hreceived'
  exact ⟨c'', hret', hreceived'⟩

/-- The server says one word after a warning, and the client says another. -/
theorem agreement_mersenne : ∃ bound, ∀ records ≥ bound, ∃ c' : ClientT Network,
    Returns (handshake records)
      (fresh {} { server := { conf := quietServer }, chunk := fun n => n % 3 } ones) () c' ∧
    ∃ bound', ∀ records ≥ bound', ∃ c'' : ClientT Network,
      Returns (converse records [.up [1, 2], .warn [1, 90], .down [7], .read]) c' [[7]] c'' ∧
        c''.sock.server.received = [1, 2] := by
  obtain ⟨bound, hbound⟩ :=
    agreement quietServer (fun n => n % 3) {} ones rngSucceeds_ones
  refine ⟨bound, fun records hrecords => ?_⟩
  obtain ⟨c', hret, -, -, htalk⟩ := hbound records hrecords
  exact ⟨c', hret, htalk [.up [1, 2], .warn [1, 90], .down [7], .read]
    ⟨ignored_warning (by decide), by decide, 0, rfl, trivial⟩⟩

end ClientT

end Ilo2.Tls
