import Ilo2.Tls.Completeness
import Ilo2.Tls.Conversation

/-!
# Client and server agree

The client's half of the handshake with an honest server.

* `Meeting` - the client has read all that was sent to it, and both have absorbed the same.
* `Linked` - the handshake is over, and every direction is in step.
* `handshake_complete` - **the handshake returns, and the server has accepted it**.
-/

namespace Ilo2.Tls

open Crypto Attempt

namespace ClientT

variable {s : Server} {pending : List UInt8} {n records : Nat} {c : ClientT Network}

/-! ### The client's flight -/

/-- What is drawn from the random source. -/
theorem draw_returns {α : Type} {err : String} {f : Rng → Option α × Rng} {a : α} {rng : Rng}
    (h : f c.rng = (some a, rng)) : Returns (draw err f) c a { c with rng := rng } := by
  unfold Returns draw
  rw [h]

/-- A record that the server answers with nothing. -/
theorem sendRecord_quiet {p : Piece} {f : RecordLayer → Server} (h : Inflow s pending n c)
    (hfits : p.Fits)
    (hhandle : ∀ layer, ({ s with layer := layer } : Server).handle p.type p.data = ([], f layer)) :
    ∃ c' layer, Returns (sendRecord p.type p.data) c () c' ∧ c'.sock.server = f layer ∧
      c'.recLayer.InStep layer ∧ Due layer.writer pending n c' ∧
      ∃ layer' sock', c' = { c with recLayer := layer', sock := sock' } := by
  obtain ⟨hserver, hup, ps, hfeed, hlegal, hbytes, hless⟩ := h
  subst hserver
  obtain ⟨c', layer, hret, hin, hwriter, hsent⟩ := sendRecord_handled hup hfits
  rw [hhandle layer] at hsent
  have hfeed' := @Feed.answered c c' _ layer ps [] [] hfeed hwriter hsent
  rw [List.append_nil] at hfeed'
  obtain ⟨layer', sock', hc'⟩ := hsent.same
  refine ⟨c', layer, hret, hsent.server, hin, ⟨ps, hfeed', hlegal, ?_, hless⟩, layer', sock', hc'⟩
  rw [hc']
  exact hbytes

/-- The client has read all that was sent to it, except alerts, and both sides have absorbed
the messages `msgs`. -/
structure Meeting (conf : HonestServer) (phase : Phase) (msgs : List UInt8) (n : Nat)
    (c : ClientT Network) : Prop where
  transcript : c.transcript.Absorbed msgs
  server : ∃ s, Inflow s [] n c ∧ s.conf = conf ∧ s.phase = phase ∧ s.received = [] ∧
    s.transcript.Absorbed msgs

variable {conf : HonestServer} {msgs : List UInt8} {offered : UInt16}
  {random : Vector UInt8 RANDOM_LEN} {master : Vector UInt8 MASTER_SECRET_LEN} {km : KeyMaterial}

/-- The offer, and the server's flight in answer to it. -/
theorem sendClientHello_complete {opt : Options} {sock : Network} {rng rng' : Rng}
    (hserver : sock.server = { conf := conf }) (hwire : sock.wire = [])
    (hmake : makeClientRandom opt.gmtUnixTime rng = (some random, rng')) :
    ∃ c' s, Returns sendClientHello (fresh opt sock rng) random c' ∧
      Inflow s (Server.flight conf opt.version).flatten
        ((conf.flight.cut (Server.flight conf opt.version).flatten).length + 1) c' ∧
      c'.opt = opt ∧ c'.rng = rng' ∧
      c'.transcript.Absorbed (buildClientHello opt.version random [TLS_RSA_WITH_RC4_128_MD5]) ∧
      s.conf = conf ∧ s.received = [] ∧
      s.transcript.Absorbed (buildClientHello opt.version random [TLS_RSA_WITH_RC4_128_MD5] ++
        (Server.flight conf opt.version).flatten) ∧
      s.phase = if conf.request.isSome then .certificate opt.version random
        else .keyExchange opt.version random := by
  generalize hch : buildClientHello opt.version random [TLS_RSA_WITH_RC4_128_MD5] = ch
  obtain ⟨body, hframe, hlen, -⟩ := Server.readClientHello_build opt.version random
  have hfits : (Piece.mk CT_HANDSHAKE ch).Fits := by
    refine ⟨rfl, ?_⟩
    rw [← hch, hframe, length_frame, hlen]
    decide
  obtain ⟨c', layer, hret, hin, hwriter, hsent⟩ := @sendRecord_handled
    { fresh opt sock rng with rng := rng', transcript := ({} : Transcript).update ch } _
    (by rw [fresh, hserver]; exact ⟨rfl, rfl⟩) hfits
  have hhandle : ({ sock.server with layer := layer } : Server).handle CT_HANDSHAKE ch =
      ({ sock.server with layer := layer } : Server).answerHello ch opt.version random := by
    rw [← hch]
    exact Server.handle_clientHello (by rw [hserver]) opt.version random
  dsimp only [fresh] at hsent
  rw [hhandle, hserver] at hsent
  have hfeed := @Feed.answered _ c' _ layer []
    (conf.flight.cut (Server.flight conf opt.version).flatten)
    [] ⟨{}, ⟨rfl, rfl⟩, by dsimp only [fresh]; rw [hserver]; rfl, by exact hwire⟩ hwriter
    (by rw [List.append_nil]; exact hsent)
  obtain ⟨layer', sock', hc'⟩ := hsent.same
  have hdraw : Returns (draw "the system CSPRNG failed" (makeClientRandom opt.gmtUnixTime))
      (fresh opt sock rng) random { fresh opt sock rng with rng := rng' } := draw_returns hmake
  refine ⟨c', _, ?_, ⟨hsent.server, ?_, _, hfeed, conf.flight.legal _, ?_, Nat.lt_succ_self _⟩, ?_, ?_,
    ?_, rfl, rfl, ?_, rfl⟩
  · refine get_returns.bind <| hdraw.bind ?_
    dsimp only [fresh]
    rw [hch]
    exact (modify_returns _).bind <| Returns.bind hret (pure_returns _)
  · exact hin.of_reader (sendPieces_reader layer _)
  · rw [hc']
    exact conf.flight.payload_cut _
  · rw [hc']
  · rw [hc']
  · rw [hc']
    exact Transcript.Absorbed.start.update ch
  · exact (Transcript.Absorbed.start.update ch).foldl _

theorem sendCertificate_complete {asked : Bool}
    (h : Meeting conf (if asked then .certificate offered random else .keyExchange offered random)
      msgs n c) :
    ∃ c', Returns (sendCertificate asked) c () c' ∧
      Meeting conf (.keyExchange offered random)
        (msgs ++ if asked then buildEmptyCertificate else []) n c' ∧
      c'.opt = c.opt ∧ c'.rng = c.rng ∧ c'.serverKey = c.serverKey := by
  cases asked with
  | false => exact ⟨c, pure_returns _, by simpa using h, rfl, rfl, rfl⟩
  | true =>
      obtain ⟨ht, s, hin, hconf, hphase, hreceived, hs⟩ := h
      obtain ⟨c', layer, hret, hserver, hup, hdown, _, _, hc'⟩ := @sendRecord_quiet s [] n
        { c with transcript := c.transcript.update buildEmptyCertificate }
        ⟨CT_HANDSHAKE, buildEmptyCertificate⟩ _ ⟨hin.server, hin.up, hin.down⟩ ⟨rfl, by decide⟩
        (fun layer => Server.handle_certificate hphase)
      rw [if_pos rfl]
      refine ⟨c', (modify_returns _).bind hret,
        ⟨?_, _, ⟨hserver, hup, hdown⟩, hconf, rfl, hreceived, ?_⟩, ?_, ?_, ?_⟩
      · rw [hc']
        exact ht.update buildEmptyCertificate
      · exact hs.update buildEmptyCertificate
      all_goals rw [hc']

/-- Both sides come to the same master secret. -/
theorem sendClientKeyExchange_complete {premaster em : List UInt8} {rng rng' : Rng}
    (h : Meeting conf (.keyExchange c.opt.version random) msgs n c) (hkey : c.serverKey = conf.key)
    (hmake : makePremaster c.opt.version c.rng = (some premaster, rng))
    (hpad : pkcs1v15PadType2 conf.key.k premaster rng = (some em, rng'))
    (hmaster : master = deriveMasterSecret premaster random conf.random) :
    ∃ c' cke, buildClientKeyExchange conf.key premaster rng = (some cke, rng') ∧
      Returns sendClientKeyExchange c premaster c' ∧
      Meeting conf (.changeCipherSpec master (keyMaterial master conf.random random)) (msgs ++ cke) n
        c' := by
  obtain ⟨ht, s, hin, hconf, hphase, hreceived, hs⟩ := h
  subst hconf hmaster
  have hwf := Der.parseCertificateRsaKey_spec _ _ s.conf.certified
  obtain ⟨-, -, out, hout, hop⟩ := rsaEncrypt_spec hwf hpad
  obtain ⟨hlen, hversion⟩ := makePremaster_spec hmake
  obtain ⟨hk, hle, -⟩ := @Server.readPremaster_encrypted s.conf c.opt.version _ _ _ _ _ hlen hversion
    hpad hout
  generalize hcke : frame HT_CLIENT_KEY_EXCHANGE (len16 out.length ++ out) = cke
  have hbuild : buildClientKeyExchange s.conf.key premaster rng = (some cke, rng') := by
    unfold buildClientKeyExchange
    rw [hout, ← hcke]
    rfl
  have hfits : (Piece.mk CT_HANDSHAKE cke).Fits := by
    refine ⟨rfl, ?_⟩
    rw [← hcke, length_frame, List.length_append, hk]
    simp only [len16, HANDSHAKE_HEADER_LEN, MAX_PLAINTEXT, List.length_cons, List.length_nil]
    omega
  have hhandle (layer : RecordLayer) := @Server.handle_keyExchange { s with layer := layer } _ _ hphase
    _ _ _ _ _ hlen hversion hpad hout
  rw [hcke] at hhandle
  obtain ⟨c', layer, hret, hserver, hup, hdown, _, _, hc'⟩ := @sendRecord_quiet s [] n
    { c with rng := rng', transcript := c.transcript.update cke } ⟨CT_HANDSHAKE, cke⟩ _
    ⟨hin.server, hin.up, hin.down⟩ hfits hhandle
  have hdraw₁ : Returns (draw "the system CSPRNG failed" (makePremaster c.opt.version)) c premaster
      { c with rng := rng } := draw_returns hmake
  have hdraw₂ : Returns (draw "RSA encryption of the premaster failed"
      (buildClientKeyExchange c.serverKey premaster)) { c with rng := rng } cke
      { c with rng := rng' } := draw_returns (by rw [hkey]; exact hbuild)
  refine ⟨c', cke, hbuild, ?_, ?_, _, ⟨hserver, hup, hdown⟩, rfl, rfl, hreceived, ?_⟩
  · exact get_returns.bind <| hdraw₁.bind <| hdraw₂.bind <| (modify_returns _).bind <|
      Returns.bind hret (pure_returns _)
  · rw [hc']
    exact ht.update _
  · exact hs.update _

/-- The server's Finished, when both sides have absorbed `msgs`. -/
def serverFinished (master : Vector UInt8 MASTER_SECRET_LEN) (msgs : List UInt8) : List UInt8 :=
  frame HT_FINISHED (deriveVerifyData master LABEL_SERVER_FINISHED (MD5.hash msgs)
    (SHA1.hash msgs)).toList

/-- The server has accepted the client's Finished: on the way are alerts, the switch, and after
it the pieces of the server's Finished under new keys. -/
structure Answered (conf : HonestServer) (master : Vector UInt8 MASTER_SECRET_LEN)
    (km : KeyMaterial) (msgs : List UInt8) (n : Nat) (c : ClientT Network) : Prop where
  transcript : c.transcript.Absorbed msgs
  hs : c.hs = []
  phase : c.sock.server.phase = .connected
  received : c.sock.server.received = []
  up : c.recLayer.InStep c.sock.server.layer
  down : ∃ w' qs layer, (∀ q ∈ qs, q.type = CT_ALERT ∧ Ignored q.data) ∧ qs.length < n ∧
    layer.writeCipher = some (.ofKeys km.serverMac km.serverKey) ∧ layer.writeSeq = 0 ∧
    c.sock.server.layer = (sendPieces layer (conf.finished.cut (serverFinished master msgs))).2 ∧
    Feed w' (qs ++ [⟨CT_CHANGE_CIPHER_SPEC, [0x01]⟩])
      (sendPieces layer (conf.finished.cut (serverFinished master msgs))).1 c

/-- To accept a Finished the server reads no more than its record. -/
theorem answerFinished_reader (s : Server) (fin : List UInt8)
    (master : Vector UInt8 MASTER_SECRET_LEN) (km : KeyMaterial) :
    (s.answerFinished fin master km).2.layer.reader = s.layer.reader := by
  have hswitch := sendPieces_reader s.layer s.conf.switch
  have hfin := sendPieces_reader
    ((sendPieces s.layer s.conf.switch).2.enableWriteCipher km.serverMac km.serverKey)
    (s.conf.finished.cut (buildFinished master LABEL_SERVER_FINISHED (s.transcript.update fin)))
  exact hfin.trans hswitch

/-- What is on the way before the server's switch. -/
theorem alerts_on_way {ps : List Piece} (hlegal : ∀ p ∈ ps, p.Legal) (hpay : payload ps = []) :
    ∀ q ∈ ps ++ conf.alerts.map (Piece.mk CT_ALERT), q.type = CT_ALERT ∧ Ignored q.data := by
  intro q hq
  rcases List.mem_append.mp hq with hq | hq
  · exact alerts_of_payload hlegal hpay q hq
  · obtain ⟨data, hdata, rfl⟩ := List.mem_map.mp hq
    exact ⟨rfl, conf.alerts_ignored data hdata⟩

/-- The client's new keys leave what is on its way to it alone. -/
theorem Feed.enableWriteCipher {w' : RecordLayer} {ps : List Piece} {rest : List UInt8}
    (h : Feed w' ps rest c) (km : KeyMaterial) (t : Transcript) : Feed w' ps rest ({ c with
      recLayer := c.recLayer.enableWriteCipher km.clientMac km.clientKey
      transcript := t } : ClientT Network) := by
  obtain ⟨w, hw, hend, hstream⟩ := h
  exact ⟨w, hw.of_reader rfl, hend, hstream⟩

/-- The switch of the client's keys, and its Finished. -/
theorem sendFinished_complete (h : Meeting conf (.changeCipherSpec master km) msgs n c) :
    ∃ c' fin, fin = frame HT_FINISHED (deriveVerifyData master LABEL_CLIENT_FINISHED (MD5.hash msgs)
        (SHA1.hash msgs)).toList ∧ Returns (sendFinished master km) c () c' ∧
      Answered conf master km (msgs ++ fin) (n + conf.alerts.length) c' := by
  obtain ⟨ht, s, hin, rfl, hphase, hreceived, hs⟩ := h
  -- the switch
  obtain ⟨c₁, layer₁, hret₁, hserver₁, -, hdown₁, layer', sock', hc₁⟩ := @sendRecord_quiet s [] n c
    ⟨CT_CHANGE_CIPHER_SPEC, [0x01]⟩ _ hin ⟨rfl, by decide⟩
    (fun layer => Server.handle_changeCipherSpec hphase)
  have ht₁ : c₁.transcript.Absorbed msgs := by
    rw [hc₁]
    exact ht
  generalize hfin : buildFinished master LABEL_CLIENT_FINISHED c₁.transcript = fin
  have hverify : fin = frame HT_FINISHED (deriveVerifyData master LABEL_CLIENT_FINISHED
      (MD5.hash msgs) (SHA1.hash msgs)).toList := hfin ▸ ht₁.finished _ _
  have hfits : (Piece.mk CT_HANDSHAKE fin).Fits := by
    refine ⟨rfl, ?_⟩
    rw [hverify, length_frame, Vector.length_toList]
    decide
  -- the Finished
  obtain ⟨c₂, layer₂, hret₂, hup₂, hwriter₂, hsent₂⟩ := @sendRecord_handled
    { c₁ with
      recLayer := c₁.recLayer.enableWriteCipher km.clientMac km.clientKey
      transcript := c₁.transcript.update fin } _
    (by dsimp only; rw [hserver₁]; exact ⟨rfl, rfl⟩) hfits
  dsimp only at hwriter₂ hsent₂
  rw [hserver₁] at hsent₂ hwriter₂
  dsimp only at hwriter₂ hsent₂
  have hhandle := @Server.handle_finished
    { s with phase := .finished master km, layer := layer₂ } master
    km rfl _ _ ht₁ hs
  rw [hfin] at hhandle
  rw [hhandle] at hsent₂
  obtain ⟨ps, hfeed₁, hlegal, hbytes, hless⟩ := hdown₁
  obtain ⟨hhs, hpay⟩ := List.append_eq_nil_iff.mp hbytes
  obtain ⟨layer₃, sock₃, hc₂⟩ := hsent₂.same
  have hs₂ : (s.transcript.update fin).Absorbed (msgs ++ fin) := hs.update fin
  have hbuild : buildFinished master LABEL_SERVER_FINISHED (s.transcript.update fin) =
      serverFinished master (msgs ++ fin) := hs₂.finished _ _
  refine ⟨c₂, fin, hverify, ?_, ⟨?_, ?_, ?_, ?_, ?_, ?_⟩⟩
  · refine hret₁.bind <| (modify_returns _).bind <| get_returns.bind ?_
    dsimp only
    rw [hfin]
    exact (modify_returns _).bind hret₂
  · rw [hc₂]
    exact ht₁.update fin
  · rw [hc₂]
    exact hhs
  · rw [hsent₂.server]
    rfl
  · rw [hsent₂.server]
    exact hreceived
  · rw [hsent₂.server]
    exact hup₂.of_reader (answerFinished_reader
      { s with phase := .finished master km, layer := layer₂ } fin master km)
  · have hbefore := hfeed₁.enableWriteCipher km (c₁.transcript.update fin)
    have hfeed := @Feed.answered _ c₂ _ layer₂ ps s.conf.switch _
      (by dsimp only; rw [hserver₁]; exact hbefore)
      (by dsimp only; rw [hserver₁]; exact hwriter₂) hsent₂
    rw [HonestServer.switch, ← List.append_assoc] at hfeed
    refine ⟨(sendPieces layer₂ s.conf.switch).2.writer, ps ++ s.conf.alerts.map (Piece.mk CT_ALERT),
      (sendPieces layer₂ s.conf.switch).2.enableWriteCipher km.serverMac km.serverKey,
      alerts_on_way hlegal hpay, ?_, rfl, rfl, ?_, ?_⟩
    · rw [List.length_append, List.length_map]
      omega
    · rw [hsent₂.server, ← hbuild]
      rfl
    · rw [← hbuild]
      exact hfeed

/-- The alerts that are left when the handshake is over, with every direction in step. -/
structure Linked (ps : List Piece) (c : ClientT Network) : Prop where
  phase : c.sock.server.phase = .connected
  up : c.recLayer.InStep c.sock.server.layer
  down : Feed c.sock.server.layer.writer ps [] c
  talk : ∀ p ∈ ps, p.Talk

/-- The server's switch, and its Finished. -/
theorem receiveFinished_complete (h : Answered conf master km msgs n c) (hn : n ≤ records)
    (hrecords : (conf.finished.cut (serverFinished master msgs)).length < records) :
    ∃ c' ps, Returns (receiveFinished records master km) c () c' ∧ Linked ps c' ∧
      plaintexts ps = [] ∧ c'.sock.server.received = [] := by
  obtain ⟨ht, hhs, hphase, hreceived, hup, w', qs, layer, hqs, hlen, hcipher, hseq, hlayer, hfeed⟩ := h
  have hsize : (deriveVerifyData master LABEL_SERVER_FINISHED (MD5.hash msgs)
      (SHA1.hash msgs)).toList.length < 2 ^ 24 := by
    rw [Vector.length_toList]
    decide
  unfold serverFinished at *
  generalize hbody : (deriveVerifyData master LABEL_SERVER_FINISHED (MD5.hash msgs)
    (SHA1.hash msgs)).toList = body at *
  obtain ⟨c₁, hret₁, hfeed₁, hkept₁⟩ := readChangeCipherSpec_feed hfeed hqs
    (Nat.lt_of_lt_of_le hlen hn)
  obtain ⟨w, -, -, hstream⟩ := hfeed₁
  have hstart : Feed (sendPieces layer (conf.finished.cut (frame HT_FINISHED body))).2.writer
      (conf.finished.cut (frame HT_FINISHED body)) [] ({ c₁ with
        recLayer := c₁.recLayer.enableReadCipher km.serverMac km.serverKey } : ClientT Network) :=
    ⟨layer, ⟨hcipher.symm, hseq.symm⟩, rfl, by rw [List.append_nil]; exact hstream⟩
  have hbytes : c₁.hs ++ payload (conf.finished.cut (frame HT_FINISHED body)) =
      frame HT_FINISHED body ++ [] := by
    rw [hkept₁.hs, hhs, conf.finished.payload_cut, List.append_nil, List.nil_append]
  obtain ⟨c₂, ps, hret₂, hfeed₂, hlegal, hrest, -, hkept₂⟩ :=
    nextHandshake_feed hsize hstart (conf.finished.legal _) hbytes hrecords
  obtain ⟨-, hpay⟩ := List.append_eq_nil_iff.mp hrest
  have hserver : c₂.sock.server = c.sock.server :=
    Network.server_pulled (hkept₁.pulled.trans hkept₂.pulled)
  have hwriter : c₂.recLayer.writer = c.recLayer.writer :=
    hkept₂.frame.writer.trans hkept₁.frame.writer
  have ht₂ : c₂.transcript.Absorbed msgs := by
    rw [hkept₂.frame.transcript]
    dsimp only
    rw [hkept₁.frame.transcript]
    exact ht
  have hcheck : checkFinished master LABEL_SERVER_FINISHED c₂.transcript body = true := by
    rw [checkFinished_iff, ht₂.verifyData, hbody]
  refine ⟨{ c₂ with transcript := c₂.transcript.update (frame HT_FINISHED body) }, ps, ?_,
    ⟨?_, ?_, ?_, ?_⟩, ?_, ?_⟩
  · refine Returns.bind (get_returns.bind <| (demand_returns hhs).bind hret₁) <|
      (modify_returns _).bind <| hret₂.bind ?_
    refine (demand_returns rfl).bind <| get_returns.bind ?_
    exact Returns.bind (demand_returns hcheck) (modify_returns _)
  · exact (congrArg Server.phase hserver).trans hphase
  · show c₂.recLayer.InStep c₂.sock.server.layer
    rw [hserver]
    exact hup.of_writer hwriter
  · show Feed c₂.sock.server.layer.writer ps [] c₂
    rw [hserver, hlayer]
    exact hfeed₂
  · intro p hp
    obtain ⟨htype, hign⟩ := alerts_of_payload hlegal hpay p hp
    obtain ⟨type, data⟩ := p
    cases htype
    exact .alert hign
  · have hnone (p : Piece) (hp : p ∈ ps) : ¬ p.type = CT_APPLICATION_DATA := by
      rw [(alerts_of_payload hlegal hpay p hp).1]
      decide
    rw [plaintexts, List.filter_eq_nil_iff.mpr (by simpa using hnone), List.map_nil]
  · exact (congrArg Server.received hserver).trans hreceived

/-- The random source has an answer to every question of the handshake. -/
def RngSucceeds (opt : Options) (k : Nat) (rng : Rng) : Prop :=
  ∃ random rng₁ premaster rng₂ em rng₃, makeClientRandom opt.gmtUnixTime rng = (some random, rng₁) ∧
    makePremaster opt.version rng₁ = (some premaster, rng₂) ∧
    pkcs1v15PadType2 k premaster rng₂ = (some em, rng₃)

/-- The messages of the server's first flight, one after the other. -/
theorem flatten_flight (conf : HonestServer) (version : UInt16) :
    (Server.flight conf version).flatten = frame HT_SERVER_HELLO (encodeServerHello
      ⟨version, conf.random, conf.sessionId, TLS_RSA_WITH_RC4_128_MD5, 0⟩) ++
        (frame HT_CERTIFICATE (encodeCertificateList conf.chain) ++
          (conf.request.toList.flatMap (frame HT_CERTIFICATE_REQUEST) ++
            (frame HT_SERVER_HELLO_DONE [] ++ []))) := by
  unfold Server.flight
  simp only [List.flatten_append, List.flatten_cons, List.flatten_nil, List.append_nil,
    List.flatMap_def, List.append_assoc]

/-- The client reads the server's first flight. -/
theorem receiveFlight_complete {opt : Options} {c : ClientT Network}
    (h : Inflow s (Server.flight conf opt.version).flatten n c) (hopt : c.opt = opt)
    (hn : n ≤ records) (hrecords : 2 ≤ records) (hconf : s.conf = conf) :
    ∃ c₁ c₂ c₃, Returns (receiveServerHello records) c
        ⟨opt.version, conf.random, conf.sessionId, TLS_RSA_WITH_RC4_128_MD5, 0⟩ c₁ ∧
      Returns (receiveCertificate records) c₁ () c₂ ∧
      Returns (receiveUntilDone records records false) c₂ conf.request.isSome c₃ ∧
      Inflow s [] n c₃ ∧ c₃.serverKey = conf.key ∧
      Grown c c₃ (Server.flight conf opt.version).flatten := by
  subst hconf hopt
  rw [flatten_flight] at h ⊢
  obtain ⟨c₁, hret₁, hin₁, hgrown₁⟩ :=
    receiveServerHello_complete h hn rfl rfl rfl s.conf.sessionId_le
  obtain ⟨c₂, hret₂, hin₂, hgrown₂, hkey⟩ :=
    receiveCertificate_complete hin₁ hn s.conf.chain_lt s.conf.certified
  have hfew : s.conf.request.toList.length < records := by
    cases s.conf.request with
    | none => exact Nat.lt_of_lt_of_le (by decide) hrecords
    | some body => exact hrecords
  obtain ⟨c₃, hret₃, hin₃, hkey₃, hgrown₃⟩ := @receiveUntilDone_complete s [] n records c₂
    s.conf.request.toList records false hin₂ hn
    (fun body hbody => s.conf.request_lt body (Option.mem_toList.mp hbody)) hfew
  have hasked : (false || !s.conf.request.toList.isEmpty) = s.conf.request.isSome := by
    cases s.conf.request <;> rfl
  rw [hasked] at hret₃
  refine ⟨c₁, c₂, c₃, hret₁, hret₂, hret₃, hin₃, hkey₃.trans hkey, ?_⟩
  rw [List.append_nil]
  exact hgrown₁.trans (hgrown₂.trans hgrown₃)

/-- **The handshake with an honest server.**  It returns, the server has accepted it, and the
two are linked. -/
theorem handshake_complete (conf : HonestServer) {opt : Options} {sock : Network} {rng : Rng}
    (hserver : sock.server = { conf := conf }) (hwire : sock.wire = [])
    (hrng : RngSucceeds opt conf.key.k rng) :
    ∃ bound, ∀ records ≥ bound, ∃ c' ps, Returns (handshake records) (fresh opt sock rng) () c' ∧
      Linked ps c' ∧ plaintexts ps = [] ∧ c'.connected = true ∧ c'.sock.server.received = [] := by
  obtain ⟨random, rng₁, premaster, rng₂, em, rng₃, hrandom, hpre, hpad⟩ := hrng
  have hwf := Der.parseCertificateRsaKey_spec _ _ conf.certified
  generalize hmaster : deriveMasterSecret premaster random conf.random = master
  obtain ⟨-, -, out, hout, -⟩ := rsaEncrypt_spec hwf hpad
  obtain ⟨cke, hcke⟩ : ∃ cke, buildClientKeyExchange conf.key premaster rng₂ = (some cke, rng₃) := by
    unfold buildClientKeyExchange
    rw [hout]
    exact ⟨_, rfl⟩
  generalize hmsgs : buildClientHello opt.version random [TLS_RSA_WITH_RC4_128_MD5] ++
    (Server.flight conf opt.version).flatten ++
      (if conf.request.isSome then buildEmptyCertificate else []) ++ cke = msgs
  generalize hfin : frame HT_FINISHED (deriveVerifyData master LABEL_CLIENT_FINISHED (MD5.hash msgs)
    (SHA1.hash msgs)).toList = fin
  refine ⟨(conf.flight.cut (Server.flight conf opt.version).flatten).length + 2 + conf.alerts.length +
    (conf.finished.cut (serverFinished master (msgs ++ fin))).length, fun records hrecords => ?_⟩
  have hfirst : (conf.flight.cut (Server.flight conf opt.version).flatten).length + 1 ≤ records := by
    omega
  have hswitch : (conf.flight.cut (Server.flight conf opt.version).flatten).length + 1 +
      conf.alerts.length ≤ records := by
    omega
  have hlast : (conf.finished.cut (serverFinished master (msgs ++ fin))).length < records := by
    omega
  obtain ⟨c₁, s, hret₁, hin₁, hopt₁, hrng₁, ht₁, hconf, hreceived, hs, hphase⟩ :=
    sendClientHello_complete hserver hwire hrandom
  obtain ⟨c₂, c₃, c₄, hret₂, hret₃, hret₄, hin₄, hkey₄, hgrown⟩ :=
    receiveFlight_complete hin₁ hopt₁ hfirst (by omega) hconf
  have hopt₄ : c₄.opt = opt := hgrown.opt.trans hopt₁
  obtain ⟨c₅, hret₅, hmeet₅, hopt₅, hrng₅, hkey₅⟩ := sendCertificate_complete
    ⟨hgrown.transcript _ ht₁, s, hin₄, hconf, hphase, hreceived, hs⟩
  have hversion : c₅.opt.version = opt.version := congrArg Options.version (hopt₅.trans hopt₄)
  have hpre₅ : makePremaster c₅.opt.version c₅.rng = (some premaster, rng₂) := by
    rw [hversion, hrng₅, hgrown.rng, hrng₁]
    exact hpre
  rw [← hversion] at hmeet₅
  obtain ⟨c₆, cke', hcke', hret₆, hmeet₆⟩ := sendClientKeyExchange_complete hmeet₅ (hkey₅.trans hkey₄)
    hpre₅ hpad hmaster.symm
  rw [hcke] at hcke'
  cases hcke'
  rw [hversion, hmsgs] at hmeet₆
  obtain ⟨c₇, fin', hfin', hret₇, hanswer⟩ := sendFinished_complete hmeet₆
  rw [hfin] at hfin'
  subst hfin'
  obtain ⟨c₈, ps, hret₈, hlinked, hnone, hreceived₈⟩ := receiveFinished_complete hanswer hswitch hlast
  refine ⟨{ c₈ with connected := true }, ps, ?_,
    ⟨hlinked.phase, hlinked.up, hlinked.down, hlinked.talk⟩,
    hnone, rfl, hreceived₈⟩
  refine hret₁.bind <| hret₂.bind <| hret₃.bind <| hret₄.bind <| hret₅.bind <| hret₆.bind ?_
  dsimp only
  rw [hmaster]
  exact hret₇.bind <| hret₈.bind <| modify_returns _

end ClientT

end Ilo2.Tls
