import Ilo2.Tls.Data
import Ilo2.Tls.Server

/-!
# A handshake with an honest server

Step by step, the client and an honest server meet: what the one sends the other accepts,
and both transcripts and both key schedules are the same.

* `Inbound` - the handshake bytes that are still to come to the client.
* `handshake_complete` - **the handshake returns, the server has accepted it, and the two
  sides are linked**: every direction is in step.
-/

namespace Ilo2.Tls

open Crypto Attempt

/-! ### What the server reads -/

namespace Server

theorem message_frame {type : UInt8} {body : List UInt8} (h : body.length < 2 ^ 24) :
    message type (frame type body) = some body := by
  unfold message
  rw [← List.append_nil (frame type body), parseHandshake_frame h, List.append_nil]
  dsimp only
  rw [if_pos ⟨rfl, (length_frame type body).symm⟩]

/-- The offer is read. -/
theorem readClientHello_build (version : UInt16) (random : Vector UInt8 RANDOM_LEN) :
    ∃ body, buildClientHello version random [TLS_RSA_WITH_RC4_128_MD5] =
      frame HT_CLIENT_HELLO body ∧ body.length = 41 ∧
        readClientHello body = some (version, random) := by
  refine ⟨_, rfl, ?_, ?_⟩
  · simp only [List.length_append, Vector.length_toList]
    rfl
  have htail : ([0x00] ++ len16 ([TLS_RSA_WITH_RC4_128_MD5].length * 2) ++
      [TLS_RSA_WITH_RC4_128_MD5].flatMap be16 ++ [0x01, 0x00] : List UInt8) =
        [0, 0, 2, 0, 4, 1, 0] := by decide
  unfold readClientHello
  simp only [List.append_assoc] at htail ⊢
  rw [htail, u16_be16]
  simp only [Option.bind_eq_bind, Option.bind_some]
  rw [take_append Vector.length_toList]
  simp only [Option.bind_some, ofFn_toList]
  show (if TLS_RSA_WITH_RC4_128_MD5 ∈ suites [0, 4] ∧ (0 : UInt8) ∈ [0] then
    some (version, random) else none) = _
  exact if_pos (by decide)

/-- The offer is answered. -/
theorem handle_clientHello {s : Server} (h : s.phase = .clientHello) (version : UInt16)
    (random : Vector UInt8 RANDOM_LEN) :
    s.handle CT_HANDSHAKE (buildClientHello version random [TLS_RSA_WITH_RC4_128_MD5]) =
      s.answerHello (buildClientHello version random [TLS_RSA_WITH_RC4_128_MD5]) version random := by
  obtain ⟨body, hframe, hlen, hread⟩ := readClientHello_build version random
  have hmsg : message HT_CLIENT_HELLO (frame HT_CLIENT_HELLO body) = some body :=
    message_frame (by rw [hlen]; decide)
  unfold handle
  rw [h, hframe]
  dsimp only
  rw [hmsg]
  dsimp only
  rw [hread]
  exact if_pos rfl

theorem handle_certificate {s : Server} {offered : UInt16} {random : Vector UInt8 RANDOM_LEN}
    (h : s.phase = .certificate offered random) :
    s.handle CT_HANDSHAKE buildEmptyCertificate = ([], { s with
      transcript := s.transcript.update buildEmptyCertificate
      phase := .keyExchange offered random }) := by
  have hmsg : message HT_CERTIFICATE buildEmptyCertificate = some [0x00, 0x00, 0x00] :=
    message_frame (by decide)
  unfold handle
  rw [h]
  dsimp only
  rw [if_pos ⟨rfl, by rw [hmsg]; rfl⟩]

/-- The server finds the premaster secret that the client encrypted. -/
theorem readPremaster_encrypted {conf : HonestServer} {offered : UInt16}
    {premaster em out : List UInt8} {rng rng' : Rng}
    (hlen : premaster.length = PREMASTER_LEN) (hversion : premaster.take 2 = be16 offered)
    (hpad : pkcs1v15PadType2 conf.key.k premaster rng = (some em, rng'))
    (hout : rsaEncryptPkcs1v15 conf.key premaster rng = (some out, rng')) :
    out.length = conf.key.k ∧ conf.key.k ≤ 256 ∧
      readPremaster conf offered (len16 out.length ++ out) = some premaster := by
  have hkey := Der.parseCertificateRsaKey_spec _ _ conf.certified
  have hk : conf.key.k ≤ 256 := by
    have hvalid := hkey.valid
    simp only [RsaPublicKey.valid, decide_eq_true_eq] at hvalid
    exact hvalid.2.1
  obtain ⟨-, -, out', hout', hop⟩ := rsaEncrypt_spec hkey hpad
  rw [hout] at hout'
  cases hout'
  obtain ⟨hem, hunpad⟩ := decrypted hkey conf.inverts hpad hout
  refine ⟨hop.length, hk, ?_⟩
  have hnat : (BigEndian.u16 (out.length >>> 8).toUInt8 out.length.toUInt8).toNat = out.length :=
    BigEndian.u16_nat (by rw [hop.length]; omega)
  have hread : Reader.u16 (len16 out.length ++ out) =
      some (BigEndian.u16 (out.length >>> 8).toUInt8 out.length.toUInt8, out) := rfl
  unfold readPremaster
  rw [hread]
  dsimp only [Option.bind_eq_bind, Option.bind_some]
  rw [if_neg (by rw [hnat, hop.length]; simp), hem, hunpad]
  exact if_pos ⟨hlen, hversion⟩

theorem handle_keyExchange {s : Server} {offered : UInt16} {random : Vector UInt8 RANDOM_LEN}
    (h : s.phase = .keyExchange offered random) {premaster em out : List UInt8} {rng rng' : Rng}
    (hlen : premaster.length = PREMASTER_LEN) (hversion : premaster.take 2 = be16 offered)
    (hpad : pkcs1v15PadType2 s.conf.key.k premaster rng = (some em, rng'))
    (hout : rsaEncryptPkcs1v15 s.conf.key premaster rng = (some out, rng')) :
    s.handle CT_HANDSHAKE (frame HT_CLIENT_KEY_EXCHANGE (len16 out.length ++ out)) = ([], { s with
      transcript := s.transcript.update (frame HT_CLIENT_KEY_EXCHANGE (len16 out.length ++ out))
      phase := .changeCipherSpec (deriveMasterSecret premaster random s.conf.random)
        (ClientT.keyMaterial (deriveMasterSecret premaster random s.conf.random) s.conf.random
          random) }) := by
  obtain ⟨hk, hle, hread⟩ := readPremaster_encrypted hlen hversion hpad hout
  have hmsg : message HT_CLIENT_KEY_EXCHANGE
      (frame HT_CLIENT_KEY_EXCHANGE (len16 out.length ++ out)) = some (len16 out.length ++ out) :=
    message_frame (by rw [List.length_append, hk]; simp [len16]; omega)
  unfold handle
  rw [h]
  dsimp only
  rw [hmsg]
  dsimp only
  rw [hread]
  exact if_pos rfl

theorem handle_changeCipherSpec {s : Server} {master : Vector UInt8 MASTER_SECRET_LEN}
    {km : KeyMaterial} (h : s.phase = .changeCipherSpec master km) :
    s.handle CT_CHANGE_CIPHER_SPEC [0x01] = ([], { s with
      layer := s.layer.enableReadCipher km.clientMac km.clientKey
      phase := .finished master km }) := by
  unfold handle
  rw [h]
  exact if_pos ⟨rfl, rfl⟩

/-- A Finished over the same messages is accepted. -/
theorem handle_finished {s : Server} {master : Vector UInt8 MASTER_SECRET_LEN} {km : KeyMaterial}
    (h : s.phase = .finished master km) {t : Transcript} {msgs : List UInt8}
    (ht : t.Absorbed msgs) (hs : s.transcript.Absorbed msgs) :
    s.handle CT_HANDSHAKE (buildFinished master LABEL_CLIENT_FINISHED t) =
      s.answerFinished (buildFinished master LABEL_CLIENT_FINISHED t) master km := by
  have hmsg : message HT_FINISHED (buildFinished master LABEL_CLIENT_FINISHED t) =
      some (verifyData master LABEL_CLIENT_FINISHED t).toList :=
    message_frame (by rw [Vector.length_toList]; decide)
  have hcheck : checkFinished master LABEL_CLIENT_FINISHED s.transcript
      (verifyData master LABEL_CLIENT_FINISHED t).toList = true := by
    rw [checkFinished_iff, ht.verifyData, hs.verifyData]
  unfold handle
  rw [h]
  dsimp only
  rw [hmsg]
  dsimp only
  rw [if_pos ⟨rfl, hcheck⟩]

end Server

/-! ### The network as a stream -/

namespace Network

instance : Piped Network where
  wire := wire
  waits _ := 0
  wire_recv {t t' cap r} h := by
    replace h : recv t cap = (r, t') := h
    unfold recv at h
    split at h <;> cases h
    · rfl
    · exact (List.take_append_drop _ _).symm
  ready {t t' cap r} hcap hwire h := by
    replace h : recv t cap = (r, t') := h
    unfold recv at h
    rw [if_neg hwire] at h
    cases h
    refine Or.inr ⟨fun hnil => ?_, Nat.le_refl 0⟩
    have hlen := congrArg List.length hnil
    have hpos := List.length_pos_iff.mpr hwire
    rw [RecvResult.data, List.length_take, List.length_nil] at hlen
    omega

instance : Prompt Network := ⟨fun _ => rfl⟩

/-- Reading changes nothing at the server. -/
theorem server_pulled {t t' : Network} (h : Pulled t t') : t'.server = t.server := by
  induction h with
  | refl => rfl
  | @step t₁ t₂ cap r _ hrecv ih =>
      replace hrecv : recv t₁ cap = (r, t₂) := hrecv
      rw [← ih]
      unfold recv at hrecv
      split at hrecv <;> cases hrecv <;> rfl

end Network

namespace ClientT

/-! ### What the client sends -/

/-- A record in step reaches the server's handler. -/
theorem receive_sendPiece {w : RecordLayer} {s : Server} {p : Piece} (h : w.InStep s.layer)
    (hfits : p.Fits) : ∃ layer, s.receive (sendPiece w p).1 =
        ({ s with layer := layer } : Server).handle p.type p.data ∧
      (sendPiece w p).2.InStep layer ∧ layer.writer = s.layer.writer := by
  obtain ⟨len, hparse, -⟩ := @RecordLayerT.parseRecordHeader_header w.version p.type _
    (RecordLayerT.length_sealed_le w p.type hfits.2)
  have hopen := h.unprotect_sealed p.type hfits.2
  rw [sendPiece_fits hfits]
  refine ⟨{ s.layer with
    readCipher := (w.sealed p.type p.data).2, readSeq := s.layer.readSeq + 1 }, ?_,
      ⟨rfl, congrArg (· + 1) h.seq⟩, rfl⟩
  unfold Server.receive
  rw [hparse, receive_header _ hparse, hopen]

/-- The client after a record that the server answered with `out`. -/
structure Sent (c c' : ClientT Network) (s : Server) (out : List UInt8) : Prop where
  server : c'.sock.server = s
  wire : Piped.wire c'.sock = Piped.wire c.sock ++ out
  reader : c'.recLayer.reader = c.recLayer.reader
  same : ∃ layer sock, c' = { c with recLayer := layer, sock := sock }

theorem sendRecord_handled {c : ClientT Network} {p : Piece}
    (h : c.recLayer.InStep c.sock.server.layer) (hfits : p.Fits) :
    ∃ c' layer, Returns (sendRecord p.type p.data) c () c' ∧ c'.recLayer.InStep layer ∧
      layer.writer = c.sock.server.layer.writer ∧
      Sent c c' (({ c.sock.server with layer := layer } : Server).handle p.type p.data).2
        (({ c.sock.server with layer := layer } : Server).handle p.type p.data).1 := by
  obtain ⟨layer, hrecv, hin, hwriter⟩ := receive_sendPiece h hfits
  have hsend := sendRecord_fits hfits c
  refine ⟨_, layer, hsend, hin, hwriter, ?_, ?_, ?_, _, _, rfl⟩
  · show (c.sock.server.receive _).2 = _
    rw [hrecv]
  · show c.sock.wire ++ (c.sock.server.receive _).1 = _
    rw [hrecv]
    rfl
  · have hreader := sendPieces_reader c.recLayer [p]
    exact hreader

/-- What the server adds to its stream comes after what is on the way. -/
theorem Feed.answered {c c' : ClientT Network} {s' : Server} {layer : RecordLayer}
    {ps qs : List Piece} {rest : List UInt8} (h : Feed c.sock.server.layer.writer ps [] c)
    (hwriter : layer.writer = c.sock.server.layer.writer)
    (hsent : Sent c c' s' ((sendPieces layer qs).1 ++ rest)) :
    Feed (sendPieces layer qs).2.writer (ps ++ qs) rest c' := by
  obtain ⟨w, hin, hw, hbytes⟩ := h
  obtain ⟨layer', sock', hc'⟩ := hsent.same
  have hrx : c'.rx = c.rx := by rw [hc']
  obtain ⟨hout, hend⟩ := sendPieces_congr (hw.trans hwriter.symm : _ = layer.writer) qs
  refine ⟨w, hin.of_reader hsent.reader, ?_, ?_⟩
  · rw [sendPieces_append]
    exact hend
  · rw [hrx, hsent.wire, ← List.append_assoc, hbytes, sendPieces_append, hout, List.append_nil,
      List.append_assoc]

/-- The handshake bytes that are still to come to the client are `pending`, in less than `n`
records. -/
def Due (w' : RecordLayer) (pending : List UInt8) (n : Nat) (c : ClientT Network) : Prop :=
  ∃ ps, Feed w' ps [] c ∧ (∀ p ∈ ps, p.Legal) ∧ c.hs ++ payload ps = pending ∧ ps.length < n

/-- They come from this server, which is in step. -/
structure Inflow (s : Server) (pending : List UInt8) (n : Nat) (c : ClientT Network) : Prop where
  server : c.sock.server = s
  up : c.recLayer.InStep s.layer
  down : Due s.layer.writer pending n c

/-- What the client has absorbed since, and what it kept. -/
structure Grown (c c' : ClientT Network) (msgs : List UInt8) : Prop where
  opt : c'.opt = c.opt
  rng : c'.rng = c.rng
  transcript : ∀ before, c.transcript.Absorbed before → c'.transcript.Absorbed (before ++ msgs)

theorem Grown.trans {c₁ c₂ c₃ : ClientT Network} {a b : List UInt8} (h : Grown c₁ c₂ a)
    (g : Grown c₂ c₃ b) : Grown c₁ c₃ (a ++ b) where
  opt := g.opt.trans h.opt
  rng := g.rng.trans h.rng
  transcript before hb := by
    rw [← List.append_assoc]
    exact g.transcript _ (h.transcript _ hb)

/-- A message that is absorbed after a read. -/
theorem Frame.grown {c c' : ClientT Network} (h : Frame c c') (msg : List UInt8) :
    Grown c { c' with transcript := c'.transcript.update msg } msg :=
  ⟨h.opt, h.rng, fun _ hb => (h.transcript ▸ hb).update msg⟩

variable {s : Server} {more : List UInt8} {n records : Nat} {c : ClientT Network}

/-- The message that comes next is read. -/
theorem nextHandshake_inflow {type : UInt8} {body : List UInt8}
    (h : Inflow s (frame type body ++ more) n c) (hlen : body.length < 2 ^ 24) (hn : n ≤ records) :
    ∃ c', Returns (nextHandshake records) c
        (frame type body, ⟨type, body, HANDSHAKE_HEADER_LEN + body.length⟩) c' ∧
      Inflow s more n c' ∧ Frame c c' := by
  obtain ⟨ps, hfeed, hlegal, hbytes, hless⟩ := h.down
  obtain ⟨c', qs, hret, hfeed', hlegal', hmore, hle, hkept⟩ :=
    nextHandshake_feed hlen hfeed hlegal hbytes (Nat.lt_of_lt_of_le hless hn)
  have hup : c'.recLayer.InStep s.layer := h.up.of_writer hkept.frame.writer
  exact ⟨c', hret, ⟨(Network.server_pulled hkept.pulled).trans h.server, hup, qs, hfeed', hlegal',
    hmore, Nat.lt_of_le_of_lt hle hless⟩, hkept.frame⟩

/-! ### The stages of the handshake -/

theorem receiveServerHello_complete {sh : ServerHello}
    (h : Inflow s (frame HT_SERVER_HELLO (encodeServerHello sh) ++ more) n c) (hn : n ≤ records)
    (hversion : sh.version = c.opt.version) (hsuite : sh.cipherSuite = TLS_RSA_WITH_RC4_128_MD5)
    (hcomp : sh.compression = 0) (hsid : sh.sessionId.length ≤ 32) :
    ∃ c', Returns (receiveServerHello records) c sh c' ∧ Inflow s more n c' ∧
      Grown c c' (frame HT_SERVER_HELLO (encodeServerHello sh)) := by
  have hlen : (encodeServerHello sh).length < 2 ^ 24 := by
    have hrandom : sh.random.toList.length = 32 := Vector.length_toList
    simp only [encodeServerHello, be16, List.length_append, List.length_cons, List.length_nil]
    omega
  have hparse : parseServerHello (encodeServerHello sh) = some sh := by
    rw [← List.append_nil (encodeServerHello sh)]
    exact parseServerHello_encode hsid []
  obtain ⟨c₁, hret, hin, hframe⟩ := nextHandshake_inflow h hlen hn
  have hopt : sh.version = c₁.opt.version := hversion.trans (congrArg Options.version hframe.opt).symm
  have hgrown := hframe.grown (frame HT_SERVER_HELLO (encodeServerHello sh))
  refine ⟨{ c₁ with
    transcript := c₁.transcript.update (frame HT_SERVER_HELLO (encodeServerHello sh))
    suite := sh.cipherSuite }, ?_, ?_, ?_⟩
  · exact hret.bind <| (demand_returns rfl).bind <| (modify_returns _).bind <|
      (ofOption_returns hparse).bind <| get_returns.bind <| (demand_returns hopt).bind <|
      (demand_returns hsuite).bind <| (demand_returns hcomp).bind <| (modify_returns _).bind <|
      pure_returns _
  · exact ⟨hin.server, hin.up, hin.down⟩
  · exact ⟨hgrown.opt, hgrown.rng, hgrown.transcript⟩

theorem receiveCertificate_complete {chain : List (List UInt8)} {key : RsaPublicKey}
    (h : Inflow s (frame HT_CERTIFICATE (encodeCertificateList chain) ++ more) n c)
    (hn : n ≤ records) (hlen : (encodeCertificateList chain).length < 2 ^ 24)
    (hkey : (Der.parseCertificateRsaKey (chain.headD [])).Yields key) :
    ∃ c', Returns (receiveCertificate records) c () c' ∧ Inflow s more n c' ∧
      Grown c c' (frame HT_CERTIFICATE (encodeCertificateList chain)) ∧ c'.serverKey = key := by
  have hne : chain ≠ [] := by
    intro hnil
    rw [hnil] at hkey
    exact absurd hkey (by unfold Checked.Guarded.Yields; exact nofun)
  have hentries : (chain.flatMap encodeEntry).length < 2 ^ 24 := by
    rw [encodeCertificateList, List.length_append] at hlen
    omega
  have hparse : parseCertificateList (encodeCertificateList chain) = some chain := by
    rw [← List.append_nil (encodeCertificateList chain)]
    exact parseCertificateList_encode hne hentries []
  obtain ⟨c₁, hret, hin, hframe⟩ := nextHandshake_inflow h hlen hn
  have hgrown := hframe.grown (frame HT_CERTIFICATE (encodeCertificateList chain))
  have hcert (c : ClientT Network) : Returns (certificateKey (chain.headD [])) c key c := by
    unfold certificateKey
    rw [hkey]
    exact pure_returns _
  refine ⟨{ c₁ with
    transcript := c₁.transcript.update (frame HT_CERTIFICATE (encodeCertificateList chain))
    serverCert := chain.headD []
    serverKey := key }, ?_, ?_, ?_, rfl⟩
  · exact hret.bind <| (demand_returns rfl).bind <| (modify_returns _).bind <|
      (ofOption_returns hparse).bind <| (modify_returns _).bind <| (hcert _).bind <|
      modify_returns _
  · exact ⟨hin.server, hin.up, hin.down⟩
  · exact ⟨hgrown.opt, hgrown.rng, hgrown.transcript⟩

/-- Any number of requests, then the end of the flight. -/
theorem receiveUntilDone_complete {requests : List (List UInt8)} {messages : Nat} {asked : Bool}
    (h : Inflow s (requests.flatMap (frame HT_CERTIFICATE_REQUEST) ++
      (frame HT_SERVER_HELLO_DONE [] ++ more)) n c)
    (hn : n ≤ records) (hlen : ∀ body ∈ requests, body.length < 2 ^ 24)
    (hmessages : requests.length < messages) :
    ∃ c', Returns (receiveUntilDone records messages asked) c (asked || !requests.isEmpty) c' ∧
      Inflow s more n c' ∧ c'.serverKey = c.serverKey ∧
      Grown c c'
        (requests.flatMap (frame HT_CERTIFICATE_REQUEST) ++ frame HT_SERVER_HELLO_DONE []) := by
  induction requests generalizing c messages asked with
  | nil =>
      obtain ⟨messages, rfl⟩ : ∃ m, messages = m + 1 := ⟨messages - 1, by simp at hmessages; omega⟩
      obtain ⟨c₁, hret, hin, hframe⟩ := nextHandshake_inflow h (by decide) hn
      have hgrown := hframe.grown (frame HT_SERVER_HELLO_DONE [])
      refine ⟨{ c₁ with transcript := c₁.transcript.update (frame HT_SERVER_HELLO_DONE []) }, ?_,
        ⟨hin.server, hin.up, hin.down⟩, hframe.serverKey, hgrown⟩
      refine hret.bind <| (modify_returns _).bind ?_
      dsimp only
      rw [if_pos rfl]
      simp
  | cons body requests ih =>
      obtain ⟨messages, rfl⟩ : ∃ m, messages = m + 1 := ⟨messages - 1, by simp at hmessages; omega⟩
      rw [List.flatMap_cons, List.append_assoc] at h
      obtain ⟨c₁, hret, hin, hframe⟩ := nextHandshake_inflow h (hlen body List.mem_cons_self) hn
      have hgrown := hframe.grown (frame HT_CERTIFICATE_REQUEST body)
      obtain ⟨c₂, hret₂, hin₂, hkey, hgrown₂⟩ := @ih
        { c₁ with transcript := c₁.transcript.update (frame HT_CERTIFICATE_REQUEST body) } messages true
        ⟨hin.server, hin.up, hin.down⟩ (fun b hb => hlen b (List.mem_cons_of_mem body hb))
        (Nat.lt_of_succ_lt_succ hmessages)
      refine ⟨c₂, ?_, hin₂, hkey.trans hframe.serverKey, ?_⟩
      · refine hret.bind <| (modify_returns _).bind ?_
        dsimp only
        rw [if_neg (by decide), if_pos rfl]
        simpa using hret₂
      · rw [List.flatMap_cons, List.append_assoc]
        exact hgrown.trans hgrown₂

end ClientT

end Ilo2.Tls
