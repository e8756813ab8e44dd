import Ilo2.Tls.Reading

/-!
# What a handshake was about

A handshake that returns leaves two streams behind: the records that were delivered and
the records that were sent.  A `Conversation` holds what both sides contributed;
`Completed` says that the two streams are what it prescribes.

* `Opening` - how far the streams and the transcript are before the switch of keys.
* `receiveFinished_sound` - the streams after it.
-/

namespace Ilo2.Tls

open Crypto Attempt

/-- A record before the switch of keys. -/
def plainRecord (type : UInt8) (data : List UInt8) : List UInt8 :=
  RecordLayerT.header VERSION_TLS_1_0 type data.length ++ data

/-- What the two sides contribute to a handshake: bodies of messages, random values, and the
premaster secret with the message that carries it. -/
structure Conversation where
  version : UInt16
  clientRandom : Vector UInt8 RANDOM_LEN
  hello : ServerHello
  helloBody : List UInt8
  certificateBody : List UInt8
  requests : List (List UInt8)
  doneBody : List UInt8
  premaster : List UInt8
  keyExchange : List UInt8

namespace Conversation

variable (v : Conversation)

def clientHello : List UInt8 :=
  buildClientHello v.version v.clientRandom [TLS_RSA_WITH_RC4_128_MD5]

/-- The server's messages before the switch. -/
def flight : List UInt8 :=
  frame HT_SERVER_HELLO v.helloBody ++ frame HT_CERTIFICATE v.certificateBody ++
    v.requests.flatMap (frame HT_CERTIFICATE_REQUEST) ++ frame HT_SERVER_HELLO_DONE v.doneBody

/-- The client's empty Certificate, if it was asked for one. -/
def certificate : List (List UInt8) := if v.requests = [] then [] else [buildEmptyCertificate]

def master : Vector UInt8 MASTER_SECRET_LEN :=
  deriveMasterSecret v.premaster v.clientRandom v.hello.random

def keys : KeyMaterial := ClientT.keyMaterial v.master v.hello.random v.clientRandom

/-- All handshake messages before the client's Finished. -/
def messages : List UInt8 := v.clientHello ++ v.flight ++ v.certificate.flatten ++ v.keyExchange

def clientFinished : List UInt8 :=
  frame HT_FINISHED (deriveVerifyData v.master LABEL_CLIENT_FINISHED (MD5.hash v.messages)
    (SHA1.hash v.messages)).toList

/-- `PRF(master, "server finished", MD5(T) || SHA1(T))`, where `T` is all messages up to and
with the client's Finished. -/
def serverVerifyData : List UInt8 :=
  (deriveVerifyData v.master LABEL_SERVER_FINISHED (MD5.hash (v.messages ++ v.clientFinished))
    (SHA1.hash (v.messages ++ v.clientFinished))).toList

/-- The client's Finished under the client's keys. -/
def sealedFinished : List UInt8 :=
  (sendPiece (({} : RecordLayer).enableWriteCipher v.keys.clientMac v.keys.clientKey)
    ⟨CT_HANDSHAKE, v.clientFinished⟩).1

/-- The records that the client sends. -/
def sent : List (List UInt8) :=
  [plainRecord CT_HANDSHAKE v.clientHello] ++ v.certificate.map (plainRecord CT_HANDSHAKE) ++
    [plainRecord CT_HANDSHAKE v.keyExchange, plainRecord CT_CHANGE_CIPHER_SPEC [0x01],
      v.sealedFinished]

end Conversation

/-- The records that the client reads: `before` in clear, the switch, and `after` under the
server's keys from sequence number 0 on.  `alert` says which alerts may stand in between. -/
structure Conversation.Reads (alert : List UInt8 → Prop) (v : Conversation) (stream : List UInt8)
    (before : List Received) (switch : Received) (after : List Received) (rest : List UInt8) :
    Prop where
  stream_eq : stream = (before ++ switch :: after).flatMap Received.wire ++ rest
  clear : ∃ r, Opens {} (before ++ [switch]) r
  cleartext : ∀ x ∈ before ++ [switch], x.plaintext = x.body
  before_kinds : ∀ x ∈ before, x.type = CT_HANDSHAKE ∨ x.type = CT_ALERT ∧ alert x.plaintext
  before_payload : payload (before.map Received.piece) = v.flight
  switch_type : switch.type = CT_CHANGE_CIPHER_SPEC
  switch_plaintext : switch.plaintext = [0x01]
  authenticated : ∃ r, r.readSeq = UInt64.ofNat after.length ∧
    Opens (({} : RecordLayer).enableReadCipher v.keys.serverMac v.keys.serverKey) after r
  after_kinds : ∀ x ∈ after, x.type = CT_HANDSHAKE ∨ x.type = CT_ALERT ∧ alert x.plaintext
  after_payload : ∃ more, payload (after.map Received.piece) =
    frame HT_FINISHED v.serverVerifyData ++ more

/-- The hello is the client's offer accepted, the premaster secret went to the server under
the key of its certificate, and the two streams are those of the conversation. -/
structure Conversation.Completed {T : Type} [Transport T] [Observed T]
    (alert : List UInt8 → Prop) (v : Conversation) (c c' : ClientT T) : Prop where
  version : v.version = c.opt.version
  hello : parseServerHello v.helloBody = some v.hello
  hello_version : v.hello.version = v.version
  hello_suite : v.hello.cipherSuite = TLS_RSA_WITH_RC4_128_MD5
  hello_compression : v.hello.compression = 0
  premaster : ∃ certs key rng rng', parseCertificateList v.certificateBody = some certs ∧
    (Der.parseCertificateRsaKey (certs.headD [])).Yields key ∧
    buildClientKeyExchange key v.premaster rng = (some v.keyExchange, rng')
  received : ∃ stream before switch after rest,
    Observed.delivered c'.sock = Observed.delivered c.sock ++ stream ∧
      v.Reads alert stream before switch after rest
  sent : Observed.sent c'.sock = Observed.sent c.sock ++ v.sent
  connected : c'.connected = true

namespace ClientT

variable {T : Type}

/-- A client before it has done anything. -/
def fresh (opt : Options) (sock : T) (rng : Rng) : ClientT T := { opt := opt, sock := sock, rng := rng }

/-- The client writes in clear. -/
structure Cleartext (c : ClientT T) : Prop where
  cipher : c.recLayer.writeCipher = none
  version : c.recLayer.version = VERSION_TLS_1_0

theorem Frame.cleartext {c c' : ClientT T} (h : Frame c c') (hc : Cleartext c) : Cleartext c' where
  cipher := (congrArg RecordLayerT.writeCipher h.writer).trans hc.cipher
  version := (congrArg RecordLayerT.version h.writer).trans hc.version

theorem certificateKey_sound {cert : List UInt8} {key : RsaPublicKey} {c c' : ClientT T}
    (h : Returns (certificateKey cert) c key c') :
    (Der.parseCertificateRsaKey cert).Yields key ∧ c' = c := by
  unfold certificateKey at h
  split at h
  · rename_i key' hrun
    obtain ⟨rfl, rfl⟩ := returns_pure.mp h
    exact ⟨hrun, rfl⟩
  · exact (returns_fail.mp h).elim
  · exact (returns_fail.mp h).elim

variable [Transport T] [Observed T]

/-! ### Before the switch -/

/-- The streams and the transcript of a client that started as `c₀`. -/
structure Opening (c₀ : ClientT T) (read msgs : List UInt8) (out : List (List UInt8))
    (c : ClientT T) : Prop where
  opt : c.opt = c₀.opt
  progress : ∃ xs, Progress {} (Observed.delivered c₀.sock) xs read c
  transcript : c.transcript.Absorbed msgs
  sent : Observed.sent c.sock = Observed.sent c₀.sock ++ out

variable {c₀ c c' : ClientT T} {read msgs : List UInt8} {out : List (List UInt8)}

/-- Only these fields matter. -/
theorem Opening.congr (h : Opening c₀ read msgs out c) (hopt : c'.opt = c.opt)
    (hsock : c'.sock = c.sock) (hlayer : c'.recLayer.reader = c.recLayer.reader)
    (htrans : c'.transcript = c.transcript) (hrx : c'.rx = c.rx) (hhs : c'.hs = c.hs) :
    Opening c₀ read msgs out c' := by
  obtain ⟨xs, hp⟩ := h.progress
  exact ⟨hopt.trans h.opt, ⟨xs, by rw [hsock, hrx]; exact hp.stream, by rw [hlayer]; exact hp.opens,
    hp.kinds, by rw [hhs]; exact hp.payload⟩, by rw [htrans]; exact h.transcript,
    by rw [hsock]; exact h.sent⟩

theorem Opening.absorb (h : Opening c₀ read msgs out c) (msg : List UInt8) :
    Opening c₀ read (msgs ++ msg) out { c with transcript := c.transcript.update msg } := by
  obtain ⟨xs, hp⟩ := h.progress
  exact ⟨h.opt, ⟨xs, hp.stream, hp.opens, hp.kinds, hp.payload⟩, h.transcript.update msg, h.sent⟩

theorem Opening.next {records : Nat} {msg : List UInt8} {m : HandshakeMessage}
    (h : Opening c₀ read msgs out c) (hr : Returns (nextHandshake records) c (msg, m) c') :
    Opening c₀ (read ++ msg) msgs out c' ∧ Frame c c' ∧ msg = frame m.type m.body := by
  obtain ⟨xs, hp⟩ := h.progress
  obtain ⟨hf, hs, hmsg, -, hp'⟩ := nextHandshake_sound hp hr
  exact ⟨⟨hf.opt.trans h.opt, hp', hf.transcript ▸ h.transcript, hs.trans h.sent⟩, hf, hmsg⟩

/-- A record that is sent: what it is, and what sending changes. -/
theorem sendRecord_sound {type : UInt8} {data : List UInt8}
    (h : Returns (sendRecord type data) c () c') :
    ∃ record layer sock, c.recLayer.writer.protect type data = (some record, layer.writer) ∧
      layer.reader = c.recLayer.reader ∧ Observed.delivered sock = Observed.delivered c.sock ∧
      Observed.sent sock = Observed.sent c.sock ++ [record] ∧
      c' = { c with recLayer := layer, sock := sock } := by
  unfold Returns sendRecord at h
  split at h
  · cases h
  · rename_i record layer hprot
    have hreader := RecordLayerT.protect_reader c.recLayer type data
    have hwriter := RecordLayerT.protect_writer c.recLayer type data
    rw [hprot] at hreader hwriter
    split at h
    · rename_i sock hsend
      cases h
      exact ⟨record, layer, sock, hwriter, hreader, Observed.delivered_sendAll hsend,
        Observed.sent_sendAll hsend, rfl⟩
    · cases h

theorem Opening.send {type : UInt8} {data : List UInt8} (h : Opening c₀ read msgs out c)
    (hs : Returns (sendRecord type data) c () c') :
    ∃ record, c.recLayer.writer.protect type data = (some record, c'.recLayer.writer) ∧
      Opening c₀ read msgs (out ++ [record]) c' := by
  obtain ⟨record, layer, sock, hprot, hreader, hdel, hsent, rfl⟩ := sendRecord_sound hs
  obtain ⟨xs, hp⟩ := h.progress
  refine ⟨record, hprot, h.opt, ⟨xs, ?_, ?_, hp.kinds, hp.payload⟩, h.transcript, ?_⟩
  · exact hdel.trans hp.stream
  · show Opens {} xs layer.reader
    rw [hreader]
    exact hp.opens
  · show Observed.sent sock = _
    rw [hsent, h.sent, List.append_assoc]

/-- In clear, the record is a header and the data. -/
theorem Opening.sendClear {type : UInt8} {data : List UInt8} (h : Opening c₀ read msgs out c)
    (hc : Cleartext c) (hs : Returns (sendRecord type data) c () c') :
    Opening c₀ read msgs (out ++ [plainRecord type data]) c' ∧ Cleartext c' := by
  obtain ⟨record, hprot, h'⟩ := h.send hs
  rw [RecordLayerT.protect_eq] at hprot
  have hcipher : c.recLayer.writer.writeCipher = none := hc.cipher
  split at hprot
  · cases hprot
  · unfold RecordLayerT.sealed at hprot
    rw [hcipher] at hprot
    obtain ⟨hrec, hlayer⟩ := Prod.mk.inj hprot
    have hplain : record = plainRecord type data := by
      rw [plainRecord, ← hc.version]
      exact (Option.some.inj hrec).symm
    exact ⟨hplain ▸ h', (congrArg RecordLayerT.writeCipher hlayer).symm,
      (congrArg RecordLayerT.version hlayer).symm.trans hc.version⟩

/-! ### The stages of the handshake -/

theorem sendClientHello_sound {random : Vector UInt8 RANDOM_LEN}
    (h : Opening c₀ read msgs out c) (hc : Cleartext c) (hr : Returns sendClientHello c random c') :
    Opening c₀ read
      (msgs ++ buildClientHello c₀.opt.version random [TLS_RSA_WITH_RC4_128_MD5])
      (out ++ [plainRecord CT_HANDSHAKE
        (buildClientHello c₀.opt.version random [TLS_RSA_WITH_RC4_128_MD5])]) c' ∧
      Cleartext c' := by
  simp only [sendClientHello, absorb, returns_bind, returns_get, returns_modify, returns_pure] at hr
  obtain ⟨_, _, ⟨rfl, rfl⟩, random', c₁, hdraw, _, _, rfl, _, c₂, hsend, rfl, rfl⟩ := hr
  unfold Returns draw at hdraw
  split at hdraw
  · rename_i a rng hmake
    cases hdraw
    have h₁ : Opening c₀ read msgs out { c with rng := rng } := h.congr rfl rfl rfl rfl rfl rfl
    rw [← h.opt]
    exact (h₁.absorb _).sendClear ⟨hc.cipher, hc.version⟩ hsend
  · cases hdraw

theorem receiveServerHello_sound {records : Nat} {sh : ServerHello}
    (h : Opening c₀ read msgs out c) (hr : Returns (receiveServerHello records) c sh c') :
    ∃ body, Opening c₀ (read ++ frame HT_SERVER_HELLO body) (msgs ++ frame HT_SERVER_HELLO body) out
        c' ∧ (Cleartext c → Cleartext c') ∧ parseServerHello body = some sh ∧
      sh.version = c₀.opt.version ∧ sh.cipherSuite = TLS_RSA_WITH_RC4_128_MD5 ∧
      sh.compression = 0 := by
  simp only [receiveServerHello, absorb, returns_bind, Prod.exists, returns_get, returns_modify,
    returns_pure, returns_demand, returns_ofOption] at hr
  obtain ⟨msg, m, c₁, hnext, _, _, ⟨htype, rfl⟩, _, _, rfl, sh', _, ⟨hparse, rfl⟩, _, _,
    ⟨rfl, rfl⟩, _, _,
    ⟨hversion, rfl⟩, _, _, ⟨hsuite, rfl⟩, _, _, ⟨hcomp, rfl⟩, _, _, rfl, rfl, rfl⟩ := hr
  obtain ⟨h₁, hf, hmsg⟩ := h.next hnext
  rw [htype] at hmsg
  subst hmsg
  refine ⟨m.body, (h₁.absorb _).congr rfl rfl rfl rfl rfl rfl, fun hc => ?_, hparse, ?_, hsuite, hcomp⟩
  · have hc₁ := hf.cleartext hc
    exact ⟨hc₁.cipher, hc₁.version⟩
  · exact hversion.trans (congrArg Options.version h₁.opt)

theorem receiveCertificate_sound {records : Nat} (h : Opening c₀ read msgs out c)
    (hr : Returns (receiveCertificate records) c () c') :
    ∃ body certs, Opening c₀ (read ++ frame HT_CERTIFICATE body)
        (msgs ++ frame HT_CERTIFICATE body) out c' ∧ (Cleartext c → Cleartext c') ∧
      parseCertificateList body = some certs ∧
      (Der.parseCertificateRsaKey (certs.headD [])).Yields c'.serverKey := by
  simp only [receiveCertificate, absorb, returns_bind, Prod.exists, returns_modify,
    returns_demand, returns_ofOption] at hr
  obtain ⟨msg, m, c₁, hnext, _, _, ⟨htype, rfl⟩, _, _, rfl, certs, _, ⟨hparse, rfl⟩, _, _, rfl, key, c₂,
    hkey, rfl⟩ := hr
  obtain ⟨hyields, rfl⟩ := certificateKey_sound hkey
  obtain ⟨h₁, hf, hmsg⟩ := h.next hnext
  rw [htype] at hmsg
  subst hmsg
  refine ⟨m.body, certs, (h₁.absorb _).congr rfl rfl rfl rfl rfl rfl, fun hc => ?_, hparse, hyields⟩
  have hc₁ := hf.cleartext hc
  exact ⟨hc₁.cipher, hc₁.version⟩

/-- The loop collects the bodies of the CertificateRequests. -/
theorem receiveUntilDone_sound {records messages : Nat} {asked asked' : Bool}
    (h : Opening c₀ read msgs out c)
    (hr : Returns (receiveUntilDone records messages asked) c asked' c') :
    ∃ requests body, Opening c₀
        (read ++ requests.flatMap (frame HT_CERTIFICATE_REQUEST) ++ frame HT_SERVER_HELLO_DONE body)
        (msgs ++ requests.flatMap (frame HT_CERTIFICATE_REQUEST) ++ frame HT_SERVER_HELLO_DONE body)
        out c' ∧ (Cleartext c → Cleartext c') ∧ c'.serverKey = c.serverKey ∧
      (asked' = true ↔ asked = true ∨ requests ≠ []) := by
  induction messages generalizing c read msgs asked with
  | zero => exact (returns_fail.mp hr).elim
  | succ messages ih =>
      simp only [receiveUntilDone, absorb, returns_bind, Prod.exists, returns_modify] at hr
      obtain ⟨msg, m, c₁, hnext, _, _, rfl, hr⟩ := hr
      obtain ⟨h₁, hf, hmsg⟩ := h.next hnext
      have h₂ := h₁.absorb msg
      have hclear : Cleartext c →
          Cleartext { c₁ with transcript := c₁.transcript.update msg } := fun hc =>
        ⟨(hf.cleartext hc).cipher, (hf.cleartext hc).version⟩
      split at hr
      · rename_i htype
        obtain ⟨rfl, rfl⟩ := returns_pure.mp hr
        rw [htype] at hmsg
        subst hmsg
        exact ⟨[], m.body, by simpa using h₂, hclear, hf.serverKey, by simp⟩
      · split at hr
        · rename_i htype
          rw [htype] at hmsg
          subst hmsg
          obtain ⟨requests, body, h₃, hclear', hkey, hasked⟩ := ih h₂ hr
          refine ⟨m.body :: requests, body, ?_, fun hc => hclear' (hclear hc), hkey.trans hf.serverKey,
            by simp [hasked]⟩
          simpa [List.append_assoc] using h₃
        · split at hr
          · exact (returns_fail.mp hr).elim
          · exact (returns_fail.mp hr).elim

theorem sendCertificate_sound {asked : Bool} (h : Opening c₀ read msgs out c) (hc : Cleartext c)
    (hr : Returns (sendCertificate asked) c () c') :
    Opening c₀ read (msgs ++ if asked then buildEmptyCertificate else [])
      (out ++ if asked then [plainRecord CT_HANDSHAKE buildEmptyCertificate] else []) c' ∧
      Cleartext c' ∧ c'.serverKey = c.serverKey := by
  unfold sendCertificate at hr
  cases asked with
  | true =>
      simp only [absorb, if_true, returns_bind, returns_modify] at hr
      obtain ⟨_, _, rfl, hsend⟩ := hr
      obtain ⟨h', hc'⟩ := (h.absorb _).sendClear ⟨hc.cipher, hc.version⟩ hsend
      obtain ⟨_, _, _, -, -, -, -, rfl⟩ := sendRecord_sound hsend
      exact ⟨h', hc', rfl⟩
  | false =>
      obtain ⟨-, rfl⟩ := returns_pure.mp hr
      exact ⟨by simpa using h, hc, rfl⟩

theorem sendClientKeyExchange_sound {premaster : List UInt8} (h : Opening c₀ read msgs out c)
    (hc : Cleartext c) (hr : Returns sendClientKeyExchange c premaster c') :
    ∃ cke rng rng', buildClientKeyExchange c.serverKey premaster rng = (some cke, rng') ∧
      Opening c₀ read (msgs ++ cke) (out ++ [plainRecord CT_HANDSHAKE cke]) c' ∧ Cleartext c' := by
  simp only [sendClientKeyExchange, absorb, returns_bind, returns_get, returns_modify,
    returns_pure] at hr
  obtain ⟨_, _, ⟨rfl, rfl⟩, premaster', c₁, hdraw₁, cke, c₂, hdraw₂, _, _, rfl, _, c₃, hsend,
    rfl, rfl⟩ :=
    hr
  unfold Returns draw at hdraw₁ hdraw₂
  split at hdraw₁
  · cases hdraw₁
    split at hdraw₂
    · rename_i a rng hbuild
      cases hdraw₂
      have h₁ : Opening c₀ read msgs out { c with rng := rng } := h.congr rfl rfl rfl rfl rfl rfl
      obtain ⟨h', hc'⟩ := (h₁.absorb _).sendClear ⟨hc.cipher, hc.version⟩ hsend
      exact ⟨_, _, _, hbuild, h', hc'⟩
    · cases hdraw₂
  · cases hdraw₁

/-- The first record under the client's keys. -/
theorem sendFinished_sound {master : Vector UInt8 MASTER_SECRET_LEN} {km : KeyMaterial}
    (h : Opening c₀ read msgs out c) (hc : Cleartext c)
    (hr : Returns (sendFinished master km) c () c') :
    ∃ fin, fin = frame HT_FINISHED (deriveVerifyData master LABEL_CLIENT_FINISHED (MD5.hash msgs)
        (SHA1.hash msgs)).toList ∧
      Opening c₀ read (msgs ++ fin) (out ++ [plainRecord CT_CHANGE_CIPHER_SPEC [0x01],
        (sendPiece (({} : RecordLayer).enableWriteCipher km.clientMac km.clientKey)
          ⟨CT_HANDSHAKE, fin⟩).1]) c' := by
  simp only [sendFinished, absorb, returns_bind, returns_get, returns_modify] at hr
  obtain ⟨_, c₁, hccs, _, _, rfl, _, _, ⟨rfl, rfl⟩, _, _, rfl, hsend⟩ := hr
  obtain ⟨h₁, hc₁⟩ := h.sendClear hc hccs
  have h₂ : Opening c₀ read msgs (out ++ [plainRecord CT_CHANGE_CIPHER_SPEC [0x01]])
      { c₁ with recLayer := c₁.recLayer.enableWriteCipher km.clientMac km.clientKey } :=
    h₁.congr rfl rfl rfl rfl rfl rfl
  have hwriter : (c₁.recLayer.enableWriteCipher km.clientMac km.clientKey).writer =
      ({} : RecordLayer).enableWriteCipher km.clientMac km.clientKey := by
    unfold RecordLayerT.enableWriteCipher RecordLayerT.writer
    rw [hc₁.version]
  obtain ⟨record, hprot, h₃⟩ := (h₂.absorb _).send hsend
  have hfin : buildFinished master LABEL_CLIENT_FINISHED c₁.transcript =
      frame HT_FINISHED (deriveVerifyData master LABEL_CLIENT_FINISHED (MD5.hash msgs)
        (SHA1.hash msgs)).toList := h₁.transcript.finished _ _
  refine ⟨_, hfin, ?_⟩
  have hpiece : (sendPiece (({} : RecordLayer).enableWriteCipher km.clientMac km.clientKey)
      ⟨CT_HANDSHAKE, buildFinished master LABEL_CLIENT_FINISHED c₁.transcript⟩).1 = record := by
    unfold sendPiece
    rw [← hwriter]
    dsimp only at hprot ⊢
    rw [hprot]
  rw [hpiece]
  simpa only [List.append_assoc, List.singleton_append] using h₃

/-- The switch of the server, and its Finished. -/
theorem receiveFinished_sound {records : Nat} (v : Conversation)
    (h : Opening c₀ v.flight (v.messages ++ v.clientFinished) out c)
    (hr : Returns (receiveFinished records v.master v.keys) c () c') :
    Observed.sent c'.sock = Observed.sent c.sock ∧ ∃ stream before switch after rest,
      Observed.delivered c'.sock = Observed.delivered c₀.sock ++ stream ∧
        v.Reads Ignored stream before switch after rest := by
  simp only [receiveFinished, absorb, returns_bind, returns_get, returns_modify, returns_demand,
    Prod.exists] at hr
  obtain ⟨_, c₁, hccs, _, _, rfl, msg, m, c₂, hnext, _, _, ⟨htype, rfl⟩, _, _, ⟨rfl, rfl⟩, _, _,
    ⟨hcheck, rfl⟩, rfl⟩ := hr
  obtain ⟨xs, hp⟩ := h.progress
  obtain ⟨hf₁, hs₁, hhs, before, switch, hsw⟩ := expectChangeCipherSpec_sound hp hccs
  have hp₁ : Progress (({} : RecordLayer).enableReadCipher v.keys.serverMac v.keys.serverKey)
      (Observed.delivered c₀.sock ++ (before ++ [switch]).flatMap Received.wire) [] []
      { c₁ with recLayer := c₁.recLayer.enableReadCipher v.keys.serverMac v.keys.serverKey } :=
    ⟨by simpa using hsw.stream, .nil _, by simp, by simp [hhs, payload]⟩
  obtain ⟨hf₂, hs₂, hmsg, -, after, hp₂⟩ := nextHandshake_sound hp₁ hnext
  have habs : c₂.transcript.Absorbed (v.messages ++ v.clientFinished) := by
    rw [hf₂.transcript]
    show c₁.transcript.Absorbed _
    rw [hf₁.transcript]
    exact h.transcript
  rw [checkFinished_iff, habs.verifyData] at hcheck
  rw [htype, hcheck] at hmsg
  obtain ⟨hclear, htext⟩ := hsw.opens.cleartext rfl
  refine ⟨hs₂.trans hs₁, (before ++ switch :: after).flatMap Received.wire ++ c₂.rx, before, switch,
    after, c₂.rx, ?_, rfl, ⟨_, hsw.opens⟩, htext, hsw.kinds, hsw.payload, hsw.type, hsw.plaintext,
    ⟨_, ?_, hp₂.opens⟩, hp₂.kinds, c₂.hs, ?_⟩
  · show Observed.delivered c₂.sock = _
    rw [hp₂.stream]
    simp only [List.flatMap_append, List.flatMap_cons, List.flatMap_nil, List.append_nil,
      List.append_assoc]
  · rw [hp₂.opens.readSeq]
    show (0 : UInt64) + _ = _
    rw [UInt64.zero_add]
  · rw [hp₂.payload, hmsg, List.nil_append]
    rfl

end ClientT

end Ilo2.Tls
