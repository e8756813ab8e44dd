import Ilo2.Tls.Premaster
import Ilo2.Tls.Reading

/-!
# An honest server

What the client's handshake is for: a server that holds the private key of its
certificate, and a network that brings it the client's records at once and brings the
client its bytes in any chunks.  The server uses the same record layer, PRF and
transcript as the client; how it cuts its messages into records is left open.

* `Packing` - a way to cut handshake bytes into records, with alerts in between.
* `HonestServer` - what the server chooses and what it holds.
* `Server.receive` - what it does with a record.
* `Network` - the transport between the two.
-/

namespace Ilo2.Tls

open Crypto

/-! ### Cutting messages into records -/

/-- A way to cut handshake bytes into records. -/
structure Packing where
  cut : List UInt8 → List Piece
  payload_cut : ∀ bs, payload (cut bs) = bs
  legal : ∀ bs, ∀ p ∈ cut bs, p.Legal

/-! ### The server -/

/-- A server: its certificate and key, what it chooses for a handshake, and how it cuts its
two flights. -/
structure HonestServer where
  key : RsaPublicKey
  decrypt : Nat → Nat
  chain : List (List UInt8)
  random : Vector UInt8 RANDOM_LEN
  sessionId : List UInt8
  request : Option (List UInt8)
  flight : Packing
  alerts : List (List UInt8)
  finished : Packing
  /-- The private key takes the public operation back. -/
  inverts : ∀ m < key.n.toNat, decrypt (m ^ key.e.toNat % key.n.toNat) = m
  certified : (Der.parseCertificateRsaKey (chain.headD [])).Yields key
  chain_lt : (encodeCertificateList chain).length < 2 ^ 24
  sessionId_le : sessionId.length ≤ 32
  request_lt : ∀ body ∈ request, body.length < 2 ^ 24
  alerts_ignored : ∀ data ∈ alerts, Ignored data

/-- The alerts before the switch of keys, and the switch. -/
def HonestServer.switch (conf : HonestServer) : List Piece :=
  conf.alerts.map (Piece.mk CT_ALERT) ++ [⟨CT_CHANGE_CIPHER_SPEC, [0x01]⟩]

/-- What the server waits for. -/
inductive Phase where
  | clientHello
  | certificate (offered : UInt16) (clientRandom : Vector UInt8 RANDOM_LEN)
  | keyExchange (offered : UInt16) (clientRandom : Vector UInt8 RANDOM_LEN)
  | changeCipherSpec (master : Vector UInt8 MASTER_SECRET_LEN) (km : KeyMaterial)
  | finished (master : Vector UInt8 MASTER_SECRET_LEN) (km : KeyMaterial)
  | connected
  | broken

structure Server where
  conf : HonestServer
  phase : Phase := .clientHello
  layer : RecordLayer := {}
  transcript : Transcript := {}
  received : List UInt8 := []

namespace Server

/-- The body of the only message in a record, if it is of this type. -/
def message (type : UInt8) (pt : List UInt8) : Option (List UInt8) :=
  match parseHandshake pt with
  | some m => if m.type = type ∧ m.total = pt.length then some m.body else none
  | none => none

/-- The cipher suites in a list of bytes. -/
def suites : List UInt8 → List UInt16
  | b₁ :: b₀ :: r => BigEndian.u16 b₁ b₀ :: suites r
  | _ => []

/-- The version and the random value of a ClientHello that offers what the server takes. -/
def readClientHello (body : List UInt8) : Option (UInt16 × Vector UInt8 RANDOM_LEN) := do
  let (version, r) ← Reader.u16 body
  let (random, r) ← Reader.take RANDOM_LEN r
  let (sidLen, r) ← Reader.u8 r
  let (_, r) ← Reader.take sidLen.toNat r
  let (suitesLen, r) ← Reader.u16 r
  let (offer, r) ← Reader.take suitesLen.toNat r
  let (methodsLen, r) ← Reader.u8 r
  let (methods, _) ← Reader.take methodsLen.toNat r
  if TLS_RSA_WITH_RC4_128_MD5 ∈ suites offer ∧ 0 ∈ methods then
    some (version, Vector.ofFn fun i => random.getD i 0)
  else none

/-- The premaster secret in a ClientKeyExchange. -/
def readPremaster (conf : HonestServer) (offered : UInt16) (body : List UInt8) :
    Option (List UInt8) := do
  let (len, ciphertext) ← Reader.u16 body
  if ciphertext.length ≠ len.toNat ∨ ciphertext.length ≠ conf.key.k then none else
  match unpad (BigEndian.bytes conf.key.k (conf.decrypt (BigEndian.value ciphertext))) with
  | some premaster =>
      -- the version offered comes first: the check against a rollback
      if premaster.length = PREMASTER_LEN ∧ premaster.take 2 = be16 offered then some premaster
      else none
  | none => none

/-- The messages of the first flight, in answer to an offer of this version. -/
def flight (conf : HonestServer) (version : UInt16) : List (List UInt8) :=
  [frame HT_SERVER_HELLO
      (encodeServerHello ⟨version, conf.random, conf.sessionId, TLS_RSA_WITH_RC4_128_MD5, 0⟩),
    frame HT_CERTIFICATE (encodeCertificateList conf.chain)] ++
    conf.request.toList.map (frame HT_CERTIFICATE_REQUEST) ++ [frame HT_SERVER_HELLO_DONE []]

def answerHello (s : Server) (pt : List UInt8) (version : UInt16)
    (clientRandom : Vector UInt8 RANDOM_LEN) : List UInt8 × Server :=
  let msgs := flight s.conf version
  let (out, layer) := sendPieces s.layer (s.conf.flight.cut msgs.flatten)
  (out, { s with
    layer := layer
    transcript := msgs.foldl Transcript.update (s.transcript.update pt)
    phase := if s.conf.request.isSome then .certificate version clientRandom
      else .keyExchange version clientRandom })

/-- Alerts, the switch of keys, and the Finished. -/
def answerFinished (s : Server) (pt : List UInt8) (master : Vector UInt8 MASTER_SECRET_LEN)
    (km : KeyMaterial) : List UInt8 × Server :=
  let transcript := s.transcript.update pt
  let (out, layer) := sendPieces s.layer s.conf.switch
  let layer := layer.enableWriteCipher km.serverMac km.serverKey
  let (fin, layer) := sendPieces layer
    (s.conf.finished.cut (buildFinished master LABEL_SERVER_FINISHED transcript))
  (out ++ fin, { s with layer := layer, transcript := transcript, phase := .connected })

/-- The plaintext of a record: what the server sends, and the server after it. -/
def handle (s : Server) (type : UInt8) (pt : List UInt8) : List UInt8 × Server :=
  let refuse := ([], { s with phase := .broken })
  match s.phase with
  | .clientHello =>
      match message HT_CLIENT_HELLO pt with
      | some body =>
          match readClientHello body with
          | some (version, random) =>
              if type = CT_HANDSHAKE then s.answerHello pt version random else refuse
          | none => refuse
      | none => refuse
  | .certificate offered clientRandom =>
      if type = CT_HANDSHAKE ∧ (message HT_CERTIFICATE pt).isSome then
        ([], { s with
          transcript := s.transcript.update pt, phase := .keyExchange offered clientRandom })
      else refuse
  | .keyExchange offered clientRandom =>
      match message HT_CLIENT_KEY_EXCHANGE pt with
      | some body =>
          match readPremaster s.conf offered body with
          | some premaster =>
              let master := deriveMasterSecret premaster clientRandom s.conf.random
              if type = CT_HANDSHAKE then
                ([], { s with
                  transcript := s.transcript.update pt
                  phase := .changeCipherSpec master
                    (ClientT.keyMaterial master s.conf.random clientRandom) })
              else refuse
          | none => refuse
      | none => refuse
  | .changeCipherSpec master km =>
      if type = CT_CHANGE_CIPHER_SPEC ∧ pt = [0x01] then
        ([], { s with
          layer := s.layer.enableReadCipher km.clientMac km.clientKey
          phase := .finished master km })
      else refuse
  | .finished master km =>
      match message HT_FINISHED pt with
      | some body =>
          if type = CT_HANDSHAKE ∧ checkFinished master LABEL_CLIENT_FINISHED s.transcript body then
            s.answerFinished pt master km
          else refuse
      | none => refuse
  | .connected =>
      if type = CT_APPLICATION_DATA then ([], { s with received := s.received ++ pt }) else refuse
  | .broken => refuse

/-- A record that arrives is opened and handled. -/
def receive (s : Server) (record : List UInt8) : List UInt8 × Server :=
  match parseRecordHeader record, Tls.receive s.layer record with
  | some h, (some pt, layer) => handle { s with layer := layer } h.type pt
  | _, (_, layer) => ([], { s with layer := layer, phase := .broken })

/-- Send a piece of the server's own. -/
def push (s : Server) (p : Piece) : List UInt8 × Server :=
  let (record, layer) := sendPiece s.layer p
  (record, { s with layer := layer })

end Server

/-! ### The network -/

/-- The server, the bytes on their way to the client, and the sizes of the chunks in which
the client will read them. -/
structure Network where
  server : Server
  chunk : Nat → Nat
  wire : List UInt8 := []
  reads : Nat := 0
  delivered : List UInt8 := []
  sent : List (List UInt8) := []

namespace Network

def recv (t : Network) (cap : Nat) : RecvResult × Network :=
  if t.wire = [] then (.timeout, t)
  else
    let n := min (t.chunk t.reads + 1) cap
    (.bytes (t.wire.take n), { t with
      wire := t.wire.drop n
      reads := t.reads + 1
      delivered := t.delivered ++ t.wire.take n })

def sendAll (t : Network) (record : List UInt8) : Bool × Network :=
  let (out, server) := t.server.receive record
  (true, { t with server := server, wire := t.wire ++ out, sent := t.sent ++ [record] })

instance : Transport Network := ⟨recv, sendAll⟩

instance : Observed Network where
  delivered := delivered
  sent := sent
  delivered_recv {t t' cap r} h := by
    replace h : recv t cap = (r, t') := h
    unfold recv at h
    split at h <;> cases h
    · exact (List.append_nil _).symm
    · rfl
  sent_recv {t t' cap r} h := by
    replace h : recv t cap = (r, t') := h
    unfold recv at h
    split at h <;> cases h <;> rfl
  delivered_sendAll {t t' data ok} h := by
    replace h : sendAll t data = (ok, t') := h
    cases h
    rfl
  sent_sendAll {t t' data ok} h := by
    replace h : sendAll t data = (ok, t') := h
    cases h
    rfl

end Network

end Ilo2.Tls
