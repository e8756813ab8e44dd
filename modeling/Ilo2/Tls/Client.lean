import Ilo2.Lib.Attempt
import Ilo2.Tls.Der
import Ilo2.Tls.Handshake

/-!
# The client

`client.hpp`: the handshake, and the records over a transport.  A member function of
`ClientT` is an `Attempt` on the client's state; `err` is the text it fails with.

The transport is any type with a `recv` and a `send_all`.  It may send warnings forever, so
the loops that read records have a bound, and `unfinished` when they reach it.
-/

namespace Ilo2.Tls

open Crypto Attempt

abbrev RecordLayer := RecordLayerT MD5
abbrev KeyMaterial := KeyMaterialT MD5

/-- What `recv` returns: a number of bytes (none at the end of the stream), or one of its
two negative results. -/
inductive RecvResult where
  | bytes (bs : List UInt8)
  | timeout
  | error

/-- What the client uses of its transport. -/
class Transport (T : Type) where
  recv : T → (cap : Nat) → RecvResult × T
  sendAll : T → List UInt8 → Bool × T

structure Options where
  version : UInt16 := VERSION_TLS_1_0
  gmtUnixTime : UInt32 := 0

/-- `rng` is no member of the source's class: it is the system's random source. -/
structure ClientT (T : Type) where
  opt : Options := {}
  sock : T
  recLayer : RecordLayer := {}
  transcript : Transcript := {}
  rx : List UInt8 := []
  hs : List UInt8 := []
  serverKey : RsaPublicKey := {}
  serverCert : List UInt8 := []
  suite : UInt16 := 0
  connected : Bool := false
  eof : Bool := false
  rng : Rng

/-- Why a member function returns nothing. -/
inductive Stop where
  /-- It returned false. -/
  | failed (err : String)
  /-- It read outside of the certificate. -/
  | fault (f : Der.Fault)
  /-- It was still waiting for records when the bound was reached. -/
  | unfinished
deriving DecidableEq

abbrev ClientM (T : Type) := Attempt (ClientT T) Stop

def hex16 (v : UInt16) : String :=
  let digit (n : UInt16) := "0123456789abcdef".toList.getD (n &&& 0xF).toNat '0'
  String.ofList [digit (v >>> 12), digit (v >>> 8), digit (v >>> 4), digit v]

variable {T : Type} [Transport T]

namespace ClientT

/-! ### Record and message plumbing -/

def sendRecord (type : UInt8) (data : List UInt8) : ClientM T Unit := fun c =>
  match c.recLayer.protect type data with
  | (none, layer) => (.error (.failed "record protection failed"), { c with recLayer := layer })
  | (some record, layer) =>
      match Transport.sendAll c.sock record with
      | (true, sock) => (.ok (), { c with recLayer := layer, sock := sock })
      | (false, sock) =>
          (.error (.failed "socket write failed"), { c with recLayer := layer, sock := sock })

/-- The loop of `fill`: read until there are `need` bytes in `rx`. -/
def fillLoop (need : Nat) (c : ClientT T) : Except Stop Unit × ClientT T :=
  if c.rx.length < need then
    match Transport.recv c.sock 4096 with
    | (.bytes (b :: bs), sock) => fillLoop need { c with sock := sock, rx := c.rx ++ b :: bs }
    | (.bytes [], sock) =>
        (.error (.failed "connection closed by peer"), { c with sock := sock, eof := true })
    | (.timeout, sock) => (.error (.failed "timed out waiting for data"), { c with sock := sock })
    | (.error, sock) => (.error (.failed "socket read failed"), { c with sock := sock })
  else (.ok (), c)
termination_by need - c.rx.length
decreasing_by
  simp only [List.length_append, List.length_cons]
  omega

def fill (need : Nat) : ClientM T Unit := fun c => fillLoop need c

/-- Recover the body of a record of `len` bytes that stands in `rx` after its header. -/
def openRecord (h : RecordHeader) : ClientM T (List UInt8) := fun c =>
  let body := (c.rx.drop RECORD_HEADER_LEN).take h.length.toNat
  match c.recLayer.unprotect h.type h.version body with
  | (none, layer) =>
      (.error (.failed "record failed authentication (bad_record_mac)"), { c with recLayer := layer })
  | (some plaintext, layer) =>
      (.ok plaintext,
        { c with recLayer := layer, rx := c.rx.drop (RECORD_HEADER_LEN + h.length.toNat) })

def readRecord : ClientM T (RecordHeader × List UInt8) := do
  fill RECORD_HEADER_LEN
  let c ← get
  let h ← ofOption (.failed "malformed record header") (parseRecordHeader c.rx)
  demand (isValidContentType h.type)
    (.failed ("invalid record content type " ++ toString h.type.toNat))
  fill (RECORD_HEADER_LEN + h.length.toNat)
  let plaintext ← openRecord h
  pure (h, plaintext)

/-- `handle_alert` returns if the alert is one to ignore. -/
def handleAlert (body : List UInt8) : ClientM T Unit := do
  let a ← ofOption (.failed "malformed alert") (parseAlert body)
  if a.description = 0 then do
    modify fun c => { c with eof := true }
    fail (.failed "peer sent close_notify")
  else demand (a.level ≠ 2) (.failed ("fatal alert: " ++ alertName a.description ++
    " (" ++ toString a.description.toNat ++ ")"))

/-- `next_handshake`: the bytes of one message, and the message itself. -/
def nextHandshake : (records : Nat) → ClientM T (List UInt8 × HandshakeMessage)
  | 0 => fail .unfinished
  | records + 1 => do
      let c ← get
      match parseHandshake c.hs with
      | some m => do
          let store := c.hs.take m.total
          modify fun c => { c with hs := c.hs.drop m.total }
          let out ← ofOption (.failed "internal: handshake message did not re-parse")
            (parseHandshake store)
          pure (store, out)
      | none => do
          let (h, pt) ← readRecord
          if h.type = CT_ALERT then do
            handleAlert pt
            nextHandshake records
          else do
            demand (h.type = CT_HANDSHAKE)
              (.failed ("expected a handshake record, got content type " ++ toString h.type.toNat))
            modify fun c => { c with hs := c.hs ++ pt }
            nextHandshake records

/-- The loop of `expect_change_cipher_spec`. -/
def readChangeCipherSpec : (records : Nat) → ClientM T Unit
  | 0 => fail .unfinished
  | records + 1 => do
      let (h, pt) ← readRecord
      if h.type = CT_ALERT then do
        handleAlert pt
        readChangeCipherSpec records
      else do
        demand (h.type = CT_CHANGE_CIPHER_SPEC)
          (.failed ("expected ChangeCipherSpec, got content type " ++ toString h.type.toNat))
        demand (pt = [0x01]) (.failed "malformed ChangeCipherSpec")

def expectChangeCipherSpec (records : Nat) : ClientM T Unit := do
  let c ← get
  demand (c.hs = []) (.failed "handshake data remained when ChangeCipherSpec was expected")
  readChangeCipherSpec records

/-! ### The handshake -/

/-- Use the random source. -/
def draw {α : Type} (err : String) (f : Rng → Option α × Rng) : ClientM T α := fun c =>
  match f c.rng with
  | (some a, rng) => (.ok a, { c with rng := rng })
  | (none, rng) => (.error (.failed err), { c with rng := rng })

/-- `transcript_.update`. -/
def absorb (msg : List UInt8) : ClientM T Unit :=
  modify fun c => { c with transcript := c.transcript.update msg }

def sendClientHello : ClientM T (Vector UInt8 RANDOM_LEN) := do
  let c ← get
  let clientRandom ← draw "the system CSPRNG failed" (makeClientRandom c.opt.gmtUnixTime)
  let ch := buildClientHello c.opt.version clientRandom [TLS_RSA_WITH_RC4_128_MD5]
  absorb ch
  sendRecord CT_HANDSHAKE ch
  pure clientRandom

def receiveServerHello (records : Nat) : ClientM T ServerHello := do
  let (msg, m) ← nextHandshake records
  demand (m.type = HT_SERVER_HELLO)
    (.failed ("expected ServerHello, got handshake type " ++ toString m.type.toNat))
  absorb msg
  let sh ← ofOption (.failed "malformed ServerHello") (parseServerHello m.body)
  let c ← get
  demand (sh.version = c.opt.version)
    (.failed ("server chose version 0x" ++ hex16 sh.version ++ ", we offered 0x" ++
      hex16 c.opt.version))
  demand (sh.cipherSuite = TLS_RSA_WITH_RC4_128_MD5)
    (.failed ("server chose cipher suite 0x" ++ hex16 sh.cipherSuite ++
      ", which we did not offer"))
  demand (sh.compression = 0) (.failed "server selected compression")
  modify fun c => { c with suite := sh.cipherSuite }
  pure sh

/-- The key in a certificate; a faulty read is not a refusal. -/
def certificateKey (cert : List UInt8) : ClientM T RsaPublicKey :=
  match (Der.parseCertificateRsaKey cert).run with
  | .ok (some key) => pure key
  | .ok none => fail (.failed "no usable RSA public key in the server certificate")
  | .error f => fail (.fault f)

def receiveCertificate (records : Nat) : ClientM T Unit := do
  let (msg, m) ← nextHandshake records
  demand (m.type = HT_CERTIFICATE)
    (.failed ("expected Certificate, got handshake type " ++ toString m.type.toNat))
  absorb msg
  let certs ← ofOption (.failed "malformed Certificate message") (parseCertificateList m.body)
  modify fun c => { c with serverCert := certs.headD [] }
  let key ← certificateKey (certs.headD [])
  modify fun c => { c with serverKey := key }

/-- The optional messages, then ServerHelloDone: whether a certificate was requested. -/
def receiveUntilDone (records : Nat) : (messages : Nat) → (certRequested : Bool) → ClientM T Bool
  | 0, _ => fail .unfinished
  | messages + 1, certRequested => do
      let (msg, m) ← nextHandshake records
      absorb msg
      if m.type = HT_SERVER_HELLO_DONE then pure certRequested
      else if m.type = HT_CERTIFICATE_REQUEST then receiveUntilDone records messages true
      else if m.type = HT_SERVER_KEY_EXCHANGE then
        fail (.failed "server sent ServerKeyExchange for an RSA key exchange")
      else fail (.failed ("unexpected handshake type " ++ toString m.type.toNat ++
        " before ServerHelloDone"))

/-- The empty Certificate, if one was requested. -/
def sendCertificate (certRequested : Bool) : ClientM T Unit :=
  if certRequested then do
    absorb buildEmptyCertificate
    sendRecord CT_HANDSHAKE buildEmptyCertificate
  else pure ()

/-- ClientKeyExchange; the premaster secret in it is what is returned. -/
def sendClientKeyExchange : ClientM T (List UInt8) := do
  let c ← get
  -- the version offered, not the one negotiated
  let premaster ← draw "the system CSPRNG failed" (makePremaster c.opt.version)
  let cke ← draw "RSA encryption of the premaster failed"
    (buildClientKeyExchange c.serverKey premaster)
  absorb cke
  sendRecord CT_HANDSHAKE cke
  pure premaster

/-- `derive_key_block` and `km.split`. -/
def keyMaterial (master : Vector UInt8 MASTER_SECRET_LEN)
    (serverRandom clientRandom : Vector UInt8 RANDOM_LEN) : KeyMaterial :=
  KeyMaterialT.split MD5 (deriveKeyBlock master serverRandom clientRandom _)

/-- ChangeCipherSpec, the switch of the write side, and Finished. -/
def sendFinished (master : Vector UInt8 MASTER_SECRET_LEN) (km : KeyMaterial) : ClientM T Unit := do
  sendRecord CT_CHANGE_CIPHER_SPEC [0x01]
  modify fun c => { c with recLayer := c.recLayer.enableWriteCipher km.clientMac km.clientKey }
  let c ← get
  let clientFin := buildFinished master LABEL_CLIENT_FINISHED c.transcript
  absorb clientFin
  sendRecord CT_HANDSHAKE clientFin

/-- The server's flight: its switch, and a Finished that fits the transcript before it. -/
def receiveFinished (records : Nat) (master : Vector UInt8 MASTER_SECRET_LEN) (km : KeyMaterial) :
    ClientM T Unit := do
  expectChangeCipherSpec records
  modify fun c => { c with recLayer := c.recLayer.enableReadCipher km.serverMac km.serverKey }
  let (msg, m) ← nextHandshake records
  demand (m.type = HT_FINISHED)
    (.failed ("expected Finished, got handshake type " ++ toString m.type.toNat))
  let c ← get
  demand (checkFinished master LABEL_SERVER_FINISHED c.transcript m.body)
    (.failed "the server's Finished did not verify")
  absorb msg

/-- `handshake`, reading at most `records` records for a message and as many messages. -/
def handshake (records : Nat) : ClientM T Unit := do
  let clientRandom ← sendClientHello
  let sh ← receiveServerHello records
  receiveCertificate records
  let certRequested ← receiveUntilDone records records false
  sendCertificate certRequested
  let premaster ← sendClientKeyExchange
  let master := deriveMasterSecret premaster clientRandom sh.random
  let km := keyMaterial master sh.random clientRandom
  sendFinished master km
  receiveFinished records master km
  modify fun c => { c with connected := true }

/-! ### Application data -/

/-- `send`: no record takes more than `2 ^ 14` bytes. -/
def send (data : List UInt8) : ClientM T Unit :=
  if _h : data = [] then pure ()
  else do
    sendRecord CT_APPLICATION_DATA (data.take MAX_PLAINTEXT)
    send (data.drop MAX_PLAINTEXT)
termination_by data.length
decreasing_by
  have hpos := List.length_pos_iff.mpr _h
  rw [List.length_drop, MAX_PLAINTEXT]
  omega

/-- `recv`: the data of one record. -/
def recv : (records : Nat) → ClientM T (List UInt8)
  | 0 => fail .unfinished
  | records + 1 => do
      let (h, pt) ← readRecord
      if h.type = CT_APPLICATION_DATA then pure pt
      else if h.type = CT_ALERT then do
        handleAlert pt
        recv records
      else fail (.failed ("unexpected record type " ++ toString h.type.toNat ++ " after handshake"))

end ClientT

end Ilo2.Tls
