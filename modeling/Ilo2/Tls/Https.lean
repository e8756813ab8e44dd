import Ilo2.Lib.Strtol
import Ilo2.Lib.Text
import Ilo2.Tls.Channel

/-!
# The HTTPS client

`https_get` of `client.hpp`, with the header lookup and the chunked decoder.  A
`std::string` is a list of bytes, and `size_t` has 64 bits.

The loop of `dechunk` need not end, as its position is reduced modulo `2 ^ 64`; so it has a
bound, and returns nothing when it reaches it.
-/

namespace Ilo2.Tls

open Text Strtol

structure HttpResponse where
  status : Int := 0
  headers : List UInt8 := []
  body : List UInt8 := []
deriving DecidableEq

def CRLF : List UInt8 := [0x0D, 0x0A]

/-- What ends the headers. -/
def CRLF2 : List UInt8 := CRLF ++ CRLF

/-! ### Header lookup -/

def lower (v : List UInt8) : List UInt8 :=
  v.map fun ch => if 0x41 ≤ ch ∧ ch ≤ 0x5A then ch - 0x41 + 0x61 else ch

/-- A space or a tab. -/
def isBlank (ch : UInt8) : Bool := ch = 0x20 ∨ ch = 0x09

def trim (v : List UInt8) : List UInt8 := ((v.dropWhile isBlank).reverse.dropWhile isBlank).reverse

/-- The loop of `header_value`, over the headers from `pos` on. -/
def headerValueLoop (needle : List UInt8) : (lines : Nat) → List UInt8 → List UInt8
  | 0, _ => []
  | lines + 1, headers =>
      if headers = [] then []
      else
        let eol := find CRLF headers
        if needle <+: lower headers then
          trim ((headers.take (eol.getD headers.length)).drop needle.length)
        else
          match eol with
          | none => []
          | some eol => headerValueLoop needle lines (headers.drop (eol + 2))

/-- `header_value`.  A line takes at least two bytes, so there are fewer lines than bytes. -/
def headerValue (headers name : List UInt8) : List UInt8 :=
  headerValueLoop (lower name ++ ascii ":") headers.length headers

/-! ### Chunked transfer coding -/

def hexValue (ch : UInt8) : Option Nat :=
  if 0x30 ≤ ch ∧ ch ≤ 0x39 then some (ch.toNat - 0x30)
  else if 0x61 ≤ ch ∧ ch ≤ 0x66 then some (ch.toNat - 0x61 + 10)
  else if 0x41 ≤ ch ∧ ch ≤ 0x46 then some (ch.toNat - 0x41 + 10)
  else none

/-- The loop over a chunk-size line: the size, if the line has a digit and is well formed. -/
def sizeLoop : List UInt8 → (size : Nat) → (any : Bool) → Option Nat
  | [], size, any => if any then some size else none
  | ch :: line, size, any =>
      match hexValue ch with
      | some v => sizeLoop line ((size * 16 + v) % 2 ^ 64) true
      | none => if isBlank ch then sizeLoop line size any else none

/-- The size in a chunk-size line; chunk extensions are cut off. -/
def chunkSize (line : List UInt8) : Option Nat :=
  sizeLoop (line.take ((find (ascii ";") line).getD line.length)) 0 false

/-- The loop of `dechunk`: what it returns, and what is in `out` then. -/
def dechunkLoop (s : List UInt8) :
    (rounds pos : Nat) → (out : List UInt8) → Option (Bool × List UInt8)
  | 0, _, _ => none
  | rounds + 1, pos, out =>
      match findFrom CRLF s pos with
      | none => some (false, out)
      | some eol =>
          match chunkSize ((s.drop pos).take (eol - pos)) with
          | none => some (false, out)
          | some size =>
              let pos := eol + 2
              if size = 0 then some (true, out)
              else if (pos + size) % 2 ^ 64 > s.length then some (false, out)
              else
                let out := out ++ (s.drop pos).take size
                let pos := (pos + size) % 2 ^ 64
                if (s.drop pos).take 2 ≠ CRLF then some (false, out)
                else dechunkLoop s rounds (pos + 2) out

def dechunk (rounds : Nat) (s : List UInt8) : Option (Bool × List UInt8) := dechunkLoop s rounds 0 []

/-! ### The request and its response -/

def request (host path cookie : List UInt8) : List UInt8 :=
  ascii "GET " ++ path ++ ascii " HTTP/1.1\r\nHost: " ++ host ++
    ascii "\r\nUser-Agent: ilo2-console/1.0\r\nAccept: */*\r\n" ++
    (if cookie ≠ [] then ascii "Cookie: " ++ cookie ++ CRLF else []) ++
    ascii "Connection: close\r\n\r\n"

/-- `8u * 1024 * 1024`. -/
def MAX_RESPONSE : Nat := 8 * 1024 * 1024

def isChunked (headers : List UInt8) : Bool :=
  (find (ascii "chunked") (headerValue headers (ascii "Transfer-Encoding"))).isSome

def contentLength (headers : List UInt8) : List UInt8 :=
  headerValue headers (ascii "Content-Length")

/-- What the read loop knows of the response. -/
structure Reading where
  raw : List UInt8 := []
  headerEnd : Option Nat := none
  chunked : Bool := false
  contentLength : Nat := ULONG_MAX

namespace Reading

/-- Look for the end of the headers, and read the framing from them. -/
def look (r : Reading) : Reading :=
  match r.headerEnd with
  | some _ => r
  | none =>
      match find CRLF2 r.raw with
      | none => r
      | some headerEnd =>
          let h := r.raw.take headerEnd
          let cl := Tls.contentLength h
          { r with
            headerEnd := some headerEnd
            chunked := isChunked h
            contentLength := if cl ≠ [] then strtoul 10 cl else r.contentLength }

/-- Whether the response is complete; nothing if `dechunk` did not end. -/
def complete (rounds : Nat) (r : Reading) : Option Bool :=
  match r.headerEnd with
  | none => some false
  | some headerEnd =>
      let body := r.raw.drop (headerEnd + 4)
      if r.chunked then (dechunk rounds body).map Prod.fst
      else if r.contentLength ≠ ULONG_MAX then some (body.length ≥ r.contentLength)
      else some false

end Reading

variable {C : Type}

/-- The read loop of `https_get`: `raw` when it ends. -/
def readResponse (ch : Channel C) (rounds : Nat) :
    (calls : Nat) → Reading → C → Except Stop (List UInt8)
  | 0, _, _ => .error .unfinished
  | calls + 1, r, c =>
      let r := r.look
      match r.complete rounds with
      | none => .error .unfinished
      | some true => .ok r.raw
      | some false =>
          match ch.recv c with
          | (.data chunk, c) =>
              let r := { r with raw := r.raw ++ chunk }
              if r.raw.length > MAX_RESPONSE then .error (.failed "response too large")
              else readResponse ch rounds calls r c
          | (.closed _, _) => .ok r.raw
          | (.failed e, _) => .error e

/-- The headers and the body of `raw`. -/
def splitResponse (raw : List UInt8) (out : HttpResponse) : HttpResponse :=
  match find CRLF2 raw with
  | none => { out with headers := raw }
  | some split => { out with headers := raw.take split, body := raw.drop (split + 4) }

/-- The status code of a response with these headers. -/
def readStatus (raw : List UInt8) (out : HttpResponse) : HttpResponse :=
  if ascii "HTTP/" <+: raw then
    match find (ascii " ") out.headers with
    | some sp => { out with status := atoi (out.headers.drop (sp + 1)) }
    | none => out
  else out

/-- What `https_get` makes of the bytes it has read. -/
def parseResponse (rounds : Nat) (raw : List UInt8) (out : HttpResponse) :
    Except Stop Unit × HttpResponse :=
  if raw = [] then (.error (.failed "empty response"), out)
  else
    let out := readStatus raw (splitResponse raw out)
    if isChunked out.headers then
      match dechunk rounds out.body with
      | none => (.error .unfinished, out)
      | some (false, _) => (.error (.failed "malformed chunked response body"), out)
      | some (true, decoded) => (.ok (), { out with body := decoded })
    else
      let cl := contentLength out.headers
      if cl ≠ [] then (.ok (), { out with body := out.body.take (strtoul 10 cl) })
      else (.ok (), out)

/-- `https_get`: what it returns, and `out` as it leaves it.  `conn` is what `connect` gave. -/
def httpsGet (ch : Channel C) (rounds calls : Nat) (conn : Except Stop C)
    (host path cookie : List UInt8) (out : HttpResponse) : Except Stop Unit × HttpResponse :=
  match conn with
  | .error e => (.error e, out)
  | .ok c =>
      match ch.send c (request host path cookie) with
      | (.error e, _) => (.error e, out)
      | (.ok (), c) =>
          match readResponse ch rounds calls {} c with
          | .error e => (.error e, out)
          | .ok raw => parseResponse rounds raw out

end Ilo2.Tls
