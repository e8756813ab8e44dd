import Ilo2.Tls.Data
import Ilo2.Tls.Response

/-!
# A page over the client

`https_get` uses a `Channel`; here the channel is the client itself, so that its records and the
text of a response meet.

* `gets_feed` - a client that never times out brings the data record by record, and then the end.
* `httpsGet_client` - **the result is a function of the data**, whatever the records, the alerts in
  between and the chunks of the socket.
* `httpsGet_recut` - so two servers that send the same page are answered alike.
-/

namespace Ilo2.Tls

open Crypto Attempt ClientT

variable {T : Type} [Transport T] {c c' c₀ : ClientT T} {records : Nat}

/-! ### The client as a channel -/

theorem channel_data {data : List UInt8}
    (h : Returns (recv records) c data c') : (channel T records).recv c = (.data data, c') := by
  have hrecv : recv records c = (.ok data, c') := h
  simp only [channel, hrecv]

theorem channel_closed {e : Stop} (h : Fails (recv records) c e c')
    (heof : c'.eof = true) : (channel T records).recv c = (.closed e, c') := by
  have hrecv : recv records c = (.error e, c') := h
  simp only [channel, hrecv, heof, if_true]

variable [Piped T] {w' : RecordLayer} {ps qs : List Piece} {rest : List UInt8} {level : UInt8}

/-- Nothing is left to wait for. -/
theorem not_waited {left : List Piece} (hwaits : Piped.waits c.sock = 0) :
    ¬ Waited w' ps qs rest c c' left := by
  intro h
  have hless := h.waits
  omega

/-- **The records of the data phase**, call by call.  The induction is on what is left to read. -/
theorem gets_feed (hfeed : Feed w' (ps ++ ⟨CT_ALERT, [level, 0]⟩ :: qs) rest c)
    (hps : ∀ p ∈ ps, p.Talk) (hwaits : Piped.waits c.sock = 0) (hrecords : ps.length < records) :
    ∃ c', Gets (channel T records) c (plaintexts ps) c' ∧
      ((channel T records).recv c').1 = .closed closed := by
  induction hleft : ps.length using Nat.strong_induction_on generalizing c ps with
  | _ n ih =>
    rcases hdata : plaintexts ps with _ | ⟨data, more⟩
    · rcases recv_close hfeed hps hdata hrecords with ⟨c', hfail, heof⟩ | ⟨left, c', -, hw⟩
      · exact ⟨c, .nil, congrArg Prod.fst (channel_closed hfail heof)⟩
      · exact absurd hw (not_waited hwaits)
    · rcases recv_feed hfeed hps hdata (Nat.le_of_lt hrecords) with
        ⟨left, c', hret, hfeed', hleft', hmore, hlt, hkept⟩ | ⟨left, c', -, hw⟩
      · have hwaits' : Piped.waits c'.sock = 0 := Nat.le_zero.mp (hwaits ▸ hkept.waits)
        obtain ⟨c'', hgets, hend⟩ := ih left.length (by omega) hfeed' hleft' hwaits'
          (Nat.lt_trans hlt hrecords) rfl
        rw [hmore] at hgets
        exact ⟨c'', .cons (channel_data hret) hgets, hend⟩
      · exact absurd hw (not_waited hwaits)

/-! ### A page -/

/-- What a server says on a connection that has sent the request: this page in records, with
alerts in between, and `close_notify`. -/
structure Serves (host path cookie page : List UInt8) (records : Nat) (c₀ : ClientT T) where
  c : ClientT T
  sent : Returns (send (request host path cookie)) c₀ () c
  ps : List Piece
  talk : ∀ p ∈ ps, p.Talk
  whole : (plaintexts ps).flatten = page
  few : ps.length < records
  level : UInt8
  writer : RecordLayer
  more : List Piece
  rest : List UInt8
  feed : Feed writer (ps ++ ⟨CT_ALERT, [level, 0]⟩ :: more) rest c
  prompt : Piped.waits c.sock = 0

variable {host path cookie page : List UInt8} {rounds calls : Nat}

theorem length_plaintexts (ps : List Piece) : (plaintexts ps).length ≤ ps.length := by
  rw [plaintexts, List.length_map]
  exact List.length_filter_le _ _

/-- The channel of the client answers. -/
theorem Serves.replies (h : Serves host path cookie page records c₀) :
    Answers (channel T records) (.ok c₀) host path cookie page (plaintexts h.ps).length := by
  obtain ⟨c', hgets, hend⟩ := gets_feed h.feed h.talk h.prompt h.few
  exact ⟨h.c, plaintexts h.ps, c', ⟨c₀, rfl, h.sent⟩, hgets, ⟨closed, hend⟩, h.whole, rfl⟩

/-- **`https_get` over the client** returns what it reads in the page. -/
theorem httpsGet_client (h : Serves host path cookie page records c₀)
    (hfits : page.length ≤ MAX_RESPONSE)
    (hsmall : isChunked (headersOf page) = true → ¬ Meets Large 0 (bodyOf page))
    (hrounds : page.length < rounds) (hcalls : records ≤ calls) (out : HttpResponse) :
    httpsGet (channel T records) rounds calls (.ok c₀) host path cookie out =
      parseResponse rounds page out := by
  have hlen := length_plaintexts h.ps
  have hfew := h.few
  exact httpsGet_answers h.replies hfits hsmall hrounds (by omega) out

/-- **The cuts do not matter**, neither those of the records nor those of the socket. -/
theorem httpsGet_recut {T' : Type} [Transport T'] [Piped T'] {c₀' : ClientT T'} {records' : Nat}
    (h : Serves host path cookie page records c₀) (h' : Serves host path cookie page records' c₀')
    (hfits : page.length ≤ MAX_RESPONSE)
    (hsmall : isChunked (headersOf page) = true → ¬ Meets Large 0 (bodyOf page))
    (hrounds : page.length < rounds) (out : HttpResponse) :
    httpsGet (channel T records) rounds records (.ok c₀) host path cookie out =
      httpsGet (channel T' records') rounds records' (.ok c₀') host path cookie out := by
  rw [httpsGet_client h hfits hsmall hrounds (Nat.le_refl _) out,
    httpsGet_client h' hfits hsmall hrounds (Nat.le_refl _) out]

end Ilo2.Tls
