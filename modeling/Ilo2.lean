import Ilo2.Lib.Checked
import Ilo2.Lib.MoveToFront
import Ilo2.Dvc.Bits
import Ilo2.Lib.Bitstring
import Ilo2.Dvc.Queue
import Ilo2.Dvc.Cache
import Ilo2.Dvc.Palette
import Ilo2.Dvc.Decoder
import Ilo2.Dvc.Invariant
import Ilo2.Dvc.Run
import Ilo2.Lib.Splice
import Ilo2.Dvc.Frame
import Ilo2.Dvc.CommandBuffer
import Ilo2.Lib.Keystream
import Ilo2.Crypto.Md5
import Ilo2.Lib.BlockHash
import Ilo2.Crypto.Sha1
import Ilo2.Crypto.Hmac
import Ilo2.Crypto.Rc4
import Ilo2.Lib.BigEndian
import Ilo2.Tls.Record
import Ilo2.Lib.Runs
import Ilo2.Dvc.Events
import Ilo2.Dvc.Record
import Ilo2.Dvc.Tile
import Ilo2.Dvc.Clip
import Ilo2.Dvc.Grid
import Ilo2.Dvc.Marker
import Ilo2.Dvc.Leftover
import Ilo2.Dvc.Resync
import Ilo2.Ui.Framebuffer
import Ilo2.Ui.Pull
import Ilo2.Ui.Screen
import Ilo2.Session.Telnet
import Ilo2.Session.Outbound
import Ilo2.Session.Clients
import Ilo2.Lib.Machine
import Ilo2.Session.Input
import Ilo2.Ui.ConsoleCore
import Ilo2.Ui.Outbox
import Ilo2.Ui.Stopping
import Ilo2.Lib.Limbs
import Ilo2.Crypto.BigInt
import Ilo2.Lib.Words
import Ilo2.Crypto.Modexp
import Ilo2.Crypto.Rsa
import Ilo2.Tls.Der
import Ilo2.Tls.DerSafety
import Ilo2.Tls.DerEncoding
import Ilo2.Tls.Prf
import Ilo2.Tls.Handshake
import Ilo2.Lib.Attempt
import Ilo2.Tls.Client
import Ilo2.Tls.Stream
import Ilo2.Tls.Reading
import Ilo2.Tls.Conversation
import Ilo2.Tls.Premaster
import Ilo2.Tls.Server
import Ilo2.Tls.Delivery
import Ilo2.Tls.Data
import Ilo2.Tls.Completeness
import Ilo2.Tls.Agreement
import Ilo2.Tls.Talk
import Ilo2.Tls.Soundness
import Ilo2.Lib.Text
import Ilo2.Lib.Strtol
import Ilo2.Tls.Channel
import Ilo2.Tls.Https
import Ilo2.Tls.Chunked
import Ilo2.Tls.Dechunk
import Ilo2.Tls.Encoding
import Ilo2.Tls.Response
import Ilo2.Tls.Fetch
import Ilo2.Ribcl.Command
import Ilo2.Ribcl.Reply
import Ilo2.Ribcl.Health
import Ilo2.Ribcl.Exchange
import Ilo2.Ribcl.EarlyStop
import Ilo2.Media.Control
import Ilo2.Media.Worker
import Ilo2.Media.Serving
import Ilo2.Media.Shutdown
import Ilo2.Session.Base64
import Ilo2.Session.Preamble
import Ilo2.Session.Trigger
import Ilo2.Crypto.Standard
import Ilo2.Crypto.Mac
import Ilo2.Tls.PrfStandard
import Ilo2.Lib.Codec
import Ilo2.Tls.Codec
import Ilo2.Ribcl.Places
import Ilo2.Ribcl.Quoted
import Ilo2.Lib.Xml
import Ilo2.Ribcl.Request
import Ilo2.Ribcl.Markup
import Ilo2.Lib.Records
import Ilo2.Ribcl.Section
import Ilo2.Ribcl.Report
import Ilo2.Crypto.Rc4Object
import Ilo2.Lib.Buckets
import Ilo2.Media.ReadMap
import Ilo2.Lib.Scan
import Ilo2.Ribcl.Scanner
import Ilo2.Ui.Connections
import Ilo2.Session.FindQuoted
import Ilo2.Session.Params
import Ilo2.Ui.PowerControl
import Ilo2.Lib.Trace
import Ilo2.Lib.JobQueue
import Ilo2.Ui.Requests
import Ilo2.Media.Turns
import Ilo2.Media.Jobs
import Ilo2.Lib.TwoClick
import Ilo2.Lib.Approval
import Ilo2.Ui.Window
import Ilo2.Ui.Phases
import Ilo2.Ui.Confirm
import Ilo2.Ui.DeadEnd
import Ilo2.Ui.Closing
import Ilo2.Session.Acquire
import Ilo2.Session.Setup
import Ilo2.Ui.Replay
import Ilo2.Lib.Serial
import Ilo2.Ui.ReadStrip
import Ilo2.Lib.Intervals
import Ilo2.Media.Range
import Ilo2.Media.Ranges
import Ilo2.Media.Respond
import Ilo2.Media.Answers
import Ilo2.Lib.Inflate
import Ilo2.Lib.Crc
import Ilo2.Lib.PngReader
import Ilo2.Png.Zlib
import Ilo2.Png.Writer
import Ilo2.Dvc.Sizes
import Ilo2.Png.Saved
