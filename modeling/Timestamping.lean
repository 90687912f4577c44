import Timestamping.Attestation.Display
import Timestamping.Buffer
import Timestamping.Export
import Timestamping.Golden
import Timestamping.Proofs.Utf8.Validity
import Timestamping.Proofs.Varint.Spelling
import Timestamping.Sample
import Timestamping.Session
import Timestamping.Proofs.Record.Grammar
import Timestamping.Proofs.Record.RoundTrip
import Timestamping.Proofs.Record.Canonical
import Timestamping.Proofs.Refusal
import Timestamping.Proofs.Varint.Refusal
import Timestamping.Proofs.Record.Refusal
import Timestamping.Proofs.Record.Extension
import Timestamping.Proofs.Session.ReadBack
import Timestamping.Proofs.Record.PrefixFree
import Timestamping.Proofs.Record.Stream
import Timestamping.Proofs.Record.Dispatch
import Timestamping.Proofs.Record.Registration
import Timestamping.Proofs.Cursor
import Timestamping.Proofs.Machine.Program
import Timestamping.Proofs.Machine.Agreement
import Timestamping.Proofs.Session.Failure
import Timestamping.Proofs.Session.Places
import Timestamping.Proofs.Json.Number
import Timestamping.Proofs.Json.Quoted
import Timestamping.Proofs.Json.Token
import Timestamping.Proofs.Json.Value
import Timestamping.Proofs.Export
import Timestamping.Proofs.Varint.Decision
import Timestamping.Proofs.Record.Limits
import Timestamping.Proofs.Machine.Writer
import Timestamping.Proofs.Varint.Shortest
import Timestamping.Proofs.Session.Surroundings
import Timestamping.Proofs.Sample
import Timestamping.Proofs.Utf8.Fault
import Timestamping.Proofs.Uri
import Timestamping.Proofs.Text.Blank
import Timestamping.Proofs.Text.Hex
import Timestamping.Proofs.Text.Escape
import Timestamping.Proofs.Record.Hex
import Timestamping.Proofs.Display
import Timestamping.Proofs.Tag.Hex
import Timestamping.Proofs.Tag.Order
import Timestamping.Proofs.Varint.ByteString
