import Timestamping.Attestation

/-!
Records put together by hand, among them some that no attestation has.
-/

namespace Timestamping.Sample

def record (tag : Tag) (payload : Bytes) : Bytes :=
  Envelope.encode ⟨tag, payload⟩

/-- A header that declares a payload and has none behind it. -/
def header (tag : Tag) (length : UInt64) : Bytes :=
  tag.bytes ++ Varint.encode length

/-- A block record with more bytes behind the height, inside the payload. -/
def bitcoin (height : UInt64) (trailing : Bytes) : Bytes :=
  record .bitcoin (Varint.encode height ++ trailing)

def pending (uri : Bytes) : Bytes :=
  record .pending (VarBytes.encode uri)

end Timestamping.Sample
