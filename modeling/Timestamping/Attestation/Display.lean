import Timestamping.Attestation

/-!
The one-line form of an attestation. The three forms begin differently; a payload that nobody
understands is shown in printable ASCII only.
-/

namespace Timestamping.Attestation

def display : Attestation → Text
  | .pending uri => "VERIFY PendingAttestation(url=".toList ++ Utf8.readable uri ++ [')']
  | .bitcoin height =>
      "VERIFY BitcoinAttestation(height=".toList ++ Nat.toDigits 10 height.toNat ++ [')']
  | .unknown tag payload =>
      "UnknownAttestation(tag=".toList ++ tag.toHex ++ ", bytes=\"".toList ++
        Escape.bytes payload ++ "\")".toList

end Timestamping.Attestation
