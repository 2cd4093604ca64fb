import PdfStream.Crypto.Algorithm
import PdfStream.Digest.Md5
import PdfStream.Digest.Sha1
import PdfStream.Digest.Sha2

/-!
The digests by kind.
-/
namespace PdfStream.DigestKind

def digest : DigestKind → Bytes → Bytes
  | .md5 => Digest.md5
  | .sha1 => Digest.sha1
  | .sha256 => Digest.sha256
  | .sha384 => Digest.sha384
  | .sha512 => Digest.sha512

@[simp] theorem length_digest (kind : DigestKind) (message : Bytes) :
    (kind.digest message).length = kind.outputLength := by
  cases kind <;> simp [digest, outputLength]

end PdfStream.DigestKind
