import PdfStream.Digest

/-!
Unpredictable bytes from a seed: each draw hashes the seed with the number of the draw.
-/
namespace PdfStream

structure Entropy where
  seed : Bytes := []
  draws : Nat := 0
  deriving DecidableEq, Repr

namespace Entropy

/-- Sixteen bytes, and the source after them. -/
def draw (e : Entropy) : Entropy × Bytes :=
  ({ e with draws := e.draws + 1 },
    (Digest.sha256 (e.seed ++ Bytes.ofNat 8 e.draws)).take 16)

@[simp] theorem length_draw (e : Entropy) : e.draw.2.length = 16 := by simp [draw]

end Entropy
end PdfStream
