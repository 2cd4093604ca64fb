import PdfStream.Proofs.Bytes
import PdfStream.Proofs.Coder

/-!
ASCIIHex sessions. Both directions go byte by byte, and the two digits of a byte read back as the
byte.
-/
namespace PdfStream

namespace Hex

theorem upper_append (xs ys : Bytes) : upper (xs ++ ys) = upper xs ++ upper ys :=
  List.flatMap_append

theorem value?_high (b : UInt8) : value? (digit 0x41 (b >>> 4)) = some (b >>> 4) := by
  revert b
  exact forall_byte (by decide +kernel)

theorem value?_low (b : UInt8) : value? (digit 0x41 (b &&& 15)) = some (b &&& 15) := by
  revert b
  exact forall_byte (by decide +kernel)

theorem join_digits (b : UInt8) : (b >>> 4) <<< 4 ||| (b &&& 15) = b := by
  revert b
  exact forall_byte (by decide +kernel)

end Hex

namespace AsciiHex

def encoding : Coder AsciiHex := ⟨fun data c => c.encodeBlock data, endEncode⟩

def decoding : Coder AsciiHex := ⟨fun data c => c.decodeBlock data, endDecode⟩

/-- What encoding makes of the data. -/
def encoded (data : Bytes) : Bytes := Hex.upper data ++ [eod]

/-- What reading makes of the data. -/
def decoded (c : AsciiHex) (data : Bytes) : Option Bytes :=
  ((Step.run readByte c data).andThen endDecode).output?

theorem encoding_computes (c : AsciiHex) : encoding.Computes c fun data => some (encoded data) := by
  refine Coder.computes_of_meaning (fun _ => True) (fun _ data => some (encoded data))
    (fun _ _ _ _ => trivial) ?_ ?_ trivial
  · intro c data rest _
    have hblock : (encoding.block data c).output? = some (Hex.upper data) := Step.output?_write _ _
    rw [hblock, Option.bind_some, Option.map_some, encoded, encoded, Hex.upper_append,
      List.append_assoc]
  · intro c _
    exact Step.output?_write c [eod]

theorem decoding_computes (c : AsciiHex) : decoding.Computes c (decoded c) :=
  Coder.computes_run decoding readByte endDecode id
    (fun s data => Step.agrees_joined (Step.run readByte s data)) (fun _ => rfl) c

/-- Two digits bring the reader back to where it was. -/
theorem readByte_pair (b : UInt8) :
    (Step.run readByte {} [Hex.digit 0x41 (b >>> 4), Hex.digit 0x41 (b &&& 15)]).Yields {} [b] := by
  have hhigh : (readByte {} (Hex.digit 0x41 (b >>> 4))).Yields ⟨some (b >>> 4), false⟩ [] := by
    rw [readByte, Hex.value?_high]
    exact Step.yields_quiet _
  have hlow : (readByte ⟨some (b >>> 4), false⟩ (Hex.digit 0x41 (b &&& 15))).Yields {} [b] := by
    rw [readByte, Hex.value?_low]
    have hwrite := Step.yields_write (σ := AsciiHex) {} [(b >>> 4) <<< 4 ||| (b &&& 15)]
    rw [Hex.join_digits] at hwrite
    simpa [Hex.join_digits] using hwrite
  exact hhigh.run_singleton.run_append hlow.run_singleton

theorem run_readByte_upper (data : Bytes) :
    (Step.run readByte {} (Hex.upper data)).Yields {} data := by
  induction data with
  | nil => exact Step.yields_quiet _
  | cons b data ih => exact (readByte_pair b).run_append ih

/-- Reading what was written gives back the data. -/
theorem decoded_encoded (data : Bytes) : decoded {} (encoded data) = some data := by
  have hmark : (readByte {} eod).Yields ⟨none, true⟩ [] := Step.yields_quiet _
  have hread := (run_readByte_upper data).run_append hmark.run_singleton
  have hclosed := hread.andThen (f := endDecode) (Step.yields_quiet _)
  rw [List.append_nil, List.append_nil] at hclosed
  exact hclosed.output?

end AsciiHex
end PdfStream
