import PdfStream.Error

/-!
Padding to whole AES blocks: one to sixteen bytes, each naming how many there are.
-/
namespace PdfStream.Padding

def pad (data : Bytes) : Bytes :=
  let count := 16 - data.length % 16
  data ++ List.replicate count (UInt8.ofNat count)

/-- The padding must be complete, fit the data, and repeat its length throughout. -/
def unpad (data : Bytes) : Except Error Bytes :=
  match data.getLast? with
  | none => .error (.decode .aesEmpty)
  | some last =>
    let count := last.toNat
    if count = 0 ∨ 16 < count ∨ data.length < count then
      .error (.decode (.aesPadLength count))
    else if (data.drop (data.length - count)).any (· ≠ last) then
      .error (.decode .aesPadBytes)
    else .ok (data.take (data.length - count))

end PdfStream.Padding
