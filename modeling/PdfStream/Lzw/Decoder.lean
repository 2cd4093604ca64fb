import PdfStream.Lzw.Encoder

/-!
The dictionary of the LZW decoder, code by code. Words are kept last byte first, so that a word and
its continuations share their cells.
-/
namespace PdfStream.Lzw

structure Decoder where
  /-- One if codes widen one entry early, else zero. -/
  early : Nat
  width : Nat := 9
  width_pos : 0 < width := by decide
  /-- The words of codes 258 and up, last byte first. -/
  words : Array Bytes := #[]
  /-- The word of the code before, last byte first. -/
  previous : Option Bytes := none
  deriving DecidableEq

/-- What a code stands for. -/
inductive Meaning where
  /-- A word, last byte first. -/
  | word (reversed : Bytes)
  | clear
  | finish
  | invalid
  deriving DecidableEq, Repr

namespace Decoder

def create (earlyChange : Bool) : Decoder := { early := if earlyChange then 1 else 0 }

/-- Entries so far, the single bytes and the two marks included. -/
def count (d : Decoder) : Nat := firstCode + d.words.size

/-- With this many entries codes widen. -/
def limit (d : Decoder) : Nat := 1 <<< d.width - 1 - d.early

/-- The word of a code that has one. -/
def word? (d : Decoder) (code : Nat) : Option Bytes :=
  if code < 256 then some [UInt8.ofNat code]
  else if code < firstCode then none
  else d.words[code - firstCode]?

/-- The word of `code` after `previous`; the next free code is `previous` and its own first byte. -/
def nextWord? (d : Decoder) (previous : Bytes) (code : Nat) : Option Bytes :=
  if code = d.count ∧ d.count < 1 <<< maxWidth then (previous.getLast?).map (· :: previous)
  else d.word? code

def widen (d : Decoder) : Decoder :=
  { d with width := d.width + 1, width_pos := Nat.succ_pos _ }

/-- A full table takes no more words. -/
def learn (d : Decoder) (word : Bytes) : Decoder :=
  if 1 <<< maxWidth ≤ d.count then d
  else
    let wider := if d.limit ≤ d.count ∧ d.width < maxWidth then d.widen else d
    { wider with words := d.words.push word }

/-- An invalid code has no word that the next one could continue. -/
def read (d : Decoder) (code : Nat) : Decoder × Meaning :=
  if code = clearCode then ({ early := d.early }, .clear)
  else if code = endCode then (d, .finish)
  else
    match d.previous with
    | none =>
      match d.word? code with
      | some word => ({ d with previous := some word }, .word word)
      | none => (d, .invalid)
    | some previous =>
      match d.nextWord? previous code with
      | some word =>
        match word.getLast? with
        | some first => ({ d.learn (first :: previous) with previous := some word }, .word word)
        | none => ({ d with previous := none }, .invalid)
      | none => ({ d with previous := none }, .invalid)

end Decoder
end PdfStream.Lzw
