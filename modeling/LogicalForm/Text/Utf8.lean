import LogicalForm.Text.Pieces

/-!
# Texts as bytes

Core decides which bytes are a text in UTF-8. What is added here is the display of bytes that are none,
and the lines of a stream of which only some may be texts.
-/

namespace LogicalForm.Text.Utf8
set_option autoImplicit false

def replacement : Char := '�'

structure Unfinished where
  owed : Nat
  low : Nat
  high : Nat
  value : Nat

structure Decoder where
  done : List Char
  unfinished : Option Unfinished

namespace Decoder

def begin (done : List Char) (b : Nat) : Decoder :=
  if b ≤ 0x7F then ⟨Char.ofNat b :: done, none⟩
  else if 0xC2 ≤ b ∧ b ≤ 0xDF then ⟨done, some ⟨1, 0x80, 0xBF, b - 0xC0⟩⟩
  else if b = 0xE0 then ⟨done, some ⟨2, 0xA0, 0xBF, 0⟩⟩
  else if b = 0xED then ⟨done, some ⟨2, 0x80, 0x9F, 0xD⟩⟩
  else if 0xE1 ≤ b ∧ b ≤ 0xEF then ⟨done, some ⟨2, 0x80, 0xBF, b - 0xE0⟩⟩
  else if b = 0xF0 then ⟨done, some ⟨3, 0x90, 0xBF, 0⟩⟩
  else if b = 0xF4 then ⟨done, some ⟨3, 0x80, 0x8F, 4⟩⟩
  else if 0xF1 ≤ b ∧ b ≤ 0xF3 then ⟨done, some ⟨3, 0x80, 0xBF, b - 0xF0⟩⟩
  else ⟨replacement :: done, none⟩

/-- Takes one byte. A byte that cannot go on with an unfinished character closes it as one
replacement and starts afresh. -/
def feed (decoder : Decoder) (byte : UInt8) : Decoder :=
  let b := byte.toNat
  match decoder.unfinished with
  | none => begin decoder.done b
  | some u =>
    if u.low ≤ b ∧ b ≤ u.high then
      let value := u.value * 64 + (b - 0x80)
      if u.owed ≤ 1 then ⟨Char.ofNat value :: decoder.done, none⟩
      else ⟨decoder.done, some ⟨u.owed - 1, 0x80, 0xBF, value⟩⟩
    else begin (replacement :: decoder.done) b

def finish (decoder : Decoder) : List Char :=
  match decoder.unfinished with
  | none => decoder.done.reverse
  | some _ => (replacement :: decoder.done).reverse

end Decoder

/-- The text of the bytes, with a replacement for each longest run that starts a character and does
not end it, and for each byte that starts none. -/
def display (bytes : List UInt8) : String :=
  match String.fromUTF8? bytes.toByteArray with
  | some text => text
  | none => String.ofList (bytes.foldl Decoder.feed ⟨[], none⟩).finish

def decode? (bytes : List UInt8) : Option String := String.fromUTF8? bytes.toByteArray

def encode (text : String) : List UInt8 := text.toUTF8.toList

def carriageReturn : UInt8 := 0x0D

def lineFeed : UInt8 := 0x0A

def lines (bytes : ByteArray) : List (Option String) :=
  (lineRuns carriageReturn lineFeed bytes.data.toList).map decode?

end LogicalForm.Text.Utf8
