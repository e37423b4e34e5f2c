import Reckon.Decimal

/-!
Text as bytes. `encode` writes UTF-8. `decode` reads any bytes at all: where they are no UTF-8,
the longest piece that could still have begun a character becomes one replacement character.
-/

set_option autoImplicit false

namespace Reckon

abbrev Bytes := List UInt8

namespace Utf8

def encodeChar (c : Char) : Bytes :=
  let n := c.toNat
  if n < 0x80 then [.ofNat n]
  else if n < 0x800 then [.ofNat (0xC0 + n / 64), .ofNat (0x80 + n % 64)]
  else if n < 0x10000 then
    [.ofNat (0xE0 + n / 4096), .ofNat (0x80 + n / 64 % 64), .ofNat (0x80 + n % 64)]
  else
    [.ofNat (0xF0 + n / 262144), .ofNat (0x80 + n / 4096 % 64), .ofNat (0x80 + n / 64 % 64),
      .ofNat (0x80 + n % 64)]

def encode (s : Text) : Bytes := s.flatMap encodeChar

theorem encode_append (s t : Text) : encode (s ++ t) = encode s ++ encode t := by
  simp [encode]

def replacement : Char := '\uFFFD'

/-- A character of which some bytes are still to come: how many, the bits read so far, and the
bounds of the next byte. -/
structure Unfinished where
  missing : Nat
  bits : Nat
  low : Nat
  high : Nat
  deriving DecidableEq, Repr

/-- What the first byte of a longer character announces. The bounds of the second byte leave out
forms that are longer than needed, surrogates, and numbers beyond the last character. -/
def lead? (b : Nat) : Option Unfinished :=
  if b < 0xC2 then none
  else if b < 0xE0 then some ⟨1, b - 0xC0, 0x80, 0xBF⟩
  else if b = 0xE0 then some ⟨2, 0, 0xA0, 0xBF⟩
  else if b = 0xED then some ⟨2, 0xD, 0x80, 0x9F⟩
  else if b < 0xF0 then some ⟨2, b - 0xE0, 0x80, 0xBF⟩
  else if b = 0xF0 then some ⟨3, 0, 0x90, 0xBF⟩
  else if b < 0xF4 then some ⟨3, b - 0xF0, 0x80, 0xBF⟩
  else if b = 0xF4 then some ⟨3, 4, 0x80, 0x8F⟩
  else none

structure Decoder where
  done : Array Char
  current : Option Unfinished
  deriving DecidableEq, Repr

def Decoder.start : Decoder := ⟨#[], none⟩

def Decoder.begin (done : Array Char) (b : Nat) : Decoder :=
  if b < 0x80 then ⟨done.push (Char.ofNat b), none⟩
  else match lead? b with
    | some u => ⟨done, some u⟩
    | none => ⟨done.push replacement, none⟩

/-- Reads one byte. A byte that does not continue the current character begins the next one. -/
def Decoder.feed (d : Decoder) (byte : UInt8) : Decoder :=
  let b := byte.toNat
  match d.current with
  | none => begin d.done b
  | some u =>
    if u.low ≤ b && b ≤ u.high then
      let bits := 64 * u.bits + (b - 0x80)
      if u.missing ≤ 1 then ⟨d.done.push (Char.ofNat bits), none⟩
      else ⟨d.done, some ⟨u.missing - 1, bits, 0x80, 0xBF⟩⟩
    else begin (d.done.push replacement) b

def Decoder.finish (d : Decoder) : Text :=
  match d.current with
  | none => d.done.toList
  | some _ => (d.done.push replacement).toList

def decode (bytes : Bytes) : Text := (bytes.foldl Decoder.feed Decoder.start).finish

end Utf8

end Reckon
