/-!
Text from bytes that may not be valid UTF-8. Each longest run of bytes that starts a character and
cannot go on is read as one replacement character.
-/

namespace LuaAnalysis.Text

def leadByte? (b : Nat) : Option (Nat × Nat × Nat) :=
  if 0xC2 ≤ b && b ≤ 0xDF then some (1, 0x80, 0xBF)
  else if b == 0xE0 then some (2, 0xA0, 0xBF)
  else if b == 0xED then some (2, 0x80, 0x9F)
  else if 0xE1 ≤ b && b ≤ 0xEF then some (2, 0x80, 0xBF)
  else if b == 0xF0 then some (3, 0x90, 0xBF)
  else if 0xF1 ≤ b && b ≤ 0xF3 then some (3, 0x80, 0xBF)
  else if b == 0xF4 then some (3, 0x80, 0x8F)
  else none

def leadBits (b : Nat) : Nat :=
  if b < 0xE0 then b % 0x20 else if b < 0xF0 then b % 0x10 else b % 0x08

/-- Reads `more` continuation bytes, the next of which lies between `lo` and `hi`. -/
def continuation : Nat → Nat → Nat → Nat → List Nat → Option Nat × List Nat
  | 0, _, _, code, bytes => (some code, bytes)
  | _ + 1, _, _, _, [] => (none, [])
  | more + 1, lo, hi, code, b :: r =>
    if lo ≤ b && b ≤ hi then continuation more 0x80 0xBF (code * 64 + b % 64) r else (none, b :: r)

/-- The first character of bytes whose first is `b`, and the bytes behind it. -/
def firstChar (b : Nat) (r : List Nat) : Char × List Nat :=
  if b < 0x80 then (Char.ofNat b, r)
  else
    match leadByte? b with
    | none => ('\uFFFD', r)
    | some (more, lo, hi) =>
      match continuation more lo hi (leadBits b) r with
      | (some code, r) => (Char.ofNat code, r)
      | (none, r) => ('\uFFFD', r)

/-- The characters of bytes. Each takes at least one byte, so their number is fuel enough. -/
def charsOfBytes : Nat → List Nat → List Char
  | 0, _ => []
  | _, [] => []
  | fuel + 1, b :: r =>
    let (c, r) := firstChar b r
    c :: charsOfBytes fuel r

def ofBytes (bytes : List Nat) : String := String.ofList (charsOfBytes bytes.length bytes)

def toBytes (s : String) : List Nat := s.toUTF8.toList.map UInt8.toNat

end LuaAnalysis.Text
