import LuaAnalysis.Text.Blank
import LuaAnalysis.Text.Numeral
import LuaAnalysis.Text.Span

namespace LuaAnalysis.Syntax.Literal

def charOf? (n : Nat) : Option Char := if n.isValidChar then some (Char.ofNat n) else none

def escapeLetter? : Char → Option Char
  | 'n' => some '\n'
  | 't' => some '\t'
  | 'r' => some '\r'
  | 'a' => some '\x07'
  | 'b' => some '\x08'
  | 'f' => some '\x0c'
  | 'v' => some '\x0b'
  | _ => none

/-- The character of up to three decimal digits, of which `d` is the first, and what follows. -/
def decimalEscape (d : Char) (cs : List Char) : Option Char × List Char :=
  let more := (cs.take 2).takeWhile Char.isDigit
  (((Text.digits? 10 (d :: more)).bind charOf?), cs.drop more.length)

def byteEscape (cs : List Char) : Option Char × List Char :=
  ((Text.unsigned? 16 256 (cs.take 2)).bind charOf?, cs.drop 2)

def codeEscape (cs : List Char) : Option Char × List Char :=
  match cs with
  | '\x7b' :: r =>
    let code := r.takeWhile (· != '\x7d')
    ((Text.unsigned? 16 UInt32.size code).bind charOf?, r.drop (code.length + 1))
  | cs => (none, cs)

/-- What an escape stands for, whose first character behind the backslash is `c`, and what
follows. -/
def escape (c : Char) (cs : List Char) : Option Char × List Char :=
  match escapeLetter? c with
  | some d => (some d, cs)
  | none =>
    if c == 'z' then (none, cs.dropWhile Text.isBlank)
    else if c == 'x' then byteEscape cs
    else if c == 'u' then codeEscape cs
    else if c.isDigit then decimalEscape c cs
    else (some c, cs)

/-- Applies the escapes of a quoted string. Each step takes a character, so the number of characters
is fuel enough. -/
def unescape : Nat → List Char → List Char
  | 0, _ => []
  | _, [] => []
  | fuel + 1, c :: r =>
    if c == '\x5c' then
      match r with
      | [] => []
      | e :: r =>
        let (d, r) := escape e r
        d.toList ++ unescape fuel r
    else c :: unescape fuel r

def withoutLineBreak : List Char → List Char
  | '\r' :: '\n' :: r => r
  | '\n' :: r => r
  | r => r

/-- The content of a long bracket, without a line break at its start. As many bytes as the opener
has are cut off at both ends, whatever stands there; where that cuts a character there is no
content. -/
def longStringValue? (text : String) : Option String :=
  let level := ((text.toList.drop 1).takeWhile (· == '=')).length
  let bracket := level + 2
  if text.utf8ByteSize < 2 * bracket then some ""
  else
    (Text.slice? text ⟨bracket, text.utf8ByteSize - bracket⟩).map fun inner =>
      String.ofList (withoutLineBreak inner.toList)

/-- The string that a token in quotes or long brackets stands for. The closing quote may be
missing. -/
def stringValue? (text : String) : Option String :=
  match text.toList with
  | [] => some ""
  | '[' :: _ => longStringValue? text
  | quote :: r =>
    let inner := if r.getLast? == some quote then r.dropLast else r
    some (String.ofList (unescape inner.length inner))

/-- What stands for a token in the types and the members of a text, whether it has a value or
not. -/
def stringValue (text : String) : String := (stringValue? text).getD ""

/-- The integer that a decimal or hexadecimal token stands for. A hexadecimal one of 64 bits may be
negative. -/
def integerValue? (text : String) : Option Int :=
  match text.toList with
  | '-' :: digits => (magnitude? digits).map fun i => Text.wrap64 (-i)
  | digits => magnitude? digits
where
  /-- What stands behind an optional minus sign. -/
  magnitude? : List Char → Option Int
    | '0' :: 'x' :: r => hexadecimal? r
    | '0' :: 'X' :: r => hexadecimal? r
    | r => Text.signed64? r
  /-- Hexadecimal digits of at most 64 bits. -/
  hexadecimal? (r : List Char) : Option Int :=
    (Text.unsigned? 16 UInt64.size r).map fun n => Text.wrap64 n

end LuaAnalysis.Syntax.Literal
