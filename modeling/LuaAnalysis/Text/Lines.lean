import LuaAnalysis.Text.Span

/-!
Lines of a text, and places in it by line and column as editors count them: from zero, columns in
UTF-16 units, so that a character outside the basic plane counts twice.
-/

namespace LuaAnalysis.Text

def units16 (c : Char) : Nat := if c.toNat < 0x10000 then 1 else 2

def endsLine (c : Char) : Bool :=
  let n := c.toNat
  (0x0A ≤ n && n ≤ 0x0D) || n == 0x85 || n == 0x2028 || n == 0x2029

/-- A place by line and column. -/
structure Position where
  line : Nat
  column : Nat
deriving DecidableEq, Repr, Inhabited

/-- The offsets at which lines start, other than the first line, when `pos` is the offset of the
first character. A carriage return with a line feed behind it is one line break. -/
def laterLineStarts (pos : Nat) : List Char → List Nat
  | [] => []
  | '\r' :: '\n' :: r => (pos + 2) :: laterLineStarts (pos + 2) r
  | c :: r =>
    let next := pos + c.utf8Size
    if endsLine c then next :: laterLineStarts next r else laterLineStarts next r

/-- A text cut into lines. -/
structure Lines where
  text : String
  /-- The offsets at which lines start, ascending, the first of them zero. -/
  starts : Array Nat
deriving Repr, Inhabited

namespace Lines

def ofText (text : String) : Lines := ⟨text, (0 :: laterLineStarts 0 text.toList).toArray⟩

def count (l : Lines) : Nat := l.starts.size

/-- The line that an offset lies on. Behind the end of the text it is the last line. -/
def lineOf (l : Lines) (offset : Nat) : Nat :=
  (l.starts.toList.takeWhile (· ≤ offset)).length - 1

def startOf (l : Lines) (line : Nat) : Nat := l.starts[line]?.getD l.text.utf8ByteSize

/-- The UTF-16 units of the characters that end within the first `bytes` bytes. -/
def unitsWithin (bytes : Nat) : List Char → Nat
  | [] => 0
  | c :: r => if c.utf8Size ≤ bytes then units16 c + unitsWithin (bytes - c.utf8Size) r else 0

def position (l : Lines) (offset : Nat) : Position :=
  let line := l.lineOf offset
  let start := l.startOf line
  ⟨line, unitsWithin (offset - start) (slice l.text ⟨start, l.text.utf8ByteSize⟩).toList⟩

def content (l : Lines) (line : Nat) : List Char :=
  let chars := (slice l.text ⟨l.startOf line, l.startOf (line + 1)⟩).toList
  (chars.reverse.dropWhile fun c => c == '\n' || c == '\r').reverse

/-- The bytes of the longest run of characters at the front that has at most `units` UTF-16
units. -/
def bytesWithin (units : Nat) : List Char → Nat
  | [] => 0
  | c :: r => if units16 c ≤ units then c.utf8Size + bytesWithin (units - units16 c) r else 0

/-- The offset of a position. A line behind the last counts as the last, and a column behind the end
of its line as the end. -/
def offset (l : Lines) (p : Position) : Nat :=
  let line := min p.line (l.count - 1)
  l.startOf line + bytesWithin p.column (l.content line)

end Lines

end LuaAnalysis.Text
