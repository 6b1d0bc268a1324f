import LuaAnalysis.Text.Span

/-!
A cursor over a part of a text. Offsets count from the start of the whole text, and what lies
between the mark and the cursor is the piece being read.
-/

namespace LuaAnalysis.Syntax

structure Cursor where
  text : String
  /-- Where the part that is read ends. -/
  stop : Nat
  /-- The mark: where the current piece starts. -/
  start : Nat
  pos : Nat
  /-- The characters from `pos` to `stop`. -/
  rest : List Char
deriving Repr

namespace Cursor

def ofSpan (text : String) (span : Span) : Cursor :=
  ⟨text, span.stop, span.start, span.start, (Text.slice text span).toList⟩

def ofText (text : String) : Cursor := ofSpan text ⟨0, text.utf8ByteSize⟩

def atEnd (c : Cursor) : Bool := c.pos ≥ c.stop

def peek? (c : Cursor) : Option Char := c.rest[0]?

def peekNext? (c : Cursor) : Option Char := c.rest[1]?

def sees (c : Cursor) (p : Char → Bool) : Bool := (c.peek?.map p).getD false

def seesNext (c : Cursor) (p : Char → Bool) : Bool := (c.peekNext?.map p).getD false

def startsWith (c : Cursor) (word : String) : Bool := word.toList.isPrefixOf c.rest

/-- The `n`-th byte ahead, zero behind the end. -/
def byteAt (c : Cursor) (n : Nat) : Nat :=
  ((String.ofList c.rest).toUTF8.toList[n]?.map UInt8.toNat).getD 0

def bump (c : Cursor) : Cursor :=
  match c.rest with
  | [] => c
  | d :: rest => { c with pos := c.pos + d.utf8Size, rest := rest }

def bumpN : Nat → Cursor → Cursor
  | 0, c => c
  | n + 1, c => bumpN n c.bump

def eatWhile (c : Cursor) (p : Char → Bool) : Cursor × Nat :=
  let taken := c.rest.takeWhile p
  ({ c with pos := c.pos + Text.byteLength taken, rest := c.rest.dropWhile p }, taken.length)

def skipWhile (c : Cursor) (p : Char → Bool) : Cursor := (c.eatWhile p).1

def skipLine (c : Cursor) : Cursor := c.skipWhile fun d => d != '\n' && d != '\r'

def mark (c : Cursor) : Cursor := { c with start := c.pos }

def span (c : Cursor) : Span := ⟨c.start, c.pos⟩

def piece (c : Cursor) : String := Text.slice c.text c.span

def moveTo (c : Cursor) (start pos : Nat) : Cursor :=
  { c with start := start, pos := pos, rest := (Text.slice c.text ⟨pos, c.stop⟩).toList }

/-- A new piece starts at an offset, or at the end if the offset lies behind it. -/
def resetTo (c : Cursor) (pos : Nat) : Cursor := c.moveTo (min pos c.stop) (min pos c.stop)

/-- A place to come back to. -/
structure Checkpoint where
  start : Nat
  pos : Nat
deriving DecidableEq, Repr

def checkpoint (c : Cursor) : Checkpoint := ⟨c.start, c.pos⟩

def restore (c : Cursor) (saved : Checkpoint) : Cursor := c.moveTo saved.start saved.pos

end Cursor

end LuaAnalysis.Syntax
