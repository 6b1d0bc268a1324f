/-!
Byte ranges of a text, and the pieces of a text that they cut out. Every offset in the library is a
byte offset of the UTF-8 encoding.
-/

namespace LuaAnalysis

/-- The bytes from `start` up to, and without, `stop`. -/
structure Span where
  start : Nat
  stop : Nat
deriving DecidableEq, Repr, Hashable, Inhabited

namespace Span

def empty (offset : Nat) : Span := ⟨offset, offset⟩

def length (s : Span) : Nat := s.stop - s.start

def isEmpty (s : Span) : Bool := s.start == s.stop

/-- A caret right behind the last byte still touches the span. -/
def touches (s : Span) (offset : Nat) : Bool := s.start ≤ offset && offset ≤ s.stop

def covers (s t : Span) : Bool := s.start ≤ t.start && t.stop ≤ s.stop

def hull (s t : Span) : Span := ⟨min s.start t.start, max s.stop t.stop⟩

def text (s : Span) : String := s!"{s.start}..{s.stop}"

def cmp (s t : Span) : Ordering := (compare s.start t.start).then (compare s.stop t.stop)

end Span

namespace Text

def byteLength (cs : List Char) : Nat := cs.foldl (fun n c => n + c.utf8Size) 0

def slice (s : String) (span : Span) : String :=
  String.Pos.Raw.extract s ⟨span.start⟩ ⟨span.stop⟩

/-- Cuts off the first bytes, unless that cuts a character or there are fewer. -/
def splitBytes? : Nat → List Char → Option (List Char × List Char)
  | 0, cs => some ([], cs)
  | _, [] => none
  | n, c :: r =>
    if n < c.utf8Size then none
    else (splitBytes? (n - c.utf8Size) r).map fun (taken, rest) => (c :: taken, rest)

/-- The part of a text that a span covers, where there is one: `slice` moves an offset inside a
character, and this does not. -/
def slice? (s : String) (span : Span) : Option String :=
  if span.stop < span.start then none
  else do
    let (_, behind) ← splitBytes? span.start s.toList
    let (taken, _) ← splitBytes? (span.stop - span.start) behind
    return String.ofList taken

def charsBefore (offset : Nat) (cs : List Char) : Nat :=
  go 0 0 cs
where
  /-- Counts on from `count` characters that take `pos` bytes. -/
  go (pos count : Nat) : List Char → Nat
    | [] => count
    | c :: r => if pos < offset then go (pos + c.utf8Size) (count + 1) r else count

end Text

end LuaAnalysis
