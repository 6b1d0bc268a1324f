import LuaAnalysis.Text.Blank
import LuaAnalysis.Syntax.Cursor
import LuaAnalysis.Syntax.Lexer

/-!
Tokens of the annotation language inside one comment. What the next token is depends on a mode,
which the reader of annotations may also change: a type ends and free text begins.
-/

namespace LuaAnalysis.Syntax

inductive DocMode where
  /-- At the comment opener. -/
  | init
  /-- An `@` with a tag word is expected. -/
  | tag
  /-- Inside the type grammar of a tag. -/
  | normal
  /-- The rest of the comment is free text. -/
  | description
  /-- The rest of a comment that is no annotation. -/
  | trivia
deriving DecidableEq, Repr, Inhabited

namespace DocMode

def label : DocMode → String
  | .init => "Init"
  | .tag => "Tag"
  | .normal => "Normal"
  | .description => "Description"
  | .trivia => "Trivia"

def ofLabel? (s : String) : Option DocMode :=
  [init, tag, normal, description, trivia].find? fun m => m.label == s

end DocMode

structure DocLexer where
  cursor : Cursor
  mode : DocMode
deriving Repr

namespace DocLexer

def longCommentLevel? : List Char → Option Nat
  | '-' :: '-' :: r => Lexer.longLevel? r
  | _ => none

/-- Starts to read the comment at `span`. The closing bracket of a long comment is left out. -/
def ofComment (text : String) (span : Span) : DocLexer :=
  let content := (Text.slice text span).toList
  let stop := match longCommentLevel? content with
    | some level =>
      if Text.byteLength content > level + 6
          && (Lexer.longCloser level).isPrefixOf (content.reverse.take (level + 2)).reverse then
        span.stop - (level + 2)
      else span.stop
    | none => span.stop
  ⟨.ofSpan text ⟨span.start, stop⟩, .init⟩

def resetTo (l : DocLexer) (offset : Nat) (mode : DocMode) : DocLexer :=
  ⟨l.cursor.resetTo offset, mode⟩

structure Checkpoint where
  cursor : Cursor.Checkpoint
  mode : DocMode
deriving DecidableEq, Repr

def checkpoint (l : DocLexer) : Checkpoint := ⟨l.cursor.checkpoint, l.mode⟩

def restore (l : DocLexer) (saved : Checkpoint) : DocLexer :=
  ⟨l.cursor.restore saved.cursor, saved.mode⟩

def seesTag (c : Cursor) : Bool := (c.skipWhile fun d => d == ' ' || d == '\t').sees (· == '@')

def opener (c : Cursor) : TokenKind × Cursor × DocMode :=
  let c := c.mark
  if c.startsWith "---|" then (.docContinueOr, c.bumpN 4, .normal)
  else if (longCommentLevel? c.rest).isSome then
    let c := ((c.bumpN 3).skipWhile (· == '=')).bump
    if c.sees (· == '@') then (.docLongStart, c, .tag) else (.normalStart, c, .trivia)
  else if c.startsWith "---" && !c.startsWith "----" then
    let c := c.bumpN 3
    (.docStart, c, if seesTag c then .tag else .description)
  else
    let c := c.skipWhile (· == '-')
    (.normalStart, c, if seesTag c then .tag else .trivia)

def remainder (kind : TokenKind) (mode : DocMode) (c : Cursor) : TokenKind × Cursor × DocMode :=
  let c := (c.skipWhile Text.isBlank).mark
  if c.atEnd then (.docLineEnd, c, mode) else (kind, c.skipWhile fun _ => true, mode)

def tagWord (c : Cursor) : TokenKind × Cursor × DocMode :=
  let c := (c.skipWhile Text.isBlank).mark
  if c.sees (· == '@') then
    let c := c.bump.skipWhile fun d => d == '-' || Lexer.isNameChar d
    (.ofTagWord (String.ofList (c.piece.toList.drop 1)), c, .normal)
  else remainder .docDescription .description c

def nameTail : Nat → Cursor → Cursor
  | 0, c => c
  | fuel + 1, c =>
    if (c.sees (· == '.') && c.seesNext Lexer.isNameStart) ||
      (c.sees (· == '-') && c.seesNext Char.isAlpha) then
      nameTail fuel (c.bump.skipWhile Lexer.isNameChar)
    else c

def number (c : Cursor) : TokenKind × Cursor :=
  let c := c.skipWhile Char.isDigit
  if c.sees (· == '.') && c.seesNext Char.isDigit then (.float, c.bump.skipWhile Char.isDigit)
    else (.int, c)

/-- The number of characters up to the quote that closes a string, or up to the end. A backslash
shields the character behind it. -/
def quotedLength (quote : Char) : List Char → Nat
  | [] => 0
  | c :: r =>
    if c == quote then 0
    else if c == '\x5c' then
      match r with
      | [] => 1
      | _ :: r => quotedLength quote r + 2
    else quotedLength quote r + 1

def mark? : Char → Option TokenKind
  | '?' => some .docQuestion
  | '|' => some .docOr
  | '#' => some .docHash
  | ',' => some .comma
  | ':' => some .colon
  | ';' => some .semicolon
  | '<' => some .lt
  | '>' => some .gt
  | '(' => some .leftParen
  | ')' => some .rightParen
  | '[' => some .leftBracket
  | ']' => some .rightBracket
  | '\x7b' => some .leftBrace
  | '\x7d' => some .rightBrace
  | '=' => some .assign
  | '.' => some .dot
  | _ => none

/-- A token of the type grammar that starts with the character `d`. -/
def normalToken (d : Char) (c : Cursor) : TokenKind × Cursor :=
  if Lexer.isNameStart d then
    (.name, nameTail c.rest.length (c.skipWhile Lexer.isNameChar))
  else if d.isDigit then number c
  else if d == '-' && c.seesNext Char.isDigit then number c.bump
  else if d == '\x22' || d == '\x27' then
    let c := c.bump
    (.str, (c.bumpN (quotedLength d c.rest)).bump)
  else if c.startsWith "..." then (.dots, c.bumpN 3)
  else ((mark? d).getD .unknown, c.bump)

def normal (c : Cursor) : TokenKind × Cursor :=
  let c := (c.skipWhile Text.isBlank).mark
  match c.peek? with
  | none => (.docLineEnd, c)
  | some d => normalToken d c

/-- The next token; the end of the line again and again once the comment is used up. -/
def next (l : DocLexer) : Token × DocLexer :=
  let (kind, cursor, mode) := match l.mode with
    | .init => opener l.cursor
    | .tag => tagWord l.cursor
    | .normal => let (kind, c) := normal l.cursor; (kind, c, .normal)
    | .description => remainder .docDescription .description l.cursor
    | .trivia => remainder .docTrivia .trivia l.cursor
  (⟨kind, cursor.span⟩, ⟨cursor, mode⟩)

/-- All tokens from here to the first end of line, each with the mode behind it. There is at most
one empty token, the opener, before the end, so two more than the characters left are fuel
enough. -/
def toLineEnd (l : DocLexer) : List (Token × DocMode) :=
  go (l.cursor.rest.length + 2) l
where
  /-- Reads at most `fuel` tokens. -/
  go : Nat → DocLexer → List (Token × DocMode)
    | 0, _ => []
    | fuel + 1, l =>
      let (token, l) := l.next
      (token, l.mode) :: if token.kind = .docLineEnd then [] else go fuel l

end DocLexer

end LuaAnalysis.Syntax
