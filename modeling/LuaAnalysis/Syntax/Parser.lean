import LuaAnalysis.Syntax.Lexer
import LuaAnalysis.Syntax.Grammar.Doc

/-!
The state of reading code: the token at hand, those behind it, the trivia in front of it, and the
log. Blanks never reach the log. Comments do, as nodes of their own, either inside the statement or
table field that they document or beside it.
-/

namespace LuaAnalysis.Syntax

structure Parser where
  text : String
  /-- The trivia in front of the token at hand that have not been dealt with. -/
  pending : List Token
  current : Token
  /-- The tokens behind the one at hand, trivia included. -/
  rest : List Token
  log : EventLog
  /-- The number of all tokens, which bounds every loop and every nesting. -/
  bound : Nat

/-- Comments that stand together. -/
structure CommentGroup where
  spans : List Span
  /-- The line breaks between the last comment and what follows. -/
  breaksAfter : Nat
deriving DecidableEq, Repr

namespace CommentGroup

/-- A comment group with more line breaks behind it documents nothing. -/
def maxAttachedBreaks : Nat := 2

/-- Splits the comments among trivia into groups. Comments `acc`, in reverse, with `breaks` line
breaks behind them, came before. -/
def split : List Span → Nat → List Token → List CommentGroup
  | [], _, [] => []
  | acc, breaks, [] => [⟨acc.reverse, breaks⟩]
  | acc, breaks, t :: ts =>
    if t.kind = .endOfLine then split acc (breaks + 1) ts
    else if t.kind.isComment then
      if !acc.isEmpty && breaks > maxAttachedBreaks then
        ⟨acc.reverse, breaks⟩ :: split [t.span] 0 ts
      else split (t.span :: acc) 0 ts
    else split acc breaks ts

def ofTrivia (trivia : List Token) : List CommentGroup := split [] 0 trivia

end CommentGroup

namespace Parser

def advance (endOfText : Token) (tokens : List Token) : List Token × Token × List Token :=
  match tokens.span fun t => t.kind.isTrivia with
  | (trivia, t :: rest) => (trivia, t, rest)
  | (trivia, []) => (trivia, endOfText, [])

def ofTokens (text : String) (tokens : List Token) : Parser :=
  let (pending, current, rest) := advance ⟨.eof, .empty text.utf8ByteSize⟩ tokens
  ⟨text, pending, current, rest, #[], tokens.length⟩

def kind (p : Parser) : TokenKind := p.current.kind

def sees (p : Parser) (kind : TokenKind) : Bool := p.kind == kind

def nextKind (p : Parser) : TokenKind :=
  ((p.rest.find? fun t => !t.kind.isTrivia).map (·.kind)).getD .eof

def report (p : Parser) (fault : Fault) : Parser :=
  { p with log := p.log.report fault p.current.span }

def openNode (p : Parser) : Parser × Marker :=
  let (log, m) := p.log.openNode
  ({ p with log := log }, m)

def close (p : Parser) (m : Marker) (kind : NodeKind) : Parser × ClosedNode :=
  let (log, c) := p.log.close m kind
  ({ p with log := log }, c)

def finish (p : Parser) (m : Marker) (kind : NodeKind) : Parser := (p.close m kind).1

def fail (p : Parser) (m : Marker) (kind : NodeKind) (fault : Fault) : Parser :=
  (p.report fault).finish m kind

def abandon (p : Parser) (m : Marker) : Parser := { p with log := p.log.abandon m }

def wrap (p : Parser) (c : ClosedNode) : Parser × Marker :=
  let (log, m) := p.log.wrap c
  ({ p with log := log }, m)

def comment (p : Parser) (spans : List Span) : Parser :=
  let (p, m) := p.openNode
  let p := { p with log := Doc.parseComments p.text spans p.log }
  p.finish m .comment

def comments (p : Parser) (groups : List CommentGroup) : Parser :=
  groups.foldl (fun p g => p.comment g.spans) p

def flushComments (p : Parser) : Parser :=
  let groups := CommentGroup.ofTrivia p.pending
  { p with pending := [] }.comments groups

def bump (p : Parser) : Parser :=
  if p.sees .eof then p
  else
    let p := p.flushComments
    let (pending, current, rest) := advance ⟨.eof, .empty p.text.utf8ByteSize⟩ p.rest
    { p with
      log := p.log.push (.token p.current.kind p.current.span)
      pending := pending
      current := current
      rest := rest }

def eat (p : Parser) (kind : TokenKind) : Parser × Bool :=
  if p.sees kind then (p.bump, true) else (p, false)

def expect (p : Parser) (kind : TokenKind) : Parser × Bool :=
  if p.sees kind then (p.bump, true) else (p.report (.expected kind p.kind), false)

def need (p : Parser) (kind : TokenKind) : Parser := (p.expect kind).1

/-- Writes the comments that stand alone before a statement or table field, and keeps back the group
that documents it. -/
def leadingComments (p : Parser) : Parser × Option (List Span) :=
  let groups := CommentGroup.ofTrivia p.pending
  let p := { p with pending := [] }
  match groups.getLast? with
  | some last =>
    if last.breaksAfter ≤ CommentGroup.maxAttachedBreaks && !p.sees .eof then
      (p.comments groups.dropLast, some last.spans)
    else (p.comments groups, none)
  | none => (p, none)

def openDocumented (p : Parser) : Parser × Marker :=
  let (p, doc) := p.leadingComments
  let (p, m) := p.openNode
  match doc with
  | some spans => (p.comment spans, m)
  | none => (p, m)

/-- A comment that starts on the line where a node ends belongs to the node. -/
def trailingComment (p : Parser) : Parser :=
  match p.pending.dropWhile fun t => t.kind == .whitespace with
  | t :: pending =>
    if t.kind.isComment then { p.comment [t.span] with pending := pending } else p
  | [] => p

/-- Repeats a step as long as it asks for more, at most `n` times. -/
def repeatWhile {σ : Type} (step : σ → σ × Bool) : Nat → σ → σ
  | 0, s => s
  | n + 1, s =>
    match step s with
    | (s, true) => repeatWhile step n s
    | (s, false) => s

def commaSeparated (item : Parser → Parser) (p : Parser) : Parser :=
  repeatWhile (fun p => (item p).eat .comma) (p.bound + 1) p

end Parser

end LuaAnalysis.Syntax
