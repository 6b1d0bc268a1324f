import LuaAnalysis.Syntax.DocLexer
import LuaAnalysis.Syntax.EventLog

/-!
The state of reading the annotations of a comment group. Each comment of the group is a line. A tag
that cannot be read is taken back: the log, the line, the lexer and the token at hand are as they
were.
-/

namespace LuaAnalysis.Syntax

structure DocParser where
  text : String
  log : EventLog
  /-- The comment at hand. -/
  line : Span
  /-- The comments behind it. -/
  later : List Span
  lexer : DocLexer
  current : Token
  /-- How many brackets are open around the type that is read. -/
  depth : Nat

abbrev DocM := EStateM SyntaxError DocParser

namespace DocParser

def atLine (p : DocParser) (line : Span) (later : List Span) : DocParser :=
  let (token, lexer) := (DocLexer.ofComment p.text line).next
  { p with line := line, later := later, lexer := lexer, current := token }

def ofLines (text : String) (log : EventLog) (line : Span) (later : List Span) : DocParser :=
  let (token, lexer) := (DocLexer.ofComment text line).next
  ⟨text, log, line, later, lexer, token, 0⟩

def kind (p : DocParser) : TokenKind := p.current.kind

def sees (p : DocParser) (kind : TokenKind) : Bool := p.kind == kind

def currentText (p : DocParser) : String := Text.slice p.text p.current.span

/-- More than the number of tokens that the comments can have. -/
def bound (p : DocParser) : Nat := p.text.utf8ByteSize + 1

/-- Takes up the token at hand. The end of a line leaves nothing in the log. -/
def bump (p : DocParser) : DocParser :=
  let p := if p.sees .docLineEnd then p
    else { p with log := p.log.push (.token p.current.kind p.current.span) }
  let (token, lexer) := p.lexer.next
  { p with current := token, lexer := lexer }

def switchToDescription (p : DocParser) : DocParser :=
  if p.sees .docLineEnd then p
  else
    let (token, lexer) := (p.lexer.resetTo p.current.span.start .description).next
    { p with current := token, lexer := lexer }

/-- What is needed to come back to a place. -/
structure Checkpoint where
  logSize : Nat
  line : Span
  later : List Span
  lexer : DocLexer.Checkpoint
  current : Token

def checkpoint (p : DocParser) : Checkpoint :=
  ⟨p.log.size, p.line, p.later, p.lexer.checkpoint, p.current⟩

def rollback (p : DocParser) (saved : Checkpoint) : DocParser :=
  { p with
    log := p.log.take saved.logSize
    line := saved.line
    later := saved.later
    lexer := (DocLexer.ofComment p.text saved.line).restore saved.lexer
    current := saved.current }

def openNode (p : DocParser) : DocParser × Marker :=
  let (log, m) := p.log.openNode
  ({ p with log := log }, m)

def close (p : DocParser) (m : Marker) (kind : NodeKind) : DocParser × ClosedNode :=
  let (log, c) := p.log.close m kind
  ({ p with log := log }, c)

def finish (p : DocParser) (m : Marker) (kind : NodeKind) : DocParser := (p.close m kind).1

def wrap (p : DocParser) (c : ClosedNode) : DocParser × Marker :=
  let (log, m) := p.log.wrap c
  ({ p with log := log }, m)

def report (p : DocParser) (fault : Fault) (span : Span) : DocParser :=
  { p with log := p.log.report fault span }

def freeText (p : DocParser) : DocParser :=
  let p := p.switchToDescription
  if p.sees .docDescription then
    let (p, m) := p.openNode
    p.bump.finish m .docDescription
  else p

def description (p : DocParser) : DocParser :=
  match p.kind with
  | .docLineEnd => p
  | .docHash =>
    let (p, m) := p.openNode
    let p := p.bump.switchToDescription
    let p := if p.sees .docDescription then p.bump else p
    p.finish m .docDescription
  | _ => p.freeText

def recover (p : DocParser) (e : SyntaxError) : DocParser := (p.report e.fault e.span).freeText

def nextLine? (p : DocParser) : Option DocParser :=
  match p.later with
  | line :: later => some (p.atLine line later)
  | [] => none

def nextLineContinues (p : DocParser) : Bool :=
  match p.later with
  | line :: _ => "---|".toList.isPrefixOf (Text.slice p.text line).toList
  | [] => false

end DocParser

namespace DocM

def sees (kind : TokenKind) : DocM Bool := return (← get).sees kind

def kind : DocM TokenKind := return (← get).kind

def currentText : DocM String := return (← get).currentText

def bump : DocM Unit := modify DocParser.bump

def fail {α : Type} (fault : Fault) : DocM α := do throw ⟨fault, (← get).current.span⟩

def eat (kind : TokenKind) : DocM Bool := do
  if ← sees kind then
    bump
    return true
  return false

def expect (kind : TokenKind) : DocM Unit := do
  unless ← eat kind do
    fail (.expected kind (← get).kind)

def whenEaten (kind : TokenKind) (m : DocM Unit) : DocM Unit := do
  if ← eat kind then
    m

def unlessSees (kind : TokenKind) (m : DocM Unit) : DocM Unit := do
  unless ← sees kind do
    m

def nameOrDots : DocM Unit := do
  unless ← eat .dots do
    expect .name

def openNode : DocM Marker := modifyGet fun p => p.openNode.swap

def close (m : Marker) (kind : NodeKind) : DocM ClosedNode :=
  modifyGet fun p => (p.close m kind).swap

def finish (m : Marker) (kind : NodeKind) : DocM Unit := modify fun p => p.finish m kind

def wrap (c : ClosedNode) : DocM Marker := modifyGet fun p => (p.wrap c).swap

def description : DocM Unit := modify DocParser.description

def freeText : DocM Unit := modify DocParser.freeText

def nodeOf (body : DocM NodeKind) : DocM ClosedNode := do
  let m ← openNode
  let kind ← body
  close m kind

def node (kind : NodeKind) (body : DocM Unit) : DocM Unit := do
  let m ← openNode
  body
  finish m kind

def nodeAround (c : ClosedNode) (kind : NodeKind) (body : DocM Unit) : DocM ClosedNode := do
  let m ← wrap c
  body
  close m kind

def deeper (p : DocParser) : DocParser := { p with depth := p.depth + 1 }

def higher (p : DocParser) : DocParser := { p with depth := p.depth - 1 }

/-- Reads inside brackets. The depth is restored also when reading fails. -/
def nested (m : DocM Unit) : DocM Unit := do
  modify deeper
  tryCatch m fun e => do
    modify higher
    throw e
  modify higher

/-- Repeats a step as long as it asks for more, at most `n` times. -/
def repeatWhile (step : DocM Bool) : Nat → DocM Unit
  | 0 => pure ()
  | n + 1 => do if ← step then repeatWhile step n

def commaSeparated (item : DocM Unit) : DocM Unit := do
  repeatWhile (do item; eat .comma) (← get).bound

end DocM

end LuaAnalysis.Syntax
