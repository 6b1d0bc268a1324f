import LuaAnalysis.Syntax.Grammar.Expr
import LuaAnalysis.Syntax.Tree

/-!
Statements and blocks, and the whole grammar with its parts tied together. What cannot start a
statement is taken up as an empty one, so that the rest of the text is still read.
-/

namespace LuaAnalysis.Syntax.Grammar

open LuaAnalysis.Syntax.Parser

def endsBlock : TokenKind → Bool
  | .eof | .kwEnd | .kwElse | .kwElseIf | .kwUntil => true
  | _ => false

variable (g : Rules)

def closure (p : Parser) : Parser :=
  let (p, m) := p.openNode
  (closureRest g p).finish m .closureExpr

def ifPart (p : Parser) : Parser × Bool :=
  match p.kind with
  | .kwElseIf =>
    let (p, m) := p.openNode
    ((g.block ((needExpr g p.bump).need .kwThen)).finish m .elseIfClause, true)
  | .kwElse =>
    let (p, m) := p.openNode
    ((g.block p.bump).finish m .elseClause, true)
  | _ => (p, false)

def ifStat (p : Parser) : Parser :=
  let p := g.block ((needExpr g p.bump).need .kwThen)
  (repeatWhile (ifPart g) (p.bound + 1) p).need .kwEnd

def loopBody (p : Parser) : Parser := (g.block (p.need .kwDo)).need .kwEnd

def forStat (p : Parser) : Parser × NodeKind :=
  let p := paramName p.bump
  match p.eat .assign with
  | (p, true) =>
    let p := needExpr g ((needExpr g p).need .comma)
    let p := match p.eat .comma with
      | (p, true) => needExpr g p
      | (p, false) => p
    (loopBody g p, .forStat)
  | (p, false) =>
    let p := match p.eat .comma with
      | (p, true) => commaSeparated paramName p
      | (p, false) => p
    (loopBody g (exprList g (p.need .kwIn)), .forRangeStat)

def funcNameStep : Parser × ClosedNode → (Parser × ClosedNode) × Bool
  | (p, c) =>
    if p.sees .dot || p.sees .colon then
      let isMethod := p.sees .colon
      let (p, m) := p.wrap c
      ((p.bump.need .name).close m .indexExpr, !isMethod)
    else ((p, c), false)

def funcStat (p : Parser) : Parser :=
  let (p, m) := p.bump.openNode
  match p.expect .name with
  | (p, true) =>
    let (p, c) := p.close m .nameExpr
    let (p, _) := repeatWhile funcNameStep (p.bound + 1) (p, c)
    closure g p
  | (p, false) => closure g (p.abandon m)

def localName (p : Parser) : Parser :=
  let (p, m) := p.openNode
  let p := p.need .name
  let p :=
    if p.sees .lt then
      let (p, a) := p.openNode
      ((p.bump.need .name).need .gt).finish a .attribute
    else p
  p.finish m .localName

def localStat (p : Parser) : Parser × NodeKind :=
  match p.bump.eat .kwFunction with
  | (p, true) =>
    let (p, m) := p.openNode
    (closure g ((p.need .name).finish m .localName), .localFuncStat)
  | (p, false) =>
    match (commaSeparated localName p).eat .assign with
    | (p, true) => (exprList g p, .localStat)
    | (p, false) => (p, .localStat)

def assignTarget (p : Parser) : Parser × Bool :=
  match p.eat .comma with
  | (p, true) =>
    let (p, c) := suffixedExpr g p
    (p, c.isSome)
  | (p, false) => (p, false)

def exprStat (p : Parser) : Parser × NodeKind :=
  match suffixedExpr g p with
  | (p, none) => (p, .emptyStat)
  | (p, some first) =>
    if p.sees .assign || p.sees .comma then
      let p := repeatWhile (assignTarget g) (p.bound + 1) p
      (exprList g (p.need .assign), .assignStat)
    else if p.log.kindOf first = .callExpr then (p, .callExprStat)
    else (p.report .notACallOrAssignment, .callExprStat)

def returnStat (p : Parser) : Parser :=
  let p := p.bump
  let p := if endsBlock p.kind || p.sees .semicolon then p else exprList g p
  (p.eat .semicolon).1

def statement? (p : Parser) : Option (Parser × NodeKind) :=
  match p.kind with
  | .semicolon => some (p.bump, .emptyStat)
  | .kwIf => some (ifStat g p, .ifStat)
  | .kwWhile => some (loopBody g (needExpr g p.bump), .whileStat)
  | .kwDo => some ((g.block p.bump).need .kwEnd, .doStat)
  | .kwFor => some (forStat g p)
  | .kwRepeat => some (needExpr g ((g.block p.bump).need .kwUntil), .repeatStat)
  | .kwFunction => some (funcStat g p, .funcStat)
  | .kwLocal => some (localStat g p)
  | .dbColon => some ((p.bump.need .name).need .dbColon, .labelStat)
  | .kwReturn => some (returnStat g p, .returnStat)
  | .kwBreak => some (p.bump, .breakStat)
  | .kwGoto => some (p.bump.need .name, .gotoStat)
  | .name | .leftParen => some (exprStat g p)
  | _ => none

def documentedStat (p : Parser) : Parser :=
  let (p, m) := p.openDocumented
  match statement? g p with
  | some (p, kind) => p.trailingComment.finish m kind
  | none => p.bump.trailingComment.fail m .emptyStat (.unexpected p.kind)

def blockStep (p : Parser) : Parser × Bool :=
  if endsBlock p.kind then (p.flushComments, false) else (documentedStat g p, true)

/-- One statement of a whole text. A word that ends a block is out of place here. -/
def chunkStep (p : Parser) : Parser × Bool :=
  if p.sees .eof then (p.flushComments, false)
  else if endsBlock p.kind then
    let (q, m) := p.openNode
    (q.bump.fail m .emptyStat (.unexpected p.kind), true)
  else (documentedStat g p, true)

def blockOf (step : Parser → Parser × Bool) (p : Parser) : Parser :=
  let (p, m) := p.openNode
  (repeatWhile step (p.bound + 1) p).finish m .block

/-- The rules with at most the given number of expressions and blocks around each other. Each of
them is entered behind a token that the one around it took up, so the number of tokens is enough. -/
def rules : Nat → Rules
  | 0 => ⟨fun _ p => (p, none), fun p => p⟩
  | n + 1 => ⟨fun limit p => exprAbove (rules n) limit p, fun p => blockOf (blockStep (rules n)) p⟩

def chunk (p : Parser) : Parser :=
  let (p, m) := p.openNode
  (blockOf (chunkStep (rules (p.bound + 1))) p).finish m .chunk

end LuaAnalysis.Syntax.Grammar

namespace LuaAnalysis.Syntax

/-- The tree of a text. Every text has one; what is wrong with the text is recorded in it. -/
def parse (text : String) : Tree :=
  let (tokens, errors) := Lexer.tokenize text
  let p := Grammar.chunk (Parser.ofTokens text tokens)
  Tree.ofLog text p.log errors

end LuaAnalysis.Syntax
