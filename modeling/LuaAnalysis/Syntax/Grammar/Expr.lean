import LuaAnalysis.Syntax.Operator
import LuaAnalysis.Syntax.Parser

/-!
Expressions. Operators are read by binding power: an operand is extended to the right as long as the
next operator holds it tighter than the limit. The rules for what contains expressions and blocks in
turn are a parameter here; they are tied together with those of statements.
-/

namespace LuaAnalysis.Syntax

/-- The two parts of the grammar that everything else is built around. -/
structure Rules where
  /-- An expression of operators that bind tighter than a limit. -/
  expr : Nat → Parser → Parser × Option ClosedNode
  /-- The statements up to the end of a block. -/
  block : Parser → Parser

namespace Grammar

open LuaAnalysis.Syntax.Parser

variable (g : Rules)

def needExpr (p : Parser) : Parser :=
  match g.expr 0 p with
  | (p, some _) => p
  | (p, none) => p.report .expectedExpression

def exprList (p : Parser) : Parser := commaSeparated (needExpr g) p

def operand (limit : Nat) (missing : Fault) (p : Parser) : Parser :=
  match g.expr limit p with
  | (p, some _) => p
  | (p, none) => p.report missing

def paramName (p : Parser) : Parser :=
  let (p, m) := p.openNode
  if p.sees .name || p.sees .dots then p.bump.finish m .paramName
  else p.fail m .paramName .expectedName

def closureRest (p : Parser) : Parser :=
  let (p, m) := p.openNode
  let (p, opened) := p.expect .leftParen
  let p :=
    if opened then
      let p := if p.sees .rightParen then p else commaSeparated paramName p
      p.need .rightParen
    else p
  (g.block (p.finish m .paramList)).need .kwEnd

def tableField (p : Parser) : Parser :=
  if p.sees .leftBracket then
    needExpr g (((needExpr g p.bump).need .rightBracket).need .assign)
  else if p.sees .name && p.nextKind == .assign then
    needExpr g p.bump.bump
  else needExpr g p

def tableItem (p : Parser) : Parser × Bool :=
  if p.sees .rightBrace || p.sees .eof then (p.flushComments, false)
  else
    let (p, m) := p.openDocumented
    let p := tableField g p
    let (p, more) := match p.eat .comma with
      | (p, true) => (p, true)
      | (p, false) => p.eat .semicolon
    (p.trailingComment.finish m .tableField, more)

def table (p : Parser) : Parser × ClosedNode :=
  let (p, m) := p.openNode
  let p := repeatWhile (tableItem g) (p.bound + 1) p.bump
  (p.need .rightBrace).close m .tableExpr

def literal (p : Parser) : Parser × ClosedNode :=
  let (p, m) := p.openNode
  p.bump.close m .literalExpr

def argList (p : Parser) : Parser :=
  match p.kind with
  | .leftParen =>
    let p := p.bump
    let p := if p.sees .rightParen then p else exprList g p
    p.need .rightParen
  | .str | .longString => (literal p).1
  | .leftBrace => (table g p).1
  | _ => p.report .expectedCallArguments

def callArgs (p : Parser) : Parser :=
  let (p, m) := p.openNode
  (argList g p).finish m .callArgList

def primaryExpr (p : Parser) : Parser × Option ClosedNode :=
  match p.kind with
  | .name =>
    let (p, m) := p.openNode
    let (p, c) := p.bump.close m .nameExpr
    (p, some c)
  | .leftParen =>
    let (p, m) := p.openNode
    let (p, c) := ((needExpr g p.bump).need .rightParen).close m .parenExpr
    (p, some c)
  | _ => (p, none)

def suffix : Parser × ClosedNode → (Parser × ClosedNode) × Bool
  | (p, c) =>
    match p.kind with
    | .dot =>
      let (p, m) := p.wrap c
      ((p.bump.need .name).close m .indexExpr, true)
    | .leftBracket =>
      let (p, m) := p.wrap c
      (((needExpr g p.bump).need .rightBracket).close m .indexExpr, true)
    | .colon =>
      let (p, m) := p.wrap c
      let (p, c) := (p.bump.need .name).close m .indexExpr
      let (p, m) := p.wrap c
      ((callArgs g p).close m .callExpr, true)
    | .leftParen | .str | .longString | .leftBrace =>
      let (p, m) := p.wrap c
      ((callArgs g p).close m .callExpr, true)
    | _ => ((p, c), false)

def suffixedExpr (p : Parser) : Parser × Option ClosedNode :=
  match primaryExpr g p with
  | (p, none) => (p, none)
  | (p, some c) =>
    let (p, c) := repeatWhile (suffix g) (p.bound + 1) (p, c)
    (p, some c)

def simpleExpr (p : Parser) : Parser × Option ClosedNode :=
  match p.kind with
  | .int | .float | .str | .longString | .kwNil | .kwTrue | .kwFalse | .dots =>
    let (p, c) := literal p
    (p, some c)
  | .leftBrace =>
    let (p, c) := table g p
    (p, some c)
  | .kwFunction =>
    let (p, m) := p.openNode
    let (p, c) := (closureRest g p.bump).close m .closureExpr
    (p, some c)
  | _ => suffixedExpr g p

def unaryExpr (p : Parser) : Parser × Option ClosedNode :=
  if (UnaryOperator.ofToken? p.kind).isSome then
    let (p, m) := p.openNode
    let (p, c) := (operand g UnaryOperator.priority .expectedUnaryOperand p.bump).close m .unaryExpr
    (p, some c)
  else simpleExpr g p

/-- Extends an operand by the next binary operator, if that binds tighter than the limit. -/
def binaryStep (limit : Nat) : Parser × ClosedNode → (Parser × ClosedNode) × Bool
  | (p, c) =>
    match BinaryOperator.ofToken? p.kind with
    | some op =>
      if op.leftPriority ≤ limit then ((p, c), false)
      else
        let (p, m) := p.wrap c
        ((operand g op.rightPriority .expectedBinaryOperand p.bump).close m .binaryExpr, true)
    | none => ((p, c), false)

def exprAbove (limit : Nat) (p : Parser) : Parser × Option ClosedNode :=
  match unaryExpr g p with
  | (p, none) => (p, none)
  | (p, some c) =>
    let (p, c) := repeatWhile (binaryStep g limit) (p.bound + 1) (p, c)
    (p, some c)

end Grammar

end LuaAnalysis.Syntax
