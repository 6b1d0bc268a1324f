import LuaAnalysis.Syntax.Grammar.DocParser

/-!
The types that annotations speak of. A type is a union of single types, and a single type is a
primary type with array and optional marks behind it. Single types contain each other, so their
grammar is told once, with the inner ones as a parameter, and closed by fuel: each step inwards
takes up a token.
-/

namespace LuaAnalysis.Syntax.DocType

open DocM

def unionOf (single : DocM ClosedNode) : DocM ClosedNode := do
  let first ← single
  unless ← sees .docOr do
    return first
  nodeAround first .typeUnion do
    repeatWhile (do
      if ← eat .docOr then
        discard single
        return true
      return false) (← get).bound

def marks : Nat → ClosedNode → DocM ClosedNode
  | 0, c => pure c
  | n + 1, c => do
    match ← kind with
    | .leftBracket =>
      marks n (← nodeAround c .typeArray do
        bump
        expect .rightBracket)
    | .docQuestion => marks n (← nodeAround c .typeNullable bump)
    | _ => return c

def funParam (type : DocM Unit) : DocM Unit :=
  node .docFuncParam do
    nameOrDots
    discard (eat .docQuestion)
    whenEaten .colon (nested type)

/-- The results of a function type. Only outside all brackets may they be several, because a comma
would end them inside. -/
def funResults (type : DocM Unit) : DocM Unit := do
  if (← get).depth = 0 then
    commaSeparated (nested type)
  else
    nested type

def funType (type : DocM Unit) : DocM Unit := do
  bump
  unlessSees .rightParen (commaSeparated (funParam type))
  expect .rightParen
  whenEaten .colon (funResults type)

def objectKey (type : DocM Unit) : DocM Unit := do
  match ← kind with
  | .name | .int | .str => bump
  | .leftBracket =>
    bump
    type
    expect .rightBracket
  | _ => fail .expectedFieldName

def objectField (type : DocM Unit) : DocM Unit :=
  node .docObjectField do
    objectKey type
    discard (eat .docQuestion)
    expect .colon
    type

def objectFields (type : DocM Unit) : DocM Unit := do
  repeatWhile (do
    if ← sees .rightBrace then
      return false
    objectField type
    eat .comma) (← get).bound

def namedKind (type : DocM Unit) : DocM NodeKind := do
  let word ← currentText
  bump
  if word == "true" || word == "false" then
    return .typeLiteral
  else if word == "fun" then
    unless ← sees .leftParen do
      return .typeName
    funType type
    return .typeFun
  else
    unless ← eat .lt do
      return .typeName
    nested (commaSeparated type)
    expect .gt
    return .typeGeneric

def variadicBase (single : DocM ClosedNode) : DocM Unit := do
  match ← kind with
  | .name | .leftParen | .leftBrace => discard single
  | _ => pure ()

def primaryKind (single : DocM ClosedNode) : DocM NodeKind := do
  let type : DocM Unit := discard (unionOf single)
  match ← kind with
  | .name => namedKind type
  | .str | .int | .float =>
    bump
    return .typeLiteral
  | .leftParen =>
    bump
    nested type
    expect .rightParen
    return .typeParen
  | .leftBracket =>
    bump
    unlessSees .rightBracket (nested (commaSeparated type))
    expect .rightBracket
    return .typeTuple
  | .leftBrace =>
    bump
    nested (objectFields type)
    expect .rightBrace
    return .typeObject
  | .dots =>
    bump
    variadicBase single
    return .typeVariadic
  | found => fail (.expectedType found)

def primary (single : DocM ClosedNode) : DocM ClosedNode := nodeOf (primaryKind single)

/-- A single type with at most the given number of types around each other. -/
def single : Nat → DocM ClosedNode
  | 0 => do fail (.expectedType (← kind))
  | n + 1 => do marks (← get).bound (← primary (single n))

def type : DocM Unit := do discard (unionOf (single (← get).bound))

end LuaAnalysis.Syntax.DocType
