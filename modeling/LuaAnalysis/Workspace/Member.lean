import LuaAnalysis.Scope.Decl
import LuaAnalysis.Syntax.Literal
import LuaAnalysis.Syntax.Tree

namespace LuaAnalysis.Types.MemberKey

open Syntax

def ofLiteral? (t : Tree) (expr : ElementId) : Option MemberKey :=
  if t.kind expr != .literalExpr then none
  else
    match (t.childTokens expr).head? with
    | none => none
    | some token =>
      match t.tokenKind? token with
      | some .str | some .longString => some (.name (Literal.stringValue (t.textOf token)))
      | some .int => (Literal.integerValue? (t.textOf token)).map .integer
      | _ => none

def ofIndexExpr? (t : Tree) (expr : ElementId) : Option (MemberKey × Span) :=
  match t.childToken? expr .name with
  | some token => some (.name (t.textOf token), t.span token)
  | none => do
    let key ← (t.exprs expr)[1]?
    pure (← ofLiteral? t key, t.span key)

/-- The key of `name = v` or `[literal] = v`, and where it stands. A value alone has none. -/
def ofTableField? (t : Tree) (field : ElementId) : Option (MemberKey × Span) :=
  match (if t.hasToken field .assign then t.childToken? field .name else none) with
  | some token => some (.name (t.textOf token), t.span token)
  | none =>
    if t.hasToken field .leftBracket then do
      let key ← (t.exprs field).head?
      pure (← ofLiteral? t key, t.span key)
    else none

end LuaAnalysis.Types.MemberKey

namespace LuaAnalysis.Workspace

open Document LuaAnalysis.Types Scope

/-- How a member was defined. -/
inductive MemberSource where
  /-- By an annotation of a field. -/
  | docField
  /-- In a table constructor. -/
  | tableField
  /-- By an assignment or a function statement. -/
  | assign
deriving DecidableEq, Repr, Inhabited

def MemberSource.label : MemberSource → String
  | .docField => "DocField"
  | .tableField => "TableField"
  | .assign => "Assign"

structure Member where
  owner : MemberOwner
  key : MemberKey
  doc : DocId
  /-- Where the key stands. -/
  span : Span
  node : NodeRef
  source : MemberSource
  type? : Option Ty := none
  /-- The expression that the member is set to. -/
  value? : Option NodeRef := none
  features : Features := {}
  visibility : Visibility := .publicAccess
  description? : Option String := none
  /-- Where the member comes from, if it was generated from something else. -/
  link? : Option String := none
deriving Repr, Inhabited

/-- Operations that a class can define. -/
inductive OperatorKind where
  | add | sub | mul | div | mod | pow | unm | idiv | band | bor | bxor | shl | shr | bnot | concat
  | len
  | eq | lt | le | call | index
deriving DecidableEq, Repr, Inhabited

namespace OperatorKind

def name : OperatorKind → String
  | .add => "add"
  | .sub => "sub"
  | .mul => "mul"
  | .div => "div"
  | .mod => "mod"
  | .pow => "pow"
  | .unm => "unm"
  | .idiv => "idiv"
  | .band => "band"
  | .bor => "bor"
  | .bxor => "bxor"
  | .shl => "shl"
  | .shr => "shr"
  | .bnot => "bnot"
  | .concat => "concat"
  | .len => "len"
  | .eq => "eq"
  | .lt => "lt"
  | .le => "le"
  | .call => "call"
  | .index => "index"

def all : List OperatorKind :=
  [.add, .sub, .mul, .div, .mod, .pow, .unm, .idiv, .band, .bor, .bxor, .shl, .shr, .bnot, .concat,
   .len, .eq, .lt, .le, .call, .index]

def ofName? (name : String) : Option OperatorKind := all.find? fun k => k.name == name

def label : OperatorKind → String
  | .idiv => "IDiv"
  | .band => "BAnd"
  | .bor => "BOr"
  | .bxor => "BXor"
  | .bnot => "BNot"
  | k => k.name.capitalize

end OperatorKind

/-- An operator of a class, with the types of the operands behind the first. -/
structure Operator where
  owner : String
  kind : OperatorKind
  operands : List Ty
  result : Ty
  span : Span
deriving Repr, Inhabited

end LuaAnalysis.Workspace
