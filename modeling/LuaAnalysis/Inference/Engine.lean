import LuaAnalysis.Inference.Names

/-!
The questions that a search asks over and over. Each answer is defined from the others with one unit
of fuel less, and the definitions are tied together at the end.
-/

namespace LuaAnalysis.Inference

open Document LuaAnalysis.Types Scope Syntax Workspace

/-- A member of a type, with its own type as seen through that type. -/
structure MemberInfo where
  key : MemberKey
  type : Ty
  /-- Where it is defined; fields of an object written as a type are defined nowhere. -/
  member? : Option Member
deriving Repr, Inhabited

/-- Where the members of a type are found, in the order in which they count. -/
structure MemberSources where
  owners : List (MemberOwner × Substitution) := []
  fields : List (MemberKey × Ty) := []
  /-- Classes that were visited. -/
  visited : List String := []
deriving Repr, Inhabited

structure Engine where
  /-- The type of an expression, with all values of a call. -/
  inferExpr : DocId → ElementId → Search Ty
  declType : Decl → Search Ty
  /-- Whether a value of the first type can be used where one of the second is expected. -/
  isSubtype : Ty → Ty → Search Bool
  findMember : Ty → MemberKey → Search (Option MemberInfo)
  /-- What a value of a type can be called as. -/
  findCallables : Ty → Search (List FuncType)
  /-- What is found in a table under a key of a type. -/
  indexAccess : Ty → Ty → Search Ty
  collectSources : Ty → Substitution → MemberSources → Search MemberSources
  /-- Binds the templates of an expected type so that it fits an actual one. -/
  unify : Ty → Ty → Substitution → Search Substitution

namespace Engine

def stopped : Engine where
  inferExpr _ _ := Search.outOfFuel .unknown
  declType _ := Search.outOfFuel .unknown
  isSubtype _ _ := Search.outOfFuel true
  findMember _ _ := Search.outOfFuel none
  findCallables _ := Search.outOfFuel []
  indexAccess _ _ := Search.outOfFuel .unknown
  collectSources _ _ sources := Search.outOfFuel sources
  unify _ _ s := Search.outOfFuel s

end Engine

variable (p : Project) (e : Engine)

def inferFirst (doc : DocId) (expr : ElementId) : Search Ty :=
  return (← e.inferExpr doc expr).firstValue

def inferElement (node : NodeRef) : Search Ty :=
  match p.treeOf? node with
  | none => return .unknown
  | some t =>
    let kind := t.kind node.element
    if kind.isExpr then e.inferExpr node.doc node.element
    else
      match kind with
      | .localName | .paramName =>
        let decl? := do
          let token ← paramToken? t node.element
          (← p.index.declTree? node.doc).declAt? (t.span token).start
        match decl? with
        | some decl => e.declType decl
        | none => return .unknown
      | .tableField =>
        match (t.exprs node.element).getLast? with
        | some value => inferFirst e node.doc value
        | none => return .unknown
      | _ => return .unknown

def exprListTypes (doc : DocId) (exprs : List ElementId) : Search (List Ty) := do
  let last := exprs.length - 1
  let types ← exprs.zipIdx.mapM fun (expr, i) => do
    let type ← e.inferExpr doc expr
    return if i == last then type else type.firstValue
  return Ty.flattenMulti types

end LuaAnalysis.Inference
