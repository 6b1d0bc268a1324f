import LuaAnalysis.Inference.Decls
import LuaAnalysis.Types.Printer

namespace LuaAnalysis.Inference

open Document LuaAnalysis.Types Scope Syntax Workspace

/-- All answers, with fuel for a number of steps inside each other. -/
def engine (p : Project) : Nat → Engine
  | 0 => .stopped
  | n + 1 =>
    { inferExpr := fun doc expr => inferExpr p (engine p n) doc expr
      declType := fun decl => declType p (engine p n) decl
      isSubtype := fun sub sup => isSubtype p (engine p n) sub sup
      findMember := fun t key => findMember p (engine p n) t key
      findCallables := fun t => findCallables p (engine p n) t
      indexAccess := fun source key => indexAccess p (engine p n) source key
      collectSources := fun t s sources => collectSources p (engine p n) t s sources
      unify := fun expected actual s => unify p (engine p n) expected actual s }

/-- More steps than any search takes that comes to an end by itself. -/
def searchFuel : Nat := 1000000000000

def fullEngine (p : Project) : Engine := engine p searchFuel

/-- What a name, a field or a named type refers to. -/
inductive Target where
  | decl (decl : Decl)
  | member (member : Member)
  | type (decl : TypeDecl)
deriving Repr, Inhabited

variable (p : Project)

def findTarget (doc : DocId) (node : ElementId) : Search (Option Target) :=
  match p.tree? doc with
  | none => return none
  | some t =>
    match t.kind node with
    | .nameExpr =>
      return do
        let token ← t.childToken? node .name
        (p.resolveName? doc (t.textOf token) (t.span token).start).map Target.decl
    | .indexExpr =>
      match (t.exprs node).head?, MemberKey.ofIndexExpr? t node with
      | some front, some (key, _) => do
        let source ← inferFirst (fullEngine p) doc front
        let info? ← findMember p (fullEngine p) source key
        return (info?.bind (·.member?)).map Target.member
      | _, _ => return none
    | .typeName => return ((t.nameText? node).bind p.index.typeDecl?).map Target.type
    | .localName | .paramName =>
      return do
        let token ← t.childToken? node .name
        ((← p.index.declTree? doc).declAt? (t.span token).start).map Target.decl
    | _ => return none

mutual

def showType (t : Ty) : Search String :=
  match t with
  | .signature closure => return (← signatureFunc p (fullEngine p) closure).text
  | .multi items => return ", ".intercalate (← showTypes items)
  | .variadic item => return "..." ++ (← showType item)
  | .union members => do
    let texts ← showTypes members
    if texts.length == 2 && members.any Ty.isNil then
      match (members.zip texts).find? fun (t, _) => !t.isNil with
      | some (_, text) => return text ++ "?"
      | none => return "|".intercalate texts
    return "|".intercalate texts
  | t => return t.text
termination_by structural t

def showTypes (ts : List Ty) : Search (List String) :=
  match ts with
  | [] => return []
  | t :: ts => return (← showType t) :: (← showTypes ts)
termination_by structural ts

end

def run {α : Type} (search : Search α) : α := (search.run {}).1

end LuaAnalysis.Inference
