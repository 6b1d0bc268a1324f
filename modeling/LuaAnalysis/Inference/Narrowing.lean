import LuaAnalysis.Inference.Engine

namespace LuaAnalysis.Inference

open Document LuaAnalysis.Types Scope Syntax Workspace

/-- What a condition shows about a name where it holds. -/
inductive Condition where
  | truthy
  | notNil
deriving DecidableEq, Repr, Inhabited

def Condition.narrow : Condition → Ty → Ty
  | .truthy, t => t.truthy
  | .notNil, t => t.remove .nil

variable (t : Tree)

def isName (name : String) (node : ElementId) : Bool :=
  t.kind node == .nameExpr && t.nameText? node == some name

def isNilLiteral (node : ElementId) : Bool := t.kind node == .literalExpr && t.hasToken node .kwNil

def operands? (node : ElementId) : Option (ElementId × ElementId) :=
  match t.exprs node with
  | left :: right :: _ => some (left, right)
  | _ => none

/-- What a condition shows about a name, looking at most `fuel` levels deep. -/
def conditionDeep (name : String) : Nat → ElementId → Option Condition
  | 0, _ => none
  | fuel + 1, guard =>
    match t.kind guard with
    | .nameExpr => if t.nameText? guard == some name then some .truthy else none
    | .parenExpr => (t.exprs guard).head?.bind (conditionDeep name fuel)
    | .binaryExpr =>
      if t.hasToken guard .ne then do
        let (left, right) ← operands? t guard
        if (isName t name left && isNilLiteral t right) ||
          (isNilLiteral t left && isName t name right) then
          some .notNil
        else none
      else if t.hasToken guard .kwAnd then do
        -- both sides hold where the whole holds
        let (left, right) ← operands? t guard
        conditionDeep name fuel left <|> conditionDeep name fuel right
      else none
    | _ => none

def conditionOn? (name : String) (guard : ElementId) : Option Condition :=
  conditionDeep t name t.size guard

def guardAt? (parent child : ElementId) : Option ElementId :=
  match t.kind parent with
  | .binaryExpr =>
    -- the right operand is looked at only if the left one is true
    if t.hasToken parent .kwAnd then do
      let (left, right) ← operands? t parent
      if right == child then some left else none
    else none
  | .ifStat | .elseIfClause => if t.kind child == .block then (t.exprs parent).head? else none
  | _ => none

/-- The conditions that hold at a node, the nearest first. The body of a function may run long after
a check around it, so what is outside of the function does not count. -/
def guardsAround (child : ElementId) : List ElementId → List ElementId
  | [] => []
  | parent :: rest =>
    if t.kind parent == .closureExpr then []
    else (guardAt? t parent child).toList ++ guardsAround parent rest

def sameBinding (p : Project) (doc : DocId) (guard : ElementId) (name : String)
    (decl? : Option Decl) : Bool :=
  match (t.descendants guard).find? (isName t name) with
  | none => false
  | some node =>
    match t.childToken? node .name with
    | none => false
    | some token => ((p.findLocal? doc name (t.span token).start).map (·.id)) == decl?.map (·.id)

def narrowReference (p : Project) (doc : DocId) (reference : ElementId) (decl? : Option Decl)
    (type : Ty) : Ty :=
  match type, t.nameText? reference with
  | .union _, some name | .boolean, some name =>
    let conditions := (guardsAround t reference (t.ancestors reference)).filterMap fun guard =>
      if sameBinding t p doc guard name decl? then conditionOn? t name guard else none
    match conditions.foldl (fun type c => c.narrow type) type with
    | .never => .unknown
    | narrowed => narrowed
  | type, _ => type

end LuaAnalysis.Inference
