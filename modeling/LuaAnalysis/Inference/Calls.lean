import LuaAnalysis.Inference.Members

/-!
Calls: what a value can be called as, which of several signatures fits the arguments best, and what
its templates stand for.
-/

namespace LuaAnalysis.Types.FuncType

def adjustFor (f : FuncType) (colonCall : Bool) : FuncType :=
  let params := match colonCall, f.isColon, f.params with
    | true, false, (name, type) :: rest => if name != "..." then rest else (name, type) :: rest
    | false, true, params => ("self", none) :: params
    | _, _, params => params
  { f with params := params, isColon := colonCall }

/-- The parameter for the argument at an index. The last one takes all further arguments if it
can. -/
def paramAt? (f : FuncType) (index : Nat) : Option (String × Option Ty) :=
  f.params[index]? <|> if f.isVararg then f.params.getLast? else none

end LuaAnalysis.Types.FuncType

namespace LuaAnalysis.Types.Ty

mutual

def templates (t : Ty) : List String :=
  match t with
  | .tpl name => [name]
  | .array item => templates item
  | .tuple items => listTemplates items
  | .object fields access => fieldTemplates fields ++ accessTemplates access
  | .union members => listTemplates members
  | .generic _ params => listTemplates params
  | .func _ _ params ret => paramTemplates params ++ templates ret
  | .multi items => listTemplates items
  | .variadic item => templates item
  | _ => []
termination_by structural t

def listTemplates (ts : List Ty) : List String :=
  match ts with
  | [] => []
  | t :: ts => templates t ++ listTemplates ts
termination_by structural ts

def fieldTemplates (fs : List (MemberKey × Ty)) : List String :=
  match fs with
  | [] => []
  | (_, t) :: fs => templates t ++ fieldTemplates fs
termination_by structural fs

def accessTemplates (as : List (Ty × Ty)) : List String :=
  match as with
  | [] => []
  | (k, v) :: as => templates k ++ templates v ++ accessTemplates as
termination_by structural as

def paramTemplates (ps : List (String × Option Ty)) : List String :=
  match ps with
  | [] => []
  | (_, none) :: ps => paramTemplates ps
  | (_, some t) :: ps => templates t ++ paramTemplates ps
termination_by structural ps

end

end LuaAnalysis.Types.Ty

namespace LuaAnalysis.Inference

open Document LuaAnalysis.Types Scope Syntax Workspace

/-- The signature that was chosen for a call, with its templates filled in. -/
structure CallMatch where
  func : FuncType
  /-- The parameter for each argument that is written. -/
  params : List (String × Option Ty)
  /-- The place of the signature among the candidates. -/
  candidate : Nat
  /-- The closure that is called, if it is known. -/
  closure? : Option NodeRef
deriving Repr, Inhabited

/-- The return statements below the nodes of a stack, but not those of inner functions. At most
`fuel` nodes are opened. -/
def returnsBelow (t : Tree) : Nat → List ElementId → List ElementId
  | 0, _ => []
  | _, [] => []
  | fuel + 1, node :: stack =>
    let children := t.childNodes node
    let returns := children.filter fun c => t.kind c == .returnStat
    let inner := children.filter fun c => t.kind c != .returnStat && t.kind c != .closureExpr
    returns ++ returnsBelow t fuel (inner.reverse ++ stack)

def bodyReturns (t : Tree) (body : ElementId) : List ElementId := returnsBelow t t.size [body]

/-- What the return statements looked at so far return: for each place in their lists, the values
there. -/
structure ReturnSlots where
  slots : List (List Ty) := []
  /-- The number of statements looked at. -/
  seen : Nat := 0

/-- Takes the values of one more statement. A slot that it is the first to fill has `nil` for each
statement before it, and a slot that it does not fill has `nil` for this one. -/
def ReturnSlots.add (r : ReturnSlots) (values : List Ty) : ReturnSlots :=
  let fresh := List.replicate (values.length - r.slots.length) (List.replicate r.seen Ty.nil)
  { slots := (r.slots ++ fresh).mapIdx fun i slot => slot ++ [values[i]?.getD .nil]
    seen := r.seen + 1 }

def mergeReturns (returns : List (List Ty)) : Ty :=
  .ofReturns ((returns.foldl ReturnSlots.add {}).slots.map .unionOf)

variable (p : Project) (e : Engine)

def inferBodyReturns (closure : NodeRef) : Search Ty :=
  match p.tree? closure.doc with
  | none => return .unknown
  | some t =>
    match t.child? closure.element .block with
    | none => return .nil
    | some body =>
      return mergeReturns (← (bodyReturns t body).mapM fun stat =>
        exprListTypes e closure.doc (t.exprs stat))

def signatureFunc (closure : NodeRef) : Search FuncType :=
  match p.index.signature? closure with
  | none => return {}
  | some s => do
    let ret ← if s.hasReturnDocs then pure s.docReturnType else inferBodyReturns p e closure
    return s.toFunc ret

def operatorFunc (o : Operator) : FuncType :=
  { params := o.operands.zipIdx.map fun (type, i) => ("p" ++ toString (i + 1), some type),
    ret := o.result }

def findCallables (t : Ty) : Search (List FuncType) :=
  match t with
  | .signature closure => do
    let main ← signatureFunc p e closure
    let overloads := ((p.index.signature? closure).map (·.overloads)).getD []
    return main :: overloads.map fun f => { f with isColon := main.isColon }
  | .func isAsync isColon params ret => return [⟨isAsync, isColon, params, ret⟩]
  | .function => return [{ params := [("...", some .any)], ret := .unknown }]
  | .ref name => do
    let calls := ((p.index.operators name).filter fun o => o.kind == .call).map operatorFunc
    if !calls.isEmpty then return calls
    match ← resolveAlias p t with
    | .ref _ | .unknown => return []
    | resolved => e.findCallables resolved
  | .generic _ _ => do
    match ← resolveAlias p t with
    | .generic _ _ | .unknown => return []
    | resolved => e.findCallables resolved
  | .union members => do
    return (← (members.filter fun m => !m.isNil).mapM e.findCallables).flatten
  | _ => return []

/-- The union of the values of a table; of those at integer keys only, if so asked. -/
def tableElementType (source : Ty) (positional : Bool) : Search Ty := do
  let infos ← findMembers p e source
  return .unionOf ((infos.filter fun info => !positional || info.key.name?.isNone).map (·.type))

def tableKeyType (source : Ty) : Search Ty := do
  let infos ← findMembers p e source
  return .unionOf (infos.map fun info => if info.key.name?.isSome then .string else .integer)

def unifyAll (pairs : List (Ty × Ty)) (s : Substitution) : Search Substitution :=
  pairs.foldlM (fun s (expected, actual) => e.unify expected actual s) s

/-- What keys and values an actual type has where `table<K, V>` is expected. -/
def tableView (actual : Ty) : Search (Ty × Ty) :=
  match actual with
  | .array item => return (.integer, item)
  | .tableConst _ => do
    let key ← tableKeyType p e actual
    return (key, ← tableElementType p e actual false)
  | _ => return (.unknown, .unknown)

def unifyArray (item actual : Ty) (s : Substitution) : Search Substitution :=
  match actual with
  | .array actualItem => e.unify item actualItem s
  | .tuple items => e.unify item (.unionOf items) s
  | .generic base params =>
    match base == "table", params[1]? with
    | true, some value => e.unify item value s
    | _, _ => return s
  | .tableConst _ => do e.unify item (← tableElementType p e actual true) s
  | _ => return s

def unifyGeneric (base : String) (params : List Ty) (actual : Ty) (s : Substitution) :
    Search Substitution := do
  let isTable := base == "table" && params.length == 2
  let (key, value) ← if isTable then tableView p e actual else pure (.unknown, .unknown)
  if !value.isUnknown then unifyAll e (params.zip [key, value]) s
  else
    match ← genericParamsAs p actual base with
    | some actualParams => unifyAll e (params.zip actualParams) s
    | none => return s

/-- What an alternative without templates takes is left out for those with templates. -/
def unifyUnion (members : List Ty) (actual : Ty) (s : Substitution) : Search Substitution :=
  let rest := (members.filter fun m => !m.containsTpl).foldl Ty.remove actual
  if rest.isNever then return s
  else unifyAll e ((members.filter Ty.containsTpl).map (·, rest)) s

def unifyFunc (params : List (String × Option Ty)) (ret actual : Ty) (s : Substitution) :
    Search Substitution := do
  match (← e.findCallables actual).head? with
  | none => return s
  | some f =>
    let pairs := (params.zip f.params).filterMap fun ((_, expected), (_, actual)) =>
      match expected, actual with
      | some expected, some actual => some (expected, actual)
      | _, _ => none
    unifyAll e (pairs ++ [(ret, f.ret.firstValue)]) s

def bindTemplate (name : String) (actual : Ty) (s : Substitution) : Substitution :=
  let actual := actual.widen
  s.insert name (match s.get? name with
    | some existing => if existing == actual then actual else .union2 existing actual
    | none => actual)

def unify (expected actual : Ty) (s : Substitution) : Search Substitution :=
  if actual.isUnknown || !expected.containsTpl then return s
  else
    match expected with
    | .tpl name => return bindTemplate name actual s
    | .array item => unifyArray p e item actual s
    | .generic base params => unifyGeneric p e base params actual s
    | .union members => unifyUnion e members actual s
    | .func _ _ params ret => unifyFunc e params ret actual s
    | .variadic item => e.unify item actual.firstValue s
    | _ => return s

/-- Binds templates by the arguments from an index on. A template for all further arguments takes
them together. -/
def unifyArgs (f : FuncType) (index : Nat) : List Ty → Substitution → Search Substitution
  | [], s => return s
  | arg :: rest, s =>
    match f.paramAt? index with
    | some (name, some expected) =>
      match name == "...", expected with
      | true, .tpl tpl =>
        let bound := match (arg :: rest).map Ty.widen with
          | [t] => t
          | ts => .multi ts
        return if s.contains tpl then s else s.insert tpl bound
      | _, _ => do
        let s ← e.unify expected arg s
        unifyArgs f (index + 1) rest s
    | _ => unifyArgs f (index + 1) rest s

/-- Fills in the templates of a function for arguments. Those that no argument decides become
`unknown`. -/
def instantiateCall (f : FuncType) (args : List Ty) (self? : Option Ty) : Search FuncType := do
  if !f.toTy.containsTpl then return f
  let s ← unifyArgs e f 0 args { self? := self? }
  let free := f.toTy.templates.eraseDups.filter fun name => !s.contains name
  return f.instantiate (free.foldl (fun s name => s.insert name .unknown) s)

def matchScore (f : FuncType) (index : Nat) : List Ty → Search Nat
  | [] => return 0
  | arg :: rest =>
    match f.paramAt? index with
    | some (_, some expected) => do
      if ← e.isSubtype arg expected then return (← matchScore f (index + 1) rest) + 1
      return 0
    | some (_, none) => return (← matchScore f (index + 1) rest) + 1
    | none => return 0

def bestOf : List (Nat × FuncType) → Option (Nat × FuncType)
  | scored =>
    (scored.zipIdx.foldl (fun (best : Option (Nat × Nat × FuncType)) ((score, f), i) =>
      match best with
      | some (top, _, _) => if top < score then some (score, i, f) else best
      | none => some (score, i, f)) none).map (·.2)

def bestMatch (callee : Ty) (args : List Ty) (colonCall : Bool) (self? : Option Ty) :
    Search (Option CallMatch) := do
  let candidates ← findCallables p e callee
  let scored ← candidates.mapM fun f => do
    let f := f.adjustFor colonCall
    return (← matchScore e f 0 args, f)
  match bestOf scored with
  | none => return none
  | some (candidate, f) =>
    let f ← instantiateCall e f args self?
    let closure? := match callee with
      | .signature closure => some closure
      | _ => none
    return some ⟨f, (List.range args.length).filterMap f.paramAt?, candidate, closure?⟩

def callArgs (t : Tree) (call : ElementId) : List ElementId :=
  ((t.child? call .callArgList).map t.exprs).getD []

def resolveCall (doc : DocId) (call : ElementId) : Search (Option CallMatch) :=
  match p.tree? doc with
  | none => return none
  | some t =>
    match (t.exprs call).head? with
    | none => return none
    | some callee => do
      let colonCall := t.kind callee == .indexExpr && t.hasToken callee .colon
      let calleeType ← inferFirst e doc callee
      let self? ← match colonCall, (t.exprs callee).head? with
        | true, some front => some <$> inferFirst e doc front
        | _, _ => pure none
      let args ← (callArgs t call).mapM (inferFirst e doc)
      bestMatch p e calleeType args colonCall self?

end LuaAnalysis.Inference
