import LuaAnalysis.Inference.Expr

namespace LuaAnalysis.Inference

open Document LuaAnalysis.Types Scope Syntax Workspace

variable (p : Project) (e : Engine)

/-- The value at an index of what an expression gives, where a single value has only the first
place. -/
def valueOr (t : Ty) (index : Nat) (otherwise : Ty) : Ty :=
  if t.isMulti then (t.valueAt? index).getD .nil
  else if index == 0 then t
  else otherwise

def selfType (closure : NodeRef) : Search Ty :=
  let found : Option ElementId := do
    let t ← p.tree? closure.doc
    let stat ← t.parent? closure.element
    let name ← t.child? stat .indexExpr
    (t.exprs name).head?
  match found with
  | some front => inferFirst e closure.doc front
  | none => return .unknown

def countVarType (doc : DocId) (bounds : List ElementId) : Search Ty := do
  let types ← bounds.mapM (inferFirst e doc)
  return if types.all Ty.isInteger then .integer else .number

/-- A variable of a loop over an iterator is what the iterator returns. The loop ends when the first
value is `nil`. -/
def iteratorVarType (doc : DocId) (iterator : ElementId) (position : Nat) : Search Ty := do
  let callee ← inferFirst e doc iterator
  let ret := ((← findCallables p e callee).head?.map (·.ret)).getD .unknown
  let value := valueOr ret position .unknown
  return if position == 0 then value.remove .nil else value

def loopVarType (decl : Decl) : Search Ty :=
  let doc := decl.id.doc
  match (do let t ← p.tree? doc; pure (t, ← t.parent? decl.node.element)) with
  | none => return .unknown
  | some (t, stat) =>
    match t.kind stat with
    | .forStat => countVarType e doc (t.exprs stat)
    | .forRangeStat =>
      let names := t.childrenOf stat .paramName
      let position := (names.findIdx? fun n => (t.span n).start == decl.span.start).getD 0
      match (t.exprs stat).head? with
      | some iterator => iteratorVarType p e doc iterator position
      | none => return .unknown
    | _ => return .unknown

/-- A parameter without an annotation of a function that is passed to a call is what the callee
expects there. -/
def callbackParamType (closure : NodeRef) (index : Nat) : Search Ty :=
  let place : Option (ElementId × Nat) := do
    let t ← p.tree? closure.doc
    let list ← t.parent? closure.element
    if t.kind list != .callArgList then none
    else
      let call ← t.parent? list
      pure (call, ← (t.exprs list).findIdx? (· == closure.element))
  match place with
  | none => return .unknown
  | some (call, argIndex) => do
    match (← resolveCall p e closure.doc call).bind fun found => found.params[argIndex]? with
    | some (_, some expected) =>
      match (← findCallables p e expected).head? with
      | some callback => return (callback.params[index]?.bind (·.2)).getD .unknown
      | none => return .unknown
    | _ => return .unknown

def paramDeclType (decl : Decl) (index : Nat) (closure : NodeRef) : Search Ty :=
  match (p.index.signature? closure).bind fun s => s.paramType? decl.name, decl.name == "..." with
  | some type, true => return .variadic type
  | some type, false => resolveAlias p type
  | none, true => return .variadic .any
  | none, false => callbackParamType p e closure index

def valueDeclType (value? : Option DeclValue) : Search Ty :=
  match value? with
  | none => return .unknown
  | some value => do
    if (p.treeOf? value.expr).isNone then return .unknown
    return valueOr (← e.inferExpr value.expr.doc value.expr.element) value.index .nil

def declTypeOf (decl : Decl) : Search Ty :=
  match decl.type?, decl.kind with
  | some declared, _ => resolveAlias p declared
  | none, .param index closure => paramDeclType p e decl index closure
  | none, .implicitSelf closure => selfType p e closure
  | none, .loopVar => loopVarType p e decl
  | none, .local _ | none, .global => valueDeclType p e decl.value?

def declType (decl : Decl) : Search Ty := Search.cachedDecl decl.id (declTypeOf p e decl)

end LuaAnalysis.Inference
