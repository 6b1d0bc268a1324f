import LuaAnalysis.Inference.Calls
import LuaAnalysis.Inference.Narrowing
import LuaAnalysis.Inference.Subtype

namespace LuaAnalysis.Inference

open Document LuaAnalysis.Types Scope Syntax Workspace

def keyType : MemberKey → Ty
  | .name name => .strConst name
  | .integer index => .intConst index

def arithmeticResult (op : BinaryOperator) (left right : Ty) : Ty :=
  match op with
  | .concat => .string
  | .bitAnd | .bitOr | .bitXor | .shl | .shr => .integer
  | .div | .pow => .number
  | .add | .sub | .mul | .idiv | .mod => if left.isInteger && right.isInteger then .integer
      else .number
  | _ => .unknown

def negated (operand : Ty) : Ty :=
  match operand with
  | .intConst value => if value == Int64.minValue.toInt then .integer else .intConst (-value)
  | .integer => .integer
  | _ => .number

variable (p : Project) (e : Engine)

/-- The type of the global of a name: the first declared one, or else the first that is known. -/
def globalType (name : String) : Search Ty := do
  let globals := p.index.globals name
  match globals.find? (·.type?.isSome) with
  | some decl => e.declType decl
  | none =>
    let found ← globals.findSomeM? fun decl => do
      let type ← e.declType decl
      return if type.isUnknown || type.isNil then none else some type
    match found with
    | some type => return type
    | none => return if p.settings.report.globals.contains name then .any else .unknown

def inferLiteral (t : Tree) (doc : DocId) (expr : ElementId) : Search Ty :=
  match (t.childTokens expr).head? with
  | none => return .unknown
  | some token =>
    let text := t.textOf token
    match t.tokenKind? token with
    | some .kwNil => return .nil
    | some .kwTrue => return .boolConst true
    | some .kwFalse => return .boolConst false
    | some .int => return ((Literal.integerValue? text).map Ty.intConst).getD .integer
    | some .float => return .number
    | some .str | some .longString => return .strConst (Literal.stringValue text)
    | some .dots =>
      match p.findLocal? doc "..." (t.span token).start with
      | some decl => e.declType decl
      | none => return .variadic .any
    | _ => return .unknown

def inferName (t : Tree) (doc : DocId) (expr : ElementId) : Search Ty :=
  match t.childToken? expr .name with
  | none => return .unknown
  | some token => do
    let name := t.textOf token
    let local? := p.findLocal? doc name (t.span token).start
    let type ← match local? with
      | some decl => e.declType decl
      | none => globalType p e name
    return narrowReference t p doc expr local? type

def indexOperator? (name : String) (key : Ty) : Search (Option Ty) :=
  ((p.index.operators name).filter fun o => o.kind == .index).findSomeM? fun o => do
    let accepts ← match o.operands.head? with
      | some operand => e.isSubtype key operand
      | none => pure true
    return if accepts then some o.result else none

def indexAccess (source key : Ty) : Search Ty :=
  match source with
  | .array item => return if key.isInteger || key.isUnknown then item else .unknown
  | .tuple items =>
    match key with
    | .intConst i => return if 1 ≤ i then items[i.toNat - 1]?.getD .nil else .unionOf items
    | _ => return .unionOf items
  | .generic base params => return if base == "table" then params[1]?.getD .unknown else .unknown
  | .object _ access => do
    let found ← access.findM? fun (accessKey, _) => e.isSubtype key accessKey
    return (found.map (·.2)).getD .unknown
  | .union members => do
    return .unionOf (← (members.filter fun m => !m.isNil).mapM fun m => e.indexAccess m key)
  | .ref name => do
    match ← indexOperator? p e name key with
    | some result => return result
    | none =>
      match ← resolveAlias p source with
      | .ref _ | .unknown => return .unknown
      | resolved => e.indexAccess resolved key
  | _ => return .unknown

def inferIndex (t : Tree) (doc : DocId) (expr : ElementId) : Search Ty :=
  match (t.exprs expr).head? with
  | none => return .unknown
  | some front => do
    let source ← inferFirst e doc front
    match MemberKey.ofIndexExpr? t expr with
    | some (key, _) =>
      match ← findMember p e source key with
      | some info => return info.type
      | none => indexAccess p e source (keyType key)
    | none =>
      match (t.exprs expr)[1]? with
      | none => return .unknown
      | some key => indexAccess p e source (← inferFirst e doc key)

def inferTable (doc : DocId) (expr : ElementId) : Ty :=
  match p.index.tableOwner? ⟨doc, expr⟩ with
  | some (.type name) => .ref name
  | some owner => .tableConst owner
  | none => .table

def firstAccepting (other? : Option Ty) : List Operator → Option Ty → Search (Option Ty)
  | [], fallback => return fallback
  | o :: rest, fallback =>
    match o.operands.head?, other? with
    | none, _ => return some o.result
    | some expected, some other => do
      if ← e.isSubtype other expected then return some o.result
      firstAccepting other? rest (fallback <|> some o.result)
    | some _, none => firstAccepting other? rest (fallback <|> some o.result)

def operatorResult (operand : Ty) (name? : Option String) (other? : Option Ty) :
    Search (Option Ty) :=
  match name?.bind OperatorKind.ofName?, operand with
  | some kind, .ref name =>
    firstAccepting e other? ((p.index.operators name).filter fun o => o.kind == kind) none
  | _, _ => return none

def inferUnary (t : Tree) (doc : DocId) (expr : ElementId) : Search Ty :=
  match (t.childTokens expr).findSome? fun token =>
    (t.tokenKind? token).bind UnaryOperator.ofToken? with
      | none => return .unknown
      | some op => do
        let operand ← match (t.exprs expr).head? with
          | some operand => inferFirst e doc operand
          | none => pure .unknown
        match ← operatorResult p e operand op.overloadName? none with
        | some result => return result
        | none =>
          match op with
          | .not => return .boolean
          | .len | .bitNot => return .integer
          | .neg => return negated operand

def inferBinary (t : Tree) (doc : DocId) (expr : ElementId) : Search Ty :=
  match (t.childTokens expr).findSome? fun token =>
    (t.tokenKind? token).bind BinaryOperator.ofToken? with
      | none => return .unknown
      | some op =>
        match operands? t expr with
        | none => return .unknown
        | some (left, right) => do
          let leftType ← inferFirst e doc left
          let rightType ← inferFirst e doc right
          match op with
          | .and => return .union2 leftType.falsy rightType
          | .or =>
            match leftType.truthy with
            | .never => return rightType
            | truthy => return .union2 truthy rightType
          | .eq | .ne | .lt | .le | .gt | .ge => return .boolean
          | op =>
            match ← operatorResult p e leftType op.overloadName? (some rightType) with
            | some result => return result
            | none =>
              match ← operatorResult p e rightType op.overloadName? (some leftType) with
              | some result => return result
              | none => return arithmeticResult op leftType rightType

def inferModule (name : String) : Search Ty :=
  match p.index.modules.find? name with
  | none => return .unknown
  | some doc =>
    match p.index.moduleReturn? doc with
    | none => return .nil
    | some expr => return (← inferElement p e expr).firstValue

/-- Calls that load a module or give a table a metatable have a meaning of their own, unless a local
has the name of the function. -/
def inferSpecialCall (t : Tree) (doc : DocId) (call : ElementId) : Search (Option Ty) :=
  let name? := do
    let callee ← (t.exprs call).head?
    let token ← if t.kind callee == .nameExpr then t.childToken? callee .name else none
    let name := t.textOf token
    if (name == "require" || name == "setmetatable") &&
      (p.findLocal? doc name (t.span token).start).isNone then
      some name
    else none
  match name?, (callArgs t call).head? with
  | some name, some arg => do
    let type ← inferFirst e doc arg
    if name == "require" then
      match type with
      | .strConst moduleName => return some (← inferModule p e moduleName)
      | _ => return none
    return some type
  | _, _ => return none

def inferCall (t : Tree) (doc : DocId) (call : ElementId) : Search Ty := do
  match ← inferSpecialCall p e t doc call with
  | some type => return type
  | none =>
    match ← resolveCall p e doc call with
    | some found => return found.func.ret
    | none => return .unknown

def inferNode (t : Tree) (doc : DocId) (expr : ElementId) : Search Ty :=
  match t.kind expr with
  | .literalExpr => inferLiteral p e t doc expr
  | .nameExpr => inferName p e t doc expr
  | .indexExpr => inferIndex p e t doc expr
  | .callExpr => inferCall p e t doc expr
  | .parenExpr =>
    match (t.exprs expr).head? with
    | some inner => inferFirst e doc inner
    | none => return .unknown
  | .tableExpr => return inferTable p doc expr
  | .closureExpr => return .signature ⟨doc, expr⟩
  | .unaryExpr => inferUnary p e t doc expr
  | .binaryExpr => inferBinary p e t doc expr
  | _ => return .unknown

def inferExpr (doc : DocId) (expr : ElementId) : Search Ty :=
  match p.tree? doc with
  | none => return .unknown
  | some t => Search.cachedExpr ⟨doc, expr⟩ (inferNode p e t doc expr)

end LuaAnalysis.Inference
