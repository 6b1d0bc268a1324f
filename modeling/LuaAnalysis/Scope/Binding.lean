import LuaAnalysis.Scope.DeclTree
import LuaAnalysis.Syntax.Tree

namespace LuaAnalysis.Scope

open Document LuaAnalysis.Types Syntax

/-- The declarations found so far, and the scopes that are open, innermost first. -/
structure Binder where
  found : DeclTree
  opened : List Nat := []
deriving Repr, Inhabited

namespace Binder

def inBlock (b : Binder) (kind : BlockKind) (span : Span) (step : Binder → Binder) : Binder :=
  let id := b.found.blocks.size
  let inner := step { found := b.found.pushBlock b.opened.head? kind span, opened :=
    id :: b.opened }
  { inner with opened := b.opened }

def declare (b : Binder) (d : Decl) : Binder :=
  { b with found := b.found.addDecl (if d.isGlobal then none else b.opened.head?) d }

def refer (b : Binder) (name : String) (span : Span) : Binder :=
  match b.found.findLocal? name span.start with
  | some d => { b with found := b.found.addReference d.id span }
  | none => b

end Binder

variable (t : Tree) (doc : DocId)

def isMultiValue (expr : ElementId) : Bool :=
  match t.kind expr with
  | .callExpr => true
  | .literalExpr => t.hasToken expr .dots
  | _ => false

/-- What the name at an index of a list is set to: the expression at the same index of the other
list, or one of the values of the last expression. -/
def valueFor? (values : List ElementId) (index : Nat) : Option DeclValue :=
  match values[index]? with
  | some expr => some ⟨⟨doc, expr⟩, 0⟩
  | none =>
    match values.getLast? with
    | some last => if isMultiValue t last then
        some ⟨⟨doc, last⟩, index + 1 - values.length⟩ else none
    | none => none

def declOf (token node : ElementId) (kind : DeclKind) (value? : Option DeclValue)
    (visibleFrom : Nat) : Decl :=
  { id := ⟨doc, (t.span token).start⟩
    name := t.textOf token
    kind := kind
    span := t.span token
    node := ⟨doc, node⟩
    value? := value?
    features := { readonly := match kind with
      | .local mark => mark.isSome
      | _ => false }
    visibleFrom := visibleFrom }

/-- A name that is assigned to is a use of a local if one is seen there, and else declares a
global. -/
def bindTarget (target : ElementId) (value? : Option DeclValue) (b : Binder) : Binder :=
  match t.childToken? target .name with
  | none => b
  | some token =>
    let span := t.span token
    match b.found.findLocal? (t.textOf token) span.start with
    | some d => { b with found := b.found.addReference d.id span }
    | none => b.declare (declOf t doc token target .global value? span.start)

def bindNameUse (node : ElementId) (b : Binder) : Binder :=
  match t.childToken? node .name with
  | some token => b.refer (t.textOf token) (t.span token)
  | none => b

def bindLocalName (values : List ElementId) (visibleFrom : Nat) (b : Binder)
    (name : ElementId × Nat) : Binder :=
  match t.childToken? name.1 .name with
  | none => b
  | some token =>
    let mark := ((t.child? name.1 .attribute).bind t.nameText?).bind LocalAttribute.ofWord?
    b.declare (declOf t doc token name.1 (.local mark) (valueFor? t doc values name.2) visibleFrom)

def bindLoopVar (visibleFrom : Nat) (b : Binder) (name : ElementId) : Binder :=
  match t.childToken? name .name with
  | some token => b.declare (declOf t doc token name .loopVar none visibleFrom)
  | none => b

def bindParam (closure : ElementId) (b : Binder) (param : ElementId × Nat) : Binder :=
  match t.childToken? param.1 .name <|> t.childToken? param.1 .dots with
  | some token =>
    b.declare (declOf t doc token param.1 (.param param.2 ⟨doc, closure⟩) none
      (t.span closure).start)
  | none => b

/-- The receiver has no name in the text; it stands where the parameter list opens. -/
def bindSelf (closure params : ElementId) (b : Binder) : Binder :=
  match t.childToken? params .leftParen with
  | none => b
  | some paren =>
    b.declare { declOf t doc paren params (.implicitSelf ⟨doc, closure⟩) none
      (t.span closure).start with
        name := "self" }

def bindParams (closure : ElementId) (isMethod : Bool) (b : Binder) : Binder :=
  match t.child? closure .paramList with
  | none => b
  | some params =>
    let b := if isMethod then bindSelf t doc closure params b else b
    (t.childrenOf params .paramName).zipIdx.foldl (bindParam t doc closure) b

def bindLocalFuncName (stat : ElementId) (value? : Option DeclValue) (b : Binder) : Binder :=
  match (t.child? stat .localName).bind fun n => (t.childToken? n .name).map (n, ·) with
  | some (name, token) =>
    b.declare (declOf t doc token name (.local none) value? (t.span token).start)
  | none => b

variable (visit : ElementId → Binder → Binder)

def visitAll (nodes : List ElementId) (b : Binder) : Binder := nodes.foldl (fun b n => visit n b) b

def bindClosure (closure : ElementId) (isMethod : Bool) (b : Binder) : Binder :=
  b.inBlock .closure (t.span closure) fun b =>
    let b := bindParams t doc closure isMethod b
    match t.child? closure .block with
    | some block => visit block b
    | none => b

/-- The values are bound first, so that a local is not seen in what it is set to. -/
def bindLocalStat (stat : ElementId) (b : Binder) : Binder :=
  let values := t.exprs stat
  let b := visitAll visit values b
  (t.childrenOf stat .localName).zipIdx.foldl (bindLocalName t doc values (t.span stat).stop) b

/-- A local function is seen from its own name on, so that it can call itself. -/
def bindLocalFuncStat (stat : ElementId) (b : Binder) : Binder :=
  let closure := t.child? stat .closureExpr
  let value? := closure.map fun c => (⟨⟨doc, c⟩, 0⟩ : DeclValue)
  let b := bindLocalFuncName t doc stat value? b
  match closure with
  | some c => bindClosure t doc visit c false b
  | none => b

def bindFuncName (stat : ElementId) (value? : Option DeclValue) (b : Binder) : Bool × Binder :=
  match (t.exprs stat).find? fun e => t.kind e != .closureExpr with
  | none => (false, b)
  | some name =>
    if t.kind name == .nameExpr then (false, bindTarget t doc name value? b)
    else (t.hasToken name .colon, visit name b)

def bindFuncStat (stat : ElementId) (b : Binder) : Binder :=
  let closure := t.child? stat .closureExpr
  let value? := closure.map fun c => (⟨⟨doc, c⟩, 0⟩ : DeclValue)
  let (isMethod, b) := bindFuncName t doc visit stat value? b
  match closure with
  | some c => bindClosure t doc visit c isMethod b
  | none => b

def bindAssignStat (stat : ElementId) (b : Binder) : Binder :=
  match t.childToken? stat .assign with
  | none => visitAll visit (t.childNodes stat) b
  | some assign =>
    let split := (t.span assign).start
    let (targets, values) := (t.exprs stat).partition fun e => (t.span e).stop ≤ split
    let b := visitAll visit values b
    targets.zipIdx.foldl (fun b (target, i) =>
      if t.kind target == .nameExpr then bindTarget t doc target (valueFor? t doc values i) b
      else visit target b) b

/-- What a loop runs over is outside of it; its variables are seen in its body. -/
def bindForStat (stat : ElementId) (b : Binder) : Binder :=
  let b := visitAll visit (t.exprs stat) b
  let block := t.child? stat .block
  let visibleFrom := (block.map fun n => (t.span n).start).getD (t.span stat).stop
  b.inBlock .loop (t.span stat) fun b =>
    let b := (t.childrenOf stat .paramName).foldl (bindLoopVar t doc visibleFrom) b
    match block with
    | some n => visit n b
    | none => b

/-- The condition sees the locals of the body, so both share one scope. -/
def bindRepeatStat (stat : ElementId) (b : Binder) : Binder :=
  b.inBlock .repeat (t.span stat) fun b =>
    (t.childNodes stat).foldl (fun b n =>
      if t.kind n == .block then visitAll visit (t.childNodes n) b else visit n b) b

def bindNode (node : ElementId) (b : Binder) : Binder :=
  match t.kind node with
  | .block => b.inBlock .block (t.span node) (visitAll visit (t.childNodes node))
  | .localStat => bindLocalStat t doc visit node b
  | .localFuncStat => bindLocalFuncStat t doc visit node b
  | .funcStat => bindFuncStat t doc visit node b
  | .assignStat => bindAssignStat t doc visit node b
  | .forStat | .forRangeStat => bindForStat t doc visit node b
  | .repeatStat => bindRepeatStat t visit node b
  | .closureExpr => bindClosure t doc visit node false b
  | .nameExpr => bindNameUse t node b
  | .comment => b
  | _ => visitAll visit (t.childNodes node) b

def bindDeep : Nat → ElementId → Binder → Binder
  | 0, _, b => b
  | fuel + 1, node, b => bindNode t doc (bindDeep fuel) node b

def bindDocument : DeclTree :=
  (Binder.inBlock { found := { doc := doc } } .chunk ⟨0, t.text.utf8ByteSize⟩ fun b =>
    visitAll (bindDeep t doc t.size) (t.childNodes Tree.root) b).found

end LuaAnalysis.Scope
