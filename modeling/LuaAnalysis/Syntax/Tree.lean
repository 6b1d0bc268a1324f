import LuaAnalysis.Text.Quoted
import LuaAnalysis.Syntax.EventLog

/-!
The tree of a text, as an array of its elements in preorder. An element is known by its index, so
the elements below a node are the run of indices behind its own.
-/

namespace LuaAnalysis.Syntax

inductive ElementKind where
  | node (kind : NodeKind)
  | token (kind : TokenKind)
deriving DecidableEq, Repr, Inhabited

abbrev ElementId := Nat

structure Element where
  kind : ElementKind
  span : Span
  parent : Option ElementId
  children : Array ElementId
  /-- The index behind the last element below this one. -/
  next : ElementId
deriving Repr, Inhabited

structure Tree where
  text : String
  elements : Array Element
  errors : List SyntaxError
deriving Repr, Inhabited

/-- A tree under construction: its elements, the nodes that are open, innermost first, and where the
last token ended. -/
structure TreeBuilder where
  elements : Array Element := #[]
  opened : List ElementId := []
  lastStop : Nat := 0

namespace TreeBuilder

def push (b : TreeBuilder) (kind : ElementKind) (span : Span) : TreeBuilder :=
  let id := b.elements.size
  let parent := b.opened.head?
  let elements := b.elements.push ⟨kind, span, parent, #[], id + 1⟩
  let elements := match parent with
    | some p => elements.modify p fun e => { e with children := e.children.push id }
    | none => elements
  { b with elements := elements }

def openNode (b : TreeBuilder) (kind : NodeKind) : TreeBuilder :=
  let b := b.push (.node kind) (.empty b.lastStop)
  { b with opened := (b.elements.size - 1) :: b.opened }

def token (b : TreeBuilder) (kind : TokenKind) (span : Span) : TreeBuilder :=
  { b.push (.token kind) span with lastStop := span.stop }

def childrenHull? (elements : Array Element) (e : Element) : Option Span := do
  let first ← e.children[0]?
  let last ← e.children.back?
  pure ((← elements[first]?).span.hull (← elements[last]?).span)

def finishNode (b : TreeBuilder) : TreeBuilder :=
  match b.opened with
  | [] => b
  | id :: opened =>
    let hull := b.elements[id]?.bind (childrenHull? b.elements)
    let size := b.elements.size
    { b with
      opened := opened
      elements := b.elements.modify id fun e => { e with span := hull.getD e.span, next := size } }

/-- Takes the start events of the wrapping nodes out of the log, following the distances, and
collects their kinds, outermost first. -/
def takeWrappers : Nat → EventLog → Nat → Option Nat → List NodeKind → EventLog × List NodeKind
  | 0, log, _, _, kinds => (log, kinds)
  | _, log, _, none, kinds => (log, kinds)
  | fuel + 1, log, position, some distance, kinds =>
    let position := position + distance
    match log[position]? with
    | some (.start kind wrapper) =>
      takeWrappers fuel (log.setIfInBounds position .blank) position wrapper (kind :: kinds)
    | _ => (log.setIfInBounds position .blank, kinds)

def replay (log : EventLog) (position : Nat) (b : TreeBuilder) (errors : List SyntaxError) :
    EventLog × TreeBuilder × List SyntaxError :=
  match log[position]? with
  | some (.start kind wrapper) =>
    let (log, kinds) := takeWrappers log.size log position wrapper [kind]
    (log, (kinds.filter (· != .absent)).foldl openNode b, errors)
  | some (.token kind span) => (log, b.token kind span, errors)
  | some (.fault fault span) => (log, b, ⟨fault, span⟩ :: errors)
  | some .finish => (log, b.finishNode, errors)
  | none => (log, b, errors)

def replayFrom : Nat → Nat → EventLog → TreeBuilder → List SyntaxError →
    TreeBuilder × List SyntaxError
  | 0, _, _, b, errors => (b, errors)
  | count + 1, position, log, b, errors =>
    let (log, b, errors) := replay log position b errors
    replayFrom count (position + 1) log b errors

end TreeBuilder

namespace Tree

def ofLog (text : String) (log : EventLog) (lexErrors : List SyntaxError) : Tree :=
  let (b, errors) := TreeBuilder.replayFrom log.size 0 log {} []
  ⟨text, b.elements, (lexErrors ++ errors.reverse).mergeSort fun x y => x.span.start ≤ y.span.start⟩

def root : ElementId := 0

def size (t : Tree) : Nat := t.elements.size

def nodeKind? (t : Tree) (id : ElementId) : Option NodeKind :=
  match t.elements[id]? with
  | some ⟨.node kind, _, _, _, _⟩ => some kind
  | _ => none

def tokenKind? (t : Tree) (id : ElementId) : Option TokenKind :=
  match t.elements[id]? with
  | some ⟨.token kind, _, _, _, _⟩ => some kind
  | _ => none

def isNode (t : Tree) (id : ElementId) : Bool := (t.nodeKind? id).isSome

def kind (t : Tree) (id : ElementId) : NodeKind := (t.nodeKind? id).getD .absent

def span (t : Tree) (id : ElementId) : Span := (t.elements[id]?.map (·.span)).getD (.empty 0)

def textOf (t : Tree) (id : ElementId) : String := Text.slice t.text (t.span id)

def parent? (t : Tree) (id : ElementId) : Option ElementId := t.elements[id]?.bind (·.parent)

/-- The nodes around an element, innermost first. A parent has a smaller index. -/
def ancestors (t : Tree) (id : ElementId) : List ElementId :=
  go (id + 1) id
where
  /-- Climbs at most `fuel` steps. -/
  go : Nat → ElementId → List ElementId
    | 0, _ => []
    | fuel + 1, id =>
      match t.parent? id with
      | some p => p :: go fuel p
      | none => []

def children (t : Tree) (id : ElementId) : List ElementId :=
  (t.elements[id]?.map (·.children.toList)).getD []

def childNodes (t : Tree) (id : ElementId) : List ElementId := (t.children id).filter t.isNode

def childTokens (t : Tree) (id : ElementId) : List ElementId :=
  (t.children id).filter fun c => !t.isNode c

def child? (t : Tree) (id : ElementId) (kind : NodeKind) : Option ElementId :=
  (t.children id).find? fun c => t.nodeKind? c == some kind

def childrenOf (t : Tree) (id : ElementId) (kind : NodeKind) : List ElementId :=
  (t.children id).filter fun c => t.nodeKind? c == some kind

def childToken? (t : Tree) (id : ElementId) (kind : TokenKind) : Option ElementId :=
  (t.children id).find? fun c => t.tokenKind? c == some kind

def hasToken (t : Tree) (id : ElementId) (kind : TokenKind) : Bool := (t.childToken? id kind).isSome

def exprs (t : Tree) (id : ElementId) : List ElementId :=
  (t.childNodes id).filter fun c => (t.kind c).isExpr

def types (t : Tree) (id : ElementId) : List ElementId :=
  (t.childNodes id).filter fun c => (t.kind c).isType

def descendants (t : Tree) (id : ElementId) : List ElementId :=
  let next := (t.elements[id]?.map (·.next)).getD id
  (List.range' id (next - id)).filter t.isNode

def nameText? (t : Tree) (id : ElementId) : Option String := (t.childToken? id .name).map t.textOf

def depths (t : Tree) : Array Nat :=
  t.elements.foldl (fun ds e => ds.push (match e.parent with
    | some p => ds[p]?.getD 0 + 1
    | none => 0)) #[]

/-- The innermost token that touches an offset; one that starts there is preferred to one that ends
there. -/
def tokenAt? (t : Tree) (offset : Nat) : Option ElementId :=
  go t.size root
where
  /-- Searches below a node, at most `fuel` levels deep. -/
  go : Nat → ElementId → Option ElementId
    | 0, _ => none
    | fuel + 1, id =>
      let touching := (t.children id).filter fun c => (t.span c).touches offset
      let starting := touching.filter fun c => (t.span c).start == offset
      match starting.getLast? <|> touching.head? with
      | some c => if t.isNode c then go fuel c else some c
      | none => none

def dump (t : Tree) : String :=
  let depths := t.depths
  let line (id : ElementId) : String :=
    let indent := String.ofList (List.replicate (2 * depths[id]?.getD 0) ' ')
    match t.tokenKind? id with
    | some kind => indent ++ kind.label ++ "@" ++ (t.span id).text ++ " " ++
        Text.quoted (t.textOf id) ++ "\n"
    | none => indent ++ (t.kind id).label ++ "@" ++ (t.span id).text ++ "\n"
  let errorLine (e : SyntaxError) : String := "error@" ++ e.span.text ++ ": " ++ e.message ++ "\n"
  String.join ((List.range t.size).map line ++ t.errors.map errorLine)

end Tree

end LuaAnalysis.Syntax
