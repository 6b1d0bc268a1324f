import LuaAnalysis.Scope.DeclTree
import LuaAnalysis.Workspace.CommentReader
import LuaAnalysis.Workspace.Reference
import LuaAnalysis.Workspace.Statement

/-!
What can be said of the statements of a document once its declarations and comments are known: whose
members are written, under which keys, and which names are used.
-/

namespace LuaAnalysis.Workspace

open Document LuaAnalysis.Types Scope Syntax

/-- What is known of a document when the owners of its members are looked for. -/
structure DocContext where
  doc : DocId
  tree : Tree
  decls : DeclTree
  /-- What comments say, by statement or field, the last comment first, which counts. -/
  attachments : List (ElementId × Attachment)

namespace DocContext

variable (c : DocContext)

def attachment? (node : ElementId) : Option Attachment :=
  (c.attachments.find? fun a => a.1 == node).map (·.2)

def isExcluded (node : ElementId) : Bool := ((c.attachment? node).map (·.excluded)).getD false

/-- The owner of the members of a local. A local that is declared to be of a class keeps them there,
and the receiver of a method those of what the method belongs to. -/
def localOwner? (ownerOf : ElementId → Option MemberOwner) (decl : Decl) : Option MemberOwner :=
  match decl.type?, decl.kind with
  | some (.ref name), _ => some (.type name)
  | _, .implicitSelf closure => do
    let stat ← c.tree.parent? closure.element
    let name ← c.tree.child? stat .indexExpr
    ownerOf (← (c.tree.exprs name).head?)
  | _, _ => some (.local decl.id "")

/-- The owner of what is written through an expression. Each step goes down the tree or to text
further up, so fuel as large as the tree is enough. -/
def ownerDeep : Nat → ElementId → Option MemberOwner
  | 0, _ => none
  | fuel + 1, expr =>
    match c.tree.kind expr with
    | .nameExpr => do
      let token ← c.tree.childToken? expr .name
      let name := c.tree.textOf token
      match c.decls.findLocal? name (c.tree.span token).start with
      | some decl => c.localOwner? (ownerDeep fuel) decl
      | none => some (.global name)
    | .indexExpr => do
      let front ← (c.tree.exprs expr).head?
      let (key, _) ← MemberKey.ofIndexExpr? c.tree expr
      (← ownerDeep fuel front).child? key
    | .parenExpr => do ownerDeep fuel (← (c.tree.exprs expr).head?)
    | _ => none

def ownerOf? (expr : ElementId) : Option MemberOwner := c.ownerDeep c.tree.size expr

def localOwnerOf? (decl : Decl) : Option MemberOwner := c.localOwner? c.ownerOf? decl

def targetOwner? (target : ElementId) : Option MemberOwner :=
  match c.tree.kind target with
  | .nameExpr => do
    let token ← c.tree.childToken? target .name
    let name := c.tree.textOf token
    let position := (c.tree.span token).start
    if ((c.decls.declAt? position).map (·.isGlobal)).getD false then some (.global name)
    else (c.decls.findLocal? name position).bind c.localOwnerOf?
  | .indexExpr => do
    let front ← (c.tree.exprs target).head?
    let (key, _) ← MemberKey.ofIndexExpr? c.tree target
    (← c.ownerOf? front).child? key
  | _ => none

/-- The fields of a table with their keys and where these stand. Values without a key are counted
from one. -/
def keyedFields (count : Int) : List ElementId → List (ElementId × MemberKey × Span)
  | [] => []
  | field :: rest =>
    match MemberKey.ofTableField? c.tree field with
    | some (key, span) => (field, key, span) :: keyedFields count rest
    | none =>
      if c.tree.hasToken field .assign then keyedFields count rest
      else
        let span := ((c.tree.exprs field).getLast?.map c.tree.span).getD (c.tree.span field)
        (field, .integer (count + 1), span) :: keyedFields (count + 1) rest

def fieldsOf (table : ElementId) : List (ElementId × MemberKey × Span) :=
  c.keyedFields 0 (c.tree.childrenOf table .tableField)

def member (owner : MemberOwner) (key : MemberKey) (span : Span) (node : ElementId)
    (source : MemberSource) (value? : Option ElementId) (a? : Option Attachment) : Member :=
  let a := a?.getD {}
  { owner := owner
    key := (a.mapping?.map MemberKey.name).getD key
    doc := c.doc
    span := span
    node := ⟨c.doc, node⟩
    source := source
    type? := a.types.head? <|> a.class?.map Ty.ref
    value? := value?.map (⟨c.doc, ·⟩)
    features := a.features
    visibility := a.visibility?.getD .publicAccess
    description? := a.description?
    link? := a.source? }

def indexMember? (target : ElementId) (value? : Option ElementId) (a? : Option Attachment) :
    Option Member := do
  let front ← (c.tree.exprs target).head?
  let (key, span) ← MemberKey.ofIndexExpr? c.tree target
  let owner ← c.ownerOf? front
  pure (c.member owner key span target .assign value? a?)

def globals : List (String × DeclId) :=
  let kept := c.decls.decls.toList.filter fun d =>
    d.isGlobal && !((c.tree.parent? d.node.element).map c.isExcluded).getD false
  kept.map fun d => (d.name, d.id)

def isWritten (node : ElementId) : Bool :=
  match c.tree.parent? node with
  | none => false
  | some parent =>
    match c.tree.kind parent with
    | .assignStat => (assignTargets c.tree parent).contains node
    | .funcStat => true
    | _ => false

def referenceAt? (node : ElementId) : Option (String × Reference) :=
  match c.tree.kind node with
  | .nameExpr => do
    let token ← c.tree.childToken? node .name
    let name := c.tree.textOf token
    let span := c.tree.span token
    if (c.decls.findLocal? name span.start).isSome then none
    else some (name, ⟨span, if c.isWritten node then .write else .read⟩)
  | .indexExpr =>
    match MemberKey.ofIndexExpr? c.tree node with
    | some (.name name, span) => some (name, ⟨span, .field⟩)
    | _ => none
  | .typeName => (c.tree.childToken? node .name).map fun token =>
    (c.tree.textOf token, ⟨c.tree.span token, .typeName⟩)
  | _ => none

def moduleReturn? : Option NodeRef := do
  let block ← c.tree.child? Tree.root .block
  let stat ← (c.tree.childrenOf block .returnStat).getLast?
  let expr ← (c.tree.exprs stat).head?
  pure ⟨c.doc, expr⟩

end DocContext

end LuaAnalysis.Workspace
