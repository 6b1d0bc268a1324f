import LuaAnalysis.Document.Store
import LuaAnalysis.Scope.Binding
import LuaAnalysis.Workspace.Description
import LuaAnalysis.Workspace.DocContext
import LuaAnalysis.Workspace.Index

/-!
The passes over one document that write it to the index: its declarations, then what its comments
say, then its globals, members and references. A pass reads back what the passes before it wrote.
-/

namespace LuaAnalysis.Workspace

open Document LuaAnalysis.Types Scope Syntax Settings Report

def writeDecls (s : Source) (i : Index) : Index :=
  let i := i.setDeclTree (bindDocument s.tree s.id)
  match s.path? with
  | some path => i.addModule s.id path
  | none => i

def writeReading (doc : DocId) (i : Index) (r : CommentReading) : Index :=
  let i := r.typeParts.foldl (fun i (name, part) => i.addTypePart doc name part) i
  let i := r.supers.foldl (fun i (name, super) => i.addSuper doc name super) i
  let i := r.fields.foldl Index.addMember i
  let i := r.operators.foldl (fun i o => i.addOperator doc o) i
  let i := r.suppressions.foldl (fun i s => i.addSuppression doc s) i
  if r.isMeta then i.setMeta doc else i

def describeFunction (t : Tree) (doc : DocId) (owner : ElementId) (a : Attachment)
    (i : Index) : Index :=
  match definedClosure? t owner with
  | some closure =>
    if a.describesFunction then
      (i.modifySignature ⟨doc, closure⟩ (describe a)).modifyDeclTree doc (typeParams t a closure)
    else i
  | none => i

def writeClassGlobal (t : Tree) (doc : DocId) (owner : ElementId) (a : Attachment)
    (i : Index) : Index :=
  match (declaredPositions t owner).head?, i.declTree? doc with
  | some position, some decls =>
    match classGlobal? a decls position with
    | some (name, table) => i.addClassGlobal doc name table
    | none => i
  | _, _ => i

def applyAttachment (t : Tree) (doc : DocId) (owner : ElementId) (a : Attachment)
    (i : Index) : Index :=
  let i := (describeFunction t doc owner a i).modifyDeclTree doc (describeDecls t a owner)
  writeClassGlobal t doc owner a i

namespace CommentContext

variable (c : CommentContext)

def writeSignatures (i : Index) : Index :=
  ((c.tree.descendants Tree.root).filter fun n => c.tree.kind n == .closureExpr).foldl
    (fun i n => i.addSignature ⟨c.doc, n⟩ (bareSignature c.tree n)) i

def writeComment (state : Index × List (ElementId × Attachment)) (comment : ElementId) :
    Index × List (ElementId × Attachment) :=
  let r := c.readComment comment
  let i := writeReading c.doc state.1 r
  match c.attachedTo? comment with
  | some owner => (applyAttachment c.tree c.doc owner r.attachment i,
      (owner, r.attachment) :: state.2)
  | none => (i, state.2)

/-- Writes all comments, and lists what they say by statement or field, the last comment first. -/
def writeComments (i : Index) : Index × List (ElementId × Attachment) :=
  ((c.tree.descendants Tree.root).filter fun n => c.tree.kind n ==
    .comment).foldl c.writeComment (i, [])

end CommentContext

namespace DocContext

variable (c : DocContext)

def writeGlobals (i : Index) : Index := c.globals.foldl (fun i (name, id) => i.addGlobal name id) i

def setOwner (value? : Option ElementId) (owner? : Option MemberOwner) (i : Index) : Index :=
  match value?, owner? with
  | some value, some owner => if c.tree.kind value == .tableExpr then
      i.setTableOwner ⟨c.doc, value⟩ owner else i
  | _, _ => i

def writeLocalTable (values : List ElementId) (i : Index) (name : ElementId × Nat) : Index :=
  c.setOwner values[name.2]? (do
    let token ← c.tree.childToken? name.1 .name
    (c.decls.declAt? (c.tree.span token).start).bind c.localOwnerOf?) i

def writeTarget (a? : Option Attachment) (values : List ElementId) (i : Index)
    (target : ElementId × Nat) : Index :=
  let i := c.setOwner values[target.2]? (c.targetOwner? target.1) i
  if c.tree.kind target.1 == .indexExpr then
    match c.indexMember? target.1 values[target.2]? a? with
    | some m => i.addMember m
    | none => i
  else i

def writeMethod (stat : ElementId) (i : Index) : Index :=
  match (c.tree.child? stat .indexExpr).bind fun name =>
      c.indexMember? name (c.tree.child? stat .closureExpr) (c.attachment? stat) with
  | some m => i.addMember m
  | none => i

def writeField (owner : MemberOwner) (i : Index) (field : ElementId × MemberKey × Span) : Index :=
  let value? := (c.tree.exprs field.1).getLast?
  let i := c.setOwner value? (owner.child? field.2.1) i
  i.addMember (c.member owner field.2.1 field.2.2 field.1 .tableField value?
    (c.attachment? field.1))

/-- Writes the fields of a table. Its owner is known by now if the statement or table around it gave
it one. -/
def writeTable (table : ElementId) (i : Index) : Index :=
  match i.tableOwner? ⟨c.doc, table⟩ with
  | some owner => (c.fieldsOf table).foldl (c.writeField owner) i
  | none =>
    let owner := MemberOwner.element ⟨c.doc, table⟩
    (c.fieldsOf table).foldl (c.writeField owner) (i.setTableOwner ⟨c.doc, table⟩ owner)

def writeReference (node : ElementId) (i : Index) : Index :=
  match c.referenceAt? node with
  | some (name, r) => i.addReference c.doc name r
  | none => i

/-- Writes what a node adds. Owners of inner tables follow from those of the tables around them, so
nodes are visited from the outside in. -/
def writeNode (i : Index) (node : ElementId) : Index :=
  match c.tree.kind node with
  | .localStat =>
    (c.tree.childrenOf node .localName).zipIdx.foldl
      (c.writeLocalTable (assignedValues c.tree node)) i
  | .assignStat =>
    if c.isExcluded node then i
    else (assignTargets c.tree node).zipIdx.foldl
      (c.writeTarget (c.attachment? node) (assignedValues c.tree node)) i
  | .funcStat => if c.isExcluded node then i else c.writeMethod node i
  | .tableExpr => c.writeTable node i
  | .nameExpr | .indexExpr | .typeName => c.writeReference node i
  | _ => i

def writeModuleReturn (i : Index) : Index :=
  match c.moduleReturn? with
  | some expr => i.setModuleReturn c.doc expr
  | none => i

def writeNodes (i : Index) : Index :=
  c.writeModuleReturn ((c.tree.descendants Tree.root).foldl c.writeNode (c.writeGlobals i))

end DocContext

def writeTree (s : Source) (attachments : List (ElementId × Attachment)) (i : Index) : Index :=
  match i.declTree? s.id with
  | some decls => DocContext.writeNodes ⟨s.id, s.tree, decls, attachments⟩ i
  | none => i

def analyze (settings : Settings) (s : Source) (i : Index) : Index :=
  let comments : CommentContext := ⟨s.id, s.tree, s.lines, settings.runtime.version⟩
  let (i, attachments) := comments.writeComments (comments.writeSignatures (writeDecls s i))
  writeTree s attachments i

end LuaAnalysis.Workspace
