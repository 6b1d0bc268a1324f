import LuaAnalysis.Document.DocMultimap
import LuaAnalysis.Document.Modules
import LuaAnalysis.Report.Suppression
import LuaAnalysis.Scope.DeclTree
import LuaAnalysis.Settings.Basic
import LuaAnalysis.Workspace.Member
import LuaAnalysis.Workspace.Reference
import LuaAnalysis.Workspace.Signature
import LuaAnalysis.Workspace.TypeIndex

/-!
The index of a workspace: stores that the documents write to, and the questions that can be asked
across documents. Every entry is known by the document that wrote it, so that all a document wrote
can be taken out at once. Answers list what the least document wrote first.
-/

namespace LuaAnalysis.Workspace

open Document LuaAnalysis.Types Scope Settings Report

structure Index where
  declTrees : DocMap DeclTree := .empty
  memberStore : DocMultimap MemberOwner Member := .empty
  globalStore : DocMultimap String DeclId := .empty
  types : TypeIndex := .empty
  superStore : DocMultimap String Ty := .empty
  /-- Named types by the types that they say they extend. -/
  subTypeStore : DocMultimap String String := .empty
  operatorStore : DocMultimap String Operator := .empty
  /-- The functions of each document, by their closures. -/
  signatures : DocMap (List (NodeRef × Signature)) := .empty
  referenceStore : DocMultimap String Reference := .empty
  /-- The owners of the members of tables, the latest finding first. -/
  tableOwners : DocMap (List (NodeRef × MemberOwner)) := .empty
  /-- Global tables that are declared to be a class, by the class. -/
  classGlobalStore : DocMultimap String MemberOwner := .empty
  modules : Modules := .ofRoots [] []
  moduleReturns : DocMap NodeRef := .empty
  suppressionStore : DocMap (List Suppression) := .empty
  metaDocs : DocMap Unit := .empty

/-- Classes with names of the language of types have no members. -/
def isReservedOwner : MemberOwner → Bool
  | .type name => isReservedName name
  | _ => false

namespace Index

instance : Inhabited Index := ⟨{}⟩

def ofSettings (s : Settings) : Index :=
  { modules := .ofRoots s.workspace.roots s.runtime.requirePatterns }

def remove (i : Index) (doc : DocId) : Index where
  declTrees := i.declTrees.erase doc
  memberStore := i.memberStore.erase doc
  globalStore := i.globalStore.erase doc
  types := i.types.erase doc
  superStore := i.superStore.erase doc
  subTypeStore := i.subTypeStore.erase doc
  operatorStore := i.operatorStore.erase doc
  signatures := i.signatures.erase doc
  referenceStore := i.referenceStore.erase doc
  tableOwners := i.tableOwners.erase doc
  classGlobalStore := i.classGlobalStore.erase doc
  modules := i.modules.remove doc
  moduleReturns := i.moduleReturns.erase doc
  suppressionStore := i.suppressionStore.erase doc
  metaDocs := i.metaDocs.erase doc

variable (i : Index)

def setDeclTree (t : DeclTree) : Index := { i with declTrees := i.declTrees.insert t.doc t }

def modifyDeclTree (doc : DocId) (f : DeclTree → DeclTree) : Index :=
  match i.declTrees.get? doc with
  | some t => { i with declTrees := i.declTrees.insert doc (f t) }
  | none => i

def addMember (m : Member) : Index :=
  if isReservedOwner m.owner then i else { i with memberStore := i.memberStore.add m.doc m.owner m }

def addGlobal (name : String) (id : DeclId) : Index :=
  { i with globalStore := i.globalStore.add id.doc name id }

def addTypePart (doc : DocId) (name : String) (part : TypePart) : Index :=
  { i with types := i.types.add doc name part }

/-- Notes what a type extends. A type that is named without parameters learns of it too. -/
def addSuper (doc : DocId) (name : String) (super : Ty) : Index :=
  let i := match super with
    | .ref superName => { i with subTypeStore := i.subTypeStore.add doc superName name }
    | _ => i
  { i with superStore := i.superStore.add doc name super }

def addOperator (doc : DocId) (o : Operator) : Index :=
  { i with operatorStore := i.operatorStore.add doc o.owner o }

def addSignature (closure : NodeRef) (s : Signature) : Index :=
  let signatures := (closure, s) :: (i.signatures.get? closure.doc).getD []
  { i with signatures := i.signatures.insert closure.doc signatures }

def modifySignature (closure : NodeRef) (f : Signature → Signature) : Index :=
  match i.signatures.get? closure.doc with
  | some signatures =>
    let signatures := signatures.map fun (n, s) => if n == closure then (n, f s) else (n, s)
    { i with signatures := i.signatures.insert closure.doc signatures }
  | none => i

def addReference (doc : DocId) (name : String) (r : Reference) : Index :=
  { i with referenceStore := i.referenceStore.add doc name r }

def setTableOwner (table : NodeRef) (owner : MemberOwner) : Index :=
  let owners := (table, owner) :: (i.tableOwners.get? table.doc).getD []
  { i with tableOwners := i.tableOwners.insert table.doc owners }

def addClassGlobal (doc : DocId) (name : String) (owner : MemberOwner) : Index :=
  { i with classGlobalStore := i.classGlobalStore.add doc name owner }

def addModule (doc : DocId) (path : String) : Index := { i with modules := i.modules.add doc path }

def setModuleReturn (doc : DocId) (expr : NodeRef) : Index :=
  { i with moduleReturns := i.moduleReturns.insert doc expr }

def addSuppression (doc : DocId) (s : Suppression) : Index :=
  let suppressions := (i.suppressionStore.get? doc).getD [] ++ [s]
  { i with suppressionStore := i.suppressionStore.insert doc suppressions }

def setMeta (doc : DocId) : Index := { i with metaDocs := i.metaDocs.insert doc () }

def declTree? (doc : DocId) : Option DeclTree := i.declTrees.get? doc

def decl? (id : DeclId) : Option Decl := (i.declTree? id.doc).bind (·.decl? id)

def members (owner : MemberOwner) : List Member := i.memberStore.values owner

/-- The member under a key. One with a declared type counts before others. -/
def member? (owner : MemberOwner) (key : MemberKey) : Option Member :=
  let found := (i.members owner).filter fun m => m.key == key
  found.find? (·.type?.isSome) <|> found.head?

def membersOf (doc : DocId) : List Member := (i.memberStore.entriesOf doc).map (·.2)

def globals (name : String) : List Decl := (i.globalStore.values name).filterMap i.decl?

def hasGlobal (name : String) : Bool := i.globalStore.hasKey name

def allGlobals : List Decl :=
  (i.globalStore.keys.mergeSort fun a b => a ≤ b).filterMap fun name => (i.globals name).head?

def typeDecl? (name : String) : Option TypeDecl := i.types.get? name

def typeNames : List String := i.types.names

def typeNamesOf (doc : DocId) : List String := i.types.namesOf doc

def supers (name : String) : List Ty := i.superStore.values name

def subTypes (name : String) : List String := i.subTypeStore.values name

def operators (name : String) : List Operator := i.operatorStore.values name

def references (name : String) : List (DocId × Reference) := i.referenceStore.withDoc name

def signature? (closure : NodeRef) : Option Signature := do
  let signatures ← i.signatures.get? closure.doc
  (signatures.find? fun s => s.1 == closure).map (·.2)

def tableOwner? (table : NodeRef) : Option MemberOwner := do
  let owners ← i.tableOwners.get? table.doc
  (owners.find? fun o => o.1 == table).map (·.2)

def classGlobals (name : String) : List MemberOwner := i.classGlobalStore.values name

def moduleReturn? (doc : DocId) : Option NodeRef := i.moduleReturns.get? doc

def suppressions (doc : DocId) : List Suppression := (i.suppressionStore.get? doc).getD []

def isMeta (doc : DocId) : Bool := i.metaDocs.contains doc

end Index

end LuaAnalysis.Workspace
