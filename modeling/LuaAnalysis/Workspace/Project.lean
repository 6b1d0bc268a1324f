import LuaAnalysis.Workspace.Analysis

/-!
A workspace: its open documents and the index of them. Every edit replaces what one document adds to
the index and leaves the rest alone.
-/

namespace LuaAnalysis.Workspace

open Document LuaAnalysis.Types Scope Syntax Settings

structure Project where
  store : Store := {}
  index : Index := {}
  settings : Settings := {}
deriving Inhabited

namespace Project

def ofSettings (s : Settings) : Project := { index := .ofSettings s, settings := s }

def add (p : Project) (uri : Uri) (text : String) : Project × DocId :=
  let (store, id) := p.store.setText uri text
  let index := p.index.remove id
  let index := match store.get? id with
    | some source => analyze p.settings source index
    | none => index
  ({ p with store := store, index := index }, id)

def addAll (p : Project) (docs : List (Uri × String)) : Project × List DocId :=
  let (p, ids) :=
    docs.foldl (fun (p, ids) (uri, text) => let (p, id) := p.add uri text; (p, id :: ids)) (p, [])
  (p, ids.reverse)

def update? (p : Project) (uri : Uri) (text : String) : Option (Project × DocId) :=
  (p.store.lookup? uri).map fun _ => p.add uri text

def docId? (p : Project) (uri : Uri) : Option DocId :=
  match p.store.lookup? uri with
  | some id => if (p.store.get? id).isSome then some id else none
  | none => none

def remove? (p : Project) (uri : Uri) : Option (Project × DocId) :=
  (p.docId? uri).map fun id =>
    ({ p with store := p.store.remove id, index := p.index.remove id }, id)

def source? (p : Project) (id : DocId) : Option Source := p.store.get? id

def tree? (p : Project) (id : DocId) : Option Tree := (p.store.get? id).map (·.tree)

def treeOf? (p : Project) (node : NodeRef) : Option Tree :=
  match p.tree? node.doc with
  | some t => if t.isNode node.element then some t else none
  | none => none

def findLocal? (p : Project) (doc : DocId) (name : String) (offset : Nat) : Option Decl :=
  (p.index.declTree? doc).bind fun t => t.findLocal? name offset

/-- What a name means at a place of a document: a local that is seen there, or else a global, of
which the document's own declaration counts before those of others. -/
def resolveName? (p : Project) (doc : DocId) (name : String) (offset : Nat) : Option Decl :=
  match p.findLocal? doc name offset with
  | some decl => some decl
  | none =>
    let globals := p.index.globals name
    globals.find? (fun d => d.id.doc == doc) <|> globals.head?

def isAliasName (p : Project) (name : String) : Bool :=
  ((p.index.typeDecl? name).map (·.isAlias)).getD false

def isEnum (p : Project) (name : String) : Bool :=
  ((p.index.typeDecl? name).map (·.isEnum)).getD false

end Project

end LuaAnalysis.Workspace
