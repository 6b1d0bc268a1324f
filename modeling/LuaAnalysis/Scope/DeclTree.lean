import LuaAnalysis.Scope.Decl

namespace LuaAnalysis.Scope

open Document LuaAnalysis.Types

structure DeclTree where
  doc : DocId
  /-- The declarations in the order in which they were found. -/
  decls : Array Decl := #[]
  /-- The scopes in the order in which they were opened, so that each stands behind its parent. -/
  blocks : Array Block := #[]
  /-- Uses of local names. -/
  references : Array (DeclId × Span) := #[]
deriving Repr, Inhabited

namespace DeclTree

def pushBlock (t : DeclTree) (parent : Option Nat) (kind : BlockKind) (span : Span) : DeclTree :=
  { t with blocks := t.blocks.push { parent := parent, kind := kind, span := span } }

def decl? (t : DeclTree) (id : DeclId) : Option Decl := t.decls.find? (·.id == id)

def declAt? (t : DeclTree) (position : Nat) : Option Decl := t.decl? ⟨t.doc, position⟩

/-- Adds a declaration to a scope, or to none if it is global. One that starts at the same place is
replaced. -/
def addDecl (t : DeclTree) (block : Option Nat) (d : Decl) : DeclTree :=
  let blocks := match block with
    | some b => t.blocks.modify b fun s => { s with decls := s.decls.push d.id }
    | none => t.blocks
  let decls := match t.decls.findIdx? (·.id == d.id) with
    | some i => t.decls.setIfInBounds i d
    | none => t.decls.push d
  { t with blocks := blocks, decls := decls }

def addReference (t : DeclTree) (id : DeclId) (span : Span) : DeclTree :=
  { t with references := t.references.push (id, span) }

def modifyDecl (t : DeclTree) (id : DeclId) (f : Decl → Decl) : DeclTree :=
  { t with decls := t.decls.map fun d => if d.id == id then f d else d }

def referencesOf (t : DeclTree) (id : DeclId) : List Span :=
  t.references.toList.filterMap fun (d, span) => if d == id then some span else none

/-- The innermost scope at an offset: the last one that touches it. -/
def blockAt? (t : DeclTree) (offset : Nat) : Option Nat :=
  ((List.range t.blocks.size).filter fun i =>
    ((t.blocks[i]?).map fun b => b.span.touches offset).getD false).getLast?

def chainFrom (t : DeclTree) : Nat → Option Nat → List Block
  | 0, _ => []
  | _, none => []
  | fuel + 1, some i =>
    match t.blocks[i]? with
    | some b => b :: t.chainFrom fuel b.parent
    | none => []

def blocksAround (t : DeclTree) (offset : Nat) : List Block :=
  t.chainFrom t.blocks.size (t.blockAt? offset)

/-- The local declarations in effect at an offset, the nearest first. -/
def inScope (t : DeclTree) (offset : Nat) : List Decl :=
  (t.blocksAround offset).flatMap fun b =>
    (b.decls.toList.reverse.filterMap t.decl?).filter fun d => d.visibleFrom ≤ offset

/-- What a local name means at an offset: the latest declaration in the nearest scope that has one
of that name in effect. -/
def findLocal? (t : DeclTree) (name : String) (offset : Nat) : Option Decl :=
  let named := t.decls.filter fun d => d.name == name && d.visibleFrom ≤ offset
  (t.blocksAround offset).findSome? fun b =>
    b.decls.toList.reverse.findSome? fun id => named.find? fun d => d.id == id

def dropShadowed (seen : List String) : List Decl → List Decl
  | [] => []
  | d :: ds => if seen.contains d.name then dropShadowed seen ds
      else d :: dropShadowed (d.name :: seen) ds

def visibleLocals (t : DeclTree) (offset : Nat) : List Decl := dropShadowed [] (t.inScope offset)

end DeclTree

end LuaAnalysis.Scope
