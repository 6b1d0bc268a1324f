import LuaAnalysis.Document.Ids

namespace LuaAnalysis.Types

open Document

inductive MemberKey where
  | name (name : String)
  | integer (index : Int)
deriving DecidableEq, Repr, Inhabited

namespace MemberKey

def name? : MemberKey → Option String
  | .name n => some n
  | .integer _ => none

def text : MemberKey → String
  | .name n => n
  | .integer i => "[" ++ toString i ++ "]"

end MemberKey

/-- Tables are named by paths, so that a document can add members to one without knowing where it
was made. -/
inductive MemberOwner where
  /-- A class, an interface or an enum. -/
  | type (name : String)
  /-- A table below a global, by a path with dots. -/
  | global (path : String)
  /-- A table below a local, by a path with dots that is empty for the local itself. -/
  | local (decl : DeclId) (path : String)
  /-- Any other table constructor. -/
  | element (node : NodeRef)
deriving DecidableEq, Repr, Inhabited, Hashable

namespace MemberOwner

def child? (owner : MemberOwner) (key : MemberKey) : Option MemberOwner :=
  match owner, key with
  | .global path, .name n => some (.global (path ++ "." ++ n))
  | .local decl path, .name n => some (.local decl (if path.isEmpty then n else path ++ "." ++ n))
  | _, _ => none

def doc? : MemberOwner → Option DocId
  | .local decl _ => some decl.doc
  | .element node => some node.doc
  | .type _ | .global _ => none

end MemberOwner

end LuaAnalysis.Types
