import LuaAnalysis.Text.Span
import LuaAnalysis.Types.Ty

namespace LuaAnalysis.Scope

open Document LuaAnalysis.Types

inductive LocalAttribute where
  | const | close
deriving DecidableEq, Repr, Inhabited

def LocalAttribute.ofWord? : String → Option LocalAttribute
  | "const" => some .const
  | "close" => some .close
  | _ => none

inductive DeclKind where
  | local (mark : Option LocalAttribute)
  | loopVar
  /-- A parameter, by its place and the closure it belongs to. -/
  | param (index : Nat) (closure : NodeRef)
  /-- The receiver of a function that is defined with a colon. -/
  | implicitSelf (closure : NodeRef)
  | global
deriving DecidableEq, Repr, Inhabited

inductive Visibility where
  | publicAccess | protectedAccess | privateAccess | packageAccess
deriving DecidableEq, Repr, Inhabited

namespace Visibility

def word : Visibility → String
  | .publicAccess => "public"
  | .protectedAccess => "protected"
  | .privateAccess => "private"
  | .packageAccess => "package"

def ofWord? (word : String) : Option Visibility :=
  [.publicAccess, .protectedAccess, .privateAccess, .packageAccess].find? fun v => v.word == word

end Visibility

structure Features where
  deprecated : Bool := false
  isAsync : Bool := false
  nodiscard : Bool := false
  readonly : Bool := false
deriving DecidableEq, Repr, Inhabited

/-- One of the values of an expression. -/
structure DeclValue where
  expr : NodeRef
  index : Nat
deriving DecidableEq, Repr, Inhabited

structure Decl where
  id : DeclId
  name : String
  kind : DeclKind
  /-- Where the name stands. -/
  span : Span
  node : NodeRef
  value? : Option DeclValue := none
  type? : Option Ty := none
  features : Features := {}
  visibility : Visibility := .publicAccess
  /-- The first offset at which the name means this declaration. -/
  visibleFrom : Nat
deriving Repr, Inhabited

namespace Decl

def isGlobal (d : Decl) : Bool := d.kind == .global

def isLocal (d : Decl) : Bool := !d.isGlobal

def isParam (d : Decl) : Bool :=
  match d.kind with
  | .param .. | .implicitSelf _ => true
  | _ => false

end Decl

inductive BlockKind where
  | chunk | block | closure | loop | repeat
deriving DecidableEq, Repr, Inhabited

/-- A piece of text with the local names that are declared in it, in their order. -/
structure Block where
  parent : Option Nat
  kind : BlockKind
  span : Span
  decls : Array DeclId := #[]
deriving Repr, Inhabited

end LuaAnalysis.Scope
