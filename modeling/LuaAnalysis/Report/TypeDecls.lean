import LuaAnalysis.Inference.Names
import LuaAnalysis.Report.Code

namespace LuaAnalysis.Report

open Document LuaAnalysis.Types Workspace Inference

variable (p : Project)

def meets (name : String) : Nat → List String → List String → Bool
  | 0, _, _ => false
  | _, _, [] => false
  | fuel + 1, visited, current :: pending =>
    if current == name then true
    else if visited.contains current then meets name fuel visited pending
    else meets name fuel (current :: visited) ((superNames p current).reverse ++ pending)

def superCount : Nat := p.index.superStore.size

/-- Whether a class extends itself, directly or not. Each class is opened once, so that no more
classes wait than there are statements to extend one. -/
def reachesItself (name : String) : Bool :=
  meets p name (2 * superCount p + 1) [] (superNames p name).reverse

def circleFindings (doc : DocId) (decl : TypeDecl) : List Diagnostic :=
  if decl.kind == .classType && reachesItself p decl.name then
    (decl.parts.filter fun part => part.1 == doc).map fun (_, part) =>
      .of .circleDocClass part.span ("class `" ++ decl.name ++ "` inherits from itself")
  else []

def isMergeable (kind : TypeKind) : Bool := kind == .classType || kind == .interface

def duplicateFindings (doc : DocId) (decl : TypeDecl) : List Diagnostic :=
  (decl.parts.drop 1).filterMap fun (partDoc, part) =>
    if partDoc == doc && !(isMergeable decl.kind && isMergeable part.kind) then
      some (.of .duplicateType part.span ("type `" ++ decl.name ++ "` is already defined"))
    else none

def typePass (doc : DocId) : List Diagnostic :=
  let names := (p.index.typeNamesOf doc).mergeSort fun a b => a ≤ b
  (names.filterMap p.index.typeDecl?).flatMap fun decl =>
    circleFindings p doc decl ++ duplicateFindings doc decl

end LuaAnalysis.Report
