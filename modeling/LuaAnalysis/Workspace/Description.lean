import LuaAnalysis.Scope.DeclTree
import LuaAnalysis.Workspace.CommentReader
import LuaAnalysis.Workspace.Statement

namespace LuaAnalysis.Workspace

open Document LuaAnalysis.Types Scope Syntax

def paramTokens (t : Tree) (closure : ElementId) : List ElementId :=
  match t.child? closure .paramList with
  | some list => (t.childrenOf list .paramName).filterMap (paramToken? t)
  | none => []

def isMethod (t : Tree) (closure : ElementId) : Bool :=
  match t.parent? closure with
  | some parent =>
    t.kind parent == .funcStat &&
      ((t.child? parent .indexExpr).map fun n => t.hasToken n .colon).getD false
  | none => false

def bareSignature (t : Tree) (closure : ElementId) : Signature :=
  { params := (paramTokens t closure).map t.textOf, isColon := isMethod t closure }

def describe (a : Attachment) (s : Signature) : Signature :=
  { s with
    generics := a.generics
    paramDocs := a.params
    returnDocs := a.returns
    overloads := a.overloads
    isAsync := s.isAsync || a.features.isAsync
    nodiscard := s.nodiscard || a.features.nodiscard
    description? := a.description? }

def paramTypes (t : Tree) (a : Attachment) (closure : ElementId) : List (Nat × Ty) :=
  (paramTokens t closure).filterMap fun token =>
    (a.params.find? fun p => p.name == t.textOf token).map fun p =>
      ((t.span token).start, p.fullType)

def typeParams (t : Tree) (a : Attachment) (closure : ElementId) (decls : DeclTree) : DeclTree :=
  (paramTypes t a closure).foldl (fun decls (position, type) =>
    decls.modifyDecl ⟨decls.doc, position⟩ fun decl => { decl with type? := some type }) decls

def declaredPositions (t : Tree) (owner : ElementId) : List Nat :=
  let start (node : ElementId) : Option Nat :=
    (t.childToken? node .name).map fun token => (t.span token).start
  match t.kind owner with
  | .localStat => (t.childrenOf owner .localName).filterMap start
  | .localFuncStat => ((t.child? owner .localName).bind start).toList
  | .assignStat => ((assignTargets t owner).filter fun n => t.kind n == .nameExpr).filterMap start
  | .funcStat => ((t.child? owner .nameExpr).bind start).toList
  | _ => []

def describeDecl (a : Attachment) (index : Nat) (decl : Decl) : Decl :=
  { decl with
    type? := match a.types[index]? with
      | some type => some type
      | none => if index == 0 then (a.class?.map Ty.ref) <|> decl.type? else decl.type?
    features := { decl.features with
      deprecated := decl.features.deprecated || a.features.deprecated
      isAsync := decl.features.isAsync || a.features.isAsync
      nodiscard := decl.features.nodiscard || a.features.nodiscard }
    visibility := a.visibility?.getD decl.visibility }

def describeDecls (t : Tree) (a : Attachment) (owner : ElementId) (decls : DeclTree) : DeclTree :=
  (declaredPositions t owner).zipIdx.foldl (fun decls (position, index) =>
    decls.modifyDecl ⟨decls.doc, position⟩ (describeDecl a index)) decls

def classGlobal? (a : Attachment) (decls : DeclTree) (position : Nat) :
    Option (String × MemberOwner) := do
  let decl ← decls.declAt? position
  let name ← a.class?
  if a.types.isEmpty && decl.isGlobal then some (name, .global decl.name) else none

end LuaAnalysis.Workspace
