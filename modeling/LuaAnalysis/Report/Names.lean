import LuaAnalysis.Inference.Query
import LuaAnalysis.Report.Code

/-!
Findings about names: locals without a use, globals that nothing defines, and members that are
deprecated or out of reach.
-/

namespace LuaAnalysis.Report

open Document LuaAnalysis.Types Scope Syntax Workspace Inference

def builtinGlobals : List String := ["_G", "_ENV", "_VERSION", "arg", "self"]

variable (p : Project) (doc : DocId) (t : Tree)

def syntaxFindings : List Diagnostic := t.errors.map fun e => .of .syntaxError e.span e.message

/-- Locals that are never used. A name that starts with an underscore says that this is meant. -/
def unusedLocals (decls : DeclTree) : List Diagnostic :=
  decls.decls.toList.filterMap fun d =>
    match d.kind with
    | .local _ =>
      if d.name.toList.head? == some '_' || !(decls.referencesOf d.id).isEmpty then none
      else some (.of .unusedLocal d.span ("unused local `" ++ d.name ++ "`"))
    | _ => none

def nameFindings (node : ElementId) : List Diagnostic :=
  match t.childToken? node .name with
  | none => []
  | some token =>
    let name := t.textOf token
    let span := t.span token
    match p.resolveName? doc name span.start with
    | none =>
      if p.settings.report.globals.contains name || builtinGlobals.contains name then []
      else [.of .undefinedGlobal span ("undefined global `" ++ name ++ "`")]
    | some decl =>
      -- where a name is declared it is not used
      let isDefinition := decl.id.doc == doc && decl.span == span
      if decl.features.deprecated && !isDefinition then
        [.of .deprecated span ("`" ++ name ++ "` is deprecated")]
      else []

def classAmong : List ElementId → Search (Option String)
  | [] => return none
  | node :: rest =>
    if t.kind node != .funcStat then classAmong rest
    else
      match (t.child? node .indexExpr).bind fun name => (t.exprs name).head? with
      | none => return none
      | some front => do
        match className? (← inferFirst (fullEngine p) doc front) with
        | some name => return some name
        | none => classAmong rest

def enclosingClass (node : ElementId) : Search (Option String) :=
  classAmong p doc t (t.ancestors node)

/-- Private members are seen in the methods of their class, protected ones also in those of classes
that extend it, and those of a package in their document. -/
def isAccessible (node : ElementId) (m : Member) : Search Bool :=
  match m.visibility, m.owner with
  | .publicAccess, _ => return true
  | .packageAccess, _ => return m.doc == doc
  | .privateAccess, .type owner => return (← enclosingClass p doc t node) == some owner
  | .protectedAccess, .type owner => do
    match ← enclosingClass p doc t node with
    | some name => inherits p name owner
    | none => return false
  | _, _ => return m.doc == doc

def indexFindings (node : ElementId) : Search (List Diagnostic) :=
  match MemberKey.ofIndexExpr? t node, (t.exprs node).head? with
  | some (key, span), some front => do
    let source ← inferFirst (fullEngine p) doc front
    let info? ← findMember p (fullEngine p) source key
    match info?.bind (·.member?) with
    | none => return []
    | some m =>
      if m.doc == doc && m.span == span then return []
      let deprecated := if m.features.deprecated then
          [Diagnostic.of .deprecated span ("`" ++ key.text ++ "` is deprecated")]
        else []
      if ← isAccessible p doc t node m then return deprecated
      return deprecated ++
        [.of .accessInvisible span ("`" ++ key.text ++ "` is not accessible here")]
  | _, _ => return []

def findingsAt (node : ElementId) : Search (List Diagnostic) :=
  match t.kind node with
  | .nameExpr => return nameFindings p doc t node
  | .indexExpr => indexFindings p doc t node
  | _ => return []

def namePass : Search (List Diagnostic) := do
  let unused := ((p.index.declTree? doc).map unusedLocals).getD []
  let found ← (t.descendants Tree.root).mapM (findingsAt p doc t)
  return unused ++ found.flatten

end LuaAnalysis.Report
