import LuaAnalysis.Report.Document
import LuaAnalysis.StdLib

/-!
A workspace in use. Reports of the whole workspace are made in passes, each of which has a number.
An edit cancels the pass under way, and so does the start of another one.
-/

namespace LuaAnalysis

open Document LuaAnalysis.Types Syntax Workspace Settings Inference Report

def Workspace.Project.withStd (settings : Settings) (std : Bool) : Project :=
  let p := Project.ofSettings settings
  if std then (p.addAll StdLib.documents).1 else p

structure Session where
  project : Project
  /-- The number of the newest pass. -/
  current : Nat := 0
  /-- The passes that were cancelled. -/
  cancelled : List Nat := []
deriving Inhabited

/-- The report of one document in a pass. -/
structure DocumentReport where
  doc : DocId
  uri : Uri
  diagnostics : List Diagnostic
deriving Repr, Inhabited

namespace Session

def cancelPass (s : Session) : Session := { s with cancelled := s.current :: s.cancelled }

def beginPass (s : Session) : Session × Nat :=
  let s := s.cancelPass
  ({ s with current := s.current + 1 }, s.current + 1)

def isCancelled (s : Session) (pass : Nat) : Bool := s.cancelled.contains pass

def add (s : Session) (uri : Uri) (text : String) : Session × DocId :=
  let (p, id) := s.project.add uri text
  ({ s.cancelPass with project := p }, id)

def update (s : Session) (uri : Uri) (text : String) : Session × Option DocId :=
  match s.project.update? uri text with
  | some (p, id) => ({ s.cancelPass with project := p }, some id)
  | none => (s.cancelPass, none)

def remove (s : Session) (uri : Uri) : Session × Option DocId :=
  match s.project.remove? uri with
  | some (p, id) => ({ s.cancelPass with project := p }, some id)
  | none => (s.cancelPass, none)

def reports (p : Project) (polls : Option Nat) : Except ReportError (List DocumentReport) :=
  p.store.sources.entries.mapM fun (doc, source) => do
    pure ⟨doc, source.uri, ← diagnose p doc polls⟩

def runPass (s : Session) (pass : Nat) : Except ReportError (List DocumentReport) :=
  reports s.project (if s.isCancelled pass then some 0 else none)

def diagnoseAll (s : Session) : Session × Except ReportError (List DocumentReport) :=
  let (s, pass) := s.beginPass
  (s, s.runPass pass)

/-- Reports on the whole workspace after a pause, in which other things happen to the session. -/
def diagnoseAfter (s : Session) (pause : Session → Session) :
    Session × Except ReportError (List DocumentReport) :=
  let (s, pass) := s.beginPass
  let s := pause s
  (s, if s.isCancelled pass then .error .cancelled else s.runPass pass)

def typeAt (p : Project) (source : Source) (position : Text.Position) : Option String := do
  let t := source.tree
  let token ← t.tokenAt? (source.lines.offset position)
  if ((t.tokenKind? token).map (·.isTrivia)).getD false then none
  else
    let node ← t.parent? token
    pure (run do showType p (← inferElement p (fullEngine p) ⟨source.id, node⟩))

end Session

end LuaAnalysis
