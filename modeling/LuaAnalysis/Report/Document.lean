import LuaAnalysis.Report.Flow
import LuaAnalysis.Report.Names
import LuaAnalysis.Report.Suppression
import LuaAnalysis.Report.TypeDecls

namespace LuaAnalysis.Report

open Document Syntax Workspace Inference Settings

def passes (p : Project) (s : Source) : List (Search (List Diagnostic)) :=
  [pure (syntaxFindings s.tree), namePass p s.id s.tree, flowPass p s.id s.tree,
    pure (typePass p s.id)]

/-- Runs passes one after the other, up to where the search is cancelled. -/
def runPasses : List (Search (List Diagnostic)) → Search (List Diagnostic)
  | [] => return []
  | pass :: rest => do
    if ← Search.isCancelled then return []
    let found ← pass
    return found ++ (← runPasses rest)

def findings (p : Project) (s : Source) : Search (List Diagnostic) :=
  if p.index.isMeta s.id then return [] else runPasses (passes p s)

/-- Drops a finding that is equal to the one before it. -/
def dropRepeated : List Diagnostic → List Diagnostic
  | [] => []
  | [d] => [d]
  | d :: e :: rest => if d = e then dropRepeated (e :: rest) else d :: dropRepeated (e :: rest)

def isReported (settings : ReportSettings) (suppressions : List Suppression) (s : Source)
    (d : Diagnostic) : Bool :=
  !settings.disabled.contains d.code &&
    !isSuppressed suppressions d.code (s.lines.lineOf d.span.start)

def withSeverity (settings : ReportSettings) (d : Diagnostic) : Diagnostic :=
  { d with severity := (settings.severity? d.code).getD d.severity }

def comesBefore (a b : Diagnostic) : Bool :=
  a.span.start < b.span.start || (a.span.start == b.span.start && a.code.rank ≤ b.code.rank)

def arrange (settings : ReportSettings) (suppressions : List Suppression) (s : Source)
    (found : List Diagnostic) : List Diagnostic :=
  dropRepeated
    (((found.filter (isReported settings suppressions s)).map (withSeverity settings)).mergeSort
      comesBefore)

def checkDocument (p : Project) (s : Source) : Search (List Diagnostic) :=
  return arrange p.settings.report (p.index.suppressions s.id) s (← findings p s)

inductive ReportError where
  | unknownDocument (doc : DocId)
  | cancelled
deriving DecidableEq, Repr, Inhabited

def ReportError.message : ReportError → String
  | .unknownDocument doc => "unknown document id: DocumentId(" ++ toString doc ++ ")"
  | .cancelled => "analysis was cancelled"

/-- The report of a document, under a cancellation that shows after so many looks. A search that was
cancelled gives no report, not even a part of one. Whether the search ran out of fuel
(`SearchState.exhausted`) plays no part: what holds of every report also speaks of searches that
would go on without an end, and then of what was found when the fuel was gone. -/
def diagnose (p : Project) (doc : DocId) (polls : Option Nat) :
    Except ReportError (List Diagnostic) :=
  match p.source? doc with
  | none => .error (.unknownDocument doc)
  | some s =>
    let search : Search (List Diagnostic × Bool) := do
      let report ← checkDocument p s
      return (report, ← Search.isCancelled)
    match (search.run { polls := polls }).1 with
    | (_, true) => .error .cancelled
    | (report, false) => .ok report

end LuaAnalysis.Report
