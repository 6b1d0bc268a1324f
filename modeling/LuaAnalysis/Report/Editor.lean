import LuaAnalysis.Report.Code
import LuaAnalysis.Text.Lines

namespace LuaAnalysis.Report

structure EditorDiagnostic where
  start : Text.Position
  stop : Text.Position
  severity : Nat
  code : String
  /-- Who made the finding. -/
  source : String
  message : String
  /-- One for needless code, two for deprecated code. -/
  tags : List Nat
deriving DecidableEq, Repr, Inhabited

def toolName : String := "lua-lsp"

def Diagnostic.toEditor (d : Diagnostic) (lines : Text.Lines) : EditorDiagnostic where
  start := lines.position d.span.start
  stop := lines.position d.span.stop
  severity := d.severity.number
  code := d.code.name
  source := toolName
  message := d.message
  tags := match d.code with
    | .deprecated => [2]
    | .unusedLocal => [1]
    | _ => []

end LuaAnalysis.Report
