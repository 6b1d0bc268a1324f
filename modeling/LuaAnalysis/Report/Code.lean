import LuaAnalysis.Text.Span

namespace LuaAnalysis.Report

inductive Severity where
  | error | warning | information | hint
deriving DecidableEq, Repr, Inhabited

namespace Severity

def word : Severity → String
  | .error => "error"
  | .warning => "warning"
  | .information => "information"
  | .hint => "hint"

def ofWord? (word : String) : Option Severity :=
  [error, warning, information, hint].find? fun s => s.word == word

def label : Severity → String
  | .information => "info"
  | s => s.word

def number : Severity → Nat
  | .error => 1
  | .warning => 2
  | .information => 3
  | .hint => 4

end Severity

inductive Code where
  | syntaxError | typeNotMatch | paramTypeNotMatch | missingParameter | redundantParameter
  | undefinedGlobal | deprecated | missingReturn | returnTypeMismatch | discardReturns
  | awaitInSync | accessInvisible | unusedLocal | circleDocClass | duplicateType
deriving DecidableEq, Repr, Inhabited

namespace Code

def name : Code → String
  | .syntaxError => "syntax-error"
  | .typeNotMatch => "type-not-match"
  | .paramTypeNotMatch => "param-type-not-match"
  | .missingParameter => "missing-parameter"
  | .redundantParameter => "redundant-parameter"
  | .undefinedGlobal => "undefined-global"
  | .deprecated => "deprecated"
  | .missingReturn => "missing-return"
  | .returnTypeMismatch => "return-type-mismatch"
  | .discardReturns => "discard-returns"
  | .awaitInSync => "await-in-sync"
  | .accessInvisible => "access-invisible"
  | .unusedLocal => "unused-local"
  | .circleDocClass => "circle-doc-class"
  | .duplicateType => "duplicate-type"

/-- All codes, in the order in which a report lists those of one place. -/
def all : List Code :=
  [.syntaxError, .typeNotMatch, .paramTypeNotMatch, .missingParameter, .redundantParameter,
   .undefinedGlobal, .deprecated, .missingReturn, .returnTypeMismatch, .discardReturns,
   .awaitInSync, .accessInvisible, .unusedLocal,
   .circleDocClass, .duplicateType]

def ofName? (name : String) : Option Code := all.find? fun c => c.name == name

def unknownMessage (name : String) : String := "unknown diagnostic code `" ++ name ++ "`"

def rank (c : Code) : Nat := all.idxOf c

def severity : Code → Severity
  | .syntaxError | .typeNotMatch | .missingParameter | .circleDocClass | .duplicateType => .error
  | .deprecated | .unusedLocal => .hint
  | _ => .warning

end Code

structure Diagnostic where
  code : Code
  severity : Severity
  span : Span
  message : String
deriving DecidableEq, Repr, Inhabited

def Diagnostic.of (code : Code) (span : Span) (message : String) : Diagnostic :=
  ⟨code, code.severity, span, message⟩

end LuaAnalysis.Report
