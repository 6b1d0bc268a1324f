import LuaAnalysis.Report.Code
import LuaAnalysis.Settings.JsonText
import LuaAnalysis.Settings.Version

/-!
The settings of a workspace. What is not set has a default. Each group of settings is written as an
object, in which unknown members are passed over and no known one may stand twice, or as an array of
its values in order.
-/

namespace LuaAnalysis.Settings

structure RuntimeSettings where
  version : Version := .lua54
  /-- What stands around the name of a module in the path of its file. -/
  requirePatterns : List String := ["?.lua", "?/init.lua"]
deriving Repr, Inhabited

structure WorkspaceSettings where
  /-- The directories from which module names are counted. -/
  roots : List String := []
deriving Repr, Inhabited

structure ReportSettings where
  disabled : List Report.Code := []
  severities : List (Report.Code × Report.Severity) := []
  /-- Globals that need no definition. -/
  globals : List String := []
  /-- The pause before a report of the whole workspace, in milliseconds. -/
  debounce : Nat := 300
deriving Repr, Inhabited

structure Settings where
  runtime : RuntimeSettings := {}
  workspace : WorkspaceSettings := {}
  report : ReportSettings := {}
deriving Repr, Inhabited

def ReportSettings.severity? (s : ReportSettings) (code : Report.Code) : Option Report.Severity :=
  (s.severities.find? (·.1 == code)).map (·.2)

namespace Json

def asString? : Json → Option String
  | .string text => text
  | _ => none

def list? {α : Type} (item : Json → Option α) : Json → Option (List α)
  | .array items => items.mapM item
  | _ => none

/-- One of a set of words, which may also be the only key of an object with nothing under it. -/
def choice? {α : Type} (ofWord? : String → Option α) : Json → Option α
  | .string text => text.bind ofWord?
  | .object [(some word, .null)] => ofWord? word
  | _ => none

def count? : Json → Option Nat
  | .number digits => (Text.digits? 10 digits.toList).bind fun n =>
    if n < UInt64.size then some n else none
  | _ => none

def group? (names : List String) : Json → Option (List (Option Json))
  | .array items =>
    if items.length ≤ names.length then
      some (items.map some ++ List.replicate (names.length - items.length) none)
    else none
  | .object members =>
    if members.all (·.1.isSome) then
      names.mapM fun name =>
        match members.filter (·.1 == some name) with
        | [] => some none
        | [(_, value)] => some (some value)
        | _ => none
    else none
  | _ => none

def orDefault {α : Type} (default : α) (read : Json → Option α) : Option Json → Option α
  | some value => read value
  | none => some default

/-- Severities by code. Of several for one code the last counts. -/
def severities? : Json → Option (List (Report.Code × Report.Severity))
  | .object members => do
    let pairs ← members.mapM fun (key, value) => do
      pure (← key.bind Report.Code.ofName?, ← choice? Report.Severity.ofWord? value)
    pure (Report.Code.all.filterMap fun code => pairs.reverse.find? (·.1 == code))
  | _ => none

def runtime? (j : Json) : Option RuntimeSettings := do
  match ← group? ["version", "require_pattern"] j with
  | [version, patterns] =>
    let base : RuntimeSettings := {}
    pure ⟨← orDefault base.version (choice? Version.ofLabel?) version,
      ← orDefault base.requirePatterns (list? asString?) patterns⟩
  | _ => none

def workspace? (j : Json) : Option WorkspaceSettings := do
  match ← group? ["roots"] j with
  | [roots] => pure ⟨← orDefault [] (list? asString?) roots⟩
  | _ => none

def report? (j : Json) : Option ReportSettings := do
  match ← group? ["disable", "severity", "globals", "debounce_ms"] j with
  | [disable, severity, globals, debounce] =>
    let base : ReportSettings := {}
    pure ⟨← orDefault [] (list? (choice? Report.Code.ofName?)) disable,
      ← orDefault [] severities? severity, ← orDefault [] (list? asString?) globals,
      ← orDefault base.debounce count? debounce⟩
  | _ => none

def settings? (j : Json) : Option Settings := do
  match ← group? ["runtime", "workspace", "diagnostics"] j with
  | [runtime, workspace, report] =>
    pure ⟨← orDefault {} runtime? runtime, ← orDefault {} workspace? workspace,
      ← orDefault {} report? report⟩
  | _ => none

end Json

def Settings.ofJson? (text : String) : Option Settings := (Json.parse? text).bind Json.settings?

end LuaAnalysis.Settings
