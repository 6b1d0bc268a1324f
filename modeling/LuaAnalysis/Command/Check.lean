import LuaAnalysis.Command.Arguments
import LuaAnalysis.Document.Files
import LuaAnalysis.Report.Editor
import LuaAnalysis.Session

/-!
The command `check`: it reports on every source below some paths, a line for each finding, and tells
by its exit status whether an error is among them.
-/

namespace LuaAnalysis.Command

open Document Report Settings Workspace

inductive CheckError where
  | settings (path : String)
  | files (cause : FileError)
  | report (cause : ReportError)
deriving DecidableEq, Repr, Inhabited

def CheckError.message : CheckError → String
  | .settings path => "no settings can be read from " ++ path
  | .files .unreadable => "a file cannot be read"
  | .files .noDirectory => "a directory cannot be walked"
  | .files (.noUri path) => "invalid document uri: " ++ path
  | .report cause => cause.message

inductive ExitStatus where
  /-- Nothing worse than a warning was found. -/
  | success
  /-- An error was found. -/
  | errorsFound
  /-- The command was not carried out. -/
  | failure
  /-- The log could not be opened. -/
  | noLog
deriving DecidableEq, Repr, Inhabited

def ExitStatus.code : ExitStatus → UInt32
  | .success => 0
  | .errorsFound => 1
  | .failure => 2
  | .noLog => 101

/-- What a run leaves behind: what it prints, each entry on a line of its own, and what went wrong
if it did not get to its end. -/
structure Outcome where
  status : ExitStatus
  output : List String := []
  complaint? : Option String := none
deriving DecidableEq, Repr, Inhabited

/-- The printed lines. An entry that holds line breaks, as the name of a file may, spans several of
them. -/
def Outcome.lines (o : Outcome) : List String :=
  (o.output.flatMap (·.splitOn "\n")).map fun line => (line.dropSuffix "\r").toString

def readSettings (d : Directory) : Option String → Except CheckError Settings
  | none => .ok {}
  | some path =>
    match (d.read? path).bind Settings.ofJson? with
    | some settings => .ok settings
    | none => .error (.settings path)

/-- Modules are looked for below the checked directories, unless the settings name other roots. -/
def withRoots (d : Directory) (paths : List String) (settings : Settings) : Settings :=
  if settings.workspace.roots.isEmpty then
    let roots := (paths.filter d.isDirectory).map (Path.join d.access.current)
    { settings with workspace := { settings.workspace with roots := roots } }
  else settings

def displayName (source : Source) : String := source.path?.getD source.uri.text

/-- A finding as a line of output. Lines and columns are counted from one. -/
def findingLine (source : Source) (d : Diagnostic) : String :=
  let place := source.lines.position d.span.start
  displayName source ++ ":" ++ toString (place.line + 1) ++ ":" ++
  toString (place.column + 1) ++ ": " ++ d.severity.label ++ " [" ++ d.code.name ++
  "] " ++ d.message

def openProject (d : Directory) (options : CheckOptions) : Except CheckError Project := do
  let settings ← readSettings d options.config?
  let documents ← (loadSources d.access options.paths).mapError CheckError.files
  pure ((Project.withStd (withRoots d options.paths settings) true).addAll documents).1

def findings (d : Directory) (options : CheckOptions) :
    Except CheckError (List (Source × Diagnostic)) := do
  let project ← openProject d options
  let reports ← (Session.mk project 0 []).diagnoseAll.2.mapError CheckError.report
  pure (reports.flatMap fun r => (project.source? r.doc).toList.flatMap fun s =>
    r.diagnostics.map (s, ·))

def check (d : Directory) (options : CheckOptions) : Outcome :=
  match findings d options with
  | .ok found =>
    let failed := found.any fun f => f.2.severity == .error
    { status := if failed then .errorsFound else .success,
      output := found.map fun f => findingLine f.1 f.2 }
  | .error cause => { status := .failure, complaint? := some cause.message }

def logName : String := toolName ++ ".log"

def logFileName (path : String) : String := (Path.fileName? path).getD logName

def openLog? (d : Directory) : Option String → Option Directory
  | none => some d
  | some path => d.openFile? (Path.folder path) (logFileName path)

def versionLine : String := toolName ++ " 0.1.0"

def HelpTopic.lines : HelpTopic → List String
  | .program =>
    ["Type analysis for annotated Lua code",
      "",
      "Usage: lua-lsp <COMMAND>",
      "",
      "Commands:",
      "  check  Reports diagnostics for every Lua file under the given paths",
      "  help   Print this message or the help of the given subcommand(s)",
      "",
      "Options:",
      "  -h, --help     Print help",
      "  -V, --version  Print version"]
  | .check =>
    ["Reports diagnostics for every Lua file under the given paths",
      "",
      "Usage: lua-lsp check [OPTIONS] <PATHS>...",
      "",
      "Arguments:",
      "  <PATHS>...  ",
      "",
      "Options:",
      "      --config <CONFIG>      JSON analysis configuration",
      "      --log-file <LOG_FILE>  Write logs to this file instead of stderr",
      "  -v, --verbose              ",
      "  -h, --help                 Print help"]
  | .help =>
    ["Print this message or the help of the given subcommand(s)",
      "",
      "Usage: lua-lsp help [COMMAND]...",
      "",
      "Arguments:",
      "  [COMMAND]...  Print help for the subcommand(s)"]

def run (d : Directory) (args : List String) : Outcome :=
  match Request.ofArgs args with
  | .error cause => { status := .failure, complaint? := some cause.message }
  | .ok .version => { status := .success, output := [versionLine] }
  | .ok (.help topic) => { status := .success, output := topic.lines }
  | .ok (.check options) =>
    match openLog? d options.logFile? with
    | some d => check d options
    | none => { status := .noLog, complaint? := some "the log cannot be opened" }

end LuaAnalysis.Command
