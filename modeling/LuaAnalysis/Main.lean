import LuaAnalysis.Command.Check

/-!
The program. It takes a picture of the files that a command line is about, lets the command run on
that picture, and prints what comes of it.
-/

namespace LuaAnalysis.Command

open Document

/-- The directories and files that were seen. -/
structure Picture where
  folders : List String := []
  files : List (String × String) := []

def Picture.append (a b : Picture) : Picture := ⟨a.folders ++ b.folders, a.files ++ b.files⟩

def Picture.toDirectory (p : Picture) (current : String) : Directory :=
  p.folders.foldl Directory.addFolder (Directory.ofList current p.files)

def pictureFile (path : String) : IO Picture := do
  let place := (← IO.currentDir) / path
  if ← place.isDir then
    return ⟨[path], []⟩
  else if ← place.pathExists then
    return ⟨[], [(path, ← IO.FS.readFile path)]⟩
  else return {}

/-- The sources at or below a path. Names that start with a dot are passed over. -/
partial def pictureSources (path : String) : IO Picture := do
  let place := (← IO.currentDir) / path
  if ← place.isDir then
    let names := ((← place.readDir).map (·.fileName)).toList.filter fun n =>
      !Directory.isHiddenName n
    let below ← names.mapM fun (n : String) => do
      if (← (place / n).isDir) || isSourcePath n then pictureSources (Path.join path n)
        else return {}
    return below.foldl Picture.append ⟨[path], []⟩
  else pictureFile path

/-- Makes the log, so that it is there when the files are looked at. -/
def makeLog (path : String) : IO Unit := do
  let folder := (← IO.currentDir) / Path.ofParts (Path.folder path)
  IO.FS.createDirAll folder
  let _ ← IO.FS.Handle.mk (folder / logFileName path) .append

def pictureOf (options : CheckOptions) : IO Picture := do
  let named ← (options.config?.toList ++ options.logFile?.toList).mapM pictureFile
  let sources ← options.paths.mapM pictureSources
  return (named ++ sources).foldl Picture.append {}

def complain (text : String) : IO Unit := IO.eprintln (Report.toolName ++ ": " ++ text)

def Outcome.print (o : Outcome) : IO UInt32 := do
  o.output.forM IO.println
  o.complaint?.toList.forM complain
  return o.status.code

def orElse (status : ExitStatus) (act : IO UInt32) : IO UInt32 :=
  tryCatch act fun error => do
    complain (toString error)
    return status.code

end LuaAnalysis.Command

open LuaAnalysis Command

def main (args : List String) : IO UInt32 := orElse .failure do
  let current := (← IO.currentDir).toString
  match Request.ofArgs args with
  | .ok (.check options) =>
    orElse .noLog do
      options.logFile?.toList.forM makeLog
      orElse .failure do
        (run ((← pictureOf options).toDirectory current) args).print
  | _ => (run (Picture.toDirectory {} current) args).print
