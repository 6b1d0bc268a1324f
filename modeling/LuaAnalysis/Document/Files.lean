import LuaAnalysis.Document.Uri

namespace LuaAnalysis.Document

inductive FileError where
  /-- A file could not be read. -/
  | unreadable
  /-- A directory could not be walked. -/
  | noDirectory
  /-- A path has no reference. -/
  | noUri (path : String)
deriving DecidableEq, Repr, Inhabited

def isSourcePath (path : String) : Bool := Path.extension? path == some "lua"

/-- Files by their paths, of which no two are the same. -/
structure MemoryFiles where
  files : List (String × String) := []
deriving Repr, Inhabited

/-- What a program can ask about files. -/
structure FileAccess where
  read : String → Except FileError String
  /-- The source files at or below a path, in order. -/
  sources : String → Except FileError (List String)
  /-- The directory that relative paths start from. -/
  current : String

def sortPaths (paths : List String) : List String := paths.mergeSort fun a b => (Path.cmp a b).isLE

namespace MemoryFiles

def write (m : MemoryFiles) (path text : String) : MemoryFiles :=
  if m.files.any fun f => Path.same f.1 path then
    ⟨m.files.map fun f => if Path.same f.1 path then (f.1, text) else f⟩
  else ⟨m.files ++ [(path, text)]⟩

def ofList (files : List (String × String)) : MemoryFiles :=
  files.foldl (fun m f => m.write f.1 f.2) {}

def read? (m : MemoryFiles) (path : String) : Option String :=
  (m.files.find? fun f => Path.same f.1 path).map (·.2)

def sourcesBelow (m : MemoryFiles) (root : String) : List String :=
  sortPaths ((m.files.map (·.1)).filter fun p => (Path.below? root p).isSome && isSourcePath p)

def access (m : MemoryFiles) (current : String) : FileAccess where
  read path := match m.read? path with
    | some text => .ok text
    | none => .error .unreadable
  sources root := .ok (m.sourcesBelow root)
  current := current

end MemoryFiles

/-- A tree of directories with files in them, each by the names that lead to it from the root of the
tree. A directory is there if something is below it or if it is among the folders. -/
structure Directory where
  files : List (List String × String)
  folders : List (List String)
  /-- The directory that relative paths start from. -/
  current : List String
deriving Repr, Inhabited

namespace Directory

def stepFrom (here : List String) : PathPart → List String
  | .root => []
  | .here => here
  | .up => here.dropLast
  | .name n => here ++ [n]

def write (d : Directory) (names : List String) (text : String) : Directory :=
  if d.files.any fun f => f.1 == names then
    { d with files := d.files.map fun f => if f.1 == names then (names, text) else f }
  else { d with files := d.files ++ [(names, text)] }

def ofList (current : String) (files : List (String × String)) : Directory :=
  let names (path : String) : List String := (Path.parts path).foldl stepFrom []
  files.foldl (fun d (path, text) => d.write (names (Path.join current path)) text)
    ⟨[], [names current], names current⟩

def addFolder (d : Directory) (path : String) : Directory :=
  { d with folders := (Path.parts path).foldl stepFrom d.current :: d.folders }

def fileAt? (d : Directory) (names : List String) : Option String :=
  (d.files.find? fun f => f.1 == names).map (·.2)

def isDirectoryAt (d : Directory) (names : List String) : Bool :=
  d.folders.any (names.isPrefixOf ·) || d.files.any fun f => names.isPrefixOf f.1 && f.1 != names

def follow (d : Directory) (here : List String) : List String → Option (List String)
  | [] => some here
  | segment :: rest =>
    if !d.isDirectoryAt here then none
    else if segment == "" || segment == "." then follow d here rest
    else if segment == ".." then follow d here.dropLast rest
    else follow d (here ++ [segment]) rest

def resolve? (d : Directory) (path : String) : Option (List String) :=
  if path.isEmpty then none
  else follow d (if Path.isAbsolute path then [] else d.current) (Path.segments path)

def read? (d : Directory) (path : String) : Option String := (d.resolve? path).bind d.fileAt?

def isFile (d : Directory) (path : String) : Bool := (d.read? path).isSome

def isDirectory (d : Directory) (path : String) : Bool :=
  ((d.resolve? path).map d.isDirectoryAt).getD false

def isHiddenName (name : String) : Bool := name.toList.head? == some '.'

/-- The source files below a directory; a file stands for itself, whatever it is called. -/
def sourcesBelow (d : Directory) (root : String) : Except FileError (List String) :=
  if d.isFile root then .ok [root]
  else
    match d.resolve? root with
    | none => .error .noDirectory
    | some base =>
      if d.isDirectoryAt base then
        let below := d.files.filterMap fun (names, _) =>
          if base.isPrefixOf names then some (names.drop base.length) else none
        let seen := below.filter fun names => !names.any isHiddenName
        .ok (sortPaths
          ((seen.map fun names => Path.join root ("/".intercalate names)).filter isSourcePath))
      else .error .noDirectory

def makeFolders? (d : Directory) (here : List String) : List PathPart →
    Option (Directory × List String)
  | [] => some (d, here)
  | part :: rest =>
    let here := stepFrom here part
    if (d.fileAt? here).isSome then none
    else makeFolders? { d with folders := here :: d.folders } here rest

def openFile? (d : Directory) (folder : List PathPart) (name : String) : Option Directory := do
  let (d, here) ← d.makeFolders? d.current folder
  let names := here ++ [name]
  if d.isDirectoryAt names then none
  else if (d.fileAt? names).isSome then some d
  else some (d.write names "")

def access (d : Directory) : FileAccess where
  read path := match d.read? path with
    | some text => .ok text
    | none => .error .unreadable
  sources root := d.sourcesBelow root
  current := "/" ++ "/".intercalate d.current

end Directory

def loadSources (files : FileAccess) (roots : List String) :
    Except FileError (List (Uri × String)) := do
  let loaded ← roots.mapM fun root => do
    (← files.sources root).mapM fun path => do
      let text ← files.read path
      let path := Path.join files.current path
      match Uri.ofFilePath? path with
      | some uri => pure (uri, text)
      | none => throw (.noUri path)
  pure loaded.flatten

end LuaAnalysis.Document
