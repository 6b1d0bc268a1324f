/-!
Paths of files, by their components. Repeated slashes, a slash at the end and dots other than at the
start make no difference, so two paths are compared by their components.
-/

namespace LuaAnalysis.Document

inductive PathPart where
  | root
  | here
  | up
  | name (name : String)
deriving DecidableEq, Repr, Inhabited

namespace Path

def isAbsolute (path : String) : Bool := path.toList.head? == some '/'

def segments (path : String) : List String := path.splitOn "/"

def partOf (segment : String) : Option PathPart :=
  if segment == "" || segment == "." then none
  else if segment == ".." then some .up
  else some (.name segment)

/-- The parts of a path. A dot counts only as the first segment of a relative path. -/
def parts (path : String) : List PathPart :=
  let rest := (segments path).filterMap partOf
  if isAbsolute path then .root :: rest
  else if (segments path).head? == some "." then .here :: rest
  else rest

def rank : PathPart → Nat
  | .root => 0
  | .here => 1
  | .up => 2
  | .name _ => 3

def comparePart : PathPart → PathPart → Ordering
  | .name a, .name b => compare a b
  | a, b => compare (rank a) (rank b)

def compareParts : List PathPart → List PathPart → Ordering
  | [], [] => .eq
  | [], _ => .lt
  | _, [] => .gt
  | a :: r, b :: s => (comparePart a b).then (compareParts r s)

def cmp (a b : String) : Ordering := compareParts (parts a) (parts b)

def same (a b : String) : Bool := parts a == parts b

def dropFront? : List PathPart → List PathPart → Option (List PathPart)
  | [], rest => some rest
  | _, [] => none
  | a :: r, b :: s => if a = b then dropFront? r s else none

def below? (root path : String) : Option (List PathPart) := dropFront? (parts root) (parts path)

def fileName? (path : String) : Option String :=
  match (parts path).getLast? with
  | some (.name n) => some n
  | _ => none

def folder (path : String) : List PathPart :=
  match parts path with
  | [.root] => []
  | ps => ps.dropLast

/-- What follows the last dot of the file name, if anything stands before that dot. -/
def extension? (path : String) : Option String :=
  match fileName? path with
  | none => none
  | some n =>
    match n.toList.reverse.span (· != '.') with
    | (ext, _ :: _ :: _) => some (String.ofList ext.reverse)
    | _ => none

def slashed (ps : List PathPart) : String :=
  "/".intercalate (ps.filterMap fun
    | .name n => some n
    | _ => none)

def partText : PathPart → String
  | .root => ""
  | .here => "."
  | .up => ".."
  | .name n => n

def ofParts (ps : List PathPart) : String := "/".intercalate (ps.map partText)

def join (dir path : String) : String :=
  if isAbsolute path then path
  else if dir.isEmpty || dir.toList.getLast? == some '/' then dir ++ path
  else dir ++ "/" ++ path

end Path

end LuaAnalysis.Document
