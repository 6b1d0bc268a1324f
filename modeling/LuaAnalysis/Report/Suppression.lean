import LuaAnalysis.Report.Code

namespace LuaAnalysis.Report

inductive SuppressionAction where
  | disable | enable | disableNextLine | disableLine
deriving DecidableEq, Repr, Inhabited

def SuppressionAction.ofWord? : String → Option SuppressionAction
  | "disable" => some .disable
  | "enable" => some .enable
  | "disable-next-line" => some .disableNextLine
  | "disable-line" => some .disableLine
  | _ => none

/-- One comment, by the line it stands on. Without codes it is about every code. -/
structure Suppression where
  action : SuppressionAction
  codes : List Code
  line : Nat
deriving DecidableEq, Repr, Inhabited

namespace Suppression

def covers (s : Suppression) (code : Code) : Bool := s.codes.isEmpty || s.codes.contains code

/-- Whether a comment is about one line and that line is `line`. -/
def hitsLine (line : Nat) (s : Suppression) : Bool :=
  match s.action with
  | .disableLine => s.line == line
  | .disableNextLine => s.line + 1 == line
  | .disable | .enable => false

/-- What a comment switches from its line on, if that is at or before `line`. -/
def switches? (line : Nat) (s : Suppression) : Option Bool :=
  match s.action with
  | .disable => if s.line ≤ line then some true else none
  | .enable => if s.line ≤ line then some false else none
  | .disableLine | .disableNextLine => none

end Suppression

/-- Goes through comments in turn, given whether a code is switched off so far. One that is about
the line alone settles the matter. -/
def offAfter (code : Code) (line : Nat) : Bool → List Suppression → Bool
  | off, [] => off
  | off, s :: rest =>
    if !s.covers code then offAfter code line off rest
    else if s.hitsLine line then true
    else offAfter code line ((s.switches? line).getD off) rest

/-- Whether a code is switched off on a line. Comments count in the order of their lines, those on
one line in the order in which they are listed. -/
def isSuppressed (suppressions : List Suppression) (code : Code) (line : Nat) : Bool :=
  offAfter code line false (suppressions.mergeSort fun a b => a.line ≤ b.line)

end LuaAnalysis.Report
