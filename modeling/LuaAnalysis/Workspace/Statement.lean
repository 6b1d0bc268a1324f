import LuaAnalysis.Syntax.Tree

namespace LuaAnalysis.Workspace

open Syntax

def assignedValues (t : Tree) (node : ElementId) : List ElementId :=
  match t.kind node with
  | .localStat => t.exprs node
  | .assignStat =>
    match t.childToken? node .assign with
    | some assign => (t.exprs node).filter fun e => (t.span assign).stop ≤ (t.span e).start
    | none => []
  | .tableField => (t.exprs node).getLast?.toList
  | _ => []

def assignTargets (t : Tree) (node : ElementId) : List ElementId :=
  match t.childToken? node .assign with
  | some assign => (t.exprs node).filter fun e => (t.span e).stop ≤ (t.span assign).start
  | none => []

def definedClosure? (t : Tree) (node : ElementId) : Option ElementId :=
  match t.kind node with
  | .localFuncStat | .funcStat => t.child? node .closureExpr
  | .localStat | .assignStat | .tableField =>
    match (assignedValues t node).head? with
    | some value => if t.kind value == .closureExpr then some value else none
    | none => none
  | _ => none

end LuaAnalysis.Workspace
