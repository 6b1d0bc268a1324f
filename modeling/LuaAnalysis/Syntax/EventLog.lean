import LuaAnalysis.Syntax.Fault
import LuaAnalysis.Syntax.NodeKind

/-!
The log that parsing leaves and from which the tree is built. A node is opened by a start event and
closed by a finish event. A node that is closed can still be wrapped: the start event of the
wrapping node comes later in the log, and the start event of the wrapped node says how much later.
-/

namespace LuaAnalysis.Syntax

inductive Event where
  /-- Opens a node. `wrapper` is the distance to the start event of the node around this one. -/
  | start (kind : NodeKind) (wrapper : Option Nat)
  | token (kind : TokenKind) (span : Span)
  | fault (fault : Fault) (span : Span)
  | finish
deriving DecidableEq, Repr, Inhabited

def Event.blank : Event := .start .absent none

abbrev EventLog := Array Event

/-- An open node, by the position of its start event. -/
structure Marker where
  position : Nat
deriving DecidableEq, Repr, Inhabited

/-- A closed node, by the position of its start event. -/
structure ClosedNode where
  position : Nat
deriving DecidableEq, Repr, Inhabited

namespace EventLog

def openNode (log : EventLog) : EventLog × Marker :=
  let log := log.push .blank
  (log, ⟨log.size - 1⟩)

def setKind (log : EventLog) (position : Nat) (kind : NodeKind) : EventLog :=
  log.modify position fun
    | .start _ wrapper => .start kind wrapper
    | e => e

def setWrapper (log : EventLog) (position distance : Nat) : EventLog :=
  log.modify position fun
    | .start kind _ => .start kind (some distance)
    | e => e

def close (log : EventLog) (m : Marker) (kind : NodeKind) : EventLog × ClosedNode :=
  ((log.setKind m.position kind).push .finish, ⟨m.position⟩)

/-- Gives a node up. What stands in it already falls to the node around it. -/
def abandon (log : EventLog) (m : Marker) : EventLog :=
  if m.position + 1 = log.size then log.pop else log

def wrap (log : EventLog) (c : ClosedNode) : EventLog × Marker :=
  let (log, m) := log.openNode
  (log.setWrapper c.position (m.position - c.position), m)

def kindOf (log : EventLog) (c : ClosedNode) : NodeKind :=
  match log[c.position]? with
  | some (.start kind _) => kind
  | _ => .absent

def report (log : EventLog) (fault : Fault) (span : Span) : EventLog := log.push (.fault fault span)

end EventLog

end LuaAnalysis.Syntax
