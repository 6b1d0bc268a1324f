import Mathlib.Data.List.Basic
import LuaAnalysis.Syntax.EventLog
import LuaAnalysis.Syntax.Lexer

namespace LuaAnalysis.Syntax

mutual

/-- What stands side by side in a log, the last written outermost. -/
inductive Forest where
  | nil
  | token (before : Forest) (kind : TokenKind) (span : Span)
  | fault (before : Forest) (fault : Fault) (span : Span)
  /-- A node that was given up with something in it. -/
  | blank (before : Forest)
  | branch (before : Forest) (branch : Branch)

/-- A closed node, or one that was opened later around a closed one. -/
inductive Branch where
  | node (kind : NodeKind) (inside : Forest)
  | around (first : Branch) (kind : NodeKind) (inside : Forest)

end

/-- The distance that a start event tells if a node comes around its own, whose events take `length`
places. -/
def wrapperOf (wrapped : Bool) (length : Nat) : Option Nat := if wrapped then some length else none

mutual

def Forest.encode : Forest → List Event
  | .nil => []
  | .token f kind span => f.encode ++ [.token kind span]
  | .fault f e span => f.encode ++ [.fault e span]
  | .blank f => f.encode ++ [.blank]
  | .branch f b => f.encode ++ b.encode false

/-- The events of a node. The flag says whether another one comes around it. -/
def Branch.encode (wrapped : Bool) : Branch → List Event
  | .node kind inside =>
    .start kind (wrapperOf wrapped (inside.encode.length + 2)) :: inside.encode ++ [.finish]
  | .around first kind inside =>
    first.encode true ++ .start kind (wrapperOf wrapped (inside.encode.length + 2)) ::
      inside.encode ++ [.finish]

end

mutual

def Forest.leaves : Forest → List Token
  | .nil => []
  | .token f kind span => f.leaves ++ [⟨kind, span⟩]
  | .fault f _ _ => f.leaves
  | .blank f => f.leaves
  | .branch f b => f.leaves ++ b.leaves

def Branch.leaves : Branch → List Token
  | .node _ inside => inside.leaves
  | .around first _ inside => first.leaves ++ inside.leaves

end

namespace Forest

def append (f : Forest) : Forest → Forest
  | .nil => f
  | .token g kind span => .token (append f g) kind span
  | .fault g e span => .fault (append f g) e span
  | .blank g => .blank (append f g)
  | .branch g b => .branch (append f g) b

theorem encode_append (f : Forest) : ∀ g : Forest, (f.append g).encode = f.encode ++ g.encode
  | .nil => by simp [append, encode]
  | .token g _ _ => by simp [append, encode, encode_append f g]
  | .fault g _ _ => by simp [append, encode, encode_append f g]
  | .blank g => by simp [append, encode, encode_append f g]
  | .branch g _ => by simp [append, encode, encode_append f g]

theorem leaves_append (f : Forest) : ∀ g : Forest, (f.append g).leaves = f.leaves ++ g.leaves
  | .nil => by simp [append, leaves]
  | .token g _ _ => by simp [append, leaves, leaves_append f g]
  | .fault g _ _ => leaves_append f g
  | .blank g => leaves_append f g
  | .branch g _ => by simp [append, leaves, leaves_append f g]

end Forest

namespace Branch

def kind : Branch → NodeKind
  | .node kind _ => kind
  | .around _ kind _ => kind

def inside : Branch → Forest
  | .node _ inside => inside
  | .around _ _ inside => inside

/-- The events before the start event of the outermost node. -/
def front : Branch → List Event
  | .node _ _ => []
  | .around first _ _ => first.encode true

theorem encode_eq (b : Branch) (wrapped : Bool) : b.encode wrapped =
    b.front ++ .start b.kind (wrapperOf wrapped (b.inside.encode.length + 2)) :: b.inside.encode ++
    [.finish] := by
  cases b <;> simp [Branch.encode, front, Branch.kind, inside]

theorem length_encode (b : Branch) (wrapped : Bool) :
    (b.encode wrapped).length = b.front.length + (b.inside.encode.length + 2) := by
  rw [encode_eq]
  simp only [List.length_append, List.length_cons, List.length_nil]
  omega

end Branch

namespace EventLog

variable {log : EventLog} {pre : List Event}

theorem toList_openNode (log : EventLog) : log.openNode.1.toList = log.toList ++ [.blank] := by
  simp [openNode]

theorem position_openNode (log : EventLog) : log.openNode.2.position = log.size := by
  simp [openNode]

theorem toList_report (log : EventLog) (fault : Fault) (span : Span) :
    (log.report fault span).toList = log.toList ++ [.fault fault span] := by
  simp [report]

theorem modify_append_length {α : Type} (pre : List α) (a : α) (post : List α) (f : α → α) :
    (pre ++ a :: post).modify pre.length f = pre ++ f a :: post := by
  induction pre with
  | nil => rfl
  | cons b pre ih => simp [ih]

theorem toList_modify_of_eq {e : Event} {post : List Event} (h : log.toList = pre ++ e :: post)
    (f : Event → Event) : (log.modify pre.length f).toList = pre ++ f e :: post := by
  rw [Array.toList_modify, h, modify_append_length]

theorem toList_close {f : Forest} (h : log.toList = pre ++ .blank :: f.encode) (kind : NodeKind) :
    (log.close ⟨pre.length⟩ kind).1.toList = pre ++ (Branch.node kind f).encode false := by
  simp only [close, setKind, Array.toList_push, Event.blank] at h ⊢
  rw [toList_modify_of_eq h]
  simp [Branch.encode, wrapperOf]

theorem toList_wrap {b : Branch} (h : log.toList = pre ++ b.encode false) :
    (log.wrap ⟨pre.length + b.front.length⟩).1.toList = pre ++ b.encode true ++ [.blank] := by
  have hsize : log.size = pre.length + (b.front.length + (b.inside.encode.length + 2)) := by
    rw [← Array.length_toList, h, List.length_append, Branch.length_encode]
  have hlog : (log.openNode.1).toList = (pre ++ b.front) ++
      .start b.kind none :: (b.inside.encode ++ [.finish] ++ [.blank]) := by
    rw [toList_openNode, h, Branch.encode_eq]
    simp [wrapperOf]
  simp only [wrap, setWrapper]
  rw [← List.length_append, toList_modify_of_eq hlog, Branch.encode_eq, position_openNode, hsize]
  simp [wrapperOf]
  omega

theorem position_wrap {b : Branch} (h : log.toList = pre ++ b.encode false) (c : ClosedNode) :
    (log.wrap c).2.position = (pre ++ b.encode true).length := by
  have hsize : log.size = pre.length + (b.encode false).length := by
    rw [← Array.length_toList, h, List.length_append]
  simp [wrap, position_openNode, hsize, Branch.length_encode]

theorem toList_close_around {first : Branch} {f : Forest}
    (h : log.toList = pre ++ first.encode true ++ .blank :: f.encode) (kind : NodeKind) :
    (log.close ⟨(pre ++ first.encode true).length⟩ kind).1.toList =
      pre ++ (Branch.around first kind f).encode false := by
  rw [toList_close h]
  simp [Branch.encode]

theorem toList_abandon {e : Event} {events : List Event}
    (h : log.toList = pre ++ .blank :: (events ++ [e])) :
    (log.abandon ⟨pre.length⟩).toList = log.toList := by
  have hsize : log.size = pre.length + 1 + (events.length + 1) := by
    rw [← Array.length_toList, h]
    simp
    omega
  have hne : ¬ pre.length + 1 = log.size := by omega
  rw [abandon, if_neg hne]

end EventLog

end LuaAnalysis.Syntax
