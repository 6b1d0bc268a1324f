import Mathlib.Data.List.Forall2
import LuaAnalysis.Proofs.Syntax.Outline

namespace LuaAnalysis.Syntax

def Blanks (events left : List Event) : Prop :=
  List.Forall₂ (fun e e' => e' = e ∨ e' = .blank) events left

namespace Blanks

variable {events left rest : List Event}

theorem refl (events : List Event) : Blanks events events :=
  List.forall₂_same.2 fun _ _ => .inl rfl

theorem trans (h : Blanks events left) (h' : Blanks left rest) : Blanks events rest := by
  induction h generalizing rest with
  | nil => exact h'
  | cons he _ ih =>
    cases h' with
    | cons he' h' =>
      refine .cons ?_ (ih h')
      rcases he' with rfl | rfl
      · exact he
      · exact .inr rfl

theorem set (events : List Event) (i : Nat) : Blanks events (events.set i .blank) := by
  induction events generalizing i with
  | nil => exact .nil
  | cons e events ih =>
    cases i with
    | zero => exact .cons (.inr rfl) (Blanks.refl events)
    | succ i => exact .cons (.inl rfl) (ih i)

theorem drop (h : Blanks events left) (n : Nat) : Blanks (events.drop n) (left.drop n) :=
  List.forall₂_drop n h

theorem filterMap_sublist {α : Type} (h : Blanks events left) {f : Event → Option α}
    (hf : f .blank = none) : (left.filterMap f).Sublist (events.filterMap f) := by
  induction h with
  | nil => exact .slnil
  | @cons e e' events left he _ ih =>
    rcases he with rfl | rfl
    · cases hvalue : f e' with
      | none => simpa [List.filterMap_cons, hvalue] using ih
      | some a => simpa [List.filterMap_cons, hvalue] using ih
    · cases hvalue : f e with
      | none => simpa [List.filterMap_cons, hvalue, hf] using ih
      | some a => simpa [List.filterMap_cons, hvalue, hf] using ih.cons a

theorem count_finish_le (h : Blanks events left) : left.count .finish ≤ events.count .finish := by
  induction h with
  | nil => exact Nat.le_refl _
  | cons he _ ih =>
    rcases he with rfl | rfl
    · simpa [List.count_cons] using ih
    · rw [List.count_cons_of_ne (by decide)]
      exact Nat.le_trans ih List.count_le_count_cons

end Blanks

theorem EventLog.drop_eq (log : EventLog) (position : Nat) :
    log.toList.drop position = log[position]?.toList ++ log.toList.drop (position + 1) := by
  by_cases hposition : position < log.size
  · rw [List.drop_eq_getElem_cons (by simpa using hposition), Array.getElem?_eq_getElem hposition]
    rfl
  · have hnil : ∀ n, position ≤ n → log.toList.drop n = [] := fun n hn =>
      List.drop_eq_nil_of_le (by rw [Array.length_toList]; omega)
    rw [hnil _ (Nat.le_refl _), hnil _ (Nat.le_succ _)]
    simpa using hposition

namespace TreeBuilder

theorem blanks_takeWrappers (fuel : Nat) (log : EventLog) (position : Nat) (distance : Option Nat)
    (kinds : List NodeKind) :
    Blanks log.toList (takeWrappers fuel log position distance kinds).1.toList := by
  induction fuel generalizing log position distance kinds with
  | zero => exact .refl _
  | succ fuel ih =>
    cases distance with
    | none => exact .refl _
    | some distance =>
      have hset : Blanks log.toList (log.setIfInBounds (position + distance) .blank).toList := by
        rw [Array.toList_setIfInBounds]
        exact .set _ _
      rw [takeWrappers]
      split
      · exact hset.trans (ih _ _ _ _)
      · exact hset

theorem blanks_replay (log : EventLog) (position : Nat) (b : TreeBuilder)
    (errors : List SyntaxError) : Blanks log.toList (replay log position b errors).1.toList := by
  unfold replay
  split
  · exact blanks_takeWrappers _ _ _ _ _
  all_goals exact .refl _

/-- How many of the next `count` events from a position on are finish events that find no node
open. -/
def unmatchedFrom : Nat → Nat → EventLog → TreeBuilder → Nat
  | 0, _, _, _ => 0
  | count + 1, position, log, b =>
    let (later, b', _) := replay log position b []
    let rest := unmatchedFrom count (position + 1) later b'
    if log[position]? = some .finish ∧ b.opened = [] then rest + 1 else rest

def nodeCount (b : TreeBuilder) : Nat := b.rows.countP Row.isNode

theorem countP_spine (kinds : List NodeKind) (parent : Option ElementId) (start : ElementId) :
    (spine kinds parent start).countP Row.isNode = kinds.length := by
  induction kinds generalizing parent start with
  | nil => rfl
  | cons kind kinds ih => rw [spine, List.countP_cons_of_pos rfl, ih, List.length_cons]

variable {b : TreeBuilder}

theorem OpensNodes.token (h : b.OpensNodes) (kind : TokenKind) (span : Span) :
    (b.token kind span).OpensNodes :=
  h.extend (rows_token b kind span) rfl

theorem replay_counts (h : b.OpensNodes) (log : EventLog) (position : Nat)
    (errors : List SyntaxError) : (replay log position b errors).2.1.OpensNodes ∧
      (replay log position b errors).2.1.nodeCount + b.opened.length =
        b.nodeCount + (replay log position b errors).2.1.opened.length +
          if log[position]? = some .finish ∧ b.opened ≠ [] then 1 else 0 := by
  unfold replay
  split
  · rename_i kind wrapper hget
    obtain ⟨hrows, hopened, hnodes⟩ := foldl_openNode
      ((takeWrappers log.size log position wrapper [kind]).2.filter (· != .absent)) h
    refine ⟨hnodes, ?_⟩
    rw [nodeCount, nodeCount, hrows, hopened, List.countP_append, countP_spine, hget]
    simp [openIds]
    omega
  · rename_i kind span hget
    refine ⟨h.token kind span, ?_⟩
    have hopened : (b.token kind span).opened = b.opened := rfl
    rw [nodeCount, nodeCount, rows_token, hopened, hget]
    simp [Row.isNode, Row.token]
  · rename_i hget
    exact ⟨h, by simp [hget]⟩
  · rename_i hget
    obtain ⟨hrows, hopened, hnodes⟩ := h.finishNode
    refine ⟨hnodes, ?_⟩
    rw [nodeCount, nodeCount, hrows, hopened, hget]
    cases b.opened <;> simp
    omega
  · rename_i hget
    exact ⟨h, by simp [hget]⟩

theorem count_finish_drop (log : EventLog) (position : Nat) :
    (log.toList.drop position).count .finish = (log.toList.drop (position + 1)).count .finish +
    if log[position]? = some .finish then 1 else 0 := by
  rw [log.drop_eq position, List.count_append]
  cases log[position]? with
  | none => simp
  | some e => simp [List.count_singleton, Nat.add_comm]

theorem replay_errors (log : EventLog) (position : Nat) (b : TreeBuilder)
    (errors : List SyntaxError) : (replay log position b errors).1 = (replay log position b []).1 ∧
      (replay log position b errors).2.1 = (replay log position b []).2.1 := by
  unfold replay
  split <;> exact ⟨rfl, rfl⟩

theorem unmatchedFrom_le (h : b.OpensNodes) (count position : Nat) (log : EventLog)
    (errors : List SyntaxError) : unmatchedFrom count position log b +
    (replayFrom count position log b errors).1.nodeCount + b.opened.length ≤ b.nodeCount +
    (replayFrom count position log b errors).1.opened.length +
    (log.toList.drop position).count .finish := by
  induction count generalizing position log b errors with
  | zero =>
    rw [unmatchedFrom, replayFrom]
    dsimp only
    omega
  | succ count ih =>
    obtain ⟨hnodes, hcounts⟩ := replay_counts h log position errors
    obtain ⟨hlog, hbuilder⟩ := replay_errors log position b errors
    have hleft := ((blanks_replay log position b errors).drop (position + 1)).count_finish_le
    have hdrop := count_finish_drop log position
    rw [replayFrom, unmatchedFrom]
    dsimp only
    rw [← hlog, ← hbuilder]
    generalize replay log position b errors = next at hnodes hcounts hleft ⊢
    obtain ⟨later, b', errors'⟩ := next
    have hrest := ih hnodes (position + 1) later errors'
    dsimp only at hcounts hleft hrest ⊢
    by_cases hfinish : log[position]? = some .finish
    · by_cases hopened : b.opened = []
      · simp only [hfinish, hopened, ne_eq, not_true_eq_false, and_false, and_self,
          if_true, if_false, List.length_nil] at hcounts hdrop ⊢
        omega
      · simp only [hfinish, hopened, ne_eq, not_false_eq_true, and_self, and_false, if_true,
          if_false] at hcounts hdrop ⊢
        omega
    · simp only [hfinish, false_and, if_false] at hcounts hdrop ⊢
      omega

end TreeBuilder

mutual

theorem Forest.count_finish : ∀ (f : Forest) (parent : Option ElementId) (start : ElementId),
    f.encode.count .finish = (f.outline parent start).countP Row.isNode
  | .nil, _, _ => rfl
  | .token f _ _, parent, start => by
    rw [Forest.encode, Forest.outline, List.count_append, List.countP_append,
      f.count_finish parent start]
    rfl
  | .fault f _ _, parent, start => by
    rw [Forest.encode, Forest.outline, List.count_append, f.count_finish parent start]
    rfl
  | .blank f, parent, start => by
    rw [Forest.encode, Forest.outline, List.count_append, f.count_finish parent start]
    rfl
  | .branch f b, parent, start => by
    have hbranch := b.count_finish false [] parent (start + (f.outline parent start).length)
    rw [List.length_nil, Nat.add_zero] at hbranch
    rw [Forest.encode, Forest.outline, List.count_append, List.countP_append,
      f.count_finish parent start, hbranch]

theorem Branch.count_finish :
    ∀ (b : Branch) (wrapped : Bool) (outer : List NodeKind) (parent : Option ElementId)
    (start : ElementId), (b.encode wrapped).count .finish + outer.length =
    (b.outline outer parent start).countP Row.isNode
  | .node kind inside, wrapped, outer, parent, start => by
    have hinside := inside.count_finish (some (start + outer.length)) (start + outer.length + 1)
    rw [Branch.encode, Branch.outline, List.countP_append, TreeBuilder.countP_spine, ← hinside,
      List.cons_append, List.count_cons_of_ne (by simp), List.count_append,
      List.count_singleton_self, List.length_append,
      List.length_singleton]
    omega
  | .around first kind inside, wrapped, outer, parent, start => by
    have hfirst := first.count_finish true (outer ++ [kind]) parent start
    have hinside := inside.count_finish (some (start + outer.length))
      (start + (first.outline (outer ++ [kind]) parent start).length)
    rw [List.length_append, List.length_singleton] at hfirst
    rw [Branch.encode, Branch.outline, List.countP_append, ← hfirst, ← hinside, List.append_assoc,
      List.count_append, List.cons_append, List.count_cons_of_ne (by simp), List.count_append,
      List.count_singleton_self]
    omega

end

theorem TreeBuilder.balanced {f : Forest} (hf : f.Proper false) {log : EventLog}
    (hlog : log.toList = f.encode) : (replayFrom log.size 0 log {} []).1.opened = [] ∧
    unmatchedFrom log.size 0 log {} = 0 := by
  have hnone : ({} : TreeBuilder).OpensNodes := fun id hid => by simp at hid
  obtain ⟨hrows, hopened, -⟩ := Forest.play_spec f ({}, []) hnone
  replace hopened : (f.play ({}, [])).1.opened = [] := hopened
  have hle := unmatchedFrom_le hnone log.size 0 log []
  rw [replayFrom_encode hf hlog] at hle ⊢
  have hcount : (f.play ({}, [])).1.nodeCount = f.encode.count .finish := by
    rw [nodeCount, hrows, f.count_finish none 0]
    rfl
  have hempty : ({} : TreeBuilder).opened.length = 0 ∧
      ({} : TreeBuilder).nodeCount = 0 := ⟨rfl, rfl⟩
  rw [hopened, hcount, hlog, List.drop_zero, List.length_nil] at hle
  exact ⟨hopened, by omega⟩

end LuaAnalysis.Syntax
