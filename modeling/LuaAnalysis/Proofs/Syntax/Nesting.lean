import Mathlib.Data.List.Pairwise
import LuaAnalysis.Proofs.Syntax.Balance
import LuaAnalysis.Proofs.Syntax.Preorder
import LuaAnalysis.Proofs.Text.Spans

namespace LuaAnalysis.Syntax

open LuaAnalysis.Text (Ascends)

theorem mem_childIds {id j start : Nat} {parents : List (Option ElementId)} :
    j ∈ childIds id start parents ↔ ∃ i, j = start + i ∧ parents[i]? = some (some id) := by
  induction parents generalizing start with
  | nil => simp [childIds]
  | cons parent parents ih =>
    have hrest : j ∈ childIds id (start + 1) parents ↔ ∃ i, j = start + (i + 1) ∧
        parents[i]? = some (some id) := by
      rw [ih]
      refine exists_congr fun i => and_congr_left fun _ => ?_
      rw [Nat.add_assoc, Nat.add_comm 1]
    rw [childIds]
    constructor
    · intro hj
      split at hj
      · rename_i hparent
        rcases List.mem_cons.1 hj with rfl | hj
        · exact ⟨0, rfl, congrArg some hparent⟩
        · obtain ⟨i, hi⟩ := hrest.1 hj
          exact ⟨i + 1, hi⟩
      · obtain ⟨i, hi⟩ := hrest.1 hj
        exact ⟨i + 1, hi⟩
    · rintro ⟨i, rfl, hi⟩
      cases i with
      | zero =>
        rw [if_pos (Option.some.inj hi)]
        exact List.mem_cons_self
      | succ i =>
        have hmem := hrest.2 ⟨i, rfl, hi⟩
        split
        · exact List.mem_cons_of_mem _ hmem
        · exact hmem

theorem pairwise_childIds (id start : Nat) (parents : List (Option ElementId)) :
    (childIds id start parents).Pairwise (· < ·) := by
  induction parents generalizing start with
  | nil => exact .nil
  | cons parent parents ih =>
    rw [childIds]
    split
    · refine .cons (fun j hj => ?_) (ih _)
      obtain ⟨i, rfl, -⟩ := mem_childIds.1 hj
      exact Nat.lt_of_lt_of_le (Nat.lt_succ_self start) (Nat.le_add_right _ i)
    · exact ih _

namespace TreeBuilder

def spanAt (b : TreeBuilder) (id : Nat) : Span := (b.elements[id]?.map (·.span)).getD (.empty 0)

def parentAt? (b : TreeBuilder) (id : Nat) : Option Nat := b.elements[id]?.bind (·.parent)

def closedSpan (b : TreeBuilder) (id : Nat) : Span :=
  (b.elements[id]?.bind (childrenHull? b.elements)).getD (b.spanAt id)

variable {b : TreeBuilder} {id : Nat} {kind : ElementKind} {span : Span}

theorem spanAt_push (b : TreeBuilder) (kind : ElementKind) (span : Span) (id : Nat) :
    (b.push kind span).spanAt id = if id = b.elements.size then span else b.spanAt id := by
  unfold push spanAt
  cases b.opened.head? with
  | none =>
    simp only [Array.getElem?_push]
    split <;> simp
  | some p =>
    simp only [Array.getElem?_modify, Array.getElem?_push]
    split <;> split <;> simp [Function.comp_def]

theorem parentAt?_push (b : TreeBuilder) (kind : ElementKind) (span : Span) (id : Nat) :
    (b.push kind span).parentAt? id = if id = b.elements.size then b.opened.head?
    else b.parentAt? id := by
  unfold push parentAt?
  cases b.opened.head? with
  | none =>
    simp only [Array.getElem?_push]
    split <;> simp
  | some p =>
    simp only [Array.getElem?_modify, Array.getElem?_push]
    split <;> split <;> simp [Option.bind_map, Function.comp_def]

theorem size_finishNode (b : TreeBuilder) : b.finishNode.elements.size = b.elements.size := by
  unfold finishNode
  split <;> simp

theorem parentAt?_finishNode (b : TreeBuilder) (id : Nat) :
    b.finishNode.parentAt? id = b.parentAt? id := by
  unfold finishNode parentAt?
  split
  · rfl
  · simp only [Array.getElem?_modify]
    split <;> simp [Option.bind_map, Function.comp_def]

theorem spanAt_finishNode {opened : List ElementId} (hopened : b.opened = id :: opened)
    (hid : id < b.elements.size) (i : Nat) : b.finishNode.spanAt i = if i = id then b.closedSpan id
    else b.spanAt i := by
  unfold finishNode spanAt
  simp only [hopened, Array.getElem?_modify]
  by_cases hi : i = id
  · subst hi
    simp [closedSpan, spanAt, hid]
  · simp [hi, Ne.symm hi]

theorem getElem?_parents (b : TreeBuilder) (id parent : Nat) :
    (b.elements.toList.map (·.parent))[id]? = some (some parent) ↔
    b.parentAt? id = some parent := by
  rw [List.getElem?_map, Array.getElem?_toList, parentAt?, Option.map_eq_some_iff,
    Option.bind_eq_some_iff]

theorem getElem?_of_parentAt? {parent : Nat} (h : b.parentAt? id = some parent) :
    ∃ e, b.elements[id]? = some e ∧ e.span = b.spanAt id := by
  obtain ⟨e, he, -⟩ := Option.bind_eq_some_iff.1 h
  exact ⟨e, he, by simp [spanAt, he]⟩

theorem Linked.closedSpan_eq (h : b.Linked) (hid : id < b.elements.size) :
    (∀ j, b.parentAt? j ≠ some id) ∧ b.closedSpan id = b.spanAt id ∨
      ∃ first last, b.parentAt? first = some id ∧ b.parentAt? last = some id ∧
        (∀ j, b.parentAt? j = some id → first ≤ j ∧ j ≤ last) ∧
        b.closedSpan id = (b.spanAt first).hull (b.spanAt last) := by
  have he : b.elements[id]? = some b.elements[id] := Array.getElem?_eq_getElem hid
  have hchildren := h.children id _ he
  have hmem : ∀ j, b.parentAt? j = some id ↔ j ∈ b.elements[id].children.toList := by
    intro j
    rw [hchildren, mem_childIds, ← getElem?_parents]
    simp
  have hsorted : b.elements[id].children.toList.Pairwise (· < ·) :=
    hchildren ▸ pairwise_childIds id 0 _
  generalize b.elements[id] = e at he hmem hsorted
  have hclosed : b.closedSpan id = ((childrenHull? b.elements e)).getD (b.spanAt id) := by
    rw [closedSpan, he, Option.bind_some]
  by_cases hempty : e.children.toList = []
  · have hnone : e.children = #[] := Array.toList_eq_nil_iff.1 hempty
    refine .inl ⟨fun j hj => ?_, by simp [hclosed, childrenHull?, hnone]⟩
    exact absurd ((hmem j).1 hj) (by simp [hempty])
  · have hfirst := (hmem _).2 (List.head_mem hempty)
    have hlast := (hmem _).2 (List.getLast_mem hempty)
    have hordered : e.children.toList.Pairwise (· ≤ ·) := hsorted.imp Nat.le_of_lt
    refine .inr ⟨_, _, hfirst, hlast, fun j hj => ?_, ?_⟩
    · exact ⟨hordered.rel_head ((hmem j).1 hj), hordered.rel_getLast ((hmem j).1 hj)⟩
    · obtain ⟨f, hf, hfspan⟩ := getElem?_of_parentAt? hfirst
      obtain ⟨l, hl, hlspan⟩ := getElem?_of_parentAt? hlast
      have hfront : e.children[0]? = some (e.children.toList.head hempty) := by
        rw [← Array.getElem?_toList, ← List.head?_eq_getElem?, List.head?_eq_some_head]
      have hback : e.children.back? = some (e.children.toList.getLast hempty) := by
        rw [← Array.getLast?_toList, List.getLast?_eq_some_getLast]
      simp only [hclosed, childrenHull?, hfront, hback, Option.bind_eq_bind, Option.bind_some, hf,
        hl, hfspan, hlspan, Option.pure_def, Option.getD_some]

/-- What is in a tree under construction stands where its parent stands, behind what is before it,
and ends where the last token ended or before. All of it starts and ends at offsets of a kind. -/
structure Nested (Good : Nat → Prop) (b : TreeBuilder) : Prop where
  linked : b.Linked
  last_good : Good b.lastStop
  parent_before : ∀ i p : Nat, b.parentAt? i = some p → p < i
  /-- What was opened last is open innermost. -/
  descends : b.opened.Pairwise (· > ·)
  opened_parent : ∀ i : Nat, i ∈ b.opened → ∀ p : Nat, b.parentAt? i = some p → p ∈ b.opened
  /-- All that stands behind an open node stands in it. -/
  opened_last : ∀ i : Nat, i ∈ b.opened → ∀ j : Nat, i < j → j < b.elements.size →
    ∃ p : Nat, b.parentAt? j = some p ∧ i ≤ p
  le : ∀ i : Nat, i < b.elements.size → (b.spanAt i).start ≤ (b.spanAt i).stop ∧
    (b.spanAt i).stop ≤ b.lastStop
  good : ∀ i : Nat, i < b.elements.size → Good (b.spanAt i).start ∧ Good (b.spanAt i).stop
  siblings : ∀ i j : Nat, i < j → j < b.elements.size → b.parentAt? i = b.parentAt? j →
    (b.spanAt i).stop ≤ (b.spanAt j).start
  starts : ∀ i p : Nat, b.parentAt? i = some p → (b.spanAt p).start ≤ (b.spanAt i).start
  stops : ∀ i p : Nat, b.parentAt? i = some p → p ∉ b.opened → (b.spanAt i).stop ≤ (b.spanAt p).stop

namespace Nested

variable {Good : Nat → Prop}

theorem lt_size {i p : Nat} (h : b.parentAt? i = some p) : i < b.elements.size := by
  obtain ⟨e, he, -⟩ := Option.bind_eq_some_iff.1 h
  exact (Array.getElem?_eq_some_iff.1 he).1

theorem exists_head (h : b.Nested Good) {i : Nat} (hi : i ∈ b.opened) :
    ∃ p : Nat, b.opened.head? = some p ∧ i ≤ p := by
  have hdescends := h.descends
  cases hopened : b.opened with
  | nil => simp [hopened] at hi
  | cons p opened =>
    rw [hopened] at hi hdescends
    refine ⟨p, rfl, ?_⟩
    rcases List.mem_cons.1 hi with rfl | hi
    · exact Nat.le_refl _
    · exact Nat.le_of_lt ((List.pairwise_cons.1 hdescends).1 i hi)

theorem push (h : b.Nested Good) (kind : ElementKind) (span : Span)
    (hstart : b.lastStop ≤ span.start) (hle : span.start ≤ span.stop)
    (hgood : Good span.start ∧ Good span.stop) :
    Nested Good { b.push kind span with lastStop := span.stop } := by
  have hlinked := h.linked.push kind span
  have hsize : ({ b.push kind span with lastStop := span.stop } : TreeBuilder).elements.size =
      b.elements.size + 1 :=
    size_push b kind span
  have hspan : ∀ i, ({ b.push kind span with lastStop := span.stop } : TreeBuilder).spanAt i =
      if i = b.elements.size then span else b.spanAt i := spanAt_push b kind span
  have hparent : ∀ i, ({ b.push kind span with lastStop := span.stop } : TreeBuilder).parentAt? i =
      if i = b.elements.size then b.opened.head? else b.parentAt? i := parentAt?_push b kind span
  have hopened : ({ b.push kind span with lastStop := span.stop } : TreeBuilder).opened =
      b.opened := rfl
  have hopen : ∀ p : Nat, b.opened.head? = some p → p ∈ b.opened ∧
      p < b.elements.size := fun p hp =>
    ⟨List.mem_of_mem_head? hp, h.linked.opened_lt p (List.mem_of_mem_head? hp)⟩
  have hold : ∀ i p : Nat, b.parentAt? i = some p → p < i ∧ i < b.elements.size := fun i p hp =>
    ⟨h.parent_before i p hp, lt_size hp⟩
  refine ⟨⟨hlinked.children, hlinked.parent_lt, hlinked.opened_lt⟩, hgood.2, fun i p hp => ?_,
    h.descends, fun i hi p hp => ?_,
    fun i hi j hij hj => ?_, fun i hi => ?_, fun i hi => ?_, fun i j hij hj hsame => ?_,
      fun i p hp => ?_, fun i p hp hclosed => ?_⟩
  · rw [hparent] at hp
    split at hp
    · have := hopen p hp
      omega
    · exact h.parent_before i p hp
  · rw [hparent] at hp
    split at hp
    · exact (hopen p hp).1
    · exact h.opened_parent i hi p hp
  · by_cases hnew : j = b.elements.size
    · obtain ⟨p, hp, hle⟩ := h.exists_head hi
      exact ⟨p, by rw [hparent, if_pos hnew, hp], hle⟩
    · obtain ⟨p, hp, hle⟩ := h.opened_last i hi j hij (by omega)
      exact ⟨p, by rw [hparent, if_neg hnew, hp], hle⟩
  · rw [hspan]
    split
    · exact ⟨hle, Nat.le_refl _⟩
    · obtain ⟨hle', hlast⟩ := h.le i (by omega)
      exact ⟨hle', hlast.trans (hstart.trans hle)⟩
  · rw [hspan]
    split
    · exact hgood
    · exact h.good i (by omega)
  · rw [hparent i, if_neg (by omega), hparent j] at hsame
    rw [hspan i, if_neg (by omega), hspan j]
    split
    · exact (h.le i (by omega)).2.trans hstart
    · rw [if_neg ‹_›] at hsame
      exact h.siblings i j hij (by omega) hsame
  · rw [hparent] at hp
    split at hp
    · obtain ⟨-, hlt⟩ := hopen p hp
      obtain ⟨hle', hlast⟩ := h.le p hlt
      rw [hspan i, if_pos ‹_›, hspan p, if_neg (by omega)]
      exact (hle'.trans hlast).trans hstart
    · have := hold i p hp
      rw [hspan i, if_neg ‹_›, hspan p, if_neg (by omega)]
      exact h.starts i p hp
  · rw [hparent] at hp
    split at hp
    · exact absurd (hopen p hp).1 hclosed
    · have := hold i p hp
      rw [hspan i, if_neg ‹_›, hspan p, if_neg (by omega)]
      exact h.stops i p hp hclosed

theorem token (h : b.Nested Good) (kind : TokenKind) (hstart : b.lastStop ≤ span.start)
    (hle : span.start ≤ span.stop) (hgood : Good span.start ∧ Good span.stop) :
    (b.token kind span).Nested Good := h.push (.token kind) span hstart hle hgood

theorem openNode (h : b.Nested Good) (kind : NodeKind) : (b.openNode kind).Nested Good := by
  have hpush : (b.push (.node kind) (.empty b.lastStop)).Nested Good :=
    h.push (.node kind) (.empty b.lastStop) (Nat.le_refl _) (Nat.le_refl _) ⟨h.last_good,
      h.last_good⟩
  have hsize := size_push b (.node kind) (.empty b.lastStop)
  have hparent := parentAt?_push b (.node kind) (.empty b.lastStop)
  have hopened : (b.openNode kind).opened = b.elements.size :: b.opened := by
    rw [opened_openNode, length_rows]
  refine ⟨h.linked.openNode kind, hpush.last_good, hpush.parent_before, ?_, fun i hi p hp => ?_,
    fun i hi j hij hj => ?_, hpush.le, hpush.good, hpush.siblings, hpush.starts,
      fun i p hp hclosed => ?_⟩
  · rw [hopened]
    exact List.pairwise_cons.2 ⟨h.linked.opened_lt, h.descends⟩
  · rw [hopened] at hi ⊢
    rcases List.mem_cons.1 hi with rfl | hi
    · have hhead : b.opened.head? = some p := by
        have := hparent b.elements.size
        rw [if_pos rfl] at this
        exact this ▸ hp
      exact .tail _ (List.mem_of_mem_head? hhead)
    · exact .tail _ (hpush.opened_parent i hi p hp)
  · rw [hopened] at hi
    rcases List.mem_cons.1 hi with rfl | hi
    · have hlast : j < (b.push (.node kind) (.empty b.lastStop)).elements.size := hj
      omega
    · exact hpush.opened_last i hi j hij hj
  · rw [hopened, List.mem_cons, not_or] at hclosed
    exact hpush.stops i p hp hclosed.2

theorem closedSpan_cases (h : b.Nested Good) (hid : id < b.elements.size) :
    (∀ j, b.parentAt? j ≠ some id) ∧ b.closedSpan id = b.spanAt id ∨
      ∃ first last, b.parentAt? first = some id ∧ b.parentAt? last = some id ∧
        (∀ i : Nat, b.parentAt? i = some id →
          (b.spanAt first).start ≤ (b.spanAt i).start ∧ (b.spanAt i).stop ≤ (b.spanAt last).stop) ∧
        b.closedSpan id = ⟨(b.spanAt first).start, (b.spanAt last).stop⟩ := by
  refine (h.linked.closedSpan_eq hid).imp_right
    fun ⟨first, last, hfirst, hlast, hbetween, heq⟩ => ?_
  have hbelow : ∀ i j : Nat, b.parentAt? i = some id → b.parentAt? j = some id → i ≤ j →
      (b.spanAt i).start ≤ (b.spanAt j).start ∧ (b.spanAt i).stop ≤ (b.spanAt j).stop := by
    intro i j hi hj hij
    rcases Nat.eq_or_lt_of_le hij with rfl | hlt
    · exact ⟨Nat.le_refl _, Nat.le_refl _⟩
    · have hbefore := h.siblings i j hlt (lt_size hj) (hi.trans hj.symm)
      have := h.le i (lt_size hi)
      have := h.le j (lt_size hj)
      omega
  obtain ⟨hstart, hstop⟩ := hbelow first last hfirst hlast (hbetween first hfirst).2
  refine ⟨first, last, hfirst, hlast, fun i hi => ⟨?_, ?_⟩, ?_⟩
  · exact (hbelow first i hfirst hi (hbetween i hi).1).1
  · exact (hbelow i last hi hlast (hbetween i hi).2).2
  · rw [heq, Span.hull, Nat.min_eq_left hstart, Nat.max_eq_right hstop]

theorem closedSpan_spec (h : b.Nested Good) (hid : id < b.elements.size) :
    (b.spanAt id).start ≤ (b.closedSpan id).start ∧
    (b.closedSpan id).start ≤ (b.closedSpan id).stop ∧
      (b.closedSpan id).stop ≤ b.lastStop ∧
      (Good (b.closedSpan id).start ∧ Good (b.closedSpan id).stop) ∧
      ∀ i : Nat, b.parentAt? i = some id →
        (b.closedSpan id).start ≤ (b.spanAt i).start ∧
        (b.spanAt i).stop ≤ (b.closedSpan id).stop := by
  rcases h.closedSpan_cases hid with ⟨hnone, heq⟩ | ⟨first, last, hfirst, hlast, hcovers, heq⟩
  · rw [heq]
    obtain ⟨hle, hstop⟩ := h.le id hid
    exact ⟨Nat.le_refl _, hle, hstop, h.good id hid, fun i hi => absurd hi (hnone i)⟩
  · rw [heq]
    obtain ⟨hle, -⟩ := h.le first (lt_size hfirst)
    exact ⟨h.starts first id hfirst, hle.trans (hcovers first hfirst).2,
      (h.le last (lt_size hlast)).2,
      ⟨(h.good first (lt_size hfirst)).1, (h.good last (lt_size hlast)).2⟩, hcovers⟩

theorem finishNode (h : b.Nested Good) : b.finishNode.Nested Good := by
  cases hopened : b.opened with
  | nil => rwa [TreeBuilder.finishNode, hopened]
  | cons id opened =>
    have hid : id < b.elements.size := h.linked.opened_lt id (hopened ▸ List.mem_cons_self)
    have hmem : ∀ i : Nat, i ∈ b.opened ↔ i = id ∨ i ∈ opened :=
      fun i => by rw [hopened, List.mem_cons]
    have hrest : b.finishNode.opened = opened := by simp [TreeBuilder.finishNode, hopened]
    have hlastStop : b.finishNode.lastStop = b.lastStop := by simp [TreeBuilder.finishNode, hopened]
    have hsize := b.size_finishNode
    have hparent := b.parentAt?_finishNode
    have hspan := spanAt_finishNode hopened hid
    obtain ⟨hstart, hle, hlast, hgood, hcovers⟩ := h.closedSpan_spec hid
    obtain ⟨hlt, hdescends⟩ := List.pairwise_cons.1 (hopened ▸ h.descends)
    have hbelow : ∀ i : Nat, i ∈ opened → i < id := hlt
    -- the parent of the node is still open, and nothing stands behind the node but what is in it
    have houter : ∀ p : Nat, b.parentAt? id = some p → p ∈ opened := fun p hp => by
      have hp' := (hmem p).1 (h.opened_parent id ((hmem id).2 (.inl rfl)) p hp)
      exact hp'.resolve_left (Nat.ne_of_lt (h.parent_before id p hp))
    have hnothing : ∀ j : Nat, id < j → j < b.elements.size → b.parentAt? id ≠ b.parentAt? j :=
      fun j hj hlt heq => by
        obtain ⟨p, hp, hidp⟩ := h.opened_last id ((hmem id).2 (.inl rfl)) j hj hlt
        exact absurd (h.parent_before id p (heq.trans hp)) (Nat.not_lt.2 hidp)
    refine ⟨h.linked.finishNode, hlastStop ▸ h.last_good, fun i p hp => ?_, hrest ▸ hdescends,
      fun i hi p hp => ?_,
      fun i hi j hij hj => ?_, fun i hi => ?_, fun i hi => ?_, fun i j hij hj hsame => ?_,
        fun i p hp => ?_,
      fun i p hp hclosed => ?_⟩
    · exact h.parent_before i p (hparent i ▸ hp)
    · rw [hrest] at hi ⊢
      have hp' := (hmem p).1 (h.opened_parent i ((hmem i).2 (.inr hi)) p (hparent i ▸ hp))
      refine hp'.resolve_left fun heq => ?_
      have := h.parent_before i p (hparent i ▸ hp)
      have := hbelow i hi
      omega
    · rw [hrest] at hi
      rw [hparent]
      exact h.opened_last i ((hmem i).2 (.inr hi)) j hij (hsize ▸ hj)
    · rw [hspan, hlastStop]
      split
      · exact ⟨hle, hlast⟩
      · exact h.le i (hsize ▸ hi)
    · rw [hspan]
      split
      · exact hgood
      · exact h.good i (hsize ▸ hi)
    · rw [hparent, hparent] at hsame
      rw [hsize] at hj
      rw [hspan i, hspan j]
      split
      · rename_i hi
        subst hi
        exact absurd hsame (hnothing j hij hj)
      · have hbefore := h.siblings i j hij hj hsame
        split
        · rename_i hj
          exact hbefore.trans (hj ▸ hstart)
        · exact hbefore
    · rw [hparent] at hp
      have hbefore := h.starts i p hp
      have hne := Nat.ne_of_lt (h.parent_before i p hp)
      rw [hspan i, hspan p]
      by_cases hi : i = id
      · rw [if_neg (hi ▸ hne), if_pos hi]
        exact (hi ▸ hbefore).trans hstart
      · rw [if_neg hi]
        split
        · rename_i hp'
          exact (hcovers i (hp' ▸ hp)).1
        · exact hbefore
    · rw [hparent] at hp
      rw [hrest] at hclosed
      rw [hspan i, hspan p]
      by_cases hi : i = id
      · exact absurd (houter p (hi ▸ hp)) hclosed
      · rw [if_neg hi]
        split
        · rename_i hp'
          exact (hcovers i (hp' ▸ hp)).2
        · rename_i hp'
          exact h.stops i p hp fun hopen => ((hmem p).1 hopen).elim hp' hclosed

theorem openNodes (h : b.Nested Good) (kinds : List NodeKind) :
    (kinds.foldl TreeBuilder.openNode b).Nested Good ∧
    (kinds.foldl TreeBuilder.openNode b).lastStop = b.lastStop := by
  induction kinds generalizing b with
  | nil => exact ⟨h, rfl⟩
  | cons kind kinds ih => exact ih (h.openNode kind)

end Nested

end TreeBuilder

def Event.tokenSpan? : Event → Option Span
  | .token _ span => some span
  | _ => none

/-- Tokens that are still to come stand behind each other and behind what is there, at offsets of a
kind. -/
structure TreeBuilder.Awaits (Good : Nat → Prop) (b : TreeBuilder) (stop : Nat)
    (spans : List Span) : Prop where
  nested : b.Nested Good
  ascends : Ascends b.lastStop spans stop
  good : ∀ s ∈ spans, Good s.start ∧ Good s.stop

namespace TreeBuilder.Awaits

variable {Good : Nat → Prop} {b : TreeBuilder} {stop : Nat} {spans spans' : List Span}

theorem sublist (h : b.Awaits Good stop spans) (hspans : spans'.Sublist spans) :
    b.Awaits Good stop spans' :=
  ⟨h.nested, h.ascends.sublist hspans, fun s hs => h.good s (hspans.subset hs)⟩

theorem token {span : Span} (h : b.Awaits Good stop (span :: spans)) (kind : TokenKind) :
    (b.token kind span).Awaits Good stop spans := by
  obtain ⟨hstart, hlt, hrest⟩ := h.ascends
  obtain ⟨hspan, hspans⟩ := List.forall_mem_cons.1 h.good
  exact ⟨h.nested.token kind hstart (Nat.le_of_lt hlt) hspan, hrest, hspans⟩

theorem openNodes (h : b.Awaits Good stop spans) (kinds : List NodeKind) :
    (kinds.foldl TreeBuilder.openNode b).Awaits Good stop spans := by
  obtain ⟨hnested, hlast⟩ := h.nested.openNodes kinds
  exact ⟨hnested, hlast ▸ h.ascends, h.good⟩

theorem finishNode (h : b.Awaits Good stop spans) : b.finishNode.Awaits Good stop spans := by
  refine ⟨h.nested.finishNode, ?_, h.good⟩
  have hlast : b.finishNode.lastStop = b.lastStop := by
    unfold TreeBuilder.finishNode
    split <;> rfl
  exact hlast ▸ h.ascends

theorem replay {log : EventLog} {position : Nat}
    (h : b.Awaits Good stop ((log.toList.drop position).filterMap Event.tokenSpan?))
    (errors : List SyntaxError) :
    (TreeBuilder.replay log position b errors).2.1.Awaits Good stop
      ((log.toList.drop (position + 1)).filterMap Event.tokenSpan?) := by
  rw [log.drop_eq position, List.filterMap_append] at h
  have hrest := h.sublist (List.sublist_append_right _ _)
  unfold TreeBuilder.replay
  split
  · exact hrest.openNodes _
  · rename_i kind span hget
    rw [hget] at h
    exact h.token kind
  · exact hrest
  · exact hrest.finishNode
  · exact hrest

theorem replayFrom {count position : Nat} {log : EventLog} {errors : List SyntaxError}
    (h : b.Awaits Good stop ((log.toList.drop position).filterMap Event.tokenSpan?)) :
    (TreeBuilder.replayFrom count position log b errors).1.Nested Good := by
  induction count generalizing b position log errors with
  | zero => exact h.nested
  | succ count ih =>
    have hblanks := (blanks_replay log position b errors).drop (position + 1)
    exact ih ((h.replay errors).sublist (hblanks.filterMap_sublist rfl))

end TreeBuilder.Awaits

mutual

theorem Forest.tokenSpans_encode : ∀ f : Forest, f.encode.filterMap Event.tokenSpan? =
    f.leaves.map (·.span)
  | .nil => rfl
  | .token f _ _ => by simp [Forest.encode, Forest.leaves, Forest.tokenSpans_encode f,
      Event.tokenSpan?]
  | .fault f _ _ => by simp [Forest.encode, Forest.leaves, Forest.tokenSpans_encode f,
      Event.tokenSpan?]
  | .blank f => by simp [Forest.encode, Forest.leaves, Forest.tokenSpans_encode f, Event.tokenSpan?,
      Event.blank]
  | .branch f b => by
    simp [Forest.encode, Forest.leaves, Forest.tokenSpans_encode f,
      Branch.tokenSpans_encode false b]

theorem Branch.tokenSpans_encode (wrapped : Bool) :
    ∀ b : Branch, (b.encode wrapped).filterMap Event.tokenSpan? = b.leaves.map (·.span)
  | .node _ inside => by
    simp [Branch.encode, Branch.leaves, Forest.tokenSpans_encode inside, Event.tokenSpan?,
      List.filterMap_cons]
  | .around first _ inside => by
    simp [Branch.encode, Branch.leaves, Branch.tokenSpans_encode true first,
      Forest.tokenSpans_encode inside, Event.tokenSpan?, List.filterMap_cons]

end

section

variable {Good : Nat → Prop} (hzero : Good 0) {f : Forest} {log : EventLog}
  (hlog : log.toList = f.encode) {stop : Nat} (hascends : Ascends 0 (f.leaves.map (·.span)) stop)
  (hgood : ∀ t ∈ f.leaves, Good t.span.start ∧ Good t.span.stop)

include hzero hlog hascends hgood

theorem TreeBuilder.awaits_ofLog :
    ({} : TreeBuilder).Awaits Good stop ((log.toList.drop 0).filterMap Event.tokenSpan?) := by
  have hempty : ∀ i : Nat, ({} : TreeBuilder).parentAt? i = none := fun i => rfl
  have hstart : ({} : TreeBuilder).Nested Good := by
    constructor
    case linked => exact ⟨by simp, by simp, by simp⟩
    case last_good => exact hzero
    all_goals simp [hempty]
  have hspans : (log.toList.drop 0).filterMap Event.tokenSpan? = f.leaves.map (·.span) := by
    rw [List.drop_zero, hlog, f.tokenSpans_encode]
  rw [hspans]
  refine ⟨hstart, hascends, fun s hs => ?_⟩
  obtain ⟨t, ht, rfl⟩ := List.mem_map.1 hs
  exact hgood t ht

theorem TreeBuilder.nested_ofLog : (replayFrom log.size 0 log {} []).1.Nested Good :=
  (awaits_ofLog hzero hlog hascends hgood).replayFrom

end

end LuaAnalysis.Syntax
