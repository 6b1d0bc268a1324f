import Mathlib.Data.List.Induction
import LuaAnalysis.Proofs.Syntax.Preorder

namespace LuaAnalysis.Syntax

namespace Tree

def token? (t : Tree) (id : ElementId) : Option Token :=
  (t.tokenKind? id).map fun kind => ⟨kind, t.span id⟩

/-- The comment nodes that an element stands in, the innermost first. -/
def commentsAround (t : Tree) (id : ElementId) : List ElementId :=
  (t.ancestors id).filter fun n => t.kind n == .comment

/-- All tokens in preorder, each with the comment nodes around it. -/
def tokensInComments (t : Tree) : List (Token × List ElementId) :=
  t.preorder.filterMap fun id => (t.token? id).map fun token => (token, t.commentsAround id)

end Tree

namespace Row

def token? (r : Row) : Option Token :=
  match r.kind with
  | .token kind => some ⟨kind, r.span⟩
  | .node _ => none

def isComment (r : Row) : Bool := r.kind == .node .comment

variable (rows : List Row)

def climb : Nat → ElementId → List ElementId
  | 0, _ => []
  | fuel + 1, id =>
    match rows[id]?.bind (·.parent) with
    | some p => p :: climb fuel p
    | none => []

def commentsAt (id : ElementId) : List ElementId :=
  (climb rows (id + 1) id).filter fun n => (rows[n]?.map isComment).getD false

def commentsBelow : Option ElementId → List ElementId
  | some p => if (rows[p]?.map isComment).getD false then p :: commentsAt rows p
      else commentsAt rows p
  | none => []

def Ascending : Prop := ∀ (id : Nat) (r : Row), rows[id]? = some r →
    ∀ p : Nat, r.parent = some p → p < id

variable {rows} {more : List Row}

theorem climb_of_le (h : Ascending rows) {fuel id : Nat} (hfuel : id + 1 ≤ fuel) :
    climb rows fuel id = climb rows (id + 1) id := by
  induction id using Nat.strongRecOn generalizing fuel with
  | ind id ih =>
    obtain ⟨fuel, rfl⟩ : ∃ n, fuel = n + 1 := ⟨fuel - 1, by omega⟩
    simp only [climb]
    cases hparent : rows[id]?.bind (·.parent) with
    | none => rfl
    | some p =>
      obtain ⟨r, hr, hp⟩ := Option.bind_eq_some_iff.1 hparent
      have hlt := h id r hr p hp
      simp only
      rw [ih p hlt (Nat.le_trans hlt (Nat.le_of_succ_le_succ hfuel)), ih p hlt hlt]

theorem commentsAt_eq (h : Ascending rows) (id : ElementId) :
    commentsAt rows id = commentsBelow rows (rows[id]?.bind (·.parent)) := by
  rw [commentsAt, climb]
  cases hparent : rows[id]?.bind (·.parent) with
  | none => rfl
  | some p =>
    obtain ⟨r, hr, hp⟩ := Option.bind_eq_some_iff.1 hparent
    simp only [commentsBelow, commentsAt]
    rw [climb_of_le h (h id r hr p hp), List.filter_cons]

theorem Ascending.append (h : Ascending rows)
    (hmore : ∀ r ∈ more, ∀ p : Nat, r.parent = some p → p < rows.length) :
    Ascending (rows ++ more) := by
  intro id r hr p hp
  by_cases hid : id < rows.length
  · rw [List.getElem?_append_left hid] at hr
    exact h id r hr p hp
  · rw [List.getElem?_append_right (Nat.le_of_not_lt hid)] at hr
    exact Nat.lt_of_lt_of_le (hmore r (List.mem_of_getElem? hr) p hp) (Nat.le_of_not_lt hid)

theorem commentsAt_append (h : Ascending rows) {id : ElementId} (hid : id < rows.length) :
    commentsAt (rows ++ more) id = commentsAt rows id := by
  have hclimb : ∀ fuel id, id < rows.length → climb (rows ++ more) fuel id = climb rows fuel id ∧
      ∀ n ∈ climb rows fuel id, n < rows.length := by
    intro fuel
    induction fuel with
    | zero => exact fun _ _ => ⟨rfl, by simp [climb]⟩
    | succ fuel ih =>
      intro id hid
      simp only [climb, List.getElem?_append_left hid]
      cases hparent : rows[id]?.bind (·.parent) with
      | none => simp
      | some p =>
        obtain ⟨r, hr, hp⟩ := Option.bind_eq_some_iff.1 hparent
        have hlt : p < rows.length := Nat.lt_trans (h id r hr p hp) hid
        obtain ⟨heq, hall⟩ := ih p hlt
        exact ⟨by simp only [heq], List.forall_mem_cons.2 ⟨hlt, hall⟩⟩
  obtain ⟨heq, hall⟩ := hclimb (id + 1) id hid
  rw [commentsAt, commentsAt, heq]
  exact List.filter_congr fun n hn => by rw [List.getElem?_append_left (hall n hn)]

theorem commentsBelow_append (h : Ascending rows) {parent : Option ElementId}
    (hparent : ∀ p : Nat, parent = some p → p < rows.length) :
    commentsBelow (rows ++ more) parent = commentsBelow rows parent := by
  cases parent with
  | none => rfl
  | some p =>
    have hlt := hparent p rfl
    simp only [commentsBelow, commentsAt_append h hlt, List.getElem?_append_left hlt]

def tokensIn (rows : List Row) : List (Token × List ElementId) :=
  (List.range rows.length).filterMap fun id =>
    (rows[id]?.bind token?).map fun token => (token, commentsAt rows id)

theorem tokensIn_concat (h : Ascending rows) {r : Row}
    (hr : ∀ p : Nat, r.parent = some p → p < rows.length) : tokensIn (rows ++ [r]) =
      tokensIn rows ++ (r.token?.map fun token => (token, commentsBelow rows r.parent)).toList := by
  have hlast : commentsAt (rows ++ [r]) rows.length = commentsBelow rows r.parent := by
    rw [commentsAt_eq (h.append (by simpa using hr))]
    simp only [List.getElem?_concat_length, Option.bind_some]
    exact commentsBelow_append h hr
  rw [tokensIn, List.length_append, List.length_singleton, List.range_succ, List.filterMap_append]
  congr 1
  · refine List.filterMap_congr fun id hid => ?_
    have hlt := List.mem_range.1 hid
    rw [List.getElem?_append_left hlt, commentsAt_append h hlt]
  · cases htoken : r.token? <;> simp [htoken, hlast]

end Row

namespace Layout

/-- The tokens of a layout with the comment nodes around them, of which `around` are outside of
it. -/
def tokens (around : List ElementId) (start : ElementId) : Layout → List (Token × List ElementId)
  | .nil => []
  | .token l kind span => l.tokens around start ++ [(⟨kind, span⟩, around)]
  | .node l kind inside =>
    let id := start + l.size
    l.tokens around start ++ inside.tokens (if kind = .comment then id :: around
      else around) (id + 1)

end Layout

namespace Row

/-- Rows below which more can be added. -/
structure Grows (rows : List Row) (parent : Option ElementId) : Prop where
  ascending : Ascending rows
  parent_lt : ∀ p : Nat, parent = some p → p < rows.length

variable {rows : List Row} {parent : Option ElementId}

theorem Grows.concat (h : Grows rows parent) (kind : ElementKind) (span : Span) :
    Grows (rows ++ [⟨kind, span, parent⟩]) parent where
  ascending := h.ascending.append (by simpa using h.parent_lt)
  parent_lt := fun p hp => Nat.lt_of_lt_of_le (h.parent_lt p hp) (by simp)

theorem Grows.append (h : Grows rows parent) {more : List Row} (hmore : Ascending (rows ++ more)) :
    Grows (rows ++ more) parent where
  ascending := hmore
  parent_lt := fun p hp => Nat.lt_of_lt_of_le (h.parent_lt p hp) (by simp)

theorem Grows.below (h : Grows rows parent) (kind : NodeKind) :
    Grows (rows ++ [.node kind parent]) (some rows.length) where
  ascending := (h.concat _ _).ascending
  parent_lt := fun p hp => by
    obtain rfl := Option.some.inj hp
    simp

theorem commentsBelow_node (h : Grows rows parent) (kind : NodeKind) :
    commentsBelow (rows ++ [.node kind parent]) (some rows.length) =
      if kind = .comment then rows.length :: commentsBelow rows parent
        else commentsBelow rows parent := by
  have hat : commentsAt (rows ++ [.node kind parent]) rows.length = commentsBelow rows parent := by
    rw [commentsAt_eq (h.below kind).ascending]
    simp only [List.getElem?_concat_length, Option.bind_some]
    exact commentsBelow_append h.ascending h.parent_lt
  have hget : (rows ++ [node kind parent])[rows.length]? = some (node kind parent) :=
    List.getElem?_concat_length
  simp only [commentsBelow.eq_1, hget, hat, Option.map_some, Option.getD_some]
  simp [isComment, node]

theorem tokensIn_node (h : Grows rows parent) (kind : NodeKind) :
    tokensIn (rows ++ [.node kind parent]) = tokensIn rows := by
  rw [tokensIn_concat h.ascending h.parent_lt]
  simp [token?, node]

theorem tokensIn_outline (l : Layout) (h : Grows rows parent) :
    Ascending (rows ++ l.outline parent rows.length) ∧
    tokensIn (rows ++ l.outline parent rows.length) = tokensIn rows ++
    l.tokens (commentsBelow rows parent) rows.length := by
  induction l generalizing rows parent with
  | nil =>
    exact ⟨by simpa [Layout.outline] using h.ascending, by simp [Layout.outline, Layout.tokens]⟩
  | token l kind span ih =>
    obtain ⟨hasc, htokens⟩ := ih h
    have hgrows := h.append hasc
    rw [Layout.outline, ← List.append_assoc]
    refine ⟨(hgrows.concat _ _).ascending, ?_⟩
    rw [tokensIn_concat hasc hgrows.parent_lt, htokens, Layout.tokens, List.append_assoc]
    simp [token, token?, commentsBelow_append h.ascending h.parent_lt]
  | node l kind inside ih ihInside =>
    obtain ⟨hasc, htokens⟩ := ih h
    have hgrows := h.append hasc
    have hlength : (rows ++ l.outline parent rows.length).length = rows.length + l.size := by
      rw [List.length_append, Layout.length_outline]
    have hinside := ihInside (hgrows.below kind)
    rw [commentsBelow_node hgrows kind, commentsBelow_append h.ascending h.parent_lt,
      tokensIn_node hgrows, htokens] at hinside
    simp only [List.length_append, Layout.length_outline, List.length_singleton] at hinside
    rw [Layout.outline, Layout.tokens]
    simpa [List.append_assoc, Nat.add_assoc] using hinside

end Row

open Row

namespace Tree

variable (t : Tree)

def rows : List Row := t.elements.toList.map Row.ofElement

theorem token?_eq (id : ElementId) : t.token? id = t.rows[id]?.bind Row.token? := by
  rw [rows, List.getElem?_map, Array.getElem?_toList, Tree.token?, tokenKind?, Tree.span]
  cases he : t.elements[id]? with
  | none => rfl
  | some e =>
    obtain ⟨kind, span, parent, children, next⟩ := e
    cases kind <;> rfl

theorem parent?_eq (id : ElementId) : t.parent? id = t.rows[id]?.bind (·.parent) := by
  rw [rows, List.getElem?_map, Array.getElem?_toList, parent?]
  cases he : t.elements[id]? with
  | none => rfl
  | some e =>
    obtain ⟨kind, span, parent, children, next⟩ := e
    cases kind <;> rfl

theorem isComment_eq (id : ElementId) :
    (t.kind id == .comment) = (t.rows[id]?.map isComment).getD false := by
  rw [rows, List.getElem?_map, Array.getElem?_toList, Tree.kind, nodeKind?]
  cases he : t.elements[id]? with
  | none => rfl
  | some e =>
    obtain ⟨kind, span, parent, children, next⟩ := e
    cases kind <;> simp [isComment, ofElement, Row.token, Row.node]

theorem commentsAround_eq (id : ElementId) : t.commentsAround id = commentsAt t.rows id := by
  have hclimb : ∀ fuel id, Tree.ancestors.go t fuel id = climb t.rows fuel id := by
    intro fuel
    induction fuel with
    | zero => exact fun _ => rfl
    | succ fuel ih =>
      intro id
      rw [Tree.ancestors.go, climb, parent?_eq]
      cases t.rows[id]?.bind (·.parent) with
      | none => rfl
      | some p => simp only [ih p]
  rw [commentsAround, commentsAt, ancestors, hclimb]
  exact List.filter_congr fun n _ => t.isComment_eq n

theorem tokensInComments_ofLog {b : Branch} (hb : b.Proper false) {log : EventLog}
    (hlog : log.toList = b.encode false) (text : String) (errors : List SyntaxError) :
    (Tree.ofLog text log errors).tokensInComments = (Forest.branch .nil b).layout.tokens [] 0 := by
  have hrows : (Tree.ofLog text log errors).rows =
      (Forest.branch .nil b).layout.outline none 0 := by
    rw [← Forest.outline_layout]
    exact Tree.rows_ofLog (f := .branch .nil b) ⟨trivial, hb⟩
      (by simpa [Forest.encode] using hlog) text errors
  have hgrows : Grows [] none := ⟨by simp [Ascending], by simp⟩
  obtain ⟨-, htokens⟩ := tokensIn_outline (Forest.branch .nil b).layout hgrows
  have hsize : (Tree.ofLog text log errors).size = (Tree.ofLog text log errors).rows.length := by
    simp [Tree.size, rows]
  rw [tokensInComments, preorder_ofLog hb hlog, hsize]
  simp only [token?_eq, commentsAround_eq]
  rw [hrows]
  simpa [tokensIn, commentsBelow] using htokens

end Tree

end LuaAnalysis.Syntax
