import LuaAnalysis.Proofs.Syntax.Replay

/-!
The elements of a tree in preorder, told from what the tree was built from. Spans of nodes are left
open, since they follow from those of the tokens.
-/

namespace LuaAnalysis.Syntax

/-- An element as it stands in a tree under construction. What is open about it is its span if it is
a node. -/
@[ext] structure Row where
  kind : ElementKind
  span : Span
  parent : Option ElementId
deriving DecidableEq, Repr

namespace Row

def token (kind : TokenKind) (span : Span) (parent : Option ElementId) : Row :=
  ⟨.token kind, span, parent⟩

def node (kind : NodeKind) (parent : Option ElementId) : Row := ⟨.node kind, .empty 0, parent⟩

def isNode (r : Row) : Bool :=
  match r.kind with
  | .node _ => true
  | .token _ => false

def ofElement (e : Element) : Row :=
  match e.kind with
  | .token kind => token kind e.span e.parent
  | .node kind => node kind e.parent

end Row

namespace Row

theorem map_parent_ofElement (es : List Element) :
    (es.map ofElement).map (·.parent) = es.map (·.parent) := by
  rw [List.map_map]
  refine List.map_congr_left fun e _ => ?_
  rw [Function.comp_apply, ofElement]
  cases e.kind <;> rfl

end Row

namespace Tree

variable {t : Tree} {id : ElementId} {parent : Option ElementId}

theorem getElem?_of_rows {r : Row} (h : (t.elements.toList.map Row.ofElement)[id]? = some r) :
    ∃ e, t.elements[id]? = some e ∧ Row.ofElement e = r := by
  rw [List.getElem?_map, Option.map_eq_some_iff] at h
  simpa using h

theorem parent?_of_row {r : Row} (h : (t.elements.toList.map Row.ofElement)[id]? = some r) :
    t.parent? id = r.parent := by
  obtain ⟨e, he, rfl⟩ := getElem?_of_rows h
  rw [parent?, he, Option.bind_some, Row.ofElement]
  cases e.kind <;> rfl

theorem nodeKind?_of_row {kind : NodeKind}
    (h : (t.elements.toList.map Row.ofElement)[id]? = some (.node kind parent)) :
    t.nodeKind? id = some kind ∧ t.tokenKind? id = none := by
  obtain ⟨⟨ekind, espan, eparent, echildren, enext⟩, he, hrow⟩ := getElem?_of_rows h
  cases ekind with
  | token kind => cases congrArg Row.kind hrow
  | node kind =>
    obtain ⟨rfl, -⟩ : _ ∧ _ := by simpa [Row.ofElement, Row.node] using hrow
    exact ⟨by rw [nodeKind?, he], by rw [tokenKind?, he]⟩

theorem tokenKind?_of_row {kind : TokenKind} {span : Span}
    (h : (t.elements.toList.map Row.ofElement)[id]? = some (.token kind span parent)) :
    t.tokenKind? id = some kind ∧ t.span id = span := by
  obtain ⟨⟨ekind, espan, eparent, echildren, enext⟩, he, hrow⟩ := getElem?_of_rows h
  cases ekind with
  | node kind => cases congrArg Row.kind hrow
  | token kind =>
    obtain ⟨rfl, rfl, -⟩ : _ ∧ _ ∧ _ := by simpa [Row.ofElement, Row.token] using hrow
    exact ⟨by rw [tokenKind?, he], by rw [Tree.span, he]; rfl⟩

end Tree

def spine : List NodeKind → Option ElementId → ElementId → List Row
  | [], _, _ => []
  | kind :: kinds, parent, start => .node kind parent :: spine kinds (some start) (start + 1)

theorem length_spine (kinds : List NodeKind) (parent : Option ElementId) (start : ElementId) :
    (spine kinds parent start).length = kinds.length := by
  induction kinds generalizing parent start with
  | nil => rfl
  | cons kind kinds ih => exact congrArg (· + 1) (ih _ _)

mutual

def Forest.outline (parent : Option ElementId) (start : ElementId) : Forest → List Row
  | .nil => []
  | .token f kind span => f.outline parent start ++ [.token kind span parent]
  | .fault f _ _ => f.outline parent start
  | .blank f => f.outline parent start
  | .branch f b =>
    let before := f.outline parent start
    before ++ b.outline [] parent (start + before.length)

def Branch.outline (outer : List NodeKind) (parent : Option ElementId) (start : ElementId) :
    Branch → List Row
  | .node kind inside =>
    let id := start + outer.length
    spine (outer ++ [kind]) parent start ++ inside.outline (some id) (id + 1)
  | .around first kind inside =>
    let before := first.outline (outer ++ [kind]) parent start
    before ++ inside.outline (some (start + outer.length)) (start + before.length)

end

namespace TreeBuilder

def rows (b : TreeBuilder) : List Row := b.elements.toList.map .ofElement

theorem length_rows (b : TreeBuilder) : b.rows.length = b.elements.size := by simp [rows]

def OpensNodes (b : TreeBuilder) : Prop := ∀ id ∈ b.opened, ∃ r, b.rows[id]? = some r ∧
    r.isNode = true

theorem map_modify_of_eq {α β : Type} {g : α → β} {f : α → α} {as : List α} {i : Nat}
    (h : ∀ a, as[i]? = some a → g (f a) = g a) : (as.modify i f).map g = as.map g := by
  refine List.ext_getElem? fun j => ?_
  rw [List.getElem?_map, List.getElem?_map, List.getElem?_modify]
  by_cases hij : i = j
  · subst hij
    cases hget : as[i]? with
    | none => simp
    | some a => simpa using h a hget
  · simp [hij]

theorem rows_push (b : TreeBuilder) (kind : ElementKind) (span : Span) :
    (b.push kind span).rows = b.rows ++
    [.ofElement ⟨kind, span, b.opened.head?, #[], b.elements.size + 1⟩] := by
  have hchildren : ∀ (es : Array Element) (p : ElementId), (es.modify p fun e =>
      { e with children := e.children.push b.elements.size }).toList.map Row.ofElement =
        es.toList.map Row.ofElement := fun es p => by
    rw [Array.toList_modify]
    exact map_modify_of_eq fun _ _ => rfl
  unfold push rows
  cases b.opened.head? with
  | none => simp
  | some p => exact (hchildren _ p).trans (by simp)

theorem rows_token (b : TreeBuilder) (kind : TokenKind) (span : Span) :
    (b.token kind span).rows = b.rows ++ [.token kind span b.opened.head?] := rows_push b _ _

theorem rows_openNode (b : TreeBuilder) (kind : NodeKind) :
    (b.openNode kind).rows = b.rows ++ [.node kind b.opened.head?] := rows_push b _ _

theorem opened_openNode (b : TreeBuilder) (kind : NodeKind) :
    (b.openNode kind).opened = b.rows.length :: b.opened := by
  have hsize : (b.push (.node kind) (.empty b.lastStop)).elements.size = b.rows.length + 1 := by
    rw [← length_rows, rows_push]
    simp
  have hopened : (b.openNode kind).opened =
    ((b.push (.node kind) (.empty b.lastStop)).elements.size - 1) ::
    (b.push (.node kind) (.empty b.lastStop)).opened := rfl
  rw [hopened, hsize]
  rfl

theorem OpensNodes.finishNode {b : TreeBuilder} (h : b.OpensNodes) :
    b.finishNode.rows = b.rows ∧ b.finishNode.opened = b.opened.tail ∧ b.finishNode.OpensNodes := by
  have hopened : b.finishNode.opened = b.opened.tail := by
    unfold TreeBuilder.finishNode
    split <;> simp_all
  have hrows : b.finishNode.rows = b.rows := by
    unfold TreeBuilder.finishNode
    split
    · rfl
    · rename_i id opened hid
      obtain ⟨r, hr, hnode⟩ := h id (by simp [hid])
      simp only [rows, Array.toList_modify]
      refine map_modify_of_eq fun e he => ?_
      have hrow : Row.ofElement e = r := by simpa [rows, he] using hr
      cases hkind : e.kind with
      | node kind => simp [Row.ofElement, hkind]
      | token kind => simp [← hrow, Row.ofElement, hkind, Row.isNode, Row.token] at hnode
  refine ⟨hrows, hopened, fun id hid => ?_⟩
  rw [hrows]
  exact h id (List.mem_of_mem_tail (hopened ▸ hid))

theorem OpensNodes.extend {b b' : TreeBuilder} {more : List Row} (h : b.OpensNodes)
    (hrows : b'.rows = b.rows ++ more) (hopened : b'.opened = b.opened) : b'.OpensNodes := by
  intro id hid
  obtain ⟨r, hr, hnode⟩ := h id (hopened ▸ hid)
  refine ⟨r, ?_, hnode⟩
  rw [hrows, List.getElem?_append_left (List.getElem?_eq_some_iff.1 hr).1, hr]

theorem OpensNodes.openNode {b : TreeBuilder} (h : b.OpensNodes) (kind : NodeKind) :
    (b.openNode kind).OpensNodes := by
  intro id hid
  rw [opened_openNode] at hid
  rw [rows_openNode]
  rcases List.mem_cons.1 hid with rfl | hid
  · exact ⟨.node kind b.opened.head?, by simp, rfl⟩
  · obtain ⟨r, hr, hnode⟩ := h id hid
    exact ⟨r, by rw [List.getElem?_append_left (List.getElem?_eq_some_iff.1 hr).1, hr], hnode⟩

def openIds (start : ElementId) (count : Nat) : List ElementId := (List.range' start count).reverse

theorem openIds_succ (start : ElementId) (count : Nat) :
    openIds start (count + 1) = (start + count) :: openIds start count := by
  simp [openIds, List.range'_concat]

theorem foldl_openNode (kinds : List NodeKind) {b : TreeBuilder} (h : b.OpensNodes) :
    (kinds.foldl TreeBuilder.openNode b).rows = b.rows ++ spine kinds b.opened.head? b.rows.length ∧
      (kinds.foldl TreeBuilder.openNode b).opened = openIds b.rows.length kinds.length ++ b.opened ∧
      (kinds.foldl TreeBuilder.openNode b).OpensNodes := by
  induction kinds generalizing b with
  | nil => exact ⟨by simp [spine], rfl, h⟩
  | cons kind kinds ih =>
    obtain ⟨hrows, hopened, hnodes⟩ := ih (h.openNode kind)
    rw [List.foldl_cons]
    refine ⟨?_, ?_, hnodes⟩
    · rw [hrows, rows_openNode, opened_openNode]
      simp [spine]
    · rw [hopened, opened_openNode, rows_openNode]
      simp [openIds, List.range'_succ]

end TreeBuilder

open TreeBuilder

mutual

theorem Forest.play_spec : ∀ (f : Forest) (s : Replayed), s.1.OpensNodes →
    (f.play s).1.rows = s.1.rows ++ f.outline s.1.opened.head? s.1.rows.length ∧
      (f.play s).1.opened = s.1.opened ∧ (f.play s).1.OpensNodes
  | .nil, s, h => ⟨by simp [Forest.play, Forest.outline], rfl, h⟩
  | .token f kind span, s, h => by
    obtain ⟨hrows, hopened, hnodes⟩ := Forest.play_spec f s h
    have hrows' := rows_token (f.play s).1 kind span
    refine ⟨?_, hopened, hnodes.extend hrows' rfl⟩
    rw [Forest.play, hrows', hrows, hopened, Forest.outline, List.append_assoc]
  | .fault f e span, s, h => Forest.play_spec f s h
  | .blank f, s, h => Forest.play_spec f s h
  | .branch f b, s, h => by
    obtain ⟨hrows, hopened, hnodes⟩ := Forest.play_spec f s h
    obtain ⟨hrows', hopened', hnodes'⟩ := Branch.play_spec b [] (f.play s) hnodes
    refine ⟨?_, by simpa [Forest.play, openIds, hopened] using hopened', hnodes'⟩
    rw [Forest.play, hrows', hrows, hopened, Forest.outline]
    simp

theorem Branch.play_spec : ∀ (b : Branch) (outer : List NodeKind) (s : Replayed), s.1.OpensNodes →
    (b.play outer s).1.rows = s.1.rows ++ b.outline outer s.1.opened.head? s.1.rows.length ∧
      (b.play outer s).1.opened = openIds s.1.rows.length outer.length ++ s.1.opened ∧
      (b.play outer s).1.OpensNodes
  | .node kind inside, outer, s, h => by
    obtain ⟨hrows, hopened, hnodes⟩ := foldl_openNode (outer ++ [kind]) h
    obtain ⟨hrows', hopened', hnodes'⟩ :=
      Forest.play_spec inside ((outer ++ [kind]).foldl TreeBuilder.openNode s.1, s.2) hnodes
    obtain ⟨hfinish, htail, hdone⟩ := hnodes'.finishNode
    rw [List.length_append, List.length_singleton, openIds_succ] at hopened
    refine ⟨?_, ?_, hdone⟩
    · rw [Branch.play, hfinish, hrows', hrows, hopened, Branch.outline]
      simp [length_spine, Nat.add_assoc]
    · rw [Branch.play, htail, hopened', hopened]
      rfl
  | .around first kind inside, outer, s, h => by
    obtain ⟨hrows, hopened, hnodes⟩ := Branch.play_spec first (outer ++ [kind]) s h
    obtain ⟨hrows', hopened', hnodes'⟩ :=
      Forest.play_spec inside (first.play (outer ++ [kind]) s) hnodes
    obtain ⟨hfinish, htail, hdone⟩ := hnodes'.finishNode
    rw [List.length_append, List.length_singleton, openIds_succ] at hopened
    refine ⟨?_, ?_, hdone⟩
    · rw [Branch.play, hfinish, hrows', hrows, hopened, Branch.outline]
      simp
    · rw [Branch.play, htail, hopened', hopened]
      rfl

end

theorem Tree.rows_ofLog {f : Forest} (hf : f.Proper false) {log : EventLog}
    (hlog : log.toList = f.encode) (text : String) (errors : List SyntaxError) :
    (Tree.ofLog text log errors).elements.toList.map Row.ofElement = f.outline none 0 := by
  obtain ⟨hrows, -, -⟩ := Forest.play_spec f ({}, []) (fun id hid => by simp at hid)
  rw [Tree.elements_ofLog hf hlog]
  exact hrows.trans (by simp [TreeBuilder.rows])

end LuaAnalysis.Syntax
