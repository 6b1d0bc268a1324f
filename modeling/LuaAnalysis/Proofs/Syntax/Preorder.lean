import LuaAnalysis.Proofs.Syntax.Layout

namespace LuaAnalysis.Syntax

namespace Tree

/-- An element and all below it, each node before what is in it, at most `fuel` levels deep. -/
def preorderFrom (t : Tree) : Nat → ElementId → List ElementId
  | 0, _ => []
  | fuel + 1, id => id :: (t.children id).flatMap (t.preorderFrom fuel)

def preorder (t : Tree) : List ElementId := t.preorderFrom t.size root

end Tree

def childIds (id : ElementId) : ElementId → List (Option ElementId) → List ElementId
  | _, [] => []
  | start, parent :: parents =>
    if parent = some id then start :: childIds id (start + 1) parents
      else childIds id (start + 1) parents

theorem childIds_append (id start : ElementId) (ps qs : List (Option ElementId)) :
    childIds id start (ps ++ qs) = childIds id start ps ++ childIds id (start + ps.length) qs := by
  induction ps generalizing start with
  | nil => rfl
  | cons p ps ih =>
    rw [List.cons_append, childIds, childIds, ih, List.length_cons, Nat.add_assoc, Nat.add_comm 1]
    split <;> rfl

theorem childIds_eq_nil {id : ElementId} {parents : List (Option ElementId)} (h : some id ∉ parents)
    (start : ElementId) : childIds id start parents = [] := by
  induction parents generalizing start with
  | nil => rfl
  | cons p ps ih =>
    rw [List.mem_cons, not_or] at h
    rw [childIds, if_neg (Ne.symm h.1), ih h.2]

def walk (parents : List (Option ElementId)) : Nat → ElementId → List ElementId
  | 0, _ => []
  | fuel + 1, id => id :: (childIds id 0 parents).flatMap (walk parents fuel)

namespace Layout

def parents (parent : Option ElementId) (start : ElementId) (l : Layout) :
    List (Option ElementId) :=
  (l.outline parent start).map (·.parent)

def roots (start : ElementId) : Layout → List ElementId
  | .nil => []
  | .token l _ _ => l.roots start ++ [start + l.size]
  | .node l _ _ => l.roots start ++ [start + l.size]

theorem parents_token (parent : Option ElementId) (start : ElementId) (l : Layout)
    (kind : TokenKind) (span : Span) : (Layout.token l kind span).parents parent start =
    l.parents parent start ++ [parent] := by
  simp [parents, outline, Row.token]

theorem parents_node (parent : Option ElementId) (start : ElementId) (l : Layout) (kind : NodeKind)
    (inside : Layout) : (Layout.node l kind inside).parents parent start = l.parents parent start ++
      parent :: inside.parents (some (start + l.size)) (start + l.size + 1) := by
  simp [parents, outline, Row.node]

theorem length_parents (parent : Option ElementId) (start : ElementId) (l : Layout) :
    (l.parents parent start).length = l.size := by
  rw [parents, List.length_map, length_outline]

theorem mem_parents {parent : Option ElementId} {start id : Nat} {l : Layout}
    (h : some id ∈ l.parents parent start) : some id = parent ∨ start ≤ id ∧
    id < start + l.size := by
  induction l generalizing parent start with
  | nil => simp [parents, outline] at h
  | token l kind span ih =>
    rw [parents_token, List.mem_append, List.mem_singleton] at h
    rcases h with h | h
    · exact (ih h).imp_right fun h => ⟨h.1, by rw [size]; omega⟩
    · exact .inl h
  | node l kind inside ih ihInside =>
    rw [parents_node, List.mem_append, List.mem_cons] at h
    rw [size]
    rcases h with h | h | h
    · exact (ih h).imp_right fun h => ⟨h.1, by omega⟩
    · exact .inl h
    · refine .inr ?_
      rcases ihInside h with h | h
      · obtain rfl := Option.some.inj h
        omega
      · omega

theorem childIds_parents {id start : Nat} (hid : id < start) (l : Layout) :
    childIds id start (l.parents (some id) start) = l.roots start := by
  induction l with
  | nil => rfl
  | token l kind span ih =>
    rw [parents_token, childIds_append, ih, length_parents, roots, childIds, if_pos rfl, childIds]
  | node l kind inside ih _ =>
    rw [parents_node, childIds_append, ih, length_parents, roots, childIds, if_pos rfl,
      childIds_eq_nil]
    intro h
    rcases mem_parents h with h | h
    · have := Option.some.inj h
      omega
    · omega

/-- The elements of a layout among all elements of a tree: those before have smaller parents, and
none behind stands in it. -/
structure Among (l : Layout) (parent : Option ElementId) (start : Nat)
    (pre post : List (Option ElementId)) : Prop where
  length_eq : pre.length = start
  parent_lt : ∀ id : Nat, parent = some id → id < start
  pre_lt : ∀ id : Nat, some id ∈ pre → id < start
  post_apart : ∀ id : Nat, some id ∈ post → id < start ∨ start + l.size ≤ id

section

variable {l body : Layout} {parent : Option ElementId} {start : Nat}
  {pre post : List (Option ElementId)} {kind : TokenKind} {span : Span} {nodeKind : NodeKind}

theorem Among.of_token (h : (Layout.token l kind span).Among parent start pre post) :
    l.Among parent start pre (parent :: post) := by
  refine ⟨h.length_eq, h.parent_lt, h.pre_lt, fun id hid => ?_⟩
  rcases List.mem_cons.1 hid with hid | hid
  · exact .inl (h.parent_lt id hid.symm)
  · exact (h.post_apart id hid).imp_right fun h => by rw [size] at h; omega

theorem Among.of_node (h : (Layout.node l nodeKind body).Among parent start pre post) :
    l.Among parent start pre (parent ::
      (body.parents (some (start + l.size)) (start + l.size + 1) ++ post)) := by
  refine ⟨h.length_eq, h.parent_lt, h.pre_lt, fun id hid => ?_⟩
  rw [List.mem_cons, List.mem_append] at hid
  rcases hid with hid | hid | hid
  · exact .inl (h.parent_lt id hid.symm)
  · rcases mem_parents hid with hid | hid
    · have := Option.some.inj hid
      omega
    · omega
  · exact (h.post_apart id hid).imp_right fun h => by rw [size] at h; omega

theorem Among.lt_node (h : (Layout.node l nodeKind body).Among parent start pre post) {id : Nat}
    (hid : some id ∈ pre ++ l.parents parent start ++ [parent]) : id < start + l.size := by
  rw [List.mem_append, List.mem_append, List.mem_singleton] at hid
  rcases hid with (hid | hid) | hid
  · exact Nat.lt_of_lt_of_le (h.pre_lt id hid) (Nat.le_add_right _ _)
  · rcases mem_parents hid with hid | hid
    · exact Nat.lt_of_lt_of_le (h.parent_lt id hid.symm) (Nat.le_add_right _ _)
    · exact hid.2
  · exact Nat.lt_of_lt_of_le (h.parent_lt id hid.symm) (Nat.le_add_right _ _)

theorem Among.inside (h : (Layout.node l nodeKind body).Among parent start pre post) :
    body.Among (some (start + l.size)) (start + l.size + 1)
    (pre ++ l.parents parent start ++ [parent]) post := by
  refine ⟨?_, fun id hid => ?_, fun id hid => Nat.lt_succ_of_lt (h.lt_node hid), fun id hid => ?_⟩
  · rw [List.length_append, List.length_append, length_parents, h.length_eq]
    rfl
  · rw [← Option.some.inj hid]
    exact Nat.lt_succ_self _
  · have := h.post_apart id hid
    rw [size] at this
    omega

theorem Among.childIds_token (h : (Layout.token l kind span).Among parent start pre post) :
    childIds (start + l.size) 0 (pre ++ (Layout.token l kind span).parents parent start ++ post) =
    [] := by
  refine childIds_eq_nil (fun hid => ?_) 0
  rw [parents_token, List.mem_append, List.mem_append, List.mem_append, List.mem_singleton] at hid
  rcases hid with (hid | hid | hid) | hid
  · have := h.pre_lt _ hid
    omega
  · rcases mem_parents hid with hid | hid
    · have := h.parent_lt _ hid.symm
      omega
    · omega
  · have := h.parent_lt _ hid.symm
    omega
  · have := h.post_apart _ hid
    rw [size] at this
    omega

theorem Among.childIds_node (h : (Layout.node l nodeKind body).Among parent start pre post) :
    childIds (start + l.size) 0
    (pre ++ (Layout.node l nodeKind body).parents parent start ++ post) =
    body.roots (start + l.size + 1) := by
  have hpre : some (start + l.size) ∉ pre ++ l.parents parent start ++ [parent] := fun hid =>
    Nat.lt_irrefl _ (h.lt_node hid)
  have hpost : some (start + l.size) ∉ post := fun hid => by
    have := h.post_apart _ hid
    rw [size] at this
    omega
  have hsplit : pre ++ (Layout.node l nodeKind body).parents parent start ++ post =
      pre ++ l.parents parent start ++ [parent] ++
      body.parents (some (start + l.size)) (start + l.size + 1) ++ post := by
    simp [parents_node]
  rw [hsplit, childIds_append, childIds_append, childIds_eq_nil hpre, childIds_eq_nil hpost,
    h.inside.length_eq, Nat.zero_add, childIds_parents (Nat.lt_succ_self _), List.nil_append,
    List.append_nil]

end

theorem flatMap_walk (l : Layout) {pre post : List (Option ElementId)} {parent : Option ElementId}
    {start fuel : Nat} (h : l.Among parent start pre post) (hfuel : l.size ≤ fuel) :
    (l.roots start).flatMap (walk (pre ++ l.parents parent start ++ post) fuel) =
    List.range' start l.size := by
  induction l generalizing pre post parent start fuel with
  | nil => rfl
  | token l kind span ih =>
    rw [size] at hfuel
    have hfront := ih h.of_token (show l.size ≤ fuel by omega)
    have hlast := h.childIds_token
    obtain ⟨fuel, rfl⟩ : ∃ n, fuel = n + 1 := ⟨fuel - 1, by omega⟩
    rw [parents_token] at hlast ⊢
    rw [roots, List.flatMap_append, size]
    simp only [List.append_assoc, List.singleton_append] at hfront hlast ⊢
    rw [hfront, List.range'_concat, List.flatMap_singleton, walk, hlast, Nat.one_mul]
    rfl
  | node l kind inside ih ihInside =>
    rw [size] at hfuel
    have hfront := ih h.of_node (show l.size ≤ fuel by omega)
    have hchildren := h.childIds_node
    obtain ⟨fuel, rfl⟩ : ∃ n, fuel = n + 1 := ⟨fuel - 1, by omega⟩
    have hinside := ihInside h.inside (show inside.size ≤ fuel by omega)
    rw [parents_node] at hchildren ⊢
    rw [roots, List.flatMap_append, size]
    simp only [List.append_assoc, List.cons_append, List.nil_append] at hfront hchildren hinside ⊢
    have hlast : start + (l.size + 1) = start + l.size + 1 := rfl
    rw [hfront, List.flatMap_singleton, walk, hchildren, hinside, ← List.range'_append,
      List.range'_concat, Nat.one_mul, Nat.one_mul, hlast, List.append_assoc]
    rfl

end Layout

namespace TreeBuilder

/-- The children of an element are those that tell it as their parent, in their order. -/
structure Linked (b : TreeBuilder) : Prop where
  children : ∀ (id : Nat) (e : Element), b.elements[id]? = some e →
    e.children.toList = childIds id 0 (b.elements.toList.map (·.parent))
  parent_lt : ∀ id : Nat, some id ∈ b.elements.toList.map (·.parent) → id < b.elements.size
  opened_lt : ∀ id ∈ b.opened, id < b.elements.size

variable {b : TreeBuilder}

theorem parents_modify {f : Element → Element} (hf : ∀ e, (f e).parent = e.parent)
    (es : Array Element) (i : Nat) : (es.modify i f).toList.map (·.parent) =
    es.toList.map (·.parent) := by
  rw [Array.toList_modify]
  exact map_modify_of_eq fun e _ => hf e

theorem parents_push (b : TreeBuilder) (kind : ElementKind) (span : Span) :
    (b.push kind span).elements.toList.map (·.parent) = b.elements.toList.map (·.parent) ++
    [b.opened.head?] := by
  unfold push
  cases b.opened.head? with
  | none => simp
  | some p =>
    refine (parents_modify ?_ _ p).trans (by simp)
    exact fun _ => rfl

theorem size_push (b : TreeBuilder) (kind : ElementKind) (span : Span) :
    (b.push kind span).elements.size = b.elements.size + 1 := by
  have hlength := congrArg List.length (parents_push b kind span)
  simpa using hlength

theorem Linked.children_push (h : b.Linked) {kind : ElementKind} {span : Span} {id : Nat}
    {e : Element}
    (he : (b.elements.push ⟨kind, span, b.opened.head?, #[], b.elements.size + 1⟩)[id]? = some e) :
    e.children.toList = childIds id 0 (b.elements.toList.map (·.parent)) := by
  rw [Array.getElem?_push] at he
  split at he
  · rename_i hid
    subst hid
    obtain rfl := Option.some.inj he
    refine (childIds_eq_nil (fun hself => ?_) 0).symm
    exact Nat.lt_irrefl _ (h.parent_lt _ hself)
  · exact h.children id e he

theorem Linked.push (h : b.Linked) (kind : ElementKind) (span : Span) :
    (b.push kind span).Linked := by
  refine ⟨fun id e he => ?_, fun id hid => ?_, fun id hid => ?_⟩
  · rw [parents_push, childIds_append, List.length_map, Array.length_toList, Nat.zero_add]
    cases hparent : b.opened.head? with
    | none =>
      simp only [TreeBuilder.push, hparent] at he
      rw [h.children_push (hparent ▸ he), childIds, if_neg (by simp)]
      simp [childIds]
    | some p =>
      simp only [TreeBuilder.push, hparent, Array.getElem?_modify] at he
      rw [childIds, childIds]
      split at he
      · rename_i hp
        obtain ⟨e', he', rfl⟩ := Option.map_eq_some_iff.1 he
        rw [if_pos (congrArg some hp), ← h.children_push (hparent ▸ he')]
        simp
      · rename_i hp
        rw [if_neg (fun heq => hp (Option.some.inj heq)), h.children_push (hparent ▸ he),
          List.append_nil]
  · rw [parents_push, List.mem_append, List.mem_singleton] at hid
    rw [size_push]
    rcases hid with hid | hid
    · exact Nat.lt_succ_of_lt (h.parent_lt id hid)
    · exact Nat.lt_succ_of_lt (h.opened_lt id (List.mem_of_mem_head? hid.symm))
  · rw [size_push]
    exact Nat.lt_succ_of_lt (h.opened_lt id hid)

theorem Linked.openNode (h : b.Linked) (kind : NodeKind) : (b.openNode kind).Linked := by
  have hpush := h.push (.node kind) (.empty b.lastStop)
  refine ⟨hpush.children, hpush.parent_lt, fun id hid => ?_⟩
  rcases List.mem_cons.1 hid with rfl | hid
  · show (b.push (.node kind) (.empty b.lastStop)).elements.size - 1 <
      (b.push (.node kind) (.empty b.lastStop)).elements.size
    rw [size_push]
    omega
  · exact hpush.opened_lt id hid

theorem Linked.finishNode (h : b.Linked) : b.finishNode.Linked := by
  unfold TreeBuilder.finishNode
  split
  · exact h
  · rename_i x opened hopened
    have hparents := parents_modify (f := fun e : Element => { e with
      span := (b.elements[x]?.bind (childrenHull? b.elements)).getD e.span
      next := b.elements.size }) (fun _ => rfl) b.elements x
    refine ⟨fun id e he => ?_, fun id hid => ?_, fun id hid => ?_⟩
    · rw [hparents]
      rw [Array.getElem?_modify] at he
      split at he
      · obtain ⟨e', he', rfl⟩ := Option.map_eq_some_iff.1 he
        exact h.children id e' he'
      · exact h.children id e he
    · rw [hparents] at hid
      rw [Array.size_modify]
      exact h.parent_lt id hid
    · rw [Array.size_modify]
      exact h.opened_lt id (by rw [hopened]; exact List.mem_cons_of_mem _ hid)

theorem Linked.openNodes (h : b.Linked) (kinds : List NodeKind) :
    (kinds.foldl TreeBuilder.openNode b).Linked := by
  induction kinds generalizing b with
  | nil => exact h
  | cons kind kinds ih => exact ih (h.openNode kind)

theorem Linked.replay (h : b.Linked) (log : EventLog) (position : Nat) (errors : List SyntaxError) :
    (TreeBuilder.replay log position b errors).2.1.Linked := by
  unfold TreeBuilder.replay
  split
  · exact h.openNodes _
  · exact ⟨(h.push _ _).children, (h.push _ _).parent_lt, (h.push _ _).opened_lt⟩
  · exact h
  · exact h.finishNode
  · exact h

theorem Linked.replayFrom (h : b.Linked) (count position : Nat) (log : EventLog)
    (errors : List SyntaxError) :
    (TreeBuilder.replayFrom count position log b errors).1.Linked := by
  induction count generalizing b position log errors with
  | zero => exact h
  | succ count ih => exact ih (h.replay log position errors) _ _ _

end TreeBuilder

theorem Tree.children_ofLog (text : String) (log : EventLog) (errors : List SyntaxError)
    (id : Nat) : (Tree.ofLog text log errors).children id =
      childIds id 0 ((Tree.ofLog text log errors).elements.toList.map (·.parent)) := by
  have hstart : TreeBuilder.Linked {} := ⟨by simp, by simp, by simp⟩
  have hlinked : ∀ b, b = (TreeBuilder.replayFrom log.size 0 log {} []).1 → b.Linked := by
    rintro _ rfl
    exact hstart.replayFrom _ _ _ _
  have h := hlinked _ rfl
  rw [Tree.children]
  cases he : (Tree.ofLog text log errors).elements[id]? with
  | some e => exact h.children id e he
  | none =>
    refine (childIds_eq_nil (fun hid => ?_) 0).symm
    have hlt : id < (Tree.ofLog text log errors).elements.size := h.parent_lt id hid
    simp [hlt] at he

theorem Tree.preorderFrom_ofLog (text : String) (log : EventLog) (errors : List SyntaxError)
    (fuel : Nat) (id : ElementId) : (Tree.ofLog text log errors).preorderFrom fuel id =
      walk ((Tree.ofLog text log errors).elements.toList.map (·.parent)) fuel id := by
  induction fuel generalizing id with
  | zero => rfl
  | succ fuel ih =>
    rw [Tree.preorderFrom, walk, Tree.children_ofLog]
    exact congrArg _ (congrArg (List.flatMap · _) (funext ih))

section

variable {text : String} {log : EventLog} {errors : List SyntaxError}

theorem Tree.preorder_of_rows {l : Layout} (hroots : l.roots 0 = [root])
    (hrows : (Tree.ofLog text log errors).elements.toList.map Row.ofElement = l.outline none 0) :
    (Tree.ofLog text log errors).preorder = List.range (Tree.ofLog text log errors).size := by
  have hparents : (Tree.ofLog text log errors).elements.toList.map (·.parent) =
      l.parents none 0 := by
    rw [Layout.parents, ← hrows, Row.map_parent_ofElement]
  have hsize : (Tree.ofLog text log errors).size = l.size := by
    have hlength := congrArg List.length hparents
    simpa [Layout.length_parents, Tree.size] using hlength
  have hwalk : (l.roots 0).flatMap (walk ([] ++ l.parents none 0 ++ []) l.size) =
      List.range' 0 l.size :=
    Layout.flatMap_walk l ⟨rfl, by simp, by simp, by simp⟩ (Nat.le_refl _)
  rw [hroots, List.flatMap_singleton, List.nil_append, List.append_nil] at hwalk
  rw [Tree.preorder, Tree.preorderFrom_ofLog, hparents, hsize, List.range_eq_range']
  exact hwalk

theorem Tree.preorder_ofLog {b : Branch} (hb : b.Proper false)
    (hlog : log.toList = b.encode false) :
    (Tree.ofLog text log errors).preorder = List.range (Tree.ofLog text log errors).size := by
  have hrows := Tree.rows_ofLog (f := .branch .nil b) ⟨trivial, hb⟩
    (by simpa [Forest.encode] using hlog) text errors
  rw [Forest.outline_layout] at hrows
  exact Tree.preorder_of_rows rfl hrows

end

end LuaAnalysis.Syntax
