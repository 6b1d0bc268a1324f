import LuaAnalysis.Proofs.Syntax.ShapeQueries
import LuaAnalysis.Proofs.Syntax.TokenAt

namespace LuaAnalysis.Syntax

namespace Shape

def codeKinds (shapes : List Shape) : List NodeKind :=
  (shapes.filterMap nodeKind?).filter (· != .comment)

/-- All nodes stand where they may. -/
inductive Placed : Shape → Prop
  | token (kind : TokenKind) (text : String) : Placed (.token kind text)
  | node {kind : NodeKind} {children : List Shape} : codeKinds children ∈ kind.production →
      (∀ s ∈ children, s.Placed) → Placed (.node kind children)

theorem codeKinds_append (shapes shapes' : List Shape) :
    codeKinds (shapes ++ shapes') = codeKinds shapes ++ codeKinds shapes' := by
  rw [codeKinds, List.filterMap_append, List.filter_append]
  rfl

theorem Placed.present {s : Shape} (h : s.Placed) : s.Present := by
  cases h with
  | token => rintro ⟨⟩
  | node hrow => exact fun habsent =>
    NodeKind.present_of_mem_production hrow (Option.some.inj habsent)

end Shape

open Shape

theorem Layout.codeKinds_shapes (text : String) (l : Layout) :
    Shape.codeKinds (l.shapes text) = l.kinds := by
  induction l with
  | nil => rfl
  | token l _ _ ih =>
    rw [shapes, Shape.codeKinds_append, ih]
    exact List.append_nil _
  | node l kind _ ih _ =>
    rw [shapes, Shape.codeKinds_append, ih]
    rfl

theorem Layout.placed_shapes (text : String) {l : Layout} (h : l.Placed) :
    ∀ s ∈ l.shapes text, s.Placed := by
  induction l with
  | nil => simp [shapes]
  | token l kind span ih =>
    rw [shapes, List.forall_mem_append, List.forall_mem_singleton]
    exact ⟨ih h, .token _ _⟩
  | node l kind inside ih ihInside =>
    obtain ⟨hl, hrow, hinside⟩ := h
    rw [shapes, List.forall_mem_append, List.forall_mem_singleton]
    exact ⟨ih hl, .node (inside.codeKinds_shapes text ▸ hrow) (ihInside hinside)⟩

namespace Tree

variable {t : Tree} {n : Nat} {id p c : ElementId}

def codeNodes (t : Tree) (id : ElementId) : List ElementId :=
  (t.childNodes id).filter fun c => t.kind c != .comment

theorem map_kind_codeNodes (t : Tree) (id : ElementId) :
    (t.codeNodes id).map t.kind = ((t.children id).filterMap t.nodeKind?).filter
    (· != .comment) := by
  rw [codeNodes, childNodes]
  induction t.children id with
  | nil => rfl
  | cons c cs ih =>
    cases hkind : t.nodeKind? c with
    | none => simpa [isNode, hkind] using ih
    | some kind => by_cases hcomment : kind = .comment <;>
        simpa [isNode, Tree.kind, hkind, hcomment] using ih

theorem mem_codeNodes : c ∈ t.codeNodes id ↔ c ∈ t.children id ∧ t.isNode c = true ∧
    t.kind c ≠ .comment := by
  simp [codeNodes, childNodes]
  tauto

theorem codeNodes_sublist_children (t : Tree) (id : ElementId) :
    (t.codeNodes id).Sublist (t.children id) :=
  List.filter_sublist.trans List.filter_sublist

theorem exprs_eq_filter : t.exprs id = (t.codeNodes id).filter fun c => (t.kind c).isExpr := by
  rw [exprs, codeNodes, List.filter_filter]
  refine List.filter_congr fun c _ => ?_
  cases t.kind c <;> rfl

theorem exprs_sublist_codeNodes (t : Tree) (id : ElementId) :
    (t.exprs id).Sublist (t.codeNodes id) := by
  rw [exprs_eq_filter]
  exact List.filter_sublist

theorem nodeKind?_beq_some {kind : NodeKind} (hkind : kind ≠ .absent ∧ kind ≠ .comment)
    (c : ElementId) : (t.nodeKind? c == some kind) =
    (t.isNode c && (t.kind c != .comment && t.kind c == kind)) := by
  cases hc : t.nodeKind? c with
  | none => simp [isNode, hc]
  | some kind' => by_cases heq : kind' = kind <;> simp [isNode, Tree.kind, hc, heq, hkind.2]

theorem child?_eq_find? {kind : NodeKind} (hkind : kind ≠ .absent ∧ kind ≠ .comment) :
    t.child? id kind = (t.codeNodes id).find? fun c => t.kind c == kind := by
  rw [child?, codeNodes, childNodes, List.find?_filter, List.find?_filter]
  simp only [nodeKind?_beq_some hkind, Bool.decide_and, Bool.decide_eq_true]

theorem childrenOf_eq_filter {kind : NodeKind} (hkind : kind ≠ .absent ∧ kind ≠ .comment) :
    t.childrenOf id kind = (t.codeNodes id).filter fun c => t.kind c == kind := by
  rw [childrenOf, codeNodes, childNodes, List.filter_filter, List.filter_filter]
  refine List.filter_congr fun c _ => ?_
  rw [nodeKind?_beq_some hkind]
  grind

theorem children_of_placed (h : (t.shapeFrom n id).Placed) (hnode : t.isNode id = true) :
    (∃ m, ∀ c ∈ t.children id, (t.shapeFrom m c).Placed) ∧
    (t.codeNodes id).map t.kind ∈ (t.kind id).production := by
  cases hshape : t.shapeFrom n id with
  | token kind text =>
    rw [isNode, nodeKind?_of_tokenKind? (shapeFrom_eq_token hshape).1] at hnode
    cases hnode
  | node kind shapes =>
    rw [hshape] at h
    cases h with
    | node hrow hplaced =>
      obtain ⟨m, -, hid, rfl⟩ := shapeFrom_eq_node (NodeKind.present_of_mem_production hrow) hshape
      rw [List.forall_mem_map] at hplaced
      refine ⟨⟨m, hplaced⟩, ?_⟩
      have hkinds : (t.codeNodes id).map t.kind =
          Shape.codeKinds ((t.children id).map (t.shapeFrom m)) := by
        rw [map_kind_codeNodes, Shape.codeKinds, List.filterMap_map]
        refine congrArg (List.filter _) (List.filterMap_congr fun c hc => ?_)
        exact (kinds_of_present (hplaced c hc).present).1
      rwa [hkinds, Tree.kind, hid]

theorem placed_of_root (hw : t.WellNested) (hroot : (t.shape root).Placed) (h : id < t.size) :
    ∃ n, (t.shapeFrom n id).Placed := by
  induction id using Nat.strong_induction_on with
  | _ id ih =>
    cases hparent : t.parent? id with
    | none =>
      obtain rfl := (hw.parent_eq_none id h).1 hparent
      exact ⟨_, hroot⟩
    | some p =>
      obtain ⟨hnode, hlt⟩ := hw.parent_node id p hparent
      obtain ⟨n, hplaced⟩ := ih p hlt (Nat.lt_trans hlt h)
      obtain ⟨⟨m, hchildren⟩, -⟩ := children_of_placed hplaced hnode
      exact ⟨m, hchildren id (hw.mem_children_iff.2 hparent)⟩

/-- What stands in a node follows its production. -/
structure FollowsProductions (t : Tree) : Prop where
  row : ∀ id, t.isNode id = true → (t.codeNodes id).map t.kind ∈ (t.kind id).production

theorem followsProductions_of_root (hw : t.WellNested) (hroot : (t.shape root).Placed) :
    t.FollowsProductions := by
  refine ⟨fun id hnode => ?_⟩
  obtain ⟨n, hplaced⟩ := placed_of_root hw hroot (lt_size_of_isNode hnode)
  exact (children_of_placed hplaced hnode).2

theorem FollowsProductions.row_of_kind (h : t.FollowsProductions) {kind : NodeKind}
    (hkind : t.kind id = kind) (hpresent : kind ≠ .absent) :
    (t.codeNodes id).map t.kind ∈ kind.production :=
  hkind ▸ h.row id (isNode_of_nodeKind? (nodeKind?_of_kind rfl (hkind ▸ hpresent)))

theorem FollowsProductions.holds (h : t.FollowsProductions) (hnode : t.isNode id = true) :
    (t.kind id).Holds ((t.codeNodes id).map t.kind) :=
  NodeKind.holds_of_mem_production (h.row id hnode)

end Tree

theorem parse_placed_root (text : String) : ((parse text).shape Tree.root).Placed := by
  obtain ⟨f, hf, hlog, -⟩ := exists_chunk text
  have hchunk := hf.node (show NodeKind.chunk ≠ .absent ∧ NodeKind.chunk ≠ .comment by decide)
  rw [parse_eq, Tree.shape_ofLog hchunk.proper hlog, Branch.shape]
  refine .node ?_ (Layout.placed_shapes text hchunk.placed)
  rw [Layout.codeKinds_shapes]
  exact hchunk.kinds_mem

theorem parse_followsProductions (text : String) : (parse text).FollowsProductions :=
  Tree.followsProductions_of_root (parse_wellNested text).1 (parse_placed_root text)

/-- What is true of the tree of any text. -/
structure Tree.Orderly (t : Tree) : Prop extends t.WellNested, t.Snug, t.FollowsProductions

theorem parse_orderly (text : String) : (parse text).Orderly :=
  ⟨(parse_wellNested text).1, Tree.snug_parse text, parse_followsProductions text⟩

namespace Tree.Orderly

variable {t : Tree} {id p : ElementId} (ht : t.Orderly)

include ht

theorem mayHold_of_parent? (h : t.parent? id = some p) (hkind : (t.kind id).isPlaced = true) :
    (t.kind p).mayHold (t.kind id) = true := by
  have hid : t.isNode id = true := by
    refine isNode_of_nodeKind? (nodeKind?_of_kind rfl fun habsent => ?_)
    rw [habsent] at hkind
    cases hkind
  refine (ht.holds (ht.parent_node id p h).1).1 _ (List.mem_map_of_mem ?_)
  refine mem_codeNodes.2 ⟨ht.mem_children_iff.2 h, hid, fun hcomment => ?_⟩
  rw [hcomment] at hkind
  cases hkind

theorem length_blocks_le (h : t.isNode p = true) : (t.childrenOf p .block).length ≤ 1 := by
  have hcount := (ht.holds h).2
  rw [List.count, List.countP_map, List.countP_eq_length_filter] at hcount
  rwa [childrenOf_eq_filter (by decide)]

theorem child?_block_of_parent? (h : t.parent? id = some p) (hkind : t.kind id = .block) :
    t.child? p .block = some id := by
  have hlength := ht.length_blocks_le (ht.parent_node id p h).1
  have hid : id ∈ t.childrenOf p .block :=
    List.mem_filter.2 ⟨ht.mem_children_iff.2 h, by simp
      [nodeKind?_of_kind hkind NodeKind.noConfusion]⟩
  rw [child?, ← List.head?_filter]
  change (t.childrenOf p .block).head? = some id
  obtain ⟨other, hblocks⟩ :=
    List.length_eq_one_iff.1 (Nat.le_antisymm hlength (List.length_pos_of_mem hid))
  rw [hblocks, List.mem_singleton] at hid
  rw [hblocks, hid]
  rfl

end Tree.Orderly

end LuaAnalysis.Syntax
