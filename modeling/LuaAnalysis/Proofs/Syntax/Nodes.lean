import Mathlib.Data.List.Basic
import LuaAnalysis.Document.Ids
import LuaAnalysis.Syntax.Tree

namespace LuaAnalysis.Syntax

open Document

namespace Tree

variable {t : Tree} {doc : DocId} {id c : ElementId} {kind : NodeKind}

theorem isNode_of_nodeKind? (h : t.nodeKind? id = some kind) : t.isNode id = true := by
  rw [isNode, h]
  rfl

theorem nodeKind?_of_kind (h : t.kind id = kind) (hne : kind ≠ .absent) :
    t.nodeKind? id = some kind := by
  unfold Tree.kind at h
  cases hkind : t.nodeKind? id with
  | none => exact absurd (by simpa [hkind] using h.symm) hne
  | some k => simpa [hkind] using h

theorem kind_of_nodeKind? (h : t.nodeKind? id = some kind) : t.kind id = kind := by
  rw [Tree.kind, h]
  rfl

theorem nodeKind?_of_child? (h : t.child? id kind = some c) : t.nodeKind? c = some kind := by
  simpa using List.find?_some h

theorem childToken?_spec {kind : TokenKind} (h : t.childToken? id kind = some c) :
    c ∈ t.children id ∧ t.tokenKind? c = some kind :=
  ⟨List.mem_of_find?_eq_some h, by simpa using List.find?_some h⟩

theorem nodeKind?_of_mem_childrenOf (h : c ∈ t.childrenOf id kind) : t.nodeKind? c = some kind := by
  simpa using (List.mem_filter.1 h).2

theorem kind_of_mem_childrenOf (h : c ∈ t.childrenOf id kind) : t.kind c = kind :=
  kind_of_nodeKind? (nodeKind?_of_mem_childrenOf h)

theorem isNode_of_mem_childrenOf (h : c ∈ t.childrenOf id kind) : t.isNode c = true :=
  isNode_of_nodeKind? (nodeKind?_of_mem_childrenOf h)

theorem isNode_of_mem_childNodes (h : c ∈ t.childNodes id) : t.isNode c = true :=
  (List.mem_filter.1 h).2

theorem isNode_of_mem_exprs (h : c ∈ t.exprs id) : t.isNode c = true :=
  isNode_of_mem_childNodes (List.mem_filter.1 h).1

theorem exprs_subset_children (t : Tree) (id : ElementId) :
    t.exprs id ⊆ t.children id := fun _ hc =>
  (List.mem_filter.1 (List.mem_filter.1 hc).1).1

theorem notMem_exprs (h : (t.kind c).isExpr = false) : c ∉ t.exprs id := fun hc => by
  rw [(List.mem_filter.1 hc).2] at h
  cases h

def Has (t : Tree) (doc : DocId) (n : NodeRef) : Prop := n.doc = doc ∧ t.isNode n.element = true

def HasKind (t : Tree) (doc : DocId) (kind : NodeKind) (n : NodeRef) : Prop :=
  n.doc = doc ∧ t.nodeKind? n.element = some kind

theorem has_mk (h : t.isNode id = true) : t.Has doc ⟨doc, id⟩ := ⟨rfl, h⟩

theorem hasKind_mk (h : t.nodeKind? id = some kind) : t.HasKind doc kind ⟨doc, id⟩ := ⟨rfl, h⟩

end Tree

end LuaAnalysis.Syntax
