import LuaAnalysis.Proofs.Syntax.Nodes
import LuaAnalysis.Proofs.Syntax.Shape

namespace LuaAnalysis.Syntax

namespace Shape

def nodeKind? : Shape → Option NodeKind
  | .node kind _ => some kind
  | .token _ _ => none

def tokenKind? : Shape → Option TokenKind
  | .node _ _ => none
  | .token kind _ => some kind

def isType (s : Shape) : Bool := (s.nodeKind?.map NodeKind.isType).getD false

def Present (s : Shape) : Prop := s.nodeKind? ≠ some .absent

instance (s : Shape) : Decidable s.Present := inferInstanceAs (Decidable (_ ≠ _))

end Shape

namespace Tree

variable {t : Tree} {n : Nat} {id c : ElementId} {shapes : List Shape} {text : String}

theorem nodeKind?_of_tokenKind? {kind : TokenKind} (h : t.tokenKind? id = some kind) :
    t.nodeKind? id = none := by
  unfold tokenKind? at h
  unfold nodeKind?
  split at h
  · rename_i hid
    rw [hid]
  · cases h

theorem shapeFrom_eq_token {kind : TokenKind} (h : t.shapeFrom n id = .token kind text) :
    t.tokenKind? id = some kind ∧ t.textOf id = text := by
  cases n with
  | zero => cases h
  | succ n =>
    rw [shapeFrom] at h
    split at h
    · rename_i kind' hkind
      obtain ⟨rfl, rfl⟩ := Shape.token.inj h
      exact ⟨hkind, rfl⟩
    · cases h

theorem shapeFrom_eq_node {kind : NodeKind} (hkind : kind ≠ .absent)
    (h : t.shapeFrom n id = .node kind shapes) : ∃ m, n = m + 1 ∧ t.nodeKind? id = some kind ∧
    (t.children id).map (t.shapeFrom m) = shapes := by
  cases n with
  | zero => exact absurd (Shape.node.inj h).1.symm hkind
  | succ n =>
    rw [shapeFrom] at h
    split at h
    · cases h
    · obtain ⟨hid, hshapes⟩ := Shape.node.inj h
      exact ⟨n, rfl, nodeKind?_of_kind hid hkind, hshapes⟩

theorem kinds_of_present (h : (t.shapeFrom n id).Present) :
    t.nodeKind? id = (t.shapeFrom n id).nodeKind? ∧
    t.tokenKind? id = (t.shapeFrom n id).tokenKind? := by
  cases hshape : t.shapeFrom n id with
  | token kind text =>
    obtain ⟨hkind, -⟩ := shapeFrom_eq_token hshape
    exact ⟨nodeKind?_of_tokenKind? hkind, hkind⟩
  | node kind shapes =>
    have hpresent : kind ≠ .absent := by
      rintro rfl
      rw [hshape] at h
      exact h rfl
    obtain ⟨-, -, hkind, -⟩ := shapeFrom_eq_node hpresent hshape
    refine ⟨hkind, ?_⟩
    cases htoken : t.tokenKind? id with
    | none => rfl
    | some kind' =>
      rw [nodeKind?_of_tokenKind? htoken] at hkind
      cases hkind

section

variable (h : (t.children id).map (t.shapeFrom n) = shapes) (hpresent : ∀ s ∈ shapes, s.Present)

include h hpresent

theorem kinds_of_mem_children (hc : c ∈ t.children id) :
    t.nodeKind? c = (t.shapeFrom n c).nodeKind? ∧ t.tokenKind? c = (t.shapeFrom n c).tokenKind? :=
  kinds_of_present (hpresent _ (h ▸ List.mem_map_of_mem hc))

theorem map_child? (kind : NodeKind) :
    (t.child? id kind).map (t.shapeFrom n) = shapes.find? fun s => s.nodeKind? == some kind := by
  subst h
  rw [child?, ← List.head?_filter, ← List.head?_filter, List.filter_map, List.head?_map]
  refine congrArg (fun cs => (List.head? cs).map _) (List.filter_congr fun c hc => ?_)
  rw [Function.comp, (kinds_of_mem_children rfl hpresent hc).1]

theorem map_childToken? (kind : TokenKind) :
    (t.childToken? id kind).map (t.shapeFrom n) = shapes.find? fun s =>
      s.tokenKind? == some kind := by
  subst h
  rw [childToken?, ← List.head?_filter, ← List.head?_filter, List.filter_map, List.head?_map]
  refine congrArg (fun cs => (List.head? cs).map _) (List.filter_congr fun c hc => ?_)
  rw [Function.comp, (kinds_of_mem_children rfl hpresent hc).2]

theorem map_childTokens : (t.childTokens id).map (t.shapeFrom n) = shapes.filter fun s =>
      s.nodeKind?.isNone := by
  subst h
  rw [childTokens, List.filter_map]
  refine congrArg (List.map _) (List.filter_congr fun c hc => ?_)
  rw [Function.comp, isNode, (kinds_of_mem_children rfl hpresent hc).1]
  cases (t.shapeFrom n c).nodeKind? <;> rfl

theorem map_types : (t.types id).map (t.shapeFrom n) = shapes.filter Shape.isType := by
  subst h
  rw [types, childNodes, List.filter_filter, List.filter_map]
  refine congrArg (List.map _) (List.filter_congr fun c hc => ?_)
  rw [Function.comp, Shape.isType, isNode, kind, (kinds_of_mem_children rfl hpresent hc).1]
  cases (t.shapeFrom n c).nodeKind? <;> simp [NodeKind.isType]

theorem nameText?_eq (hname : shapes.find? (fun s => s.tokenKind? == some .name) =
      some (.token .name text)) :
    t.nameText? id = some text := by
  have htoken := map_childToken? h hpresent .name
  rw [hname, Option.map_eq_some_iff] at htoken
  obtain ⟨c, hc, hshape⟩ := htoken
  rw [nameText?, hc, Option.map_some, (shapeFrom_eq_token hshape).2]

end

theorem exists_child? (wanted : NodeKind) {kind : NodeKind} {s : Shape}
    (h : t.shapeFrom n id = .node kind shapes) (hkind : kind ≠ .absent)
    (hpresent : ∀ s ∈ shapes, s.Present)
    (hfind : shapes.find? (fun s => s.nodeKind? == some wanted) = some s) :
    ∃ c m, m ≤ n ∧ t.child? id wanted = some c ∧ t.shapeFrom m c = s := by
  obtain ⟨m, rfl, -, hchildren⟩ := shapeFrom_eq_node hkind h
  have hchild := map_child? hchildren hpresent wanted
  rw [hfind, Option.map_eq_some_iff] at hchild
  obtain ⟨c, hc, hshape⟩ := hchild
  exact ⟨c, m, Nat.le_succ m, hc, hshape⟩

end Tree

end LuaAnalysis.Syntax
