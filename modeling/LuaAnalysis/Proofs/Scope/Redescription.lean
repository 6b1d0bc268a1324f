import LuaAnalysis.Proofs.Scope.BoundTree

/-!
Declarations of which more is said once they are found. What is said finds no other declaration for
a name.
-/

namespace LuaAnalysis.Scope

open Document Syntax

/-- More is said about a declaration, but neither what it declares nor where its name is seen. -/
structure Decl.Redescribes (d d' : Decl) : Prop where
  id_eq : d'.id = d.id
  name_eq : d'.name = d.name
  kind_eq : d'.kind = d.kind
  node_eq : d'.node = d.node
  value_eq : d'.value? = d.value?
  visibleFrom_eq : d'.visibleFrom = d.visibleFrom

namespace Decl

theorem Redescribes.refl (d : Decl) : d.Redescribes d := ⟨rfl, rfl, rfl, rfl, rfl, rfl⟩

theorem Redescribes.trans {d d' d'' : Decl} (h : d.Redescribes d') (h' : d'.Redescribes d'') :
    d.Redescribes d'' :=
  ⟨h'.id_eq.trans h.id_eq, h'.name_eq.trans h.name_eq, h'.kind_eq.trans h.kind_eq,
    h'.node_eq.trans h.node_eq, h'.value_eq.trans h.value_eq,
    h'.visibleFrom_eq.trans h.visibleFrom_eq⟩

end Decl

namespace DeclTree

/-- More is said about the declarations of a document. -/
structure Redescribes (t t' : DeclTree) : Prop where
  doc_eq : t'.doc = t.doc
  blocks_eq : t'.blocks = t.blocks
  references_eq : t'.references = t.references
  exists_map : ∃ f : Decl → Decl, (∀ d : Decl, d.Redescribes (f d)) ∧ t'.decls = t.decls.map f

/-- What was found in a document, with more said about it. -/
def Finished (t : DeclTree) : Prop := ∃ tree doc, (bindDocument tree doc).Redescribes t

variable {t t' t'' : DeclTree}

theorem Redescribes.refl (t : DeclTree) : t.Redescribes t :=
  ⟨rfl, rfl, rfl, id, Decl.Redescribes.refl, by simp⟩

theorem Redescribes.trans (h : t.Redescribes t') (h' : t'.Redescribes t'') : t.Redescribes t'' := by
  obtain ⟨f, hf, hdecls⟩ := h.exists_map
  obtain ⟨g, hg, hdecls'⟩ := h'.exists_map
  refine ⟨h'.doc_eq.trans h.doc_eq, h'.blocks_eq.trans h.blocks_eq,
    h'.references_eq.trans h.references_eq, g ∘ f, ?_, ?_⟩
  · intro d
    exact (hf d).trans (hg _)
  · rw [hdecls', hdecls, Array.map_map]

theorem redescribes_modifyDecl (t : DeclTree) (id : DeclId) {f : Decl → Decl}
    (hf : ∀ d : Decl, d.Redescribes (f d)) : t.Redescribes (t.modifyDecl id f) := by
  refine ⟨rfl, rfl, rfl, fun d => if d.id == id then f d else d, fun d => ?_, rfl⟩
  dsimp only
  split
  · exact hf d
  · exact .refl d

theorem redescribes_foldl {α : Type} {step : DeclTree → α → DeclTree}
    (h : ∀ (t : DeclTree) (a : α), t.Redescribes (step t a)) (as : List α) (t : DeclTree) :
    t.Redescribes (as.foldl step t) := by
  induction as generalizing t with
  | nil => exact .refl t
  | cons a as ih => exact (h t a).trans (ih _)

theorem Redescribes.chainFrom_eq (h : t.Redescribes t') (fuel : Nat) (block : Option Nat) :
    t'.chainFrom fuel block = t.chainFrom fuel block := by
  induction fuel generalizing block with
  | zero => rfl
  | succ fuel ih =>
    cases block with
    | none => rfl
    | some i =>
      rw [chainFrom, chainFrom, h.blocks_eq]
      split
      · rw [ih]
      · rfl

theorem Redescribes.findLocal_id (h : t.Redescribes t') (name : String) (offset : Nat) :
    (t'.findLocal? name offset).map (·.id) = (t.findLocal? name offset).map (·.id) := by
  obtain ⟨f, hf, hdecls⟩ := h.exists_map
  have hblocks : t'.blocksAround offset = t.blocksAround offset := by
    rw [blocksAround, blocksAround, h.chainFrom_eq, blockAt?, blockAt?, h.blocks_eq]
  have hnamed : (t'.decls.filter fun d => d.name == name && d.visibleFrom ≤ offset) =
      (t.decls.filter fun d => d.name == name && d.visibleFrom ≤ offset).map f := by
    rw [hdecls, Array.filter_map]
    congr 2
    funext d
    simp [(hf d).name_eq, (hf d).visibleFrom_eq]
  -- The search reads only what `f` keeps, so it stops at the same place of both trees.
  have hfind : t'.findLocal? name offset = (t.findLocal? name offset).map f := by
    simp only [findLocal?, hblocks, hnamed, Array.find?_map, List.map_findSome?]
    congr 1
    funext b
    rw [Function.comp_apply, List.map_findSome?]
    congr 1
    funext id
    rw [Function.comp_apply]
    congr 2
    funext d
    simp [(hf d).id_eq]
  rw [hfind, Option.map_map]
  congr 1
  funext d
  exact (hf d).id_eq

theorem Redescribes.exists_mem (h : t.Redescribes t') {d' : Decl} (hd' : d' ∈ t'.decls) :
    ∃ d ∈ t.decls, d.Redescribes d' := by
  obtain ⟨f, hf, hdecls⟩ := h.exists_map
  rw [hdecls] at hd'
  obtain ⟨d, hd, rfl⟩ := Array.mem_map.1 hd'
  exact ⟨d, hd, hf d⟩

theorem Redescribes.isSome_decl?_iff (h : t.Redescribes t') (id : DeclId) :
    (t'.decl? id).isSome = true ↔ (t.decl? id).isSome = true := by
  obtain ⟨f, hf, hdecls⟩ := h.exists_map
  simp [decl?, hdecls, (hf _).id_eq]

theorem Redescribes.ids_eq (h : t.Redescribes t') :
    t'.decls.toList.map (·.id) = t.decls.toList.map (·.id) := by
  obtain ⟨f, hf, hdecls⟩ := h.exists_map
  have hids : (fun d => d.id) ∘ f = fun d : Decl => d.id := funext fun d => (hf d).id_eq
  rw [hdecls, Array.toList_map, List.map_map, hids]

theorem Redescribes.exists_decl? (h : t.Redescribes t')
    (hnodup : (t.decls.toList.map (·.id)).Nodup) {d : Decl} (hd : d ∈ t.decls) :
    ∃ d', t'.decl? d.id = some d' ∧ d.Redescribes d' := by
  have hnodup' : (t'.decls.toList.map (·.id)).Nodup := h.ids_eq ▸ hnodup
  obtain ⟨f, hf, hdecls⟩ := h.exists_map
  have hmem : f d ∈ t'.decls := hdecls ▸ Array.mem_map_of_mem hd
  exact ⟨f d, (hf d).id_eq ▸ decl?_of_mem hnodup' hmem, hf d⟩

theorem Redescribes.within {tree : Tree} {doc : DocId} (h : t.Redescribes t')
    (hwithin : t.Within tree doc) : t'.Within tree doc where
  doc_eq := h.doc_eq.trans hwithin.doc_eq
  nodup := h.ids_eq ▸ hwithin.nodup
  decl d' hd' := by
    obtain ⟨d, hd, hmore⟩ := h.exists_mem hd'
    have hold := hwithin.decl d hd
    refine ⟨hmore.id_eq ▸ hold.id_doc, hmore.node_eq ▸ hold.node, ?_, ?_⟩
    · rw [hmore.value_eq]
      exact hold.value
    · rw [hmore.kind_eq]
      exact hold.closure
  listed := by
    rw [h.blocks_eq]
    exact fun b hb id hid => (h.isSome_decl?_iff id).2 (hwithin.listed b hb id hid)
  used := by
    rw [h.references_eq]
    exact fun r hr => (h.isSome_decl?_iff r.1).2 (hwithin.used r hr)

end DeclTree

end LuaAnalysis.Scope
