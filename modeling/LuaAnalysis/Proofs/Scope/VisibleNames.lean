import LuaAnalysis.Proofs.Scope.Redescription
import LuaAnalysis.Syntax.Grammar.Stat

/-!
Which names are seen. The scopes around an offset are walked outward, and every scope stands behind
the one around it, so the walk ends. What it lists is a graph: each name once, with what the name
means.
-/

namespace LuaAnalysis.Scope

open Document Syntax

def DeclTree.OuterFirst (t : DeclTree) : Prop :=
  ∀ (i : Nat) (b : Block) (p : Nat), t.blocks[i]? = some b → b.parent = some p → p < i

def Binder.Open (b : Binder) : Prop := ∀ i ∈ b.opened, i < b.found.blocks.size

/-- A part of the walk closes the scopes that it opens, and opens none around those that were
there. -/
structure Binder.Nests (b₀ b : Binder) : Prop where
  opened_eq : b.opened = b₀.opened
  size_le : b₀.found.blocks.size ≤ b.found.blocks.size
  outerFirst : b₀.Open → b₀.found.OuterFirst → b.found.OuterFirst

section Nesting

variable {t : DeclTree} {b₀ b : Binder}

theorem DeclTree.OuterFirst.pushBlock (h : t.OuterFirst) {parent : Option Nat}
    (hparent : ∀ p, parent = some p → p < t.blocks.size) (kind : BlockKind) (span : Span) :
    (t.pushBlock parent kind span).OuterFirst := by
  intro i b p hb hp
  simp only [DeclTree.pushBlock] at hb
  rw [Array.getElem?_push] at hb
  split at hb
  · rename_i hi
    obtain rfl := Option.some.inj hb
    exact hi ▸ hparent p hp
  · exact h i b p hb hp

theorem DeclTree.exists_block_of_addDecl {block : Option Nat} {d : Decl} {i : Nat} {s : Block}
    (h : (t.addDecl block d).blocks[i]? = some s) : ∃ s', t.blocks[i]? = some s' ∧
    s'.parent = s.parent := by
  simp only [DeclTree.addDecl] at h
  cases block with
  | none => exact ⟨s, h, rfl⟩
  | some j =>
    simp only [Array.getElem?_modify] at h
    split at h
    · obtain ⟨s', hs', rfl⟩ := Option.map_eq_some_iff.1 h
      exact ⟨s', hs', rfl⟩
    · exact ⟨s, h, rfl⟩

theorem DeclTree.OuterFirst.addDecl (h : t.OuterFirst) (block : Option Nat) (d : Decl) :
    (t.addDecl block d).OuterFirst := by
  intro i s p hs hp
  obtain ⟨s', hs', hparent⟩ := DeclTree.exists_block_of_addDecl hs
  exact h i s' p hs' (hparent.trans hp)

theorem DeclTree.size_blocks_addDecl (t : DeclTree) (block : Option Nat) (d : Decl) :
    (t.addDecl block d).blocks.size = t.blocks.size := by
  cases block with
  | none => rfl
  | some i => exact Array.size_modify

theorem Binder.Nests.isOpen (h : b₀.Nests b) (hopen : b₀.Open) : b.Open := by
  intro i hi
  rw [h.opened_eq] at hi
  exact Nat.lt_of_lt_of_le (hopen i hi) h.size_le

theorem Binder.Open.enter (h : b.Open) (kind : BlockKind) (span : Span) :
    (b.enter kind span).Open := by
  intro i hi
  have hsize : (b.enter kind span).found.blocks.size = b.found.blocks.size + 1 := Array.size_push _
  rw [hsize]
  rcases List.mem_cons.1 hi with rfl | hi
  · exact Nat.lt_succ_self _
  · exact Nat.lt_succ_of_lt (h i hi)

theorem Binder.stepwise_nests (tree : Tree) (doc : DocId) :
    Binder.Stepwise tree doc Binder.Nests where
  refl _ := ⟨rfl, Nat.le_refl _, fun _ h => h⟩
  inBlock {b₀ b} kind span step h hinner := by
    refine ⟨h.opened_eq, ?_, fun hopen houter => ?_⟩
    · have hsize : (b.enter kind span).found.blocks.size = b.found.blocks.size + 1 :=
        Array.size_push _
      exact Nat.le_trans h.size_le (Nat.le_trans (hsize ▸ Nat.le_succ _) hinner.size_le)
    · have hinside := h.isOpen hopen
      refine hinner.outerFirst (hinside.enter kind span)
        ((h.outerFirst hopen houter).pushBlock (fun p hp => ?_) kind span)
      exact hinside p (List.mem_of_head? hp)
  declare {b₀ b} d _ h :=
    ⟨h.opened_eq, Nat.le_trans h.size_le (Nat.le_of_eq (DeclTree.size_blocks_addDecl ..).symm),
      fun hopen houter => (h.outerFirst hopen houter).addDecl _ d⟩
  refer _ _ _ h := ⟨h.opened_eq, h.size_le, h.outerFirst⟩

theorem bindDocument_outerFirst (tree : Tree) (doc : DocId) :
    (bindDocument tree doc).OuterFirst := by
  obtain ⟨b, hb, hfound⟩ := exists_bindDocument (Binder.stepwise_nests tree doc)
  exact hfound ▸ hb.outerFirst nofun fun i s p hs _ => by simp at hs

end Nesting

namespace DeclTree

variable {t : DeclTree} {d : Decl} {name : String} {offset fuel : Nat} {block? : Option Nat}

/-- The scopes from one outward, up to one that nothing is around. -/
inductive Outward (t : DeclTree) : Option Nat → List Block → Prop
  | outside : t.Outward none []
  | scope {i : Nat} {b : Block} {bs : List Block} (h : t.blocks[i]? = some b)
      (hrest : t.Outward b.parent bs) : t.Outward (some i) (b :: bs)

theorem OuterFirst.outward_chainFrom (h : t.OuterFirst)
    (hfuel : ∀ i, block? = some i → i < fuel ∧ i < t.blocks.size) :
    t.Outward block? (t.chainFrom fuel block?) := by
  induction fuel generalizing block? with
  | zero =>
    cases block? with
    | none => exact .outside
    | some i => exact absurd (hfuel i rfl).1 (Nat.not_lt_zero i)
  | succ fuel ih =>
    cases block? with
    | none => exact .outside
    | some i =>
      obtain ⟨hi, hsize⟩ := hfuel i rfl
      have hblock : t.blocks[i]? = some t.blocks[i] := Array.getElem?_eq_getElem hsize
      rw [chainFrom, hblock]
      refine .scope hblock (ih fun p hp => ?_)
      have hlt : p < i := h i _ p hblock hp
      omega

theorem lt_of_blockAt? {i : Nat} (h : t.blockAt? offset = some i) : i < t.blocks.size :=
  List.mem_range.1 (List.mem_filter.1 (List.mem_of_getLast? h)).1

theorem OuterFirst.outward_blocksAround (h : t.OuterFirst) (offset : Nat) :
    t.Outward (t.blockAt? offset) (t.blocksAround offset) :=
  h.outward_chainFrom fun _ hi => ⟨lt_of_blockAt? hi, lt_of_blockAt? hi⟩

theorem mem_dropShadowed {seen : List String} {ds : List Decl} :
    d ∈ dropShadowed seen ds ↔ d.name ∉ seen ∧ ds.find? (·.name == d.name) = some d := by
  induction ds generalizing seen with
  | nil => simp [dropShadowed]
  | cons e ds ih =>
    rw [dropShadowed]
    by_cases hname : e.name = d.name
    · -- `e` hides every later declaration of the name
      split
      · simp_all
      · simp_all [eq_comm]
    · split
      · simp [ih, hname]
      · have hne : d ≠ e := fun h => hname (congrArg Decl.name h.symm)
        simp [ih, hname, hne, Ne.symm hname]

theorem nodup_dropShadowed (seen : List String) (ds : List Decl) :
    ((dropShadowed seen ds).map (·.name)).Nodup := by
  induction ds generalizing seen with
  | nil => exact .nil
  | cons e ds ih =>
    rw [dropShadowed]
    split
    · exact ih seen
    · refine List.nodup_cons.2 ⟨fun hmem => ?_, ih _⟩
      obtain ⟨d, hd, hname⟩ := List.mem_map.1 hmem
      exact (mem_dropShadowed.1 hd).1 (hname ▸ .head _)

theorem decl?_eq_some_iff (h : (t.decls.toList.map (·.id)).Nodup) {id : DeclId} :
    t.decl? id = some d ↔ d ∈ t.decls ∧ d.id = id := by
  constructor
  · intro hd
    exact ⟨Array.mem_of_find?_eq_some hd, id_eq_of_decl? hd⟩
  · rintro ⟨hd, rfl⟩
    exact decl?_of_mem h hd

theorem find?_filter_decls (h : (t.decls.toList.map (·.id)).Nodup) (q : Decl → Bool) (id : DeclId) :
    (t.decls.filter q).find? (·.id == id) = (t.decl? id).filter q := by
  let left : DeclTree := { t with decls := t.decls.filter q }
  have hleft : (left.decls.toList.map (·.id)).Nodup := by
    rw [Array.toList_filter]
    exact h.sublist (List.filter_sublist.map _)
  ext d
  rw [show (t.decls.filter q).find? (·.id == id) = left.decl? id from rfl, decl?_eq_some_iff hleft,
    Array.mem_filter, Option.filter_eq_some_iff, decl?_eq_some_iff h]
  tauto

theorem findLocal?_eq_find? (h : (t.decls.toList.map (·.id)).Nodup) (name : String) (offset : Nat) :
    t.findLocal? name offset = (t.inScope offset).find? (·.name == name) := by
  have hblock (ids : List DeclId) :
      (ids.findSome? fun id => (t.decl? id).filter fun d => d.name == name &&
        d.visibleFrom ≤ offset) = ((ids.filterMap t.decl?).filter fun d =>
          d.visibleFrom ≤ offset).find? (·.name == name) := by
    induction ids with
    | nil => rfl
    | cons id ids ih =>
      rw [List.findSome?_cons, ih, List.filterMap_cons]
      cases t.decl? id with
      | none => rfl
      | some d =>
        by_cases hfrom : d.visibleFrom ≤ offset <;> by_cases hname : d.name = name <;>
          simp [Option.filter, hfrom, hname]
  simp only [findLocal?, inScope, find?_filter_decls h, List.find?_flatMap, hblock]

/-- The walk outward ends. What is listed at an offset has no name twice, and it has a declaration
just if this is what its name means there. -/
theorem visibleLocals_graph (h : t.Finished) (offset : Nat) :
    t.OuterFirst ∧ t.Outward (t.blockAt? offset) (t.blocksAround offset) ∧
      ((t.visibleLocals offset).map (·.name)).Nodup ∧
      ∀ d, d ∈ t.visibleLocals offset ↔ t.findLocal? d.name offset = some d := by
  obtain ⟨tree, doc, hmore⟩ := h
  have houter : t.OuterFirst := by
    rw [OuterFirst, hmore.blocks_eq]
    exact bindDocument_outerFirst tree doc
  have hnodup : (t.decls.toList.map (·.id)).Nodup :=
    (hmore.within (bindDocument_within tree doc)).nodup
  refine ⟨houter, houter.outward_blocksAround offset, nodup_dropShadowed [] _, fun d => ?_⟩
  rw [visibleLocals, mem_dropShadowed, findLocal?_eq_find? hnodup]
  simp

/-- Where `b` is set to `a`: the first `a` is hidden by the second in the same scope, and the second
`b` is not seen yet. -/
theorem visibleLocals_graph_hidden :
    let t := bindDocument (parse "local a, b\nlocal a\ndo local b = a local c end") 0
    t.Finished ∧ (t.visibleLocals 32).map (fun d => (d.name, d.id.position)) =
    [("a", 17), ("b", 9)] ∧
      t.OuterFirst ∧ t.Outward (t.blockAt? 32) (t.blocksAround 32) ∧
      ((t.visibleLocals 32).map (·.name)).Nodup ∧
      ∀ d, d ∈ t.visibleLocals 32 ↔ t.findLocal? d.name 32 = some d := by
  intro t
  have hfinished : t.Finished := ⟨_, _, .refl t⟩
  exact ⟨hfinished, by decide +kernel, visibleLocals_graph hfinished 32⟩

end DeclTree

end LuaAnalysis.Scope
