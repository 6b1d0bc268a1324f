import LuaAnalysis.Proofs.Scope.Lexical
import LuaAnalysis.Proofs.Scope.VisibleNames

/-!
What a part of the walk that finds the declarations needs, and what it leaves alone. Each part has a
region of the text to itself: before it nothing is declared there and the innermost scope is the
open one, and what it does is seen there only.
-/

namespace LuaAnalysis.Scope

open Document Syntax

section

variable {t : Tree} {n c d k : ElementId}

theorem region_subset (hw : t.WellNested) (h : c ∈ t.children n) : region t c ⊆ region t n := by
  obtain ⟨hstart, hstop⟩ := hw.bounds (.single (hw.mem_children_iff.1 h))
  exact Set.Ico_subset_Ico hstart hstop

theorem disjoint_region_of_le (h : (t.span c).stop ≤ (t.span d).start) :
    Disjoint (region t c) (region t d) :=
  Set.disjoint_left.2 fun _ hc hd => Nat.not_lt_of_le (h.trans hd.1) hc.2

theorem disjoint_region (hw : t.WellNested) (hc : c ∈ t.children n) (hd : d ∈ t.children n)
    (hne : c ≠ d) : Disjoint (region t c) (region t d) := by
  rcases (hw.apart hc hd).resolve_left hne with hle | hle
  · exact disjoint_region_of_le hle
  · exact (disjoint_region_of_le hle).symm

theorem pairwise_disjoint_region (hw : t.WellNested) {nodes : List ElementId}
    (h : nodes.Sublist (t.children n)) : nodes.Pairwise fun c d =>
      Disjoint (region t c) (region t d) :=
  ((hw.siblings n).sublist h).imp disjoint_region_of_le

theorem disjoint_regions_region (hw : t.WellNested) {nodes : List ElementId}
    (h : nodes ⊆ t.children n) (hd : d ∈ t.children n) (hne : d ∉ nodes) :
    Disjoint (⋃ c ∈ nodes, region t c) (region t d) :=
  Set.disjoint_iUnion₂_left.2 fun _ hc => disjoint_region hw (h hc) hd fun heq => hne (heq ▸ hc)

theorem disjoint_regions (hw : t.WellNested) {nodes nodes' : List ElementId}
    (h : nodes ⊆ t.children n) (h' : nodes' ⊆ t.children n) (hne : ∀ d ∈ nodes', d ∉ nodes) :
    Disjoint (⋃ c ∈ nodes, region t c) (⋃ d ∈ nodes', region t d) :=
  Set.disjoint_iUnion₂_right.2 fun d hd => disjoint_regions_region hw h (h' hd) (hne d hd)

theorem regions_subset (hw : t.WellNested) {nodes : List ElementId} (h : nodes ⊆ t.children n) :
    ⋃ c ∈ nodes, region t c ⊆ region t n := Set.iUnion₂_subset fun _ hc => region_subset hw (h hc)

theorem start_mem_region (hs : t.Snug) {kind : TokenKind} (h : t.tokenKind? k = some kind) :
    (t.span k).start ∈ region t k :=
  ⟨Nat.le_refl _, hs.token_lt k (h ▸ rfl)⟩

theorem start_childToken?_mem (hw : t.WellNested) (hs : t.Snug) {kind : TokenKind}
    (h : t.childToken? n kind = some k) : (t.span k).start ∈ region t n := by
  obtain ⟨hk, htoken⟩ := Tree.childToken?_spec h
  exact region_subset hw hk (start_mem_region hs htoken)

theorem eq_of_start_eq (hw : t.WellNested) (hs : t.Snug) {k k' : ElementId} {kind kind' : TokenKind}
    (hk : t.tokenKind? k = some kind) (hk' : t.tokenKind? k' = some kind')
    (hstart : (t.span k).start = (t.span k').start) :
    k = k' := by
  have hfound : t.tokenAt? (t.span k).start = some k :=
    hw.tokenAt?_of_lt (by rw [Tree.isToken, hk]; rfl) le_rfl (start_mem_region hs hk).2
  have hfound' : t.tokenAt? (t.span k).start = some k' :=
    hw.tokenAt?_of_lt (by rw [Tree.isToken, hk']; rfl) hstart.ge
      (hstart ▸ (start_mem_region hs hk').2)
  exact Option.some.inj (hfound.symm.trans hfound')

end

def Decl.toLocal (d : Decl) : Local := ⟨d.name, d.id⟩

namespace DeclTree

variable {t t' : DeclTree} {i : Nat} {b s : Block} {d : Decl} {id : DeclId} {block? : Option Nat}
  {offset : Nat}

def ownLocals (t : DeclTree) (b : Block) : List Decl := b.decls.toList.reverse.filterMap t.decl?

def localsFrom (t : DeclTree) (block? : Option Nat) : List Decl :=
  (t.chainFrom t.blocks.size block?).flatMap t.ownLocals

theorem inScope_eq (t : DeclTree) (offset : Nat) :
    t.inScope offset = (t.localsFrom (t.blockAt? offset)).filter fun d =>
      d.visibleFrom ≤ offset := by
  rw [localsFrom, List.filter_flatMap]
  rfl

theorem localsFrom_none (t : DeclTree) : t.localsFrom none = [] := by
  rw [localsFrom]
  cases t.blocks.size <;> rfl

theorem Outward.unique {bs bs' : List Block} (h : t.Outward block? bs) (h' : t.Outward block? bs') :
    bs = bs' := by
  induction h generalizing bs' with
  | outside =>
    cases h'
    rfl
  | scope hblock _ ih =>
    cases h' with
    | scope hblock' hrest' =>
      obtain rfl := Option.some.inj (hblock.symm.trans hblock')
      rw [ih hrest']

theorem localsFrom_eq (h : t.OuterFirst) {bs : List Block} (hbs : t.Outward block? bs) :
    t.localsFrom block? = bs.flatMap t.ownLocals := by
  have hsize : ∀ i, block? = some i → i < t.blocks.size ∧ i < t.blocks.size := by
    rintro i rfl
    cases hbs with
    | scope hblock _ => exact ⟨(Array.getElem?_eq_some_iff.1 hblock).1,
        (Array.getElem?_eq_some_iff.1 hblock).1⟩
  rw [localsFrom, (h.outward_chainFrom hsize).unique hbs]

theorem localsFrom_some (h : t.OuterFirst) (hs : t.blocks[i]? = some s) :
    t.localsFrom (some i) = t.ownLocals s ++ t.localsFrom s.parent := by
  have hrest : t.Outward s.parent (t.chainFrom t.blocks.size s.parent) := by
    refine h.outward_chainFrom fun p hp => ?_
    have hlt := Nat.lt_trans (h i s p hs hp) (Array.getElem?_eq_some_iff.1 hs).1
    exact ⟨hlt, hlt⟩
  rw [localsFrom_eq h (.scope hs hrest), localsFrom_eq h hrest, List.flatMap_cons]

/-- What is said of the declarations while they are found. -/
structure Sound (t : DeclTree) : Prop where
  nodup : (t.decls.toList.map (·.id)).Nodup
  listed : ∀ b ∈ t.blocks, ∀ id ∈ b.decls, (t.decl? id).isSome = true
  outerFirst : t.OuterFirst

theorem ownLocals_congr (h : ∀ id ∈ b.decls, t'.decl? id = t.decl? id) :
    t'.ownLocals b = t.ownLocals b := by
  refine List.filterMap_congr fun id hid => h id ?_
  simpa using hid

theorem localsFrom_congr (h : t.OuterFirst) (h' : t'.OuterFirst) (hi : i < t.blocks.size)
    (hblocks : ∀ j ≤ i, t'.blocks[j]? = t.blocks[j]?)
    (hdecls : ∀ b ∈ t.blocks, ∀ id ∈ b.decls, t'.decl? id = t.decl? id) :
    t'.localsFrom (some i) = t.localsFrom (some i) := by
  -- a scope comes behind the one around it
  induction i using Nat.strongRecOn with
  | ind i ih =>
    have hs : t.blocks[i]? = some t.blocks[i] := Array.getElem?_eq_getElem hi
    have hs' := (hblocks i (Nat.le_refl i)).trans hs
    rw [localsFrom_some h hs, localsFrom_some h' hs',
      ownLocals_congr (hdecls _ (Array.getElem_mem hi))]
    cases hparent : t.blocks[i].parent with
    | none => rw [localsFrom_none, localsFrom_none]
    | some p =>
      have hlt := h i _ p hs hparent
      rw [ih p hlt (Nat.lt_trans hlt hi) fun j hj => hblocks j (Nat.le_trans hj (Nat.le_of_lt hlt))]

theorem blockAt?_pushBlock (t : DeclTree) (parent : Option Nat) (kind : BlockKind) (span : Span)
    (offset : Nat) : (t.pushBlock parent kind span).blockAt? offset =
      if span.touches offset then some t.blocks.size else t.blockAt? offset := by
  have hold : ∀ j ∈ List.range t.blocks.size,
      (((t.pushBlock parent kind span).blocks[j]?).map fun b => b.span.touches offset).getD false =
        ((t.blocks[j]?).map fun b => b.span.touches offset).getD false := by
    intro j hj
    rw [pushBlock, Array.getElem?_push, if_neg (Nat.ne_of_lt (List.mem_range.1 hj))]
  have hsize : (t.pushBlock parent kind span).blocks.size = t.blocks.size + 1 := Array.size_push _
  have hlast : (t.pushBlock parent kind span).blocks[t.blocks.size]? =
      some { parent := parent, kind := kind, span := span } := by
    rw [pushBlock, Array.getElem?_push, if_pos rfl]
  rw [blockAt?, blockAt?, hsize, List.range_succ, List.filter_append, List.filter_congr hold,
    List.filter_singleton, hlast]
  cases h : span.touches offset <;> simp [h]

theorem blockAt?_addDecl (t : DeclTree) (block : Option Nat) (d : Decl) (offset : Nat) :
    (t.addDecl block d).blockAt? offset = t.blockAt? offset := by
  rw [blockAt?, blockAt?, size_blocks_addDecl]
  refine congrArg List.getLast? (List.filter_congr fun j _ => ?_)
  cases block with
  | none => rfl
  | some i =>
    simp only [addDecl, Array.getElem?_modify]
    split
    · rw [Option.map_map]
      rfl
    · rfl

theorem decls_addDecl_of_fresh (h : ∀ e ∈ t.decls, e.id ≠ d.id) (block : Option Nat) :
    (t.addDecl block d).decls = t.decls.push d := by
  have hnone : t.decls.findIdx? (fun e => e.id == d.id) = none := by
    rw [Array.findIdx?_eq_none_iff]
    simpa using h
  simp only [addDecl, hnone]

theorem decl?_addDecl_of_fresh (h : ∀ e ∈ t.decls, e.id ≠ d.id) (block : Option Nat) (id : DeclId) :
    (t.addDecl block d).decl? id = if id = d.id then some d else t.decl? id := by
  rw [decl?, decls_addDecl_of_fresh h, decl?, Array.find?_push]
  by_cases hid : id = d.id
  · subst hid
    have hnone : t.decls.find? (fun e => e.id == d.id) = none := by
      rw [Array.find?_eq_none]
      simpa using h
    simp [hnone]
  · simp [hid, Ne.symm hid]

theorem blocks_addDecl (t : DeclTree) (i : Nat) (d : Decl) (j : Nat) :
    (t.addDecl (some i) d).blocks[j]? =
    if i = j then (t.blocks[j]?).map fun s => { s with decls := s.decls.push d.id }
    else t.blocks[j]? := Array.getElem?_modify

theorem Sound.addDecl (h : t.Sound) (block : Option Nat) (d : Decl) :
    (t.addDecl block d).Sound := by
  refine ⟨nodup_addDecl h.nodup block d, fun s hs id hid => ?_, h.outerFirst.addDecl block d⟩
  refine isSome_decl?_addDecl ((mem_blocks_addDecl hs hid).imp_right ?_)
  rintro ⟨s', hs', hid'⟩
  exact h.listed s' hs' id hid'

theorem Sound.decl?_addDecl (h : t.Sound) (hfresh : ∀ e ∈ t.decls, e.id ≠ d.id) (block : Option Nat)
    (hs : s ∈ t.blocks) (hid : id ∈ s.decls) : (t.addDecl block d).decl? id = t.decl? id := by
  obtain ⟨e, he, rfl⟩ := isSome_decl?_iff.1 (h.listed s hs id hid)
  rw [decl?_addDecl_of_fresh hfresh, if_neg (hfresh e he)]

theorem Sound.localsFrom_addDecl (h : t.Sound) (hi : i < t.blocks.size)
    (hfresh : ∀ e ∈ t.decls, e.id ≠ d.id) :
    (t.addDecl (some i) d).localsFrom (some i) = d :: t.localsFrom (some i) := by
  have hsound := h.addDecl (some i) d
  have hs : t.blocks[i]? = some t.blocks[i] := Array.getElem?_eq_getElem hi
  have hs' : (t.addDecl (some i) d).blocks[i]? =
      some { t.blocks[i] with decls := t.blocks[i].decls.push d.id } := by
    rw [blocks_addDecl, if_pos rfl, hs]
    rfl
  have hparent : (t.addDecl (some i) d).localsFrom t.blocks[i].parent =
      t.localsFrom t.blocks[i].parent := by
    cases hparent : t.blocks[i].parent with
    | none => rw [localsFrom_none, localsFrom_none]
    | some p =>
      have hlt := h.outerFirst i _ p hs hparent
      refine localsFrom_congr h.outerFirst hsound.outerFirst (Nat.lt_trans hlt hi) (fun j hj => ?_)
        fun s hs id hid => ?_
      · rw [blocks_addDecl, if_neg (Nat.ne_of_gt (Nat.lt_of_le_of_lt hj hlt))]
      · exact h.decl?_addDecl hfresh _ hs hid
  -- what the scope had before is found as before, since the new declaration is at another place
  have hown : (t.addDecl (some i) d).ownLocals t.blocks[i] = t.ownLocals t.blocks[i] :=
    ownLocals_congr fun id hid => h.decl?_addDecl hfresh _ (Array.getElem_mem hi) hid
  have hhere : (t.addDecl (some i) d).decl? d.id = some d := by
    rw [decl?_addDecl_of_fresh hfresh, if_pos rfl]
  rw [localsFrom_some hsound.outerFirst hs', localsFrom_some h.outerFirst hs, hparent, ← hown,
    ownLocals, Array.toList_push, List.reverse_append, List.reverse_singleton,
    List.singleton_append, List.filterMap_cons, hhere]
  rfl

end DeclTree

theorem touches_iff_mem_region {t : Tree} {n : ElementId} {offset : Nat}
    (hopens : opensScope (t.kind n) = true) (hclear : Clear t offset) :
    (t.span n).touches offset = true ↔ offset ∈ region t n := by
  have hne := hclear n hopens
  rw [Tree.touches_iff, region, Set.mem_Ico]
  omega

def DeclTree.Finds (t : DeclTree) : Finding → Prop
  | .use decl span => (decl, span) ∈ t.references
  | .global span => ∃ d ∈ t.decls, d.isGlobal = true ∧ d.span = span
  | .lookup .. | .scope _ => False

/-- In a region of the text nothing is declared yet. -/
structure Binder.Free (region : Set Nat) (b : Binder) : Prop where
  sound : b.found.Sound
  head : ∃ i, b.opened.head? = some i ∧ i < b.found.blocks.size
  fresh : ∀ d ∈ b.found.decls, d.id.position ∉ region

/-- The walk comes to a region of the text where `env` is in scope. -/
structure Binder.Ready (t : Tree) (region : Set Nat) (env : Env) (b : Binder) :
    Prop extends b.Free region where
  innermost : ∀ o ∈ region, Clear t o → b.found.blockAt? o = b.opened.head?
  env_eq : (b.found.localsFrom b.opened.head?).map Decl.toLocal = env
  visible : ∀ d ∈ b.found.localsFrom b.opened.head?, ∀ o ∈ region, d.visibleFrom ≤ o

/-- What a part of the walk does shows in its region of the text only. It leaves the locals `new` in
scope, each of which is seen from one of the offsets `starts` on. -/
structure Binder.Extends (t : Tree) (region starts : Set Nat) (new : Env) (findings : Set Finding)
    (b b' : Binder) : Prop where
  sound : b'.found.Sound
  opened_eq : b'.opened = b.opened
  size_le : b.found.blocks.size ≤ b'.found.blocks.size
  blocks_eq : ∀ i < b.found.blocks.size, b.opened.head? ≠ some i →
    b'.found.blocks[i]? = b.found.blocks[i]?
  blockAt?_eq : ∀ o, o ∉ region → Clear t o → b'.found.blockAt? o = b.found.blockAt? o
  untouched : ∀ o, (∀ s, .scope s ∈ findings → ¬ s.touches o = true) →
    b'.found.blockAt? o = b.found.blockAt? o
  decl?_eq : ∀ id, id.position ∉ region → b'.found.decl? id = b.found.decl? id
  locals : ∃ ds, b'.found.localsFrom b.opened.head? = ds ++ b.found.localsFrom b.opened.head? ∧
    ds.map Decl.toLocal = new ∧
    ∀ d ∈ ds, d.visibleFrom ∈ starts
  references : ∃ rs, b'.found.references = b.found.references ++ rs ∧ ∀ r ∈ rs, r.2.start ∈ region
  finds_iff : ∀ x : Finding, x.IsKept → Clear t x.span.start →
    (b'.found.Finds x ↔ b.found.Finds x ∨ x ∈ findings)

/-- The walk has dealt with a region of the text. The names that were looked up there are uses of
what they are found to mean still. -/
structure Binder.Done (t : Tree) (region starts : Set Nat) (new : Env) (findings : Set Finding)
    (b b' : Binder) : Prop extends b.Extends t region starts new findings b' where
  resolves : ∀ name span, .lookup name span ∈ findings → span.start ∈ region ∧
    ∀ d, (d, span) ∈ b'.found.references ↔
      (d, span) ∈ b.found.references ∨ (b'.found.findLocal? name span.start).map (·.id) = some d

def Declares (t : Tree) (region starts : Set Nat) (new : Env) (step : Binder → Binder) : Prop :=
  ∀ b : Binder, b.Free region → b.Extends t region starts new ∅ (step b)

def Binds (t : Tree) (region starts : Set Nat) (env new : Env) (findings : Set Finding)
    (step : Binder → Binder) : Prop :=
  ∀ b : Binder, b.Ready t region env → b.Done t region starts new findings (step b)

def Unseen (findings : Set Finding) (starts : Set Nat) (findings' : Set Finding) : Prop :=
  ∀ name span, .lookup name span ∈ findings →
    (∀ v ∈ starts, span.start < v) ∧ ∀ s, .scope s ∈ findings' → ¬ s.touches span.start = true

/-- A part of the walk can follow another one: it sees what that one leaves in scope, but does not
change what was found. -/
structure Follows (region starts : Set Nat) (findings : Set Finding) (region' starts' : Set Nat)
    (findings' : Set Finding) : Prop where
  disjoint : Disjoint region region'
  seen : ∀ v ∈ starts, ∀ o ∈ region', v ≤ o
  unseen : Unseen findings starts' findings'

section

variable {t : Tree} {region region' starts starts' : Set Nat} {env new new' : Env}
  {findings findings' : Set Finding} {step step' : Binder → Binder} {b b' b'' : Binder}

theorem unseen_empty (starts : Set Nat) (findings : Set Finding) : Unseen ∅ starts findings :=
  fun _ _ hx => absurd hx (Set.notMem_empty _)

theorem Follows.iUnion_left {α : Type} {as : List α} {regions starts : α → Set Nat}
    {findings : α → Set Finding}
    (h : ∀ a ∈ as, Follows (regions a) (starts a) (findings a) region' starts' findings') :
    Follows (⋃ a ∈ as, regions a) (⋃ a ∈ as, starts a)
    (⋃ a ∈ as, findings a) region' starts' findings' := by
  refine ⟨Set.disjoint_iUnion₂_left.2 fun a ha => (h a ha).disjoint, fun v hv => ?_,
    fun name span hx => ?_⟩
  · obtain ⟨a, ha, hv⟩ := Set.mem_iUnion₂.1 hv
    exact (h a ha).seen v hv
  · obtain ⟨a, ha, hx⟩ := Set.mem_iUnion₂.1 hx
    exact (h a ha).unseen name span hx

theorem Follows.iUnion_right {α : Type} {as : List α} {regions' starts' : α → Set Nat}
    {findings' : α → Set Finding}
    (h : ∀ a ∈ as, Follows region starts findings (regions' a) (starts' a) (findings' a)) :
    Follows region starts findings (⋃ a ∈ as, regions' a) (⋃ a ∈ as, starts' a)
    (⋃ a ∈ as, findings' a) := by
  refine ⟨Set.disjoint_iUnion₂_right.2 fun a ha => (h a ha).disjoint, fun v hv o ho => ?_,
    fun name span hx => ⟨?_, ?_⟩⟩
  · obtain ⟨a, ha, ho⟩ := Set.mem_iUnion₂.1 ho
    exact (h a ha).seen v hv o ho
  · intro v hv
    obtain ⟨a, ha, hv⟩ := Set.mem_iUnion₂.1 hv
    exact ((h a ha).unseen name span hx).1 v hv
  · intro s hs
    obtain ⟨a, ha, hs⟩ := Set.mem_iUnion₂.1 hs
    exact ((h a ha).unseen name span hx).2 s hs

theorem Follows.iUnion_quiet {α β : Type} {as : List α} {cs : List β} {regions : α → Set Nat}
    {regions' : β → Set Nat} {findings : α → Set Finding} {findings' : β → Set Finding}
    (h : ∀ a ∈ as, ∀ c ∈ cs, Follows (regions a) ∅ (findings a) (regions' c) ∅ (findings' c)) :
    Follows (⋃ a ∈ as, regions a) ∅ (⋃ a ∈ as, findings a) (⋃ c ∈ cs, regions' c) ∅
      (⋃ c ∈ cs, findings' c) := by
  simpa using Follows.iUnion_left fun a ha => Follows.iUnion_right (h a ha)

theorem Binder.Free.mono (h : b.Free region) (hsub : region' ⊆ region) : b.Free region' :=
  ⟨h.sound, h.head, fun d hd hmem => h.fresh d hd (hsub hmem)⟩

theorem Binder.Ready.mono (h : b.Ready t region env) (hsub : region' ⊆ region) :
    b.Ready t region' env :=
  ⟨h.toFree.mono hsub, fun o ho => h.innermost o (hsub ho), h.env_eq,
    fun d hd o ho => h.visible d hd o (hsub ho)⟩

theorem Binder.Extends.mono (h : b.Extends t region starts new findings b')
    (hsub : region ⊆ region') (hstarts : starts ⊆ starts') :
    b.Extends t region' starts' new findings b' := by
  obtain ⟨ds, hlocals, hnew, hfrom⟩ := h.locals
  obtain ⟨rs, hreferences, hin⟩ := h.references
  exact { h with
    blockAt?_eq := fun o ho => h.blockAt?_eq o fun hmem => ho (hsub hmem)
    decl?_eq := fun id hid => h.decl?_eq id fun hmem => hid (hsub hmem)
    locals := ⟨ds, hlocals, hnew, fun d hd => hstarts (hfrom d hd)⟩
    references := ⟨rs, hreferences, fun r hr => hsub (hin r hr)⟩ }

theorem Binder.Done.mono (h : b.Done t region starts new findings b') (hsub : region ⊆ region')
    (hstarts : starts ⊆ starts') : b.Done t region' starts' new findings b' :=
  ⟨h.toExtends.mono hsub hstarts, fun name span hx =>
    ⟨hsub (h.resolves name span hx).1, (h.resolves name span hx).2⟩⟩

theorem Binder.Free.behind (h : b.Free (region ∪ region'))
    (hmore : b.Extends t region starts new findings b') (hdisjoint : Disjoint region region') :
    b'.Free region' := by
  obtain ⟨i, hi, hsize⟩ := h.head
  refine ⟨hmore.sound, ⟨i, hmore.opened_eq ▸ hi, Nat.lt_of_lt_of_le hsize hmore.size_le⟩,
    fun d hd hmem => ?_⟩
  have hdecl := hmore.decl?_eq d.id (Set.disjoint_right.1 hdisjoint hmem)
  have hsome : (b'.found.decl? d.id).isSome = true := DeclTree.isSome_decl?_iff.2 ⟨d, hd, rfl⟩
  rw [hdecl] at hsome
  obtain ⟨e, he, hid⟩ := DeclTree.isSome_decl?_iff.1 hsome
  exact h.fresh e he (Set.mem_union_right _ (hid ▸ hmem))

theorem Binder.Ready.behind (h : b.Ready t (region ∪ region') env)
    (hmore : b.Extends t region starts new findings b') (hdisjoint : Disjoint region region')
    (hseen : ∀ v ∈ starts, ∀ o ∈ region', v ≤ o) :
    b'.Ready t region' (new ++ env) := by
  obtain ⟨ds, hlocals, hnew, hvisible⟩ := hmore.locals
  refine ⟨h.toFree.behind hmore hdisjoint, fun o ho hclear => ?_, ?_, fun d hd o ho => ?_⟩
  · rw [hmore.blockAt?_eq o (Set.disjoint_right.1 hdisjoint ho) hclear, hmore.opened_eq]
    exact h.innermost o (Set.mem_union_right _ ho) hclear
  · rw [hmore.opened_eq, hlocals, List.map_append, hnew, h.env_eq]
  · rw [hmore.opened_eq, hlocals, List.mem_append] at hd
    rcases hd with hd | hd
    · exact hseen _ (hvisible d hd) o ho
    · exact h.visible d hd o (Set.mem_union_right _ ho)

theorem Binder.Extends.trans (h : b.Extends t region starts new findings b')
    (h' : b'.Extends t region' starts' new' findings' b'') :
    b.Extends t (region ∪ region') (starts ∪ starts') (new' ++ new) (findings ∪ findings') b'' := by
  obtain ⟨ds, hlocals, hnew, hvisible⟩ := h.locals
  obtain ⟨ds', hlocals', hnew', hvisible'⟩ := h'.locals
  obtain ⟨rs, hreferences, hin⟩ := h.references
  obtain ⟨rs', hreferences', hin'⟩ := h'.references
  rw [h.opened_eq, hlocals] at hlocals'
  refine ⟨h'.sound, h'.opened_eq.trans h.opened_eq, h.size_le.trans h'.size_le,
    fun i hi hhead => ?_, fun o ho hclear => ?_,
    fun o ho => ?_, fun id hid => ?_, ⟨ds' ++ ds, ?_, ?_, fun d hd => ?_⟩,
      ⟨rs ++ rs', ?_, fun r hr => ?_⟩,
    fun x hkept hx => ?_⟩
  · rw [h'.blocks_eq i (Nat.lt_of_lt_of_le hi h.size_le) (h.opened_eq ▸ hhead),
      h.blocks_eq i hi hhead]
  · rw [h'.blockAt?_eq o (fun hmem => ho (Set.mem_union_right _ hmem)) hclear,
      h.blockAt?_eq o (fun hmem => ho (Set.mem_union_left _ hmem)) hclear]
  · rw [h'.untouched o fun s hs => ho s (Set.mem_union_right _ hs),
      h.untouched o fun s hs => ho s (Set.mem_union_left _ hs)]
  · rw [h'.decl?_eq id fun hmem => hid (Set.mem_union_right _ hmem),
      h.decl?_eq id fun hmem => hid (Set.mem_union_left _ hmem)]
  · rw [hlocals', List.append_assoc]
  · rw [List.map_append, hnew, hnew']
  · rcases List.mem_append.1 hd with hd | hd
    · exact .inr (hvisible' d hd)
    · exact .inl (hvisible d hd)
  · rw [hreferences', hreferences, Array.append_assoc]
  · exact (Array.mem_append.1 hr).imp (hin r) (hin' r)
  · rw [h'.finds_iff x hkept hx, h.finds_iff x hkept hx, Set.mem_union, or_assoc]

theorem Binder.Free.fresh_of_listed (h : b.Free region) {s : Block} (hs : s ∈ b.found.blocks)
    {id : DeclId} (hid : id ∈ s.decls) : id.position ∉ region := by
  obtain ⟨d, hd, rfl⟩ := DeclTree.isSome_decl?_iff.1 (h.sound.listed s hs id hid)
  exact h.fresh d hd

theorem Binder.Extends.inEffect_eq (h : b.Extends t region starts new findings b')
    (hfree : b.Free region) {o : Nat} (hlate : ∀ v ∈ starts, o < v) {i : Nat}
    (hi : i < b.found.blocks.size) :
    (b'.found.localsFrom (some i)).filter (fun d => d.visibleFrom ≤ o) =
      (b.found.localsFrom (some i)).filter fun d => d.visibleFrom ≤ o := by
  -- a scope comes behind the one around it
  induction i using Nat.strongRecOn with
  | ind i ih =>
    by_cases hhead : b.opened.head? = some i
    · obtain ⟨ds, hlocals, -, hvisible⟩ := h.locals
      rw [hhead] at hlocals
      have hnone : ds.filter (fun d => d.visibleFrom ≤ o) = [] := by
        refine List.filter_eq_nil_iff.2 fun d hd => ?_
        simpa using hlate _ (hvisible d hd)
      rw [hlocals, List.filter_append, hnone, List.nil_append]
    · have hs : b.found.blocks[i]? = some b.found.blocks[i] := Array.getElem?_eq_getElem hi
      have hs' := (h.blocks_eq i hi hhead).trans hs
      have hown : b'.found.ownLocals b.found.blocks[i] = b.found.ownLocals b.found.blocks[i] :=
        DeclTree.ownLocals_congr fun id hid =>
          h.decl?_eq id (hfree.fresh_of_listed (Array.getElem_mem hi) hid)
      rw [DeclTree.localsFrom_some h.sound.outerFirst hs',
        DeclTree.localsFrom_some hfree.sound.outerFirst hs, hown, List.filter_append,
        List.filter_append]
      cases hparent : b.found.blocks[i].parent with
      | none => rw [DeclTree.localsFrom_none, DeclTree.localsFrom_none]
      | some p =>
        have hlt := hfree.sound.outerFirst i _ p hs hparent
        rw [ih p hlt (Nat.lt_trans hlt hi)]

theorem Binder.Extends.findLocal?_eq (h : b.Extends t region starts new findings b')
    (hfree : b.Free region) {o : Nat} (hblock : b'.found.blockAt? o = b.found.blockAt? o)
    (hlate : ∀ v ∈ starts, o < v) (name : String) :
    b'.found.findLocal? name o = b.found.findLocal? name o := by
  have hscope : b'.found.inScope o = b.found.inScope o := by
    rw [DeclTree.inScope_eq, DeclTree.inScope_eq, hblock]
    cases hat : b.found.blockAt? o with
    | none => rw [DeclTree.localsFrom_none, DeclTree.localsFrom_none]
    | some i => exact h.inEffect_eq hfree hlate (DeclTree.lt_of_blockAt? hat)
  rw [DeclTree.findLocal?_eq_find? h.sound.nodup,
    DeclTree.findLocal?_eq_find? hfree.sound.nodup, hscope]

theorem Binder.Extends.mem_references_iff (h : b.Extends t region starts new findings b')
    {d : DeclId} {span : Span} (hspan : span.start ∉ region) : (d, span) ∈ b'.found.references ↔
    (d, span) ∈ b.found.references := by
  obtain ⟨rs, hreferences, hin⟩ := h.references
  rw [hreferences, Array.mem_append, or_iff_left fun hr => hspan (hin _ hr)]

theorem Binder.Done.trans (h : b.Done t region starts new findings b')
    (h' : b'.Done t region' starts' new' findings' b'') (hfree : b'.Free region')
    (hdisjoint : Disjoint region region') (hunseen : Unseen findings starts' findings') :
    b.Done t (region ∪ region') (starts ∪ starts') (new' ++ new) (findings ∪ findings') b'' := by
  refine ⟨h.toExtends.trans h'.toExtends, ?_⟩
  rintro name span (hx | hx)
  · obtain ⟨hin, hresolves⟩ := h.resolves name span hx
    obtain ⟨hlate, huntouched⟩ := hunseen name span hx
    refine ⟨.inl hin, fun d => ?_⟩
    rw [h'.mem_references_iff (Set.disjoint_left.1 hdisjoint hin), hresolves,
      h'.findLocal?_eq hfree (h'.untouched _ huntouched) hlate]
  · obtain ⟨hin, hresolves⟩ := h'.resolves name span hx
    refine ⟨.inr hin, fun d => ?_⟩
    rw [hresolves, h.mem_references_iff (Set.disjoint_right.1 hdisjoint hin)]

theorem Binds.comp (h : Binds t region starts env new findings step)
    (h' : Binds t region' starts' (new ++ env) new' findings' step')
    (hfollows : Follows region starts findings region' starts' findings') :
    Binds t (region ∪ region') (starts ∪ starts') env (new' ++ new) (findings ∪ findings') fun b =>
      step' (step b) := by
  intro b hb
  have hdone := h b (hb.mono Set.subset_union_left)
  have hready := hb.behind hdone.toExtends hfollows.disjoint hfollows.seen
  exact hdone.trans (h' _ hready) hready.toFree hfollows.disjoint hfollows.unseen

theorem Binds.mono (h : Binds t region starts env new findings step) (hsub : region ⊆ region')
    (hstarts : starts ⊆ starts') : Binds t region' starts' env new findings step :=
  fun b hb => (h b (hb.mono hsub)).mono hsub hstarts

theorem Binds.quiet (h : Binds t region starts env [] findings step) :
    Binds t region ∅ env [] findings step := by
  intro b hb
  have hdone := h b hb
  obtain ⟨ds, hlocals, hnew, -⟩ := hdone.locals
  obtain rfl := List.map_eq_nil_iff.1 hnew
  exact { hdone with locals := ⟨[], hlocals, rfl, by simp⟩ }

theorem Binds.addScopes (h : Binds t region starts env new findings step) (scopes : Set Finding)
    (hscopes : ∀ x ∈ scopes, ∃ span, x = .scope span) :
    Binds t region starts env new (scopes ∪ findings) step := by
  intro b hb
  have hdone := h b hb
  refine ⟨{ hdone with
    untouched := fun o ho => hdone.untouched o fun s hs => ho s (.inr hs)
    finds_iff := fun x hkept hx => ?_ }, fun name span hx => ?_⟩
  · rw [hdone.finds_iff x hkept hx, Set.mem_union, or_iff_right (a := x ∈ scopes)]
    intro hmem
    obtain ⟨span, rfl⟩ := hscopes x hmem
    exact hkept
  · rcases hx with hx | hx
    · obtain ⟨span', heq⟩ := hscopes _ hx
      cases heq
    · exact hdone.resolves name span hx

theorem Declares.binds (h : Declares t region starts new step) (env : Env) :
    Binds t region starts env new ∅ step :=
  fun b hb => ⟨h b hb.toFree, fun _ _ hx => absurd hx (Set.notMem_empty _)⟩

theorem Declares.comp (h : Declares t region starts new step)
    (h' : Declares t region' starts' new' step') (hdisjoint : Disjoint region region') :
    Declares t (region ∪ region') (starts ∪ starts') (new' ++ new) fun b => step' (step b) := by
  intro b hb
  have hmore := h b (hb.mono Set.subset_union_left)
  have hboth := hmore.trans (h' _ (hb.behind hmore hdisjoint))
  rwa [Set.union_empty] at hboth

theorem Declares.mono (h : Declares t region starts new step) (hsub : region ⊆ region')
    (hstarts : starts ⊆ starts') : Declares t region' starts' new step :=
  fun b hb => (h b (hb.mono hsub)).mono hsub hstarts

theorem declares_nothing : Declares t ∅ ∅ [] fun b => b := fun _ hb =>
  ⟨hb.sound, rfl, Nat.le_refl _, fun _ _ _ => rfl, fun _ _ _ => rfl, fun _ _ => rfl, fun _ _ => rfl,
    ⟨[], rfl, rfl, by simp⟩, ⟨#[], by simp⟩, by simp⟩

theorem declares_foldl {α : Type} {as : List α} {regions : α → Set Nat} {news : α → Env}
    {step : Binder → α → Binder}
    (hstep : ∀ a ∈ as, Declares t (regions a) starts (news a) fun b => step b a)
    (hdisjoint : as.Pairwise fun a c => Disjoint (regions a) (regions c)) :
    Declares t (⋃ a ∈ as, regions a) starts (as.reverse.flatMap news) fun b => as.foldl step b := by
  induction as with
  | nil => simpa using declares_nothing.mono (Set.empty_subset _) (Set.empty_subset starts)
  | cons a as ih =>
    rw [List.forall_mem_cons] at hstep
    rw [List.pairwise_cons] at hdisjoint
    have hrest : Disjoint (regions a) (⋃ c ∈ as, regions c) := by simpa using hdisjoint.1
    have hboth := hstep.1.comp (ih hstep.2 hdisjoint.2) hrest
    simpa using hboth

theorem binds_foldl {α : Type} {as : List α} {regions starts : α → Set Nat} {news : α → Env}
    {findings : α → Set Finding} {step : Binder → α → Binder}
    (hstep : ∀ front a rest, as = front ++ a :: rest → Binds t (regions a) (starts a)
      (front.foldl (fun env a => news a ++ env) env) (news a) (findings a) fun b => step b a)
    (hordered : as.Pairwise fun a c =>
      Follows (regions a) (starts a) (findings a) (regions c) (starts c) (findings c)) :
    Binds t (⋃ a ∈ as, regions a) (⋃ a ∈ as, starts a) env (as.reverse.flatMap news)
    (⋃ a ∈ as, findings a)
      fun b => as.foldl step b := by
  induction as generalizing env with
  | nil => simpa using declares_nothing.binds env
  | cons a as ih =>
    rw [List.pairwise_cons] at hordered
    have hothers := fun front c rest heq => hstep (a :: front) c rest (congrArg (a :: ·) heq)
    have hboth := (hstep [] a as rfl).comp (ih hothers hordered.2) (.iUnion_right hordered.1)
    simpa using hboth

theorem binds_foldl_quiet {α : Type} {as : List α} {regions : α → Set Nat}
    {findings : α → Set Finding} {step : Binder → α → Binder}
    (hstep : ∀ a ∈ as, Binds t (regions a) ∅ env [] (findings a) fun b => step b a)
    (hordered : as.Pairwise fun a c => Follows (regions a) ∅ (findings a) (regions c) ∅
      (findings c)) :
    Binds t (⋃ a ∈ as, regions a) ∅ env [] (⋃ a ∈ as, findings a) fun b => as.foldl step b := by
  have hsame (front : List α) : front.foldl (fun env _ => [] ++ env) env = env := by
    induction front with
    | nil => rfl
    | cons _ front ih => exact ih
  have hnew : as.reverse.flatMap (fun _ => ([] : Env)) = [] := by simp
  have hstep' (front : List α) (a : α) (rest : List α) (heq : as = front ++ a :: rest) :
      Binds t (regions a) ∅ (front.foldl (fun env _ => [] ++ env) env) [] (findings a) fun b =>
        step b a := by
    rw [hsame]
    exact hstep a (heq ▸ by simp)
  have hall := binds_foldl hstep' hordered
  rw [hnew] at hall
  exact hall.quiet

theorem Binder.Free.localsFrom_eq (h : b.Free region) {found : DeclTree} (houter : found.OuterFirst)
    (hblocks : ∀ i < b.found.blocks.size, found.blocks[i]? = b.found.blocks[i]?)
    (hdecls : ∀ id, id.position ∉ region → found.decl? id = b.found.decl? id) :
    found.localsFrom b.opened.head? = b.found.localsFrom b.opened.head? := by
  obtain ⟨i, hi, hsize⟩ := h.head
  rw [hi]
  refine DeclTree.localsFrom_congr h.sound.outerFirst houter hsize
    (fun j hj => hblocks j (Nat.lt_of_le_of_lt hj hsize)) ?_
  exact fun s hs id hid => hdecls id (h.fresh_of_listed hs hid)

theorem Binder.getElem?_blocks_enter (b : Binder) (kind : BlockKind) (span : Span) {i : Nat}
    (hi : i < b.found.blocks.size) : (b.enter kind span).found.blocks[i]? = b.found.blocks[i]? := by
  rw [Binder.enter, DeclTree.pushBlock, Array.getElem?_push, if_neg (Nat.ne_of_lt hi)]

theorem Binder.size_blocks_enter (b : Binder) (kind : BlockKind) (span : Span) :
    (b.enter kind span).found.blocks.size = b.found.blocks.size + 1 := Array.size_push _

theorem Binder.Free.enter (h : b.Free region) (kind : BlockKind) (span : Span) :
    (b.enter kind span).Free region := by
  refine ⟨⟨h.sound.nodup, fun s hs id hid => ?_, ?_⟩,
    ⟨_, rfl, b.size_blocks_enter kind span ▸ Nat.lt_succ_self _⟩, h.fresh⟩
  · rcases Array.mem_push.1 hs with hs | rfl
    · exact h.sound.listed s hs id hid
    · exact absurd hid (by simp)
  · refine h.sound.outerFirst.pushBlock (fun p hp => ?_) kind span
    obtain ⟨i, hi, hlt⟩ := h.head
    rwa [Option.some.inj (hp.symm.trans hi)]

theorem Binder.Free.localsFrom_enter (h : b.Free region) (kind : BlockKind) (span : Span) :
    (b.enter kind span).found.localsFrom (some b.found.blocks.size) =
    b.found.localsFrom b.opened.head? := by
  have houter := (h.enter kind span).sound.outerFirst
  have hlast : (b.enter kind span).found.blocks[b.found.blocks.size]? =
      some { parent := b.opened.head?, kind := kind, span := span } := by
    rw [Binder.enter, DeclTree.pushBlock, Array.getElem?_push, if_pos rfl]
  rw [DeclTree.localsFrom_some houter hlast,
    ← h.localsFrom_eq houter (fun i hi => b.getElem?_blocks_enter kind span hi) fun _ _ => rfl]
  rfl

theorem Binder.blockAt?_enter (b : Binder) (kind : BlockKind) {span : Span} {o : Nat}
    (h : span.touches o = true) : (b.enter kind span).found.blockAt? o =
    some b.found.blocks.size := by
  rw [Binder.enter, DeclTree.blockAt?_pushBlock, if_pos h]

theorem Binder.blockAt?_enter_of_not_touches (b : Binder) (kind : BlockKind) {span : Span} {o : Nat}
    (h : ¬ span.touches o = true) : (b.enter kind span).found.blockAt? o = b.found.blockAt? o := by
  rw [Binder.enter, DeclTree.blockAt?_pushBlock, if_neg h]

theorem Binder.Ready.enter (h : b.Ready t region env) (kind : BlockKind) {span : Span}
    (hspan : ∀ o ∈ region, Clear t o → span.touches o = true) :
    (b.enter kind span).Ready t region env := by
  have hlocals := h.toFree.localsFrom_enter kind span
  refine ⟨h.toFree.enter kind span, fun o ho hclear => b.blockAt?_enter kind (hspan o ho hclear),
    hlocals ▸ h.env_eq, ?_⟩
  exact fun d hd => h.visible d (hlocals ▸ hd)

theorem Binder.Ready.inBlock (hb : b.Ready t region env) (kind : BlockKind) {span : Span}
    (hsub : region ⊆ region') (hin : ∀ o ∈ region, Clear t o → span.touches o = true)
    (hout : ∀ o, Clear t o → span.touches o = true → o ∈ region')
    (h : Binds t region starts env new findings step) :
    b.Done t region' ∅ [] ({.scope span} ∪ findings) (b.inBlock kind span step) := by
  have hdone := h _ (hb.enter kind hin)
  have hle : b.found.blocks.size ≤ (b.enter kind span).found.blocks.size :=
    b.size_blocks_enter kind span ▸ Nat.le_succ _
  have hold : ∀ i < b.found.blocks.size, (step (b.enter kind span)).found.blocks[i]? =
      b.found.blocks[i]? := by
    intro i hi
    have hne : (b.enter kind span).opened.head? ≠ some i :=
      fun heq => Nat.ne_of_lt hi (Option.some.inj heq).symm
    rw [hdone.blocks_eq i (Nat.lt_of_lt_of_le hi hle) hne, b.getElem?_blocks_enter kind span hi]
  obtain ⟨rs, hreferences, hwithin⟩ := hdone.references
  refine ⟨⟨hdone.sound, rfl, hle.trans hdone.size_le, fun i hi _ => hold i hi,
    fun o ho hclear => ?_, fun o ho => ?_,
    fun id hid => hdone.decl?_eq id fun hmem => hid (hsub hmem), ⟨[], ?_, rfl, by simp⟩,
    ⟨rs, hreferences, fun r hr => hsub (hwithin r hr)⟩, fun x hkept hx => ?_⟩, ?_⟩
  · refine (hdone.blockAt?_eq o (fun hmem => ho (hsub hmem)) hclear).trans ?_
    exact b.blockAt?_enter_of_not_touches kind fun htouches => ho (hout o hclear htouches)
  · refine (hdone.untouched o fun s hs => ho s (.inr hs)).trans ?_
    exact b.blockAt?_enter_of_not_touches kind (ho span (.inl rfl))
  · exact hb.localsFrom_eq hdone.sound.outerFirst hold hdone.decl?_eq
  · have hscope : x ≠ .scope span := by rintro rfl; exact hkept
    exact (hdone.finds_iff x hkept hx).trans (or_congr_right (by simp [hscope]))
  · rintro name span' (hx | hx)
    · cases hx
    · exact (hdone.resolves name span' hx).imp_left (hsub ·)

theorem binds_inBlock (kind : BlockKind) {span : Span}
    (hspan : ∀ o, Clear t o → (span.touches o = true ↔ o ∈ region))
    (h : Binds t region starts env new findings step) :
    Binds t region ∅ env [] ({.scope span} ∪ findings) fun b => b.inBlock kind span step :=
  fun _ hb => hb.inBlock kind subset_rfl (fun o ho hclear => (hspan o hclear).2 ho)
    (fun o hclear => (hspan o hclear).1) h

/-- A scope that is opened over what was dealt with does not change what is found there, as long as
what was innermost there is the open scope. -/
theorem Binder.Ready.findLocal?_inBlock (hb : b.Ready t region env) (kind : BlockKind) {span : Span}
    (hin : ∀ o ∈ region, Clear t o → span.touches o = true)
    (h : Binds t region starts env new findings step) {o : Nat}
    (htouches : span.touches o = true) (hblock : b.found.blockAt? o = b.opened.head?)
    (hlate : ∀ v ∈ starts, o < v)
    (huntouched : ∀ s, .scope s ∈ findings → ¬ s.touches o = true) (name : String) :
    (b.inBlock kind span step).found.findLocal? name o = b.found.findLocal? name o := by
  have hdone := h _ (hb.enter kind hin)
  have hfree := hb.toFree.enter kind span
  have hscope : (b.enter kind span).found.inScope o = b.found.inScope o := by
    rw [DeclTree.inScope_eq, DeclTree.inScope_eq, hblock, b.blockAt?_enter kind htouches,
      hb.toFree.localsFrom_enter]
  refine (hdone.findLocal?_eq hfree (hdone.untouched o huntouched) hlate name).trans ?_
  rw [DeclTree.findLocal?_eq_find? hfree.sound.nodup,
    DeclTree.findLocal?_eq_find? hb.sound.nodup, hscope]

theorem Binder.Free.ne_of_mem (h : b.Free region) {d : Decl} (hd : d.id.position ∈ region) :
    ∀ e ∈ b.found.decls, e.id ≠ d.id :=
  fun e he heq => h.fresh e he (heq ▸ hd)

theorem decl?_addDecl_of_position {found : DeclTree} {d : Decl} (h : ∀ e ∈ found.decls, e.id ≠ d.id)
    (block : Option Nat) {id : DeclId} (hid : id.position ≠ d.id.position) :
    (found.addDecl block d).decl? id = found.decl? id := by
  rw [DeclTree.decl?_addDecl_of_fresh h, if_neg fun heq => hid (congrArg DeclId.position heq)]

theorem finds_addDecl {found : DeclTree} {d : Decl} (h : ∀ e ∈ found.decls, e.id ≠ d.id)
    (block : Option Nat) (x : Finding) : (found.addDecl block d).Finds x ↔ found.Finds x ∨
    d.isGlobal = true ∧ x = .global d.span := by
  cases x with
  | use decl span => simp [DeclTree.Finds, DeclTree.addDecl]
  | global span =>
    simp only [DeclTree.Finds, DeclTree.decls_addDecl_of_fresh h, Array.mem_push,
      Finding.global.injEq]
    constructor
    · rintro ⟨e, he | rfl, hglobal, rfl⟩
      · exact .inl ⟨e, he, hglobal, rfl⟩
      · exact .inr ⟨hglobal, rfl⟩
    · rintro (⟨e, he, hglobal, rfl⟩ | ⟨hglobal, rfl⟩)
      · exact ⟨e, .inl he, hglobal, rfl⟩
      · exact ⟨d, .inr rfl, hglobal, rfl⟩
  | lookup _ _ | scope _ => simp [DeclTree.Finds]

theorem declares_local {d : Decl} (hlocal : d.isGlobal = false) (hd : d.id.position ∈ region) :
    Declares t region {d.visibleFrom} [d.toLocal] fun b => b.declare d := by
  intro b hb
  obtain ⟨i, hi, hsize⟩ := hb.head
  have hfresh := hb.ne_of_mem hd
  have hdeclare : b.declare d = { b with found := b.found.addDecl (some i) d } := by
    rw [Binder.declare, hlocal, hi]; rfl
  dsimp only
  rw [hdeclare]
  refine ⟨hb.sound.addDecl (some i) d, rfl, (DeclTree.size_blocks_addDecl ..).ge,
    fun j hj hne => ?_,
    fun o _ _ => DeclTree.blockAt?_addDecl .., fun o _ => DeclTree.blockAt?_addDecl ..,
      fun id hid => ?_,
    ⟨[d], ?_, rfl, by simp⟩, ⟨#[], by simp [DeclTree.addDecl]⟩, fun x _ _ => ?_⟩
  · rw [DeclTree.blocks_addDecl, if_neg fun heq => hne (hi.trans (congrArg some heq))]
  · exact decl?_addDecl_of_position hfresh _ fun heq => hid (heq ▸ hd)
  · rw [hi]
    exact hb.sound.localsFrom_addDecl hsize hfresh
  · rw [finds_addDecl hfresh]
    simp [hlocal]

theorem binds_global {d : Decl} (hglobal : d.isGlobal = true) (hd : d.id.position ∈ region)
    (env : Env) : Binds t region ∅ env [] {.global d.span} fun b => b.declare d := by
  intro b hb
  have hfresh := hb.ne_of_mem hd
  have hdeclare : b.declare d = { b with found := b.found.addDecl none d } := by
    rw [Binder.declare, hglobal]; rfl
  have hsound := hb.sound.addDecl none d
  have hdecls : ∀ id, id.position ∉ region → (b.found.addDecl none d).decl? id = b.found.decl? id :=
    fun id hid =>
      decl?_addDecl_of_position hfresh _ fun heq => hid (heq ▸ hd)
  dsimp only
  rw [hdeclare]
  refine ⟨⟨hsound, rfl, Nat.le_refl _, fun j hj hne => rfl, fun o _ _ => rfl,
    fun _ _ => rfl, hdecls, ⟨[], ?_, rfl, by simp⟩, ⟨#[], by simp [DeclTree.addDecl]⟩,
      fun x _ _ => ?_⟩, fun _ _ hx => nomatch hx⟩
  · exact hb.localsFrom_eq hsound.outerFirst (fun _ _ => rfl) hdecls
  · rw [finds_addDecl hfresh]
    simp [hglobal]

theorem Binder.Ready.findLocal?_eq (h : b.Ready t region env) {o : Nat} (ho : o ∈ region)
    (hclear : Clear t o) (name : String) :
    (b.found.findLocal? name o).map (·.id) = env.meaning? name := by
  have hall : b.found.inScope o = b.found.localsFrom b.opened.head? := by
    rw [DeclTree.inScope_eq, h.innermost o ho hclear, List.filter_eq_self]
    exact fun d hd => decide_eq_true (h.visible d hd o ho)
  rw [DeclTree.findLocal?_eq_find? h.sound.nodup, hall, Env.meaning?, ← h.env_eq, List.find?_map,
    Option.map_map]
  rfl

theorem finds_addReference (found : DeclTree) (id : DeclId) (span : Span) (x : Finding) :
    (found.addReference id span).Finds x ↔ found.Finds x ∨ x = .use id span := by
  cases x <;> simp [DeclTree.Finds, DeclTree.addReference]

theorem Binder.Free.addReference (h : b.Free region) {id : DeclId} {span : Span}
    (hspan : span.start ∈ region) (hfindings : ∀ x : Finding, x.IsKept → Clear t x.span.start →
      (x ∈ findings ↔ x = .use id span)) :
    b.Extends t region ∅ [] findings { b with found := b.found.addReference id span } := by
  have hsound : (b.found.addReference id span).Sound :=
    ⟨h.sound.nodup, h.sound.listed, h.sound.outerFirst⟩
  have hlocals : (b.found.addReference id span).localsFrom b.opened.head? =
      b.found.localsFrom b.opened.head? :=
    h.localsFrom_eq hsound.outerFirst (fun _ _ => rfl) fun _ _ => rfl
  refine ⟨hsound, rfl, Nat.le_refl _, fun _ _ _ => rfl, fun _ _ _ => rfl, fun _ _ => rfl,
    fun _ _ => rfl, ⟨[], hlocals, rfl, by simp⟩,
      ⟨#[(id, span)], Array.push_eq_append, by simpa using hspan⟩, fun x hkept hx => ?_⟩
  rw [finds_addReference, hfindings x hkept hx]

theorem mem_meant_or_looked {name : String} {span : Span} {globals looked : Set Finding}
    (hlooked : ∀ x ∈ looked, x = .lookup name span) {x : Finding} (hkept : x.IsKept) :
    x ∈ meant env name span globals ∪ looked ↔ x ∈ meant env name span globals := by
  refine or_iff_left fun hx => ?_
  rw [hlooked x hx] at hkept
  exact hkept

theorem eq_of_lookup_mem {name name' : String} {span span' : Span} {globals looked : Set Finding}
    (hglobals : ∀ x ∈ globals, x = .global span) (hlooked : ∀ x ∈ looked, x = .lookup name span)
    (h : .lookup name' span' ∈ meant env name span globals ∪ looked) :
    name' = name ∧ span' = span := by
  rcases h with (⟨d, -, hx⟩ | ⟨-, hx⟩) | hx
  · cases hx
  · cases hglobals _ hx
  · exact Finding.lookup.inj (hlooked _ hx)

section

variable {name : String} {span : Span} {globals looked : Set Finding}
  (hspan : span.start ∈ region) (hglobals : ∀ x ∈ globals, x = .global span)
  (hlooked : ∀ x ∈ looked, x = .lookup name span)

include hspan hglobals hlooked

theorem Binder.Ready.done_local (hb : b.Ready t region env) {d : Decl}
    (hfound : b.found.findLocal? name span.start = some d) :
    b.Done t region ∅ [] (meant env name span globals ∪ looked)
      { b with found := b.found.addReference d.id span } := by
  have hmeaning (hclear : Clear t span.start) : env.meaning? name = some d.id := by
    rw [← hb.findLocal?_eq hspan hclear name, hfound]
    rfl
  have hmore : b.Extends t region ∅ [] (meant env name span globals ∪ looked)
      { b with found := b.found.addReference d.id span } := by
    refine hb.toFree.addReference hspan fun x hx hclear => ?_
    rw [mem_meant_or_looked hlooked hx]
    constructor
    · intro hmem
      have hspan' := span_of_mem_meant (fun y hy => hglobals y hy ▸ rfl) hmem
      simpa [meant, hmeaning (hspan' ▸ hclear)] using hmem
    · rintro rfl
      simp [meant, hmeaning hclear]
  refine ⟨hmore, fun name' span' hx => ?_⟩
  obtain ⟨rfl, rfl⟩ := eq_of_lookup_mem hglobals hlooked hx
  refine ⟨hspan, fun id => ?_⟩
  rw [hmore.findLocal?_eq hb.toFree rfl (by simp), hfound]
  simp [DeclTree.addReference, eq_comm]

theorem Binder.Ready.done_global (hb : b.Ready t region env)
    (hdone : b.Done t region ∅ [] globals b') (hsame : b'.found.references = b.found.references)
    (hfound : b.found.findLocal? name span.start = none) :
    b.Done t region ∅ [] (meant env name span globals ∪ looked) b' := by
  have hmeaning (hclear : Clear t span.start) : env.meaning? name = none := by
    rw [← hb.findLocal?_eq hspan hclear name, hfound]
    rfl
  have hscope (s : Span) (hs : .scope s ∈ globals) : False := by cases hglobals _ hs
  refine ⟨{ hdone with
    untouched := fun o _ => hdone.untouched o fun s hs => (hscope s hs).elim
    finds_iff := fun x hx hclear => ?_ }, fun name' span' hx => ?_⟩
  · rw [hdone.finds_iff x hx hclear, mem_meant_or_looked hlooked hx]
    refine or_congr_right ⟨fun hmem => ?_, fun hmem => ?_⟩
    · have hspan' : x.span = span := by rw [hglobals x hmem]; rfl
      exact .inr ⟨hmeaning (hspan' ▸ hclear), hmem⟩
    · have hspan' := span_of_mem_meant (fun y hy => hglobals y hy ▸ rfl) hmem
      simpa [meant, hmeaning (hspan' ▸ hclear)] using hmem
  · obtain ⟨rfl, rfl⟩ := eq_of_lookup_mem hglobals hlooked hx
    refine ⟨hspan, fun id => ?_⟩
    have hblock := hdone.untouched span'.start fun s hs => (hscope s hs).elim
    rw [hsame, hdone.findLocal?_eq hb.toFree hblock (by simp), hfound]
    simp

theorem binds_name (h : Binds t region ∅ env [] globals step)
    (hsame : ∀ b, (step b).found.references = b.found.references)
    (hlocal : ∀ b d, b.found.findLocal? name span.start = some d →
      step' b = { b with found := b.found.addReference d.id span })
    (hglobal : ∀ b, b.found.findLocal? name span.start = none → step' b = step b) :
    Binds t region ∅ env [] (meant env name span globals ∪ looked) step' := by
  intro b hb
  cases hfound : b.found.findLocal? name span.start with
  | some d =>
    rw [hlocal b d hfound]
    exact hb.done_local hspan hglobals hlooked hfound
  | none =>
    rw [hglobal b hfound]
    exact hb.done_global hspan hglobals hlooked (h b hb) (hsame b) hfound

end

end

end LuaAnalysis.Scope
