import LuaAnalysis.Proofs.Scope.Frames

namespace LuaAnalysis.Scope

open Document Syntax

def BindsNode (t : Tree) (doc : DocId) (n : ElementId) (step : Binder → Binder) : Prop :=
  Binds t (region t n) (Set.Icc (t.span n).start (t.span n).stop) (envAt t doc n) (declared t doc n)
    (uses t doc n) step

/-- Whether the walk comes to a node as to any other. A name that is assigned to and the function of
a method are special. -/
def IsPlain (t : Tree) (n : ElementId) : Prop :=
  isTarget t n = false ∧ (t.kind n = .closureExpr → isMethod t n = false)

def BindsBelow (t : Tree) (doc : DocId) (visit : ElementId → Binder → Binder)
    (n : ElementId) : Prop :=
  ∀ c, n < c → t.isNode c = true → IsPlain t c → BindsNode t doc c (visit c)

variable {t : Tree} {doc : DocId} {n c p k : ElementId} {visit : ElementId → Binder → Binder}
  {env new new' : Env} {findings₁ findings₂ : Set Finding} {area starts starts' : Set Nat} {step :
    Binder → Binder}

theorem Binds.of_eq (h : Binds t area starts env new findings₁ step) (hnew : new = new')
    (hfindings : findings₁ = findings₂) : Binds t area starts env new' findings₂ step :=
  hnew ▸ hfindings ▸ h

theorem bindsNode_of_quiet (hnew : declared t doc n = [])
    (h : Binds t (region t n) ∅ (envAt t doc n) [] (uses t doc n) step) :
    BindsNode t doc n step := by
  rw [BindsNode, hnew]
  exact h.mono subset_rfl (Set.empty_subset _)

theorem start_mem_region_of_lookup (ht : t.Orderly) {name : String} {span : Span}
    (h : .lookup name span ∈ uses t doc n) : span.start ∈ region t n := by
  obtain ⟨m, k, hm, hk, rfl, -⟩ := lookup_mem_uses h
  obtain ⟨hstart, hstop⟩ := ht.bounds_of_refl hm
  have hmem := start_childToken?_mem ht.toWellNested ht.toSnug hk
  exact ⟨hstart.trans hmem.1, Nat.lt_of_lt_of_le hmem.2 hstop⟩

theorem bounds_of_scope (hw : t.WellNested) {s : Span} (h : .scope s ∈ uses t doc n) :
    (t.span n).start ≤ s.start ∧ s.stop ≤ (t.span n).stop := by
  obtain ⟨m, hm, -, rfl⟩ := scope_mem_uses h
  exact hw.bounds_of_refl hm

theorem follows_of_le (ht : t.Orderly) (doc : DocId) (hle : (t.span c).stop ≤ (t.span p).start)
    (hstarts : ∀ v ∈ starts, v ≤ (t.span c).stop) (hstarts' : ∀ v ∈ starts', (t.span p).start ≤ v) :
    Follows (region t c) starts (uses t doc c) (region t p) starts' (uses t doc p) := by
  refine ⟨disjoint_region_of_le hle, fun v hv o ho => (hstarts v hv).trans (hle.trans ho.1),
    fun name span hx => ?_⟩
  have hlt : span.start < (t.span p).start :=
    Nat.lt_of_lt_of_le (start_mem_region_of_lookup ht hx).2 hle
  refine ⟨fun v hv => Nat.lt_of_lt_of_le hlt (hstarts' v hv), fun s hs htouches => ?_⟩
  have hstart := (bounds_of_scope ht.toWellNested hs).1
  exact Nat.not_le.2 hlt (hstart.trans (Tree.touches_iff.1 htouches).1)

theorem follows_nodes (ht : t.Orderly) (doc : DocId) {nodes nodes' : List ElementId}
    (hle : ∀ c ∈ nodes, ∀ d ∈ nodes', (t.span c).stop ≤ (t.span d).start) :
    Follows (⋃ c ∈ nodes, region t c) ∅ (⋃ c ∈ nodes, uses t doc c) (⋃ c ∈ nodes', region t c) ∅
      (⋃ c ∈ nodes', uses t doc c) :=
  .iUnion_quiet fun c hc d hd => follows_of_le ht doc (hle c hc d hd) (by simp) (by simp)

/-- What leaves nothing in scope can also be followed by what stands before it, unless the two
touch. -/
theorem follows_of_lt (ht : t.Orderly) (doc : DocId) (hlt : (t.span p).stop < (t.span c).start) :
    Follows (region t c) ∅ (uses t doc c) (region t p) ∅ (uses t doc p) := by
  refine ⟨(disjoint_region_of_le hlt.le).symm, by simp, fun name span hx => ⟨by simp, ?_⟩⟩
  intro s hs htouches
  have hstart := (start_mem_region_of_lookup ht hx).1
  have hstop := (Tree.touches_iff.1 htouches).2
  have hscope := (bounds_of_scope ht.toWellNested hs).2
  omega

theorem binds_nothing (t : Tree) (area : Set Nat) (env : Env) :
    Binds t area ∅ env [] ∅ fun b => b :=
  (declares_nothing.binds env).mono (Set.empty_subset area) subset_rfl

theorem binds_nameUse (ht : t.Orderly) (hkind : t.kind n = .nameExpr)
    (htarget : isTarget t n = false) :
    Binds t (region t n) ∅ (envAt t doc n) [] (uses t doc n) (bindNameUse t n) := by
  rw [uses_nameExpr ht hkind]
  unfold bindNameUse
  cases hk : t.childToken? n .name with
  | none =>
    rw [findings_eq_empty_of_none hkind hk]
    exact binds_nothing t _ _
  | some k =>
    have hglobals : globals t n k = ∅ := by simp [globals, htarget]
    rw [findings_eq hkind hk, hglobals]
    refine binds_name (start_childToken?_mem ht.toWellNested ht.toSnug hk) (by simp)
      (fun x hx => hx.2) (binds_nothing t _ _) (fun _ => rfl) ?_ ?_
    · intro b d hd
      simp only [Binder.refer, hd]
    · intro b hnone
      simp only [Binder.refer, hnone]

theorem binds_target (ht : t.Orderly) (doc : DocId) (htarget : isTarget t n = true)
    (value? : Option DeclValue) :
    Binds t (region t n) ∅ (envAt t doc n) [] (uses t doc n) (bindTarget t doc n value?) := by
  have hkind : t.kind n = .nameExpr := beq_iff_eq.1 (Bool.and_eq_true_iff.1 htarget).1
  rw [uses_nameExpr ht hkind]
  unfold bindTarget
  cases hk : t.childToken? n .name with
  | none =>
    rw [findings_eq_empty_of_none hkind hk]
    exact binds_nothing t _ _
  | some k =>
    have hglobals : globals t n k = {.global (t.span k)} := by simp [globals, htarget]
    have hspan := start_childToken?_mem ht.toWellNested ht.toSnug hk
    have hdeclares := binds_global (t := t)
      (d := declOf t doc k n .global value? (t.span k).start) rfl hspan (envAt t doc n)
    rw [findings_eq hkind hk, hglobals]
    refine binds_name hspan (fun x hx => hx) (fun x hx => hx.2) hdeclares (fun _ => rfl) ?_ ?_
    · intro b d hd
      simp only [hd]
    · intro b hnone
      simp only [hnone]

theorem declares_declOf (hw : t.WellNested) (hs : t.Snug) (doc : DocId) (hk : k ∈ t.children n)
    {tokenKind : TokenKind} (htoken : t.tokenKind? k = some tokenKind) (node : ElementId)
    {kind : DeclKind} (hkind : kind ≠ .global)
    (value? : Option DeclValue) (visibleFrom : Nat) :
    Declares t (region t n) {visibleFrom} (localsAt t doc [k])
      fun b => b.declare (declOf t doc k node kind value? visibleFrom) :=
  declares_local (d := declOf t doc k node kind value? visibleFrom)
    (by simpa [Decl.isGlobal, declOf] using hkind)
    (region_subset hw hk (start_mem_region hs htoken))

theorem declares_area (area starts : Set Nat) : Declares t area starts [] fun b => b :=
  declares_nothing.mono (Set.empty_subset area) (Set.empty_subset starts)

theorem declares_localName (hw : t.WellNested) (hs : t.Snug) (doc : DocId) (values : List ElementId)
    (visibleFrom : Nat) (name : ElementId × Nat) :
    Declares t (region t name.1) {visibleFrom} (localsAt t doc (t.childToken? name.1 .name).toList)
      fun b => bindLocalName t doc values visibleFrom b name := by
  unfold bindLocalName
  cases hk : t.childToken? name.1 .name with
  | none => exact declares_area _ _
  | some k =>
    obtain ⟨hmem, htoken⟩ := Tree.childToken?_spec hk
    exact declares_declOf hw hs doc hmem htoken _ (by simp) _ _

theorem declares_loopVar (hw : t.WellNested) (hs : t.Snug) (doc : DocId) (visibleFrom : Nat)
    (name : ElementId) :
    Declares t (region t name) {visibleFrom} (localsAt t doc (t.childToken? name .name).toList)
      fun b => bindLoopVar t doc visibleFrom b name := by
  unfold bindLoopVar
  cases hk : t.childToken? name .name with
  | none => exact declares_area _ _
  | some k =>
    obtain ⟨hmem, htoken⟩ := Tree.childToken?_spec hk
    exact declares_declOf hw hs doc hmem htoken _ (by simp) _ _

theorem declares_param (hw : t.WellNested) (hs : t.Snug) (doc : DocId) (closure : ElementId)
    (param : ElementId × Nat) : Declares t (region t param.1) {(t.span closure).start}
      (localsAt t doc (t.childToken? param.1 .name <|> t.childToken? param.1 .dots).toList)
      fun b => bindParam t doc closure b param := by
  unfold bindParam
  cases hk : t.childToken? param.1 .name <|> t.childToken? param.1 .dots with
  | none => exact declares_area _ _
  | some k =>
    have hspec : ∃ kind, k ∈ t.children param.1 ∧ t.tokenKind? k = some kind := by
      rcases (Option.orElse_eq_some _ _ _).1 hk with hk | ⟨-, hk⟩
      · exact ⟨_, Tree.childToken?_spec hk⟩
      · exact ⟨_, Tree.childToken?_spec hk⟩
    obtain ⟨kind, hmem, htoken⟩ := hspec
    exact declares_declOf hw hs doc hmem htoken _ (by simp) _ _

theorem declares_localFuncName (hw : t.WellNested) (hs : t.Snug) (doc : DocId) {name : ElementId}
    (hname : t.child? n .localName = some name) (value? : Option DeclValue) :
    Declares t (region t name) (region t name) (localsAt t doc (t.childToken? name .name).toList)
      (bindLocalFuncName t doc n value?) := by
  unfold bindLocalFuncName
  rw [hname]
  cases hk : t.childToken? name .name with
  | none =>
    simp only [Option.bind_some, hk, Option.map_none]
    exact declares_area _ _
  | some k =>
    simp only [Option.bind_some, hk, Option.map_some]
    obtain ⟨hmem, htoken⟩ := Tree.childToken?_spec hk
    have hstart := Set.singleton_subset_iff.2 (start_childToken?_mem hw hs hk)
    exact (declares_declOf hw hs doc hmem htoken name (by simp) value? _).mono subset_rfl hstart

theorem declares_names {α : Type} (hw : t.WellNested) (token? : ElementId → Option ElementId)
    {as : List α} {node : α → ElementId} {names : List ElementId} {step : Binder → α → Binder}
    (hnames : as.map node = names)
    (hsub : names.Sublist (t.children p))
    (hstep : ∀ a, Declares t (region t (node a)) starts (localsAt t doc (token? (node a)).toList)
      fun b => step b a) :
    Declares t (⋃ c ∈ names, region t c) starts (localsAt t doc (names.filterMap token?)) fun b =>
      as.foldl step b := by
  subst hnames
  have hdisjoint := List.pairwise_map.1 (pairwise_disjoint_region hw hsub)
  have hnew : localsAt t doc ((as.map node).filterMap token?) =
      as.reverse.flatMap fun a => localsAt t doc (token? (node a)).toList := by
    rw [localsAt, List.filterMap_map, List.filterMap_eq_flatMap_toList, List.map_flatMap,
      List.reverse_flatMap]
    rfl
  have hregions : ⋃ c ∈ as.map node, region t c = ⋃ a ∈ as, region t (node a) := by simp
  rw [hnew, hregions]
  exact declares_foldl (fun a _ => hstep a) hdisjoint

theorem declares_self (hs : t.Snug) (doc : DocId) (n list : ElementId) :
    Declares t (⋃ k ∈ (t.childToken? list .leftParen).toList, region t k) {(t.span n).start}
      ((if isMethod t n then t.childToken? list .leftParen else none).toList.map fun paren =>
        ⟨"self", ⟨doc, (t.span paren).start⟩⟩)
      fun b => if isMethod t n then bindSelf t doc n list b else b := by
  cases isMethod t n with
  | false => exact declares_area _ _
  | true =>
    unfold bindSelf
    cases hk : t.childToken? list .leftParen with
    | none => exact declares_area _ _
    | some k =>
      have hmem : (t.span k).start ∈ ⋃ k' ∈ (some k).toList, region t k' := by
        simpa using start_mem_region hs (Tree.childToken?_spec hk).2
      let self : Decl :=
        { declOf t doc k list (.implicitSelf ⟨doc, n⟩) none (t.span n).start with name := "self" }
      exact declares_local (d := self) rfl hmem

theorem declares_params (ht : t.Orderly) (doc : DocId) {list : ElementId}
    (hlist : t.child? n .paramList = some list) :
    Declares t (region t list) {(t.span n).start} (params t doc n)
    (bindParams t doc n (isMethod t n)) := by
  have hw := ht.toWellNested
  have hnames : (t.childrenOf list .paramName).Sublist (t.children list) := List.filter_sublist
  have hdeclares :=
    declares_names hw (fun name => t.childToken? name .name <|> t.childToken? name .dots)
      (List.zipIdx_map_fst 0 (t.childrenOf list .paramName)) hnames
      (declares_param hw ht.toSnug doc n)
  have hparen : (t.childToken? list .leftParen).toList ⊆ t.children list := fun k hk =>
    (Tree.childToken?_spec (Option.mem_toList.1 hk)).1
  have hdisjoint : Disjoint (⋃ k ∈ (t.childToken? list .leftParen).toList, region t k)
      (⋃ c ∈ t.childrenOf list .paramName, region t c) := by
    refine disjoint_regions hw hparen hnames.subset fun c hc hk => ?_
    have hkind := Tree.nodeKind?_of_mem_childrenOf hc
    rw [Tree.nodeKind?_of_tokenKind? (Tree.childToken?_spec (Option.mem_toList.1 hk)).2] at hkind
    cases hkind
  have hboth := (declares_self ht.toSnug doc n list).comp hdeclares hdisjoint
  unfold params bindParams
  rw [hlist]
  exact hboth.mono (Set.union_subset (regions_subset hw hparen) (regions_subset hw hnames.subset))
    (Set.union_self _).subset

theorem isPlain_of_parent? (h : t.parent? c = some p) (hfunc : t.kind p ≠ .funcStat)
    (hassign : t.kind p ≠ .assignStat) : IsPlain t c := by
  refine ⟨?_, fun _ => ?_⟩
  · simp [isTarget, h]
  · simp [isMethod, h, hfunc]

theorem binds_nodes {α : Type} (ht : t.Orderly) {as : List α} {node : α → ElementId}
    {nodes : List ElementId} {step : Binder → α → Binder} (hnodes : as.map node = nodes)
    (hsub : nodes.Sublist (t.children n))
    (hstep : ∀ a ∈ as, Binds t (region t (node a)) ∅ env [] (uses t doc (node a))
      fun b => step b a) :
    Binds t (⋃ c ∈ nodes, region t c) ∅ env [] (⋃ c ∈ nodes, uses t doc c) fun b =>
      as.foldl step b := by
  subst hnodes
  have hordered := List.pairwise_map.1 ((ht.siblings n).sublist hsub)
  simpa using binds_foldl_quiet hstep
    (hordered.imp fun hle => follows_of_le ht doc hle (by simp) (by simp))

theorem BindsBelow.of_mem_children (h : BindsBelow t doc visit n) (hw : t.WellNested)
    (hp : p ∈ t.children n) : BindsBelow t doc visit p := fun c hlt =>
  h c (Nat.lt_trans (hw.parent_node _ _ (hw.mem_children_iff.1 hp)).2 hlt)

theorem binds_scope (hopens : opensScope (t.kind n) = true) (kind : BlockKind)
    (h : Binds t (region t n) starts env new findings₁ step) :
    Binds t (region t n) ∅ env [] (scopes t n ∪ findings₁) fun b =>
      b.inBlock kind (t.span n) step := by
  rw [scopes_eq hopens]
  exact binds_inBlock kind (fun _ => touches_iff_mem_region hopens) h

section

variable (ht : t.Orderly) (hbelow : BindsBelow t doc visit n)

include ht hbelow

theorem BindsBelow.child (hc : c ∈ t.childNodes n) (hblock : t.kind n ≠ .block)
    (hplain : IsPlain t c) :
    Binds t (region t c) ∅ (envAt t doc c) [] (uses t doc c) (visit c) := by
  obtain ⟨hmem, hnode⟩ := List.mem_filter.1 hc
  have hbinds := hbelow c (ht.parent_node _ _ (ht.mem_children_iff.1 hmem)).2 hnode hplain
  rw [BindsNode, declared_eq_nil ht hmem hblock] at hbinds
  exact hbinds.quiet

theorem BindsBelow.children (nodes : List ElementId) (hsub : nodes.Sublist (t.childNodes n))
    (hblock : t.kind n ≠ .block) (hplain : ∀ c ∈ nodes, IsPlain t c)
    (henv : ∀ c ∈ nodes, envAt t doc c = env) :
    Binds t (⋃ c ∈ nodes, region t c) ∅ env [] (⋃ c ∈ nodes, uses t doc c)
    (visitAll visit nodes) := by
  refine binds_nodes ht (List.map_id nodes) (hsub.trans List.filter_sublist) fun c hc => ?_
  exact henv c hc ▸ hbelow.child ht (hsub.subset hc) hblock (hplain c hc)

theorem BindsBelow.all (hname : t.kind n ≠ .nameExpr) (hopens : opensScope (t.kind n) = false)
    (hplain : ∀ c ∈ t.childNodes n, IsPlain t c)
    (henv : ∀ c ∈ t.childNodes n, envAt t doc c = env) :
    Binds t (region t n) ∅ env [] (uses t doc n) (visitAll visit (t.childNodes n)) := by
  have hblock : t.kind n ≠ .block := fun hblock => by simp [hblock, opensScope] at hopens
  rw [uses_eq ht.toWellNested, findings_eq_scopes hname, scopes_eq_empty hopens, Set.empty_union]
  refine (hbelow.children ht _ (List.Sublist.refl _) hblock hplain henv).mono ?_ le_rfl
  exact regions_subset ht.toWellNested (List.filter_subset_self _)

theorem BindsBelow.exprs (hblock : t.kind n ≠ .block) (hfunc : t.kind n ≠ .funcStat)
    (hassign : t.kind n ≠ .assignStat)
    (henv : ∀ c, (t.kind c).isExpr = true → handed t doc n (envAt t doc n) c = envAt t doc n) :
    Binds t (⋃ c ∈ t.exprs n, region t c) ∅ (envAt t doc n) [] (⋃ c ∈ t.exprs n, uses t doc c)
      (visitAll visit (t.exprs n)) := by
  have hw := ht.toWellNested
  have hsub : (t.exprs n).Sublist (t.childNodes n) := List.filter_sublist
  have hmem : ∀ c ∈ t.exprs n, c ∈ t.children n :=
    fun c hc => (List.mem_filter.1 (hsub.subset hc)).1
  refine hbelow.children ht _ hsub hblock (fun c hc => ?_) fun c hc => ?_
  · exact isPlain_of_parent? (hw.mem_children_iff.1 (hmem c hc)) hfunc hassign
  · rw [envAt_of_mem_children hw (hmem c hc), henv c (List.mem_filter.1 hc).2]

end

end LuaAnalysis.Scope
