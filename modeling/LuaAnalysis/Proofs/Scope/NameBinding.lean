import LuaAnalysis.Proofs.Scope.WalkSteps

/-!
Names are bound by lexical scoping. The walk looks names up by where they stand, and finds what the
syntax tree alone says they mean, wherever no scope ends right where a name starts.
-/

namespace LuaAnalysis.Scope

open Document Syntax

variable {t : Tree} {doc : DocId} {n c p k : ElementId} {visit : ElementId → Binder → Binder}
  {env new new' : Env} {area starts : Set Nat} {step : Binder → Binder}

section

variable (ht : t.Orderly) (hbelow : BindsBelow t doc visit n)

include ht hbelow

theorem binds_localStat (hkind : t.kind n = .localStat) :
    BindsNode t doc n (bindLocalStat t doc visit n) := by
  have hw := ht.toWellNested
  have hexprs := t.exprs_subset_children n
  have hnames : (t.childrenOf n .localName).Sublist (t.children n) := List.filter_sublist
  have hvalues := hbelow.exprs ht (by simp [hkind]) (by simp [hkind]) (by simp [hkind])
    fun c _ => by rw [handed, hkind]
  have hdeclares := declares_names hw (fun name => t.childToken? name .name)
    (List.zipIdx_map_fst 0 (t.childrenOf n .localName)) hnames
    (declares_localName hw ht.toSnug doc (t.exprs n) (t.span n).stop)
  have hdisjoint : Disjoint (⋃ c ∈ t.exprs n, region t c)
      (⋃ c ∈ t.childrenOf n .localName, region t c) :=
    disjoint_regions hw hexprs hnames.subset fun c hc =>
      Tree.notMem_exprs (by rw [Tree.kind_of_mem_childrenOf hc]; rfl)
  have hexprsSub := regions_subset hw hexprs
  have hunseen : Unseen (⋃ c ∈ t.exprs n, uses t doc c) {(t.span n).stop} ∅ := by
    refine fun name span hx => ⟨?_, fun s hs => absurd hs (Set.notMem_empty _)⟩
    obtain ⟨c, hc, hx⟩ := Set.mem_iUnion₂.1 hx
    exact fun v hv => hv ▸ (hexprsSub (Set.mem_biUnion hc (start_mem_region_of_lookup ht hx))).2
  have hboth := hvalues.comp (hdeclares.binds _) ⟨hdisjoint, by simp, hunseen⟩
  refine (hboth.mono ?_ ?_).of_eq ?_ ?_
  · exact Set.union_subset hexprsSub (regions_subset hw hnames.subset)
  · have hnode : t.isNode n = true :=
      Tree.isNode_of_nodeKind? (Tree.nodeKind?_of_kind hkind NodeKind.noConfusion)
    simpa using ht.le (Tree.lt_size_of_isNode hnode)
  · rw [List.append_nil, declared, hkind]
    rfl
  · rw [Set.union_empty, uses_eq_of_exprs ht (by simp [hkind]) fun c =>
      expr_or_bare_of_localStat ht hkind, scopes_eq_empty (by rw [hkind]; rfl), Set.empty_union]

theorem binds_stats (hkind : t.kind n = .block) :
    Binds t (region t n) (Set.Iic (t.span n).stop) (envAt t doc n)
    (behind t doc [] (t.childNodes n)) (⋃ c ∈ t.childNodes n, uses t doc c)
    (visitAll visit (t.childNodes n)) := by
  have hw := ht.toWellNested
  have hsub : (t.childNodes n).Sublist (t.children n) := List.filter_sublist
  have hordered := (hw.siblings n).sublist hsub
  have hall : Binds t (⋃ c ∈ t.childNodes n, region t c)
      (⋃ c ∈ t.childNodes n, Set.Icc (t.span c).start (t.span c).stop) (envAt t doc n)
      ((t.childNodes n).reverse.flatMap (declared t doc)) (⋃ c ∈ t.childNodes n, uses t doc c)
      (visitAll visit (t.childNodes n)) := by
    refine binds_foldl (fun front c rest heq => ?_) (hordered.imp fun hle => ?_)
    · have hc : c ∈ t.childNodes n := heq ▸ by simp
      obtain ⟨hmem, hnode⟩ := List.mem_filter.1 hc
      have hparent := hw.mem_children_iff.1 hmem
      have hplain : IsPlain t c := isPlain_of_parent? hparent (by simp [hkind]) (by simp [hkind])
      have hbinds := hbelow c (hw.parent_node _ _ hparent).2 hnode hplain
      rw [BindsNode, envAt_of_stat hw hkind heq] at hbinds
      exact hbinds
    · exact follows_of_le ht doc hle (fun v hv => hv.2) fun v hv => hv.1
  refine (hall.mono (regions_subset hw hsub.subset)
    (Set.iUnion₂_subset fun c hc v hv => ?_)).of_eq ?_ rfl
  · exact hv.2.trans (hw.bounds (.single (hw.mem_children_iff.1 (hsub.subset hc)))).2
  · rw [behind_eq, List.append_nil]

theorem binds_block (hkind : t.kind n = .block) :
    BindsNode t doc n fun b => b.inBlock .block (t.span n) (visitAll visit (t.childNodes n)) := by
  refine bindsNode_of_quiet (by rw [declared, hkind]) ?_
  rw [uses_eq ht.toWellNested, findings_eq_scopes (by simp [hkind])]
  exact binds_scope (by rw [hkind]; rfl) .block (binds_stats ht hbelow hkind)

theorem binds_closure (hkind : t.kind n = .closureExpr) :
    Binds t (region t n) ∅ (envAt t doc n) [] (uses t doc n)
    (bindClosure t doc visit n (isMethod t n)) := by
  have hw := ht.toWellNested
  obtain ⟨front, rest, hnodes, hfront, hrest⟩ :=
    NodeKind.exists_of_map_mem_mul (ht.row_of_kind hkind NodeKind.noConfusion)
  obtain ⟨list, rfl, hlist⟩ := NodeKind.exists_of_map_mem_one hfront
  have hsub := (t.codeNodes_sublist_children n).subset
  have hchild : t.child? n .paramList = some list := by
    rw [Tree.child?_eq_find? (by decide), hnodes]
    simp [hlist]
  have hopens : opensScope (t.kind n) = true := by rw [hkind]; rfl
  have hparams := (declares_params ht doc hchild).binds (envAt t doc n)
  have huses : uses t doc n = scopes t n ∪ ⋃ c ∈ rest, uses t doc c :=
    uses_eq_of_append ht (by simp [hkind]) hnodes (by simp [hlist, isBare])
  have hlistMem : list ∈ t.children n := hsub (hnodes ▸ List.mem_cons_self)
  have hlistSub := region_subset hw hlistMem
  rw [huses]
  unfold bindClosure
  rcases NodeKind.of_map_mem_maybe hrest with rfl | hone
  · have hnone : t.child? n .block = none := by
      rw [Tree.child?_eq_find? (by decide), hnodes]
      simp [hlist]
    rw [hnone]
    exact binds_scope hopens .closure ((hparams.mono hlistSub le_rfl).of_eq rfl (by simp))
  · obtain ⟨block, rfl, hblock⟩ := NodeKind.exists_of_map_mem_one hone
    have hcode : block ∈ t.codeNodes n := hnodes ▸ by simp
    have hmem := hsub hcode
    have hblockSub := region_subset hw hmem
    have hparent := hw.mem_children_iff.1 hmem
    have hdisjoint : Disjoint (region t list) (region t block) := by
      refine disjoint_region hw hlistMem hmem ?_
      rintro rfl
      rw [hlist] at hblock
      cases hblock
    have hbody := hbelow.child ht (List.filter_subset_self _ hcode) (by simp [hkind])
      (isPlain_of_parent? hparent (by simp [hkind]) (by simp [hkind]))
    rw [envAt_of_mem_children hw hmem, handed, hkind] at hbody
    rw [ht.child?_block_of_parent? hparent hblock]
    have hboth := hparams.comp hbody ⟨hdisjoint, fun v hv o ho => hv ▸ (hblockSub ho).1,
      unseen_empty _ _⟩
    refine binds_scope hopens .closure
      ((hboth.mono (Set.union_subset hlistSub hblockSub) le_rfl).of_eq rfl (by simp))

theorem binds_localFuncStat (hkind : t.kind n = .localFuncStat) :
    BindsNode t doc n (bindLocalFuncStat t doc visit n) := by
  have hw := ht.toWellNested
  obtain ⟨front, rest, hnodes, hfront, hrest⟩ :=
    NodeKind.exists_of_map_mem_mul (ht.row_of_kind hkind NodeKind.noConfusion)
  obtain ⟨name, rfl, hname⟩ := NodeKind.exists_of_map_mem_one hfront
  obtain ⟨closure, rfl, hclosure⟩ := NodeKind.exists_of_map_mem_one hrest
  have hsub := t.codeNodes_sublist_children n
  have hnameMem : name ∈ t.children n := hsub.subset (hnodes ▸ by simp)
  have hmem : closure ∈ t.children n := hsub.subset (hnodes ▸ by simp)
  have hparent := hw.mem_children_iff.1 hmem
  have hchild : t.child? n .localName = some name := by
    rw [Tree.child?_eq_find? (by decide), hnodes]
    simp [hname]
  have hchild' : t.child? n .closureExpr = some closure := by
    rw [Tree.child?_eq_find? (by decide), hnodes]
    simp [hname, hclosure]
  have hordered : (t.span name).stop ≤ (t.span closure).start := by
    have := (hw.siblings n).sublist hsub
    rw [hnodes] at this
    simpa using this
  have hdeclared : declared t doc n = localsAt t doc (t.childToken? name .name).toList := by
    rw [declared, hkind]
    dsimp only
    rw [hchild, nameTokens, List.filterMap_eq_flatMap_toList]
    simp
  have hdeclares := declares_localFuncName hw ht.toSnug doc hchild (some ⟨⟨doc, closure⟩, 0⟩)
  have hmethod : isMethod t closure = false := by simp [isMethod, hparent, hkind]
  have hbody := binds_closure ht (hbelow.of_mem_children hw hmem) hclosure
  have henv : envAt t doc closure = declared t doc n ++ envAt t doc n := by
    rw [envAt_of_mem_children hw hmem, handed, hkind]
  rw [hmethod, henv, hdeclared] at hbody
  have hboth := (hdeclares.binds (envAt t doc n)).comp hbody
    ⟨disjoint_region_of_le hordered,
      fun v hv o ho => (Nat.le_of_lt hv.2).trans (hordered.trans ho.1), unseen_empty _ _⟩
  unfold bindLocalFuncStat
  rw [hchild']
  refine (hboth.mono ?_ ?_).of_eq ?_ ?_
  · exact Set.union_subset (region_subset hw hnameMem) (region_subset hw hmem)
  · rw [Set.union_empty]
    exact (region_subset hw hnameMem).trans Set.Ico_subset_Icc_self
  · exact hdeclared.symm
  · have hscopes : scopes t n = ∅ := scopes_eq_empty (by rw [hkind]; rfl)
    have huses : uses t doc n = scopes t n ∪ ⋃ c ∈ [closure], uses t doc c :=
      uses_eq_of_append ht (by simp [hkind]) hnodes (by simp [hname, isBare])
    simp [huses, hscopes]

theorem binds_funcName (hkind : t.kind n = .funcStat) {front : List ElementId} {closure : ElementId}
    (hnodes : t.codeNodes n = front ++ [closure])
    (hfront : front.map t.kind ∈ NodeKind.maybe (NodeKind.oneOf NodeKind.isFuncName))
    (hclosure : t.kind closure = .closureExpr) (value? : Option DeclValue) :
    (∀ b, (bindFuncName t doc visit n value? b).1 = isMethod t closure) ∧
      Binds t (⋃ c ∈ front, region t c) ∅ (envAt t doc n) [] (⋃ c ∈ front, uses t doc c)
        fun b => (bindFuncName t doc visit n value? b).2 := by
  have hw := ht.toWellNested
  have hsub := (t.codeNodes_sublist_children n).subset
  have hparent : t.parent? closure = some n := hw.mem_children_iff.1 (hsub (hnodes ▸ by simp))
  have hnames : ∀ c ∈ front, (t.kind c).isFuncName = true :=
    NodeKind.forall_of_map_mem_kstar (NodeKind.maybe_le_kstar hfront)
  have hexprs : t.exprs n = front ++ [closure] := by
    rw [Tree.exprs_eq_filter, hnodes, List.filter_eq_self, List.forall_mem_append]
    refine ⟨fun c hc => NodeKind.isExpr_of_isFuncName (hnames c hc), ?_⟩
    simp [hclosure, NodeKind.isExpr]
  have hfind : (t.exprs n).find? (fun e => t.kind e != .closureExpr) = front.head? := by
    cases front with
    | nil => simp [hexprs, hclosure]
    | cons name front =>
      have hname : t.kind name ≠ .closureExpr := fun heq => by
        simpa [heq, NodeKind.isFuncName] using hnames name List.mem_cons_self
      rw [hexprs, List.cons_append, List.find?_cons_of_pos (by simpa using hname), List.head?_cons]
  have hmethod : isMethod t closure = front.any fun e =>
      t.kind e == .indexExpr && t.hasToken e .colon := by
    simp [isMethod, hparent, hkind, hexprs, hclosure]
  unfold bindFuncName
  rw [hmethod, hfind]
  rcases NodeKind.of_map_mem_maybe hfront with rfl | hone
  · exact ⟨fun b => rfl, by simpa using binds_nothing t ∅ (envAt t doc n)⟩
  · obtain ⟨name, rfl, hfuncName⟩ := NodeKind.exists_of_map_mem_oneOf hone
    have hcode : name ∈ t.codeNodes n := hnodes ▸ by simp
    have hnameParent := hw.mem_children_iff.1 (hsub hcode)
    have henv : envAt t doc name = envAt t doc n := by
      rw [envAt_of_mem_children hw (hsub hcode), handed, hkind]
    by_cases hnameExpr : t.kind name = .nameExpr
    · have htarget : isTarget t name = true := by simp [isTarget, hnameExpr, hnameParent, hkind]
      have hbinds := henv ▸ binds_target ht doc htarget value?
      exact ⟨fun b => by simp [hnameExpr], by simpa [hnameExpr] using hbinds⟩
    · have hindex : t.kind name = .indexExpr := by
        cases hname : t.kind name <;> rw [hname] at hfuncName hnameExpr <;>
          first | rfl | contradiction
      have hplain : IsPlain t name := ⟨by simp [isTarget, hindex], by simp [hindex]⟩
      have hbinds := henv ▸ hbelow.child ht (List.filter_subset_self _ hcode)
        (by simp [hkind]) hplain
      exact ⟨fun b => by simp [hindex], by simpa [hindex] using hbinds⟩

theorem binds_funcStat (hkind : t.kind n = .funcStat) :
    BindsNode t doc n (bindFuncStat t doc visit n) := by
  have hw := ht.toWellNested
  obtain ⟨front, rest, hnodes, hfront, hrest⟩ :=
    NodeKind.exists_of_map_mem_mul (ht.row_of_kind hkind NodeKind.noConfusion)
  obtain ⟨closure, rfl, hclosure⟩ := NodeKind.exists_of_map_mem_one hrest
  have hsub := t.codeNodes_sublist_children n
  have hmem : closure ∈ t.children n := hsub.subset (hnodes ▸ by simp)
  have hfrontMem : front ⊆ t.children n :=
    fun c hc => hsub.subset (hnodes ▸ List.mem_append_left _ hc)
  have hchild : t.child? n .closureExpr = some closure := by
    have hnone : ∀ c ∈ front, ¬ t.kind c = .closureExpr := by
      intro c hc heq
      have hname := NodeKind.forall_of_map_mem_kstar (NodeKind.maybe_le_kstar hfront) c hc
      rw [heq] at hname
      cases hname
    rw [Tree.child?_eq_find? (by decide), hnodes, List.find?_append,
      List.find?_eq_none.2 (by simpa using hnone)]
    simp [hclosure]
  obtain ⟨hmethod, hname⟩ :=
    binds_funcName ht hbelow hkind hnodes hfront hclosure (some ⟨⟨doc, closure⟩, 0⟩)
  have hbody := binds_closure ht (hbelow.of_mem_children hw hmem) hclosure
  have henv : envAt t doc closure = envAt t doc n := by
    rw [envAt_of_mem_children hw hmem, handed, hkind]
  rw [henv] at hbody
  have happend : (front ++ [closure]).Sublist (t.children n) := hnodes ▸ hsub
  have hordered := (List.pairwise_append.1 ((hw.siblings n).sublist happend)).2.2
  have hfollows := follows_nodes ht doc hordered
  have huses : uses t doc n = scopes t n ∪ ⋃ c ∈ front ++ [closure], uses t doc c :=
    hnodes ▸ uses_eq_codeNodes ht (by simp [hkind])
  have hboth := hname.comp hbody (by simpa using hfollows)
  have hstep : bindFuncStat t doc visit n = fun b =>
      bindClosure t doc visit closure (isMethod t closure)
        (bindFuncName t doc visit n (some ⟨⟨doc, closure⟩, 0⟩) b).2 := by
    funext b
    rw [← hmethod b, bindFuncStat, hchild]
    rfl
  rw [hstep]
  refine bindsNode_of_quiet (by rw [declared, hkind])
    ((hboth.mono ?_ (Set.union_self _).subset).of_eq rfl ?_)
  · exact Set.union_subset (regions_subset hw hfrontMem) (region_subset hw hmem)
  · have hscopes : scopes t n = ∅ := scopes_eq_empty (by rw [hkind]; rfl)
    simp [huses, hscopes, Set.iUnion_or, Set.iUnion_union_distrib]

theorem BindsBelow.targets (targets values : List ElementId)
    {step : Binder → ElementId × Nat → Binder} (hsub : targets.Sublist (t.childNodes n))
    (hblock : t.kind n ≠ .block) (henv : ∀ c ∈ targets, envAt t doc c = env)
    (hname : ∀ c ∈ targets, t.kind c = .nameExpr → isTarget t c = true)
    (hplain : ∀ c ∈ targets, t.kind c ≠ .nameExpr → IsPlain t c)
    (hstep : ∀ b c i, step b (c, i) =
      if t.kind c == .nameExpr then bindTarget t doc c (valueFor? t doc values i) b
        else visit c b) :
    Binds t (⋃ c ∈ targets, region t c) ∅ env [] (⋃ c ∈ targets, uses t doc c) fun b =>
      targets.zipIdx.foldl step b := by
  refine binds_nodes ht (List.zipIdx_map_fst 0 _) (hsub.trans List.filter_sublist) fun a ha => ?_
  have hmem := List.fst_mem_of_mem_zipIdx ha
  simp only [hstep]
  by_cases hkind : t.kind a.1 = .nameExpr
  · have hbinds := henv _ hmem ▸ binds_target ht doc (hname _ hmem hkind)
      (valueFor? t doc values a.2)
    simpa [hkind] using hbinds
  · have hbinds := henv _ hmem ▸ hbelow.child ht (hsub.subset hmem) hblock (hplain _ hmem hkind)
    simpa [hkind] using hbinds

omit ht hbelow in
theorem isTarget_of_assignStat (hw : t.WellNested) (hkind : t.kind n = .assignStat)
    {assign : ElementId} (hassign : t.childToken? n .assign = some assign) (hc : c ∈ t.exprs n) :
    isTarget t c = (t.kind c == .nameExpr && (t.span c).stop ≤ (t.span assign).start) := by
  simp [isTarget, hw.mem_children_iff.1 (t.exprs_subset_children n hc), hkind, hassign]

omit ht hbelow in
theorem biUnion_filter {α : Type} (nodes : List ElementId) (among : ElementId → Bool)
    (f : ElementId → Set α) : (⋃ c ∈ nodes.filter fun c => !among c, f c) ∪
    ⋃ c ∈ nodes.filter among, f c = ⋃ c ∈ nodes, f c := by
  ext x
  simp only [Set.mem_union, Set.mem_iUnion₂, List.mem_filter]
  constructor
  · rintro (⟨c, ⟨hc, -⟩, hx⟩ | ⟨c, ⟨hc, -⟩, hx⟩)
    · exact ⟨c, hc, hx⟩
    · exact ⟨c, hc, hx⟩
  · rintro ⟨c, hc, hx⟩
    cases hamong : among c with
    | false => exact .inl ⟨c, ⟨hc, by simp [hamong]⟩, hx⟩
    | true => exact .inr ⟨c, ⟨hc, hamong⟩, hx⟩

omit ht hbelow in
theorem lt_start_of_value (hw : t.WellNested) (hs : t.Snug) {assign : ElementId}
    (hassign : t.childToken? n .assign = some assign) (hc : c ∈ t.exprs n)
    (hbehind : ¬ (t.span c).stop ≤ (t.span assign).start) :
    (t.span assign).start < (t.span c).start := by
  obtain ⟨hmem, htoken⟩ := Tree.childToken?_spec hassign
  have hlt := hs.token_lt assign (htoken ▸ rfl)
  rcases hw.apart hmem (t.exprs_subset_children n hc) with rfl | hle | hle
  · have hnode := Tree.isNode_of_mem_exprs hc
    rw [Tree.isNode, Tree.nodeKind?_of_tokenKind? htoken] at hnode
    cases hnode
  · exact Nat.lt_of_lt_of_le hlt hle
  · exact absurd hle hbehind

theorem binds_assignStat (hkind : t.kind n = .assignStat) :
    BindsNode t doc n (bindAssignStat t doc visit n) := by
  have hw := ht.toWellNested
  have hsub : (t.exprs n).Sublist (t.childNodes n) := List.filter_sublist
  have hparent : ∀ c ∈ t.childNodes n, t.parent? c = some n :=
    fun c hc => hw.mem_children_iff.1 (List.mem_filter.1 hc).1
  have hmethod : ∀ c ∈ t.childNodes n, isMethod t c = false :=
    fun c hc => by simp [isMethod, hparent c hc, hkind]
  have henv : ∀ c ∈ t.childNodes n, envAt t doc c = envAt t doc n := fun c hc => by
    rw [envAt_of_mem_children hw (List.mem_filter.1 hc).1, handed, hkind]
  have hblock : t.kind n ≠ .block := by simp [hkind]
  refine bindsNode_of_quiet (by rw [declared, hkind]) ?_
  unfold bindAssignStat
  cases hassign : t.childToken? n .assign with
  | none =>
    have hplain : ∀ c ∈ t.childNodes n, IsPlain t c := fun c hc =>
      ⟨by simp [isTarget, hparent c hc, hkind, hassign], fun _ => hmethod c hc⟩
    exact hbelow.all ht (by simp [hkind]) (by rw [hkind]; rfl) hplain henv
  | some assign =>
    -- the values stand behind the targets, but they are bound first
    let before (c : ElementId) : Bool := (t.span c).stop ≤ (t.span assign).start
    have htarget {c : ElementId} (hc : c ∈ t.exprs n) := isTarget_of_assignStat hw hkind hassign hc
    have hmem {c : ElementId} {among : ElementId → Bool} (hc : c ∈ (t.exprs n).filter among) :
        c ∈ t.childNodes n :=
      hsub.subset (List.mem_filter.1 hc).1
    have hplain : ∀ c ∈ (t.exprs n).filter fun c => !before c, IsPlain t c := fun c hc => by
      obtain ⟨hexpr, hbehind⟩ := List.mem_filter.1 hc
      exact ⟨by simpa [htarget hexpr, before] using fun _ => hbehind, fun _ => hmethod c (hmem hc)⟩
    have hname : ∀ c ∈ (t.exprs n).filter before, t.kind c = .nameExpr → isTarget t c = true :=
      fun c hc hname => by
        obtain ⟨hexpr, hbefore⟩ := List.mem_filter.1 hc
        simpa [htarget hexpr, hname, before] using hbefore
    have hplain' : ∀ c ∈ (t.exprs n).filter before, t.kind c ≠ .nameExpr → IsPlain t c :=
      fun c hc hname =>
        ⟨by simp [isTarget, hname], fun _ => hmethod c (hmem hc)⟩
    have hchildren {among : ElementId → Bool} : (t.exprs n).filter among ⊆ t.children n :=
      List.Subset.trans (List.filter_subset_self _) (t.exprs_subset_children n)
    have hfollows : Follows (⋃ c ∈ (t.exprs n).filter fun c => !before c, region t c) ∅
        (⋃ c ∈ (t.exprs n).filter fun c => !before c, uses t doc c)
        (⋃ c ∈ (t.exprs n).filter before, region t c) ∅
        (⋃ c ∈ (t.exprs n).filter before, uses t doc c) := by
      refine .iUnion_quiet fun c hc d hd => follows_of_lt ht doc ?_
      obtain ⟨hexpr, hbehind⟩ := List.mem_filter.1 hc
      have hle : (t.span d).stop ≤ (t.span assign).start := by
        simpa [before] using (List.mem_filter.1 hd).2
      have hlt := lt_start_of_value hw ht.toSnug hassign hexpr (by simpa [before] using hbehind)
      exact Nat.lt_of_le_of_lt hle hlt
    have hvalues := hbelow.children ht _ (List.filter_sublist.trans hsub) hblock hplain fun c hc =>
      henv c (hmem hc)
    have hregions : (⋃ c ∈ (t.exprs n).filter fun c => !before c, region t c) ∪
        ⋃ c ∈ (t.exprs n).filter before, region t c ⊆ region t n :=
          Set.union_subset (regions_subset hw hchildren) (regions_subset hw hchildren)
    have huses : uses t doc n = scopes t n ∪ ⋃ c ∈ t.exprs n, uses t doc c :=
      uses_eq_of_exprs ht (by simp [hkind])
      fun c hc =>
        .inl (NodeKind.forall_of_map_mem_kstar (ht.row_of_kind hkind NodeKind.noConfusion) c hc)
    rw [huses, scopes_eq_empty (by rw [hkind]; rfl), Set.empty_union, ← biUnion_filter _ before]
    simp only [List.partition_eq_filter_filter]
    exact (hvalues.comp (hbelow.targets ht _ _ (List.filter_sublist.trans hsub) hblock
      (fun c hc => henv c (hmem hc)) hname hplain' fun _ _ _ => rfl) hfollows).mono hregions
      (Set.union_self _).subset

omit ht hbelow in
theorem loop_spec (doc : DocId) (hkind : t.kind n = .forStat ∨ t.kind n = .forRangeStat) :
    opensScope (t.kind n) = true ∧ t.kind n ≠ .block ∧ t.kind n ≠ .funcStat ∧
    t.kind n ≠ .assignStat ∧ declared t doc n = [] ∧
      ∀ env c, handed t doc n env c = if t.kind c == .block then loopVars t doc n ++ env
        else env := by
  rcases hkind with hkind | hkind <;> simp [hkind, opensScope, declared, handed]

omit hbelow in
theorem stop_le_start_of_loop (hkind : t.kind n = .forStat ∨ t.kind n = .forRangeStat)
    (hc : c ∈ t.exprs n) (hp : t.child? n .block = some p) :
    (t.span c).stop ≤ (t.span p).start := by
  obtain ⟨header, body, hnodes, hheader, hbody⟩ := exists_header_of_loop ht hkind
  rw [Tree.exprs_eq_filter] at hc
  rw [Tree.child?_eq_find? (by decide)] at hp
  obtain ⟨hcode, hexpr⟩ := List.mem_filter.1 hc
  have hblock : t.kind p = .block := by simpa using List.find?_some hp
  have hcHeader : c ∈ header := by
    refine (List.mem_append.1 (hnodes ▸ hcode)).resolve_right fun hmem => ?_
    rw [hbody c hmem] at hexpr
    cases hexpr
  have hpBody : p ∈ body := by
    refine (List.mem_append.1 (hnodes ▸ List.mem_of_find?_eq_some hp)).resolve_left fun hmem => ?_
    simpa [hblock, NodeKind.isExpr] using hheader p hmem
  have hordered := (ht.siblings n).sublist (t.codeNodes_sublist_children n)
  rw [hnodes] at hordered
  exact (List.pairwise_append.1 hordered).2.2 c hcHeader p hpBody

omit ht hbelow in
theorem unscoped_of_loop (hkind : t.kind n = .forStat ∨ t.kind n = .forRangeStat) {name : String}
    {span : Span} (hx : .lookup name span ∈ uses t doc c) {s : Span}
    (hs : .scope s ∈ ⋃ e ∈ t.exprs n, uses t doc e) :
    ¬ s.touches span.start = true := by
  obtain ⟨-, -, -, -, -, hsettled⟩ := lookup_mem_uses hx
  obtain ⟨e, he, hs⟩ := Set.mem_iUnion₂.1 hs
  obtain ⟨s, hbelow, hopens, rfl⟩ := scope_mem_uses hs
  exact (hsettled n e hkind he).2 s hbelow hopens

omit hbelow in
theorem unscoped_of_body (hkind : t.kind n = .forStat ∨ t.kind n = .forRangeStat)
    (hc : c ∈ t.exprs n) {name : String} {span : Span}
    (hx : .lookup name span ∈ uses t doc c) {s : Span}
    (hs : .scope s ∈ ⋃ p ∈ (t.child? n .block).toList, uses t doc p) :
    ¬ s.touches span.start = true := by
  intro htouches
  obtain ⟨p, hp, hs⟩ := Set.mem_iUnion₂.1 hs
  have hle := stop_le_start_of_loop ht hkind hc (Option.mem_toList.1 hp)
  have hlt := (start_mem_region_of_lookup ht hx).2
  have hstart := (bounds_of_scope ht.toWellNested hs).1
  have hfrom := (Tree.touches_iff.1 htouches).1
  omega

theorem binds_loop (hkind : t.kind n = .forStat ∨ t.kind n = .forRangeStat)
    (hinner : Binds t area starts (envAt t doc n) new
      (⋃ c ∈ (t.child? n .block).toList, uses t doc c) step)
    (hsub : area ⊆ region t n) (hdisjoint : Disjoint (⋃ c ∈ t.exprs n, region t c) area)
    (hlate : ∀ v ∈ starts, ∀ c ∈ t.exprs n, (t.span c).stop ≤ v) :
    BindsNode t doc n fun b => (visitAll visit (t.exprs n) b).inBlock .loop (t.span n) step := by
  obtain ⟨hopens, hblock, hfunc, hassign, hnew, hhanded⟩ := loop_spec doc hkind
  have hexprs : ⋃ c ∈ t.exprs n, region t c ⊆ region t n :=
    regions_subset ht.toWellNested (t.exprs_subset_children n)
  have hvalues := hbelow.exprs ht hblock hfunc hassign fun c hexpr => by
    rw [hhanded, if_neg]
    intro hblock
    rw [beq_iff_eq.1 hblock] at hexpr
    cases hexpr
  have htouches : ∀ o, Clear t o → ((t.span n).touches o = true ↔ o ∈ region t n) :=
    fun o => touches_iff_mem_region hopens
  -- the new scope reaches over the header too, but when it is opened the names there have been
  -- looked up
  refine bindsNode_of_quiet hnew fun b hb => ?_
  have hdone := hvalues b (hb.mono hexprs)
  have hready := (hb.mono (Set.union_subset hexprs hsub)).behind hdone.toExtends hdisjoint (by simp)
  have hin : ∀ o ∈ area, Clear t o → (t.span n).touches o = true :=
    fun o ho hclear => (htouches o hclear).2 (hsub ho)
  have hscope := hready.inBlock .loop hsub hin (fun o hclear => (htouches o hclear).1) hinner
  have hboth := (hdone.toExtends.trans hscope.toExtends).mono (Set.union_subset hexprs subset_rfl)
    (Set.union_self _).subset
  rw [uses_eq_of_loop ht hkind, scopes_eq hopens, Set.union_left_comm]
  refine ⟨hboth, ?_⟩
  rintro name span (hx | hx)
  · obtain ⟨hmem, hresolves⟩ := hdone.resolves name span hx
    obtain ⟨c, hc, hlookup⟩ := Set.mem_iUnion₂.1 hx
    obtain ⟨-, -, -, -, -, hsettled⟩ := lookup_mem_uses hlookup
    have hregion := start_mem_region_of_lookup ht hlookup
    have hblock : (visitAll visit (t.exprs n) b).found.blockAt? span.start =
        (visitAll visit (t.exprs n) b).opened.head? := by
      rw [hdone.untouched _ fun s => unscoped_of_loop hkind hlookup, hdone.opened_eq]
      exact hb.innermost _ (hexprs hmem) ((hsettled n c hkind hc).1 hregion)
    have hfound := hready.findLocal?_inBlock .loop hin hinner
      (Tree.touches_iff.2 ⟨(hexprs hmem).1, (hexprs hmem).2.le⟩) hblock
      (fun v hv => Nat.lt_of_lt_of_le hregion.2 (hlate v hv c hc))
      (fun s => unscoped_of_body ht hkind hc hlookup) name
    refine ⟨hexprs hmem, fun d => ?_⟩
    rw [hfound, ← hresolves]
    exact (hinner _ (hready.enter .loop hin)).mem_references_iff
      (Set.disjoint_left.1 hdisjoint hmem)
  · have hlookup : .lookup name span ∈ ⋃ p ∈ (t.child? n .block).toList, uses t doc p :=
      hx.resolve_left Finding.noConfusion
    have hmem := ((hinner _ (hready.enter .loop hin)).resolves name span hlookup).1
    refine ⟨hsub hmem, fun d => ?_⟩
    rw [(hscope.resolves name span hx).2,
      hdone.mem_references_iff (Set.disjoint_right.1 hdisjoint hmem)]

theorem binds_forStat (hkind : t.kind n = .forStat ∨ t.kind n = .forRangeStat) :
    BindsNode t doc n (bindForStat t doc visit n) := by
  have hw := ht.toWellNested
  obtain ⟨-, hnotBlock, hfunc, hassign, -, hhanded⟩ := loop_spec doc hkind
  have hexprs := t.exprs_subset_children n
  have hnames : (t.childrenOf n .paramName).Sublist (t.children n) := List.filter_sublist
  have hnamesSub := regions_subset hw hnames.subset
  have hdeclares (visibleFrom : Nat) := (declares_names hw (fun name => t.childToken? name .name)
    (List.map_id (t.childrenOf n .paramName)) hnames
    (declares_loopVar hw ht.toSnug doc visibleFrom)).binds (envAt t doc n)
  have hdisjoint : Disjoint (⋃ c ∈ t.exprs n, region t c)
      (⋃ c ∈ t.childrenOf n .paramName, region t c) :=
    disjoint_regions hw hexprs hnames.subset fun c hc =>
      Tree.notMem_exprs (by rw [Tree.kind_of_mem_childrenOf hc]; rfl)
  unfold bindForStat
  cases hblock : t.child? n .block with
  | none =>
    have hnone : ⋃ c ∈ (t.child? n .block).toList, uses t doc c = ∅ := by simp [hblock]
    refine binds_loop ht hbelow hkind ((hdeclares (t.span n).stop).of_eq rfl hnone.symm) hnamesSub
      hdisjoint ?_
    exact fun v hv c hc => hv ▸ (hw.bounds (.single (hw.mem_children_iff.1 (hexprs hc)))).2
  | some block =>
    have hmem : block ∈ t.children n := List.mem_of_find?_eq_some hblock
    have hparent := hw.mem_children_iff.1 hmem
    have hnode := Tree.nodeKind?_of_child? hblock
    have hblockKind := Tree.kind_of_nodeKind? hnode
    have hbody :=
      hbelow.child ht (List.mem_filter.2 ⟨hmem, Tree.isNode_of_nodeKind? hnode⟩) hnotBlock
        (isPlain_of_parent? hparent hfunc hassign)
    rw [envAt_of_mem_children hw hmem, hhanded, if_pos (by simp [hblockKind])] at hbody
    have hapart : Disjoint (⋃ c ∈ t.childrenOf n .paramName, region t c) (region t block) :=
      disjoint_regions_region hw hnames.subset hmem fun hname => by
        rw [Tree.kind_of_mem_childrenOf hname] at hblockKind
        cases hblockKind
    have hapart' :=
      disjoint_regions_region hw hexprs hmem (Tree.notMem_exprs (by rw [hblockKind]; rfl))
    have hinner := (hdeclares (t.span block).start).comp hbody
      ⟨hapart, fun v hv o ho => hv ▸ ho.1, unseen_empty _ _⟩
    have hbodyUses : ⋃ c ∈ (t.child? n .block).toList, uses t doc c = ∅ ∪ uses t doc block := by
      simp [hblock]
    refine binds_loop ht hbelow hkind (hinner.of_eq rfl hbodyUses.symm)
      (Set.union_subset hnamesSub (region_subset hw hmem))
      (Set.disjoint_union_right.2 ⟨hdisjoint, hapart'⟩) fun v hv c hc => ?_
    obtain rfl : v = (t.span block).start := by simpa using hv
    exact stop_le_start_of_loop ht hkind hc hblock

omit ht hbelow in
theorem foldl_codeNodes {f : Binder → ElementId → Binder}
    (hcomment : ∀ b c, t.kind c = .comment → f b c = b) (b : Binder) :
    (t.childNodes n).foldl f b = (t.codeNodes n).foldl f b := by
  rw [Tree.codeNodes, List.foldl_filter]
  refine List.foldl_ext _ _ _ fun b c _ => ?_
  by_cases hkind : t.kind c = .comment
  · simp [hkind, hcomment b c hkind]
  · simp [hkind]

theorem binds_repeatBody (hkind : t.kind n = .repeatStat) {step : Binder → ElementId → Binder}
    (hstep : ∀ b c, t.kind c = .block → step b c = visitAll visit (t.childNodes c) b)
    {front rest : List ElementId}
    (hnodes : t.codeNodes n = front ++ rest)
    (hfront : front.map t.kind ∈ NodeKind.maybe (NodeKind.one .block))
    (hrest : ∀ c ∈ rest, t.kind c ≠ .block) :
    ∃ starts, (∀ c ∈ rest, ∀ v ∈ starts, v ≤ (t.span c).start) ∧
      Binds t (⋃ c ∈ front, region t c) starts (envAt t doc n) (behind t doc [] (bodyStats t n))
        (⋃ c ∈ front, uses t doc c)
        fun b => front.foldl step b := by
  have hw := ht.toWellNested
  rcases NodeKind.of_map_mem_maybe hfront with rfl | hone
  · have hnone : t.child? n .block = none := by
      rw [Tree.child?_eq_find? (by decide), hnodes]
      simpa using hrest
    have hstats : behind t doc [] (bodyStats t n) = [] := by rw [bodyStats, hnone]; rfl
    exact ⟨∅, by simp, by simpa [hstats] using binds_nothing t ∅ (envAt t doc n)⟩
  · obtain ⟨block, rfl, hblock⟩ := NodeKind.exists_of_map_mem_one hone
    have hsub := t.codeNodes_sublist_children n
    have hordered := (hw.siblings n).sublist hsub
    rw [hnodes] at hsub hordered
    have hmem : block ∈ t.children n := hsub.subset (by simp)
    have hparent := hw.mem_children_iff.1 hmem
    have hstats : bodyStats t n = t.childNodes block := by
      rw [bodyStats, ht.child?_block_of_parent? hparent hblock]
      simp
    have henv : envAt t doc block = envAt t doc n := by
      rw [envAt_of_mem_children hw hmem, handed, hkind]
      exact if_pos (beq_iff_eq.2 hblock)
    have hbinds := binds_stats ht (hbelow.of_mem_children hw hmem) hblock
    rw [henv, ← hstats] at hbinds
    refine ⟨Set.Iic (t.span block).stop, fun c hc v hv => ?_, ?_⟩
    · exact hv.trans ((List.pairwise_append.1 hordered).2.2 block (by simp) c hc)
    · have hscoped := hbinds.addScopes (scopes t block) fun x hx => ⟨_, hx.2⟩
      have hscopes : findings t doc block = scopes t block := findings_eq_scopes (by simp [hblock])
      rw [← hscopes, hstats, ← uses_eq hw, ← hstats] at hscoped
      simpa [hstep _ _ hblock, hstats] using hscoped

theorem binds_condition (hkind : t.kind n = .repeatStat) {step : Binder → ElementId → Binder}
    {nodes : List ElementId} (hsub : nodes.Sublist (t.codeNodes n))
    (hblock : ∀ c ∈ nodes, t.kind c ≠ .block)
    (hstep : ∀ b c, t.kind c ≠ .block → step b c = visit c b) :
    Binds t (⋃ c ∈ nodes, region t c) ∅ (behind t doc [] (bodyStats t n) ++ envAt t doc n) []
    (⋃ c ∈ nodes, uses t doc c)
      fun b => nodes.foldl step b := by
  have hw := ht.toWellNested
  have hchildren := hsub.trans (t.codeNodes_sublist_children n)
  refine binds_nodes ht (List.map_id nodes) hchildren fun c hc => ?_
  have hmem := hchildren.subset hc
  have henv : envAt t doc c = behind t doc [] (bodyStats t n) ++ envAt t doc n := by
    rw [envAt_of_mem_children hw hmem, handed, hkind]
    dsimp only
    rw [if_neg (by simpa using hblock c hc), behind_eq, behind_eq [], List.append_nil]
  simp only [hstep _ c (hblock c hc)]
  rw [← henv]
  refine hbelow.child ht (List.filter_subset_self _ (hsub.subset hc)) (by simp [hkind]) ?_
  exact isPlain_of_parent? (hw.mem_children_iff.1 hmem) (by simp [hkind]) (by simp [hkind])

theorem binds_repeatStat (hkind : t.kind n = .repeatStat)
    (hcomment : ∀ b c, t.kind c = .comment → visit c b = b) :
    BindsNode t doc n (bindRepeatStat t visit n) := by
  have hw := ht.toWellNested
  obtain ⟨front, rest, hnodes, hfront, hrest⟩ :=
    NodeKind.exists_of_map_mem_mul (ht.row_of_kind hkind NodeKind.noConfusion)
  have hsub := t.codeNodes_sublist_children n
  have huses : uses t doc n = scopes t n ∪ ⋃ c ∈ front ++ rest, uses t doc c :=
    hnodes ▸ uses_eq_codeNodes ht (by simp [hkind])
  have hblocks : ∀ c ∈ rest, t.kind c ≠ .block := fun c hc heq => by
    have hexpr := NodeKind.forall_of_map_mem_kstar (NodeKind.maybe_le_kstar hrest) c hc
    rw [heq] at hexpr
    cases hexpr
  let step (b : Binder) (c : ElementId) : Binder :=
    if t.kind c == .block then visitAll visit (t.childNodes c) b else visit c b
  have hblockStep : ∀ b c, t.kind c = .block → step b c = visitAll visit (t.childNodes c) b :=
    fun b c hc =>
      if_pos (by simpa using hc)
  have hotherStep : ∀ b c, t.kind c ≠ .block → step b c = visit c b :=
    fun b c hc => if_neg (by simpa using hc)
  have hcommentStep : ∀ b c, t.kind c = .comment → step b c = b := fun b c hc =>
    (hotherStep b c (by simp [hc])).trans (hcomment b c hc)
  obtain ⟨starts, hstarts, hbody⟩ :=
    binds_repeatBody ht hbelow hkind hblockStep hnodes hfront hblocks
  have hrestSub : rest.Sublist (t.codeNodes n) := hnodes ▸ List.sublist_append_right front rest
  have hcondition := binds_condition ht hbelow hkind hrestSub hblocks hotherStep
  rw [hnodes] at hsub
  have hordered := (List.pairwise_append.1 ((hw.siblings n).sublist hsub)).2.2
  have hfollows := follows_nodes ht doc hordered
  have hseen : ∀ v ∈ starts, ∀ o ∈ ⋃ c ∈ rest, region t c, v ≤ o := fun v hv o ho => by
    obtain ⟨c, hc, hmem⟩ := Set.mem_iUnion₂.1 ho
    exact (hstarts c hc v hv).trans hmem.1
  have hboth := hbody.comp hcondition ⟨hfollows.disjoint, hseen, hfollows.unseen⟩
  have hfrontSub := regions_subset hw ((List.sublist_append_left front rest).trans hsub).subset
  have hrestSub' := regions_subset hw ((List.sublist_append_right front rest).trans hsub).subset
  have hfindings : scopes t n ∪ ((⋃ c ∈ front, uses t doc c) ∪ ⋃ c ∈ rest, uses t doc c) =
      uses t doc n := by
    simp [huses, Set.iUnion_or, Set.iUnion_union_distrib]
  have hinside := hboth.mono (Set.union_subset hfrontSub hrestSub') subset_rfl
  have hall : (fun b => rest.foldl step (front.foldl step b)) = fun b =>
      (t.childNodes n).foldl step b := by
    funext b
    rw [foldl_codeNodes hcommentStep, hnodes, List.foldl_append]
  rw [hall] at hinside
  refine bindsNode_of_quiet (by rw [declared, hkind]) ?_
  exact hfindings ▸ binds_scope (by rw [hkind]; rfl) .repeat hinside

theorem binds_bindNode (hplain : IsPlain t n)
    (hcomment : ∀ b c, t.kind c = .comment → visit c b = b) :
    BindsNode t doc n (bindNode t doc visit n) := by
  have hw := ht.toWellNested
  unfold bindNode
  split
  case h_1 hkind => exact binds_block ht hbelow hkind
  case h_2 hkind => exact binds_localStat ht hbelow hkind
  case h_3 hkind => exact binds_localFuncStat ht hbelow hkind
  case h_4 hkind => exact binds_funcStat ht hbelow hkind
  case h_5 hkind => exact binds_assignStat ht hbelow hkind
  case h_6 hkind => exact binds_forStat ht hbelow (.inl hkind)
  case h_7 hkind => exact binds_forStat ht hbelow (.inr hkind)
  case h_8 hkind => exact binds_repeatStat ht hbelow hkind hcomment
  case h_9 hkind =>
    have hclosure := binds_closure ht hbelow hkind
    rw [hplain.2 hkind] at hclosure
    exact bindsNode_of_quiet (by rw [declared, hkind]) hclosure
  case h_10 hkind =>
    exact bindsNode_of_quiet (by rw [declared, hkind]) (binds_nameUse ht hkind hplain.1)
  case h_11 hkind =>
    refine bindsNode_of_quiet (by rw [declared, hkind]) ?_
    rw [uses_eq_empty ht (by rw [hkind]; rfl)]
    exact binds_nothing t _ _
  case h_12 hblock hlocal hlocalFunc hfunc hassign hfor hforRange hrepeat hclosure hname _ =>
    have hnew : declared t doc n = [] := by
      unfold declared
      split <;> first | rfl | contradiction
    have hhanded (c : ElementId) : handed t doc n (envAt t doc n) c = envAt t doc n := by
      unfold handed
      split <;> first | rfl | contradiction
    have hopens : opensScope (t.kind n) = false := by
      unfold opensScope
      split <;> first | rfl | contradiction
    refine bindsNode_of_quiet hnew (hbelow.all ht hname hopens (fun c hc => ?_) fun c hc => ?_)
    · exact isPlain_of_parent? (hw.mem_children_iff.1 (List.mem_filter.1 hc).1) hfunc hassign
    · rw [envAt_of_mem_children hw (List.mem_filter.1 hc).1, hhanded]

end

theorem bindDeep_comment (hkind : t.kind n = .comment) (fuel : Nat) (b : Binder) :
    bindDeep t doc fuel n b = b := by
  cases fuel with
  | zero => rfl
  | succ fuel => rw [bindDeep, bindNode, hkind]

theorem bindsNode_bindDeep (ht : t.Orderly) {fuel : Nat} {n : Nat} (hnode : t.isNode n = true)
    (hplain : IsPlain t n) (hfuel : t.size ≤ n + fuel) :
    BindsNode t doc n (bindDeep t doc fuel n) := by
  -- what stands in a node comes behind it, so that less fuel is enough
  induction fuel generalizing n with
  | zero => exact absurd (Tree.lt_size_of_isNode hnode) (Nat.not_lt.2 hfuel)
  | succ fuel ih =>
    refine binds_bindNode ht (fun c hlt hnode hplain => ih hnode hplain ?_) hplain fun b c hkind =>
      bindDeep_comment hkind fuel b
    have hlt : n + 1 ≤ c := hlt
    omega

theorem ready_chunk (ht : t.Orderly) (doc : DocId) :
    (Binder.enter { found := { doc := doc } } .chunk ⟨0, t.text.utf8ByteSize⟩).Ready t
    (region t Tree.root) [] := by
  let start : Binder := { found := { doc := doc } }
  let chunk : Block := { parent := none, kind := .chunk, span := ⟨0, t.text.utf8ByteSize⟩ }
  have hchunk : (start.enter .chunk ⟨0, t.text.utf8ByteSize⟩).found.blocks = #[chunk] := rfl
  have houter : (start.enter .chunk ⟨0, t.text.utf8ByteSize⟩).found.OuterFirst :=
    DeclTree.OuterFirst.pushBlock (fun i b p hb => by simp [start] at hb) (by simp [start]) _ _
  have hlocals : (start.enter .chunk ⟨0, t.text.utf8ByteSize⟩).found.localsFrom (some 0) = [] := by
    rw [DeclTree.localsFrom_some (s := chunk) houter (by rw [hchunk]; rfl),
      DeclTree.localsFrom_none]
    rfl
  obtain ⟨cs, hpiece⟩ :=
    ht.piece Tree.root (Tree.lt_size_of_isNode (Tree.isNode_of_nodeKind? ht.root_chunk))
  refine ⟨⟨⟨List.nodup_nil, fun s hs id hid => ?_, houter⟩, ⟨0, rfl, Nat.zero_lt_one⟩,
    fun d hd => ?_⟩, fun o ho _ => ?_, ?_, ?_⟩
  · have hs : s ∈ #[chunk] := hs
    obtain rfl : s = chunk := by simpa using hs
    exact absurd hid (by simp [chunk])
  · exact absurd hd (by simp [Binder.enter, DeclTree.pushBlock])
  · have hstop : o ≤ t.text.utf8ByteSize := (Nat.le_of_lt ho.2).trans hpiece.stop_le
    rw [Binder.enter, DeclTree.blockAt?_pushBlock,
      if_pos (Tree.touches_iff.2 ⟨Nat.zero_le o, hstop⟩)]
    rfl
  · exact congrArg (List.map Decl.toLocal) hlocals
  · intro d hd
    exact absurd (hlocals ▸ hd) List.not_mem_nil

theorem done_bindDocument (ht : t.Orderly) (doc : DocId) :
    Binder.Done t (region t Tree.root) ∅ [] (uses t doc Tree.root)
      (Binder.enter { found := { doc := doc } } .chunk ⟨0, t.text.utf8ByteSize⟩)
      (visitAll (bindDeep t doc t.size) (t.childNodes Tree.root)
        (Binder.enter { found := { doc := doc } } .chunk ⟨0, t.text.utf8ByteSize⟩)) := by
  have hw := ht.toWellNested
  have hkind : t.kind Tree.root = .chunk := Tree.kind_of_nodeKind? ht.root_chunk
  have hbelow : BindsBelow t doc (bindDeep t doc t.size) Tree.root := fun c _ hnode hplain =>
    bindsNode_bindDeep ht hnode hplain (Nat.le_add_left _ _)
  have hmem {c : ElementId} (hc : c ∈ t.childNodes Tree.root) : c ∈ t.children Tree.root :=
    (List.mem_filter.1 hc).1
  have hbinds := hbelow.all ht (by simp [hkind]) (by rw [hkind]; rfl)
    (fun c hc => isPlain_of_parent? (hw.mem_children_iff.1 (hmem hc)) (by simp [hkind])
      (by simp [hkind]))
    fun c hc => by rw [envAt_of_mem_children hw (hmem hc), handed, hkind, envAt_root hw]
  exact hbinds _ (ready_chunk ht doc)

theorem finds_bindDocument (ht : t.Orderly) (doc : DocId) {x : Finding} (hkept : x.IsKept)
    (hclear : Clear t x.span.start) : (bindDocument t doc).Finds x ↔ x ∈ uses t doc Tree.root := by
  have hnone : ¬ (Binder.enter { found := { doc := doc } } .chunk ⟨0,
      t.text.utf8ByteSize⟩).found.Finds x := by
    cases x <;> simp [DeclTree.Finds, Binder.enter, DeclTree.pushBlock]
  exact ((done_bindDocument ht doc).finds_iff x hkept hclear).trans (or_iff_right hnone)

theorem mem_uses_root (ht : t.Orderly) (hkind : t.kind n = .nameExpr)
    (hk : t.childToken? n .name = some k) {x : Finding} (hx : x.span = t.span k)
    (hscope : x ≠ .scope (t.span k)) : x ∈ uses t doc Tree.root ↔ x ∈ findings t doc n := by
  have hw := ht.toWellNested
  obtain ⟨hmem, htoken⟩ := Tree.childToken?_spec hk
  constructor
  · rintro ⟨m, -, hm⟩
    obtain ⟨k', hk', hspan'⟩ : ∃ k', t.childToken? m .name = some k' ∧ x.span = t.span k' := by
      rcases hm with ⟨-, rfl⟩ | ⟨-, k', hk', hmeant | ⟨-, rfl⟩⟩
      · exact absurd (congrArg Finding.scope hx) hscope
      · exact ⟨k', hk', span_of_mem_meant (fun y hy => hy.2 ▸ rfl) hmeant⟩
      · exact ⟨k', hk', rfl⟩
    obtain ⟨hmem', htoken'⟩ := Tree.childToken?_spec hk'
    have hspan : t.span k = t.span k' := hx.symm.trans hspan'
    obtain rfl := eq_of_start_eq hw ht.toSnug htoken htoken' (congrArg Span.start hspan)
    obtain rfl :=
      Option.some.inj ((hw.mem_children_iff.1 hmem).symm.trans (hw.mem_children_iff.1 hmem'))
    exact hm
  · intro hfinding
    have hnode : t.isNode n = true :=
      Tree.isNode_of_nodeKind? (Tree.nodeKind?_of_kind hkind NodeKind.noConfusion)
    exact ⟨n, hw.below_root (Tree.lt_size_of_isNode hnode), hfinding⟩

/-- A name is found to be what it is recorded as a use of, as long as no loop was opened over it
later. -/
theorem findLocal?_bindDocument (ht : t.Orderly) (doc : DocId) (hkind : t.kind n = .nameExpr)
    (hk : t.childToken? n .name = some k) (hsettled : Settled t (t.span k).start) (d : DeclId) :
    ((bindDocument t doc).findLocal? (t.textOf k) (t.span k).start).map (·.id) = some d ↔
      (d, t.span k) ∈ (bindDocument t doc).references := by
  have hlookup : .lookup (t.textOf k) (t.span k) ∈ uses t doc Tree.root := by
    rw [mem_uses_root ht hkind hk rfl Finding.noConfusion, findings_eq hkind hk]
    exact .inr ⟨hsettled, rfl⟩
  have hresolves := ((done_bindDocument ht doc).resolves _ _ hlookup).2 d
  have hnone : (d, t.span k) ∉
      (Binder.enter { found := { doc := doc } } .chunk ⟨0, t.text.utf8ByteSize⟩).found.references :=
        Array.not_mem_empty _
  exact (hresolves.trans (or_iff_right hnone)).symm

/-- What is recorded of a name is what it means where it stands. -/
structure RecordsMeaning (found : DeclTree) (t : Tree) (doc : DocId) (n k : ElementId) : Prop where
  /-- The name is a use of the local that it means, and of no other. -/
  use_iff : ∀ d, t.span k ∈ found.referencesOf d ↔ (envAt t doc n).meaning? (t.textOf k) = some d
  /-- It is taken for a global just if no local of the name is in scope. -/
  unused_iff : (∀ d, t.span k ∉ found.referencesOf d) ↔ (envAt t doc n).meaning? (t.textOf k) = none
  /-- It declares the global where it is assigned to. -/
  global_iff : (∃ d ∈ found.decls, d.isGlobal = true ∧ d.span = t.span k) ↔
    isTarget t n = true ∧ (envAt t doc n).meaning? (t.textOf k) = none

theorem mem_referencesOf {found : DeclTree} {d : DeclId} {span : Span} :
    span ∈ found.referencesOf d ↔ found.Finds (.use d span) := by
  simp only [DeclTree.referencesOf, DeclTree.Finds, List.mem_filterMap, Array.mem_toList_iff]
  constructor
  · rintro ⟨⟨d', span'⟩, hmem, heq⟩
    obtain ⟨hd, rfl⟩ : d' = d ∧ span' = span := by simpa using heq
    exact hd ▸ hmem
  · exact fun hmem => ⟨_, hmem, by simp⟩

theorem recordsMeaning_of_orderly (ht : t.Orderly) (doc : DocId) (hkind : t.kind n = .nameExpr)
    (hk : t.childToken? n .name = some k) (hclear : Clear t (t.span k).start) :
    RecordsMeaning (bindDocument t doc) t doc n k := by
  have hfinds {x : Finding} (hkept : x.IsKept) (hx : x.span = t.span k) :
      (bindDocument t doc).Finds x ↔
      x ∈ meant (envAt t doc n) (t.textOf k) (t.span k) (globals t n k) := by
    have hscope : x ≠ .scope (t.span k) := by
      rintro rfl
      exact hkept
    have hlookup : x ∉ lookups t k := by
      rintro ⟨-, rfl⟩
      exact hkept
    rw [finds_bindDocument ht doc hkept (hx ▸ hclear), mem_uses_root ht hkind hk hx hscope,
      findings_eq hkind hk, Set.mem_union, or_iff_left hlookup]
  have huse (d : DeclId) :
      t.span k ∈ (bindDocument t doc).referencesOf d ↔
      (envAt t doc n).meaning? (t.textOf k) = some d := by
    rw [mem_referencesOf, hfinds (x := .use d (t.span k)) trivial rfl]
    simp [meant, globals]
  refine ⟨huse, ?_, ?_⟩
  · simp only [huse]
    exact Option.eq_none_iff_forall_ne_some.symm
  · refine (hfinds (x := .global (t.span k)) trivial rfl).trans ?_
    simp [meant, globals, and_comm]

/-- Names are bound by lexical scoping, where no scope ends right where the name starts. -/
theorem bindDocument_recordsMeaning (text : String) (doc : DocId) {n k : ElementId}
    (hkind : (parse text).kind n = .nameExpr) (hk : (parse text).childToken? n .name = some k)
    (hclear : Clear (parse text) ((parse text).span k).start) :
    RecordsMeaning (bindDocument (parse text) doc) (parse text) doc n k :=
  recordsMeaning_of_orderly (parse_orderly text) doc hkind hk hclear

/-- The condition of the loop sees the local of its body, which hides the one before the loop. -/
theorem bindDocument_recordsMeaning_condition :
    let t := parse "local x repeat local x = x until x x = y"
    t.kind 17 = .nameExpr ∧ t.childToken? 17 .name = some 18 ∧ Clear t (t.span 18).start ∧
      (envAt t 0 17).meaning? (t.textOf 18) = some ⟨0, 21⟩ ∧
      RecordsMeaning (bindDocument t 0) t 0 17 18 := by
  intro t
  have hkind : t.kind 17 = .nameExpr := by decide +kernel
  have hk : t.childToken? 17 .name = some 18 := by decide +kernel
  have hclear : Clear t (t.span 18).start := by decide +kernel
  exact ⟨hkind, hk, hclear, by decide +kernel, bindDocument_recordsMeaning _ 0 hkind hk hclear⟩

/-- The scope of a loop reaches one place too far: a name that starts where the loop ends is taken
for a local of the body. -/
theorem not_recordsMeaning_behindLoop :
    ¬ ∀ (text : String) (doc : DocId) (n k : ElementId), (parse text).errors = [] →
    (parse text).kind n = .nameExpr → (parse text).childToken? n .name = some k →
    RecordsMeaning (bindDocument (parse text) doc) (parse text) doc n k := by
  intro h
  have herrors : (parse "repeat local x until (y)x=1").errors = [] := by decide +kernel
  have hkind : (parse "repeat local x until (y)x=1").kind 16 = .nameExpr := by decide +kernel
  have hk : (parse "repeat local x until (y)x=1").childToken? 16 .name = some 17 := by
    decide +kernel
  have hmeaning : (envAt (parse "repeat local x until (y)x=1") 0 16).meaning?
      ((parse "repeat local x until (y)x=1").textOf 17) = none := by decide +kernel
  have huse : (parse "repeat local x until (y)x=1").span 17 ∈
      (bindDocument (parse "repeat local x until (y)x=1") 0).referencesOf ⟨0, 13⟩ := by
        decide +kernel
  exact (h _ 0 16 17 herrors hkind hk).unused_iff.2 hmeaning ⟨0, 13⟩ huse

end LuaAnalysis.Scope
