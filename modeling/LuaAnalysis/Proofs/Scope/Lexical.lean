import LuaAnalysis.Proofs.Syntax.TreePlaces
import LuaAnalysis.Scope.Binding

/-!
Lexical scoping, told by the syntax tree alone. Every node hands the locals that are in scope in it
on to what stands in it, and puts the locals that it declares in front of them. Where in the text
something stands plays no part in it.
-/

namespace LuaAnalysis.Scope

open Relation (ReflTransGen)
open Computability Document Syntax

/-- A local that is in scope, known by the place where its name is declared. -/
structure Local where
  name : String
  decl : DeclId
deriving DecidableEq, Repr

abbrev Env := List Local

/-- What a name means: the nearest local of the name. The name is global if there is none. -/
def Env.meaning? (env : Env) (name : String) : Option DeclId :=
  (env.find? (·.name == name)).map (·.decl)

def opensScope : NodeKind → Bool
  | .block | .closureExpr | .forStat | .forRangeStat | .repeatStat => true
  | _ => false

/-- What is found out about names: that one is used for a local, or declared as a global. On the way
names are looked up, and scopes are opened. -/
inductive Finding where
  | use (decl : DeclId) (span : Span)
  | global (span : Span)
  | lookup (name : String) (span : Span)
  | scope (span : Span)

namespace Finding

def span : Finding → Span
  | .use _ span | .global span | .lookup _ span | .scope span => span

def IsKept : Finding → Prop
  | .use .. | .global _ => True
  | .lookup .. | .scope _ => False

end Finding

/-- What is found out about a name: what local it is used for, or else what there is to find out
about a global. -/
def meant (env : Env) (name : String) (span : Span) (globals : Set Finding) : Set Finding :=
  {x | (∃ d, env.meaning? name = some d ∧ x = .use d span) ∨ env.meaning? name = none ∧ x ∈ globals}

section

variable (t : Tree) (doc : DocId)

def region (id : ElementId) : Set Nat := Set.Ico (t.span id).start (t.span id).stop

def Clear (offset : Nat) : Prop := ∀ s, opensScope (t.kind s) = true → (t.span s).stop ≠ offset

/-- No scope in what a loop runs over touches an offset. In what a loop runs over itself no scope
ends there either. -/
def Settled (offset : Nat) : Prop :=
  ∀ loop expr, t.kind loop = .forStat ∨ t.kind loop = .forRangeStat → expr ∈ t.exprs loop →
    (offset ∈ region t expr → Clear t offset) ∧
      ∀ s, ReflTransGen (fun p id => t.parent? id = some p) expr s → opensScope (t.kind s) = true →
        ¬ (t.span s).touches offset = true

/-- The locals with these names, each of which hides those before it. -/
def localsAt (tokens : List ElementId) : Env :=
  (tokens.map fun k => ⟨t.textOf k, ⟨doc, (t.span k).start⟩⟩).reverse

def nameTokens (nodes : List ElementId) : List ElementId :=
  nodes.filterMap fun n => t.childToken? n .name

/-- The locals that a statement leaves in scope behind it. -/
def declared (stat : ElementId) : Env :=
  match t.kind stat with
  | .localStat => localsAt t doc (nameTokens t (t.childrenOf stat .localName))
  | .localFuncStat => localsAt t doc (nameTokens t (t.child? stat .localName).toList)
  | _ => []

def behind (env : Env) (stats : List ElementId) : Env :=
  stats.foldl (fun env stat => declared t doc stat ++ env) env

/-- Whether a function is defined under a name with a colon, and so has its receiver as a
parameter. -/
def isMethod (closure : ElementId) : Bool :=
  match t.parent? closure with
  | some stat => t.kind stat == .funcStat && (t.exprs stat).any fun e =>
    t.kind e == .indexExpr && t.hasToken e .colon
  | none => false

/-- The receiver is declared where the parameter list opens. The name of the dots is their own
text. -/
def params (closure : ElementId) : Env :=
  match t.child? closure .paramList with
  | some list =>
    let named := (t.childrenOf list .paramName).filterMap fun n =>
      t.childToken? n .name <|> t.childToken? n .dots
    let self? := if isMethod t closure then t.childToken? list .leftParen else none
    localsAt t doc named ++ self?.toList.map fun paren => ⟨"self", ⟨doc, (t.span paren).start⟩⟩
  | none => []

def loopVars (stat : ElementId) : Env :=
  localsAt t doc (nameTokens t (t.childrenOf stat .paramName))

def bodyStats (stat : ElementId) : List ElementId :=
  (t.child? stat .block).toList.flatMap t.childNodes

/-- What is in scope in a child of a node where `env` is in scope. -/
def handed (n : ElementId) (env : Env) (child : ElementId) : Env :=
  match t.kind n with
  | .block => behind t doc env ((t.childNodes n).takeWhile (· != child))
  | .localFuncStat => declared t doc n ++ env
  | .closureExpr => params t doc n ++ env
  | .forStat | .forRangeStat => if t.kind child == .block then loopVars t doc n ++ env else env
  | .repeatStat => if t.kind child == .block then env else behind t doc env (bodyStats t n)
  | _ => env

/-- The locals in scope at an element, handed down at most `fuel` levels. -/
def envFrom : Nat → ElementId → Env
  | 0, _ => []
  | fuel + 1, id =>
    match t.parent? id with
    | some p => handed t doc p (envFrom fuel p) id
    | none => []

/-- The locals in scope at an element. A parent has a smaller index. -/
def envAt (id : ElementId) : Env := envFrom t doc (id + 1) id

/-- Whether a name is one that is assigned to, or that a function is defined under. -/
def isTarget (n : ElementId) : Bool :=
  t.kind n == .nameExpr && match t.parent? n with
    | some stat =>
      match t.kind stat with
      | .funcStat => true
      | .assignStat => (t.childToken? stat .assign).any fun assign =>
        (t.span n).stop ≤ (t.span assign).start
      | _ => false
    | none => false

def globals (n k : ElementId) : Set Finding := {x | isTarget t n = true ∧ x = .global (t.span k)}

def lookups (k : ElementId) : Set Finding :=
  {x | Settled t (t.span k).start ∧ x = .lookup (t.textOf k) (t.span k)}

def scopes (n : ElementId) : Set Finding :=
  {x | opensScope (t.kind n) = true ∧ x = .scope (t.span n)}

def findings (n : ElementId) : Set Finding :=
  scopes t n ∪ {x | t.kind n = .nameExpr ∧ ∃ k, t.childToken? n .name = some k ∧
    x ∈ meant (envAt t doc n) (t.textOf k) (t.span k) (globals t n k) ∪ lookups t k}

def uses (n : ElementId) : Set Finding :=
  {x | ∃ m, ReflTransGen (fun p id => t.parent? id = some p) n m ∧ x ∈ findings t doc m}

end

/-- Kinds of element in which there are no expressions. -/
def isBare : NodeKind → Bool
  | .absent | .comment | .localName | .attribute | .paramList | .paramName => true
  | kind => kind.isAnnotation

variable {t : Tree} {doc : DocId} {id n p c k : ElementId} {env : Env}

theorem isNode_of_opensScope (h : opensScope (t.kind n) = true) : t.isNode n = true := by
  refine Tree.isNode_of_nodeKind? (Tree.nodeKind?_of_kind rfl fun habsent => ?_)
  rw [habsent] at h
  cases h

instance (t : Tree) (offset : Nat) : Decidable (Clear t offset) :=
  decidable_of_iff (∀ s < t.size, opensScope (t.kind s) = true → (t.span s).stop ≠ offset)
    ⟨fun h s hopens => h s (Tree.lt_size_of_isNode (isNode_of_opensScope hopens)) hopens,
      fun h s _ => h s⟩

theorem settled_of_covers (hw : t.WellNested) {offset : Nat} (hclear : Clear t offset)
    (h : ∀ loop < t.size, t.kind loop = .forStat ∨ t.kind loop = .forRangeStat →
      ∀ expr ∈ t.exprs loop, ∀ s < t.size,
      (opensScope (t.kind s) && (t.span expr).covers (t.span s) && (t.span s).touches offset) =
      false) :
    Settled t offset := by
  intro loop expr hkind hexpr
  have hloop : loop < t.size := by
    refine Tree.lt_size_of_isNode (Tree.isNode_of_nodeKind? (Tree.nodeKind?_of_kind rfl ?_))
    rintro habsent
    simp [habsent] at hkind
  refine ⟨fun _ => hclear, fun s hs hopens => ?_⟩
  have hcovers : (t.span expr).covers (t.span s) = true := by
    simpa [Span.covers] using hw.bounds_of_refl hs
  simpa [hopens, hcovers] using h loop hloop hkind expr hexpr s
    (Tree.lt_size_of_isNode (isNode_of_opensScope hopens))

theorem envFrom_of_lt (hw : t.WellNested) {fuel : Nat} (h : id < fuel) :
    envFrom t doc fuel id = envAt t doc id := by
  induction id using Nat.strongRecOn generalizing fuel with
  | ind id ih =>
    cases fuel with
    | zero => exact absurd h (Nat.not_lt_zero id)
    | succ fuel =>
      rw [envAt, envFrom, envFrom]
      cases hparent : t.parent? id with
      | none => rfl
      | some p =>
        have hlt : p < id := (hw.parent_node id p hparent).2
        dsimp only
        rw [ih p hlt (Nat.lt_of_lt_of_le hlt (Nat.le_of_lt_succ h)), ih p hlt hlt]

theorem envAt_of_parent? (hw : t.WellNested) (h : t.parent? id = some p) :
    envAt t doc id = handed t doc p (envAt t doc p) id := by
  have hlt : p < id := (hw.parent_node id p h).2
  rw [envAt, envFrom, h]
  dsimp only
  rw [envFrom_of_lt hw hlt]

theorem envAt_root (hw : t.WellNested) : envAt t doc Tree.root = [] := by
  have hsize : Tree.root < t.size := Tree.lt_size_of_isNode (Tree.isNode_of_nodeKind? hw.root_chunk)
  rw [envAt, envFrom, (hw.parent_eq_none _ hsize).2 rfl]

theorem behind_eq (env : Env) (stats : List ElementId) :
    behind t doc env stats = stats.reverse.flatMap (declared t doc) ++ env := by
  induction stats generalizing env with
  | nil => rfl
  | cons stat stats ih =>
    rw [behind, List.foldl_cons]
    exact (ih _).trans (by simp)

theorem envAt_of_mem_children (hw : t.WellNested) (h : c ∈ t.children n) :
    envAt t doc c = handed t doc n (envAt t doc n) c :=
  envAt_of_parent? hw (hw.mem_children_iff.1 h)

theorem takeWhile_ne_of_nodup {front rest : List ElementId} (h : (front ++ c :: rest).Nodup) :
    (front ++ c :: rest).takeWhile (· != c) = front := by
  rw [List.takeWhile_append_of_pos fun d hd => ?_, List.takeWhile_cons_of_neg (by simp),
    List.append_nil]
  exact bne_iff_ne.2 ((List.nodup_append.1 h).2.2 d hd c List.mem_cons_self)

theorem envAt_of_stat (hw : t.WellNested) (hkind : t.kind n = .block) {front rest : List ElementId}
    (hstats : t.childNodes n = front ++ c :: rest) :
    envAt t doc c = behind t doc (envAt t doc n) front := by
  have hmem : c ∈ t.children n := (List.mem_filter.1 (hstats ▸ by simp : c ∈ t.childNodes n)).1
  have hsub : (t.childNodes n).Sublist (t.children n) := List.filter_sublist
  have hnodup := (hw.nodup_children n).sublist hsub
  rw [hstats] at hnodup
  rw [envAt_of_mem_children hw hmem, handed, hkind]
  dsimp only
  rw [hstats, takeWhile_ne_of_nodup hnodup]

theorem declared_eq_nil (ht : t.Orderly) (h : c ∈ t.children n) (hkind : t.kind n ≠ .block) :
    declared t doc c = [] := by
  have hparent := ht.mem_children_iff.1 h
  unfold declared
  split
  · rename_i hlocal
    have hmay := ht.mayHold_of_parent? hparent (by rw [hlocal]; rfl)
    rw [hlocal] at hmay
    exact absurd (beq_iff_eq.1 hmay) hkind
  · rename_i hfunc
    have hmay := ht.mayHold_of_parent? hparent (by rw [hfunc]; rfl)
    rw [hfunc] at hmay
    exact absurd (beq_iff_eq.1 hmay) hkind
  · rfl

theorem span_of_mem_meant {name : String} {span : Span} {globals : Set Finding}
    (hglobals : ∀ x ∈ globals, x.span = span) {x : Finding} (h : x ∈ meant env name span globals) :
    x.span = span := by
  rcases h with ⟨d, -, rfl⟩ | ⟨-, hx⟩
  · rfl
  · exact hglobals x hx

theorem scopes_eq_empty (h : opensScope (t.kind n) = false) : scopes t n = ∅ :=
  Set.eq_empty_of_forall_notMem fun _ hx => absurd hx.1 (by simp [h])

theorem scopes_eq (h : opensScope (t.kind n) = true) : scopes t n = {.scope (t.span n)} := by
  ext x
  exact and_iff_right h

theorem scopes_eq_empty_of_name (h : t.kind n = .nameExpr) : scopes t n = ∅ :=
  scopes_eq_empty (by rw [h]; rfl)

theorem findings_eq_scopes (h : t.kind n ≠ .nameExpr) : findings t doc n = scopes t n :=
  Set.union_eq_left.2 fun _ hx => absurd hx.1 h

theorem findings_eq (hkind : t.kind n = .nameExpr) (hk : t.childToken? n .name = some k) :
    findings t doc n = meant (envAt t doc n) (t.textOf k) (t.span k) (globals t n k) ∪
    lookups t k := by
  rw [findings, scopes_eq_empty_of_name hkind, Set.empty_union]
  ext x
  constructor
  · rintro ⟨-, k', hk', hx⟩
    obtain rfl := Option.some.inj (hk.symm.trans hk')
    exact hx
  · exact fun hx => ⟨hkind, k, hk, hx⟩

theorem findings_eq_empty_of_none (hkind : t.kind n = .nameExpr)
    (hk : t.childToken? n .name = none) : findings t doc n = ∅ := by
  rw [findings, scopes_eq_empty_of_name hkind, Set.empty_union]
  refine Set.eq_empty_of_forall_notMem ?_
  rintro x ⟨-, k, hk', -⟩
  rw [hk] at hk'
  cases hk'

theorem isNode_of_mem_findings {x : Finding} (h : x ∈ findings t doc n) : t.isNode n = true := by
  rcases h with ⟨hopens, -⟩ | ⟨hkind, -⟩
  · exact isNode_of_opensScope hopens
  · exact Tree.isNode_of_nodeKind? (Tree.nodeKind?_of_kind hkind NodeKind.noConfusion)

theorem scope_mem_uses {span : Span} (h : .scope span ∈ uses t doc n) :
    ∃ s, ReflTransGen (fun p id => t.parent? id = some p) n s ∧ opensScope (t.kind s) = true ∧
    span = t.span s := by
  obtain ⟨s, hs, ⟨hopens, heq⟩ | ⟨-, k, -, hx⟩⟩ := h
  · exact ⟨s, hs, hopens, Finding.scope.inj heq⟩
  · rcases hx with (⟨d, -, heq⟩ | ⟨-, -, heq⟩) | ⟨-, heq⟩ <;> cases heq

theorem lookup_mem_uses {name : String} {span : Span} (h : .lookup name span ∈ uses t doc n) :
    ∃ m k, ReflTransGen (fun p id => t.parent? id = some p) n m ∧ t.childToken? m .name = some k ∧
    span = t.span k ∧
      Settled t span.start := by
  obtain ⟨m, hm, ⟨-, heq⟩ | ⟨-, k, hk, hx⟩⟩ := h
  · cases heq
  · rcases hx with (⟨d, -, heq⟩ | ⟨-, -, heq⟩) | ⟨hsettled, heq⟩
    · cases heq
    · cases heq
    · obtain ⟨-, rfl⟩ := Finding.lookup.inj heq
      exact ⟨m, k, hm, hk, rfl, hsettled⟩

theorem uses_eq (hw : t.WellNested) (n : ElementId) :
    uses t doc n = findings t doc n ∪ ⋃ c ∈ t.childNodes n, uses t doc c := by
  ext x
  rw [Set.mem_union, Set.mem_iUnion₂]
  constructor
  · rintro ⟨m, hm, hx⟩
    rcases hm.cases_head with rfl | ⟨c, hc, hrest⟩
    · exact .inl hx
    · have hnode : t.isNode c = true := by
        rcases hrest.cases_head with rfl | ⟨e, he, -⟩
        · exact isNode_of_mem_findings hx
        · exact (hw.parent_node _ _ he).1
      exact .inr ⟨c, List.mem_filter.2 ⟨hw.mem_children_iff.2 hc, hnode⟩, m, hrest, hx⟩
  · rintro (hx | ⟨c, hc, m, hm, hx⟩)
    · exact ⟨n, .refl, hx⟩
    · exact ⟨m, hm.head (hw.mem_children_iff.1 (List.mem_filter.1 hc).1), hx⟩

theorem isBare_of_isAnnotation {kind : NodeKind} (h : kind.isAnnotation = true) :
    isBare kind = true := by
  cases kind <;> first | rfl | exact h

theorem opensScope_of_isBare {kind : NodeKind} (h : isBare kind = true) :
    opensScope kind = false := by
  cases kind <;> first | rfl | cases h

theorem isBare_of_mem_production {outer : NodeKind} {kinds : List NodeKind}
    (hrow : kinds ∈ outer.production) (h : isBare outer = true) :
    ∀ kind ∈ kinds, isBare kind = true := by
  have hstar {among : NodeKind → Bool} (hamong : ∀ kind, among kind = true → isBare kind = true)
      (hrow : kinds ∈ (NodeKind.oneOf among)∗) : ∀ kind ∈ kinds, isBare kind = true :=
    fun kind hkind => hamong kind (NodeKind.mem_kstar_oneOf.1 hrow kind hkind)
  have hnone (hrow : kinds ∈ (1 : Language NodeKind)) : ∀ kind ∈ kinds, isBare kind = true := by
    obtain rfl : kinds = [] := hrow
    simp
  cases outer
  case absent => exact absurd rfl (NodeKind.present_of_mem_production hrow)
  case paramName | «attribute» => exact hnone hrow
  case paramList => exact hstar (fun kind hkind => by rw [beq_iff_eq.1 hkind]; rfl) hrow
  case localName =>
    rcases hrow with hrow | ⟨kind, hkind, rfl⟩
    · exact hnone hrow
    · rw [beq_iff_eq.1 hkind]
      simp [isBare]
  all_goals first | exact hstar (fun _ => isBare_of_isAnnotation) hrow | cases h

theorem isBare_of_below (ht : t.Orderly) (h : ReflTransGen (fun p id => t.parent? id = some p) n c)
    (hbare : isBare (t.kind n) = true) : isBare (t.kind c) = true := by
  induction h with
  | refl => exact hbare
  | @tail p c _ hp ih =>
    by_cases hcode : t.isNode c = true ∧ t.kind c ≠ .comment
    · refine isBare_of_mem_production (ht.row p (ht.parent_node _ _ hp).1) ih _
        (List.mem_map_of_mem ?_)
      exact Tree.mem_codeNodes.2 ⟨ht.mem_children_iff.2 hp, hcode⟩
    · rw [not_and_or, not_not] at hcode
      rcases hcode with htoken | hcomment
      · have hnone : t.nodeKind? c = none := by simpa [Tree.isNode] using htoken
        rw [Tree.kind, hnone]
        rfl
      · rw [hcomment]
        rfl

theorem uses_eq_empty (ht : t.Orderly) (hbare : isBare (t.kind n) = true) : uses t doc n = ∅ := by
  refine Set.eq_empty_of_forall_notMem ?_
  rintro x ⟨m, hm, hx⟩
  have hbareBelow := isBare_of_below ht hm hbare
  rcases hx with ⟨hopens, -⟩ | ⟨hkind, -⟩
  · rw [opensScope_of_isBare hbareBelow] at hopens
    cases hopens
  · rw [hkind] at hbareBelow
    cases hbareBelow

theorem uses_eq_of_bare (ht : t.Orderly) (hkind : t.kind n ≠ .nameExpr) {nodes : List ElementId}
    (hsub : nodes ⊆ t.codeNodes n)
    (hbare : ∀ c ∈ t.codeNodes n, c ∈ nodes ∨ isBare (t.kind c) = true) :
    uses t doc n = scopes t n ∪ ⋃ c ∈ nodes, uses t doc c := by
  rw [uses_eq ht.toWellNested, findings_eq_scopes hkind]
  congr 1
  refine subset_antisymm (Set.iUnion₂_subset fun c hc => ?_)
    (Set.biUnion_subset_biUnion_left fun c hc => ?_)
  · by_cases hcode : c ∈ t.codeNodes n
    · rcases hbare c hcode with hmem | hbare
      · exact Set.subset_biUnion_of_mem (u := uses t doc) hmem
      · rw [uses_eq_empty ht hbare]
        exact Set.empty_subset _
    · have hcomment : t.kind c = .comment := by simpa [Tree.codeNodes, hc] using hcode
      rw [uses_eq_empty ht (by rw [hcomment]; rfl)]
      exact Set.empty_subset _
  · exact (List.mem_filter.1 (hsub hc)).1

theorem uses_eq_codeNodes (ht : t.Orderly) (hkind : t.kind n ≠ .nameExpr) :
    uses t doc n = scopes t n ∪ ⋃ c ∈ t.codeNodes n, uses t doc c :=
  uses_eq_of_bare ht hkind (List.Subset.refl _) fun _ hc => .inl hc

theorem uses_eq_of_append (ht : t.Orderly) (hkind : t.kind n ≠ .nameExpr)
    {front rest : List ElementId} (hnodes : t.codeNodes n = front ++ rest)
    (hbare : ∀ c ∈ front, isBare (t.kind c) = true) :
    uses t doc n = scopes t n ∪ ⋃ c ∈ rest, uses t doc c := by
  refine uses_eq_of_bare ht hkind (hnodes ▸ List.subset_append_right _ _) fun c hc => ?_
  exact (List.mem_append.1 (hnodes ▸ hc)).symm.imp_right (hbare c)

theorem uses_eq_of_exprs (ht : t.Orderly) (hkind : t.kind n ≠ .nameExpr)
    (hbare : ∀ c ∈ t.codeNodes n, (t.kind c).isExpr = true ∨ isBare (t.kind c) = true) :
    uses t doc n = scopes t n ∪ ⋃ c ∈ t.exprs n, uses t doc c := by
  refine uses_eq_of_bare ht hkind (t.exprs_sublist_codeNodes n).subset fun c hc =>
    (hbare c hc).imp_left fun hexpr => ?_
  rw [Tree.exprs_eq_filter]
  exact List.mem_filter.2 ⟨hc, hexpr⟩

theorem expr_or_bare_of_localStat (ht : t.Orderly) (hkind : t.kind n = .localStat)
    (hc : c ∈ t.codeNodes n) : (t.kind c).isExpr = true ∨ isBare (t.kind c) = true := by
  have hrow : NodeKind.localStat.production ≤
      (NodeKind.oneOf fun kind => kind.isExpr || isBare kind)∗ :=
    NodeKind.mul_le_kstar (kstar_mono (NodeKind.one_le_oneOf rfl))
      (kstar_mono (NodeKind.oneOf_mono fun kind h => by simp [h]))
  simpa using NodeKind.forall_of_map_mem_kstar
    (hrow (ht.row_of_kind hkind NodeKind.noConfusion)) c hc

theorem exists_header_of_loop (ht : t.Orderly)
    (hkind : t.kind n = .forStat ∨ t.kind n = .forRangeStat) : ∃ header body, t.codeNodes n =
    header ++ body ∧ (∀ c ∈ header, (t.kind c).isExpr = true ∨ t.kind c = .paramName) ∧
      ∀ c ∈ body, t.kind c = .block := by
  let among (kind : NodeKind) : Bool := kind.isExpr || kind == .paramName
  have hparam : NodeKind.one .paramName ≤ NodeKind.oneOf among := NodeKind.one_le_oneOf rfl
  have hexprs : NodeKind.expr∗ ≤ (NodeKind.oneOf among)∗ :=
    kstar_mono (NodeKind.oneOf_mono fun kind h => by simp [among, h])
  have hrow : (t.codeNodes n).map t.kind ∈ (NodeKind.oneOf among)∗ *
      NodeKind.maybe (NodeKind.one .block) := by
    rcases hkind with hkind | hkind
    · refine mul_le_mul_left (NodeKind.mul_le_kstar ?_ hexprs) _
        (ht.row_of_kind hkind NodeKind.noConfusion)
      exact hparam.trans le_kstar
    · refine mul_le_mul_left (NodeKind.mul_le_kstar ?_ hexprs) _
        (ht.row_of_kind hkind NodeKind.noConfusion)
      exact kstar_mono hparam
  obtain ⟨header, body, hnodes, hheader, hbody⟩ := NodeKind.exists_of_map_mem_mul hrow
  refine ⟨header, body, hnodes, fun c hc => ?_, fun c hc => ?_⟩
  · simpa [among] using NodeKind.forall_of_map_mem_kstar hheader c hc
  · exact beq_iff_eq.1 (NodeKind.forall_of_map_mem_kstar (NodeKind.maybe_le_kstar hbody) c hc)

theorem of_mem_loop (ht : t.Orderly) (hkind : t.kind n = .forStat ∨ t.kind n = .forRangeStat)
    (hc : c ∈ t.codeNodes n) : (t.kind c).isExpr = true ∨ isBare (t.kind c) = true ∨
    t.kind c = .block := by
  obtain ⟨header, body, hnodes, hheader, hbody⟩ := exists_header_of_loop ht hkind
  rcases List.mem_append.1 (hnodes ▸ hc) with hc | hc
  · exact (hheader c hc).imp_right fun hname => .inl (by rw [hname]; rfl)
  · exact .inr (.inr (hbody c hc))

theorem codeNodes_nameExpr (ht : t.Orderly) (hkind : t.kind n = .nameExpr) :
    t.codeNodes n = [] := by
  have hrow :=
    ht.row n (Tree.isNode_of_nodeKind? (Tree.nodeKind?_of_kind hkind NodeKind.noConfusion))
  rw [hkind] at hrow
  exact List.map_eq_nil_iff.1 hrow

theorem uses_nameExpr (ht : t.Orderly) (hkind : t.kind n = .nameExpr) :
    uses t doc n = findings t doc n := by
  rw [uses_eq ht.toWellNested, Set.union_eq_left]
  refine Set.iUnion₂_subset fun c hc => ?_
  have hcomment : t.kind c = .comment := by
    have hcode : c ∉ t.codeNodes n := codeNodes_nameExpr ht hkind ▸ List.not_mem_nil
    simpa [Tree.codeNodes, hc] using hcode
  rw [uses_eq_empty ht (by rw [hcomment]; rfl)]
  exact Set.empty_subset _

theorem uses_eq_of_loop (ht : t.Orderly) (hkind : t.kind n = .forStat ∨ t.kind n = .forRangeStat) :
    uses t doc n = scopes t n ∪
      ((⋃ c ∈ t.exprs n, uses t doc c) ∪ ⋃ c ∈ (t.child? n .block).toList, uses t doc c) := by
  have hblock : ∀ c, c ∈ t.codeNodes n → t.kind c = .block → c ∈ (t.child? n .block).toList :=
    fun c hc hkind => by
      have hparent := ht.mem_children_iff.1 ((t.codeNodes_sublist_children n).subset hc)
      rw [ht.child?_block_of_parent? hparent hkind]
      exact List.mem_singleton_self c
  have hall : uses t doc n = scopes t n ∪ ⋃ c ∈ t.exprs n ++ (t.child? n .block).toList,
      uses t doc c := by
    have hname : t.kind n ≠ .nameExpr := by rcases hkind with hkind | hkind <;> simp [hkind]
    refine uses_eq_of_bare ht hname (List.append_subset.2 ⟨?_, ?_⟩) fun c hc => ?_
    · exact (t.exprs_sublist_codeNodes n).subset
    · intro c hc
      rw [Option.mem_toList, Tree.child?_eq_find? (by decide)] at hc
      exact List.mem_of_find?_eq_some hc
    · rcases of_mem_loop ht hkind hc with hexpr | hbare | hblockKind
      · rw [Tree.exprs_eq_filter]
        exact .inl (List.mem_append_left _ (List.mem_filter.2 ⟨hc, hexpr⟩))
      · exact .inr hbare
      · exact .inl (List.mem_append_right _ (hblock c hc hblockKind))
  simp [hall, Set.iUnion_or, Set.iUnion_union_distrib]

end LuaAnalysis.Scope
