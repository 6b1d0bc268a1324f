import LuaAnalysis.Proofs.Inference.Inheritance
import LuaAnalysis.Proofs.Inference.Termination

/-!
The order in which the sources of members are found: a class before what it extends, and all that a
type leads to before the next type. The search for them goes into classes, aliases and unions by
recursion; here it is told by the list of types that are still to be looked into.
-/

namespace LuaAnalysis.Inference

open Document LuaAnalysis.Types Workspace

section Blind

variable {p : Project} {α β : Type} {search : Search α} {st : SearchState}

/-- Whether a search neither reads nor changes what was found before, leaves the depth and the
aliases that are being expanded as they were, and does not win back fuel. -/
def Blind (search : Search α) : Prop :=
  ∀ s : SearchState, ∃ a polls exhausted, (s.exhausted = true → exhausted = true) ∧
    ∀ exprs decls, search { s with exprs := exprs, decls := decls } =
      (a, { s with exprs := exprs, decls := decls, polls := polls, exhausted := exhausted })

namespace Blind

theorem pure (a : α) : Blind (Pure.pure a) := fun s => ⟨a, s.polls, s.exhausted, id, fun _ _ => rfl⟩

theorem outOfFuel (a : α) : Blind (Search.outOfFuel a) :=
  fun s => ⟨a, s.polls, true, fun _ => rfl, fun _ _ => rfl⟩

theorem bind {f : α → Search β} (hsearch : Blind search) (hf : ∀ a, Blind (f a)) :
    Blind (search >>= f) := by
  intro s
  obtain ⟨a, polls, exhausted, hkept, hrun⟩ := hsearch s
  obtain ⟨b, polls', exhausted', hkept', hrun'⟩ :=
    hf a { s with polls := polls, exhausted := exhausted }
  exact ⟨b, polls', exhausted', hkept' ∘ hkept,
    fun exprs decls => (Search.bind_apply (hrun exprs decls)).trans (hrun' _ _)⟩

theorem foldlM {σ : Type} {step : σ → α → Search σ} (h : ∀ a x, Blind (step a x)) (xs : List α)
    (init : σ) : Blind (xs.foldlM step init) := by
  have c : Chains fun _ f => Blind (f .stopped) := ⟨pure, bind⟩
  exact c.foldlM (f := fun a x _ => step a x) xs (fun a x _ => h a x) init

theorem guarded (h : Blind search) (fallback : α) : Blind (Search.guarded fallback search) := by
  intro s
  by_cases hdeep : maxDepth ≤ s.depth
  · exact ⟨fallback, s.polls, s.exhausted, id, fun exprs decls => Search.guarded_of_no_room hdeep⟩
  have hroom := Nat.lt_of_not_le hdeep
  obtain ⟨cancelled, polls, hlook, -⟩ := Search.isCancelled_apply s
  cases cancelled with
  | true => exact ⟨fallback, polls, s.exhausted, id,
      fun _ _ => Search.guarded_of_cancelled hroom (hlook _ rfl)⟩
  | false =>
    obtain ⟨a, polls', exhausted, hkept, hrun⟩ := h { s with depth := s.depth + 1, polls := polls }
    refine ⟨a, polls', exhausted, hkept, fun exprs decls => ?_⟩
    exact Search.guarded_of_run (s := { s with exprs := exprs, decls := decls }) hroom (hlook _ rfl)
      (hrun exprs decls)

end Blind

theorem blind_resolveAliasFor (fuel : Nat) (t : Ty) : Blind (resolveAliasFor p fuel t) := by
  induction fuel generalizing t with
  | zero => exact .outOfFuel _
  | succ fuel ih =>
    intro s
    cases hstep : aliasStep? p t with
    | none => exact ⟨t, s.polls, s.exhausted, id, fun _ _ => by rw [resolveAliasFor_succ, hstep]⟩
    | some step =>
      by_cases hname : step.1 ∈ s.expanding
      · exact ⟨.unknown, s.polls, s.exhausted, id,
          fun _ _ => by simp [resolveAliasFor_succ, hstep, hname]⟩
      · have hguarded := (ih step.2).guarded Ty.unknown
        obtain ⟨a, polls, exhausted, hkept, hrun⟩ :=
          hguarded { s with expanding := step.1 :: s.expanding }
        refine ⟨a, polls, exhausted, hkept, fun exprs decls => ?_⟩
        simp [resolveAliasFor_succ, hstep, hname, hrun]

theorem blind_resolveAlias (t : Ty) : Blind (resolveAlias p t) := blind_resolveAliasFor _ t

theorem blind_collectSources (n : Nat) (t : Ty) (s : Substitution) (sources : MemberSources) :
    Blind ((engine p n).collectSources t s sources) := by
  induction n generalizing t s sources with
  | zero => exact .outOfFuel sources
  | succ n ih =>
    have c : Chains fun _ f => Blind (f (engine p n)) := ⟨.pure, .bind⟩
    exact c.collectSources blind_resolveAlias ih t s sources

theorem Blind.exhausted (h : Blind search) (hst : (search st).2.exhausted = false) :
    st.exhausted = false := by
  obtain ⟨a, polls, exhausted, hkept, hrun⟩ := h st
  have hend := congrArg (·.2.exhausted) (hrun st.exprs st.decls)
  simp only at hend
  rw [Bool.eq_false_iff]
  intro hout
  rw [hst] at hend
  exact absurd (hend.trans (hkept hout)) Bool.false_ne_true

end Blind

/-- What an alias comes to that is not looked into: nothing, or what is named just as the alias
is. -/
def isDeadEnd : Ty → Ty → Bool
  | _, .unknown | .ref _, .ref _ | .generic _ _, .generic _ _ => true
  | _, _ => false

def isBare (p : Project) : Ty → Bool
  | .ref _ | .tableConst _ | .string | .strConst _ | .object _ _ | .union _ => false
  | .generic base _ => (p.index.typeDecl? base).isNone
  | _ => true

/-- The sources that are found in a list of types, the first one next, behind those that were found.
A class puts all that it extends in front of the list. Nothing bounds the number of steps. -/
inductive Collects (p : Project) :
    SearchState → List (Ty × Substitution) → MemberSources → SearchState → MemberSources → Prop
  | done (st : SearchState) (sources : MemberSources) : Collects p st [] sources st sources
  | seen {st st' : SearchState} {t : Ty} {s : Substitution} {rest : List (Ty × Substitution)}
      {sources after : MemberSources} {name : String} (hclass : isOfClass p t = true)
      (hname : className? t = some name) (hvisited : name ∈ sources.visited)
      (hrest : Collects p st rest sources st' after) :
      Collects p st ((t, s) :: rest) sources st' after
  | opens {st st' : SearchState} {t : Ty} {s : Substitution} {rest : List (Ty × Substitution)}
      {sources after : MemberSources} {name : String} (hclass : isOfClass p t = true)
      (hname : className? t = some name) (hnew : name ∉ sources.visited)
      (hrest : Collects p st (((p.index.supers name).map (·.instantiate (putIn p (t, s)))).map (·,
        putIn p (t, s)) ++ rest) { sources with
          visited := name :: sources.visited
          owners := sources.owners ++ (classOwners p name).map (·, putIn p (t, s)) } st' after) :
      Collects p st ((t, s) :: rest) sources st' after
  | stops {st st₁ st' : SearchState} {t r : Ty} {s : Substitution} {rest : List (Ty × Substitution)}
      {sources after : MemberSources} (halias : isAlias p t = true)
      (hresolve : resolveAlias p t st = (r, st₁)) (hend : isDeadEnd t r = true)
      (hrest : Collects p st₁ rest sources st' after) :
      Collects p st ((t, s) :: rest) sources st' after
  | expands {st st₁ st' : SearchState} {t r : Ty} {s : Substitution} {rest :
      List (Ty × Substitution)} {sources after : MemberSources} (halias : isAlias p t =
      true) (hresolve : resolveAlias p t st = (r, st₁)) (hon : isDeadEnd t r =
      false) (hrest : Collects p st₁ ((r, s) :: rest) sources st' after) : Collects p st ((t, s) ::
      rest) sources st' after
  | table {st st' : SearchState} {owner : MemberOwner} {s : Substitution} {rest :
      List (Ty × Substitution)} {sources after : MemberSources}
      (hrest : Collects p st rest { sources with owners :=
        sources.owners ++ [(owner, s)] } st' after) :
      Collects p st ((.tableConst owner, s) :: rest) sources st' after
  | text {st st' : SearchState} {t : Ty} {s : Substitution} {rest : List (Ty × Substitution)}
      {sources after : MemberSources} (htext : t = .string ∨ ∃ value, t = .strConst value)
      (hrest : Collects p st rest (if sources.owners.any fun o =>
        o.1 == .global "string" then sources
        else { sources with owners := sources.owners ++ [(.global "string", {})] }) st' after) :
      Collects p st ((t, s) :: rest) sources st' after
  | object {st st' : SearchState} {fields : List (MemberKey × Ty)} {access : List (Ty × Ty)} {s :
      Substitution} {rest : List (Ty × Substitution)} {sources after : MemberSources}
      (hrest : Collects p st rest
        { sources with fields := sources.fields ++ fields.map fun f => (f.1, f.2.instantiate s) }
        st' after) :
      Collects p st ((.object fields access, s) :: rest) sources st' after
  | union {st st' : SearchState} {members : List Ty} {s : Substitution} {rest :
      List (Ty × Substitution)} {sources after : MemberSources}
      (hrest : Collects p st ((members.filter fun m => !m.isNil).map (·, s) ++
        rest) sources st' after) :
      Collects p st ((.union members, s) :: rest) sources st' after
  | bare {st st' : SearchState} {t : Ty} {s : Substitution} {rest : List (Ty × Substitution)}
      {sources after : MemberSources} (hbare : isBare p t = true)
      (hrest : Collects p st rest sources st' after) :
      Collects p st ((t, s) :: rest) sources st' after

variable {p : Project} {t : Ty} {s : Substitution} {n : Nat} {name : String} {st : SearchState}

/-- Whether a search that does not run out of fuel adds what is found in some types. -/
def Adds (p : Project) (search : MemberSources → Search MemberSources)
    (xs : List (Ty × Substitution)) : Prop :=
  ∀ sources st, (search sources st).2.exhausted = false → ∀ rest st' after,
    Collects p (search sources st).2 rest (search sources st).1 st' after →
    Collects p st (xs ++ rest) sources st' after

theorem adds_foldlM {ts : List Ty}
    (h : ∀ t ∈ ts, Adds p ((engine p n).collectSources t s) [(t, s)]) :
    Adds p (fun sources => ts.foldlM (fun sources t => (engine p n).collectSources t s sources)
      sources) (ts.map (·, s)) := by
  induction ts with
  | nil => exact fun _ _ _ _ _ _ hrest => hrest
  | cons t ts ih =>
    intro sources st hfuel rest st' after hrest
    obtain ⟨hhead, htail⟩ := List.forall_mem_cons.1 h
    obtain ⟨between, st₁, hrun⟩ : ∃ between st₁, (engine p n).collectSources t s sources st =
        (between, st₁) := ⟨_, _, rfl⟩
    have hstep : (t :: ts).foldlM (fun sources t => (engine p n).collectSources t s sources)
        sources st = ts.foldlM (fun sources t => (engine p n).collectSources t s sources) between
          st₁ := Search.bind_apply hrun
    simp only [hstep] at hfuel hrest
    have hloop :
        Blind (ts.foldlM (fun sources t => (engine p n).collectSources t s sources) between) :=
      .foldlM (fun sources t => blind_collectSources n t s sources) ts between
    have hbetween := hhead sources st (by rw [hrun]; exact hloop.exhausted hfuel)
    rw [hrun] at hbetween
    exact hbetween _ st' after (ih htail between st₁ hfuel rest st' after hrest)

theorem adds_collectClass (hclass : isOfClass p t = true) (hname : className? t = some name)
    (h : ∀ u s, Adds p ((engine p n).collectSources u s) [(u, s)]) :
    Adds p (collectClass p (engine p n) name (putIn p (t, s))) [(t, s)] := by
  intro sources st hfuel rest st' after hrest
  by_cases hvisited : name ∈ sources.visited
  · rw [collectClass, if_pos (by simpa using hvisited)] at hrest
    exact .seen hclass hname hvisited hrest
  · rw [collectClass_of_new hvisited] at hfuel hrest
    exact .opens hclass hname hvisited
      (adds_foldlM (fun u _ => h u _) _ st hfuel rest st' after hrest)

def collectExpansion (p : Project) (e : Engine) (t : Ty) (s : Substitution)
    (sources : MemberSources) : Search MemberSources := do
  let r ← resolveAlias p t
  if isDeadEnd t r then return sources else e.collectSources r s sources

theorem collectSources_of_isAlias (h : isAlias p t = true) (e : Engine) (sources : MemberSources) :
    collectSources p e t s sources = collectExpansion p e t s sources := by
  rw [collectExpansion]
  cases t with
  | ref name =>
    simp only [collectSources, show p.isAliasName name = true from h, if_true]
    refine bind_congr fun r => ?_
    cases r <;> rfl
  | generic base params =>
    obtain ⟨decl, hdecl, halias⟩ : ∃ decl, p.index.typeDecl? base = some decl ∧
        decl.isAlias = true := by
      simpa [isAlias, Project.isAliasName, Option.getD_eq_iff] using h
    simp only [collectSources, hdecl, halias, if_true]
    refine bind_congr fun r => ?_
    cases r <;> rfl
  | _ => cases h

theorem collectSources_of_isOfClass (h : isOfClass p t = true) (hname : className? t = some name)
    (e : Engine) (sources : MemberSources) :
    collectSources p e t s sources = collectClass p e name (putIn p (t, s)) sources := by
  cases t with
  | ref first =>
    obtain rfl := Option.some.inj hname
    have halias : p.isAliasName first = false := by simpa [isOfClass] using h
    simp only [collectSources, halias]
    rfl
  | generic base params =>
    obtain rfl := Option.some.inj hname
    exact collectSources_generic h sources
  | _ => cases h

theorem adds_collectExpansion (halias : isAlias p t = true)
    (h : ∀ u s, Adds p ((engine p n).collectSources u s) [(u, s)]) :
    Adds p (collectExpansion p (engine p n) t s) [(t, s)] := by
  intro sources st hfuel rest st' after hrest
  obtain ⟨r, st₁, hresolve⟩ : ∃ r st₁, resolveAlias p t st = (r, st₁) := ⟨_, _, rfl⟩
  rw [collectExpansion, Search.bind_apply hresolve] at hfuel hrest
  by_cases hend : isDeadEnd t r = true
  · rw [if_pos hend] at hrest
    exact .stops halias hresolve hend hrest
  · rw [if_neg hend] at hfuel hrest
    exact .expands halias hresolve (by simpa using hend)
      (h r s sources st₁ hfuel rest st' after hrest)

theorem adds_text {e : Engine} (h : t = .string ∨ ∃ value, t = .strConst value) :
    Adds p (collectSources p e t s) [(t, s)] := by
  intro sources st _ rest st' after hrest
  have hstep : collectSources p e t s sources =
      pure (if sources.owners.any fun o => o.1 == .global "string" then sources
      else { sources with owners := sources.owners ++ [(.global "string", {})] }) := by
    rw [apply_ite pure]
    rcases h with rfl | ⟨value, rfl⟩ <;> rfl
  rw [hstep] at hrest
  exact .text h hrest

theorem adds_collectSources (n : Nat) (t : Ty) (s : Substitution) :
    Adds p ((engine p n).collectSources t s) [(t, s)] := by
  induction n generalizing t s with
  | zero => exact fun _ _ hfuel => Bool.noConfusion (show true = false from hfuel)
  | succ n ih =>
    change Adds p (collectSources p (engine p n) t s) [(t, s)]
    by_cases halias : isAlias p t = true
    · rw [show collectSources p (engine p n) t s = collectExpansion p (engine p n) t s from
        funext (collectSources_of_isAlias halias _)]
      exact adds_collectExpansion halias ih
    by_cases hclass : isOfClass p t = true
    · obtain ⟨name, hname⟩ := isSome_className? hclass
      rw [show collectSources p (engine p n) t s =
        collectClass p (engine p n) name (putIn p (t, s)) from
        funext (collectSources_of_isOfClass hclass hname _)]
      exact adds_collectClass hclass hname ih
    cases t with
    | ref name => exact absurd (by simpa [isOfClass, isAlias] using halias) hclass
    | generic base params =>
      have hnone : p.index.typeDecl? base = none := by
        simp only [isAlias, isOfClass] at halias hclass
        simpa [halias] using hclass
      intro sources st hfuel rest st' after hrest
      simp only [collectSources, hnone] at hrest
      exact .bare (by simp [isBare, hnone]) hrest
    | tableConst owner => exact fun _ _ _ _ _ _ hrest => .table hrest
    | string => exact adds_text (.inl rfl)
    | strConst value => exact adds_text (.inr ⟨value, rfl⟩)
    | object fields access => exact fun _ _ _ _ _ _ hrest => .object hrest
    | union members =>
      intro sources st hfuel rest st' after hrest
      exact .union (adds_foldlM (fun m _ => ih m s) sources st hfuel rest st' after hrest)
    | _ => exact fun _ _ _ _ _ _ hrest => .bare rfl hrest

theorem collects_memberSources (h : (memberSources p (engine p n) t st).2.exhausted = false) :
    Collects p st [(t, {})] {} (memberSources p (engine p n) t st).2
    (memberSources p (engine p n) t st).1 :=
  adds_collectSources (p := p) (n + 1) t {} {} st h [] _ _ (.done _ _)

theorem memberSources_congr (p : Project) (n : Nat) (t : Ty) (st : SearchState)
    (exprs : List (NodeRef × CacheEntry)) (decls : List (DeclId × CacheEntry)) :
    ∃ st₁, memberSources p (engine p n) t { st with exprs := exprs, decls := decls } =
    ((memberSources p (engine p n) t st).1, st₁) := by
  obtain ⟨sources, polls, exhausted, -, hrun⟩ := blind_collectSources (p := p) (n + 1) t {} {} st
  have hself : (memberSources p (engine p n) t st).1 = sources :=
    congrArg Prod.fst (hrun st.exprs st.decls)
  exact ⟨_, hself ▸ hrun exprs decls⟩

end LuaAnalysis.Inference
