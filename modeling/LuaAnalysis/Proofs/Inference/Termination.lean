import LuaAnalysis.Proofs.Inference.Lookups

/-!
Lookups come to an end exactly in the workspaces where no chain of aliases and alternatives of
unions goes on forever.
-/

namespace LuaAnalysis.Inference

open Document LuaAnalysis.Types Scope Syntax Workspace

variable {p : Project} {depth : Nat}

theorem guarded_of_deeper (h : WellFounded (LooksInto p))
    (hdeeper : depth < maxDepth → Guarded p (depth + 1)) : Guarded p depth where
  inferExpr doc expr := by
    refine .next (f := fun e => Inference.inferExpr p e doc expr) ?_ fun _ => rfl
    simp only [Inference.inferExpr, Search.cachedExpr]
    split
    · exact .pure _
    · refine .cached (fun entry s hs => ⟨hs.1, hs.2, hs.3⟩) (fun _ _ _ => .keepExpr)
        (.guarded fun hlt => ?_)
      exact ((hdeeper hlt).bindings h).inferNode _ doc expr
  declType decl := by
    refine .next (f := fun e => Inference.declType p e decl) ?_ fun _ => rfl
    simp only [Inference.declType, Search.cachedDecl]
    refine .cached (fun entry s hs => ⟨hs.1, hs.2, hs.3⟩) (fun _ _ _ => .keepDecl)
      (.guarded fun hlt => ?_)
    exact ((hdeeper hlt).bindings h).declTypeOf decl
  isSubtype sub sup := by
    refine .next (f := fun e => Inference.isSubtype p e sub sup) (.guarded fun hlt => ?_)
      fun _ => rfl
    exact ((hdeeper hlt).bindings h).fits sub sup

theorem guarded_all (h : WellFounded (LooksInto p)) (depth : Nat) : Guarded p depth := by
  induction hleft : maxDepth - depth generalizing depth with
  | zero => exact guarded_of_deeper h fun hlt => absurd hlt (by omega)
  | succ left ih => exact guarded_of_deeper h fun hlt => ih (depth + 1) (by omega)

/-- Searches that are neither cancelled nor inside of another one. -/
structure SearchState.Fresh (s : SearchState) : Prop where
  depth_eq : s.depth = 0
  polls_eq : s.polls = none
  expanding_eq : s.expanding = []

/-- A search that leaves fresh states fresh and cannot win back the fuel that it ran out of. -/
def Plain {α : Type} (search : Search α) : Prop :=
  ∀ s : SearchState, s.Fresh → (search s).2.Fresh ∧
    (s.exhausted = true → (search s).2.exhausted = true)

theorem Plain.pure {α : Type} (a : α) : Plain (Pure.pure a) := fun _ hs => ⟨hs, id⟩

theorem Plain.bind {α β : Type} {x : Search α} {f : α → Search β} (hx : Plain x)
    (hf : ∀ a, Plain (f a)) : Plain (x >>= f) := by
  intro s hs
  obtain ⟨hfresh, hstays⟩ := hx s hs
  rw [Search.bind_apply (x := x) rfl]
  exact ⟨(hf _ _ hfresh).1, fun h => (hf _ _ hfresh).2 (hstays h)⟩

theorem Plain.foldlM {α σ : Type} {step : σ → α → Search σ} (h : ∀ a x, Plain (step a x))
    (xs : List α) (init : σ) : Plain (xs.foldlM step init) := by
  induction xs generalizing init with
  | nil => exact .pure init
  | cons x xs ih => exact .bind (h init x) fun a => ih a

theorem Plain.exists_of_foldlM {α σ : Type} {step : σ → α → Search σ} (h : ∀ a x, Plain (step a x))
    {xs : List α} {init : σ} {s : SearchState} (hs : s.Fresh)
    (hfuel : (xs.foldlM step init s).2.exhausted = false) :
    ∀ x ∈ xs, ∃ a s', s'.Fresh ∧ (step a x s').2.exhausted = false := by
  induction xs generalizing init s with
  | nil => simp
  | cons x xs ih =>
    rw [List.foldlM_cons, Search.bind_apply (x := step init x) rfl] at hfuel
    have hfresh := (h init x s hs).1
    refine List.forall_mem_cons.2 ⟨⟨init, s, hs, ?_⟩, ih hfresh hfuel⟩
    by_contra hout
    have hend := (Plain.foldlM h xs (step init x s).1 _ hfresh).2 (by simpa using hout)
    rw [hfuel] at hend
    exact Bool.noConfusion hend

theorem plain_resolveAlias (t : Ty) : Plain (resolveAlias p t) := by
  intro s hs
  rw [resolveAlias_congr t hs.polls_eq hs.expanding_eq hs.depth_eq]
  exact ⟨hs, id⟩

theorem plain_collectSources (n : Nat) (t : Ty) (s : Substitution) (sources : MemberSources) :
    Plain ((engine p n).collectSources t s sources) := by
  induction n generalizing t s sources with
  | zero => exact fun st hst => ⟨⟨hst.1, hst.2, hst.3⟩, fun _ => rfl⟩
  | succ n ih =>
    have c : Chains fun _ f => Plain (f (engine p n)) := ⟨.pure, .bind⟩
    exact c.collectSources plain_resolveAlias ih t s sources

theorem acc_of_not_isAlias {t : Ty} (halias : isAlias p t = false)
    (hunion : ∀ members, t ≠ .union members) : Acc (LooksInto p) t := by
  refine ⟨_, fun u hu => ?_⟩
  cases hu with
  | alternative => exact absurd rfl (hunion _)
  | expansion h => simp [halias] at h

theorem acc_of_isAlias {t : Ty} (halias : isAlias p t = true)
    (h : Acc (LooksInto p) (run (resolveAlias p t))) : Acc (LooksInto p) t := by
  refine ⟨_, fun u hu => ?_⟩
  cases hu with
  | alternative => simp [isAlias] at halias
  | expansion => exact h

theorem acc_of_collectSources (n : Nat) (t : Ty) (s : Substitution) (sources : MemberSources)
    {st : SearchState} (hst : st.Fresh)
    (h : ((engine p n).collectSources t s sources st).2.exhausted = false) :
    Acc (LooksInto p) t := by
  induction n generalizing t s sources st with
  | zero => exact Bool.noConfusion (show true = false from h)
  | succ n ih =>
    have hresolve (t : Ty) :=
      resolveAlias_congr (p := p) t hst.polls_eq hst.expanding_eq hst.depth_eq
    change (collectSources p (engine p n) t s sources st).2.exhausted = false at h
    cases t with
    | ref name =>
      by_cases hname : p.isAliasName name = true
      · refine acc_of_isAlias hname ?_
        have hfinal := isAlias_resolveAlias (p := p) (.ref name)
        simp only [collectSources, hname, if_true] at h
        rw [Search.bind_apply (hresolve _)] at h
        revert hfinal h
        generalize run (resolveAlias p (.ref name)) = r
        intro hfinal h
        cases r with
        | ref _ => exact acc_of_not_isAlias hfinal (by simp)
        | unknown => exact acc_of_not_isAlias hfinal (by simp)
        | _ => exact ih _ s sources hst h
      · exact acc_of_not_isAlias (by simpa [isAlias] using hname) (by simp)
    | generic base params =>
      by_cases hname : p.isAliasName base = true
      · refine acc_of_isAlias hname ?_
        have hfinal := isAlias_resolveAlias (p := p) (.generic base params)
        obtain ⟨decl, hdecl, halias⟩ : ∃ decl, p.index.typeDecl? base = some decl ∧
            decl.isAlias = true := by
          simpa [Project.isAliasName, Option.getD_eq_iff] using hname
        simp only [collectSources, hdecl, halias, if_true] at h
        rw [Search.bind_apply (hresolve _)] at h
        revert hfinal h
        generalize run (resolveAlias p (.generic base params)) = r
        intro hfinal h
        cases r with
        | generic _ _ => exact acc_of_not_isAlias hfinal (by simp)
        | unknown => exact acc_of_not_isAlias hfinal (by simp)
        | _ => exact ih _ s sources hst h
      · exact acc_of_not_isAlias (by simpa [isAlias] using hname) (by simp)
    | union members =>
      refine ⟨_, fun m hm => ?_⟩
      cases hm with
      | alternative hmem hnil =>
        have hfilter : m ∈ members.filter fun m => !m.isNil :=
          List.mem_filter.2 ⟨hmem, by simp [hnil]⟩
        obtain ⟨a, s', hs', hfuel⟩ :=
          Plain.exists_of_foldlM (fun sources m => plain_collectSources n m s sources)
            hst h m hfilter
        exact ih m s a hs' hfuel
      | expansion halias => simp [isAlias] at halias
    | _ => exact acc_of_not_isAlias rfl (by simp)

/-- From some fuel on a search in a state always gives the same answer, with fuel to spare. -/
def HasAnswer {α : Type} (p : Project) (s : SearchState) (f : Engine → Search α) : Prop :=
  ∃ n, (f (engine p n) s).2.exhausted = false ∧ ∀ m, n ≤ m → f (engine p m) s = f (engine p n) s

theorem Settles.hasAnswer {α : Type} {f : Engine → Search α} (h : Settles p depth f)
    {s : SearchState} (hs : s.Ready depth) : HasAnswer p s f := by
  obtain ⟨a, s', -, hs', -, n, hn⟩ := h s hs
  refine ⟨n, ?_, fun m hm => ?_⟩
  · rw [hn n (le_refl n)]
    exact hs'.exhausted_eq
  · rw [hn m hm, hn n (le_refl n)]

/-- All lookups in a type come to an end: for the places where its members stand, for all its
members or the one under a key, for what it can be called as, and for what it holds under a type of
keys. -/
structure LookupsEnd (p : Project) (t : Ty) (s : SearchState) : Prop where
  memberSources : HasAnswer p s fun e => memberSources p e t
  findMembers : HasAnswer p s fun e => findMembers p e t
  findMember : ∀ key, HasAnswer p s fun e => findMember p e t key
  findCallables : HasAnswer p s fun e => findCallables p e t
  indexAccess : ∀ key, HasAnswer p s fun e => indexAccess p e t key

/-- The lookups in all types of a workspace come to an end, whatever the search found before, if and
only if no chain of aliases and alternatives of unions goes on forever. -/
theorem lookupsEnd_iff (p : Project) :
    (∀ t depth s, SearchState.Ready s depth → LookupsEnd p t s) ↔ WellFounded (LooksInto p) := by
  constructor
  · intro h
    refine ⟨fun t => ?_⟩
    obtain ⟨n, hfuel, -⟩ := (h t 0 {} ⟨rfl, rfl, rfl⟩).memberSources
    exact acc_of_collectSources (n + 1) t {} {} ⟨rfl, rfl, rfl⟩ hfuel
  · intro h t depth s hs
    have g := guarded_all h depth
    exact
      { memberSources := (memberSources_settles h t).hasAnswer hs
        findMembers := (g.findMembers h t).hasAnswer hs
        findMember := fun key => Settles.hasAnswer (.back (g.findMember h t key) fun _ => rfl) hs
        findCallables := Settles.hasAnswer (.back (g.findCallables h t) fun _ => rfl) hs
        indexAccess := fun key =>
          Settles.hasAnswer (.back (g.indexAccess h t key) fun _ => rfl) hs }

theorem run_resolveAlias_of_step {t origin : Ty} {name : String}
    (hstep : aliasStep? p t = some (name, origin)) (horigin : isAlias p origin = false) :
    run (resolveAlias p t) = origin := by
  obtain ⟨polls, -, ⟨hdeep, -⟩ | ⟨-, hrun⟩⟩ :=
    resolveAliasFor_step maxDepth (s := {}) hstep (by simp)
  · simp [maxDepth] at hdeep
  · have hinner := resolveAliasFor_succ (p := p) (maxDepth - 1) origin
      { depth := 1, expanding := [name], polls := polls }
    rw [aliasStep?_eq_none horigin] at hinner
    exact congrArg (·.1) (hrun _ _ hinner)

theorem not_transGen_of_acc {t : Ty} (h : Acc (LooksInto p) t) :
    ¬ Relation.TransGen (LooksInto p) t t := by
  have hclosure := h.transGen
  clear h
  induction hclosure with
  | intro u _ ih => exact fun hcycle => ih u hcycle hcycle

theorem not_lookupsEnd_of_mem {t : Ty} {members : List Ty} {name : String}
    (hstep : aliasStep? p t = some (name, .union members)) (hmem : t ∈ members)
    (hnil : t.isNil = false) :
    ¬ LookupsEnd p t {} := by
  intro h
  obtain ⟨n, hfuel, -⟩ := h.memberSources
  have hacc : Acc (LooksInto p) t := acc_of_collectSources (n + 1) t {} {} ⟨rfl, rfl, rfl⟩ hfuel
  have halias : isAlias p t = true := by rw [← isSome_aliasStep?, hstep]; rfl
  have hexpands : LooksInto p (.union members) t :=
    run_resolveAlias_of_step hstep rfl ▸ .expansion halias
  exact not_transGen_of_acc hacc ((Relation.TransGen.single (.alternative hmem hnil)).tail hexpands)

/-- A workspace with the alias `A` for `A|string`. -/
def selfAlternative : Project :=
  { index := ({} : Index).addTypePart 0 "A"
      { kind := .alias, span := ⟨10, 11⟩, aliasOrigin? := some (.union [.ref "A", .string]) } }

theorem not_lookupsEnd_selfAlternative : ¬ LookupsEnd selfAlternative (.ref "A") {} := by
  have hstep : aliasStep? selfAlternative (.ref "A") = some ("A", .union [.ref "A", .string]) := by
    simp [aliasStep?, selfAlternative, Index.addTypePart, Index.typeDecl?, TypeIndex.get?,
      TypeIndex.add, TypeIndex.partsOf?, TypeDecl.aliasOrigin?, TypeDecl.mainPart?, DocMap.insert,
      DocMap.insertInto]
  exact not_lookupsEnd_of_mem hstep (by simp) rfl

end LuaAnalysis.Inference
