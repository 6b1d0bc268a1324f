import LuaAnalysis.Proofs.Inference.Settles

namespace LuaAnalysis.Inference

open Document LuaAnalysis.Types Scope Syntax Workspace

variable {p : Project} {depth : Nat}

theorem isSome_aliasStep? (t : Ty) : (aliasStep? p t).isSome = isAlias p t := by
  have hdecl (name : String) : ((p.index.typeDecl? name).bind fun d => d.aliasOrigin?).isSome =
      p.isAliasName name := by
    rw [Project.isAliasName]
    cases p.index.typeDecl? name with
    | none => rfl
    | some d => exact d.isSome_aliasOrigin?
  cases t with
  | ref name =>
    rw [isAlias, ← hdecl]
    cases hd : p.index.typeDecl? name with
    | none => simp [aliasStep?, hd]
    | some d => cases ho : d.aliasOrigin? <;> simp [aliasStep?, hd, ho]
  | generic base params =>
    rw [isAlias, ← hdecl]
    cases hd : p.index.typeDecl? base with
    | none => simp [aliasStep?, hd]
    | some d => cases ho : d.aliasOrigin? <;> simp [aliasStep?, hd, ho]
  | _ => rfl

theorem aliasStep?_eq_none {t : Ty} (h : isAlias p t = false) : aliasStep? p t = none := by
  rw [← Option.not_isSome_iff_eq_none, isSome_aliasStep?, h]
  simp

theorem resolveAliasFor_succ (fuel : Nat) (t : Ty) (s : SearchState) :
    resolveAliasFor p (fuel + 1) t s = match aliasStep? p t with
      | none => (t, s)
      | some (name, origin) =>
        if s.expanding.contains name then (.unknown, s)
        else
          let (resolved, s') := Search.guarded .unknown (resolveAliasFor p fuel origin)
            { s with expanding := name :: s.expanding }
          (resolved, { s' with expanding := s'.expanding.erase name }) := by
  rw [resolveAliasFor]
  cases aliasStep? p t with
  | none => rfl
  | some step =>
    change (if s.expanding.contains step.1 then _ else _ : Search Ty) s = _
    simp only
    split
    · rfl
    · rfl

theorem resolveAliasFor_step (fuel : Nat) {t origin : Ty} {name : String} {s : SearchState}
    (hstep : aliasStep? p t = some (name, origin)) (hname : name ∉ s.expanding) :
    ∃ polls, (s.polls = none → polls = none) ∧
      (((maxDepth ≤ s.depth ∨ s.polls ≠ none) ∧
          resolveAliasFor p (fuel + 1) t s = (.unknown, { s with polls := polls })) ∨
        (s.depth < maxDepth ∧ ∀ r s',
          resolveAliasFor p fuel origin
              { s with depth := s.depth + 1, expanding := name :: s.expanding, polls := polls } =
              (r, s') →
            resolveAliasFor p (fuel + 1) t s =
              (r, { s' with depth := s'.depth - 1, expanding := s'.expanding.erase name }))) := by
  have hsucc := resolveAliasFor_succ (p := p) fuel t s
  rw [hstep] at hsucc
  simp only [List.contains_iff_mem, hname, if_false] at hsucc
  obtain ⟨polls, hpolls, hcases⟩ :=
    Search.guarded_cases Ty.unknown { s with expanding := name :: s.expanding }
  refine ⟨polls, hpolls, ?_⟩
  rcases hcases with ⟨hdeep, hstop⟩ | ⟨hlt, hrun⟩
  · refine .inl ⟨hdeep, ?_⟩
    rw [hsucc, hstop]
    simp
  · refine .inr ⟨hlt, fun r s' hr => ?_⟩
    rw [hsucc, hrun _ r s' hr]

/-- With fuel down to the greatest depth an expansion changes nothing but the number of looks left,
and what it comes to is no alias. -/
theorem resolveAliasFor_spec {fuel : Nat} (t : Ty) (s : SearchState)
    (h : maxDepth ≤ fuel + s.depth) : ∃ r polls, resolveAliasFor p (fuel + 1) t s =
    (r, { s with polls := polls }) ∧
      (s.polls = none → polls = none) ∧ isAlias p r = false := by
  induction fuel using Nat.strongRecOn generalizing t s with
  | _ fuel ih =>
    cases hstep : aliasStep? p t with
    | none =>
      refine ⟨t, s.polls, ?_, id, ?_⟩
      · rw [resolveAliasFor_succ, hstep]
      · rw [← isSome_aliasStep?, hstep]
        rfl
    | some step =>
      by_cases hname : step.1 ∈ s.expanding
      · refine ⟨.unknown, s.polls, ?_, id, rfl⟩
        rw [resolveAliasFor_succ, hstep]
        simp [hname]
      obtain ⟨polls, hpolls, ⟨-, hstop⟩ | ⟨hlt, hrun⟩⟩ := resolveAliasFor_step fuel hstep hname
      · exact ⟨.unknown, polls, hstop, hpolls, rfl⟩
      · obtain ⟨k, rfl⟩ : ∃ k, fuel = k + 1 := ⟨fuel - 1, by omega⟩
        obtain ⟨r, polls', hr, hpolls', hfinal⟩ := ih k (by omega) step.2
          { s with depth := s.depth + 1, expanding := step.1 :: s.expanding, polls := polls }
          (by simp only; omega)
        refine ⟨r, polls', ?_, fun h => hpolls' (hpolls h), hfinal⟩
        rw [hrun r _ hr]
        simp

theorem resolveAliasFor_agrees (fuel fuel₀ : Nat) (t : Ty) (s s₀ : SearchState)
    (h : maxDepth ≤ fuel + s.depth) (h₀ : maxDepth ≤ fuel₀ + s₀.depth) (hpolls : s₀.polls = none)
    (hexpanding : s₀.expanding = s.expanding)
    (hdepth : s₀.depth ≤ s.depth) :
    (resolveAliasFor p (fuel + 1) t s).1 = .unknown ∨
      (resolveAliasFor p (fuel + 1) t s).1 = (resolveAliasFor p (fuel₀ + 1) t s₀).1 := by
  induction fuel using Nat.strongRecOn generalizing fuel₀ t s s₀ with
  | _ fuel ih =>
    cases hstep : aliasStep? p t with
    | none => simp [resolveAliasFor_succ, hstep]
    | some step =>
      by_cases hname : step.1 ∈ s.expanding
      · simp [resolveAliasFor_succ, hstep, hname]
      obtain ⟨polls, -, ⟨-, hstop⟩ | ⟨hlt, hrun⟩⟩ := resolveAliasFor_step fuel hstep hname
      · exact .inl (by rw [hstop])
      obtain ⟨polls₀, hp₀, ⟨hdeep, -⟩ | ⟨hlt₀, hrun₀⟩⟩ :=
        resolveAliasFor_step fuel₀ hstep (hexpanding ▸ hname)
      · rcases hdeep with hdeep | hdeep
        · omega
        · exact absurd hpolls hdeep
      obtain ⟨k, rfl⟩ : ∃ k, fuel = k + 1 := ⟨fuel - 1, by omega⟩
      obtain ⟨k₀, rfl⟩ : ∃ k₀, fuel₀ = k₀ + 1 := ⟨fuel₀ - 1, by omega⟩
      have hinner := ih k (by omega) k₀ step.2
        { s with depth := s.depth + 1, expanding := step.1 :: s.expanding, polls := polls }
        { s₀ with depth := s₀.depth + 1, expanding := step.1 :: s₀.expanding, polls := polls₀ }
        (by simp only; omega) (by simp only; omega) (hp₀ hpolls) (by simp [hexpanding])
        (by simp only; omega)
      rw [hrun _ _ rfl, hrun₀ _ _ rfl]
      exact hinner

theorem resolveAliasFor_congr {fuel : Nat} (t : Ty) (s s₀ : SearchState)
    (h : maxDepth ≤ fuel + s.depth) (hpolls : s.polls = none) (hpolls₀ : s₀.polls = none)
    (hexpanding : s₀.expanding = s.expanding)
    (hdepth : s₀.depth = s.depth) :
    (resolveAliasFor p (fuel + 1) t s).1 = (resolveAliasFor p (fuel + 1) t s₀).1 := by
  rcases resolveAliasFor_agrees (p := p) fuel fuel t s s₀ h (by omega) hpolls₀ hexpanding
    (by omega) with hs | hs
  · rcases resolveAliasFor_agrees (p := p) fuel fuel t s₀ s (by omega) h hpolls hexpanding.symm
      (by omega) with hs₀ | hs₀
    · rw [hs, hs₀]
    · exact hs₀.symm
  · exact hs

theorem resolveAlias_congr (t : Ty) {s : SearchState} (hpolls : s.polls = none)
    (hexpanding : s.expanding = []) (hdepth : s.depth = 0) :
    resolveAlias p t s = (run (resolveAlias p t), s) := by
  obtain ⟨r, polls, hr, hp, -⟩ :=
    resolveAliasFor_spec (p := p) t s (Nat.le_add_right maxDepth s.depth)
  have hrun : (resolveAlias p t s).1 = run (resolveAlias p t) :=
    resolveAliasFor_congr t s {} (Nat.le_add_right maxDepth s.depth) hpolls rfl
      hexpanding.symm hdepth.symm
  rw [resolveAlias, hr] at hrun
  rw [resolveAlias, hr, ← hrun, hp hpolls, ← hpolls]

theorem isAlias_resolveAlias (t : Ty) : isAlias p (run (resolveAlias p t)) = false := by
  obtain ⟨r, polls, hr, -, hfinal⟩ :=
    resolveAliasFor_spec (p := p) t {} (Nat.le_add_right maxDepth 0)
  rw [← hfinal]
  exact congrArg (fun x => isAlias p x.1) hr

theorem resolveAlias_of_not_isAlias {t : Ty} (h : isAlias p t = false) :
    run (resolveAlias p t) = t := by
  have hnone := resolveAliasFor_succ (p := p) maxDepth t {}
  rw [aliasStep?_eq_none h] at hnone
  exact congrArg (·.1) hnone

theorem resolveAlias_settles (t : Ty) :
    SettlesWith p depth (fun _ => resolveAlias p t) fun r => r = .unknown ∨
    r = run (resolveAlias p t) := by
  intro s hs
  obtain ⟨r, polls, hr, -, -⟩ :=
    resolveAliasFor_spec (p := p) t s (Nat.le_add_right maxDepth s.depth)
  have hagrees := resolveAliasFor_agrees (p := p) maxDepth maxDepth t s {}
    (Nat.le_add_right maxDepth s.depth) (Nat.le_add_right maxDepth 0) rfl hs.expanding_eq.symm
    (Nat.zero_le _)
  rw [hr] at hagrees
  exact ⟨r, { s with polls := polls }, hagrees, ⟨hs.1, hs.2, hs.3⟩, ⟨fun _ _ => id, fun _ _ => id⟩,
    0, fun _ _ => hr⟩

theorem inheritsFor_settles (fuel : Nat) (sub sup : String) (h : maxDepth ≤ fuel + depth) :
    Settles p depth fun _ => inheritsFor p (fuel + 1) sub sup := by
  induction fuel using Nat.strongRecOn generalizing depth sub with
  | _ fuel ih =>
    simp only [inheritsFor]
    refine .ite (fun _ => .pure true) fun _ => (Settles.chains p depth).anyM _ fun name _ =>
      .guarded fun hlt => ?_
    obtain ⟨k, rfl⟩ : ∃ k, fuel = k + 1 := ⟨fuel - 1, by omega⟩
    exact ih k (by omega) name (by omega)

theorem inherits_settles (sub sup : String) : Settles p depth fun _ => inherits p sub sup :=
  inheritsFor_settles maxDepth sub sup (by omega)

theorem genericParamsFor_settles (fuel : Nat) (actual : Ty) (base : String)
    (h : maxDepth ≤ fuel + depth) : Settles p depth fun _ =>
      genericParamsFor p (fuel + 1) actual base := by
  induction fuel using Nat.strongRecOn generalizing depth actual with
  | _ fuel ih =>
    have hclimb (name : String) : Settles p depth fun _ =>
        Search.guarded none ((p.index.supers name).findSomeM? fun super =>
          genericParamsFor p fuel super base) := by
      refine .guarded fun hlt => (Settles.chains p (depth + 1)).findSomeM? _ fun super _ => ?_
      obtain ⟨k, rfl⟩ : ∃ k, fuel = k + 1 := ⟨fuel - 1, by omega⟩
      exact ih k (by omega) super (by omega)
    simp only [genericParamsFor]
    cases actual with
    | ref name => exact hclimb name
    | generic name params => exact .ite (fun _ => .pure _) fun _ => hclimb name
    | _ => exact .pure none

theorem genericParamsAs_settles (actual : Ty) (base : String) : Settles p depth fun _ =>
      genericParamsAs p actual base :=
  genericParamsFor_settles maxDepth actual base (by omega)

end LuaAnalysis.Inference
