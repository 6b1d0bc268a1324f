import LuaAnalysis.Proofs.Inference.Aliases
import Mathlib.Tactic.ByContra

/-!
What the expansion of an alias comes to, told from the chain of aliases that starts there. A chain
that ends within the greatest depth and has no alias twice is followed to its end; any other one
comes to `unknown`.
-/

namespace LuaAnalysis.Inference

open Document LuaAnalysis.Types Workspace

variable {p : Project}

/-- Aliases that are expanded one after the other, by their names, from a type on to another one. -/
inductive Expands (p : Project) : Ty → List String → Ty → Prop
  | start (t : Ty) : Expands p t [] t
  | step {t origin u : Ty} {name : String} {names : List String}
      (hstep : aliasStep? p t = some (name, origin)) (hrest : Expands p origin names u) :
      Expands p t (name :: names) u

variable {t u r : Ty} {names names' : List String} {n : Nat}

theorem Expands.prefix_of_end (h : Expands p t names u) (h' : Expands p t names' r)
    (hend : isAlias p r = false) : names <+: names' := by
  induction h generalizing names' with
  | start => exact List.nil_prefix
  | step hstep hrest ih =>
    cases h' with
    | start =>
      rw [aliasStep?_eq_none hend] at hstep
      cases hstep
    | step hstep' hrest' =>
      obtain ⟨rfl, rfl⟩ := Prod.mk.inj (Option.some.inj (hstep.symm.trans hstep'))
      exact List.cons_prefix_cons.2 ⟨rfl, ih hrest'⟩

theorem Expands.exists_length_or_end (t : Ty) (n : Nat) :
    (∃ names u, Expands p t names u ∧ names.length = n) ∨
      ∃ names u, Expands p t names u ∧ isAlias p u = false ∧ names.length < n := by
  induction n generalizing t with
  | zero => exact .inl ⟨[], t, .start t, rfl⟩
  | succ n ih =>
    cases hstep : aliasStep? p t with
    | none =>
      refine .inr ⟨[], t, .start t, ?_, Nat.succ_pos n⟩
      rw [← isSome_aliasStep?, hstep]
      rfl
    | some step =>
      rcases ih step.2 with ⟨names, u, hrest, hlength⟩ | ⟨names, u, hrest, hend, hlength⟩
      · exact .inl ⟨step.1 :: names, u, .step hstep hrest, congrArg (· + 1) hlength⟩
      · exact .inr ⟨step.1 :: names, u, .step hstep hrest, hend, Nat.succ_lt_succ hlength⟩

theorem expands_resolveAliasFor {fuel : Nat} {s : SearchState} (hfuel : maxDepth ≤ fuel + s.depth)
    (hknown : (resolveAliasFor p (fuel + 1) t s).1 ≠ .unknown) :
    ∃ names, Expands p t names (resolveAliasFor p (fuel + 1) t s).1 ∧
      isAlias p (resolveAliasFor p (fuel + 1) t s).1 = false ∧ names.Nodup ∧
      (∀ name ∈ names, name ∉ s.expanding) ∧
      names.length ≤ maxDepth - s.depth := by
  induction fuel using Nat.strongRecOn generalizing t s with
  | _ fuel ih =>
    cases hstep : aliasStep? p t with
    | none =>
      have hself : resolveAliasFor p (fuel + 1) t s = (t, s) := by rw [resolveAliasFor_succ, hstep]
      rw [hself]
      refine ⟨[], .start t, ?_, List.nodup_nil, by simp, Nat.zero_le _⟩
      rw [← isSome_aliasStep?, hstep]
      rfl
    | some step =>
      by_cases hname : step.1 ∈ s.expanding
      · exact absurd (by simp [resolveAliasFor_succ, hstep, hname]) hknown
      obtain ⟨polls, -, ⟨-, hstop⟩ | ⟨hlt, hrun⟩⟩ := resolveAliasFor_step fuel hstep hname
      · exact absurd (by rw [hstop]) hknown
      obtain ⟨k, rfl⟩ : ∃ k, fuel = k + 1 := ⟨fuel - 1, by omega⟩
      have hinner := hrun _ _ rfl
      rw [hinner] at hknown ⊢
      obtain ⟨names, hrest, hend, hnodup, hfresh, hlength⟩ :=
        ih k (by omega) (by simp only; omega) hknown
      have hnot : step.1 ∉ names := fun hin => hfresh step.1 hin (.head _)
      refine ⟨step.1 :: names, .step hstep hrest, hend, List.nodup_cons.2 ⟨hnot, hnodup⟩, ?_, ?_⟩
      · exact List.forall_mem_cons.2 ⟨hname,
          fun name hin hexpanding => hfresh name hin (.tail _ hexpanding)⟩
      · simp only [List.length_cons] at hlength ⊢
        omega

theorem resolveAliasFor_of_expands {fuel : Nat} {s : SearchState} (h : Expands p t names u)
    (hend : isAlias p u = false) (hnodup : names.Nodup)
    (hfresh : ∀ name ∈ names, name ∉ s.expanding) (hlength : names.length ≤ maxDepth - s.depth)
    (hpolls : s.polls = none) (hfuel : names.length ≤ fuel) :
    (resolveAliasFor p (fuel + 1) t s).1 = u := by
  induction h generalizing fuel s with
  | start => rw [resolveAliasFor_succ, aliasStep?_eq_none hend]
  | step hstep hrest ih =>
    obtain ⟨hnot, hnodup⟩ := List.nodup_cons.1 hnodup
    obtain ⟨hname, hfresh⟩ := List.forall_mem_cons.1 hfresh
    simp only [List.length_cons] at hlength hfuel
    obtain ⟨polls, hp, ⟨hdeep, -⟩ | ⟨-, hrun⟩⟩ := resolveAliasFor_step fuel hstep hname
    · rcases hdeep with hdeep | hdeep
      · omega
      · exact absurd hpolls hdeep
    obtain ⟨k, rfl⟩ : ∃ k, fuel = k + 1 := ⟨fuel - 1, by omega⟩
    rw [hrun _ _ rfl]
    refine ih hend hnodup (fun name hin hexpanding => ?_) (by simp only; omega)
      (hp hpolls) (by omega)
    rcases List.mem_cons.1 hexpanding with rfl | hexpanding
    · exact hnot hin
    · exact hfresh name hin hexpanding

theorem nodup_of_resolveAliasFor {fuel : Nat} {s : SearchState} (hfuel : maxDepth ≤ fuel + s.depth)
    (hknown : (resolveAliasFor p (fuel + 1) t s).1 ≠ .unknown) (h : Expands p t names u) :
    names.Nodup ∧ names.length ≤ maxDepth - s.depth := by
  obtain ⟨names', h', hend, hnodup, -, hlength⟩ := expands_resolveAliasFor hfuel hknown
  have hprefix := h.prefix_of_end h' hend
  exact ⟨hnodup.sublist hprefix.sublist, Nat.le_trans hprefix.length_le hlength⟩

theorem resolveAliasFor_fuel {fuel fuel' : Nat} (t : Ty) (s : SearchState)
    (h : maxDepth ≤ fuel + s.depth) (h' : maxDepth ≤ fuel' + s.depth) :
    resolveAliasFor p (fuel + 1) t s = resolveAliasFor p (fuel' + 1) t s := by
  induction fuel using Nat.strongRecOn generalizing fuel' t s with
  | _ fuel ih =>
    rw [resolveAliasFor_succ, resolveAliasFor_succ]
    cases aliasStep? p t with
    | none => rfl
    | some step =>
      have hinner : Search.guarded .unknown (resolveAliasFor p fuel step.2) { s with expanding :=
          step.1 :: s.expanding } = Search.guarded .unknown
            (resolveAliasFor p fuel' step.2) { s with expanding := step.1 :: s.expanding } := by
        obtain ⟨polls, -, ⟨-, hstop⟩ | ⟨hlt, hrun⟩⟩ :=
          Search.guarded_cases Ty.unknown { s with expanding := step.1 :: s.expanding }
        · rw [hstop, hstop]
        · simp only at hlt
          obtain ⟨k, rfl⟩ : ∃ k, fuel = k + 1 := ⟨fuel - 1, by omega⟩
          obtain ⟨k', rfl⟩ : ∃ k', fuel' = k' + 1 := ⟨fuel' - 1, by omega⟩
          let deeper :=
            { s with depth := s.depth + 1, expanding := step.1 :: s.expanding, polls := polls }
          have hsame : resolveAliasFor p (k + 1) step.2 deeper =
              resolveAliasFor p (k' + 1) step.2 deeper :=
            ih k (by omega) step.2 deeper (by simp only [deeper]; omega)
              (by simp only [deeper]; omega)
          exact (hrun _ _ _ hsame).trans (hrun (resolveAliasFor p (k' + 1) step.2) _ _ rfl).symm
      simp only [hinner]

/-- The expansion of a type ends in every state of a search, with any fuel that is more than the
depth left. It comes to no alias, changes nothing but the number of looks for a cancellation, and
comes to `unknown` from every chain that has an alias twice. -/
theorem resolveAlias_restores (p : Project) (t : Ty) (s : SearchState) :
    ∃ r polls, resolveAlias p t s = (r, { s with polls := polls }) ∧
      (∀ fuel, maxDepth - s.depth < fuel →
        resolveAliasFor p fuel t s = (r, { s with polls := polls })) ∧
      isAlias p r = false ∧ ∀ names u, Expands p t names u → ¬ names.Nodup → r = .unknown := by
  have hfull : maxDepth ≤ maxDepth + s.depth := Nat.le_add_right maxDepth s.depth
  obtain ⟨r, polls, hr, -, hend⟩ := resolveAliasFor_spec (p := p) t s hfull
  refine ⟨r, polls, hr, fun fuel hfuel => ?_, hend, fun names u h hrepeats => ?_⟩
  · obtain ⟨k, rfl⟩ : ∃ k, fuel = k + 1 := ⟨fuel - 1, by omega⟩
    rw [resolveAliasFor_fuel t s (by omega) hfull, hr]
  · by_contra hknown
    exact hrepeats (nodup_of_resolveAliasFor hfull (by rwa [hr]) h).1

/-- A chain of different aliases that ends, with depth for each of them, is followed to its end. A
type comes to `unknown` just if its chain gets there, goes on for more steps than there is depth
for, or has an alias twice. -/
theorem run_resolveAlias_of_chain (p : Project) (t : Ty) :
    (∀ names u, Expands p t names u → isAlias p u = false → names.Nodup → names.length ≤ maxDepth →
        run (resolveAlias p t) = u) ∧
      (run (resolveAlias p t) = .unknown ↔
        (∃ names, Expands p t names .unknown) ∨
        (∃ names u, Expands p t names u ∧ maxDepth < names.length) ∨
          ∃ names u, Expands p t names u ∧ ¬ names.Nodup) := by
  have hfull : maxDepth ≤ maxDepth + ({} : SearchState).depth := Nat.le_add_right maxDepth 0
  have hfollows : ∀ names u, Expands p t names u → isAlias p u = false → names.Nodup →
      names.length ≤ maxDepth →
      run (resolveAlias p t) = u :=
    fun names u h hend hnodup hlength =>
      resolveAliasFor_of_expands h hend hnodup (by simp) hlength rfl hlength
  refine ⟨hfollows, fun hunknown => ?_, fun h => ?_⟩
  · rcases Expands.exists_length_or_end t (maxDepth + 1) with ⟨names, u, h, hlength⟩ | ⟨names, u, h,
      hend, hlength⟩
    · exact .inr (.inl ⟨names, u, h, by omega⟩)
    · by_cases hnodup : names.Nodup
      · have hu := hfollows names u h hend hnodup (by omega)
        exact .inl ⟨names, by rwa [← hunknown, hu]⟩
      · exact .inr (.inr ⟨names, u, h, hnodup⟩)
  · by_contra hknown
    rcases h with ⟨names, h⟩ | ⟨names, u, h, hlong⟩ | ⟨names, u, h, hrepeats⟩
    · obtain ⟨hnodup, hlength⟩ := nodup_of_resolveAliasFor hfull hknown h
      exact hknown (hfollows names .unknown h rfl hnodup hlength)
    · exact absurd (nodup_of_resolveAliasFor hfull hknown h).2 (Nat.not_le_of_gt hlong)
    · exact hrepeats (nodup_of_resolveAliasFor hfull hknown h).1

/-- A workspace with the alias `Box<T>` for `T`. -/
def boxes : Project :=
  { index := ({} : Index).addTypePart 0 "Box"
      { kind := .alias, span := ⟨10, 13⟩, generics := [("T", none)],
        aliasOrigin? := some (.tpl "T") } }

theorem aliasStep?_boxes (t : Ty) : aliasStep? boxes (.generic "Box" [t]) = some ("Box", t) := by
  simp [aliasStep?, boxes, Index.addTypePart, Index.typeDecl?, TypeIndex.get?, TypeIndex.add,
    TypeIndex.partsOf?, TypeDecl.aliasOrigin?, TypeDecl.genericNames, TypeDecl.generics,
    TypeDecl.mainPart?, DocMap.insert, DocMap.insertInto]
  rfl

/-- A box of strings is a string. -/
theorem run_resolveAlias_of_chain_box :
    Expands boxes (.generic "Box" [.string]) ["Box"] .string ∧ isAlias boxes .string = false ∧
    ["Box"].Nodup ∧
      ["Box"].length ≤ maxDepth ∧ run (resolveAlias boxes (.generic "Box" [.string])) =
      .string := by
  have hchain : Expands boxes (.generic "Box" [.string]) ["Box"] .string :=
    .step (aliasStep?_boxes .string) (.start _)
  refine ⟨hchain, rfl, by decide, by decide, ?_⟩
  exact (run_resolveAlias_of_chain boxes _).1 ["Box"] .string hchain rfl (by decide) (by decide)

/-- Every chain of aliases that ends, with depth for all of its steps, is followed to its end. -/
def FollowsChains (p : Project) : Prop :=
  ∀ t names u, Expands p t names u → isAlias p u = false → names.length ≤ maxDepth →
    run (resolveAlias p t) = u

/-- A box of boxes of strings is not followed into the inner box. -/
theorem not_followsChains_boxes : ¬ FollowsChains boxes := by
  intro h
  have hchain : Expands boxes (.generic "Box" [.generic "Box" [.string]]) ["Box", "Box"] .string :=
    .step (aliasStep?_boxes _) (.step (aliasStep?_boxes _) (.start _))
  have hfollowed : (resolveAliasFor boxes (maxDepth + 1) _ {}).1 = .string :=
    h _ _ _ hchain rfl (by decide)
  have hnodup :=
    (nodup_of_resolveAliasFor (Nat.le_add_right maxDepth 0) (by rw [hfollowed]; simp) hchain).1
  exact absurd hnodup (by decide)

end LuaAnalysis.Inference
