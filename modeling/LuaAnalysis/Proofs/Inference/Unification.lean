import LuaAnalysis.Proofs.Inference.Answers

namespace LuaAnalysis.Inference

open Document LuaAnalysis.Types Scope Syntax Workspace

/-- A property of searches that lookups in types and the expansion of names have. -/
structure Lookups (p : Project) (P : ∀ ⦃α : Type⦄, (Engine → Search α) → Prop) :
    Prop extends Answers p P where
  resolveAlias : ∀ t, P fun _ => resolveAlias p t
  inherits : ∀ sub sup, P fun _ => inherits p sub sup
  genericParamsAs : ∀ actual base, P fun _ => genericParamsAs p actual base
  memberSources : ∀ t, P fun e => memberSources p e t
  askCallables : ∀ t, P fun e => e.findCallables t
  findCallables : ∀ t, P fun e => findCallables p e t
  findMember : ∀ t key, P fun e => findMember p e t key
  indexAccess : ∀ t key, P fun e => indexAccess p e t key

def Binds (P : ∀ ⦃α : Type⦄, (Engine → Search α) → Prop) (expected : Ty) : Prop :=
  ∀ actual s, P fun e => e.unify expected actual s

namespace Lookups

variable {p : Project} {P : ∀ ⦃α : Type⦄, (Engine → Search α) → Prop} (g : Lookups p P)

include g

theorem unifyAll {pairs : List (Ty × Ty)} (h : ∀ x ∈ pairs, Binds P x.1) (s : Substitution) :
    P fun e => unifyAll e pairs s :=
  g.foldlM _ (fun s x hx => h x hx x.2 s) s

theorem unifyAll_zip {params : List Ty} (h : ∀ t ∈ params, Binds P t) (actuals : List Ty)
    (s : Substitution) : P fun e => Inference.unifyAll e (params.zip actuals) s :=
  g.unifyAll (fun _ hx => h _ (List.of_mem_zip hx).1) s

theorem unifyUnion {members : List Ty} (h : ∀ t ∈ members, Binds P t) (actual : Ty)
    (s : Substitution) : P fun e => unifyUnion e members actual s := by
  refine Chains.ite (fun _ => g.pure _) fun _ => g.unifyAll (fun x hx => ?_) s
  obtain ⟨t, ht, rfl⟩ := List.mem_map.1 hx
  exact h t (List.mem_filter.1 ht).1

theorem findMembers (t : Ty) : P fun e => findMembers p e t :=
  g.toAnswers.findMembers (g.memberSources t)

theorem tableElementType (source : Ty) (positional : Bool) :
    P fun e => tableElementType p e source positional :=
  g.bind (g.findMembers source) fun _ => g.pure _

theorem tableKeyType (source : Ty) : P fun e => tableKeyType p e source :=
  g.bind (g.findMembers source) fun _ => g.pure _

theorem tableView (actual : Ty) : P fun e => tableView p e actual := by
  simp only [Inference.tableView]
  split
  · exact g.pure _
  · exact g.bind (g.tableKeyType _) fun key =>
      g.bind (g.tableElementType _ false) fun value => g.pure _
  · exact g.pure _

theorem unifyArray {item : Ty} (hitem : Binds P item) (actual : Ty) (s : Substitution) :
    P fun e => unifyArray p e item actual s := by
  simp only [Inference.unifyArray]
  split
  · exact hitem _ s
  · exact hitem _ s
  · split
    · exact hitem _ s
    · exact g.pure _
  · exact g.bind (g.tableElementType _ true) fun element => hitem element s
  · exact g.pure _

theorem unifyGeneric {params : List Ty} (hparams : ∀ t ∈ params, Binds P t) (base : String)
    (actual : Ty) (s : Substitution) : P fun e => unifyGeneric p e base params actual s := by
  simp only [Inference.unifyGeneric]
  refine Chains.ite (fun _ => g.bind (g.tableView actual) fun view => ?_) fun _ =>
    g.bind (g.pure _) fun view => ?_
  all_goals
    refine Chains.ite (fun _ => g.unifyAll_zip hparams _ s) fun _ => ?_
    refine g.bind (g.genericParamsAs actual base) fun found => ?_
    cases found with
    | some actualParams => exact g.unifyAll_zip hparams _ s
    | none => exact g.pure _

theorem unifyFunc {params : List (String × Option Ty)} {ret : Ty}
    (hparams : ∀ name t, (name, some t) ∈ params → Binds P t) (hret : Binds P ret) (actual : Ty)
    (s : Substitution) : P fun e => unifyFunc e params ret actual s := by
  refine g.bind (g.askCallables actual) fun found => ?_
  split
  · exact g.pure _
  · refine g.unifyAll (fun x hx => ?_) s
    rcases List.mem_append.1 hx with hx | hx
    · obtain ⟨⟨⟨name, expected?⟩, ⟨other, actual?⟩⟩, hpair, hx⟩ := List.mem_filterMap.1 hx
      cases expected? <;> cases actual? <;> simp only [Option.some.injEq, reduceCtorEq] at hx
      subst hx
      exact hparams name _ (List.of_mem_zip hpair).1
    · rw [List.mem_singleton.1 hx]
      exact hret

theorem unify {expected : Ty} (hbelow : ∀ t, sizeOf t < sizeOf expected → Binds P t) (actual : Ty)
    (s : Substitution) : P fun e => unify p e expected actual s := by
  have hlist (ts : List Ty) (hts : sizeOf ts < sizeOf expected) : ∀ t ∈ ts, Binds P t := fun t ht =>
    hbelow t (Nat.lt_trans (List.sizeOf_lt_of_mem ht) hts)
  refine Chains.ite (fun _ => g.pure _) fun _ => ?_
  cases expected with
  | array item => exact g.unifyArray (hbelow item (by simp)) actual s
  | generic base params =>
    exact g.unifyGeneric (hlist params (by simp only [Ty.generic.sizeOf_spec]; omega)) base actual s
  | union members => exact g.unifyUnion (hlist members (by simp)) actual s
  | func isAsync isColon params ret =>
    have hparams (name : String) (t : Ty) (ht : (name, some t) ∈ params) : Binds P t := by
      refine hbelow t ?_
      have hmem := List.sizeOf_lt_of_mem ht
      simp only [Prod.mk.sizeOf_spec, Option.some.sizeOf_spec] at hmem
      simp only [Ty.func.sizeOf_spec]
      omega
    exact g.unifyFunc hparams (hbelow ret (by simp only [Ty.func.sizeOf_spec]; omega)) actual s
  | variadic item => exact hbelow item (by simp) _ s
  | _ => exact g.pure _

end Lookups

end LuaAnalysis.Inference
