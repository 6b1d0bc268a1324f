import LuaAnalysis.Inference.Query

namespace LuaAnalysis.Inference

open LuaAnalysis.Types Workspace

/-- A property that answers have, and so does a search that is followed by another one if both have
it. -/
structure Chains (P : ∀ ⦃α : Type⦄, (Engine → Search α) → Prop) : Prop where
  pure : ∀ {α : Type} (a : α), P fun _ => Pure.pure a
  bind : ∀ {α β : Type} {f : Engine → Search α} {g : α → Engine → Search β}, P f → (∀ a, P (g a)) →
    P fun e => f e >>= fun a => g a e

namespace Chains

variable {P : ∀ ⦃α : Type⦄, (Engine → Search α) → Prop} (c : Chains P) {α β : Type}

include c

theorem map {f : Engine → Search α} (g : α → β) (hf : P f) : P fun e => g <$> f e := by
  simp only [map_eq_pure_bind]
  exact c.bind hf fun a => c.pure (g a)

omit c in
theorem ite {q : Prop} [Decidable q] {f g : Engine → Search α} (hf : q → P f) (hg : ¬ q → P g) :
    P fun e => if q then f e else g e := by
  split
  · exact hf ‹_›
  · exact hg ‹_›

theorem foldlM {σ : Type} {f : σ → α → Engine → Search σ} (xs : List α)
    (h : ∀ a x, x ∈ xs → P (f a x)) (init : σ) :
    P fun e => xs.foldlM (fun a x => f a x e) init := by
  induction xs generalizing init with
  | nil => exact c.pure init
  | cons x xs ih =>
    simp only [List.foldlM_cons]
    refine c.bind (h init x (by simp)) fun a => ?_
    exact ih (fun a y hy => h a y (by simp [hy])) a

theorem mapM {f : α → Engine → Search β} (xs : List α) (h : ∀ x ∈ xs, P (f x)) :
    P fun e => xs.mapM fun x => f x e := by
  induction xs with
  | nil => exact c.pure []
  | cons x xs ih =>
    simp only [List.mapM_cons]
    refine c.bind (h x (by simp)) fun b => ?_
    exact c.bind (ih fun y hy => h y (by simp [hy])) fun bs => c.pure (b :: bs)

theorem filterMapM {f : α → Engine → Search (Option β)} (xs : List α) (h : ∀ x ∈ xs, P (f x)) :
    P fun e => xs.filterMapM fun x => f x e := by
  induction xs with
  | nil => exact c.pure []
  | cons x xs ih =>
    simp only [List.filterMapM_cons]
    refine c.bind (h x (by simp)) fun found => ?_
    have hrest := ih fun y hy => h y (by simp [hy])
    cases found with
    | none => exact hrest
    | some b => exact c.bind hrest fun bs => c.pure (b :: bs)

theorem anyM {f : α → Engine → Search Bool} (xs : List α) (h : ∀ x ∈ xs, P (f x)) :
    P fun e => xs.anyM fun x => f x e := by
  induction xs with
  | nil => exact c.pure false
  | cons x xs ih =>
    refine c.bind (h x (by simp)) fun holds => ?_
    cases holds with
    | true => exact c.pure true
    | false => exact ih fun y hy => h y (by simp [hy])

theorem allM {f : α → Engine → Search Bool} (xs : List α) (h : ∀ x ∈ xs, P (f x)) :
    P fun e => xs.allM fun x => f x e := by
  induction xs with
  | nil => exact c.pure true
  | cons x xs ih =>
    refine c.bind (h x (by simp)) fun holds => ?_
    cases holds with
    | true => exact ih fun y hy => h y (by simp [hy])
    | false => exact c.pure false

theorem findM? {f : α → Engine → Search Bool} (xs : List α) (h : ∀ x ∈ xs, P (f x)) :
    P fun e => xs.findM? fun x => f x e := by
  induction xs with
  | nil => exact c.pure none
  | cons x xs ih =>
    refine c.bind (h x (by simp)) fun holds => ?_
    cases holds with
    | true => exact c.pure (some x)
    | false => exact ih fun y hy => h y (by simp [hy])

theorem findSomeM? {f : α → Engine → Search (Option β)} (xs : List α) (h : ∀ x ∈ xs, P (f x)) :
    P fun e => xs.findSomeM? fun x => f x e := by
  induction xs with
  | nil => exact c.pure none
  | cons x xs ih =>
    refine c.bind (h x (by simp)) fun found => ?_
    cases found with
    | some b => exact c.pure (some b)
    | none => exact ih fun y hy => h y (by simp [hy])

theorem collectSources {p : Project} (hresolve : ∀ t, P fun _ => resolveAlias p t)
    (hrec : ∀ t s sources, P fun e => e.collectSources t s sources) (t : Ty) (s : Substitution)
    (sources : MemberSources) :
    P fun e => collectSources p e t s sources := by
  have hclass (name : String) (s : Substitution) : P fun e => collectClass p e name s sources := by
    simp only [collectClass]
    split
    · exact c.pure _
    · exact c.foldlM _ (fun sources super _ => hrec super s sources) _
  simp only [Inference.collectSources]
  split
  · split
    · refine c.bind (hresolve _) fun r => ?_
      split
      · exact c.pure _
      · exact c.pure _
      · exact hrec r s sources
    · exact hclass _ s
  · split
    · exact c.pure _
    · split
      · refine c.bind (hresolve _) fun r => ?_
        split
        · exact c.pure _
        · exact c.pure _
        · exact hrec r s sources
      · exact hclass _ _
  · exact c.pure _
  · split <;> exact c.pure _
  · split <;> exact c.pure _
  · exact c.pure _
  · exact c.foldlM _ (fun sources m _ => hrec m s sources) _
  · exact c.pure _

end Chains

end LuaAnalysis.Inference
