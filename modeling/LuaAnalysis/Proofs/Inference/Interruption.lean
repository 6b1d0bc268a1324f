import LuaAnalysis.Proofs.Inference.Expressions

namespace LuaAnalysis.Inference

open Document LuaAnalysis.Types Scope Syntax Workspace

variable {α β : Type}

def SearchState.within (s : SearchState) (looks : Nat) : SearchState :=
  { s with polls := some looks }

/-- A search that looks for a cancellation so many times when it starts in a state. -/
structure Looks (x : Search α) (s : SearchState) (looks : Nat) : Prop where
  uncancelled : (x s).2.polls = none
  cut : ∀ n, n < looks → (x (s.within n)).2.polls = some 0
  through : ∀ n, x (s.within (looks + n)) = ((x s).1, (x s).2.within n)

def Interruptible (x : Search α) : Prop := ∀ s : SearchState, s.polls = none →
    ∃ looks, Looks x s looks

namespace Interruptible

theorem stays {x : Search α} (h : Interruptible x) {s : SearchState} (hs : s.polls = some 0) :
    (x s).2.polls = some 0 := by
  have heq : s = SearchState.within { s with polls := none } 0 := by
    rw [SearchState.within, ← hs]
  obtain ⟨looks, -, hcut, hthrough⟩ := h { s with polls := none } rfl
  rw [heq]
  cases looks with
  | zero => exact congrArg (·.2.polls) (hthrough 0)
  | succ looks => exact hcut 0 (Nat.succ_pos looks)

theorem pure (a : α) : Interruptible (Pure.pure a) :=
  fun _ hs => ⟨0, hs, fun _ hn => absurd hn (Nat.not_lt_zero _), fun n => by rw [Nat.zero_add]; rfl⟩

theorem bind {x : Search α} {f : α → Search β} (hx : Interruptible x)
    (hf : ∀ a, Interruptible (f a)) : Interruptible (x >>= f) := by
  intro s hs
  obtain ⟨first, hnone, hcut, hthrough⟩ := hx s hs
  obtain ⟨second, hnone', hcut', hthrough'⟩ := hf (x s).1 (x s).2 hnone
  refine ⟨first + second, hnone', fun n hn => ?_, fun n => ?_⟩
  · by_cases hlt : n < first
    · exact (hf _).stays (hcut n hlt)
    · obtain ⟨k, rfl⟩ := Nat.exists_eq_add_of_le (Nat.le_of_not_lt hlt)
      change (f (x (s.within (first + k))).1 (x (s.within (first + k))).2).2.polls = some 0
      rw [hthrough]
      exact hcut' k (by omega)
  · change f (x (s.within (first + second + n))).1 (x (s.within (first + second + n))).2 = _
    rw [Nat.add_assoc, hthrough]
    exact hthrough' n

theorem isCancelled : Interruptible Search.isCancelled := by
  intro s hs
  obtain ⟨exprs, decls, depth, expanding, polls, exhausted⟩ := s
  obtain rfl : polls = none := hs
  refine ⟨1, rfl, fun n hn => ?_, fun n => ?_⟩
  · obtain rfl : n = 0 := by omega
    rfl
  · rw [Nat.add_comm]
    rfl

theorem read {g : SearchState → β} (hg : ∀ s looks, g (s.within looks) = g s) {f : β → Search α}
    (h : ∀ b, Interruptible (f b)) : Interruptible fun s => f (g s) s := by
  intro s hs
  obtain ⟨looks, hnone, hcut, hthrough⟩ := h (g s) s hs
  refine ⟨looks, hnone, fun n hn => ?_, fun n => ?_⟩
  · rw [hg]
    exact hcut n hn
  · rw [hg]
    exact hthrough n

theorem modify {f : SearchState → SearchState}
    (hf : ∀ s polls, f { s with polls := polls } = { f s with polls := polls }) :
    Interruptible (modify f) := by
  intro s hs
  refine ⟨0, ?_, fun n hn => absurd hn (Nat.not_lt_zero _), fun n => ?_⟩
  · change (f s).polls = none
    have heq := hf s none
    rw [← hs] at heq
    rw [heq, hs]
  · rw [Nat.zero_add]
    exact Prod.ext rfl (hf s (some n))

theorem outOfFuel (fallback : α) : Interruptible (Search.outOfFuel fallback) :=
  bind (modify fun _ _ => rfl) fun _ => pure fallback

theorem ite {q : Prop} [Decidable q] {x y : Search α} (hx : Interruptible x)
    (hy : Interruptible y) : Interruptible (if q then x else y) := by
  split
  · exact hx
  · exact hy

theorem guarded {fallback : α} {x : Search α} (hx : Interruptible x) :
    Interruptible (Search.guarded fallback x) := by
  refine read (f := fun depth => if maxDepth ≤ depth then Pure.pure fallback else _)
    (g := (·.depth)) (fun _ _ => rfl)
    fun depth => ite (pure fallback) (bind isCancelled fun cancelled => ite (pure fallback) ?_)
  exact bind (modify fun _ _ => rfl) fun _ => bind hx fun a =>
    bind (modify fun _ _ => rfl) fun _ => pure a

theorem cached {lookup : SearchState → Option CacheEntry}
    {keep : CacheEntry → SearchState → SearchState} {x : Search Ty}
    (hlookup : ∀ s looks, lookup (s.within looks) = lookup s)
    (hkeep : ∀ entry s polls, keep entry { s with polls := polls } =
      { keep entry s with polls := polls })
    (hx : Interruptible x) : Interruptible (Search.cached lookup keep x) := by
  refine read (f := Search.answer keep x) hlookup fun entry => ?_
  cases entry with
  | none =>
    refine bind (modify (hkeep _)) fun _ => bind (guarded hx) fun type => ?_
    exact bind (modify (hkeep _)) fun _ => pure type
  | some entry => cases entry <;> exact pure _

theorem chains (e : Engine) : Chains fun _ f => Interruptible (f e) := ⟨pure, bind⟩

theorem mapM {f : α → Search β} (xs : List α) (h : ∀ x ∈ xs, Interruptible (f x)) :
    Interruptible (xs.mapM f) :=
  (chains .stopped).mapM (f := fun x _ => f x) xs h

theorem filterMapM {f : α → Search (Option β)} (xs : List α) (h : ∀ x ∈ xs, Interruptible (f x)) :
    Interruptible (xs.filterMapM f) :=
  (chains .stopped).filterMapM (f := fun x _ => f x) xs h

end Interruptible

section Names

variable (p : Project)

theorem interruptible_resolveAliasFor (fuel : Nat) (t : Ty) :
    Interruptible (resolveAliasFor p fuel t) := by
  induction fuel generalizing t with
  | zero => exact .outOfFuel _
  | succ fuel ih =>
    rw [resolveAliasFor]
    split
    · exact .pure _
    · rename_i name origin _
      refine .read (g := (·.expanding)) (f := fun expanding => if expanding.contains name then _
        else _) (fun _ _ => rfl)
        fun expanding => .ite (.pure _) ?_
      refine .bind (.modify fun _ _ => rfl) fun _ => .bind (.guarded (ih origin)) fun resolved => ?_
      exact .bind (.modify fun _ _ => rfl) fun _ => .pure resolved

theorem interruptible_inheritsFor (fuel : Nat) (sub sup : String) :
    Interruptible (inheritsFor p fuel sub sup) := by
  induction fuel generalizing sub with
  | zero => exact .outOfFuel _
  | succ fuel ih =>
    refine .ite (.pure true) ?_
    exact (Interruptible.chains .stopped).anyM
      (f := fun name _ => Search.guarded false (inheritsFor p fuel name sup)) _
      fun name _ => .guarded (ih name)

theorem interruptible_genericParamsFor (fuel : Nat) (actual : Ty) (base : String) :
    Interruptible (genericParamsFor p fuel actual base) := by
  induction fuel generalizing actual with
  | zero => exact .outOfFuel _
  | succ fuel ih =>
    have hclimb (name : String) : Interruptible
        (Search.guarded none ((p.index.supers name).findSomeM? fun super =>
          genericParamsFor p fuel super base)) :=
      .guarded ((Interruptible.chains .stopped).findSomeM?
        (f := fun super _ => genericParamsFor p fuel super base) _
        fun super _ => ih super)
    simp only [genericParamsFor]
    cases actual with
    | ref name => exact hclimb name
    | generic name params => exact .ite (.pure _) (hclimb name)
    | _ => exact .pure none

end Names

/-- An engine that a cancellation either cuts short or does not touch, whatever it is asked. -/
structure Engine.Interruptible (e : Engine) : Prop where
  inferExpr : ∀ doc expr, Inference.Interruptible (e.inferExpr doc expr)
  declType : ∀ decl, Inference.Interruptible (e.declType decl)
  isSubtype : ∀ sub sup, Inference.Interruptible (e.isSubtype sub sup)
  findMember : ∀ t key, Inference.Interruptible (e.findMember t key)
  findCallables : ∀ t, Inference.Interruptible (e.findCallables t)
  indexAccess : ∀ source key, Inference.Interruptible (e.indexAccess source key)
  collectSources : ∀ t s sources, Inference.Interruptible (e.collectSources t s sources)
  unify : ∀ expected actual s, Inference.Interruptible (e.unify expected actual s)

namespace Engine.Interruptible

variable {p : Project} {e : Engine} (h : e.Interruptible)

include h

theorem questions : Questions p fun _ f => Inference.Interruptible (f e) :=
  { Inference.Interruptible.chains e with
    inferExpr := h.inferExpr
    declType := fun decl _ => h.declType decl
    isSubtype := h.isSubtype
    findMember := h.findMember
    findCallables := h.findCallables
    indexAccess := h.indexAccess
    collectSources := h.collectSources
    unify := h.unify
    resolveAlias := fun t => interruptible_resolveAliasFor p _ t
    inherits := fun sub sup => interruptible_inheritsFor p _ sub sup
    genericParamsAs := fun actual base => interruptible_genericParamsFor p _ actual base }

end Engine.Interruptible

theorem interruptible_engine (p : Project) (n : Nat) : (engine p n).Interruptible := by
  induction n with
  | zero => constructor <;> intros <;> exact .outOfFuel _
  | succ n ih =>
    have h : Questions p fun _ f => Interruptible (f (engine p n)) := ih.questions
    have g := h.bindings
    exact
      { inferExpr := fun doc expr => by
          change Interruptible (inferExpr p (engine p n) doc expr)
          rw [inferExpr]
          split
          · exact .pure _
          · exact .cached (fun _ _ => rfl) (fun _ _ _ => rfl) (g.inferNode _ doc expr)
        declType := fun decl => .cached (fun _ _ => rfl) (fun _ _ _ => rfl) (g.declTypeOf decl)
        isSubtype := fun sub sup => .guarded (g.fits sub sup)
        findMember := g.findMember
        findCallables := g.findCallables
        indexAccess := g.indexAccess
        collectSources := h.collectSourcesBelow
        unify := h.unifyBelow }

end LuaAnalysis.Inference
