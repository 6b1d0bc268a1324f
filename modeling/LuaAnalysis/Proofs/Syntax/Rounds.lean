import LuaAnalysis.Syntax.Grammar.DocParser
import LuaAnalysis.Syntax.Parser

namespace LuaAnalysis.Syntax

variable {σ ρ : Type}

/-- A loop that starts in a state and ends with a result. Each of its rounds goes on to another
state or is the last. -/
inductive Loop (round : σ → σ ⊕ ρ) : σ → ρ → Prop where
  | last {s : σ} {r : ρ} (h : round s = .inr r) : Loop round s r
  | more {s t : σ} {r : ρ} (h : round s = .inl t) (rest : Loop round t r) : Loop round s r

/-- A loop that is given a count of rounds, and does not end because of it. -/
structure LoopEnds (inside : σ → Prop) (left : σ → Nat) (round : σ → σ ⊕ ρ)
    (run : Nat → σ → ρ) : Prop where
  decreases : ∀ {s t}, inside s → round s = .inl t → inside t ∧ left t < left s
  ends : ∀ {s n}, inside s → left s < n → Loop round s (run n s)

theorem Loop.unique {round : σ → σ ⊕ ρ} {s : σ} {r r' : ρ} (h : Loop round s r)
    (h' : Loop round s r') : r = r' := by
  induction h with
  | last hlast =>
    cases h' with
    | last hlast' => exact Sum.inr.inj (hlast.symm.trans hlast')
    | more hmore => cases hlast.symm.trans hmore
  | more hmore _ ih =>
    cases h' with
    | last hlast => cases hmore.symm.trans hlast
    | more hmore' hrest =>
      obtain rfl := Sum.inl.inj (hmore.symm.trans hmore')
      exact ih hrest

theorem loopEnds_of_rounds {inside : σ → Prop} {left : σ → Nat} {round : σ → σ ⊕ ρ}
    {run : Nat → σ → ρ} (hrun : ∀ n {s}, inside s → run (n + 1) s = Sum.elim (run n) id (round s))
    (hround : ∀ {s t}, inside s → round s = .inl t → inside t ∧ left t < left s) :
    LoopEnds inside left round run where
  decreases := hround
  ends {s n} hs hn := by
    induction n generalizing s with
    | zero => exact absurd hn (Nat.not_lt_zero _)
    | succ n ih =>
      rw [hrun n hs]
      cases hnext : round s with
      | inr r => exact .last hnext
      | inl t =>
        obtain ⟨ht, hlt⟩ := hround hs hnext
        exact .more hnext (ih ht (Nat.lt_of_lt_of_le hlt (Nat.le_of_lt_succ hn)))

def Parser.roundOf (step : σ → σ × Bool) (s : σ) : σ ⊕ σ :=
  if (step s).2 then .inl (step s).1 else .inr (step s).1

theorem Parser.repeatWhile_succ (step : σ → σ × Bool) (n : Nat) (s : σ) :
    repeatWhile step (n + 1) s = Sum.elim (repeatWhile step n) id (roundOf step s) := by
  rw [repeatWhile, roundOf]
  cases step s with
  | mk t more => cases more <;> rfl

namespace DocM

abbrev Outcome (α : Type) := EStateM.Result SyntaxError DocParser α

def Outcome.failed {α : Type} : Outcome α → Bool
  | .ok _ _ => false
  | .error _ _ => true

/-- A round of a loop over annotations. A round that fails is the last. -/
def roundOf (step : DocM Bool) (p : DocParser) : DocParser ⊕ Outcome Unit :=
  match step p with
  | .ok true q => .inl q
  | .ok false q => .inr (.ok () q)
  | .error e q => .inr (.error e q)

theorem ok_of_roundOf {step : DocM Bool} {p q : DocParser} (h : roundOf step p = .inl q) :
    step p = .ok true q := by
  unfold roundOf at h
  split at h
  · rename_i r hstep
    rwa [← Sum.inl.inj h]
  · cases h
  · cases h

theorem bind_apply {α β : Type} (m : DocM α) (f : α → DocM β) (p : DocParser) : (m >>= f) p =
    match m p with
    | .ok a q => f a q
    | .error e q => .error e q := by
  show EStateM.bind m f p = _
  unfold EStateM.bind
  cases m p <;> rfl

theorem repeatWhile_succ (step : DocM Bool) (n : Nat) (p : DocParser) :
    repeatWhile step (n + 1) p = Sum.elim (repeatWhile step n) id (roundOf step p) := by
  rw [repeatWhile, bind_apply, roundOf]
  cases step p with
  | ok more q => cases more <;> rfl
  | error e q => rfl

end DocM

end LuaAnalysis.Syntax
