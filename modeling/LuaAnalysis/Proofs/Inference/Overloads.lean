import LuaAnalysis.Proofs.Inference.CallTemplates
import LuaAnalysis.Proofs.Inference.StructuralSubtypes
import Mathlib.Data.List.Forall2

/-!
Which one a call takes of several signatures: the first of those that accept the most of the first
arguments, where each argument stands against the parameter that it gets in a call of this kind.
-/

namespace LuaAnalysis.Types

namespace FuncType

/-- Whether a parameter takes what stands at a place. A last one `...` takes all that is behind it,
too. -/
def Stands (params : List (String × Option Ty)) (i : Nat) (param : String × Option Ty) : Prop :=
  params[i]? = some param ∨ params.length ≤ i ∧ params.getLast? = some param ∧ param.1 = "..."

/-- What a function takes as an argument of a call, with a colon or with a dot. What is before a
colon is no argument. -/
inductive Takes (f : FuncType) : Bool → Nat → String × Option Ty → Prop
  /-- The call is written like the definition. -/
  | same {i : Nat} {param : String × Option Ty} (h : Stands f.params i param) :
      Takes f f.isColon i param
  /-- What is before the colon is for the first parameter. -/
  | filled {i : Nat} {first param : String × Option Ty} (hdot : f.isColon = false)
      (hfirst : f.params.head? = some first) (hname : first.1 ≠ "...")
      (h : Stands f.params (i + 1) param) : Takes f true i param
  /-- What is before the colon is for a first parameter that takes all the arguments as well. -/
  | absorbed {i : Nat} {first param : String × Option Ty} (hdot : f.isColon = false)
      (hfirst : f.params.head? = some first) (hname : first.1 = "...")
      (h : Stands f.params i param) : Takes f true i param
  /-- The first argument is for the receiver. -/
  | receiver (hcolon : f.isColon = true) : Takes f false 0 ("self", none)
  /-- The other arguments are behind the one for the receiver. -/
  | shifted {i : Nat} {param : String × Option Ty} (hcolon : f.isColon = true)
      (h : Stands f.params i param) : Takes f false (i + 1) param

variable {f : FuncType} {i : Nat} {first param : String × Option Ty}
  {params : List (String × Option Ty)} {colonCall : Bool}

theorem stands_cons (hfirst : first.1 ≠ "...") : Stands (first :: params) (i + 1) param ↔
    Stands params i param := by
  cases params with
  | nil =>
    have hnot : first = param → param.1 ≠ "..." := fun h => h ▸ hfirst
    simpa [Stands] using hnot
  | cons second rest => simp [Stands]

theorem not_stands_nil : ¬ Stands [] i param := by simp [Stands]

theorem isVararg_iff : f.isVararg = true ↔ ∃ last, f.params.getLast? = some last ∧
    last.1 = "..." := by
  rw [isVararg]
  split <;> simp_all

theorem paramAt?_eq_some_iff : f.paramAt? i = some param ↔ Stands f.params i param := by
  rw [paramAt?, Option.orElse_eq_orElse, Option.orElse_eq_or, Option.or_eq_some_iff,
    List.getElem?_eq_none_iff, Stands]
  refine or_congr_right (and_congr_right fun _ => ?_)
  constructor
  · intro h
    split at h
    · obtain ⟨last, hlast, hname⟩ := isVararg_iff.1 ‹_›
      obtain rfl := Option.some.inj (hlast.symm.trans h)
      exact ⟨hlast, hname⟩
    · cases h
  · rintro ⟨hlast, hname⟩
    rw [if_pos (isVararg_iff.2 ⟨param, hlast, hname⟩), hlast]

theorem paramAt?_adjustFor_iff : (f.adjustFor colonCall).paramAt? i = some param ↔
    f.Takes colonCall i param := by
  rw [paramAt?_eq_some_iff]
  obtain ⟨isAsync, isColon, params, ret⟩ := f
  constructor
  · intro h
    cases colonCall <;> cases isColon
    case false.false | true.true => exact .same h
    case false.true =>
      -- a call with a dot of a function that is defined with a colon
      cases i with
      | zero =>
        obtain rfl : ("self", none) = param := by simpa [Stands, adjustFor] using h
        exact .receiver rfl
      | succ i => exact .shifted rfl ((stands_cons (by decide)).1 h)
    case true.false =>
      cases params with
      | nil => exact absurd h not_stands_nil
      | cons first rest =>
        simp only [adjustFor, bne_iff_ne, ite_not] at h
        split at h
        · exact .absorbed rfl rfl ‹_› h
        · exact .filled rfl rfl ‹_› ((stands_cons ‹_›).2 h)
  · intro h
    cases h with
    | same h => cases isColon <;> exact h
    | filled hdot hfirst hname h =>
      obtain rfl : isColon = false := hdot
      obtain ⟨rest, rfl⟩ := List.head?_eq_some_iff.1 hfirst
      simpa only [adjustFor, bne_iff_ne, if_pos hname] using (stands_cons hname).1 h
    | absorbed hdot hfirst hname h =>
      obtain rfl : isColon = false := hdot
      obtain ⟨rest, rfl⟩ := List.head?_eq_some_iff.1 hfirst
      simpa only [adjustFor, bne_iff_ne, ite_not, if_pos hname] using h
    | receiver hcolon =>
      obtain rfl : isColon = true := hcolon
      exact .inl rfl
    | shifted hcolon h =>
      obtain rfl : isColon = true := hcolon
      exact (stands_cons (by decide)).2 h

theorem isSome_paramAt?_of_succ (h : (f.paramAt? (i + 1)).isSome = true) :
    (f.paramAt? i).isSome = true := by
  obtain ⟨param, hparam⟩ := Option.isSome_iff_exists.1 h
  rcases paramAt?_eq_some_iff.1 hparam with hget | ⟨hlen, hlast, hname⟩
  · have hlt : i + 1 < f.params.length := (List.getElem?_eq_some_iff.1 hget).1
    exact Option.isSome_iff_exists.2 ⟨_,
      paramAt?_eq_some_iff.2 (.inl (List.getElem?_eq_getElem (Nat.lt_of_succ_lt hlt)))⟩
  · by_cases hlt : i < f.params.length
    · exact Option.isSome_iff_exists.2 ⟨_,
        paramAt?_eq_some_iff.2 (.inl (List.getElem?_eq_getElem hlt))⟩
    · exact Option.isSome_iff_exists.2 ⟨param,
        paramAt?_eq_some_iff.2 (.inr ⟨Nat.le_of_not_lt hlt, hlast, hname⟩)⟩

theorem Stands.mem (h : Stands params i param) : param ∈ params := by
  rcases h with hget | ⟨-, hlast, -⟩
  · exact List.mem_of_getElem? hget
  · exact List.mem_of_getLast? hlast

theorem Takes.mem {type : Ty} (h : f.Takes colonCall i param) (htype : param.2 = some type) :
    param ∈ f.params := by
  cases h with
  | same h | filled _ _ _ h | absorbed _ _ _ h | shifted _ h => exact h.mem
  | receiver => cases htype

/-- A parameter with what is put in the place of the templates in its type. -/
def instantiateParam (s : Substitution) (param : String × Option Ty) : String × Option Ty :=
  (param.1, param.2.map (·.instantiate s))

theorem paramAt?_instantiate (s : Substitution) :
    (f.instantiate s).paramAt? i = (f.paramAt? i).map (instantiateParam s) := by
  have hvararg : (f.instantiate s).isVararg = f.isVararg := by
    rw [Bool.eq_iff_iff, isVararg_iff, isVararg_iff]
    simp [FuncType.instantiate]
  rw [paramAt?, paramAt?, hvararg]
  simp only [Option.orElse_eq_orElse, Option.orElse_eq_or, Option.map_or, FuncType.instantiate,
    List.getElem?_map, List.getLast?_map]
  split <;> rfl

theorem instantiate_empty (f : FuncType) : f.instantiate {} = f := by
  have hkeep (t : Ty) : t.instantiate {} = t := Substitution.instantiate_of_isEmpty rfl t
  simp [FuncType.instantiate, hkeep]

end FuncType

end LuaAnalysis.Types

namespace LuaAnalysis.Inference

open Document LuaAnalysis.Types Workspace

/-- Whether a function accepts an argument at a place: something takes it there, and if that has a
type, the argument fits it. -/
def Accepts (fits : Ty → Ty → Bool) (f : FuncType) (colonCall : Bool) (i : Nat) (arg : Ty) : Prop :=
  ∃ param, f.Takes colonCall i param ∧ ∀ type, param.2 = some type → fits arg type = true

/-- How many of the arguments from an index on are accepted before the first one that is not. -/
structure LeadingCount (accepts : Nat → Ty → Prop) (index : Nat) (args : List Ty)
    (n : Nat) : Prop where
  le : n ≤ args.length
  accepted : ∀ i arg, i < n → args[i]? = some arg → accepts (index + i) arg
  refused : ∀ arg, args[n]? = some arg → ¬ accepts (index + n) arg

namespace LeadingCount

variable {accepts : Nat → Ty → Prop} {index : Nat} {arg : Ty} {rest : List Ty} {n : Nat}

theorem nil : LeadingCount accepts index [] 0 := ⟨Nat.le_refl 0, nofun, nofun⟩

theorem stop (h : ¬ accepts index arg) : LeadingCount accepts index (arg :: rest) 0 :=
  ⟨Nat.zero_le _, nofun, fun _ hget => Option.some.inj hget ▸ h⟩

theorem next (h : accepts index arg) (hrest : LeadingCount accepts (index + 1) rest n) :
    LeadingCount accepts index (arg :: rest) (n + 1) where
  le := Nat.succ_le_succ hrest.le
  accepted := by
    intro i arg' hi hget
    cases i with
    | zero => exact Option.some.inj hget ▸ h
    | succ i => exact Nat.add_right_comm index 1 i ▸
        hrest.accepted i arg' (Nat.lt_of_succ_lt_succ hi) hget
  refused := fun arg' hget => Nat.add_right_comm index 1 n ▸ hrest.refused arg' hget

end LeadingCount

section Scores

variable {I : SearchState → Prop} {e : Engine} {fits : Ty → Ty → Bool} {f : FuncType}
  {colonCall : Bool}

theorem matchScore_gives (index : Nat) (args : List Ty)
    (hfits : ∀ i param type, f.Takes colonCall i param → param.2 = some type → ∀ arg ∈ args,
      Gives I (e.isSubtype arg type) (· = fits arg type)) :
    Gives I (matchScore e (f.adjustFor colonCall) index args)
    (LeadingCount (Accepts fits f colonCall) index args) := by
  induction args generalizing index with
  | nil => exact .pure .nil
  | cons arg rest ih =>
    have hrest : Gives I (matchScore e (f.adjustFor colonCall) (index + 1) rest)
        (LeadingCount (Accepts fits f colonCall) (index + 1) rest) :=
      ih (index + 1) fun i param type htakes htype arg harg =>
        hfits i param type htakes htype arg (.tail _ harg)
    have hmore (h : Accepts fits f colonCall index arg) :
        Gives I (do return (← matchScore e (f.adjustFor colonCall) (index + 1) rest) + 1)
          (LeadingCount (Accepts fits f colonCall) index (arg :: rest)) :=
      .bind hrest fun n hn => .pure (hn.next h)
    have honly {param param' : String × Option Ty}
        (hparam : (f.adjustFor colonCall).paramAt? index = some param)
        (htakes : f.Takes colonCall index param') : param' = param :=
      Option.some.inj ((FuncType.paramAt?_adjustFor_iff.2 htakes).symm.trans hparam)
    rw [matchScore]
    -- what takes the argument has a type or has none, or nothing takes it
    split
    · rename_i name type hparam
      refine .bind (hfits index _ type (FuncType.paramAt?_adjustFor_iff.1 hparam) rfl arg
        (.head _)) ?_
      rintro _ rfl
      refine .ite (fun hfit => hmore ?_) fun hfit => .pure (.stop ?_)
      · exact ⟨_, FuncType.paramAt?_adjustFor_iff.1 hparam,
          fun type' htype => Option.some.inj htype ▸ hfit⟩
      · rintro ⟨param, htakes, haccept⟩
        exact hfit (haccept type (honly hparam htakes ▸ rfl))
    · rename_i name hparam
      exact hmore ⟨_, FuncType.paramAt?_adjustFor_iff.1 hparam, nofun⟩
    · rename_i hparam
      refine .pure (.stop ?_)
      rintro ⟨param, htakes, -⟩
      exact absurd (hparam.symm.trans (FuncType.paramAt?_adjustFor_iff.2 htakes)) nofun

end Scores

/-- Whether the greatest of some numbers is at an index for the first time. -/
def FirstMax (counts : List Nat) (i : Nat) : Prop :=
  ∃ n, counts[i]? = some n ∧ ∀ j k, counts[j]? = some k → k ≤ n ∧ (j < i → k < n)

/-- The one of two scored functions that is kept, the earlier one unless the later one is better. -/
def keepBest (best : Option (Nat × Nat × FuncType)) (next : (Nat × FuncType) × Nat) :
    Option (Nat × Nat × FuncType) :=
  match best with
  | some (top, _, _) => if top < next.1.1 then some (next.1.1, next.2, next.1.2) else best
  | none => some (next.1.1, next.2, next.1.2)

theorem bestOf_eq (scored : List (Nat × FuncType)) :
    bestOf scored = (scored.zipIdx.foldl keepBest none).map (·.2) := rfl

def Kept (scored : List (Nat × FuncType)) : Option (Nat × Nat × FuncType) → Prop
  | none => scored = []
  | some (top, i, f) => scored[i]? = some (top, f) ∧ ∀ j k, (scored.map (·.1))[j]? = some k →
      k ≤ top ∧ (j < i → k < top)

theorem Kept.concat {scored : List (Nat × FuncType)} {best : Option (Nat × Nat × FuncType)}
    (h : Kept scored best) (score : Nat) (f : FuncType) :
    Kept (scored ++ [(score, f)]) (keepBest best ((score, f), scored.length)) := by
  have hcounts {j k : Nat} (hj : ((scored ++ [(score, f)]).map (·.1))[j]? = some k) :
      (scored.map (·.1))[j]? = some k ∨ j = scored.length ∧ k = score := by
    rw [List.map_append, List.getElem?_append, List.length_map] at hj
    split at hj
    · exact .inl hj
    · obtain ⟨hlast, hk⟩ := List.getElem?_eq_some_iff.1 hj
      simp only [List.map_cons, List.map_nil, List.length_singleton,
        List.getElem_singleton] at hlast hk
      exact .inr ⟨by omega, hk.symm⟩
  have hlast : (scored ++ [(score, f)])[scored.length]? = some (score, f) :=
    List.getElem?_concat_length
  cases best with
  | none =>
    obtain rfl : scored = [] := h
    refine ⟨hlast, fun j k hj => ?_⟩
    obtain hnone | ⟨rfl, rfl⟩ := hcounts hj
    · cases hnone
    · exact ⟨Nat.le_refl k, fun hlt => absurd hlt (Nat.lt_irrefl _)⟩
  | some best =>
    obtain ⟨top, i, g⟩ := best
    obtain ⟨hget, hbest⟩ := h
    have hi : i < scored.length := (List.getElem?_eq_some_iff.1 hget).1
    rw [keepBest]
    split
    · rename_i hlt
      refine ⟨hlast, fun j k hj => ?_⟩
      obtain hold | ⟨rfl, rfl⟩ := hcounts hj
      · have hk : k < score := Nat.lt_of_le_of_lt (hbest j k hold).1 hlt
        exact ⟨Nat.le_of_lt hk, fun _ => hk⟩
      · exact ⟨Nat.le_refl k, fun hlt => absurd hlt (Nat.lt_irrefl _)⟩
    · rename_i hnot
      refine ⟨by rw [List.getElem?_append_left hi, hget], fun j k hj => ?_⟩
      obtain hold | ⟨rfl, rfl⟩ := hcounts hj
      · exact hbest j k hold
      · exact ⟨Nat.le_of_not_lt hnot, fun hlt => absurd hlt (Nat.not_lt_of_lt hi)⟩

theorem kept_foldl (scored : List (Nat × FuncType)) :
    Kept scored (scored.zipIdx.foldl keepBest none) := by
  induction scored using List.reverseRecOn with
  | nil => rfl
  | append_singleton scored x ih =>
    rw [List.zipIdx_append, List.foldl_append]
    simpa using ih.concat x.1 x.2

theorem bestOf_eq_none_iff {scored : List (Nat × FuncType)} : bestOf scored = none ↔
    scored = [] := by
  have hkept := kept_foldl scored
  rw [bestOf_eq, Option.map_eq_none_iff]
  constructor
  · intro hnone
    rwa [hnone] at hkept
  · rintro rfl
    rfl

theorem firstMax_of_bestOf {scored : List (Nat × FuncType)} {i : Nat} {f : FuncType}
    (h : bestOf scored = some (i, f)) : FirstMax (scored.map (·.1)) i ∧
    ∃ score, scored[i]? = some (score, f) := by
  rw [bestOf_eq, Option.map_eq_some_iff] at h
  obtain ⟨⟨top, i', f'⟩, hbest, heq⟩ := h
  obtain ⟨rfl, rfl⟩ := Prod.mk.inj heq.symm
  obtain ⟨hget, hcounts⟩ : Kept scored (some (top, i, f)) := hbest ▸ kept_foldl scored
  exact ⟨⟨top, by rw [List.getElem?_map, hget]; rfl, hcounts⟩, top, hget⟩

theorem getElem?_filterMap_range {α : Type} {g : Nat → Option α}
    (hg : ∀ i, (g (i + 1)).isSome = true → (g i).isSome = true) (n i : Nat) :
    ((List.range n).filterMap g)[i]? = if i < n then g i else none := by
  induction n generalizing g i with
  | zero => simp
  | succ n ih =>
    rw [List.range_succ_eq_map, List.filterMap_cons, List.filterMap_map]
    have hrest (i : Nat) : ((List.range n).filterMap (g ∘ Nat.succ))[i]? = if i < n then g (i + 1)
        else none :=
      ih (fun i => hg (i + 1)) i
    cases hfirst : g 0 with
    | none =>
      -- without a first value there are none behind it
      have hnone (i : Nat) : g i = none := by
        induction i with
        | zero => exact hfirst
        | succ i ih =>
          exact Option.not_isSome_iff_eq_none.1 fun hsome => by simpa [ih] using hg i hsome
      simp [hnone]
    | some a =>
      cases i with
      | zero => simp [hfirst]
      | succ i => simpa using hrest i

theorem getElem?_passed {f : FuncType} {n i : Nat} {param : String × Option Ty} :
    ((List.range n).filterMap f.paramAt?)[i]? = some param ↔ i < n ∧ f.paramAt? i = some param := by
  rw [getElem?_filterMap_range fun i => FuncType.isSome_paramAt?_of_succ]
  split <;> simp [*]

/-- Whether the answers are fixed to what arguments fit the types of the parameters of a
function. -/
def Fixed (I : SearchState → Prop) (e : Engine) (fits : Ty → Ty → Bool) (args : List Ty)
    (f : FuncType) : Prop :=
  ∀ param ∈ f.params, ∀ type, param.2 = some type →
    ∀ arg ∈ args, Gives I (e.isSubtype arg type) (· = fits arg type)

theorem instantiateCall_eq_instantiate (e : Engine) (f : FuncType) (args : List Ty)
    (self? : Option Ty) (st : SearchState) : ∃ s, (instantiateCall e f args self? st).1 =
    f.instantiate s ∧ (f.toTy.containsTpl = false → s = {}) := by
  have heq := instantiateCall_eq e f args self? st
  cases htpl : f.toTy.containsTpl with
  | true => exact ⟨_, by simpa only [htpl, if_true] using heq, nofun⟩
  | false => exact ⟨{}, by simpa only [htpl, Bool.false_eq_true, if_false, f.instantiate_empty]
      using heq, fun _ => rfl⟩

def scored (e : Engine) (args : List Ty) (colonCall : Bool) (f : FuncType) :
    Search (Nat × FuncType) := do
  return (← matchScore e (f.adjustFor colonCall) 0 args, f.adjustFor colonCall)

theorem bestMatch_apply {p : Project} {e : Engine} {callee : Ty} {args : List Ty} {colonCall : Bool}
    {self? : Option Ty} {st st' st'' : SearchState} {candidates : List FuncType}
    {all : List (Nat × FuncType)}
    (hcandidates : findCallables p e callee st = (candidates, st'))
    (hall : candidates.mapM (scored e args colonCall) st' = (all, st'')) :
    ∃ closure?, (bestMatch p e callee args colonCall self? st).1 = (bestOf all).map fun best =>
      let f := (instantiateCall e best.2 args self? st'').1
      ⟨f, (List.range args.length).filterMap f.paramAt?, best.1, closure?⟩ := by
  unfold bestMatch
  rw [Search.bind_apply hcandidates]
  apply Exists.intro
  refine (congrArg Prod.fst (Search.bind_apply hall)).trans ?_
  cases bestOf all <;> rfl

/-- What is reported about the arguments of a call of a function: for each of them, as far as
something takes it, what takes it, with types in the place of templates. -/
structure Reports (f : FuncType) (args : List Ty) (colonCall : Bool) (s : Substitution)
    (m : CallMatch) : Prop where
  func_eq : m.func = (f.adjustFor colonCall).instantiate s
  of_no_templates : (f.adjustFor colonCall).toTy.containsTpl = false → s = {}
  params_iff : ∀ i param, m.params[i]? = some param ↔
    i < args.length ∧ ∃ declared, f.Takes colonCall i declared ∧
    param = FuncType.instantiateParam s declared

/-- As long as the answers are fixed to what arguments fit what parameters, a call takes the first
of those functions that accept the most of the first arguments, and none only if there is none. It
fills in the templates of that one alone. -/
theorem bestMatch_firstMax (p : Project) (e : Engine) (callee : Ty) (args : List Ty)
    (colonCall : Bool) (self? : Option Ty) (st : SearchState) {I : SearchState → Prop}
    {fits : Ty → Ty → Bool} (hstate : I (findCallables p e callee st).2)
    (hfixed : ∀ f ∈ (findCallables p e callee st).1, Fixed I e fits args f) :
    let candidates := (findCallables p e callee st).1
    let found := (bestMatch p e callee args colonCall self? st).1
    (found = none ↔ candidates = []) ∧
      ∃ counts, List.Forall₂ (fun f => LeadingCount (Accepts fits f colonCall) 0 args)
        candidates counts ∧
        ∀ m, found = some m → FirstMax counts m.candidate ∧
        ∃ f s, candidates[m.candidate]? = some f ∧
          (∃ st', I st' ∧ m.func = (instantiateCall e (f.adjustFor colonCall) args self? st').1) ∧
          Reports f args colonCall s m := by
  intro candidates found
  have hscored : Gives I (candidates.mapM (scored e args colonCall)) (List.Forall₂ (fun f x =>
      LeadingCount (Accepts fits f colonCall) 0 args x.1 ∧
        x.2 = f.adjustFor colonCall) candidates) :=
    .mapM candidates fun f hf => .bind
      (matchScore_gives 0 args fun i param type htakes htype =>
        hfixed f hf param (htakes.mem htype) type htype)
      fun n hn => .pure ⟨hn, rfl⟩
  obtain ⟨hall, hlater⟩ := hscored _ hstate
  generalize hrun : candidates.mapM (scored e args colonCall) (findCallables p e callee st).2 =
    result at hall hlater
  obtain ⟨all, st'⟩ := result
  obtain ⟨closure?, hfound⟩ : ∃ closure?, found = (bestOf all).map _ := bestMatch_apply rfl hrun
  refine ⟨?_, all.map (·.1), List.forall₂_map_right_iff.2 (hall.imp fun f x h => h.1),
    fun m hm => ?_⟩
  · rw [hfound, Option.map_eq_none_iff, bestOf_eq_none_iff, ← List.length_eq_zero_iff,
      ← hall.length_eq, List.length_eq_zero_iff]
  · obtain ⟨⟨i, f'⟩, hbest, rfl⟩ := Option.map_eq_some_iff.1 (hfound.symm.trans hm)
    obtain ⟨hmax, score, hget⟩ := firstMax_of_bestOf hbest
    -- the scores are in the order of the candidates
    obtain ⟨f, hf, -, rfl⟩ : ∃ f, candidates[i]? = some f ∧
        LeadingCount (Accepts fits f colonCall) 0 args score ∧
        f' = f.adjustFor colonCall := by
      obtain ⟨hi, hval⟩ := List.getElem?_eq_some_iff.1 hget
      have hi' : i < candidates.length := hall.length_eq ▸ hi
      have hat := hall.get hi' hi
      rw [List.get_eq_getElem, List.get_eq_getElem, hval] at hat
      exact ⟨_, List.getElem?_eq_getElem hi', hat⟩
    obtain ⟨s, hs, hkeep⟩ := instantiateCall_eq_instantiate e (f.adjustFor colonCall) args self? st'
    refine ⟨hmax, f, s, hf, ⟨st', hlater, rfl⟩, hs, hkeep, fun j param => ?_⟩
    dsimp only
    rw [hs, getElem?_passed, FuncType.paramAt?_instantiate, Option.map_eq_some_iff]
    exact and_congr_right fun _ => exists_congr fun declared =>
      and_congr FuncType.paramAt?_adjustFor_iff eq_comm

/-- A function that does not accept a first argument `string`, two that accept all of a string and
two integers and are defined with a dot and with a colon, and one whose only parameter takes the
receiver together with the arguments. -/
def overloads : List FuncType := [
  { params := [("self", none), ("a", some .integer)] },
  { params := [("self", none), ("a", some .string), ("...", some .integer)] },
  { isColon := true, params := [("a", some .string), ("b", some .integer), ("c", none)] },
  { params := [("...", some .string)] }]

/-- Called with a colon, the second one is taken. -/
theorem bestMatch_firstMax_overloads :
    let callee := Ty.union (overloads.map (·.toTy))
    let args := [Ty.string, .integer, .integer]
    findCallables {} (fullEngine {}) callee {} = (overloads, {}) ∧
      (∀ f ∈ overloads, Fixed (· = {}) (fullEngine {}) Ty.isBelow args f) ∧
      ∃ counts m, List.Forall₂ (fun f => LeadingCount (Accepts Ty.isBelow f true) 0 args)
        overloads counts ∧
        run (bestMatch {} (fullEngine {}) callee args true none) = some m ∧
        FirstMax counts m.candidate ∧
        m.candidate = 1 ∧ m.params =
        [("a", some .string), ("...", some .integer), ("...", some .integer)] := by
  intro callee args
  have hcandidates : findCallables {} (fullEngine {}) callee {} = (overloads, {}) := rfl
  have hargs : ∀ arg ∈ args, arg.isSimple = true := by decide
  have hsimple : ∀ f ∈ overloads, ∀ param ∈ f.params, param.2.all (fun type => type.isSimple &&
      args.all fun arg => levels arg type ≤ maxDepth) = true := by decide
  have hfixed : ∀ f ∈ overloads, Fixed (· = {}) (fullEngine {}) Ty.isBelow args f := by
    rintro f hf param hparam type htype arg harg s rfl
    have hboth := hsimple f hf param hparam
    rw [htype, Option.all_some, Bool.and_eq_true, List.all_eq_true] at hboth
    have hdecides : Decides (fullEngine {}) {} maxDepth :=
      decides_engine rfl (by decide) (by decide)
    rw [hdecides arg type (.simple (hargs arg harg)) (.simple hboth.1)
      (of_decide_eq_true (hboth.2 arg harg))]
    exact ⟨rfl, rfl⟩
  refine ⟨hcandidates, hfixed, ?_⟩
  obtain ⟨-, counts, hcounts, hfound⟩ :=
    @bestMatch_firstMax {} (fullEngine {}) callee args true none {} (· = {}) Ty.isBelow rfl hfixed
  obtain ⟨m, hm⟩ : ∃ m, run (bestMatch {} (fullEngine {}) callee args true none) = some m :=
    Option.isSome_iff_exists.1 rfl
  have hcandidate : (run (bestMatch {} (fullEngine {}) callee args true none)).map (·.candidate) =
      some 1 := rfl
  have hparams : (run (bestMatch {} (fullEngine {}) callee args true none)).map (·.params) =
      some [("a", some .string), ("...", some .integer), ("...", some .integer)] := rfl
  rw [hm] at hcandidate hparams
  exact ⟨counts, m, hcounts, hm, (hfound m hm).1, Option.some.inj hcandidate,
    Option.some.inj hparams⟩

end LuaAnalysis.Inference
