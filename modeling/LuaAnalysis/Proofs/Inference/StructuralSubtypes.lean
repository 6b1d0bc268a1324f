import LuaAnalysis.Proofs.Inference.Settles
import LuaAnalysis.Proofs.Types.StructuralOrder

/-!
The search for whether one type fits another one, on types that are made of built-in types, their
constants, arrays and unions. As long as its depth lasts, it tells just which of them are below each
other.
-/

namespace LuaAnalysis.Inference

open Document LuaAnalysis.Types Workspace Ty

variable {p : Project} {e : Engine} {s : SearchState} {a b c : Ty}

theorem expandAlias_apply (h : isAlias p a = false) : expandAlias p a s = (a, s) := by
  rw [expandAlias, if_neg (by simp [h])]
  rfl

theorem plain_of_structural (h : Structural a) : isWild a = false ∧ a.isUnknown = false ∧
    a.isMulti = false := by
  rcases h.shape with hsimple | ⟨item, rfl⟩ | ⟨members, rfl⟩
  · cases a <;> first | exact ⟨rfl, rfl, rfl⟩ | cases hsimple
  all_goals exact ⟨rfl, rfl, rfl⟩

theorem isAlias_of_structural (h : Structural a) : isAlias p a = false := by
  unfold isAlias
  split
  · cases h with | simple h => cases h
  · cases h with | simple h => cases h
  · rfl

theorem shapeFits_of_simple (ha : Structural a) (hb : Structural b)
    (h : a.isSimple = true ∨ b.isSimple = true) : shapeFits p e a b = return false := by
  unfold shapeFits
  split
  all_goals first
    | rfl
    | (cases ha with | simple h => cases h)
    | (cases hb with | simple h => cases h)
    | (rcases h with h | h <;> cases h)

section

variable (ha : Structural a) (hb : Structural b) (hne : beq a b = false)
include ha hb hne

theorem not_known_of_structural : ¬ (a == b || b.isUnknown || a.isUnknown) = true := by
  rw [show (a == b) = false from hne, (plain_of_structural ha).2.1, (plain_of_structural hb).2.1]
  exact Bool.false_ne_true

theorem resolvedFits_of_flat (hunion : a.isUnion = false) (hunion' : b.isUnion = false) :
    resolvedFits p e a b = if constFits a b then return true else shapeFits p e a b := by
  rw [resolvedFits, if_neg (not_known_of_structural ha hb hne)]
  case x => rintro members rfl; cases hunion
  case x_1 => rintro members rfl; cases hunion'
  refine if_congr Iff.rfl rfl ?_
  dsimp only
  split
  · cases hb with | simple h => cases h
  · split
    · cases ha with | simple h => cases h
    · rfl

theorem resolvedFits_union {members : List Ty} (hunion : a.isUnion = false)
    (hmembers : b = .union members) : resolvedFits p e a b = members.anyM fun m =>
      e.isSubtype a m := by
  subst hmembers
  rw [resolvedFits, if_neg (not_known_of_structural ha hb hne)]
  rintro members rfl
  cases hunion

end

def levels (a b : Ty) : Nat := 3 * a.arrayDepth + a.isUnion.toNat + b.isUnion.toNat + 1

section

variable {m : Ty} {members : List Ty}

theorem levels_of_left_member (hm : m ∈ members) (hunion : m.isUnion = false) :
    levels m b < levels (.union members) b := by
  have hdepth := arrayDepth_of_mem hm
  rw [levels, levels, hunion, show (Ty.union members).isUnion = true from rfl, Bool.toNat_true,
    Bool.toNat_false]
  omega

theorem levels_of_right_member (hunion : m.isUnion = false) :
    levels a m < levels a (.union members) := by
  rw [levels, levels, hunion, show (Ty.union members).isUnion = true from rfl, Bool.toNat_true,
    Bool.toNat_false]
  omega

theorem levels_of_items : levels a b < levels (.array a) (.array b) := by
  have := a.isUnion.toNat_le
  have := b.isUnion.toNat_le
  rw [levels, levels, arrayDepth]
  omega

end

/-- Whether the search for subtypes tells what is below what, and does nothing else, where it takes
at most some levels. -/
def Decides (e : Engine) (s : SearchState) (n : Nat) : Prop :=
  ∀ a b, Structural a → Structural b → levels a b ≤ n → e.isSubtype a b s = (isBelow a b, s)

variable {n : Nat}

theorem resolvedFits_apply (h : Decides e s n) (ha : Structural a) (hb : Structural b)
    (hunion : a.isUnion = false) (hlevels : levels a b ≤ n + 1) (hne : beq a b = false)
    (hnever : a ≠ .never) : resolvedFits p e a b s = (isBelow a b, s) := by
  cases hunion' : b.isUnion with
  | true =>
    obtain ⟨members, rfl⟩ := exists_members hunion'
    rw [resolvedFits_union ha hb hne hunion rfl, isBelow_union_right hb.members.1 hunion]
    refine Search.anyM_apply fun m hm => h a m ha (hb.members.2 m hm) ?_
    have hless : levels a m < levels a (.union members) :=
      levels_of_right_member (hb.members.1.single m hm).1
    omega
  | false =>
    rw [resolvedFits_of_flat ha hb hne hunion hunion']
    by_cases hsimple : a.isSimple = true ∨ b.isSimple = true
    · rw [shapeFits_of_simple ha hb hsimple,
        isBelow_eq_constFits ha hunion hunion' hnever hne hsimple]
      cases constFits a b <;> rfl
    · simp only [not_or, Bool.not_eq_true] at hsimple
      obtain ⟨item, rfl⟩ := ha.exists_item hsimple.1 hunion
      obtain ⟨item', rfl⟩ := hb.exists_item hsimple.2 hunion'
      have hitems := levels_of_items (a := item) (b := item')
      rw [isBelow, alternatives_of_not_union hunion', List.any_cons, List.any_nil, Bool.or_false]
      exact h item item' ha.item hb.item (by omega)

theorem fits_apply (h : Decides e s n) (ha : Structural a) (hb : Structural b)
    (hlevels : levels a b ≤ n + 1) : fits p e a b s = (isBelow a b, s) := by
  obtain ⟨hwild, -, hmulti⟩ := plain_of_structural ha
  obtain ⟨hwild', -, hmulti'⟩ := plain_of_structural hb
  by_cases hshort : (a == b || isWild a || isWild b || a.isNever) = true
  · have hbelow : isBelow a b = true := by
      rw [hwild, hwild', Bool.or_false, Bool.or_false, Bool.or_eq_true] at hshort
      rcases hshort with hbeq | hnever
      · exact isBelow_of_beq ha hb hbeq
      · cases a <;> first | rfl | cases hnever
    rw [hbelow]
    unfold fits
    rw [if_pos hshort]
    rfl
  · unfold fits
    rw [if_neg hshort, if_neg (by simp [hmulti]), if_neg (by simp [hmulti'])]
    split
    · rename_i members
      rw [isBelow_union_left]
      refine Search.allM_apply fun m hm => h m b (ha.members.2 m hm) hb ?_
      have := levels_of_left_member (b := b) hm (ha.members.1.single m hm).1
      omega
    · rename_i hunion
      rw [Search.bind_apply (expandAlias_apply (isAlias_of_structural hb)),
        Search.bind_apply (expandAlias_apply (isAlias_of_structural ha))]
      simp only [hwild, hwild', Bool.or_false, Bool.or_eq_true, not_or, Bool.not_eq_true] at hshort
      refine resolvedFits_apply h ha hb ?_ hlevels hshort.1 ?_
      · cases hbool : a.isUnion with
        | false => rfl
        | true =>
          obtain ⟨members, rfl⟩ := exists_members hbool
          exact absurd rfl (hunion members)
      · rintro rfl
        cases hshort.2

theorem decides_engine {fuel : Nat} (hpolls : s.polls = none) (hroom : s.depth + n ≤ maxDepth)
    (hfuel : n ≤ fuel) : Decides (engine p fuel) s n := by
  induction n generalizing s fuel with
  | zero =>
    intro a b _ _ hlevels
    cases hlevels
  | succ n ih =>
    intro a b ha hb hlevels
    obtain ⟨fuel, rfl⟩ : ∃ m, fuel = m + 1 := ⟨fuel - 1, by omega⟩
    refine Search.guarded_of_room hpolls (by omega) (fits_apply (ih ?_ ?_ ?_) ha hb hlevels)
    · exact hpolls
    · simp only; omega
    · omega

/-- Whether a type fits another one when a search asks that first of all. -/
def Fits (p : Project) (sub sup : Ty) : Prop := run (isSubtype p (fullEngine p) sub sup) = true

theorem fits_iff_isBelow (ha : Structural a) (hb : Structural b) (hdepth : a.arrayDepth ≤ 20) :
    Fits p a b ↔ isBelow a b = true := by
  have hlevels : levels a b ≤ maxDepth := by
    have := a.isUnion.toNat_le
    have := b.isUnion.toNat_le
    rw [levels, maxDepth]
    omega
  have hdecides : Decides (engine p (searchFuel + 1)) {} maxDepth :=
    decides_engine rfl (Nat.le_of_eq (Nat.zero_add maxDepth)) (by decide)
  exact Eq.congr_left (congrArg Prod.fst (hdecides a b ha hb hlevels))

theorem fits_unknown (p : Project) (a : Ty) : Fits p a .unknown := by
  have hfits : fits p (fullEngine p) a .unknown { depth := 1 } = (true, { depth := 1 }) := by
    unfold fits
    rw [if_pos (by simp [isWild])]
    rfl
  exact congrArg Prod.fst (Search.guarded_of_room (s := {}) rfl (by decide) hfits)

theorem fits_unionOf {ts : List Ty} (hts : ∀ t ∈ ts, Structural t) (ha : a ∈ ts)
    (hdepth : a.arrayDepth ≤ 20) : Fits p a (unionOf ts) := by
  by_cases hknown : unionOf ts = .unknown
  · rw [hknown]
    exact fits_unknown p a
  · rw [fits_iff_isBelow (hts a ha) ((structural_unionOf hts).resolve_left hknown) hdepth]
    exact isBelow_unionOf hts ha hknown

/-- The structural types are in an order in which unions are least upper bounds of their members. -/
theorem fits_structural (p : Project) {a b c : Ty} (ha : Structural a) (hb : Structural b)
    (hc : Structural c) (hdepth : a.arrayDepth ≤ 20) (hdepth' : b.arrayDepth ≤ 20) :
    Fits p a a ∧ (Fits p a b → Fits p b c → Fits p a c) ∧
      (∀ members, a = .union members → (Fits p a b ↔ ∀ m ∈ members, Fits p m b)) ∧
      (∀ members, a.isUnion = false → b = .union members →
        (Fits p a b ↔ ∃ m ∈ members, Fits p a m)) ∧
      Fits p a (union2 a b) ∧ Fits p b (union2 a b) := by
  have hboth : ∀ t ∈ [a, b], Structural t := by simpa using ⟨ha, hb⟩
  have hab := fits_iff_isBelow (p := p) ha hb hdepth
  refine ⟨?_, fun hfits hfits' => ?_, ?_, ?_, fits_unionOf hboth (by simp) hdepth,
    fits_unionOf hboth (by simp) hdepth'⟩
  · exact (fits_iff_isBelow ha ha hdepth).2 (isBelow_refl ha)
  · rw [fits_iff_isBelow hb hc hdepth'] at hfits'
    exact (fits_iff_isBelow ha hc hdepth).2 (isBelow_trans ha hb (hab.1 hfits) hfits')
  · rintro members rfl
    rw [hab, isBelow_union_left, List.all_eq_true]
    exact forall₂_congr fun m hm =>
      (fits_iff_isBelow (ha.members.2 m hm) hb (Nat.le_trans (arrayDepth_of_mem hm) hdepth)).symm
  · rintro members hunion rfl
    rw [hab, isBelow_union_right hb.members.1 hunion, List.any_eq_true]
    exact exists_congr fun m => and_congr_right fun hm =>
      (fits_iff_isBelow ha (hb.members.2 m hm) hdepth).symm

/-- From constants and arrays of them up to arrays of unions. -/
theorem fits_structural_arrays :
    let a := Ty.union [.array (.intConst 1), .boolConst true]
    let b := Ty.union [.boolean, .array (.union [.nil, .integer])]
    let c := Ty.union [.array (.union [.number, .nil]), .boolean, .thread]
    (Structural a ∧ Structural b ∧ Structural c) ∧ a.arrayDepth ≤ 20 ∧ b.arrayDepth ≤ 20 ∧
      Fits {} a b ∧ Fits {} b c ∧ Fits {} a c ∧ ¬ Fits {} c b := by
  have built {ts : List Ty} (hts : ∀ t ∈ ts, Structural t) (h : unionOf ts = .union ts) :
      Structural (.union ts) :=
    h ▸ (structural_unionOf hts).resolve_left (by rw [h]; exact Ty.noConfusion)
  have hnil : Structural (.union [.nil, .integer]) :=
    built (by simpa using ⟨.simple rfl, .simple rfl⟩) rfl
  have hnil' : Structural (.union [.number, .nil]) :=
    built (by simpa using ⟨.simple rfl, .simple rfl⟩) rfl
  have ha : Structural (.union [.array (.intConst 1), .boolConst true]) :=
    built (by simpa using ⟨.array (.simple rfl), .simple rfl⟩) rfl
  have hb : Structural (.union [.boolean, .array (.union [.nil, .integer])]) :=
    built (by simpa using ⟨.simple rfl, .array hnil⟩) rfl
  have hc : Structural (.union [.array (.union [.number, .nil]), .boolean, .thread]) :=
    built (by simpa using ⟨.array hnil', .simple rfl, .simple rfl⟩) rfl
  have hab : Fits {} _ _ := (fits_iff_isBelow ha hb (by decide)).2 rfl
  have hbc : Fits {} _ _ := (fits_iff_isBelow hb hc (by decide)).2 rfl
  refine ⟨⟨ha, hb, hc⟩, by decide, by decide, hab, hbc, ?_, ?_⟩
  · exact (fits_structural {} ha hb hc (by decide) (by decide)).2.1 hab hbc
  · rw [fits_iff_isBelow hc hb (by decide)]
    decide

end LuaAnalysis.Inference
