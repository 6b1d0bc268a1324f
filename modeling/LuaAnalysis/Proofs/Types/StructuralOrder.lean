import LuaAnalysis.Inference.Subtype
import LuaAnalysis.Proofs.Types.Alternatives

/-!
The order of the types that are made of built-in types, their constants, arrays and unions. One is
below another one if each of its alternatives is below an alternative of the other. To unite types
gives one that is above both.
-/

namespace LuaAnalysis.Types.Ty

open Inference

/-- Built-in types without types below them, and their constants. -/
def isSimple : Ty → Bool
  | .never | .nil | .boolean | .integer | .number | .string | .thread | .userdata => true
  | .boolConst _ | .intConst _ | .strConst _ => true
  | _ => false

/-- The types that are made of simple ones by arrays and by unions as they are once they are
built. -/
inductive Structural : Ty → Prop where
  | simple {t : Ty} (h : t.isSimple = true) : Structural t
  | array {item : Ty} (h : Structural item) : Structural (.array item)
  | union {members : List Ty} (hnormal : Normal members) (h : ∀ m ∈ members, Structural m) :
      Structural (.union members)

mutual

def arrayDepth (t : Ty) : Nat :=
  match t with
  | .array item => arrayDepth item + 1
  | .union members => listArrayDepth members
  | _ => 0
termination_by structural t

def listArrayDepth (ts : List Ty) : Nat :=
  match ts with
  | [] => 0
  | t :: ts => max (arrayDepth t) (listArrayDepth ts)
termination_by structural ts

end

mutual

/-- Whether each alternative of a type is `never`, equal to an alternative of another type, a
constant of it, or an array whose items are below. -/
def isBelow (a b : Ty) : Bool :=
  match a with
  | .never => true
  | .union members => allBelow members b
  | .array item => b.alternatives.any fun
    | .array item' => isBelow item item'
    | _ => false
  | a => b.alternatives.any fun t => beq a t || constFits a t
termination_by structural a

def allBelow (as : List Ty) (b : Ty) : Bool :=
  match as with
  | [] => true
  | a :: as => isBelow a b && allBelow as b
termination_by structural as

end

variable {a b c t u : Ty} {ts : List Ty}

theorem listArrayDepth_le_iff {n : Nat} : listArrayDepth ts ≤ n ↔ ∀ t ∈ ts, t.arrayDepth ≤ n := by
  induction ts with
  | nil => simp [listArrayDepth]
  | cons t ts ih => rw [listArrayDepth, Nat.max_le, ih, List.forall_mem_cons]

theorem arrayDepth_of_mem (h : t ∈ ts) : t.arrayDepth ≤ (union ts).arrayDepth :=
  listArrayDepth_le_iff.1 (Nat.le_refl _) t h

theorem allBelow_eq (as : List Ty) (b : Ty) : allBelow as b = as.all fun a => isBelow a b := by
  induction as with
  | nil => rfl
  | cons a as ih => rw [allBelow, ih, List.all_cons]

theorem Structural.item (h : Structural (.array t)) : Structural t := by
  cases h with
  | simple h => cases h
  | array h => exact h

theorem Structural.members (h : Structural (.union ts)) : Normal ts ∧ ∀ m ∈ ts, Structural m := by
  cases h with
  | simple h => cases h
  | union hnormal h => exact ⟨hnormal, h⟩

theorem Structural.shape (h : Structural t) :
    t.isSimple = true ∨ (∃ item, t = .array item) ∨ ∃ members, t = .union members := by
  cases h with
  | simple h => exact .inl h
  | array => exact .inr (.inl ⟨_, rfl⟩)
  | union => exact .inr (.inr ⟨_, rfl⟩)

theorem Structural.exists_item (h : Structural t) (hsimple : t.isSimple = false)
    (hunion : t.isUnion = false) : ∃ item, t = .array item := by
  rcases h.shape with hsimple' | hitem | ⟨members, rfl⟩
  · rw [hsimple] at hsimple'
    cases hsimple'
  · exact hitem
  · cases hunion

theorem Structural.alternatives (h : Structural t) : ∀ a ∈ t.alternatives, Structural a := by
  cases hunion : t.isUnion with
  | false =>
    rw [alternatives_of_not_union hunion]
    simpa using h
  | true =>
    obtain ⟨members, rfl⟩ := exists_members hunion
    rw [h.members.1.alternatives_eq]
    exact h.members.2

@[simp] theorem isBelow_never (b : Ty) : isBelow .never b = true := rfl

theorem isBelow_iff_exists (ha : a.isUnion = false) (hnever : a ≠ .never) :
    isBelow a b = true ↔ ∃ t ∈ b.alternatives, isBelow a t = true := by
  obtain ⟨fits, hfits⟩ : ∃ fits : Ty → Bool, ∀ b, isBelow a b = b.alternatives.any fits := by
    cases a with
    | never => exact absurd rfl hnever
    | union => cases ha
    | _ => exact ⟨_, fun _ => rfl⟩
  have halone {t : Ty} (ht : t ∈ b.alternatives) : isBelow a t = fits t := by
    rw [hfits, alternatives_of_not_union (not_union_of_mem_alternatives b t ht), List.any_cons,
      List.any_nil, Bool.or_false]
  rw [hfits, List.any_eq_true]
  exact exists_congr fun t => and_congr_right fun ht => by rw [halone ht]

theorem isBelow_of_mem_alternatives (ha : a.isUnion = false) (ht : t ∈ b.alternatives)
    (h : isBelow a t = true) : isBelow a b = true := by
  by_cases hnever : a = .never
  · rw [hnever, isBelow_never]
  · exact (isBelow_iff_exists ha hnever).2 ⟨t, ht, h⟩

theorem exists_isBelow_of_isBelow (ha : a.isUnion = false) (h : isBelow a b = true) :
    a = .never ∨ ∃ t ∈ b.alternatives, isBelow a t = true :=
  or_iff_not_imp_left.2 fun hnever => (isBelow_iff_exists ha hnever).1 h

theorem isBelow_union_left (members : List Ty) (b : Ty) :
    isBelow (.union members) b = members.all fun m => isBelow m b :=
  allBelow_eq members b

theorem isBelow_union_right {members : List Ty} (hnormal : Normal members)
    (ha : a.isUnion = false) : isBelow a (.union members) = members.any fun m => isBelow a m := by
  rw [Bool.eq_iff_iff, List.any_eq_true]
  constructor
  · intro h
    rcases exists_isBelow_of_isBelow ha h with rfl | ⟨m, hm, h⟩
    · obtain ⟨m, hm⟩ :=
        List.exists_mem_of_length_pos (Nat.lt_of_lt_of_le Nat.two_pos hnormal.two_le)
      exact ⟨m, hm, rfl⟩
    · exact ⟨m, hnormal.alternatives_eq ▸ hm, h⟩
  · rintro ⟨m, hm, h⟩
    exact isBelow_of_mem_alternatives ha (hnormal.alternatives_eq.symm ▸ hm) h

theorem Structural.isBelow_iff (ha : Structural a) : isBelow a b = true ↔
    ∀ t ∈ a.alternatives, isBelow t b = true := by
  cases hunion : a.isUnion with
  | false => simp [alternatives_of_not_union hunion]
  | true =>
    obtain ⟨members, rfl⟩ := exists_members hunion
    rw [ha.members.1.alternatives_eq, isBelow_union_left, List.all_eq_true]

theorem isBelow_array (item b : Ty) : isBelow (.array item) b = b.alternatives.any fun
    | .array item' => isBelow item item'
    | _ => false := rfl

theorem isBelow_array_iff : isBelow (.array t) b = true ↔ ∃ u, .array u ∈ b.alternatives ∧
    isBelow t u = true := by
  rw [isBelow_array, List.any_eq_true]
  constructor
  · rintro ⟨u, hu, h⟩
    cases u with
    | array u => exact ⟨u, hu, h⟩
    | _ => cases h
  · rintro ⟨u, hu, h⟩
    exact ⟨_, hu, h⟩

theorem isBelow_simple (ha : a.isSimple = true) (hnever : a ≠ .never) (hb : b.isUnion = false) :
    isBelow a b = (beq a b || constFits a b) := by
  have hany : isBelow a b = b.alternatives.any fun t => beq a t || constFits a t := by
    cases a with
    | never => exact absurd rfl hnever
    | union | array => cases ha
    | _ => rfl
  rw [hany, alternatives_of_not_union hb, List.any_cons, List.any_nil, Bool.or_false]

theorem isBelow_eq_constFits (ha : Structural a) (hunion : a.isUnion = false)
    (hunion' : b.isUnion = false) (hnever : a ≠ .never) (hne : beq a b = false)
    (h : a.isSimple = true ∨ b.isSimple = true) : isBelow a b = constFits a b := by
  cases hsimple : a.isSimple with
  | true => rw [isBelow_simple hsimple hnever hunion', hne, Bool.false_or]
  | false =>
    obtain ⟨item, rfl⟩ := ha.exists_item hsimple hunion
    rw [isBelow_array, alternatives_of_not_union hunion']
    cases b <;> first | rfl | (rcases h with h | h <;> cases h)

theorem not_union_of_isSimple (h : a.isSimple = true) : a.isUnion = false := by
  cases a <;> first | rfl | cases h

theorem eq_of_beq_simple (ha : a.isSimple = true) (h : beq a b = true) : a = b := by
  cases a <;> cases b <;> first | rfl | cases h | exact congrArg _ (beq_iff_eq.1 h) | cases ha

theorem isBelow_of_beq (ha : Structural a) (hb : Structural b) (h : beq a b = true) :
    isBelow a b = true := by
  induction ha generalizing b with
  | @simple a ha =>
    obtain rfl := eq_of_beq_simple ha h
    by_cases hnever : a = .never
    · rw [hnever, isBelow_never]
    · rw [isBelow_simple ha hnever (not_union_of_isSimple ha), h, Bool.true_or]
  | array _ ih =>
    cases b with
    | array item' =>
      exact isBelow_array_iff.2 ⟨item', .head _, ih hb.item h⟩
    | _ => cases h
  | union hnormal _ ih =>
    cases b with
    | union members' =>
      rw [isBelow_union_left, List.all_eq_true]
      intro m hm
      obtain ⟨m', hm', hbeq⟩ := (beq_union_iff.1 h).2 m hm
      rw [isBelow_union_right hb.members.1 (hnormal.single m hm).1, List.any_eq_true]
      exact ⟨m', hm', ih m hm (hb.members.2 m' hm') hbeq⟩
    | _ => cases h

theorem isBelow_refl (ha : Structural a) : isBelow a a = true := isBelow_of_beq ha ha (beq_refl a)

theorem isBelow_trans_simple (ha : a.isSimple = true) (hb : b.isUnion = false)
    (hc : c.isUnion = false) (hab : isBelow a b = true) (hbc : isBelow b c = true) :
    isBelow a c = true := by
  by_cases hnever : a = .never
  · rw [hnever, isBelow_never]
  rw [isBelow_simple ha hnever hb, Bool.or_eq_true] at hab
  rcases hab with hbeq | hfits
  · exact eq_of_beq_simple ha hbeq ▸ hbc
  rw [isBelow_simple ha hnever hc, Bool.or_eq_true]
  -- what has constants is not a constant, so that little is above it
  simp only [constFits] at hfits
  split at hfits
  case h_6 => cases hfits
  all_goals
    rw [isBelow_simple rfl (by simp) hc, Bool.or_eq_true] at hbc
    rcases hbc with hbc | hbc
    · obtain rfl := eq_of_beq_simple rfl hbc
      exact .inr rfl
    · cases c <;> first | cases hbc; done | exact .inr rfl

theorem isBelow_trans (ha : Structural a) (hb : Structural b) (hab : isBelow a b = true)
    (hbc : isBelow b c = true) : isBelow a c = true := by
  induction ha generalizing b c with
  | @simple a ha =>
    have hunion := not_union_of_isSimple ha
    rcases exists_isBelow_of_isBelow hunion hab with rfl | ⟨t, ht, hat⟩
    · rw [isBelow_never]
    have ht' := not_union_of_mem_alternatives b t ht
    rcases exists_isBelow_of_isBelow ht' (hb.isBelow_iff.1 hbc t ht) with rfl | ⟨u, hu, htu⟩
    · by_cases hnever : a = .never
      · rw [hnever, isBelow_never]
      · rw [isBelow_simple ha hnever rfl] at hat
        cases a <;> first | exact absurd rfl hnever | cases hat
    · exact isBelow_of_mem_alternatives hunion hu
        (isBelow_trans_simple ha ht' (not_union_of_mem_alternatives c u hu) hat htu)
  | array _ ih =>
    obtain ⟨t, ht, hat⟩ := isBelow_array_iff.1 hab
    obtain ⟨u, hu, htu⟩ := isBelow_array_iff.1 (hb.isBelow_iff.1 hbc _ ht)
    exact isBelow_array_iff.2 ⟨u, hu, ih (hb.alternatives _ ht).item hat htu⟩
  | union _ _ ih =>
    rw [isBelow_union_left, List.all_eq_true] at hab ⊢
    exact fun m hm => ih m hm hb (hab m hm) hbc

theorem Structural.of_mem_allAlternatives (hts : ∀ t ∈ ts, Structural t)
    (ha : a ∈ allAlternatives ts) : Structural a := by
  obtain ⟨t, ht, ha⟩ := mem_allAlternatives.1 ha
  exact (hts t ht).alternatives a ha

theorem structural_unionOf (hts : ∀ t ∈ ts, Structural t) : unionOf ts = .unknown ∨
    Structural (unionOf ts) := by
  obtain ⟨members, hunion, hfrom, hcases⟩ := unionOf_cases ts
  have hmember {m : Ty} (hm : m ∈ members) : Structural m := by
    rcases hfrom m hm with rfl | hm
    · exact .simple rfl
    · exact .of_mem_allAlternatives hts hm
  rw [hunion]
  rcases hcases with rfl | ⟨t, rfl⟩ | hnormal
  · exact .inl rfl
  · exact .inr (hmember (.head _))
  · rw [ofMembers_of_two_le hnormal.two_le]
    exact .inr (.union hnormal fun m => hmember)

theorem isBelow_unionOf (hts : ∀ t ∈ ts, Structural t) (ha : a ∈ ts)
    (hknown : unionOf ts ≠ .unknown) : isBelow a (unionOf ts) = true := by
  have halternatives : (unionOf ts).alternatives = unionMembers ts := by
    rw [unionOf_eq, alternatives_ofMembers (reduced_unionMembers ts), if_neg]
    intro hnil
    rw [unionOf_eq, hnil] at hknown
    exact hknown rfl
  have hmember {m : Ty} (hm : m ∈ unionMembers ts) : Structural m := by
    rcases mem_unionMembers hm with rfl | hm
    · exact .simple rfl
    · exact .of_mem_allAlternatives hts (List.mem_of_mem_filter hm)
  rw [(hts a ha).isBelow_iff]
  intro t ht
  have htunion := not_union_of_mem_alternatives a t ht
  have hstructural := (hts a ha).alternatives t ht
  have hin : t ∈ allAlternatives ts := mem_allAlternatives.2 ⟨a, ha, ht⟩
  have habove {m : Ty} (hm : m ∈ unionMembers ts) (h : isBelow t m = true) :
      isBelow t (unionOf ts) = true :=
    isBelow_of_mem_alternatives htunion (halternatives ▸ hm) h
  by_cases hpoint : t.isPoint = true
  · rcases (covers_unionMembers hpoint).2 (covers_self hin) with ⟨m, hm, hbeq⟩ | ⟨hconst, hboolean⟩
    · exact habove hm (isBelow_of_beq hstructural (hmember hm) hbeq)
    · obtain ⟨value, rfl⟩ := exists_boolConst hconst
      exact habove hboolean rfl
  · cases t with
    | never => rw [isBelow_never]
    | unknown => cases hstructural with | simple h => cases h
    | boolean =>
      -- its two constants cannot both be left in its place
      have hleft (value : Bool) : .boolConst value ∈ unionMembers ts ∨
          .boolean ∈ unionMembers ts := by
        rcases (covers_unionMembers (a := .boolConst value) rfl).2 (.inr ⟨rfl, hin⟩) with ⟨m, hm,
          hbeq⟩ | ⟨-, hboolean⟩
        · exact .inl (eq_boolConst_of_beq hbeq ▸ hm)
        · exact .inr hboolean
      rcases hleft true, hleft false with ⟨htrue | h, hfalse | h⟩
      · exact absurd hfalse ((reduced_unionMembers ts).apart.2 true htrue)
      all_goals exact habove h rfl
    | _ => exact absurd rfl hpoint

end LuaAnalysis.Types.Ty
