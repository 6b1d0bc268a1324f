import Mathlib.Data.List.Basic
import LuaAnalysis.Types.Union

/-!
What the members of a union that was built are like, and which lists of types are those of a union
already.
-/

namespace LuaAnalysis.Types.Ty

theorem allIn_eq (as bs : List Ty) : allIn as bs = as.all fun a => bs.any (beq a) := by
  induction as with
  | nil => rfl
  | cons a as ih => rw [allIn, ih, List.all_cons]

theorem beq_union_perm {as as' bs bs' : List Ty} (h : as.Perm as') (h' : bs.Perm bs') :
    beq (.union as) (.union bs) = beq (.union as') (.union bs') := by
  have hall : allIn as bs = allIn as' bs' := by
    rw [allIn_eq, allIn_eq, h.all_eq]
    exact congrArg (List.all as') (funext fun a => h'.any_eq)
  rw [beq, beq, h.length_eq, h'.length_eq, hall]

theorem allAlternatives_eq (ts : List Ty) : allAlternatives ts = ts.flatMap alternatives := by
  induction ts with
  | nil => rfl
  | cons t ts ih => rw [allAlternatives, ih, List.flatMap_cons]

theorem mem_allAlternatives {ts : List Ty} {a : Ty} : a ∈ allAlternatives ts ↔
    ∃ t ∈ ts, a ∈ alternatives t := by
  rw [allAlternatives_eq, List.mem_flatMap]

theorem alternatives_of_not_union {t : Ty} (h : t.isUnion = false) : alternatives t = [t] := by
  cases t with
  | union members => cases h
  | _ => rfl

mutual

theorem not_union_of_mem_alternatives (t : Ty) : ∀ a ∈ alternatives t, a.isUnion = false := by
  cases t with
  | union members => exact not_union_of_mem_allAlternatives members
  | _ => simp [alternatives, isUnion]

theorem not_union_of_mem_allAlternatives (ts : List Ty) :
    ∀ a ∈ allAlternatives ts, a.isUnion = false := by
  cases ts with
  | nil => simp [allAlternatives]
  | cons t ts =>
    rw [allAlternatives]
    intro a ha
    rcases List.mem_append.1 ha with ha | ha
    · exact not_union_of_mem_alternatives t a ha
    · exact not_union_of_mem_allAlternatives ts a ha

end

theorem allAlternatives_of_not_union {ts : List Ty} (h : ∀ t ∈ ts, t.isUnion = false) :
    allAlternatives ts = ts := by
  induction ts with
  | nil => rfl
  | cons t ts ih =>
    obtain ⟨ht, hts⟩ := List.forall_mem_cons.1 h
    rw [allAlternatives, alternatives_of_not_union ht, ih hts, List.singleton_append]

def Distinct (ts : List Ty) : Prop := ts.Pairwise fun a b => beq b a = false

theorem dedupFrom_sublist (seen ts : List Ty) : (dedupFrom seen ts).Sublist ts := by
  induction ts generalizing seen with
  | nil => exact .slnil
  | cons t ts ih =>
    rw [dedupFrom]
    split
    · exact (ih seen).cons t
    · exact (ih (t :: seen)).cons_cons t

theorem distinct_dedupFrom (seen ts : List Ty) :
    Distinct (dedupFrom seen ts) ∧ ∀ t ∈ dedupFrom seen ts, seen.any (beq t) = false := by
  induction ts generalizing seen with
  | nil => exact ⟨.nil, by simp [dedupFrom]⟩
  | cons t ts ih =>
    rw [dedupFrom]
    split
    · exact ih seen
    · rename_i ht
      obtain ⟨hdistinct, hnew⟩ := ih (t :: seen)
      have hnew : ∀ u ∈ dedupFrom (t :: seen) ts, beq u t = false ∧ seen.any (beq u) = false :=
        fun u hu => by simpa only [List.any_cons, Bool.or_eq_false_iff] using hnew u hu
      refine ⟨.cons (fun u hu => (hnew u hu).1) hdistinct, fun u hu => ?_⟩
      rcases List.mem_cons.1 hu with rfl | hu
      · simpa using ht
      · exact (hnew u hu).2

theorem dedupFrom_append {seen ts us : List Ty} (h : Distinct ts)
    (hseen : ∀ t ∈ ts, seen.any (beq t) = false) :
    dedupFrom seen (ts ++ us) = ts ++ dedupFrom (ts.reverse ++ seen) us := by
  induction ts generalizing seen with
  | nil => rfl
  | cons t ts ih =>
    obtain ⟨ht, hts⟩ := List.pairwise_cons.1 h
    obtain ⟨hfirst, hrest⟩ := List.forall_mem_cons.1 hseen
    have hnew : ∀ u ∈ ts, (t :: seen).any (beq u) = false := fun u hu => by
      rw [List.any_cons, ht u hu, hrest u hu, Bool.or_false]
    rw [List.cons_append, dedupFrom, hfirst, if_neg (by simp), ih hts hnew, List.reverse_cons,
      List.append_assoc, List.singleton_append, List.cons_append]

theorem dedup_of_distinct {ts : List Ty} (h : Distinct ts) : dedup ts = ts := by
  rw [dedup, ← List.append_nil ts, dedupFrom_append h (by simp)]
  rfl

theorem dedupFrom_of_seen {seen ts : List Ty} (h : ∀ t ∈ ts, seen.any (beq t) = true) :
    dedupFrom seen ts = [] := by
  induction ts with
  | nil => rfl
  | cons t ts ih =>
    obtain ⟨ht, hts⟩ := List.forall_mem_cons.1 h
    rw [dedupFrom, ht, if_pos rfl, ih hts]

theorem isBoolConst_of_beq {value : Bool} {t : Ty} (h : beq (.boolConst value) t = true) :
    t.isBoolConst = true := by
  cases t with
  | boolConst value' => rfl
  | _ => cases h

theorem eq_boolean_of_beq {t : Ty} (h : beq .boolean t = true) : t = .boolean := by
  cases t with
  | boolean => rfl
  | _ => cases h

theorem mem_of_mem_mergeBooleans {ts : List Ty} {t : Ty} (h : t ∈ mergeBooleans ts) :
    t ∈ ts ∨ t = .boolean := by
  unfold mergeBooleans at h
  split at h
  · exact .inl (List.mem_filter.1 h).1
  · split at h
    · rcases List.mem_append.1 h with h | h
      · exact .inl (List.mem_filter.1 h).1
      · exact .inr (List.mem_singleton.1 h)
    · exact .inl h

theorem distinct_mergeBooleans {ts : List Ty} (h : Distinct ts) : Distinct (mergeBooleans ts) := by
  unfold mergeBooleans
  split
  · exact h.filter _
  · rename_i hboolean
    split
    · refine List.pairwise_append.2 ⟨h.filter _, List.pairwise_singleton .., fun t ht u hu => ?_⟩
      rw [List.mem_singleton.1 hu]
      by_contra hbeq
      exact hboolean (List.any_eq_true.2 ⟨t, (List.mem_filter.1 ht).1, by simpa using hbeq⟩)
    · exact h

theorem mergeBooleans_mergeBooleans (ts : List Ty) :
    mergeBooleans (mergeBooleans ts) = mergeBooleans ts := by
  by_cases hboolean : ts.any (beq .boolean) = true
  · have hmerge : mergeBooleans ts = ts.filter fun t => !t.isBoolConst := by
      rw [mergeBooleans, if_pos hboolean]
    obtain ⟨t, ht, hbeq⟩ := List.any_eq_true.1 hboolean
    obtain rfl := eq_boolean_of_beq hbeq
    have hstill : (ts.filter fun t => !t.isBoolConst).any (beq .boolean) = true :=
      List.any_eq_true.2 ⟨.boolean, List.mem_filter.2 ⟨ht, rfl⟩, rfl⟩
    rw [hmerge, mergeBooleans, if_pos hstill, List.filter_filter]
    simp
  · by_cases hboth : (ts.any (beq (.boolConst true)) && ts.any (beq (.boolConst false))) = true
    · have hmerge : mergeBooleans ts = ts.filter (fun t => !t.isBoolConst) ++ [.boolean] := by
        rw [mergeBooleans, if_neg hboolean, if_pos hboth]
      have hstill : (ts.filter (fun t : Ty => !t.isBoolConst) ++ [Ty.boolean]).any
          (beq .boolean) = true :=
        List.any_eq_true.2 ⟨.boolean, List.mem_append_right _ (.head _), rfl⟩
      rw [hmerge, mergeBooleans, if_pos hstill, List.filter_append, List.filter_filter]
      simp [isBoolConst]
    · have hmerge : mergeBooleans ts = ts := by rw [mergeBooleans, if_neg hboolean, if_neg hboth]
      rw [hmerge, hmerge]

/-- The members of a union as they are once it is built. -/
structure Normal (ts : List Ty) : Prop where
  two_le : 2 ≤ ts.length
  single : ∀ t ∈ ts, t.isUnion = false ∧ t.isUnknown = false ∧ t.isNever = false
  distinct : Distinct ts
  merged : mergeBooleans ts = ts

theorem mergeBooleans_eq_self_iff {ts : List Ty} : mergeBooleans ts = ts ↔
    (ts.any (beq .boolean) = true → ∀ t ∈ ts, t.isBoolConst = false) ∧
      (ts.any (beq (.boolConst true)) && ts.any (beq (.boolConst false))) = false := by
  by_cases hboolean : ts.any (beq .boolean) = true
  · rw [mergeBooleans, if_pos hboolean, List.filter_eq_self]
    refine ⟨fun h => ⟨fun _ t ht => by simpa using h t ht, ?_⟩,
      fun h t ht => by simp [h.1 hboolean t ht]⟩
    by_contra hboth
    obtain ⟨htrue, -⟩ := (Bool.and_eq_true_iff.1 (Bool.not_eq_false _ ▸ hboth))
    obtain ⟨t, ht, hbeq⟩ := List.any_eq_true.1 htrue
    have hkept := h t ht
    rw [isBoolConst_of_beq hbeq] at hkept
    cases hkept
  · rw [mergeBooleans, if_neg hboolean]
    split
    · rename_i hboth
      refine ⟨fun h => absurd ?_ hboolean, fun h => ?_⟩
      · rw [← h]
        exact List.any_eq_true.2 ⟨.boolean, List.mem_append_right _ (.head _), rfl⟩
      · rw [h.2] at hboth
        cases hboth
    · rename_i hboth
      exact ⟨fun _ => ⟨fun h => absurd h hboolean, by simpa using hboth⟩, fun _ => rfl⟩

theorem Normal.beside_nil {ts : List Ty} (h : Normal ts)
    (hnil : (ts.length == 2 && ts.any isNil) = true) : ∃ t, t.isNil = false ∧
    (ts = [t, .nil] ∨ ts = [.nil, t]) := by
  have eq_nil {t : Ty} (ht : t.isNil = true) : t = .nil := by cases t <;> first | rfl | cases ht
  rw [Bool.and_eq_true, beq_iff_eq] at hnil
  obtain ⟨hlength, hany⟩ := hnil
  obtain ⟨a, b, rfl⟩ := List.length_eq_two.1 hlength
  have hne : beq b a = false := (List.pairwise_cons.1 h.distinct).1 b (.head _)
  cases ha : a.isNil with
  | false =>
    have hb : b.isNil = true := by simpa [ha] using hany
    exact ⟨a, ha, .inl (by rw [eq_nil hb])⟩
  | true =>
    refine ⟨b, ?_, .inr (by rw [eq_nil ha])⟩
    by_contra hb
    have hb : b.isNil = true := by simpa using hb
    rw [eq_nil ha, eq_nil hb] at hne
    cases hne

theorem ofMembers_of_two_le {ts : List Ty} (h : 2 ≤ ts.length) : ofMembers ts = .union ts := by
  match ts, h with
  | _ :: _ :: _, _ => rfl

/-- Types as they are left when a union is built, before it is known how many there are. -/
structure Reduced (ts : List Ty) : Prop where
  single : ∀ t ∈ ts, t.isUnion = false ∧ t.isUnknown = false ∧ t.isNever = false
  distinct : Distinct ts
  merged : mergeBooleans ts = ts

theorem Normal.reduced {ts : List Ty} (h : Normal ts) : Reduced ts :=
  ⟨h.single, h.distinct, h.merged⟩

theorem Reduced.sublist {ts us : List Ty} (h : Reduced ts) (hsub : us.Sublist ts) : Reduced us := by
  have hany {x : Ty} (hx : us.any (beq x) = true) : ts.any (beq x) = true := by
    obtain ⟨u, hu, hbeq⟩ := List.any_eq_true.1 hx
    exact List.any_eq_true.2 ⟨u, hsub.subset hu, hbeq⟩
  obtain ⟨hboolean, hboth⟩ := mergeBooleans_eq_self_iff.1 h.merged
  refine ⟨fun u hu => h.single u (hsub.subset hu), h.distinct.sublist hsub,
    mergeBooleans_eq_self_iff.2 ⟨?_, ?_⟩⟩
  · exact fun hin u hu => hboolean (hany hin) u (hsub.subset hu)
  · by_contra hconsts
    obtain ⟨htrue, hfalse⟩ := Bool.and_eq_true_iff.1 (Bool.not_eq_false _ ▸ hconsts)
    rw [hany htrue, hany hfalse] at hboth
    cases hboth

theorem unionOf_of_reduced {ts : List Ty} (h : Reduced ts) : unionOf ts = ofMembers ts := by
  have hfilter : ts.filter (fun t => !t.isUnknown && !t.isNever) = ts :=
    List.filter_eq_self.2 fun t ht => by simp [h.single t ht]
  rw [unionOf, allAlternatives_of_not_union fun t ht => (h.single t ht).1, hfilter,
    dedup_of_distinct h.distinct, h.merged]

theorem unionOf_of_normal {ts : List Ty} (h : Normal ts) : unionOf ts = .union ts := by
  rw [unionOf_of_reduced h.reduced, ofMembers_of_two_le h.two_le]

def unionMembers (ts : List Ty) : List Ty :=
  mergeBooleans (dedup ((allAlternatives ts).filter fun t => !t.isUnknown && !t.isNever))

theorem unionOf_eq (ts : List Ty) : unionOf ts = ofMembers (unionMembers ts) := rfl

theorem mem_unionMembers {ts : List Ty} {t : Ty} (h : t ∈ unionMembers ts) :
    t = .boolean ∨ t ∈ (allAlternatives ts).filter fun t => !t.isUnknown && !t.isNever := by
  rcases mem_of_mem_mergeBooleans h with h | h
  · exact .inr ((dedupFrom_sublist [] _).subset h)
  · exact .inl h

theorem reduced_unionMembers (ts : List Ty) : Reduced (unionMembers ts) := by
  refine ⟨fun t ht => ?_, distinct_mergeBooleans (distinct_dedupFrom [] _).1,
    mergeBooleans_mergeBooleans _⟩
  rcases mem_unionMembers ht with rfl | ht
  · exact ⟨rfl, rfl, rfl⟩
  · obtain ⟨hin, hkept⟩ := List.mem_filter.1 ht
    exact ⟨not_union_of_mem_allAlternatives ts t hin, by simpa using hkept⟩

theorem unionOf_cases (ts : List Ty) :
    ∃ members, unionOf ts = ofMembers members ∧
    (∀ t ∈ members, t = .boolean ∨ t ∈ allAlternatives ts) ∧
      (members = [] ∨ (∃ t, members = [t]) ∨ Normal members) := by
  refine ⟨unionMembers ts, unionOf_eq ts,
    fun t ht => (mem_unionMembers ht).imp_right List.mem_of_mem_filter, ?_⟩
  obtain ⟨hsingle, hdistinct, hmerged⟩ := reduced_unionMembers ts
  generalize unionMembers ts = members at *
  match members with
  | [] => exact .inl rfl
  | [t] => exact .inr (.inl ⟨t, rfl⟩)
  | t :: u :: rest => exact .inr (.inr ⟨by simp, hsingle, hdistinct, hmerged⟩)

end LuaAnalysis.Types.Ty
