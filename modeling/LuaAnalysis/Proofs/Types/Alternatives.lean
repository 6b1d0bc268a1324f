import LuaAnalysis.Proofs.Types.Equality

/-!
A union is known by its alternatives, and its alternatives by what they cover: `boolean` covers its
two constants, and every other type itself. The order, repetition and grouping of what a union is
built from does not show in it.
-/

namespace LuaAnalysis.Types.Ty

theorem any_beq_boolean {ts : List Ty} : ts.any (beq .boolean) = true ↔ .boolean ∈ ts := by
  refine List.any_eq_true.trans ⟨?_, fun h => ⟨_, h, rfl⟩⟩
  rintro ⟨t, ht, hbeq⟩
  exact eq_boolean_of_beq hbeq ▸ ht

theorem eq_boolConst_of_beq {value : Bool} {t : Ty} (h : beq (.boolConst value) t = true) :
    t = .boolConst value := by
  cases t with
  | boolConst value' => exact congrArg boolConst (beq_iff_eq.1 h).symm
  | _ => cases h

theorem any_beq_boolConst {ts : List Ty} {value : Bool} : ts.any (beq (.boolConst value)) = true ↔
    .boolConst value ∈ ts := by
  refine List.any_eq_true.trans ⟨?_, fun h => ⟨_, h, beq_refl _⟩⟩
  rintro ⟨t, ht, hbeq⟩
  exact eq_boolConst_of_beq hbeq ▸ ht

theorem exists_boolConst {t : Ty} (h : t.isBoolConst = true) : ∃ value, t = .boolConst value := by
  cases t with
  | boolConst value => exact ⟨value, rfl⟩
  | _ => cases h

theorem Reduced.apart {ts : List Ty} (h : Reduced ts) :
    (∀ value, .boolean ∈ ts → .boolConst value ∉ ts) ∧ ∀ value, .boolConst value ∈ ts →
    .boolConst (!value) ∉ ts := by
  obtain ⟨hboolean, hboth⟩ := mergeBooleans_eq_self_iff.1 h.merged
  refine ⟨fun value hin hconst => ?_, fun value hin hother => ?_⟩
  · have hfalse := hboolean (any_beq_boolean.2 hin) _ hconst
    cases hfalse
  · have htrue : ts.any (beq (.boolConst true)) = true := by
      cases value <;> simpa only [any_beq_boolConst]
    have hfalse : ts.any (beq (.boolConst false)) = true := by
      cases value <;> simpa only [any_beq_boolConst]
    rw [htrue, hfalse] at hboth
    cases hboth

/-- Whether a type stands for itself in unions, which `boolean` does not, and what is left out of
them. -/
def isPoint : Ty → Bool
  | .boolean | .unknown | .never => false
  | _ => true

/-- Whether a type is among others, or is a constant of the `boolean` that is. -/
def Covers (ts : List Ty) (a : Ty) : Prop :=
  (∃ t ∈ ts, beq a t = true) ∨ (a.isBoolConst = true ∧ .boolean ∈ ts)

variable {ts us : List Ty} {a : Ty}

theorem covers_append : Covers (ts ++ us) a ↔ Covers ts a ∨ Covers us a := by
  simp only [Covers, List.mem_append, or_and_right, exists_or, and_or_left]
  exact or_or_or_comm

theorem covers_self {t : Ty} (h : t ∈ ts) : Covers ts t := .inl ⟨t, h, beq_refl t⟩

theorem isPoint_of_beq {a t : Ty} (ha : a.isPoint = true) (h : beq a t = true) :
    t.isPoint = true := by
  cases a with
  | boolean | unknown | never => cases ha
  | _ => cases t <;> first | rfl | cases h

theorem isBoolConst_eq_of_beq {t : Ty} (h : beq a t = true) : t.isBoolConst = a.isBoolConst := by
  cases a <;> cases t <;> first | rfl | cases h

theorem not_covers_singleton {t : Ty} (ha : a.isPoint = true) (ht : t.isPoint = false)
    (hboolean : t ≠ .boolean) : ¬ Covers [t] a := by
  rintro (⟨u, hu, hbeq⟩ | ⟨-, hin⟩)
  · obtain rfl := List.mem_singleton.1 hu
    rw [isPoint_of_beq ha hbeq] at ht
    cases ht
  · exact hboolean (List.mem_singleton.1 hin).symm

theorem covers_kept (ha : a.isPoint = true) :
    Covers (ts.filter fun t => !t.isUnknown && !t.isNever) a ↔ Covers ts a := by
  have hkept {t : Ty} (ht : t.isPoint = true) : (!t.isUnknown && !t.isNever) = true := by
    cases t <;> first | rfl | cases ht
  refine or_congr ⟨?_, ?_⟩ (and_congr_right fun _ => ?_)
  · rintro ⟨t, ht, hbeq⟩
    exact ⟨t, List.mem_of_mem_filter ht, hbeq⟩
  · rintro ⟨t, ht, hbeq⟩
    exact ⟨t, List.mem_filter.2 ⟨ht, hkept (isPoint_of_beq ha hbeq)⟩, hbeq⟩
  · exact ⟨List.mem_of_mem_filter, fun h => List.mem_filter.2 ⟨h, rfl⟩⟩

theorem exists_beq_dedupFrom (seen : List Ty) :
    (∃ t ∈ seen ++ dedupFrom seen ts, beq a t = true) ↔ ∃ t ∈ seen ++ ts, beq a t = true := by
  induction ts generalizing seen with
  | nil => rfl
  | cons t ts ih =>
    rw [dedupFrom]
    split
    · rename_i hseen
      obtain ⟨u, hu, htu⟩ := List.any_eq_true.1 hseen
      rw [ih]
      simp only [List.mem_append, List.mem_cons]
      constructor
      · rintro ⟨v, hv, hav⟩
        exact ⟨v, hv.imp_right .inr, hav⟩
      · rintro ⟨v, hv | rfl | hv, hav⟩
        · exact ⟨v, .inl hv, hav⟩
        · exact ⟨u, .inl hu, beq_trans hav htu⟩
        · exact ⟨v, .inr hv, hav⟩
    · have hnext := ih (t :: seen)
      simp only [List.mem_append, List.mem_cons, or_assoc, or_left_comm] at hnext ⊢
      simpa only [or_left_comm] using hnext

theorem covers_dedup : Covers (dedup ts) a ↔ Covers ts a := by
  have hany {a : Ty} : (∃ t ∈ dedup ts, beq a t = true) ↔ ∃ t ∈ ts, beq a t = true :=
    exists_beq_dedupFrom []
  rw [Covers, Covers, hany, ← any_beq_boolean, ← any_beq_boolean, List.any_eq_true,
    List.any_eq_true, hany]

theorem covers_of_boolean (ha : a.isPoint = true) (hconsts : ∀ value, Covers ts (.boolConst value))
    (hboolean : .boolean ∈ us) (hothers : ∀ t, t.isBoolConst = false → t ≠ .boolean →
      (t ∈ us ↔ t ∈ ts)) : Covers us a ↔ Covers ts a := by
  cases hconst : a.isBoolConst with
  | true =>
    obtain ⟨value, rfl⟩ := exists_boolConst hconst
    exact iff_of_true (.inr ⟨rfl, hboolean⟩) (hconsts value)
  | false =>
    have hsame {t : Ty} (hbeq : beq a t = true) : t ∈ us ↔ t ∈ ts := by
      refine hothers t ((isBoolConst_eq_of_beq hbeq).trans hconst) ?_
      rintro rfl
      cases isPoint_of_beq ha hbeq
    refine or_congr (exists_congr fun t => and_congr_left hsame) ?_
    simp [hconst]

theorem covers_mergeBooleans (ha : a.isPoint = true) : Covers (mergeBooleans ts) a ↔
    Covers ts a := by
  unfold mergeBooleans
  split
  · rename_i hboolean
    have hin := any_beq_boolean.1 hboolean
    refine covers_of_boolean ha (fun value => .inr ⟨rfl, hin⟩) (List.mem_filter.2 ⟨hin, rfl⟩)
      fun t ht _ => ?_
    simp [ht]
  · split
    · rename_i hboth
      obtain ⟨htrue, hfalse⟩ := Bool.and_eq_true_iff.1 hboth
      have hconsts : ∀ value, .boolConst value ∈ ts :=
        Bool.forall_bool.2 ⟨any_beq_boolConst.1 hfalse, any_beq_boolConst.1 htrue⟩
      refine covers_of_boolean ha (fun value => covers_self (hconsts value)) (by simp)
        fun t ht hne => ?_
      simp [ht, hne]
    · rfl

theorem covers_unionMembers (ha : a.isPoint = true) : Covers (unionMembers ts) a ↔
    Covers (allAlternatives ts) a :=
  (covers_mergeBooleans ha).trans (covers_dedup.trans (covers_kept ha))

theorem covers_unionOf (ha : a.isPoint = true) : Covers (unionOf ts).alternatives a ↔
    Covers (allAlternatives ts) a := by
  rw [unionOf_eq, alternatives_ofMembers (reduced_unionMembers ts), ← covers_unionMembers ha]
  split
  · rename_i hnil
    rw [hnil]
    cases a with
    | unknown => cases ha
    | _ => simp [Covers, beq]
  · rfl

theorem isPoint_of_single {t : Ty} (h : t.isUnknown = false ∧ t.isNever = false)
    (hboolean : t ≠ .boolean) : t.isPoint = true := by
  cases t with
  | unknown => cases h.1
  | never => cases h.2
  | boolean => exact absurd rfl hboolean
  | _ => rfl

theorem exists_beq_of_covers (hts : Reduced ts) (hus : Reduced us)
    (h : ∀ a, a.isPoint = true → (Covers ts a ↔ Covers us a)) :
    ∀ t ∈ ts, ∃ u ∈ us, beq t u = true := by
  intro t ht
  by_cases hboolean : t = .boolean
  · subst hboolean
    by_contra hmissing
    have hmissing : .boolean ∉ us := fun hu => hmissing ⟨_, hu, rfl⟩
    -- both constants would have to be there in its place
    have hconsts : ∀ value, .boolConst value ∈ us := by
      intro value
      rcases (h (.boolConst value) rfl).1 (.inr ⟨rfl, ht⟩) with ⟨u, hu, hbeq⟩ | ⟨-, hu⟩
      · exact eq_boolConst_of_beq hbeq ▸ hu
      · exact absurd hu hmissing
    exact hus.apart.2 true (hconsts true) (hconsts false)
  · have hpoint : t.isPoint = true := isPoint_of_single (hts.single t ht).2 hboolean
    rcases (h t hpoint).1 (covers_self ht) with hfound | ⟨hconst, hu⟩
    · exact hfound
    · obtain ⟨value, rfl⟩ := exists_boolConst hconst
      -- `boolean` on the other side covers the other constant, which is not here
      rcases (h (.boolConst !value) rfl).2 (.inr ⟨rfl, hu⟩) with ⟨u, hother, hbeq⟩ | ⟨-, hin⟩
      · exact absurd (eq_boolConst_of_beq hbeq ▸ hother) (hts.apart.2 value ht)
      · exact absurd ht (hts.apart.1 value hin)

theorem length_le_of_exists_beq (hts : Reduced ts) (hnormal : ∀ t ∈ ts, Normalized t)
    (h : ∀ t ∈ ts, ∃ u ∈ us, beq t u = true) : ts.length ≤ us.length := by
  obtain ⟨paired, rest, hperm, hpaired⟩ :=
    exists_equalEach hts.distinct (fun t ht _ _ => beq_symm (hnormal t ht)) h
  rw [hperm.length_eq, List.length_append, hpaired.length_eq]
  exact Nat.le_add_right _ _

theorem beq_ofMembers (hts : Reduced ts) (hus : Reduced us) (hnormal : ∀ t ∈ ts, Normalized t)
    (hnormal' : ∀ u ∈ us, Normalized u) (h : ∀ t ∈ ts, ∃ u ∈ us, beq t u = true)
    (h' : ∀ u ∈ us, ∃ t ∈ ts, beq u t = true) :
    beq (ofMembers ts) (ofMembers us) = true := by
  have hlength : ts.length = us.length :=
    Nat.le_antisymm (length_le_of_exists_beq hts hnormal h)
      (length_le_of_exists_beq hus hnormal' h')
  match ts, us, hlength with
  | [], [], _ => rfl
  | [t], [u], _ =>
    obtain ⟨u', hu', hbeq⟩ := h t (.head _)
    exact List.mem_singleton.1 hu' ▸ hbeq
  | _ :: _ :: _, _ :: _ :: _, hlength => exact beq_union_iff.2 ⟨hlength, h⟩

theorem Normalized.of_mem_unionMembers (h : ∀ t ∈ ts, Normalized t) {t : Ty}
    (ht : t ∈ unionMembers ts) : Normalized t := by
  rcases mem_unionMembers ht with rfl | ht
  · exact .made rfl (by simp [Ty.children])
  · obtain ⟨u, hu, ht⟩ := mem_allAlternatives.1 (List.mem_of_mem_filter ht)
    exact (h u hu).alternatives ht

theorem beq_unionOf_of_covers (hts : ∀ t ∈ ts, Normalized t) (hus : ∀ u ∈ us, Normalized u)
    (h : ∀ a, a.isPoint = true → (Covers (allAlternatives ts) a ↔ Covers (allAlternatives us) a)) :
    beq (unionOf ts) (unionOf us) = true := by
  have hsame : ∀ a, a.isPoint = true → (Covers (unionMembers ts) a ↔ Covers (unionMembers us) a) :=
    fun a ha => (covers_unionMembers ha).trans ((h a ha).trans (covers_unionMembers ha).symm)
  have hreduced := reduced_unionMembers ts
  have hreduced' := reduced_unionMembers us
  exact beq_ofMembers hreduced hreduced' (fun t => .of_mem_unionMembers hts)
    (fun u => .of_mem_unionMembers hus) (exists_beq_of_covers hreduced hreduced' hsame)
    (exists_beq_of_covers hreduced' hreduced fun a ha => (hsame a ha).symm)

theorem exists_beq_alternatives {t u : Ty} (ht : Normalized t) (hu : Normalized u)
    (h : beq t u = true) : ∀ x ∈ t.alternatives, ∃ y ∈ u.alternatives, beq x y = true := by
  have hunion := isUnion_of_beq h
  cases htu : t.isUnion with
  | false =>
    rw [alternatives_of_not_union htu, alternatives_of_not_union (hunion.trans htu)]
    simpa using h
  | true =>
    obtain ⟨ts, rfl⟩ := exists_members htu
    obtain ⟨us, rfl⟩ := exists_members hunion
    rw [ht.normal.alternatives_eq, hu.normal.alternatives_eq]
    exact (beq_union_iff.1 h).2

theorem Covers.mono (hts : ∀ t ∈ ts, Normalized t) (hus : ∀ u ∈ us, Normalized u)
    (h : ∀ t ∈ ts, ∃ u ∈ us, beq t u = true) (hcovers : Covers (allAlternatives ts) a) :
    Covers (allAlternatives us) a := by
  have hfind {x : Ty} (hx : x ∈ allAlternatives ts) : ∃ y ∈ allAlternatives us, beq x y = true := by
    obtain ⟨t, ht, hx⟩ := mem_allAlternatives.1 hx
    obtain ⟨u, hu, htu⟩ := h t ht
    obtain ⟨y, hy, hxy⟩ := exists_beq_alternatives (hts t ht) (hus u hu) htu x hx
    exact ⟨y, mem_allAlternatives.2 ⟨u, hu, hy⟩, hxy⟩
  rcases hcovers with ⟨x, hx, hax⟩ | ⟨hconst, hboolean⟩
  · obtain ⟨y, hy, hxy⟩ := hfind hx
    exact .inl ⟨y, hy, beq_trans hax hxy⟩
  · obtain ⟨y, hy, hxy⟩ := hfind hboolean
    exact .inr ⟨hconst, eq_boolean_of_beq hxy ▸ hy⟩

/-- How a type is put together: types are united, by `union2` if there are two, and what comes out
may be united with others. -/
inductive Grouping where
  | one (t : Ty)
  | many (parts : List Grouping)

namespace Grouping

mutual

def result : Grouping → Ty
  | .one t => t
  | .many parts => unionOf (results parts)

def results : List Grouping → List Ty
  | [] => []
  | g :: gs => g.result :: results gs

end

mutual

def types : Grouping → List Ty
  | .one t => [t]
  | .many parts => allTypes parts

def allTypes : List Grouping → List Ty
  | [] => []
  | g :: gs => g.types ++ allTypes gs

end

mutual

theorem covers_result {a : Ty} (ha : a.isPoint = true) :
    ∀ g : Grouping, Covers g.result.alternatives a ↔ Covers (allAlternatives g.types) a
  | .one t => by rw [result, types, allAlternatives, allAlternatives, List.append_nil]
  | .many parts => (covers_unionOf ha).trans (covers_results ha parts)

theorem covers_results {a : Ty} (ha : a.isPoint = true) :
    ∀ gs : List Grouping, Covers (allAlternatives (results gs)) a ↔
    Covers (allAlternatives (allTypes gs)) a
  | [] => .rfl
  | g :: gs => by
    rw [results, allTypes, allAlternatives, allAlternatives_eq (_ ++ _), List.flatMap_append,
      covers_append, covers_append, ← allAlternatives_eq, ← allAlternatives_eq, covers_result ha g,
      covers_results ha gs]

end

mutual

theorem normalized_result : ∀ g : Grouping, (∀ t ∈ g.types, Normalized t) → Normalized g.result
  | .one t, h => h t (.head _)
  | .many parts, h => .unionOf (normalized_results parts h)

theorem normalized_results : ∀ gs : List Grouping, (∀ t ∈ allTypes gs, Normalized t) →
    ∀ t ∈ results gs, Normalized t
  | [], _ => by simp [results]
  | g :: gs, h => by
    rw [allTypes, List.forall_mem_append] at h
    exact List.forall_mem_cons.2 ⟨normalized_result g h.1, normalized_results gs h.2⟩

end

end Grouping

open Grouping

/-- Unions of the same types are equal, in whatever order, how often and in whatever unions of their
own the types come in. A type that comes out as a union has at least two members that are all
different, none of them a union, `unknown` or `never`, no constant beside `boolean` and not both of
them. -/
theorem unionOf_results {gs hs : List Grouping} (hgs : ∀ t ∈ allTypes gs, Normalized t)
    (hhs : ∀ t ∈ allTypes hs, Normalized t)
    (h : ∀ t ∈ allTypes gs, ∃ u ∈ allTypes hs, (t == u) = true)
    (h' : ∀ u ∈ allTypes hs, ∃ t ∈ allTypes gs, (u == t) = true) :
    (unionOf (results gs) == unionOf (results hs)) = true ∧
      ∀ members, unionOf (results gs) = .union members →
        2 ≤ members.length ∧ members.Pairwise (fun t u => (t == u) = false ∧ (u == t) = false) ∧
        (∀ t ∈ members, t.isUnion = false ∧ t.isUnknown = false ∧ t.isNever = false) ∧
        (∀ value, .boolean ∈ members → .boolConst value ∉ members) ∧
        ¬ (.boolConst true ∈ members ∧ .boolConst false ∈ members) := by
  have hnormal := normalized_results gs hgs
  refine ⟨beq_unionOf_of_covers hnormal (normalized_results hs hhs) fun a ha => ?_,
    fun members hunion => ?_⟩
  · rw [covers_results ha, covers_results ha]
    exact ⟨.mono hgs hhs h, .mono hhs hgs h'⟩
  · have hunited : Normalized (.union members) := hunion ▸ .unionOf hnormal
    have hmembers := hunited.normal
    obtain ⟨hboolean, hconsts⟩ := hmembers.reduced.apart
    refine ⟨hmembers.two_le, hmembers.distinct.imp_of_mem fun {t u} ht hu hne => ?_,
      hmembers.single, hboolean,
      fun hboth => hconsts true hboth.1 hboth.2⟩
    exact ⟨(beq_comm (hunited.children t ht) (hunited.children u hu)).trans hne, hne⟩

/-- The constants become `boolean` in the outer union on one side and in the inner one on the
other. -/
theorem unionOf_results_booleans :
    let gs := [many [one (.boolConst true), one .string], one (.boolConst false),
      one (.array (.union [.integer, .nil])), one .nil]
    let hs := [one .nil, many [one (.boolConst false), one (.boolConst true)],
      one (.array (.union [.nil, .integer])), one .string, one .nil]
    unionOf (results gs) = .union [.string, .array (.union [.integer, .nil]), .nil, .boolean] ∧
      (unionOf (results gs) == unionOf (results hs)) = true := by
  have hleaf : ∀ t ∈ [Ty.integer, .nil, .string, .boolConst true, .boolConst false],
      Normalized t := by
    simp only [List.forall_mem_cons, List.not_mem_nil, false_imp_iff, implies_true, and_true]
    exact ⟨.leaf rfl rfl, .leaf rfl rfl, .leaf rfl rfl, .leaf rfl rfl, .leaf rfl rfl⟩
  have harray {t : Ty} (ht : Normalized t) : Normalized (.array t) :=
    .made rfl (by simpa [Ty.children] using ht)
  have hunion : Normalized (.union [.integer, .nil]) :=
    @Normalized.unionOf [.integer, .nil] (by simp [hleaf])
  have hunion' : Normalized (.union [.nil, .integer]) :=
    @Normalized.unionOf [.nil, .integer] (by simp [hleaf])
  refine ⟨rfl, (unionOf_results ?_ ?_ (by decide) (by decide)).1⟩
  · simp [allTypes, types, hleaf, harray, hunion]
  · simp [allTypes, types, hleaf, harray, hunion']

theorem Normalized.reduced {t : Ty} (h : Normalized t)
    (hknown : t.isUnknown = false ∧ t.isNever = false) : Reduced t.alternatives ∧
    ofMembers t.alternatives = t := by
  cases ht : t.isUnion with
  | false =>
    rw [alternatives_of_not_union ht]
    refine ⟨⟨by simpa using ⟨ht, hknown⟩, List.pairwise_singleton ..,
      mergeBooleans_eq_self_iff.2 ?_⟩, rfl⟩
    cases t <;> simp [beq, isBoolConst]
  | true =>
    obtain ⟨members, rfl⟩ := exists_members ht
    rw [h.normal.alternatives_eq]
    exact ⟨h.normal.reduced, ofMembers_of_two_le h.normal.two_le⟩

theorem unionOf_of_kept {t : Ty} (h : Normalized t)
    (hknown : t.isUnknown = false ∧ t.isNever = false)
    (hkept : (allAlternatives ts).filter (fun t => !t.isUnknown && !t.isNever) = t.alternatives ∨
      (allAlternatives ts).filter (fun t => !t.isUnknown && !t.isNever) = t.alternatives ++
      t.alternatives) :
    unionOf ts = t := by
  obtain ⟨hreduced, hback⟩ := h.reduced hknown
  have hdedup : dedup ((allAlternatives ts).filter fun t => !t.isUnknown && !t.isNever) =
      t.alternatives := by
    rcases hkept with hkept | hkept
    · rw [hkept, dedup_of_distinct hreduced.distinct]
    · rw [hkept, dedup, dedupFrom_append hreduced.distinct (by simp),
        dedupFrom_of_seen fun u hu => ?_, List.append_nil]
      exact List.any_eq_true.2 ⟨u, by simpa using hu, beq_refl u⟩
  rw [unionOf, hdedup, hreduced.merged, hback]

/-- A type united with itself or with `unknown` on either side is the type itself, but for `never`,
in whose place comes `unknown`. -/
theorem union2_self_unknown {t : Ty} (h : Normalized t) :
    let united := if t.isNever then .unknown else t
    union2 t t = united ∧ union2 t .unknown = united ∧ union2 .unknown t = united := by
  by_cases hknown : t.isUnknown = false ∧ t.isNever = false
  · have hkept : t.alternatives.filter (fun t => !t.isUnknown && !t.isNever) = t.alternatives :=
      List.filter_eq_self.2 fun u hu => by simp [(h.reduced hknown).1.single u hu]
    have hunknown : [Ty.unknown].filter (fun t => !t.isUnknown && !t.isNever) = [] := rfl
    have hunited {ts : List Ty} := @unionOf_of_kept ts t h hknown
    simp only [hknown.2, Bool.false_eq_true, if_false]
    refine ⟨hunited (.inr ?_), hunited (.inl ?_), hunited (.inl ?_)⟩ <;>
      simp only [allAlternatives, alternatives, List.append_nil, List.nil_append,
        List.filter_append, hkept, hunknown]
  · cases t with
    | unknown | never => exact ⟨rfl, rfl, rfl⟩
    | _ => exact absurd ⟨rfl, rfl⟩ hknown

theorem union2_self_unknown_nullable : Normalized (.union [.string, .nil]) ∧
    union2 (.union [.string, .nil]) (.union [.string, .nil]) = .union [.string, .nil] := by
  have hleaf : ∀ t ∈ [Ty.string, .nil], Normalized t := by
    simpa using ⟨Normalized.leaf rfl rfl, Normalized.leaf rfl rfl⟩
  have hunion : Normalized (.union [.string, .nil]) := Normalized.unionOf hleaf
  exact ⟨hunion, (union2_self_unknown hunion).1⟩

/-- Uniting a type with itself, or with `unknown` on either side, gives a type that is equal. -/
def Rejoins (t : Ty) : Prop := (union2 t t == t) = true ∧ (union2 t .unknown == t) = true ∧
    (union2 .unknown t == t) = true

instance (t : Ty) : Decidable (Rejoins t) := inferInstanceAs (Decidable (_ ∧ _ ∧ _))

/-- Where neither of two branches leaves a value, their union says that nothing is known. -/
theorem not_rejoins_never : Normalized .never ∧ ¬ Rejoins .never := ⟨.leaf rfl rfl, by decide⟩

end LuaAnalysis.Types.Ty
