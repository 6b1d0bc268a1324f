import LuaAnalysis.Proofs.Types.Alternatives

/-!
Types with some of their values taken away. What is left of a type and what was taken from it are
united to the type again, both for a single alternative and for the values that count as true or
false.
-/

namespace LuaAnalysis.Types.Ty

variable {ts us : List Ty} {a b t : Ty}

theorem orNever_of_known (h : t.isUnknown = false) : t.orNever = t := by
  cases t with
  | unknown => cases h
  | _ => rfl

theorem alternatives_orNever_ofMembers (h : Reduced ts) :
    (ofMembers ts).orNever.alternatives = if ts = [] then [.never] else ts := by
  by_cases hnil : ts = []
  · rw [if_pos hnil, hnil]
    rfl
  · have hknown : (ofMembers ts).isUnknown = false := by
      match ts with
      | [] => exact absurd rfl hnil
      | [t] => exact (h.single t (.head _)).2.1
      | _ :: _ :: _ => rfl
    rw [orNever_of_known hknown, alternatives_ofMembers h]
    simp [hnil]

theorem Normalized.orNever (h : Normalized t) : Normalized t.orNever := by
  cases t with
  | unknown => exact .leaf rfl rfl
  | _ => exact h

theorem covers_orNever (ha : a.isPoint = true) : Covers t.orNever.alternatives a ↔
    Covers t.alternatives a := by
  cases t with
  | unknown =>
    exact iff_of_false (not_covers_singleton ha rfl nofun) (not_covers_singleton ha rfl nofun)
  | _ => rfl

theorem union2_normalized (ha : Normalized a) (hb : Normalized b) : ∀ t ∈ [a, b], Normalized t := by
  simpa using ⟨ha, hb⟩

theorem covers_pair {x : Ty} :
    Covers (allAlternatives [a, b]) x ↔ Covers a.alternatives x ∨ Covers b.alternatives x := by
  rw [allAlternatives, allAlternatives, allAlternatives, List.append_nil, covers_append]

def kept (a b : Ty) : List Ty := a.alternatives.filter fun t => !beq t b

theorem alternatives_remove (ha : Normalized a) :
    (remove a b).alternatives = if kept a b = [] then [.never] else kept a b := by
  cases hunion : a.isUnion with
  | false =>
    have hremove : remove a b = if beq a b then .never else a := by
      cases a with
      | union members => cases hunion
      | _ => rfl
    rw [hremove, kept, alternatives_of_not_union hunion]
    cases hbeq : beq a b <;> simp [hbeq, alternatives, alternatives_of_not_union hunion]
  | true =>
    obtain ⟨members, rfl⟩ := exists_members hunion
    have hreduced := ha.normal.reduced.sublist (List.filter_sublist (p := fun t => !beq t b))
    rw [kept, ha.normal.alternatives_eq, ← alternatives_orNever_ofMembers hreduced,
      ← unionOf_of_reduced hreduced]
    rfl

theorem remove_union (ha : Normalized a) (hb : b.isUnion = true) : remove a b = a := by
  have hdiffers {t : Ty} (ht : t.isUnion = false) : beq t b = false := by
    by_contra hbeq
    rw [isUnion_of_beq (Bool.not_eq_false _ ▸ hbeq), ht] at hb
    cases hb
  cases hunion : a.isUnion with
  | false =>
    cases a with
    | union members => cases hunion
    | _ => simp [remove, hdiffers hunion]
  | true =>
    obtain ⟨members, rfl⟩ := exists_members hunion
    have hfilter : members.filter (fun t => !beq t b) = members :=
      List.filter_eq_self.2 fun t ht => by simp [hdiffers (ha.normal.single t ht).1]
    rw [remove, hfilter, unionOf_of_normal ha.normal]
    rfl

theorem normalized_remove (ha : Normalized a) : Normalized (remove a b) := by
  cases a with
  | union members =>
    refine Normalized.orNever (.unionOf fun t ht => ?_)
    exact ha.children t (List.mem_of_mem_filter ht)
  | _ =>
    simp only [remove]
    split
    · exact .leaf rfl rfl
    · exact ha

theorem covers_remove {x : Ty} (ha : Normalized a) (hb : b.isUnion = false)
    (hx : x.isPoint = true) : Covers (remove a b).alternatives x ∨ Covers b.alternatives x ↔
    Covers a.alternatives x ∨ Covers b.alternatives x := by
  have hleft : Covers (remove a b).alternatives x ↔ Covers (kept a b) x := by
    rw [alternatives_remove ha]
    split
    · rename_i hnil
      rw [hnil]
      exact iff_of_false (not_covers_singleton hx rfl nofun) (by simp [Covers])
    · rfl
  rw [hleft, alternatives_of_not_union hb]
  have hsplit {t : Ty} (ht : t ∈ a.alternatives) : t ∈ kept a b ∨ beq t b = true := by
    rw [kept, List.mem_filter]
    cases beq t b <;> simp [ht]
  constructor
  · refine Or.imp_left (Or.imp ?_ ?_)
    · rintro ⟨t, ht, hbeq⟩
      exact ⟨t, List.mem_of_mem_filter ht, hbeq⟩
    · exact And.imp_right List.mem_of_mem_filter
  · rintro ((⟨t, ht, hbeq⟩ | ⟨hconst, hin⟩) | h)
    · rcases hsplit ht with ht | htb
      · exact .inl (.inl ⟨t, ht, hbeq⟩)
      · exact .inr (.inl ⟨b, .head _, beq_trans hbeq htb⟩)
    · rcases hsplit hin with hin | htb
      · exact .inl (.inr ⟨hconst, hin⟩)
      · exact .inr (.inr ⟨hconst, by rw [eq_boolean_of_beq htb]; exact .head _⟩)
    · exact .inr h

/-- A type that is no union is taken away: no alternative that is left is equal to it, and from
itself nothing is left but `never`. A union is taken from nothing, not even from itself. In both
cases all other alternatives are kept, and what is left united with what was taken away is equal to
the union from which nothing was taken. -/
theorem remove_undoes_union (ha : Normalized a) (hb : Normalized b) :
    (b.isUnion = false → (∀ t ∈ (remove a b).alternatives, t.isNever = true ∨ (t == b) = false) ∧
      remove b b = .never) ∧
      (b.isUnion = true → remove a b = a) ∧
      (∀ t ∈ a.alternatives, (∀ u ∈ b.alternatives, (t == u) = false) →
        t ∈ (remove a b).alternatives) ∧
      (union2 (remove a b) b == union2 a b) = true := by
  refine ⟨fun hunion => ⟨fun t ht => ?_, ?_⟩, remove_union ha, fun t ht hother => ?_, ?_⟩
  · rw [alternatives_remove ha] at ht
    split at ht
    · rw [List.mem_singleton.1 ht]
      exact .inl rfl
    · have hdiffers : beq t b = false := by simpa using (List.mem_filter.1 ht).2
      exact .inr hdiffers
  · cases b with
    | union members => cases hunion
    | _ => simp [remove, beq_refl]
  · cases hunion : b.isUnion with
    | true => rwa [remove_union ha hunion]
    | false =>
      have hdiffers : beq t b = false :=
        hother b (by rw [alternatives_of_not_union hunion]; exact .head _)
      have hkept : t ∈ kept a b := List.mem_filter.2 ⟨ht, by rw [hdiffers]; rfl⟩
      rw [alternatives_remove ha, if_neg (List.ne_nil_of_mem hkept)]
      exact hkept
  · cases hunion : b.isUnion with
    | true =>
      rw [remove_union ha hunion]
      exact beq_refl _
    | false =>
      refine beq_unionOf_of_covers (union2_normalized (normalized_remove ha) hb)
        (union2_normalized ha hb) fun x hx => ?_
      rw [covers_pair, covers_pair]
      exact covers_remove ha hunion hx

/-- A type is taken away that is among the alternatives in another order of its members. -/
theorem remove_undoes_union_array :
    let items := Ty.array (.union [.integer, .nil])
    let removed := Ty.array (.union [.nil, .integer])
    Normalized (.union [.string, items, .nil]) ∧ Normalized removed ∧
      remove (.union [.string, items, .nil]) removed = .union [.string, .nil] ∧
      (union2 (remove (.union [.string, items, .nil]) removed) removed ==
        union2 (.union [.string, items, .nil]) removed) = true := by
  have hleaf : ∀ t ∈ [Ty.integer, .nil], Normalized t := by
    simpa using ⟨Normalized.leaf rfl rfl, Normalized.leaf rfl rfl⟩
  have harray {t : Ty} (ht : Normalized t) : Normalized (.array t) :=
    .made rfl (by simpa [Ty.children] using ht)
  have hitems : Normalized (.array (.union [.integer, .nil])) :=
    harray (@Normalized.unionOf [.integer, .nil] hleaf)
  have hremoved : Normalized (.array (.union [.nil, .integer])) :=
    harray (@Normalized.unionOf [.nil, .integer] (by simpa [and_comm] using hleaf))
  have hunion : Normalized (.union [.string, .array (.union [.integer, .nil]), .nil]) := by
    refine @Normalized.unionOf [.string, .array (.union [.integer, .nil]), .nil] ?_
    simpa using ⟨Normalized.leaf rfl rfl, hitems, Normalized.leaf rfl rfl⟩
  exact ⟨hunion, hremoved, rfl, (remove_undoes_union hunion hremoved).2.2.2⟩

def LeavesNothing (t : Ty) : Prop := (remove t t == .never) = true

instance (t : Ty) : Decidable (LeavesNothing t) := inferInstanceAs (Decidable (_ = _))

theorem not_leavesNothing_nullable : Normalized (.union [.string, .nil]) ∧
    ¬ LeavesNothing (.union [.string, .nil]) := by
  refine ⟨@Normalized.unionOf [.string, .nil] ?_, by decide⟩
  simpa using ⟨Normalized.leaf rfl rfl, Normalized.leaf rfl rfl⟩

theorem truthyList_eq (ts : List Ty) : truthyList ts = ts.map truthy := by
  induction ts with
  | nil => rfl
  | cons t ts ih => rw [truthyList, ih, List.map_cons]

theorem falsyList_eq (ts : List Ty) : falsyList ts = ts.map falsy := by
  induction ts with
  | nil => rfl
  | cons t ts ih => rw [falsyList, ih, List.map_cons]

theorem unionOf_filter_never (ts : List Ty) :
    unionOf (ts.filter fun t => !t.isNever) = unionOf ts := by
  have hsame : (allAlternatives (ts.filter fun t => !t.isNever)).filter
      (fun t => !t.isUnknown && !t.isNever) = (allAlternatives ts).filter fun t =>
        !t.isUnknown && !t.isNever := by
    induction ts with
    | nil => rfl
    | cons t ts ih =>
      cases hnever : t.isNever with
      | false => simp only [List.filter_cons, hnever, Bool.not_false, if_true, allAlternatives,
          List.filter_append, ih]
      | true =>
        cases t with
        | never => exact ih
        | _ => cases hnever
  rw [unionOf, unionOf, hsame]

/-- What is left for a union if none of the types is one, and `boolean` and one of its constants are
missing. -/
theorem unionMembers_eq_dedup (hunion : ∀ t ∈ ts, t.isUnion = false) (hboolean : .boolean ∉ ts)
    {value : Bool} (hconst : .boolConst value ∉ ts) :
    unionMembers ts = dedup (ts.filter fun t => !t.isUnknown && !t.isNever) := by
  have hsub :=
    (dedupFrom_sublist [] (ts.filter fun t => !t.isUnknown && !t.isNever)).trans List.filter_sublist
  rw [unionMembers, allAlternatives_of_not_union hunion]
  refine mergeBooleans_eq_self_iff.2
    ⟨fun hin => absurd (hsub.subset (any_beq_boolean.1 hin)) hboolean, ?_⟩
  have hmissing : (dedup (ts.filter fun t => !t.isUnknown && !t.isNever)).any
      (beq (.boolConst value)) = false := by
    by_contra hin
    exact hconst (hsub.subset (any_beq_boolConst.1 (Bool.not_eq_false _ ▸ hin)))
  cases value <;> simp [hmissing]

def isDefinite (t : Ty) : Bool := !t.isUnion && !t.isAny && !t.isUnknown && !t.isNever

/-- A narrowing of single types: it leaves nothing, or something that it narrows no further and of
which the opposite narrowing leaves nothing. Of a union it leaves what it leaves of the members. -/
structure Narrows (narrow opposite : Ty → Ty) : Prop where
  never : narrow .never = .never
  union : ∀ members, narrow (.union members) = (unionOf (members.map narrow)).orNever
  single : ∀ t, t.isDefinite = true →
    narrow t = .never ∨ ((narrow t).isDefinite = true ∧ narrow (narrow t) = narrow t ∧
      opposite (narrow t) = .never)
  normalized : ∀ t, t.isDefinite = true → Normalized t → Normalized (narrow t)
  apart : ∃ value, ∀ t, t.isDefinite = true → narrow t ≠ .boolean ∧ narrow t ≠ .boolConst value

theorem isDefinite_iff : t.isDefinite = true ↔
    t.isUnion = false ∧ t.isAny = false ∧ t.isUnknown = false ∧ t.isNever = false := by
  simp [isDefinite, and_assoc]

theorem reduced_singleton (h : t.isDefinite = true) : Reduced [t] := by
  obtain ⟨hunion, -, hunknown, hnever⟩ := isDefinite_iff.1 h
  refine ⟨by simpa using ⟨hunion, hunknown, hnever⟩, List.pairwise_singleton ..,
    mergeBooleans_eq_self_iff.2 ?_⟩
  cases t <;> simp [beq, isBoolConst]

theorem truthy_falsy_cases (h : t.isDefinite = true) :
    (truthy t = .never ∧ falsy t = t ∧ (t = .nil ∨ t = .boolConst false)) ∨ t = .boolean ∨
      (truthy t = t ∧ falsy t = .never ∧ t ≠ .nil ∧ t ≠ .boolConst false ∧ t ≠ .boolean) := by
  cases t with
  | any | unknown | never | union => cases h
  | boolConst value => cases value <;> simp [truthy, falsy]
  | _ => simp [truthy, falsy]

theorem narrows_truthy : Narrows truthy falsy where
  never := rfl
  union members := by rw [truthy, truthyList_eq]
  single t h := by
    rcases truthy_falsy_cases h with ⟨hgone, -, -⟩ | rfl | ⟨hkept, hgone, -⟩
    · exact .inl hgone
    · exact .inr ⟨rfl, rfl, rfl⟩
    · exact .inr ⟨hkept.symm ▸ h, congrArg truthy hkept, by rw [hkept, hgone]⟩
  normalized t h ht := by
    rcases truthy_falsy_cases h with ⟨hgone, -, -⟩ | rfl | ⟨hkept, -, -⟩
    · exact hgone ▸ .leaf rfl rfl
    · exact .leaf rfl rfl
    · rwa [hkept]
  apart := by
    refine ⟨false, fun t h => ?_⟩
    rcases truthy_falsy_cases h with ⟨hgone, -, -⟩ | rfl | ⟨hkept, -, -, hfalse, hboolean⟩
    · simp [hgone]
    · simp [truthy]
    · rw [hkept]
      exact ⟨hboolean, hfalse⟩

theorem narrows_falsy : Narrows falsy truthy where
  never := rfl
  union members := by rw [falsy, falsyList_eq, unionOf_filter_never]
  single t h := by
    rcases truthy_falsy_cases h with ⟨hgone, hkept, -⟩ | rfl | ⟨-, hgone, -⟩
    · exact .inr ⟨hkept.symm ▸ h, congrArg falsy hkept, by rw [hkept, hgone]⟩
    · exact .inr ⟨rfl, rfl, rfl⟩
    · exact .inl hgone
  normalized t h ht := by
    rcases truthy_falsy_cases h with ⟨-, hkept, -⟩ | rfl | ⟨-, hgone, -⟩
    · rwa [hkept]
    · exact .leaf rfl rfl
    · exact hgone ▸ .leaf rfl rfl
  apart := by
    refine ⟨true, fun t h => ?_⟩
    rcases truthy_falsy_cases h with ⟨-, hkept, rfl | rfl⟩ | rfl | ⟨-, hgone, -⟩
    · simp [hkept]
    · simp [hkept]
    · simp [falsy]
    · simp [hgone]

namespace Narrows

variable {narrow opposite : Ty → Ty} {left : List Ty} (h : Narrows narrow opposite)

include h

theorem eq_self (hleft : Reduced left) (hsame : ∀ a ∈ left, narrow a = a) :
    narrow (ofMembers left).orNever = (ofMembers left).orNever := by
  match left with
  | [] => exact h.never
  | [a] =>
    have hknown : (ofMembers [a]).orNever = a := orNever_of_known (hleft.single a (.head _)).2.1
    rw [hknown, hsame a (.head _)]
  | a :: b :: rest =>
    have hmap : (a :: b :: rest).map narrow = a :: b :: rest :=
      (List.map_congr_left hsame).trans (List.map_id' _)
    exact (h.union _).trans (by rw [hmap, unionOf_of_reduced hleft])

theorem eq_never (hleft : Reduced left) (hnever : ∀ a ∈ left, narrow a = .never) :
    narrow (ofMembers left).orNever = .never := by
  match left with
  | [] => exact h.never
  | [a] =>
    have hknown : (ofMembers [a]).orNever = a := orNever_of_known (hleft.single a (.head _)).2.1
    rw [hknown, hnever a (.head _)]
  | a :: b :: rest =>
    have hfilter : ((a :: b :: rest).map narrow).filter (fun t => !t.isNever) = [] := by
      refine List.filter_eq_nil_iff.2 fun t ht => ?_
      obtain ⟨c, hc, rfl⟩ := List.mem_map.1 ht
      simp [hnever c hc, isNever]
    refine (h.union _).trans ?_
    rw [← unionOf_filter_never, hfilter]
    rfl

theorem eq_orNever (ht : Normalized t) (hdefinite : ∀ a ∈ t.alternatives, a.isDefinite = true) :
    narrow t = (ofMembers (unionMembers (t.alternatives.map narrow))).orNever := by
  rw [← unionOf_eq]
  cases hunion : t.isUnion with
  | true =>
    obtain ⟨members, rfl⟩ := exists_members hunion
    rw [h.union, ht.normal.alternatives_eq]
  | false =>
    rw [alternatives_of_not_union hunion] at hdefinite ⊢
    rcases h.single t (hdefinite t (.head _)) with hnever | ⟨hleft, -, -⟩
    · rw [List.map_singleton, hnever]
      rfl
    · have hreduced := reduced_singleton hleft
      rw [List.map_singleton, unionOf_of_reduced hreduced]
      exact (orNever_of_known (hreduced.single _ (.head _)).2.1).symm

theorem not_union (hdefinite : ∀ a ∈ ts, a.isDefinite = true) :
    ∀ t ∈ ts.map narrow, t.isUnion = false := by
  rw [List.forall_mem_map]
  intro t ht
  rcases h.single t (hdefinite t ht) with hnever | ⟨hleft, -, -⟩
  · rw [hnever]
    rfl
  · exact (isDefinite_iff.1 hleft).1

theorem left_of_mem (hdefinite : ∀ a ∈ ts, a.isDefinite = true) :
    ∀ a ∈ unionMembers (ts.map narrow), ∃ b ∈ ts, a = narrow b ∧ narrow a = a ∧
    opposite a = .never := by
  obtain ⟨value, hapart⟩ := h.apart
  have hmissing {t : Ty} (ht : ∀ b, b.isDefinite = true → narrow b ≠ t) : t ∉ ts.map narrow := by
    intro hin
    obtain ⟨b, hb, hsame⟩ := List.mem_map.1 hin
    exact ht b (hdefinite b hb) hsame
  intro a ha
  have hnever := ((reduced_unionMembers _).single a ha).2.2
  have hboolean : .boolean ∉ ts.map narrow := hmissing fun b hb => (hapart b hb).1
  have hconst : .boolConst value ∉ ts.map narrow := hmissing fun b hb => (hapart b hb).2
  rw [unionMembers_eq_dedup (h.not_union hdefinite) hboolean hconst] at ha
  obtain ⟨b, hb, rfl⟩ :=
    List.mem_map.1 (List.mem_of_mem_filter ((dedupFrom_sublist [] _).subset ha))
  rcases h.single b (hdefinite b hb) with hgone | ⟨-, hsame, hopposite⟩
  · rw [hgone] at hnever
    cases hnever
  · exact ⟨b, hb, rfl, hsame, hopposite⟩

variable (ht : Normalized t) (hdefinite : ∀ a ∈ t.alternatives, a.isDefinite = true)

include ht hdefinite

theorem idempotent : narrow (narrow t) = narrow t := by
  rw [h.eq_orNever ht hdefinite]
  refine h.eq_self (reduced_unionMembers _) fun a ha => ?_
  obtain ⟨-, -, -, hsame, -⟩ := h.left_of_mem hdefinite a ha
  exact hsame

theorem opposite_eq_never (h' : Narrows opposite narrow) : opposite (narrow t) = .never := by
  rw [h.eq_orNever ht hdefinite]
  refine h'.eq_never (reduced_unionMembers _) fun a ha => ?_
  obtain ⟨-, -, -, -, hnever⟩ := h.left_of_mem hdefinite a ha
  exact hnever

theorem eq_never_or :
    narrow t = .never ∨ ∀ a ∈ (narrow t).alternatives, ∃ b ∈ t.alternatives, a = narrow b ∧
    a.isNever = false := by
  have hreduced := reduced_unionMembers (t.alternatives.map narrow)
  have halternatives := alternatives_orNever_ofMembers hreduced
  rw [← h.eq_orNever ht hdefinite] at halternatives
  by_cases hnil : unionMembers (t.alternatives.map narrow) = []
  · refine .inl ?_
    rw [h.eq_orNever ht hdefinite, hnil]
    rfl
  · refine .inr fun a ha => ?_
    rw [halternatives, if_neg hnil] at ha
    obtain ⟨b, hb, heq, -⟩ := h.left_of_mem hdefinite a ha
    exact ⟨b, hb, heq, (hreduced.single a ha).2.2⟩

theorem covers {x : Ty} (hx : x.isPoint = true) :
    Covers (narrow t).alternatives x ↔ Covers (t.alternatives.map narrow) x := by
  rw [h.eq_orNever ht hdefinite, ← unionOf_eq, covers_orNever hx, covers_unionOf hx,
    allAlternatives_of_not_union (h.not_union hdefinite)]

theorem normalized_narrow : Normalized (narrow t) := by
  rw [h.eq_orNever ht hdefinite, ← unionOf_eq]
  refine .orNever (.unionOf fun a ha => ?_)
  obtain ⟨b, hb, rfl⟩ := List.mem_map.1 ha
  exact h.normalized b (hdefinite b hb) (ht.alternatives hb)

end Narrows

theorem covers_boolean {x : Ty} (hx : x.isPoint = true) :
    Covers [.boolConst true] x ∨ Covers [.boolConst false] x ↔ Covers [.boolean] x := by
  have hconstant {value : Bool} (h : Covers [.boolConst value] x) : Covers [.boolean] x := by
    obtain ⟨c, hc, hbeq⟩ | ⟨-, hin⟩ := h
    · obtain rfl := List.mem_singleton.1 hc
      exact .inr ⟨(isBoolConst_eq_of_beq hbeq).symm, .head _⟩
    · cases List.mem_singleton.1 hin
  refine ⟨Or.rec hconstant hconstant, ?_⟩
  rintro (⟨c, hc, hbeq⟩ | ⟨hconst, -⟩)
  · obtain rfl := List.mem_singleton.1 hc
    cases isPoint_of_beq hx hbeq
  · obtain ⟨value, rfl⟩ := exists_boolConst hconst
    cases value with
    | true => exact .inl (covers_self (.head _))
    | false => exact .inr (covers_self (.head _))

theorem covers_truthy_falsy {x : Ty} (hx : x.isPoint = true) (h : t.isDefinite = true) :
    Covers [truthy t] x ∨ Covers [falsy t] x ↔ Covers [t] x := by
  have hnever : ¬ Covers [.never] x := not_covers_singleton hx rfl nofun
  rcases truthy_falsy_cases h with ⟨hgone, hkept, -⟩ | rfl | ⟨hkept, hgone, -⟩
  · rw [hgone, hkept]
    exact or_iff_right hnever
  · exact covers_boolean hx
  · rw [hgone, hkept]
    exact or_iff_left hnever

theorem covers_map_truthy_falsy {x : Ty} (hx : x.isPoint = true)
    (hdefinite : ∀ t ∈ ts, t.isDefinite = true) : Covers (ts.map truthy) x ∨
    Covers (ts.map falsy) x ↔ Covers ts x := by
  induction ts with
  | nil => simp [Covers]
  | cons t ts ih =>
    obtain ⟨ht, hts⟩ := List.forall_mem_cons.1 hdefinite
    have hcons (u : Ty) (us : List Ty) : Covers (u :: us) x ↔ Covers [u] x ∨ Covers us x :=
      @covers_append [u] us x
    rw [List.map_cons, List.map_cons, hcons (truthy t), hcons (falsy t), hcons t,
      ← covers_truthy_falsy hx ht, ← ih hts]
    exact or_or_or_comm

theorem truthy_ne (h : t.isDefinite = true) (hsome : (truthy t).isNever = false) :
    truthy t ≠ .nil ∧ truthy t ≠ .boolConst false ∧ truthy t ≠ .boolean := by
  rcases truthy_falsy_cases h with ⟨hgone, -, -⟩ | rfl | ⟨hkept, -, hother⟩
  · rw [hgone] at hsome
    cases hsome
  · simp [truthy]
  · rwa [hkept]

theorem falsy_eq (h : t.isDefinite = true) (hsome : (falsy t).isNever = false) : falsy t = .nil ∨
    falsy t = .boolConst false := by
  rcases truthy_falsy_cases h with ⟨-, hkept, hfalse⟩ | rfl | ⟨-, hgone, -⟩
  · rwa [hkept]
  · exact .inr rfl
  · rw [hgone] at hsome
    cases hsome

theorem known_of_definite (h : ∀ a ∈ t.alternatives, a.isDefinite = true) : t.isUnknown = false ∧
    t.isNever = false := by
  cases t with
  | unknown | never => cases h _ (.head _)
  | _ => exact ⟨rfl, rfl⟩

/-- What is true of a type of which no alternative is `any`, `unknown` or `never`, and what is false
of it, are the type again. To narrow twice adds nothing, and to narrow both ways leaves nothing. Of
what is left as true no alternative is `nil`, `false` or `boolean`; what is left as false is
nothing, or each alternative of it is `nil` or `false`. -/
theorem union2_truthy_falsy (h : Normalized t)
    (hknown : ∀ a ∈ t.alternatives, a.isAny = false ∧ a.isUnknown = false ∧ a.isNever = false) :
    (union2 t.truthy t.falsy == t) = true ∧ t.truthy.truthy = t.truthy ∧ t.falsy.falsy = t.falsy ∧
      t.truthy.falsy = .never ∧ t.falsy.truthy = .never ∧
      (∀ a ∈ t.truthy.alternatives, a ≠ .nil ∧ a ≠ .boolConst false ∧ a ≠ .boolean) ∧
      (t.falsy = .never ∨ ∀ a ∈ t.falsy.alternatives, a = .nil ∨ a = .boolConst false) := by
  have hdefinite : ∀ a ∈ t.alternatives, a.isDefinite = true :=
    fun a ha => isDefinite_iff.2 ⟨not_union_of_mem_alternatives t a ha, hknown a ha⟩
  refine ⟨?_, narrows_truthy.idempotent h hdefinite, narrows_falsy.idempotent h hdefinite,
    narrows_truthy.opposite_eq_never h hdefinite narrows_falsy,
    narrows_falsy.opposite_eq_never h hdefinite narrows_truthy,
    ?_, ?_⟩
  · have hreduced := h.reduced (known_of_definite hdefinite)
    have hself : unionOf t.alternatives = t := (unionOf_of_reduced hreduced.1).trans hreduced.2
    have hunited : beq (union2 t.truthy t.falsy) (unionOf t.alternatives) = true := by
      refine beq_unionOf_of_covers ?_ (fun a ha => h.alternatives ha) fun x hx => ?_
      · exact union2_normalized (narrows_truthy.normalized_narrow h hdefinite)
          (narrows_falsy.normalized_narrow h hdefinite)
      · rw [covers_pair, narrows_truthy.covers h hdefinite hx, narrows_falsy.covers h hdefinite hx,
          allAlternatives_of_not_union (not_union_of_mem_alternatives t)]
        exact covers_map_truthy_falsy hx hdefinite
    rwa [hself] at hunited
  · rcases narrows_truthy.eq_never_or h hdefinite with hnever | hleft
    · simp [hnever, alternatives]
    · intro a ha
      obtain ⟨b, hb, rfl, hsome⟩ := hleft a ha
      exact truthy_ne (hdefinite b hb) hsome
  · refine (narrows_falsy.eq_never_or h hdefinite).imp_right fun hleft a ha => ?_
    obtain ⟨b, hb, rfl, hsome⟩ := hleft a ha
    exact falsy_eq (hdefinite b hb) hsome

/-- `boolean` is cut into its constants and put together again. -/
theorem union2_truthy_falsy_optionalBoolean :
    let t := Ty.union [.integer, .nil, .boolean]
    Normalized t ∧ (∀ a ∈ t.alternatives, a.isAny = false ∧ a.isUnknown = false ∧
      a.isNever = false) ∧
      t.truthy = .union [.integer, .boolConst true] ∧ t.falsy = .union [.nil, .boolConst false] ∧
      (union2 t.truthy t.falsy == t) = true := by
  have hnormalized : Normalized (.union [.integer, .nil, .boolean]) := by
    refine @Normalized.unionOf [.integer, .nil, .boolean] ?_
    simpa using ⟨Normalized.leaf rfl rfl, Normalized.leaf rfl rfl, Normalized.leaf rfl rfl⟩
  have hknown : ∀ a ∈ (Ty.union [.integer, .nil, .boolean]).alternatives,
      a.isAny = false ∧ a.isUnknown = false ∧ a.isNever = false := by
    simp [alternatives, allAlternatives, isAny, isUnknown, isNever]
  exact ⟨hnormalized, hknown, rfl, rfl, (union2_truthy_falsy hnormalized hknown).1⟩

end LuaAnalysis.Types.Ty
