import LuaAnalysis.Types.Multi
import LuaAnalysis.Proofs.Types.Alternatives

/-!
Lists of values that end in no other list. In types where all lists are like that, to flatten a list
puts the values of its last type in its place, and gives a list of the kind again. In any list of
which only the last type stands for several values, the values keep their places.
-/

namespace LuaAnalysis.Types.Ty

variable {t u : Ty} {ts us items : List Ty}

/-- Whether a type is a list of values with an end. -/
def isList : Ty → Bool
  | .multi _ => true
  | _ => false

/-- Whether a list of values has a last one that is no list, and whether what is repeated is one
value. -/
def isFlat : Ty → Bool
  | .multi items => items.getLast?.any fun t => !t.isList
  | .variadic item => !item.isMulti
  | _ => true

/-- A type in which all lists of values are flat. -/
inductive Flat : Ty → Prop where
  | made {t : Ty} (here : t.isFlat = true) (below : ∀ c ∈ t.children, Flat c) : Flat t

theorem Flat.here (h : Flat t) : t.isFlat = true := by
  cases h
  assumption

theorem Flat.children (h : Flat t) : ∀ c ∈ t.children, Flat c := by
  cases h
  assumption

theorem isFlat_multi_iff : (multi items).isFlat = true ↔ ∃ front last, items = front ++ [last] ∧
    last.isList = false := by
  simp only [isFlat, Option.any_eq_true, List.getLast?_eq_some_iff, Bool.not_eq_true']
  exact ⟨fun ⟨last, ⟨front, hitems⟩, hlast⟩ => ⟨front, last, hitems, hlast⟩,
    fun ⟨front, last, hitems, hlast⟩ => ⟨last, ⟨front, hitems⟩, hlast⟩⟩

theorem isList_of_beq (h : beq t u = true) : u.isList = t.isList := by
  cases t <;> cases u <;> first | rfl | cases h

theorem isMulti_of_beq (h : beq t u = true) : u.isMulti = t.isMulti := by
  cases t <;> cases u <;> first | rfl | cases h

theorem ofReturns_of_two_le (h : 2 ≤ ts.length) : ofReturns ts = .multi ts := by
  rcases ts with _ | ⟨t, _ | ⟨u, ts⟩⟩
  · cases h
  · simp at h
  · rfl

theorem tailValues_of_not_list (h : t.isList = false) : tailValues t = [t] := by
  cases t with
  | multi items => cases h
  | _ => rfl

theorem flattenMulti_concat (ts : List Ty) (t : Ty) :
    flattenMulti (ts ++ [t]) = ts ++ tailValues t := by
  induction ts with
  | nil => rfl
  | cons u ts ih =>
    cases ts with
    | nil => rfl
    | cons v ts => exact congrArg (u :: ·) ih

theorem flattenMulti_of_flat (h : (multi items).isFlat = true) : flattenMulti items = items := by
  obtain ⟨front, last, rfl, hlast⟩ := isFlat_multi_iff.1 h
  rw [flattenMulti_concat, tailValues_of_not_list hlast]

theorem Flat.tailValues_eq (h : Flat t) : tailValues t = if t.isList then t.children else [t] := by
  cases t with
  | multi items => exact flattenMulti_of_flat h.here
  | _ => rfl

theorem Flat.isFlat_tailValues (h : Flat t) (front : List Ty) :
    (multi (front ++ tailValues t)).isFlat = true := by
  rw [h.tailValues_eq]
  cases ht : t.isList with
  | false => exact isFlat_multi_iff.2 ⟨front, t, rfl, ht⟩
  | true =>
    cases t with
    | multi items =>
      obtain ⟨between, last, hitems, hlast⟩ := isFlat_multi_iff.1 h.here
      refine isFlat_multi_iff.2 ⟨front ++ between, last, ?_, hlast⟩
      rw [if_pos rfl, Ty.children, hitems, List.append_assoc]
    | _ => cases ht

theorem isFlat_flattenMulti (hne : ts ≠ []) (h : ∀ t ∈ ts, Flat t) :
    (multi (flattenMulti ts)).isFlat = true := by
  obtain ⟨front, last, rfl⟩ := List.eq_nil_or_concat ts |>.resolve_left hne
  rw [List.concat_eq_append, flattenMulti_concat]
  exact (h last (by simp)).isFlat_tailValues front

theorem mem_flattenMulti (h : ∀ t ∈ ts, Flat t) (hu : u ∈ flattenMulti ts) :
    u ∈ ts ∨ ∃ t ∈ ts, u ∈ t.children := by
  rcases List.eq_nil_or_concat ts with rfl | ⟨front, last, rfl⟩
  · cases hu
  · rw [List.concat_eq_append] at h hu ⊢
    rw [flattenMulti_concat, (h last (by simp)).tailValues_eq] at hu
    rcases List.mem_append.1 hu with hu | hu
    · exact .inl (List.mem_append_left _ hu)
    · split at hu
      · exact .inr ⟨last, by simp, hu⟩
      · exact .inl (List.mem_append_right _ hu)

theorem equalEach_tailValues (ht : Flat t) (hu : Flat u) (h : beq t u = true) :
    EqualEach (tailValues t) (tailValues u) := by
  rw [ht.tailValues_eq, hu.tailValues_eq, isList_of_beq h]
  cases hlist : t.isList with
  | false => exact .cons h .nil
  | true =>
    have hunion : t.isUnion = false := by cases t <;> first | rfl | cases hlist
    exact ((beq_iff hunion).1 h).2

theorem equalEach_flattenMulti (hts : ∀ t ∈ ts, Flat t) (hus : ∀ u ∈ us, Flat u)
    (h : EqualEach ts us) : EqualEach (flattenMulti ts) (flattenMulti us) := by
  have hlength := h.length_eq
  rcases List.eq_nil_or_concat ts with rfl | ⟨front, last, rfl⟩
  · obtain rfl := List.length_eq_zero_iff.1 hlength.symm
    exact .nil
  rcases List.eq_nil_or_concat us with rfl | ⟨front', last', rfl⟩
  · simp at hlength
  simp only [List.concat_eq_append, List.length_append, List.length_singleton,
    Nat.add_right_cancel_iff] at hts hus h hlength ⊢
  obtain ⟨hfront, hlast⟩ := (EqualEach.append_iff hlength).1 h
  rw [flattenMulti_concat, flattenMulti_concat]
  have htail := equalEach_tailValues (hts last (by simp)) (hus last' (by simp))
    (List.forall₂_cons.1 hlast).1
  exact (EqualEach.append_iff hlength).2 ⟨hfront, htail⟩

section Closed

variable {p : Ty → Prop} (hunion : ∀ members, p (.union members) ↔ ∀ m ∈ members, p m)

include hunion

theorem forall_alternatives (h : p t) : ∀ a ∈ t.alternatives, p a := by
  induction t using induction_children with
  | made t ih =>
    intro a ha
    cases ht : t.isUnion with
    | false =>
      rw [alternatives_of_not_union ht, List.mem_singleton] at ha
      exact ha ▸ h
    | true =>
      obtain ⟨members, rfl⟩ := exists_members ht
      obtain ⟨m, hm, ha⟩ := mem_allAlternatives.1 ha
      exact ih m hm ((hunion members).1 h m hm) a ha

theorem unionOf_of_forall (hunknown : p .unknown) (hboolean : p .boolean) (h : ∀ t ∈ ts, p t) :
    p (unionOf ts) := by
  have hmembers : ∀ t ∈ unionMembers ts, p t := by
    intro t ht
    rcases mem_unionMembers ht with rfl | ht
    · exact hboolean
    · obtain ⟨u, hu, ht⟩ := mem_allAlternatives.1 (List.mem_of_mem_filter ht)
      exact forall_alternatives hunion (h u hu) t ht
  rw [unionOf_eq]
  match unionMembers ts, hmembers with
  | [], _ => exact hunknown
  | [t], hmembers => exact hmembers t (.head _)
  | _ :: _ :: _, hmembers => exact (hunion _).2 hmembers

end Closed

theorem Flat.leaf (here : t.isFlat = true) (h : t.children = []) : Flat t :=
  .made here (by simp [h])

theorem flat_union (members : List Ty) : Flat (.union members) ↔ ∀ m ∈ members, Flat m :=
  ⟨Flat.children, fun h => .made rfl h⟩

theorem Flat.alternatives (h : Flat t) : ∀ a ∈ t.alternatives, Flat a :=
  forall_alternatives flat_union h

theorem flat_unionOf (h : ∀ t ∈ ts, Flat t) : Flat (unionOf ts) :=
  unionOf_of_forall flat_union (.leaf rfl rfl) (.leaf rfl rfl) h

/-- A type in which every union was built and all lists of values are flat. -/
structure Regular (t : Ty) : Prop where
  normalized : Normalized t
  flat : Flat t

theorem Regular.made (hunion : t.isUnion = false) (hflat : t.isFlat = true)
    (h : ∀ c ∈ t.children, Regular c) : Regular t :=
  ⟨.made hunion fun c hc => (h c hc).normalized, .made hflat fun c hc => (h c hc).flat⟩

theorem Regular.leaf (hunion : t.isUnion = false) (hflat : t.isFlat = true) (h : t.children = []) :
    Regular t :=
  .made hunion hflat (by simp [h])

theorem Regular.unionOf (h : ∀ t ∈ ts, Regular t) : Regular (unionOf ts) :=
  ⟨.unionOf fun t ht => (h t ht).normalized, flat_unionOf fun t ht => (h t ht).flat⟩

theorem Regular.children (h : Regular t) : ∀ c ∈ t.children, Regular c :=
  fun c hc => ⟨h.normalized.children c hc, h.flat.children c hc⟩

theorem Regular.alternatives (h : Regular t) : ∀ a ∈ t.alternatives, Regular a :=
  fun a ha => ⟨h.normalized.alternatives ha, h.flat.alternatives a ha⟩

theorem Regular.multi (hne : ts ≠ []) (h : ∀ t ∈ ts, Regular t) :
    Regular (.multi (flattenMulti ts)) := by
  refine .made rfl (isFlat_flattenMulti hne fun t ht => (h t ht).flat) fun c hc => ?_
  rcases mem_flattenMulti (fun t ht => (h t ht).flat) hc with hc | ⟨t, ht, hc⟩
  · exact h c hc
  · exact (h t ht).children c hc

section Places

variable {f : Ty}

/-- A list of types in which none but the last stands for several values, and so on in the list that
the last one is. -/
inductive Trailing : List Ty → Prop where
  | nil : Trailing []
  | last {t : Ty} (h : t.isList = false) : Trailing [t]
  | nested {items : List Ty} (h : Trailing items) : Trailing [.multi items]
  | cons {f : Ty} {ts : List Ty} (hf : f.isMulti = false) (h : Trailing ts) : Trailing (f :: ts)

theorem isList_of_not_multi (hf : f.isMulti = false) : f.isList = false := by
  cases f with
  | multi items => cases hf
  | _ => rfl

theorem listValueAt?_cons_zero (hf : f.isMulti = false) (ts : List Ty) :
    listValueAt? (f :: ts) 0 = some f := by
  cases ts with
  | nil =>
    cases f with
    | multi items | variadic item => cases hf
    | _ => rfl
  | cons t ts => rfl

theorem listValueAt?_cons_succ (hf : f.isMulti = false) (ts : List Ty) (i : Nat) :
    listValueAt? (f :: ts) (i + 1) = listValueAt? ts i := by
  cases ts with
  | nil =>
    cases f with
    | multi items | variadic item => cases hf
    | _ => rfl
  | cons t ts => rfl

theorem listValueCount?_cons (hf : f.isMulti = false) (ts : List Ty) :
    listValueCount? (f :: ts) = (listValueCount? ts).map (· + 1) := by
  cases ts with
  | nil =>
    cases f with
    | multi items | variadic item => cases hf
    | _ => rfl
  | cons t ts => rfl

theorem flattenMulti_cons (hf : f.isMulti = false) (ts : List Ty) :
    flattenMulti (f :: ts) = f :: flattenMulti ts := by
  cases ts with
  | nil => exact tailValues_of_not_list (isList_of_not_multi hf)
  | cons t ts => rfl

namespace Trailing

theorem listValueAt?_flattenMulti (h : Trailing ts) (i : Nat) :
    listValueAt? (flattenMulti ts) i = listValueAt? ts i := by
  induction h generalizing i with
  | nil => rfl
  | last h => exact congrArg (listValueAt? · i) (tailValues_of_not_list h)
  | nested _ ih => exact ih i
  | @cons f ts hf _ ih =>
    rw [flattenMulti_cons hf]
    cases i with
    | zero => rw [listValueAt?_cons_zero hf, listValueAt?_cons_zero hf]
    | succ i => rw [listValueAt?_cons_succ hf, listValueAt?_cons_succ hf, ih]

theorem listValueCount?_flattenMulti (h : Trailing ts) :
    listValueCount? (flattenMulti ts) = listValueCount? ts := by
  induction h with
  | nil => rfl
  | last h => exact congrArg listValueCount? (tailValues_of_not_list h)
  | nested _ ih => exact ih
  | cons hf _ ih => rw [flattenMulti_cons hf, listValueCount?_cons hf, listValueCount?_cons hf, ih]

theorem flattenMulti_idem (h : Trailing ts) : flattenMulti (flattenMulti ts) = flattenMulti ts := by
  induction h with
  | nil => rfl
  | last h => exact congrArg flattenMulti (tailValues_of_not_list h)
  | nested _ ih => exact ih
  | cons hf _ ih => rw [flattenMulti_cons hf, flattenMulti_cons hf, ih]

theorem not_list_of_getLast? (h : Trailing ts) : ∀ last, (flattenMulti ts).getLast? = some last →
    last.isList = false := by
  induction h with
  | nil => intro last hlast; cases hlast
  | @last t h =>
    intro last hlast
    obtain rfl : t = last := by simpa [flattenMulti, tailValues_of_not_list h] using hlast
    exact h
  | nested _ ih => exact ih
  | @cons f ts hf _ ih =>
    intro last hlast
    rw [flattenMulti_cons hf, List.getLast?_cons] at hlast
    cases hrest : (flattenMulti ts).getLast? with
    | none =>
      obtain rfl : f = last := by simpa [hrest] using hlast
      exact isList_of_not_multi hf
    | some t =>
      obtain rfl : t = last := by simpa [hrest] using hlast
      exact ih t hrest

end Trailing

/-- In a list where only the last type stands for several values, at every depth, to flatten the
list keeps the value at each place and the number of values. It is done after the first time, and if
it leaves several values at the end, these are any number of one type. -/
theorem flattenMulti_keepsSlots (h : Trailing ts) :
    (∀ i, valueAt? (.multi (flattenMulti ts)) i = valueAt? (.multi ts) i) ∧
      valueCount? (.multi (flattenMulti ts)) = valueCount? (.multi ts) ∧
      flattenMulti (flattenMulti ts) = flattenMulti ts ∧
      ∀ last, (flattenMulti ts).getLast? = some last → last.isMulti = true →
      ∃ item, last = .variadic item := by
  refine ⟨h.listValueAt?_flattenMulti, h.listValueCount?_flattenMulti, h.flattenMulti_idem,
    fun last hlast hmulti => ?_⟩
  have hlist := h.not_list_of_getLast? last hlast
  cases last with
  | variadic item => exact ⟨item, rfl⟩
  | multi items => cases hlist
  | _ => cases hmulti

/-- Three levels of lists, of which the innermost ends in any number of values. -/
theorem flattenMulti_keepsSlots_tail :
    let ts : List Ty := [.integer, .multi [.string, .multi [.boolean, .variadic .nil]]]
    Trailing ts ∧ flattenMulti ts = [.integer, .string, .boolean, .variadic .nil] ∧
      (∀ i, valueAt? (.multi (flattenMulti ts)) i = valueAt? (.multi ts) i) ∧
      valueCount? (.multi (flattenMulti ts)) = valueCount? (.multi ts) ∧
      flattenMulti (flattenMulti ts) = flattenMulti ts ∧
      ∀ last, (flattenMulti ts).getLast? = some last → last.isMulti = true →
      ∃ item, last = .variadic item := by
  intro ts
  have hts : Trailing ts := .cons rfl (.nested (.cons rfl (.nested (.cons rfl (.last rfl)))))
  exact ⟨hts, rfl, flattenMulti_keepsSlots hts⟩

/-- A list in front of an empty one would come to stand last, and be flattened only the next
time. -/
example : flattenMulti [.multi [.nil], .multi []] = [.multi [.nil]] ∧
    flattenMulti [.multi [.nil]] = [.nil] := ⟨rfl, rfl⟩

end Places

end LuaAnalysis.Types.Ty
