import LuaAnalysis.Types.Substitution
import LuaAnalysis.Proofs.Types.FlatValues

/-!
Types put in the place of templates. To do so twice is to do so once with what the first types
become in the second turn, although a member of a union may come and go on the way, or merge with
another one.
-/

namespace LuaAnalysis.Types

/-- What a type stands for that is bound. -/
def Substitution.at? (s : Substitution) : Ty → Option Ty
  | .tpl name => s.get? name
  | .self => s.self?
  | _ => none

/-- What is bound is bound to types as they are once they are built, and never to `never`. -/
structure Substitution.Sound (s : Substitution) : Prop where
  regular : ∀ slot t, s.at? slot = some t → Ty.Regular t
  some_value : ∀ slot t, s.at? slot = some t → t.isNever = false

/-- Binds what the first binds to what that becomes in the second turn, and all else as the second
does. -/
def Substitution.andThen (s s' : Substitution) : Substitution where
  bindings := s.bindings.map (fun (name, t) => (name, t.instantiate s')) ++ s'.bindings
  self? := (s.self?.map (·.instantiate s')).or s'.self?

namespace Ty

variable {t u : Ty} {ts us : List Ty} {s s' : Substitution}

theorem substList_eq (s : Substitution) (ts : List Ty) : substList s ts = ts.map (subst s) := by
  induction ts with
  | nil => rfl
  | cons t ts ih => exact congrArg (subst s t :: ·) ih

theorem substFields_eq (s : Substitution) (fs : List (MemberKey × Ty)) :
    substFields s fs = fs.map fun (key, t) => (key, subst s t) := by
  induction fs with
  | nil => rfl
  | cons f fs ih => exact congrArg ((f.1, subst s f.2) :: ·) ih

theorem substAccess_eq (s : Substitution) (as : List (Ty × Ty)) :
    substAccess s as = as.map fun (key, value) => (subst s key, subst s value) := by
  induction as with
  | nil => rfl
  | cons a as ih => exact congrArg ((subst s a.1, subst s a.2) :: ·) ih

theorem substParams_eq (s : Substitution) (ps : List (String × Option Ty)) :
    substParams s ps = ps.map fun (name, t) => (name, t.map (subst s)) := by
  induction ps with
  | nil => rfl
  | cons p ps ih => obtain ⟨name, _ | t⟩ := p <;> exact congrArg (_ :: ·) ih

def isSteady : Ty → Bool
  | .tpl _ | .self | .union _ | .multi _ | .variadic _ => false
  | _ => true

theorem isSteady_subst (h : t.isSteady = true) : (subst s t).isSteady = true := by
  cases t <;> first | rfl | cases h

theorem isSteady_of_beq (h : beq t u = true) : u.isSteady = t.isSteady := by
  cases t <;> cases u <;> first | rfl | cases h

theorem isUnion_of_steady (h : t.isSteady = true) : t.isUnion = false := by
  cases t <;> first | rfl | cases h

theorem isFlat_of_steady (h : t.isSteady = true) : t.isFlat = true := by
  cases t <;> first | rfl | cases h

theorem frame_subst (h : t.isSteady = true) : (subst s t).frame = t.frame := by
  cases t with
  | tpl | self | union | multi | variadic => cases h
  | func isAsync isColon params ret =>
    simp only [subst, frame, substParams_eq, List.map_map]
    congr 2
    funext param
    obtain ⟨name, _ | t⟩ := param <;> rfl
  | _ => simp [subst, frame, substList_eq, substFields_eq, substAccess_eq, Function.comp_def]

theorem children_subst (h : t.isSteady = true) :
    (subst s t).children = t.children.map (subst s) := by
  cases t with
  | tpl | self | union | multi | variadic => cases h
  | object fields access =>
    simp only [subst, children, substFields_eq, substAccess_eq, List.map_append, List.map_map,
      List.map_flatMap, List.flatMap_map]
    rfl
  | func isAsync isColon params ret =>
    simp only [subst, children, substParams_eq, List.map_append, List.filterMap_map,
      List.map_filterMap]
    rfl
  | _ => simp [subst, children, substList_eq]

theorem subst_slot (h : t = .self ∨ ∃ name, t = .tpl name) : subst s t = (s.at? t).getD t := by
  rcases h with rfl | ⟨name, rfl⟩ <;> rfl

theorem subst_union (members : List Ty) :
    subst s (.union members) = unionOf (members.map (subst s)) :=
  congrArg unionOf (substList_eq s members)

theorem subst_multi (items : List Ty) :
    subst s (.multi items) = .multi (flattenMulti (items.map (subst s))) :=
  congrArg (fun items => Ty.multi (flattenMulti items)) (substList_eq s items)

theorem subst_variadic (item : Ty) :
    subst s (.variadic item) = if (subst s item).isMulti then subst s item
    else .variadic (subst s item) := rfl

theorem regular_subst (h : Regular t) (hs : s.Sound) : Regular (subst s t) := by
  induction t using induction_children with
  | made t ih =>
    have ih : ∀ c ∈ t.children, Regular (subst s c) := fun c hc => ih c hc (h.children c hc)
    have hslot (hslot : t = .self ∨ ∃ name, t = .tpl name) : Regular (subst s t) := by
      rw [subst_slot hslot]
      cases hbound : s.at? t with
      | none => exact h
      | some u => exact hs.regular t u hbound
    have hsteady (hsteady : t.isSteady = true) : Regular (subst s t) := by
      refine .made (isUnion_of_steady (isSteady_subst hsteady))
        (isFlat_of_steady (isSteady_subst hsteady)) ?_
      rw [children_subst hsteady, List.forall_mem_map]
      exact ih
    cases t with
    | self => exact hslot (.inl rfl)
    | tpl name => exact hslot (.inr ⟨name, rfl⟩)
    | union members =>
      rw [subst_union]
      exact .unionOf (List.forall_mem_map.2 ih)
    | multi items =>
      rw [subst_multi]
      refine .multi ?_ (List.forall_mem_map.2 ih)
      obtain ⟨front, last, rfl, -⟩ := isFlat_multi_iff.1 h.flat.here
      simp
    | variadic item =>
      rw [subst_variadic]
      have hitem := ih item (.head _)
      split
      · exact hitem
      · rename_i hmulti
        refine .made rfl (by simpa [isFlat] using hmulti) ?_
        simpa [Ty.children] using hitem
    | _ => exact hsteady rfl

theorem isNever_unionOf (ts : List Ty) : (unionOf ts).isNever = false := by
  have hreduced := reduced_unionMembers ts
  rw [unionOf_eq]
  match unionMembers ts, hreduced with
  | [], _ => rfl
  | [t], hreduced => exact (hreduced.single t (.head _)).2.2
  | _ :: _ :: _, _ => rfl

theorem isNever_subst (hs : s.Sound) (h : t.isNever = false) : (subst s t).isNever = false := by
  have hslot (hslot : t = .self ∨ ∃ name, t = .tpl name) : (subst s t).isNever = false := by
    rw [subst_slot hslot]
    cases hbound : s.at? t with
    | none => exact h
    | some u => exact hs.some_value t u hbound
  cases t with
  | self => exact hslot (.inl rfl)
  | tpl name => exact hslot (.inr ⟨name, rfl⟩)
  | union members =>
    rw [subst_union]
    exact isNever_unionOf _
  | never => cases h
  | variadic item =>
    rw [subst_variadic]
    split
    · cases hitem : subst s item <;> simp_all [isMulti, isNever]
    · rfl
  | _ => rfl

theorem beq_unionOf_of_exists (hts : ∀ t ∈ ts, Normalized t) (hus : ∀ u ∈ us, Normalized u)
    (h : ∀ t ∈ ts, ∃ u ∈ us, beq t u = true) (h' : ∀ u ∈ us, ∃ t ∈ ts, beq u t = true) :
    beq (unionOf ts) (unionOf us) = true :=
  beq_unionOf_of_covers hts hus fun _ _ => ⟨.mono hts hus h, .mono hus hts h'⟩

theorem beq_unionOf_of_equalEach (hts : ∀ t ∈ ts, Normalized t) (hus : ∀ u ∈ us, Normalized u)
    (h : EqualEach ts us) : beq (unionOf ts) (unionOf us) = true :=
  beq_unionOf_of_exists hts hus h.exists_mem (h.symm fun t ht _ _ => beq_symm (hts t ht)).exists_mem

theorem EqualEach.map {f g : Ty → Ty} (h : EqualEach ts us)
    (hf : ∀ t ∈ ts, ∀ u ∈ us, beq t u = true → beq (f t) (g u) = true) :
    EqualEach (ts.map f) (us.map g) := by
  rw [EqualEach, List.forall₂_map_left_iff, List.forall₂_map_right_iff]
  exact h.imp_of_mem hf

theorem beq_subst (ht : Regular t) (hu : Regular u) (hs : s.Sound) (h : beq t u = true) :
    beq (subst s t) (subst s u) = true := by
  induction t using induction_children generalizing u with
  | made t ih =>
    have ih {c d : Ty} (hc : c ∈ t.children) (hd : d ∈ u.children) (hbeq : beq c d = true) :
        beq (subst s c) (subst s d) = true :=
      ih c hc (ht.children c hc) (hu.children d hd) hbeq
    have hchildren (hunion : t.isUnion = false) :
        EqualEach (t.children.map (subst s)) (u.children.map (subst s)) :=
      ((beq_iff hunion).1 h).2.map fun c hc d hd => ih hc hd
    have hslot (hslot : t = u) : beq (subst s t) (subst s u) = true := hslot ▸ beq_refl _
    have hregular {t : Ty} (ht : Regular t) : ∀ c ∈ t.children.map (subst s), Regular c :=
      List.forall_mem_map.2 fun c hc => regular_subst (ht.children c hc) hs
    have hsteady (hsteady : t.isSteady = true) : beq (subst s t) (subst s u) = true := by
      have hunion := isUnion_of_steady hsteady
      have hframe := ((beq_iff hunion).1 h).1
      have hsteady' : u.isSteady = true := (isSteady_of_beq h).trans hsteady
      refine (beq_iff (isUnion_of_steady (isSteady_subst hsteady))).2 ⟨?_, ?_⟩
      · rw [frame_subst hsteady, frame_subst hsteady', hframe]
      · rw [children_subst hsteady, children_subst hsteady']
        exact hchildren hunion
    cases t with
    | self =>
      cases u with
      | self => exact beq_refl _
      | _ => cases h
    | tpl name =>
      cases u with
      | tpl name' => exact hslot (congrArg tpl (beq_iff_eq.1 h))
      | _ => cases h
    | union members =>
      cases u with
      | union members' =>
        have hmem := (beq_union_iff.1 h).2
        have hback := (beq_union_iff.1 (beq_symm ht.normalized h)).2
        rw [subst_union, subst_union]
        refine beq_unionOf_of_exists (fun c hc => (hregular ht c hc).normalized)
          (fun c hc => (hregular hu c hc).normalized) (List.forall_mem_map.2 fun c hc => ?_)
          (List.forall_mem_map.2 fun d hd => ?_)
        · obtain ⟨d, hd, hcd⟩ := hmem c hc
          exact ⟨subst s d, List.mem_map_of_mem hd, ih hc hd hcd⟩
        · obtain ⟨c, hc, hdc⟩ := hback d hd
          have hcd := beq_symm (hu.children d hd).normalized hdc
          refine ⟨subst s c, List.mem_map_of_mem hc, ?_⟩
          exact beq_symm (hregular ht _ (List.mem_map_of_mem hc)).normalized (ih hc hd hcd)
      | _ => cases h
    | multi items =>
      cases u with
      | multi items' =>
        rw [subst_multi, subst_multi, beq, beqList_iff]
        exact equalEach_flattenMulti (fun c hc => (hregular ht c hc).flat)
          (fun c hc => (hregular hu c hc).flat) (hchildren rfl)
      | _ => cases h
    | variadic item =>
      cases u with
      | variadic item' =>
        have hitem := ih (.head _) (.head _) h
        rw [subst_variadic, subst_variadic, isMulti_of_beq hitem]
        split
        · exact hitem
        · exact hitem
      | _ => cases h
    | _ => exact hsteady rfl

variable {x : Ty}

theorem covers_allAlternatives : Covers (allAlternatives ts) x ↔
    ∃ t ∈ ts, Covers t.alternatives x := by
  simp only [Covers, mem_allAlternatives]
  constructor
  · rintro (⟨a, ⟨t, ht, ha⟩, hbeq⟩ | ⟨hconst, t, ht, hin⟩)
    · exact ⟨t, ht, .inl ⟨a, ha, hbeq⟩⟩
    · exact ⟨t, ht, .inr ⟨hconst, hin⟩⟩
  · rintro ⟨t, ht, ⟨a, ha, hbeq⟩ | ⟨hconst, hin⟩⟩
    · exact .inl ⟨a, ⟨t, ht, ha⟩, hbeq⟩
    · exact .inr ⟨hconst, t, ht, hin⟩

theorem covers_map {f : Ty → Ty} : Covers (allAlternatives (ts.map f)) x ↔
    ∃ t ∈ ts, Covers (f t).alternatives x := by
  rw [covers_allAlternatives]
  simp

theorem Covers.of_beq (ht : Normalized t) (hu : Normalized u) (h : beq t u = true)
    (hcovers : Covers t.alternatives x) : Covers u.alternatives x := by
  have hlisted := @Covers.mono [t] [u] x (by simpa using ht) (by simpa using hu) (by simpa using h)
    (covers_allAlternatives.2 ⟨t, .head _, hcovers⟩)
  simpa [allAlternatives] using hlisted

theorem unionOf_alternatives (h : Normalized t) (hsome : t.isNever = false) :
    unionOf t.alternatives = t := by
  cases hunknown : t.isUnknown with
  | false =>
    obtain ⟨hreduced, hself⟩ := h.reduced ⟨hunknown, hsome⟩
    rw [unionOf_of_reduced hreduced, hself]
  | true =>
    cases t with
    | unknown => rfl
    | _ => cases hunknown

theorem beq_of_covers (ht : Normalized t) (hu : Normalized u) (htsome : t.isNever = false)
    (husome : u.isNever = false) (h : ∀ a, a.isPoint = true →
      (Covers t.alternatives a ↔ Covers u.alternatives a)) : beq t u = true := by
  rw [← unionOf_alternatives ht htsome, ← unionOf_alternatives hu husome]
  refine beq_unionOf_of_covers (fun a ha => ht.alternatives ha) (fun a ha => hu.alternatives ha)
    fun a ha => ?_
  rw [allAlternatives_of_not_union (not_union_of_mem_alternatives t),
    allAlternatives_of_not_union (not_union_of_mem_alternatives u)]
  exact h a ha

theorem covers_subst (h : Normalized t) (hx : x.isPoint = true) :
    Covers (subst s t).alternatives x ↔
    Covers (allAlternatives (t.alternatives.map (subst s))) x := by
  cases hunion : t.isUnion with
  | false =>
    rw [alternatives_of_not_union hunion, covers_map]
    simp
  | true =>
    obtain ⟨members, rfl⟩ := exists_members hunion
    rw [subst_union, h.normal.alternatives_eq, covers_unionOf hx]

theorem covers_map_subst_mono (hts : ∀ t ∈ ts, Regular t) (hus : ∀ u ∈ us, Regular u) (hs : s.Sound)
    (hx : x.isPoint = true) (h : ∀ a, a.isPoint = true → Covers ts a → Covers us a)
    (hcovers : Covers (allAlternatives (ts.map (subst s))) x) :
    Covers (allAlternatives (us.map (subst s))) x := by
  have hbecomes {u : Ty} (hu : u ∈ us) (hcovers : Covers (subst s u).alternatives x) :
      Covers (allAlternatives (us.map (subst s))) x :=
    covers_map.2 ⟨u, hu, hcovers⟩
  have hboolean (hconst : x.isBoolConst = true) (hin : .boolean ∈ us) :
      Covers (allAlternatives (us.map (subst s))) x :=
    hbecomes hin (.inr ⟨hconst, .head _⟩)
  obtain ⟨t, ht, hcovers⟩ := covers_map.1 hcovers
  have hpoint (hpoint : t.isPoint = true) : Covers (allAlternatives (us.map (subst s))) x := by
    rcases h t hpoint (covers_self ht) with ⟨u, hu, hbeq⟩ | ⟨hconst, hin⟩
    · have hsame := beq_subst (hts t ht) (hus u hu) hs hbeq
      exact hbecomes hu (.of_beq (regular_subst (hts t ht) hs).normalized
        (regular_subst (hus u hu) hs).normalized hsame hcovers)
    · obtain ⟨value, rfl⟩ := exists_boolConst hconst
      rcases hcovers with ⟨c, hc, hbeq⟩ | ⟨hconst, -⟩
      · obtain rfl := List.mem_singleton.1 hc
        exact hboolean ((isBoolConst_eq_of_beq hbeq).symm.trans rfl) hin
      · exact hboolean hconst hin
  cases t with
  | boolean =>
    -- a constant stands for itself in the other list, unless `boolean` does for it
    rcases hcovers with ⟨c, hc, hbeq⟩ | ⟨hconst, -⟩
    · obtain rfl := List.mem_singleton.1 hc
      cases isPoint_of_beq hx hbeq
    · obtain ⟨value, rfl⟩ := exists_boolConst hconst
      rcases h (.boolConst value) rfl (.inr ⟨rfl, ht⟩) with ⟨u, hu, hbeq⟩ | ⟨-, hin⟩
      · obtain rfl := eq_boolConst_of_beq hbeq
        exact hbecomes hu (covers_self (.head _))
      · exact hboolean rfl hin
  | unknown | never => exact absurd hcovers (not_covers_singleton hx rfl nofun)
  | _ => exact hpoint rfl

theorem beq_subst_unionOf (hts : ∀ t ∈ ts, Regular t) (hs : s.Sound) :
    beq (subst s (unionOf ts)) (unionOf (ts.map (subst s))) = true := by
  have hunion : Regular (unionOf ts) := .unionOf hts
  have hmap : ∀ t ∈ ts.map (subst s), Normalized t :=
    List.forall_mem_map.2 fun t ht => (regular_subst (hts t ht) hs).normalized
  refine beq_of_covers (regular_subst hunion hs).normalized (.unionOf hmap)
    (isNever_subst hs (isNever_unionOf ts)) (isNever_unionOf _) fun x hx => ?_
  have hall : ∀ a ∈ allAlternatives ts, Regular a := by
    intro a ha
    obtain ⟨t, ht, ha⟩ := mem_allAlternatives.1 ha
    exact (hts t ht).alternatives a ha
  have hlisted : Covers (allAlternatives ((allAlternatives ts).map (subst s))) x ↔
      Covers (allAlternatives (ts.map (subst s))) x := by
    rw [covers_map, covers_map]
    constructor
    · rintro ⟨a, ha, hcovers⟩
      obtain ⟨t, ht, ha⟩ := mem_allAlternatives.1 ha
      exact ⟨t, ht, (covers_subst (hts t ht).normalized hx).2 (covers_map.2 ⟨a, ha, hcovers⟩)⟩
    · rintro ⟨t, ht, hcovers⟩
      obtain ⟨a, ha, hcovers⟩ := covers_map.1 ((covers_subst (hts t ht).normalized hx).1 hcovers)
      exact ⟨a, mem_allAlternatives.2 ⟨t, ht, ha⟩, hcovers⟩
  rw [covers_subst hunion.normalized hx, covers_unionOf hx, ← hlisted]
  exact ⟨covers_map_subst_mono hunion.alternatives hall hs hx fun a ha => (covers_unionOf ha).1,
    covers_map_subst_mono hall hunion.alternatives hs hx fun a ha => (covers_unionOf ha).2⟩

theorem isMulti_subst (h : t.isMulti = true) : (subst s t).isMulti = true := by
  cases t with
  | multi items => rfl
  | variadic item =>
    rw [subst_variadic]
    split
    · assumption
    · rfl
  | _ => cases h

theorem flattenMulti_map_flattenMulti (hne : ts ≠ []) (hts : ∀ t ∈ ts, Regular t) (hs : s.Sound) :
    flattenMulti ((flattenMulti ts).map (subst s)) = flattenMulti (ts.map (subst s)) := by
  obtain ⟨front, last, rfl⟩ := List.eq_nil_or_concat ts |>.resolve_left hne
  rw [List.concat_eq_append] at hts ⊢
  have hlast := hts last (by simp)
  rw [flattenMulti_concat, hlast.flat.tailValues_eq]
  cases hlist : last.isList with
  | false => rfl
  | true =>
    cases last with
    | multi items =>
      obtain ⟨between, final, rfl, -⟩ := isFlat_multi_iff.1 hlast.flat.here
      have hflat := (regular_subst hlast hs).flat.here
      rw [subst_multi] at hflat
      rw [if_pos rfl, children, List.map_append, List.map_append, List.map_append,
        List.map_singleton, List.map_singleton, ← List.append_assoc, flattenMulti_concat,
        flattenMulti_concat, subst_multi, tailValues, flattenMulti_of_flat hflat,
        List.map_append, List.map_singleton, flattenMulti_concat, List.append_assoc]
    | _ => cases hlist

variable {s'' : Substitution}

theorem sound_of_both (hs : s.Sound) (hs' : s'.Sound)
    (hboth : ∀ slot, s''.at? slot = ((s.at? slot).map (subst s')).or (s'.at? slot)) :
    s''.Sound := by
  have hbound {slot t : Ty} (h : s''.at? slot = some t) : Regular t ∧ t.isNever = false := by
    rw [hboth] at h
    cases hfirst : s.at? slot with
    | some u =>
      rw [hfirst] at h
      obtain rfl : subst s' u = t := by simpa using h
      exact ⟨regular_subst (hs.regular slot u hfirst) hs',
        isNever_subst hs' (hs.some_value slot u hfirst)⟩
    | none =>
      rw [hfirst] at h
      have h : s'.at? slot = some t := by simpa using h
      exact ⟨hs'.regular slot t h, hs'.some_value slot t h⟩
  exact ⟨fun _ _ h => (hbound h).1, fun _ _ h => (hbound h).2⟩

theorem beq_subst_subst (ht : Regular t) (hs : s.Sound) (hs' : s'.Sound)
    (hboth : ∀ slot, s''.at? slot = ((s.at? slot).map (subst s')).or (s'.at? slot)) :
    beq (subst s' (subst s t)) (subst s'' t) = true := by
  have hs'' := sound_of_both hs hs' hboth
  induction t using induction_children with
  | made t ih =>
    have ih : ∀ c ∈ t.children, beq (subst s' (subst s c)) (subst s'' c) = true :=
      fun c hc => ih c hc (ht.children c hc)
    have hone : ∀ c ∈ t.children.map (subst s), Regular c :=
      List.forall_mem_map.2 fun c hc => regular_subst (ht.children c hc) hs
    have htwo : ∀ c ∈ (t.children.map (subst s)).map (subst s'), Regular c :=
      List.forall_mem_map.2 fun c hc => regular_subst (hone c hc) hs'
    have hboth' : ∀ c ∈ t.children.map (subst s''), Regular c :=
      List.forall_mem_map.2 fun c hc => regular_subst (ht.children c hc) hs''
    have hchildren : EqualEach ((t.children.map (subst s)).map (subst s'))
        (t.children.map (subst s'')) := by
      rw [List.map_map, EqualEach, List.forall₂_map_left_iff, List.forall₂_map_right_iff,
        List.forall₂_same]
      exact ih
    have hslot (hslot : t = .self ∨ ∃ name, t = .tpl name) :
        beq (subst s' (subst s t)) (subst s'' t) = true := by
      rw [subst_slot (s := s) hslot, subst_slot (s := s'') hslot, hboth]
      cases s.at? t with
      | some u => exact beq_refl _
      | none =>
        rw [Option.getD_none, subst_slot hslot]
        exact beq_refl _
    have hsteady (hsteady : t.isSteady = true) :
        beq (subst s' (subst s t)) (subst s'' t) = true := by
      have hsteady' : (subst s t).isSteady = true := isSteady_subst hsteady
      refine (beq_iff (isUnion_of_steady (isSteady_subst hsteady'))).2 ⟨?_, ?_⟩
      · rw [frame_subst hsteady', frame_subst hsteady, frame_subst hsteady]
      · rw [children_subst hsteady', children_subst hsteady, children_subst hsteady]
        exact hchildren
    cases t with
    | self => exact hslot (.inl rfl)
    | tpl name => exact hslot (.inr ⟨name, rfl⟩)
    | union members =>
      rw [subst_union, subst_union]
      refine beq_trans (beq_subst_unionOf hone hs') ?_
      exact beq_unionOf_of_equalEach (fun c hc => (htwo c hc).normalized)
        (fun c hc => (hboth' c hc).normalized) hchildren
    | multi items =>
      have hne : items.map (subst s) ≠ [] := by
        obtain ⟨front, last, rfl, -⟩ := isFlat_multi_iff.1 ht.flat.here
        simp
      rw [subst_multi, subst_multi, subst_multi, flattenMulti_map_flattenMulti hne hone hs', beq,
        beqList_iff]
      exact equalEach_flattenMulti (fun c hc => (htwo c hc).flat)
        (fun c hc => (hboth' c hc).flat) hchildren
    | variadic item =>
      have hitem := ih item (.head _)
      rw [subst_variadic (s := s), subst_variadic (s := s''), isMulti_of_beq hitem]
      split
      · rename_i hmulti
        rw [isMulti_subst hmulti]
        exact hitem
      · rw [subst_variadic]
        split
        · exact hitem
        · exact hitem
    | _ => exact hsteady rfl

/-- A type occurs in itself and in what one of the types right below it occurs in. -/
inductive Occurs (u : Ty) : Ty → Prop where
  | here : Occurs u u
  | inside {t c : Ty} (hc : c ∈ t.children) (h : Occurs u c) : Occurs u t

theorem occurs_iff : Occurs u t ↔ u = t ∨ ∃ c ∈ t.children, Occurs u c := by
  constructor
  · rintro (_ | ⟨hc, h⟩)
    · exact .inl rfl
    · exact .inr ⟨_, hc, h⟩
  · rintro (rfl | ⟨c, hc, h⟩)
    · exact .here
    · exact .inside hc h

theorem Occurs.child {c : Ty} (h : Occurs t u) (hc : c ∈ t.children) : Occurs c u := by
  induction h with
  | here => exact .inside hc .here
  | inside hd _ ih => exact .inside hd ih

theorem subst_of_unbound (ht : Regular t) (h : ∀ slot, Occurs slot t → s.at? slot = none) :
    subst s t = t := by
  induction t using induction_children with
  | made t ih =>
    have hchildren : t.children.map (subst s) = t.children := by
      refine (List.map_congr_left fun c hc => ?_).trans (List.map_id' _)
      exact ih c hc (ht.children c hc) fun slot hslot => h slot (.inside hc hslot)
    have hslot (hslot : t = .self ∨ ∃ name, t = .tpl name) : subst s t = t := by
      rw [subst_slot hslot, h t .here]
      rfl
    have hsteady (hsteady : t.isSteady = true) : subst s t = t :=
      eq_of_frame (frame_subst hsteady) ((children_subst hsteady).trans hchildren)
    cases t with
    | self => exact hslot (.inl rfl)
    | tpl name => exact hslot (.inr ⟨name, rfl⟩)
    | union members =>
      have hmembers : members.map (subst s) = members := hchildren
      rw [subst_union, hmembers, unionOf_of_normal ht.normalized.normal]
    | multi items =>
      have hitems : items.map (subst s) = items := hchildren
      rw [subst_multi, hitems, flattenMulti_of_flat ht.flat.here]
    | variadic item =>
      have hitem : subst s item = item := List.singleton_inj.1 hchildren
      have hsingle : item.isMulti = false := by simpa [isFlat] using ht.flat.here
      rw [subst_variadic, hitem, hsingle]
      rfl
    | _ => exact hsteady rfl

end Ty

namespace Substitution

open Ty

variable {s s' : Substitution}

theorem Sound.of_bindings (h : ∀ b ∈ s.bindings, Regular b.2 ∧ b.2.isNever = false)
    (hself : ∀ t, s.self? = some t → Regular t ∧ t.isNever = false) : s.Sound := by
  have hbound {slot t : Ty} (hslot : s.at? slot = some t) : Regular t ∧ t.isNever = false := by
    cases slot with
    | self => exact hself t hslot
    | tpl name =>
      obtain ⟨b, hb, rfl⟩ := Option.map_eq_some_iff.1 hslot
      exact h b (List.mem_of_find?_eq_some hb)
    | _ => cases hslot
  exact ⟨fun _ _ h => (hbound h).1, fun _ _ h => (hbound h).2⟩

theorem at?_andThen (s s' : Substitution) (slot : Ty) :
    (s.andThen s').at? slot = ((s.at? slot).map (·.instantiate s')).or (s'.at? slot) := by
  cases slot with
  | tpl name =>
    simp only [at?, get?, andThen, List.find?_append, List.find?_map]
    rw [Option.map_or]
    simp [Function.comp_def]
  | _ => rfl

theorem instantiate_of_isEmpty (h : s.isEmpty = true) (t : Ty) : t.instantiate s = t := if_pos h

theorem andThen_of_isEmpty_left (h : s.isEmpty = true) : s.andThen s' = s' := by
  obtain ⟨bindings, self?⟩ := s
  simp only [isEmpty, Bool.and_eq_true, List.isEmpty_iff, Option.isNone_iff_eq_none] at h
  obtain ⟨rfl, rfl⟩ := h
  rfl

theorem andThen_of_isEmpty_right (h : s'.isEmpty = true) : s.andThen s' = s := by
  obtain ⟨bindings, self?⟩ := s'
  simp only [isEmpty, Bool.and_eq_true, List.isEmpty_iff, Option.isNone_iff_eq_none] at h
  obtain ⟨rfl, rfl⟩ := h
  simp [andThen, Ty.instantiate, isEmpty]

theorem isEmpty_andThen (h : s.isEmpty = false) : (s.andThen s').isEmpty = false := by
  obtain ⟨bindings, self?⟩ := s
  cases bindings <;> cases self? <;> simp_all [isEmpty, andThen]

end Substitution

namespace Ty

variable {t : Ty} {s s' : Substitution}

/-- To put types in the place of templates twice is to do it once with what the first types become
in the second turn. A type stays as it is if none of the templates in it is bound, and no receiver
is where it has a place for one. -/
theorem instantiate_andThen (ht : Regular t) (hs : s.Sound) (hs' : s'.Sound) :
    ((t.instantiate s).instantiate s' == t.instantiate (s.andThen s')) = true ∧
      ∀ s : Substitution, (∀ name, Occurs (.tpl name) t → s.get? name = none) → ¬ Occurs .self t ∨
      s.self? = none →
        t.instantiate s = t := by
  refine ⟨?_, fun s htpl hself => ?_⟩
  · cases hempty : s.isEmpty with
    | true =>
      rw [Substitution.instantiate_of_isEmpty hempty, Substitution.andThen_of_isEmpty_left hempty]
      exact beq_refl _
    | false =>
      cases hempty' : s'.isEmpty with
      | true =>
        rw [Substitution.instantiate_of_isEmpty hempty',
          Substitution.andThen_of_isEmpty_right hempty']
        exact beq_refl _
      | false =>
        have hboth : (s.andThen s').isEmpty = false := Substitution.isEmpty_andThen hempty
        have hsubst : (fun t : Ty => t.instantiate s') = subst s' :=
          funext fun t => by simp [instantiate, hempty']
        simp only [instantiate, hempty, hempty', hboth, Bool.false_eq_true, if_false]
        exact beq_subst_subst ht hs hs' fun slot => hsubst ▸ Substitution.at?_andThen s s' slot
  · rw [instantiate]
    split
    · rfl
    · refine subst_of_unbound ht fun slot hslot => ?_
      cases slot with
      | tpl name => exact htpl name hslot
      | self => exact hself.resolve_left (not_not_intro hslot)
      | _ => rfl

/-- A template becomes another one beside `nil` and then a union with it, and a repeated one becomes
a list. -/
theorem instantiate_andThen_callback :
    let t : Ty := .func false false [("x", some (.union [.tpl "T", .nil]))]
      (.multi [.boolean, .variadic (.tpl "R")])
    let s : Substitution := { bindings := [("T", .tpl "U"), ("R", .multi [.tpl "U", .integer])] }
    let s' : Substitution :=
      { bindings := [("U", .union [.string, .nil])], self? := some (.ref "C") }
    let unbound : Substitution := { bindings := [("U", .integer)], self? := some (.ref "C") }
    Regular t ∧ s.Sound ∧ s'.Sound ∧
      (t.instantiate s).instantiate s' =
        .func false false [("x", some (.union [.string, .nil]))]
          (.multi [.boolean, .union [.string, .nil], .integer]) ∧
      ((t.instantiate s).instantiate s' == t.instantiate (s.andThen s')) = true ∧
      (∀ name, Occurs (.tpl name) t → unbound.get? name = none) ∧ ¬ Occurs .self t ∧
      t.instantiate unbound = t := by
  intro t s s' unbound
  have hleaf {t : Ty} (hunion : t.isUnion = false) (hflat : t.isFlat = true) (h : t.children = []) :
      Regular t :=
    .leaf hunion hflat h
  have hoptional {t : Ty} (ht : Regular t) (hunited : unionOf [t, .nil] = .union [t, .nil]) :
      Regular (.union [t, .nil]) :=
    hunited ▸ .unionOf (by simpa using ⟨ht, hleaf rfl rfl rfl⟩)
  have hrepeated : Regular (.variadic (.tpl "R")) :=
    .made rfl rfl (by simpa [children] using hleaf rfl rfl rfl)
  have hret : Regular (.multi [.boolean, .variadic (.tpl "R")]) :=
    .made rfl rfl (by simpa [children] using ⟨hleaf rfl rfl rfl, hrepeated⟩)
  have ht : Regular t :=
    .made rfl rfl (by simpa [children, t] using ⟨hoptional (hleaf rfl rfl rfl) rfl, hret⟩)
  have hlist : Regular (.multi [.tpl "U", .integer]) :=
    .made rfl rfl (by simpa [children] using ⟨hleaf rfl rfl rfl, hleaf rfl rfl rfl⟩)
  have hs : s.Sound := by
    refine .of_bindings ?_ (by simp [s])
    simpa [s] using ⟨⟨hleaf rfl rfl rfl, rfl⟩, hlist, rfl⟩
  have hs' : s'.Sound := by
    refine .of_bindings ?_ ?_
    · simpa [s'] using ⟨hoptional (hleaf rfl rfl rfl) rfl, rfl⟩
    · simpa [s'] using ⟨hleaf rfl rfl rfl, rfl⟩
  have hparts {u : Ty} : Occurs u t ↔
      u ∈ [t, .union [.tpl "T", .nil], .tpl "T", .nil, .multi [.boolean, .variadic (.tpl "R")],
      .boolean, .variadic (.tpl "R"), .tpl "R"] := by
    simp [t, children, occurs_iff (t := .func ..), occurs_iff (t := .union _),
      occurs_iff (t := .multi _), occurs_iff (t := .variadic _), occurs_iff (t := .tpl _),
      occurs_iff (t := .nil), occurs_iff (t := .boolean), or_assoc]
  have hfree : ∀ name, Occurs (.tpl name) t → unbound.get? name = none := by
    intro name h
    have hname : name = "T" ∨ name = "R" := by simpa [t] using hparts.1 h
    rcases hname with rfl | rfl <;> rfl
  have hself : ¬ Occurs .self t := fun h => by simpa [t] using hparts.1 h
  exact ⟨ht, hs, hs', rfl, (instantiate_andThen ht hs hs').1, hfree, hself,
    (instantiate_andThen ht hs hs').2 unbound hfree (.inl hself)⟩

end Ty

end LuaAnalysis.Types
