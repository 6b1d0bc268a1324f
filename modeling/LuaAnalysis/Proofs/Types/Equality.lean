import Mathlib.Data.List.Forall2
import Mathlib.Data.List.Perm.Basic
import LuaAnalysis.Proofs.Types.Unions

/-!
Equality of types, told from the types right below: they are equal one by one, but for those below a
union, which may stand in any order. It is an equivalence of the types in which no union has a
member twice, as in those in which every union was built.
-/

namespace LuaAnalysis.Types.Ty

theorem sizeOf_lt_of_mem_children {t c : Ty} (h : c ∈ t.children) : sizeOf c < sizeOf t := by
  cases t with
  | array item | variadic item =>
    obtain rfl := List.mem_singleton.1 h
    simp +arith
  | tuple items | multi items | union members | generic base params =>
    simp only [children] at h
    have hlt := List.sizeOf_lt_of_mem h
    simp only [tuple.sizeOf_spec, multi.sizeOf_spec, union.sizeOf_spec, generic.sizeOf_spec]
    omega
  | object fields access =>
    rcases List.mem_append.1 h with h | h
    · obtain ⟨⟨key, t⟩, hfield, rfl⟩ := List.mem_map.1 h
      have hlt := List.sizeOf_lt_of_mem hfield
      simp only [object.sizeOf_spec, Prod.mk.sizeOf_spec] at hlt ⊢
      omega
    · obtain ⟨⟨key, value⟩, hentry, ht⟩ := List.mem_flatMap.1 h
      have hlt := List.sizeOf_lt_of_mem hentry
      simp only [object.sizeOf_spec, Prod.mk.sizeOf_spec] at hlt ⊢
      rcases List.mem_pair.1 ht with rfl | rfl <;> omega
  | func isAsync isColon params ret =>
    rcases List.mem_append.1 h with h | h
    · obtain ⟨⟨name, t⟩, hparam, ht⟩ := List.mem_filterMap.1 h
      have hlt := List.sizeOf_lt_of_mem hparam
      obtain rfl : t = some c := ht
      simp only [func.sizeOf_spec, Prod.mk.sizeOf_spec, Option.some.sizeOf_spec] at hlt ⊢
      omega
    · obtain rfl := List.mem_singleton.1 h
      simp +arith
  | _ => cases h

@[elab_as_elim]
theorem induction_children {p : Ty → Prop} (made : ∀ t, (∀ c ∈ t.children, p c) → p t)
    (t : Ty) : p t :=
  made t fun c _ => induction_children made c
termination_by sizeOf t
decreasing_by exact sizeOf_lt_of_mem_children ‹_›

def frameParam (p : String × Option Ty) : String × Option Ty := (p.1, p.2.map fun _ => .unknown)

def frame : Ty → Ty
  | .array _ => .array .unknown
  | .tuple items => .tuple (items.map fun _ => .unknown)
  | .object fields access => .object (fields.map fun (key, _) => (key, .unknown))
      (access.map fun _ => (.unknown, .unknown))
  | .union members => .union (members.map fun _ => .unknown)
  | .generic base params => .generic base (params.map fun _ => .unknown)
  | .func isAsync isColon params _ => .func isAsync isColon (params.map frameParam) .unknown
  | .multi items => .multi (items.map fun _ => .unknown)
  | .variadic _ => .variadic .unknown
  | t => t

theorem isUnion_frame (t : Ty) : t.frame.isUnion = t.isUnion := by cases t <;> rfl

abbrev EqualEach (as bs : List Ty) : Prop := List.Forall₂ (fun a b => beq a b = true) as bs

theorem EqualEach.append_iff {as bs cs ds : List Ty} (h : as.length = bs.length) :
    EqualEach (as ++ cs) (bs ++ ds) ↔ EqualEach as bs ∧ EqualEach cs ds := by
  induction as generalizing bs with
  | nil =>
    obtain rfl := List.length_eq_zero_iff.1 h.symm
    simp [EqualEach]
  | cons a as ih =>
    obtain ⟨b, bs, rfl⟩ := List.exists_cons_of_length_eq_add_one h.symm
    simp only [EqualEach, List.cons_append, List.forall₂_cons] at ih ⊢
    rw [ih (Nat.succ.inj h), and_assoc]

theorem beqList_iff {as bs : List Ty} : beqList as bs = true ↔ EqualEach as bs := by
  induction as generalizing bs with
  | nil => cases bs <;> simp [beqList]
  | cons a as ih => cases bs <;> simp [beqList, ih]

theorem beqFields_iff {fs gs : List (MemberKey × Ty)} : beqFields fs gs = true ↔
    (fs.map fun (key, _) => (key, Ty.unknown)) = (gs.map fun (key, _) => (key, Ty.unknown)) ∧
      EqualEach (fs.map (·.2)) (gs.map (·.2)) := by
  induction fs generalizing gs with
  | nil => cases gs <;> simp [beqFields]
  | cons f fs ih =>
    cases gs with
    | nil => simp [beqFields]
    | cons g gs =>
      simp only [beqFields, Bool.and_eq_true, ih, beq_iff_eq, List.map_cons, List.cons.injEq,
        Prod.mk.injEq, and_true, List.forall₂_cons]
      tauto

theorem beqAccess_iff {as bs : List (Ty × Ty)} : beqAccess as bs = true ↔
    as.length = bs.length ∧
    EqualEach (as.flatMap fun (k, v) => [k, v]) (bs.flatMap fun (k, v) => [k, v]) := by
  induction as generalizing bs with
  | nil => cases bs <;> simp [beqAccess]
  | cons a as ih =>
    cases bs with
    | nil => simp [beqAccess]
    | cons b bs =>
      simp only [beqAccess, Bool.and_eq_true, ih, List.flatMap_cons, List.cons_append,
        List.nil_append, List.forall₂_cons, List.length_cons, Nat.add_right_cancel_iff]
      tauto

theorem beqParams_iff {ps qs : List (String × Option Ty)} : beqParams ps qs = true ↔
    ps.map frameParam = qs.map frameParam ∧
    EqualEach (ps.filterMap (·.2)) (qs.filterMap (·.2)) := by
  induction ps generalizing qs with
  | nil => cases qs <;> simp [beqParams]
  | cons p ps ih =>
    obtain ⟨name, t⟩ := p
    rcases qs with _ | ⟨⟨name', t'⟩, qs⟩
    · cases t <;> simp [beqParams]
    · cases t <;> cases t' <;> simp [beqParams, frameParam, ih] <;> tauto

theorem length_paramTypes {ps qs : List (String × Option Ty)}
    (h : ps.map frameParam = qs.map frameParam) :
    (ps.filterMap (·.2)).length = (qs.filterMap (·.2)).length := by
  have hlength (rs : List (String × Option Ty)) :
      (rs.filterMap (·.2)).length = ((rs.map frameParam).filterMap (·.2)).length := by
    induction rs with
    | nil => rfl
    | cons r rs ih => obtain ⟨name, _ | t⟩ := r <;> simpa [frameParam] using ih
  rw [hlength ps, hlength qs, h]

theorem beq_iff {a b : Ty} (ha : a.isUnion = false) :
    beq a b = true ↔ a.frame = b.frame ∧ EqualEach a.children b.children := by
  cases a with
  | union members => cases ha
  | tuple items | multi items =>
    cases b <;> simp [beq, frame, children, beqList_iff]
    exact List.Forall₂.length_eq
  | generic base params =>
    cases b <;> simp [beq, frame, children, beqList_iff]
    exact fun h _ => h.length_eq
  | object fields access =>
    cases b with
    | object fields' access' =>
      simp only [beq, frame, children, Bool.and_eq_true, beqFields_iff, beqAccess_iff, object.injEq,
        List.map_const', List.replicate_inj]
      constructor
      · rintro ⟨⟨hkeys, hfields⟩, hlength, haccess⟩
        exact ⟨⟨hkeys, hlength, .inr trivial⟩,
          (EqualEach.append_iff hfields.length_eq).2 ⟨hfields, haccess⟩⟩
      · rintro ⟨⟨hkeys, hlength, -⟩, hall⟩
        have hkeysLength : (fields.map (·.2)).length = (fields'.map (·.2)).length := by
          simpa using congrArg List.length hkeys
        obtain ⟨hfields, haccess⟩ := (EqualEach.append_iff hkeysLength).1 hall
        exact ⟨⟨hkeys, hfields⟩, hlength, haccess⟩
    | _ => simp [beq, frame]
  | func isAsync isColon params ret =>
    cases b with
    | func isAsync' isColon' params' ret' =>
      simp only [beq, frame, children, Bool.and_eq_true, beqParams_iff, func.injEq,
        beq_iff_eq, and_true]
      constructor
      · rintro ⟨⟨⟨hasync, hcolon⟩, hnames, hparams⟩, hret⟩
        exact ⟨⟨hasync, hcolon, hnames⟩,
          (EqualEach.append_iff hparams.length_eq).2 ⟨hparams, .cons hret .nil⟩⟩
      · rintro ⟨⟨hasync, hcolon, hnames⟩, hall⟩
        obtain ⟨hparams, hret⟩ := (EqualEach.append_iff (length_paramTypes hnames)).1 hall
        exact ⟨⟨⟨hasync, hcolon⟩, hnames, hparams⟩, (List.forall₂_cons.1 hret).1⟩
    | _ => simp [beq, frame]
  | _ => cases b <;> simp [beq, frame, children]

theorem fields_eq {fs gs : List (MemberKey × Ty)}
    (hkeys : (fs.map fun (key, _) => (key, Ty.unknown)) = gs.map fun (key, _) => (key, Ty.unknown))
    (h : fs.map (·.2) = gs.map (·.2)) : fs = gs := by
  induction fs generalizing gs with
  | nil => exact (List.map_eq_nil_iff.1 h.symm).symm
  | cons f fs ih =>
    cases gs with
    | nil => cases h
    | cons g gs =>
      obtain ⟨hkey, hrest⟩ := List.cons.inj hkeys
      obtain ⟨htype, hbelow⟩ := List.cons.inj h
      rw [ih hrest hbelow, Prod.ext (Prod.mk.inj hkey).1 htype]

theorem access_eq {as bs : List (Ty × Ty)} (hlength : as.length = bs.length)
    (h : (as.flatMap fun (k, v) => [k, v]) = bs.flatMap fun (k, v) => [k, v]) : as = bs := by
  induction as generalizing bs with
  | nil => exact (List.length_eq_zero_iff.1 hlength.symm).symm
  | cons a as ih =>
    cases bs with
    | nil => cases hlength
    | cons b bs =>
      obtain ⟨hkey, h⟩ := List.cons.inj h
      obtain ⟨hvalue, h⟩ := List.cons.inj h
      rw [ih (Nat.succ.inj hlength) h, Prod.ext hkey hvalue]

theorem params_eq {ps qs : List (String × Option Ty)}
    (hframe : ps.map frameParam = qs.map frameParam) (h : ps.filterMap (·.2) = qs.filterMap (·.2)) :
    ps = qs := by
  induction ps generalizing qs with
  | nil => exact (List.map_eq_nil_iff.1 hframe.symm).symm
  | cons p ps ih =>
    cases qs with
    | nil => cases hframe
    | cons q qs =>
      obtain ⟨name, type⟩ := p
      obtain ⟨name', type'⟩ := q
      obtain ⟨hparam, hframes⟩ := List.cons.inj hframe
      obtain ⟨hname, htyped⟩ := Prod.mk.inj hparam
      cases type <;> cases type' <;> simp at h htyped
      · rw [ih hframes h, show name = name' from hname]
      · rw [ih hframes h.2, show name = name' from hname, h.1]

theorem eq_of_frame {a b : Ty} (hframe : a.frame = b.frame)
    (h : a.children = b.children) : a = b := by
  cases a with
  | object fields access =>
    cases b with
    | object fields' access' =>
      obtain ⟨hkeys, haccess⟩ := Ty.object.inj hframe
      have hlength : (fields.map (·.2)).length = (fields'.map (·.2)).length := by
        simpa using congrArg List.length hkeys
      obtain ⟨hfields, hentries⟩ := List.append_inj h hlength
      rw [fields_eq hkeys hfields, access_eq (by simpa using congrArg List.length haccess) hentries]
    | _ => cases hframe
  | func isAsync isColon params ret =>
    cases b with
    | func isAsync' isColon' params' ret' =>
      obtain ⟨rfl, rfl, hparams, -⟩ := Ty.func.inj hframe
      obtain ⟨htypes, hret⟩ := List.append_inj h (length_paramTypes hparams)
      rw [params_eq hparams htypes, List.singleton_inj.1 hret]
    | _ => cases hframe
  | _ => cases b <;> simp_all [frame, children]

theorem beq_union_iff {as bs : List Ty} :
    beq (.union as) (.union bs) = true ↔ as.length = bs.length ∧
    ∀ a ∈ as, ∃ b ∈ bs, beq a b = true := by
  simp [beq, allIn_eq]

theorem exists_members {t : Ty} (h : t.isUnion = true) : ∃ members, t = .union members := by
  cases t with
  | union members => exact ⟨members, rfl⟩
  | _ => cases h

theorem isUnion_of_beq {a b : Ty} (h : beq a b = true) : b.isUnion = a.isUnion := by
  cases ha : a.isUnion with
  | false => rw [← isUnion_frame, ← ((beq_iff ha).1 h).1, isUnion_frame, ha]
  | true =>
    obtain ⟨members, rfl⟩ := exists_members ha
    cases b with
    | union members' => rfl
    | _ => cases h

theorem beq_refl (t : Ty) : beq t t = true := by
  induction t using induction_children with
  | made t ih =>
    cases ht : t.isUnion with
    | false => exact (beq_iff ht).2 ⟨rfl, List.forall₂_same.2 ih⟩
    | true =>
      obtain ⟨members, rfl⟩ := exists_members ht
      exact beq_union_iff.2 ⟨rfl, fun t hmem => ⟨t, hmem, ih t hmem⟩⟩

theorem EqualEach.imp_of_mem {R : Ty → Ty → Prop} {as bs : List Ty} (h : EqualEach as bs)
    (himp : ∀ a ∈ as, ∀ b ∈ bs, beq a b = true → R a b) : List.Forall₂ R as bs := by
  induction h with
  | nil => exact .nil
  | cons hfirst hrest ih =>
    exact .cons (himp _ (.head _) _ (.head _) hfirst)
      (ih fun a ha b hb => himp a (.tail _ ha) b (.tail _ hb))

theorem EqualEach.symm {as bs : List Ty} (h : EqualEach as bs)
    (hsymm : ∀ a ∈ as, ∀ b ∈ bs, beq a b = true → beq b a = true) : EqualEach bs as :=
  (h.imp_of_mem hsymm).flip

theorem EqualEach.map_eq {α : Type} {f : Ty → α} {as bs : List Ty} (h : EqualEach as bs)
    (hf : ∀ a ∈ as, ∀ b ∈ bs, beq a b = true → f a = f b) : as.map f = bs.map f := by
  rw [← List.forall₂_eq_eq_eq, List.forall₂_map_left_iff, List.forall₂_map_right_iff]
  exact h.imp_of_mem hf

theorem EqualEach.exists_mem {as bs : List Ty} (h : EqualEach as bs) :
    ∀ a ∈ as, ∃ b ∈ bs, beq a b = true := by
  induction h with
  | nil => simp
  | cons hfirst _ ih =>
    refine List.forall_mem_cons.2 ⟨⟨_, .head _, hfirst⟩, fun a ha => ?_⟩
    obtain ⟨b, hb, hab⟩ := ih a ha
    exact ⟨b, .tail _ hb, hab⟩

theorem EqualEach.trans {as bs cs : List Ty}
    (htrans : ∀ a ∈ as, ∀ b c, beq a b = true → beq b c = true → beq a c = true)
    (hab : EqualEach as bs)
    (hbc : EqualEach bs cs) : EqualEach as cs := by
  induction hab generalizing cs with
  | nil => exact hbc
  | cons hfirst hrest ih =>
    obtain ⟨c, cs, hfirst', hrest', rfl⟩ := List.forall₂_cons_left_iff.1 hbc
    obtain ⟨ha, has⟩ := List.forall_mem_cons.1 htrans
    exact .cons (ha _ _ hfirst hfirst') (ih has hrest')

theorem beq_trans {a b c : Ty} (hab : beq a b = true) (hbc : beq b c = true) : beq a c = true := by
  induction a using induction_children generalizing b c with
  | made a ih =>
    have hb := isUnion_of_beq hab
    cases ha : a.isUnion with
    | false =>
      obtain ⟨hframe, hchildren⟩ := (beq_iff ha).1 hab
      obtain ⟨hframe', hchildren'⟩ := (beq_iff (hb.trans ha)).1 hbc
      exact (beq_iff ha).2 ⟨hframe.trans hframe',
        hchildren.trans (fun a hmem _ _ => ih a hmem) hchildren'⟩
    | true =>
      obtain ⟨as, rfl⟩ := exists_members ha
      obtain ⟨bs, rfl⟩ := exists_members hb
      obtain ⟨cs, rfl⟩ := exists_members (isUnion_of_beq hbc)
      obtain ⟨hlength, hmem⟩ := beq_union_iff.1 hab
      obtain ⟨hlength', hmem'⟩ := beq_union_iff.1 hbc
      refine beq_union_iff.2 ⟨hlength.trans hlength', fun a ha => ?_⟩
      obtain ⟨b, hb, hab⟩ := hmem a ha
      obtain ⟨c, hc, hbc⟩ := hmem' b hb
      exact ⟨c, hc, ih a ha hab hbc⟩

theorem exists_equalEach {as bs : List Ty} (hdistinct : Distinct as)
    (hsymm : ∀ a ∈ as, ∀ b ∈ bs, beq a b = true → beq b a = true)
    (h : ∀ a ∈ as, ∃ b ∈ bs, beq a b = true) :
    ∃ paired rest, bs.Perm (paired ++ rest) ∧ EqualEach as paired := by
  induction as generalizing bs with
  | nil => exact ⟨[], bs, .refl bs, .nil⟩
  | cons a as ih =>
    obtain ⟨hfirst, hdistinct⟩ := List.pairwise_cons.1 hdistinct
    obtain ⟨⟨b, hb, hab⟩, h⟩ := List.forall_mem_cons.1 h
    obtain ⟨before, after, rfl⟩ := List.append_of_mem hb
    have hperm : (before ++ b :: after).Perm (b :: (before ++ after)) := List.perm_middle
    -- what is equal to `b` too would be equal to `a`
    have hothers : ∀ a' ∈ as, ∃ b' ∈ before ++ after, beq a' b' = true := by
      intro a' ha'
      obtain ⟨b', hb', hab'⟩ := h a' ha'
      rcases List.mem_cons.1 (hperm.mem_iff.1 hb') with rfl | hb'
      · have hsame := beq_trans hab' (hsymm a (.head _) _ hb hab)
        rw [hfirst a' ha'] at hsame
        cases hsame
      · exact ⟨b', hb', hab'⟩
    have hsymm' : ∀ a' ∈ as, ∀ b' ∈ before ++ after, beq a' b' = true → beq b' a' = true :=
      fun a' ha' b' hb' => hsymm a' (.tail _ ha') b' (hperm.mem_iff.2 (.tail _ hb'))
    obtain ⟨paired, rest, hrest, hpaired⟩ := ih hdistinct hsymm' hothers
    exact ⟨b :: paired, rest, hperm.trans (hrest.cons b), .cons hab hpaired⟩

theorem exists_perm_equalEach {as bs : List Ty} (hdistinct : Distinct as)
    (hsymm : ∀ a ∈ as, ∀ b ∈ bs, beq a b = true → beq b a = true) (hlength : as.length = bs.length)
    (h : ∀ a ∈ as, ∃ b ∈ bs, beq a b = true) : ∃ paired, bs.Perm paired ∧ EqualEach as paired := by
  obtain ⟨paired, rest, hperm, hpaired⟩ := exists_equalEach hdistinct hsymm h
  have hrest : rest = [] := by
    have hlength' := hperm.length_eq
    rw [List.length_append, ← hpaired.length_eq] at hlength'
    exact List.length_eq_zero_iff.1 (by omega)
  rw [hrest, List.append_nil] at hperm
  exact ⟨paired, hperm, hpaired⟩

inductive Unrepeated : Ty → Prop where
  | made {t : Ty} (hdistinct : ∀ members, t = .union members → Distinct members)
      (h : ∀ c ∈ t.children, Unrepeated c) : Unrepeated t

theorem Unrepeated.distinct {members : List Ty} (h : Unrepeated (.union members)) :
    Distinct members := by
  cases h with
  | made hdistinct h => exact hdistinct members rfl

theorem Unrepeated.children {t : Ty} (h : Unrepeated t) : ∀ c ∈ t.children, Unrepeated c := by
  cases h with
  | made hdistinct h => exact h

theorem Unrepeated.leaf {t : Ty} (hunion : t.isUnion = false) (h : t.children = []) :
    Unrepeated t :=
  .made (fun members ht => by rw [ht] at hunion; cases hunion) (by simp [h])

theorem Unrepeated.union {members : List Ty} (hdistinct : Distinct members)
    (h : ∀ m ∈ members, Unrepeated m) : Unrepeated (.union members) :=
  .made (fun _ hmembers => Ty.union.inj hmembers ▸ hdistinct) h

theorem Unrepeated.beq_symm {a b : Ty} (ha : Unrepeated a) (h : beq a b = true) :
    beq b a = true := by
  induction a using induction_children generalizing b with
  | made a ih =>
    have hunion := isUnion_of_beq h
    have hsymm : ∀ c ∈ a.children, ∀ d ∈ b.children, beq c d = true → beq d c = true :=
      fun c hc d _ => ih c hc (ha.children c hc)
    cases hau : a.isUnion with
    | false =>
      obtain ⟨hframe, hchildren⟩ := (beq_iff hau).1 h
      exact (beq_iff (hunion.trans hau)).2 ⟨hframe.symm, hchildren.symm hsymm⟩
    | true =>
      obtain ⟨as, rfl⟩ := exists_members hau
      obtain ⟨bs, rfl⟩ := exists_members (hunion.trans hau)
      obtain ⟨hlength, hmem⟩ := beq_union_iff.1 h
      -- as many members on both sides leave none on the right without one on the left
      obtain ⟨paired, hperm, hpaired⟩ := exists_perm_equalEach ha.distinct hsymm hlength hmem
      have hback : EqualEach paired as := hpaired.symm fun a ha b hb =>
        hsymm a ha b (hperm.mem_iff.2 hb)
      exact beq_union_iff.2 ⟨hlength.symm, fun b hb => hback.exists_mem b (hperm.mem_iff.1 hb)⟩

/-- The types made of types without parts, in which every union was built. -/
inductive Normalized : Ty → Prop where
  | made {t : Ty} (hunion : t.isUnion = false) (h : ∀ c ∈ t.children, Normalized c) : Normalized t
  | unionOf {ts : List Ty} (h : ∀ t ∈ ts, Normalized t) : Normalized (unionOf ts)

theorem Normalized.leaf {t : Ty} (hunion : t.isUnion = false) (h : t.children = []) :
    Normalized t :=
  .made hunion (by simp [h])

theorem alternatives_ofMembers {ts : List Ty} (h : Reduced ts) :
    alternatives (ofMembers ts) = if ts = [] then [.unknown] else ts := by
  match ts with
  | [] => rfl
  | [t] => rw [ofMembers, alternatives_of_not_union (h.single t (.head _)).1, if_neg (by simp)]
  | t :: u :: ts =>
    have hunion : ofMembers (t :: u :: ts) = .union (t :: u :: ts) := rfl
    rw [hunion, alternatives, allAlternatives_of_not_union fun t ht => (h.single t ht).1,
      if_neg (by simp)]

theorem normal_of_ofMembers {ts members : List Ty} (h : Reduced ts)
    (hunion : ofMembers ts = .union members) : Normal members := by
  match ts with
  | [] => cases hunion
  | [t] =>
    have hsingle := (h.single t (.head _)).1
    rw [show t = .union members from hunion] at hsingle
    cases hsingle
  | t :: u :: ts =>
    obtain rfl : t :: u :: ts = members := Ty.union.inj hunion
    exact ⟨by simp, h.single, h.distinct, h.merged⟩

theorem Normalized.spec {t : Ty} (h : Normalized t) :
    (∀ a ∈ t.alternatives, Normalized a ∧ ∀ c ∈ a.children, Normalized c) ∧
    ∀ members, t = .union members → Normal members := by
  have hleaf {a : Ty} (hunion : a.isUnion = false) (hchildren : a.children = []) :
      Normalized a ∧ ∀ c ∈ a.children, Normalized c :=
    ⟨.leaf hunion hchildren, by simp [hchildren]⟩
  induction h with
  | @made t hunion h _ =>
    refine ⟨fun a ha => ?_, fun members ht => by rw [ht] at hunion; cases hunion⟩
    rw [alternatives_of_not_union hunion, List.mem_singleton] at ha
    exact ha ▸ ⟨.made hunion h, h⟩
  | @unionOf ts _ ih =>
    have hreduced := reduced_unionMembers ts
    refine ⟨fun a ha => ?_, fun members hunion => normal_of_ofMembers hreduced hunion⟩
    rw [unionOf_eq, alternatives_ofMembers hreduced] at ha
    split at ha
    · obtain rfl := List.mem_singleton.1 ha
      exact hleaf rfl rfl
    · rcases mem_unionMembers ha with rfl | ha
      · exact hleaf rfl rfl
      · obtain ⟨t, ht, ha⟩ := mem_allAlternatives.1 (List.mem_of_mem_filter ha)
        exact (ih t ht).1 a ha

theorem Normalized.alternatives {t a : Ty} (h : Normalized t) (ha : a ∈ t.alternatives) :
    Normalized a := (h.spec.1 a ha).1

theorem Normalized.normal {members : List Ty} (h : Normalized (.union members)) : Normal members :=
  h.spec.2 members rfl

theorem Normal.alternatives_eq {members : List Ty} (h : Normal members) :
    Ty.alternatives (.union members) = members :=
  allAlternatives_of_not_union fun t ht => (h.single t ht).1

theorem Normalized.children {t : Ty} (h : Normalized t) : ∀ c ∈ t.children, Normalized c := by
  cases ht : t.isUnion with
  | false => exact (h.spec.1 t (by rw [alternatives_of_not_union ht]; exact .head _)).2
  | true =>
    obtain ⟨members, rfl⟩ := exists_members ht
    exact fun c hc => h.alternatives (by rwa [h.normal.alternatives_eq])

theorem Normalized.unrepeated {t : Ty} (h : Normalized t) : Unrepeated t := by
  induction t using induction_children with
  | made t ih =>
    refine .made (fun members ht => ?_) fun c hc => ih c hc (h.children c hc)
    subst ht
    exact h.normal.distinct

theorem beq_symm {a b : Ty} (ha : Normalized a) (h : beq a b = true) : beq b a = true :=
  ha.unrepeated.beq_symm h

theorem beq_comm {a b : Ty} (ha : Normalized a) (hb : Normalized b) : beq a b = beq b a :=
  Bool.eq_iff_iff.2 ⟨beq_symm ha, beq_symm hb⟩

def Alike (a b : Ty) : Prop := beq a b = true ∧ beq b a = true

theorem alike_refl (t : Ty) : Alike t t := ⟨beq_refl t, beq_refl t⟩

theorem alike_of_children {a b : Ty} (ha : a.isUnion = false) (hframe : a.frame = b.frame)
    (h : List.Forall₂ Alike a.children b.children) : Alike a b := by
  have hb : b.isUnion = false := by rw [← isUnion_frame, ← hframe, isUnion_frame, ha]
  exact ⟨(beq_iff ha).2 ⟨hframe, h.imp fun _ _ h => h.1⟩,
    (beq_iff hb).2 ⟨hframe.symm, (h.imp fun _ _ h => h.2).flip⟩⟩

theorem alike_union {as bs : List Ty} (h : List.Forall₂ Alike as bs) :
    Alike (.union as) (.union bs) := by
  have hab : EqualEach as bs := h.imp fun _ _ h => h.1
  have hba : EqualEach bs as := (h.imp fun _ _ h => h.2).flip
  exact ⟨beq_union_iff.2 ⟨h.length_eq, hab.exists_mem⟩,
    beq_union_iff.2 ⟨h.length_eq.symm, hba.exists_mem⟩⟩

theorem alike_beside_nil {t u : Ty} (h : Alike t u) {ts : List Ty}
    (hts : ts = [t, .nil] ∨ ts = [.nil, t]) : Alike (.union ts) (.union [u, .nil]) := by
  have hnil : beq .nil .nil = true := rfl
  rcases hts with rfl | rfl
  · exact alike_union (.cons h (.cons (alike_refl .nil) .nil))
  · exact ⟨beq_union_iff.2 ⟨rfl, by simp [h.1, hnil]⟩, beq_union_iff.2 ⟨rfl, by simp [h.2, hnil]⟩⟩

theorem alike_tuple {ts us : List Ty} (h : List.Forall₂ Alike ts us) :
    Alike (.tuple ts) (.tuple us) :=
  alike_of_children rfl (by simp [frame, List.map_const', h.length_eq]) h

theorem alike_generic (base : String) {ts us : List Ty} (h : List.Forall₂ Alike ts us) :
    Alike (.generic base ts) (.generic base us) :=
  alike_of_children rfl (by simp [frame, List.map_const', h.length_eq]) h

theorem alike_multi {ts us : List Ty} (h : List.Forall₂ Alike ts us) :
    Alike (.multi ts) (.multi us) :=
  alike_of_children rfl (by simp [frame, List.map_const', h.length_eq]) h

theorem alike_array {t u : Ty} (h : Alike t u) : Alike (.array t) (.array u) :=
  alike_of_children rfl rfl (.cons h .nil)

theorem alike_variadic {t u : Ty} (h : Alike t u) : Alike (.variadic t) (.variadic u) :=
  alike_of_children rfl rfl (.cons h .nil)

def AlikeParam (p q : String × Option Ty) : Prop := p.1 = q.1 ∧ Option.Rel Alike p.2 q.2

theorem alike_func {ps qs : List (String × Option Ty)} (hparams : List.Forall₂ AlikeParam ps qs)
    {ret ret' : Ty} (hret : Alike ret ret') :
    Alike (.func false false ps ret) (.func false false qs ret') := by
  have hboth : ps.map frameParam = qs.map frameParam ∧
      List.Forall₂ Alike (ps.filterMap (·.2)) (qs.filterMap (·.2)) := by
    induction hparams with
    | nil => exact ⟨rfl, .nil⟩
    | @cons p q ps qs hfirst _ ih =>
      obtain ⟨name, type⟩ := p
      obtain ⟨name', type'⟩ := q
      obtain ⟨rfl, htype⟩ : name = name' ∧ Option.Rel Alike type type' := hfirst
      cases htype with
      | none => exact ⟨by simp [frameParam, ih.1], ih.2⟩
      | some htype => exact ⟨by simp [frameParam, ih.1], .cons htype ih.2⟩
  exact alike_of_children rfl (congrArg (func false false · .unknown) hboth.1)
    (List.rel_append hboth.2 (.cons hret .nil))

end LuaAnalysis.Types.Ty
