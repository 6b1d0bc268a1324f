import LuaAnalysis.Inference.Calls
import LuaAnalysis.Proofs.Types.Substitution

namespace LuaAnalysis.Types

namespace Ty

variable {t u : Ty} {ts : List Ty} {name : String} {names : String → Prop}

theorem listTemplates_eq (ts : List Ty) : listTemplates ts = ts.flatMap templates := by
  induction ts with
  | nil => rfl
  | cons t ts ih => rw [listTemplates, ih, List.flatMap_cons]

theorem fieldTemplates_eq (fs : List (MemberKey × Ty)) :
    fieldTemplates fs = (fs.map (·.2)).flatMap templates := by
  induction fs with
  | nil => rfl
  | cons f fs ih => rw [fieldTemplates, ih, List.map_cons, List.flatMap_cons]

theorem accessTemplates_eq (as : List (Ty × Ty)) :
    accessTemplates as = (as.flatMap fun (k, v) => [k, v]).flatMap templates := by
  induction as with
  | nil => rfl
  | cons a as ih => simp [accessTemplates, ih]

theorem paramTemplates_eq (ps : List (String × Option Ty)) :
    paramTemplates ps = (ps.filterMap (·.2)).flatMap templates := by
  induction ps with
  | nil => rfl
  | cons p ps ih => obtain ⟨name, _ | t⟩ := p <;> simp [paramTemplates, ih]

theorem templates_eq (h : ∀ name, t ≠ .tpl name) : t.templates = t.children.flatMap templates := by
  cases t with
  | tpl name => exact absurd rfl (h name)
  | _ => simp [templates, children, listTemplates_eq, fieldTemplates_eq, accessTemplates_eq,
      paramTemplates_eq]

theorem anyTpl_eq (ts : List Ty) : anyTpl ts = ts.any containsTpl := by
  induction ts with
  | nil => rfl
  | cons t ts ih => rw [anyTpl, ih, List.any_cons]

theorem anyFieldTpl_eq (fs : List (MemberKey × Ty)) :
    anyFieldTpl fs = (fs.map (·.2)).any containsTpl := by
  induction fs with
  | nil => rfl
  | cons f fs ih => rw [anyFieldTpl, ih, List.map_cons, List.any_cons]

theorem anyAccessTpl_eq (as : List (Ty × Ty)) :
    anyAccessTpl as = (as.flatMap fun (k, v) => [k, v]).any containsTpl := by
  induction as with
  | nil => rfl
  | cons a as ih => simp [anyAccessTpl, ih, Bool.or_assoc]

theorem anyParamTpl_eq (ps : List (String × Option Ty)) :
    anyParamTpl ps = (ps.filterMap (·.2)).any containsTpl := by
  induction ps with
  | nil => rfl
  | cons p ps ih => obtain ⟨name, _ | t⟩ := p <;> simp [anyParamTpl, ih]

theorem containsTpl_of_child (h : u ∈ t.children) (hu : u.containsTpl = true) :
    t.containsTpl = true := by
  have hany : t.children.any containsTpl = true := List.any_eq_true.2 ⟨u, h, hu⟩
  cases t <;> simp_all [containsTpl, children, anyTpl_eq, anyFieldTpl_eq, anyAccessTpl_eq,
    anyParamTpl_eq]

theorem containsTpl_of_mem_templates (h : name ∈ t.templates) : t.containsTpl = true := by
  induction t using induction_children with
  | made t ih =>
    by_cases htpl : ∃ name, t = .tpl name
    · obtain ⟨name, rfl⟩ := htpl
      rfl
    · rw [templates_eq (not_exists.1 htpl)] at h
      obtain ⟨c, hc, h⟩ := List.mem_flatMap.1 h
      exact containsTpl_of_child hc (ih c hc h)

def Within (names : String → Prop) (t : Ty) : Prop := ∀ name ∈ t.templates, names name

theorem templates_eq_nil_iff : t.templates = [] ↔ Within (fun _ => False) t :=
  List.eq_nil_iff_forall_not_mem

theorem within_iff (h : ∀ name, t ≠ .tpl name) : Within names t ↔
    ∀ c ∈ t.children, Within names c := by
  simp only [Within, templates_eq h, List.mem_flatMap]
  exact ⟨fun hall c hc name hname => hall name ⟨c, hc, hname⟩,
    fun hall name ⟨c, hc, hname⟩ => hall c hc name hname⟩

theorem within_union (members : List Ty) : Within names (.union members) ↔
    ∀ m ∈ members, Within names m :=
  within_iff nofun

theorem Within.children (h : Within names t) : ∀ c ∈ t.children, Within names c := by
  cases t with
  | tpl name => nofun
  | _ => exact (within_iff (by nofun)).1 h

theorem Within.unionOf (h : ∀ t ∈ ts, Within names t) : Within names (unionOf ts) :=
  unionOf_of_forall within_union nofun nofun h

theorem Within.orNever (h : Within names t) : Within names t.orNever := by
  cases t with
  | unknown => nofun
  | _ => exact h

theorem Within.remove (h : Within names t) (removed : Ty) : Within names (t.remove removed) := by
  have hatom (hatom : t.isUnion = false) : Within names (t.remove removed) := by
    have hremove : t.remove removed = if beq t removed then .never else t := by
      cases t with
      | union members => cases hatom
      | _ => rfl
    rw [hremove]
    split
    · nofun
    · exact h
  cases t with
  | union members =>
    exact .orNever (.unionOf fun m hm => h.children m (List.mem_of_mem_filter hm))
  | _ => exact hatom rfl

theorem widenList_eq (ts : List Ty) : widenList ts = ts.map widen := by
  induction ts with
  | nil => rfl
  | cons t ts ih => rw [widenList, ih, List.map_cons]

theorem Within.widen (h : Within names t) : Within names t.widen := by
  induction t using induction_children with
  | made t ih =>
    cases t with
    | union members =>
      rw [Ty.widen, widenList_eq]
      exact .unionOf (List.forall_mem_map.2 fun m hm => ih m hm (h.children m hm))
    | boolConst | intConst | strConst => nofun
    | _ => exact h

theorem listValueAt?_mem {index : Nat} (h : listValueAt? ts index = some u) :
    u ∈ ts ∨ ∃ t ∈ ts, ∃ index, valueAt? t index = some u := by
  induction ts generalizing index with
  | nil => cases h
  | cons t ts ih =>
    match ts, index with
    | [], index => exact .inr ⟨t, .head _, index, h⟩
    | _ :: _, 0 => exact .inl (Option.some.inj h ▸ .head _)
    | _ :: _, index + 1 =>
      exact (ih h).imp (.tail _) fun ⟨v, hv, hvalue⟩ => ⟨v, .tail _ hv, hvalue⟩

theorem Within.valueAt? (h : Within names t) {index : Nat} (hu : t.valueAt? index = some u) :
    Within names u := by
  induction t using induction_children generalizing index with
  | made t ih =>
    cases t with
    | multi items =>
      rcases listValueAt?_mem hu with hmem | ⟨v, hv, index, hvalue⟩
      · exact h.children u hmem
      · exact ih v hv (h.children v hv) hvalue
    | variadic item => exact h.children u (Option.some.inj hu ▸ .head _)
    | _ =>
      obtain ⟨-, rfl⟩ := Option.ite_some_none_eq_some.1 hu
      exact h

theorem Within.firstValue (h : Within names t) : Within names t.firstValue := by
  have hvalue : Within names ((t.valueAt? 0).getD .nil) := by
    cases hfirst : t.valueAt? 0 with
    | none => nofun
    | some u => exact h.valueAt? hfirst
  cases t with
  | multi | variadic => exact hvalue
  | _ => exact h

theorem Within.tailValues (h : Within names t) : ∀ u ∈ t.tailValues, Within names u := by
  induction t using induction_children with
  | made t ih =>
    cases t with
    | multi items =>
      rw [Ty.tailValues]
      rcases List.eq_nil_or_concat items with rfl | ⟨front, last, rfl⟩
      · intro u hu
        cases hu
      · rw [List.concat_eq_append] at h ih ⊢
        rw [flattenMulti_concat]
        have hlast : last ∈ (multi (front ++ [last])).children := by simp [Ty.children]
        refine List.forall_mem_append.2 ⟨fun u hu => h.children u (List.mem_append_left _ hu), ?_⟩
        exact ih last hlast (h.children last hlast)
    | _ => exact fun u hu => List.mem_singleton.1 hu ▸ h

theorem Within.flattenMulti (h : ∀ t ∈ ts, Within names t) :
    ∀ u ∈ flattenMulti ts, Within names u := by
  rcases List.eq_nil_or_concat ts with rfl | ⟨front, last, rfl⟩
  · nofun
  · rw [List.concat_eq_append] at h ⊢
    rw [flattenMulti_concat]
    exact List.forall_mem_append.2 ⟨fun u hu => h u (List.mem_append_left _ hu),
      (h last (by simp)).tailValues⟩

end Ty

namespace Substitution

variable {s : Substitution} {names : String → Prop}

def Within (names : String → Prop) (s : Substitution) : Prop :=
  ∀ slot t, s.at? slot = some t → Ty.Within names t

theorem get?_insert (s : Substitution) (name : String) (t : Ty) (other : String) :
    (s.insert name t).get? other = if name = other then some t else s.get? other := by
  by_cases h : name = other
  · simp [get?, insert, h]
  · have hfind : (s.bindings.filter (·.1 != name)).find? (·.1 == other) =
        s.bindings.find? (·.1 == other) := by
      rw [List.find?_filter]
      congr 1
      funext b
      by_cases hb : b.1 = other <;> simp [hb, Ne.symm h]
    simp [get?, insert, h, hfind]

theorem Within.insert (h : s.Within names) (name : String) {t : Ty} (ht : Ty.Within names t) :
    (s.insert name t).Within names := by
  intro slot u hslot
  cases slot with
  | tpl other =>
    rw [at?, get?_insert] at hslot
    split at hslot
    · exact Option.some.inj hslot ▸ ht
    · exact h (.tpl other) u hslot
  | self => exact h .self u hslot
  | _ => cases hslot

theorem get?_foldl_insert (free : List String) (t : Ty) (s : Substitution) (name : String) :
    (free.foldl (fun s name => s.insert name t) s).get? name = if name ∈ free then some t
    else s.get? name := by
  induction free generalizing s with
  | nil => rfl
  | cons first free ih =>
    rw [List.foldl_cons, ih, get?_insert]
    by_cases hname : name ∈ free <;> simp [hname, eq_comm]

theorem Within.foldl_insert (free : List String) (h : s.Within names) {t : Ty}
    (ht : Ty.Within names t) : (free.foldl (fun s name => s.insert name t) s).Within names := by
  induction free generalizing s with
  | nil => exact h
  | cons first free ih => exact ih (h.insert first ht)

end Substitution

namespace Ty

variable {t : Ty} {s : Substitution} {names : String → Prop}

theorem within_subst (hfree : ∀ name ∈ t.templates, s.get? name = none → names name)
    (hbound : s.Within names) : Within names (subst s t) := by
  induction t using induction_children with
  | made t ih =>
    have hchildren (htpl : ∀ name, t ≠ .tpl name) : ∀ c ∈ t.children.map (subst s),
        Within names c := by
      refine List.forall_mem_map.2 fun c hc => ih c hc fun name hname => hfree name ?_
      rw [templates_eq htpl]
      exact List.mem_flatMap.2 ⟨c, hc, hname⟩
    have hsteady (hsteady : t.isSteady = true) : Within names (subst s t) := by
      have hnot {t : Ty} (h : t.isSteady = true) (name : String) : t ≠ .tpl name := by
        rintro rfl
        cases h
      rw [within_iff (hnot (isSteady_subst hsteady)), children_subst hsteady]
      exact hchildren (hnot hsteady)
    cases t with
    | tpl name =>
      rw [subst_slot (.inr ⟨name, rfl⟩)]
      cases hname : s.at? (.tpl name) with
      | none => exact fun other hother => List.mem_singleton.1 hother ▸ hfree name (.head _) hname
      | some u => exact hbound _ u hname
    | self =>
      rw [subst_slot (.inl rfl)]
      cases hself : s.at? .self with
      | none => nofun
      | some u => exact hbound _ u hself
    | union members =>
      rw [subst_union]
      exact .unionOf (hchildren nofun)
    | multi items =>
      rw [subst_multi]
      exact (within_iff (by nofun)).2 (.flattenMulti (hchildren nofun))
    | variadic item =>
      have hitem : Within names (subst s item) := hchildren nofun _ (.head _)
      rw [subst_variadic]
      split
      · exact hitem
      · exact (within_iff (by nofun)).2 (by simpa [Ty.children] using hitem)
    | _ => exact hsteady rfl

theorem within_instantiate (hfree : ∀ name ∈ t.templates, s.get? name = none → names name)
    (hbound : s.Within names) : Within names (t.instantiate s) := by
  rw [instantiate]
  split
  · rename_i hempty
    have hbindings : s.bindings = [] := by
      simp only [Substitution.isEmpty, Bool.and_eq_true, List.isEmpty_iff] at hempty
      exact hempty.1
    exact fun name hname => hfree name hname (by simp [Substitution.get?, hbindings])
  · exact within_subst hfree hbound

theorem mem_templates_of_occurs {name : String} (h : Occurs (.tpl name) t) :
    name ∈ t.templates := by
  induction h with
  | here => exact .head _
  | @inside t c hc _ ih =>
    rw [templates_eq (by rintro name rfl; cases hc)]
    exact List.mem_flatMap.2 ⟨c, hc, ih⟩

theorem instantiate_of_not_bound (ht : Regular t) (h : ∀ name ∈ t.templates, s.get? name = none)
    (hself : s.self? = none) : t.instantiate s = t := by
  rw [instantiate]
  split
  · rfl
  · refine subst_of_unbound ht fun slot hslot => ?_
    cases slot with
    | tpl name => exact h name (mem_templates_of_occurs hslot)
    | self => exact hself
    | _ => rfl

end Ty

theorem FuncType.children_instantiate (f : FuncType) (s : Substitution) :
    (f.instantiate s).toTy.children = f.toTy.children.map (·.instantiate s) := by
  simp only [FuncType.instantiate, toTy, Ty.children, List.map_append, List.filterMap_map,
    List.map_filterMap]
  rfl

theorem FuncType.within_instantiate {f : FuncType} {s : Substitution} {names : String → Prop}
    (hfree : ∀ name ∈ f.toTy.templates, s.get? name = none → names name)
    (hbound : s.Within names) : Ty.Within names (f.instantiate s).toTy := by
  refine (Ty.within_iff (by nofun)).2 ?_
  rw [children_instantiate]
  refine List.forall_mem_map.2 fun c hc =>
    Ty.within_instantiate (fun name hname => hfree name ?_) hbound
  rw [Ty.templates_eq (by nofun)]
  exact List.mem_flatMap.2 ⟨c, hc, hname⟩

end LuaAnalysis.Types
