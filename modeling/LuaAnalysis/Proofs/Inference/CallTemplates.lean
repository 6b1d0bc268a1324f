import LuaAnalysis.Proofs.Index.Supertypes
import LuaAnalysis.Proofs.Inference.Settles
import LuaAnalysis.Proofs.Types.Templates
import Mathlib.Logic.Relation

/-!
Where the templates come from that are left when a call has filled in those of a function. They are
in the type of the receiver, or in a type that some argument leads to while templates are bound: its
parts, and what the workspace has for these.
-/

namespace LuaAnalysis.Inference

open Document LuaAnalysis.Types Workspace

def Gives {α : Type} (I : SearchState → Prop) (search : Search α) (Q : α → Prop) : Prop :=
  ∀ s, I s → Q (search s).1 ∧ I (search s).2

namespace Gives

variable {α β : Type} {I : SearchState → Prop} {search : Search α} {Q : α → Prop} {R : β → Prop}

theorem pure {a : α} (h : Q a) : Gives I (Pure.pure a) Q := fun _ hs => ⟨h, hs⟩

theorem bind {next : α → Search β} (h : Gives I search Q) (hnext : ∀ a, Q a → Gives I (next a) R) :
    Gives I (search >>= next) R :=
  fun s hs => hnext _ (h s hs).1 _ (h s hs).2

theorem answer (h : Gives I search fun _ => True) : Gives I search fun a => ∃ s, I s ∧
    (search s).1 = a :=
  fun s hs => ⟨⟨s, hs, rfl⟩, (h s hs).2⟩

theorem ite {c : Prop} [Decidable c] {search' : Search α} (h : c → Gives I search Q)
    (h' : ¬ c → Gives I search' Q) : Gives I (if c then search else search') Q := by
  split
  · exact h ‹_›
  · exact h' ‹_›

theorem foldlM {σ : Type} {Q : σ → Prop} {step : σ → α → Search σ} (xs : List α)
    (hstep : ∀ a x, x ∈ xs → Q a → Gives I (step a x) Q) {init : σ} (h : Q init) :
    Gives I (xs.foldlM step init) Q := by
  induction xs generalizing init with
  | nil => exact pure h
  | cons x xs ih =>
    rw [List.foldlM_cons]
    exact bind (hstep init x (by simp) h) fun a ha => ih (fun a y hy => hstep a y (by simp [hy])) ha

theorem mapM {Q : α → β → Prop} {f : α → Search β} (xs : List α)
    (h : ∀ x ∈ xs, Gives I (f x) (Q x)) : Gives I (xs.mapM f) (List.Forall₂ Q xs) := by
  induction xs with
  | nil => exact pure .nil
  | cons x xs ih =>
    rw [List.mapM_cons]
    exact bind (h x (by simp)) fun b hb => bind (ih fun y hy => h y (by simp [hy])) fun bs hbs =>
      pure (.cons hb hbs)

theorem findSomeM? {Q : Option β → Prop} {f : α → Search (Option β)} (xs : List α) (hnone : Q none)
    (h : ∀ x ∈ xs, Gives I (f x) Q) : Gives I (xs.findSomeM? f) Q := by
  induction xs with
  | nil => exact pure hnone
  | cons x xs ih =>
    refine bind (h x (by simp)) fun found hfound => ?_
    cases found with
    | some b => exact pure hfound
    | none => exact ih fun y hy => h y (by simp [hy])

/-- A search one level deeper gives what it gives otherwise, or the answer for those that are too
deep. -/
theorem guarded {fallback : α} (hfallback : Q fallback) (h : Gives (fun _ => True) search Q) :
    Gives (fun _ => True) (Search.guarded fallback search) Q := by
  intro s _
  obtain ⟨polls, -, ⟨-, hstop⟩ | ⟨-, hrun⟩⟩ := Search.guarded_cases fallback s
  · rw [hstop]
    exact ⟨hfallback, trivial⟩
  · rw [hrun search _ _ rfl]
    exact ⟨(h _ trivial).1, trivial⟩

end Gives

end LuaAnalysis.Inference

namespace LuaAnalysis.Types

/-- Whether more is looked up for what stands against a type than its parts. -/
def Ty.needsLookup : Ty → Bool
  | .array _ | .generic _ _ | .func .. => true
  | _ => false

namespace FuncType

/-- Whether a type occurs in the type of a parameter. -/
def Mentions (f : FuncType) (t : Ty) : Prop := ∃ name type, (name, some type) ∈ f.params ∧
    Ty.Occurs t type

/-- Whether arguments stand against a type, to bind the templates in it. -/
def Expects (f : FuncType) (t : Ty) : Prop := f.Mentions t ∧ t.containsTpl = true

theorem Mentions.child {f : FuncType} {t c : Ty} (h : f.Mentions t) (hc : c ∈ t.children) :
    f.Mentions c := by
  obtain ⟨name, type, hparam, hoccurs⟩ := h
  exact ⟨name, type, hparam, hoccurs.child hc⟩

theorem mem_params_of_paramAt? {f : FuncType} {index : Nat} {param : String × Option Ty}
    (h : f.paramAt? index = some param) : param ∈ f.params := by
  rw [paramAt?, Option.orElse_eq_orElse, Option.orElse_eq_or, Option.or_eq_some_iff] at h
  rcases h with h | ⟨-, h⟩
  · exact List.mem_of_getElem? h
  · split at h
    · exact List.mem_of_getLast? h
    · cases h

end FuncType

end LuaAnalysis.Types

namespace LuaAnalysis.Inference

open Document LuaAnalysis.Types Workspace

section Steps

variable (p : Project) (n : Nat) (st : SearchState) (f : FuncType)

/-- The states that a binding of templates comes through that starts from a state. -/
inductive Later : SearchState → Prop
  | start : Later st
  | members {s : SearchState} {k : Nat} (t : Ty) (hk : k < n) (hs : Later s) :
      Later (findMembers p (engine p k) t s).2
  | callables {s : SearchState} {k : Nat} (t : Ty) (hk : k < n) (hs : Later s) :
      Later ((engine p k).findCallables t s).2
  | params {s : SearchState} (t : Ty) (base : String) (hs : Later s) :
      Later (genericParamsAs p t base s).2
  | stopped {s : SearchState} (hs : Later s) : Later { s with exhausted := true }

/-- Whether a type says that it extends another one, which is taken as it is written there. -/
def Extends (t super : Ty) : Prop := ∃ name, className? t = some name ∧ super ∈ p.index.supers name

/-- What is looked up for a type: the parameters of a class that it extends, what its table holds,
or what it takes and gives if it is called. -/
inductive LooksUp : Ty → Ty → Prop
  | super {base : String} {params : List Ty}
      (hexpects : f.Expects (.generic base params)) {t u : Ty} {actuals : List Ty}
      (hextends : Relation.TransGen (Extends p) t (.generic base actuals))
      (hu : u ∈ actuals) : LooksUp t u
  | element {item : Ty} (hexpects : f.Expects (.array item)) {owner : MemberOwner} {k : Nat} {s :
      SearchState} (hk : k < n) (hs : Later p n st s) :
        LooksUp (.tableConst owner) (tableElementType p (engine p k) (.tableConst owner) true s).1
  | value {params : List Ty} (hexpects : f.Expects (.generic "table" params)) {owner :
      MemberOwner} {k : Nat} {s : SearchState} (hk : k < n) (hs : Later p n st s) :
      LooksUp (.tableConst owner) (tableElementType p (engine p k) (.tableConst owner) false s).1
  | param {isAsync isColon : Bool} {params : List (String × Option Ty)} {ret : Ty}
      (hexpects : f.Expects (.func isAsync isColon params ret)) {t u : Ty} {k : Nat} {s :
        SearchState} (hk : k < n)
      (hs : Later p n st s) {called : FuncType}
      (hcalled : ((engine p k).findCallables t s).1.head? = some called) {name : String}
      (hu : (name, some u) ∈ called.params) : LooksUp t u
  | result {isAsync isColon : Bool} {params : List (String × Option Ty)} {ret : Ty}
      (hexpects : f.Expects (.func isAsync isColon params ret)) {t : Ty} {k : Nat} {s : SearchState}
      (hk : k < n) (hs : Later p n st s) {called : FuncType}
      (hcalled : ((engine p k).findCallables t s).1.head? = some called) :
      LooksUp t called.ret.firstValue

/-- What a binding of templates goes on with after a type: one of its parts, what is left of it, the
type of its keys, or what is looked up for it. -/
inductive GoesOn : Ty → Ty → Prop
  | child {t c : Ty} (hc : c ∈ t.children) : GoesOn t c
  | united (items : List Ty) : GoesOn (.tuple items) (.unionOf items)
  | left (t removed : Ty) : GoesOn t (t.remove removed)
  | first (t : Ty) : GoesOn t t.firstValue
  | index (item : Ty) : GoesOn (.array item) .integer
  | key (e : Engine) (owner : MemberOwner) (s : SearchState) :
      GoesOn (.tableConst owner) (tableKeyType p e (.tableConst owner) s).1
  | found {t u : Ty} (h : LooksUp p n st f t u) : GoesOn t u

/-- What a binding of templates comes to from the type of an argument. -/
abbrev LeadsTo : Ty → Ty → Prop := Relation.ReflTransGen (GoesOn p n st f)

end Steps

section Binding

variable {p : Project} {n : Nat} {st : SearchState} {f : FuncType} {names : String → Prop}

def Known (p : Project) (n : Nat) (st : SearchState) (f : FuncType) (names : String → Prop)
    (t : Ty) : Prop :=
  ∀ u, LeadsTo p n st f t u → Ty.Within names u

variable {t u : Ty} {k : Nat}

theorem Known.next (h : Known p n st f names t) (hstep : GoesOn p n st f t u) :
    Known p n st f names u :=
  fun v hv => h v (.head hstep hv)

theorem Known.within (h : Known p n st f names t) : Ty.Within names t := h t .refl

theorem Known.foldl_remove (h : Known p n st f names t) (removed : List Ty) :
    Known p n st f names (removed.foldl Ty.remove t) := by
  induction removed generalizing t with
  | nil => exact h
  | cons r removed ih => exact ih (h.next (.left t r))

theorem genericParamsFor_extends (base : String) (fuel : Nat) (t : Ty) :
    Gives (fun _ => True) (genericParamsFor p fuel t base)
      fun found => ∀ actuals, found = some actuals →
        Relation.ReflTransGen (Extends p) t (.generic base actuals) := by
  induction fuel generalizing t with
  | zero => exact fun s _ => ⟨nofun, trivial⟩
  | succ fuel ih =>
    have hclimb {name : String} (hname : className? t = some name) : Gives (fun _ => True)
        (Search.guarded none ((p.index.supers name).findSomeM? fun super =>
          genericParamsFor p fuel super base))
        fun found => ∀ actuals, found = some actuals →
          Relation.ReflTransGen (Extends p) t (.generic base actuals) := by
      refine .guarded nofun (.findSomeM? _ nofun fun super hsuper s hs =>
        ⟨fun actuals hfound => ?_, trivial⟩)
      exact .head ⟨name, hname, hsuper⟩ ((ih super s hs).1 actuals hfound)
    simp only [genericParamsFor]
    cases t with
    | ref name => exact hclimb rfl
    | generic name params =>
      refine .ite (fun hbase => .pure fun actuals hfound => ?_) fun _ => hclimb rfl
      rw [beq_iff_eq.1 hbase, Option.some.inj hfound]
    | _ => exact .pure nofun

theorem genericParamsAs_known {base : String} {params : List Ty}
    (hexpects : f.Expects (.generic base params)) (h : Known p n st f names t) :
    Gives (Later p n st) (genericParamsAs p t base)
      fun found => ∀ actuals, found = some actuals → ∀ u ∈ actuals, Known p n st f names u := by
  refine fun s hs => ⟨fun actuals hfound u hu => ?_, hs.params t base⟩
  have hup := (genericParamsFor_extends base _ t s trivial).1 actuals hfound
  rcases Relation.reflTransGen_iff_eq_or_transGen.1 hup with hself | hextends
  · exact h.next (.child (hself ▸ hu))
  · exact h.next (.found (.super hexpects hextends hu))

theorem findMembers_later (hk : k < n) (t : Ty) :
    Gives (Later p n st) (findMembers p (engine p k) t) fun _ => True :=
  fun _ hs => ⟨trivial, hs.members t hk⟩

theorem tableElementType_later (hk : k < n) (t : Ty) (positional : Bool) :
    Gives (Later p n st) (tableElementType p (engine p k) t positional)
      fun u => ∃ s, Later p n st s ∧ (tableElementType p (engine p k) t positional s).1 = u :=
  .answer (.bind (findMembers_later hk t) fun _ _ => .pure trivial)

theorem tableKeyType_later (hk : k < n) (t : Ty) :
    Gives (Later p n st) (tableKeyType p (engine p k) t)
    fun u => ∃ s, Later p n st s ∧ (tableKeyType p (engine p k) t s).1 = u :=
  .answer (.bind (findMembers_later hk t) fun _ _ => .pure trivial)

theorem tableView_known {params : List Ty} (hexpects : f.Expects (.generic "table" params))
    (hk : k < n) (h : Known p n st f names t) : Gives (Later p n st) (tableView p (engine p k) t)
      fun view => view.2.isUnknown = false → Known p n st f names view.1 ∧
        Known p n st f names view.2 := by
  simp only [tableView]
  cases t with
  | array item => exact .pure fun _ => ⟨h.next (.index item), h.next (.child (.head _))⟩
  | tableConst owner =>
    refine .bind (tableKeyType_later hk _) fun key ⟨s, hs, hkey⟩ => ?_
    refine .bind (tableElementType_later hk _ false) fun value ⟨s', hs', hvalue⟩ =>
      .pure fun _ => ?_
    have hkeys : Known p n st f names (tableKeyType p (engine p k) (.tableConst owner) s).1 :=
      h.next (.key _ owner s)
    have hvalues : Known p n st f names
        (tableElementType p (engine p k) (.tableConst owner) false s').1 :=
      h.next (.found (.value hexpects hk hs'))
    rw [hkey] at hkeys
    rw [hvalue] at hvalues
    exact ⟨hkeys, hvalues⟩
  | _ => exact .pure nofun

def BindsWithin (p : Project) (n : Nat) (st : SearchState) (f : FuncType) (names : String → Prop)
    (e : Engine) : Prop :=
  ∀ expected actual s, f.Mentions expected → Known p n st f names actual → s.Within names →
    Gives (Later p n st) (e.unify expected actual s) (Substitution.Within names)

variable {s : Substitution}

theorem within_bindTemplate (hs : s.Within names) (ht : Ty.Within names t) (name : String) :
    (bindTemplate name t s).Within names := by
  refine hs.insert name ?_
  cases hbound : s.get? name with
  | none => exact ht.widen
  | some existing =>
    simp only
    split
    · exact ht.widen
    · exact .unionOf (by simpa using ⟨hs (.tpl name) existing hbound, ht.widen⟩)

section Answers

variable (hk : k < n) (hbinds : BindsWithin p n st f names (engine p k)) (hs : s.Within names)

include hbinds hs

theorem unifyAll_within {pairs : List (Ty × Ty)}
    (h : ∀ x ∈ pairs, f.Mentions x.1 ∧ Known p n st f names x.2) :
    Gives (Later p n st) (unifyAll (engine p k) pairs s) (Substitution.Within names) :=
  .foldlM pairs (fun s x hx hs => hbinds x.1 x.2 s (h x hx).1 (h x hx).2 hs) hs

theorem unifyUnion_within {members : List Ty} (hin : f.Mentions (.union members))
    (h : Known p n st f names t) :
    Gives (Later p n st) (unifyUnion (engine p k) members t s) (Substitution.Within names) := by
  refine .ite (fun _ => .pure hs) fun _ => unifyAll_within hbinds hs fun x hx => ?_
  obtain ⟨m, hm, rfl⟩ := List.mem_map.1 hx
  exact ⟨hin.child (List.mem_filter.1 hm).1, h.foldl_remove _⟩

include hk

theorem unifyArray_within {item : Ty} (hexpects : f.Expects (.array item))
    (h : Known p n st f names t) :
    Gives (Later p n st) (unifyArray p (engine p k) item t s) (Substitution.Within names) := by
  have hitem : f.Mentions item := hexpects.1.child (.head _)
  have hunify {u : Ty} (hstep : GoesOn p n st f t u) :
      Gives (Later p n st) ((engine p k).unify item u s) (Substitution.Within names) :=
    hbinds item u s hitem (h.next hstep) hs
  cases t with
  | array actual => exact hunify (.child (.head _))
  | tuple items => exact hunify (.united items)
  | generic base params =>
    simp only [unifyArray]
    split
    · exact hunify (.child (List.mem_of_getElem? ‹_›))
    · exact .pure hs
  | tableConst owner =>
    refine .bind (tableElementType_later hk _ true) fun element ⟨st', hst, helement⟩ => ?_
    subst helement
    exact hunify (.found (.element hexpects hk hst))
  | _ => exact .pure hs

theorem unifyGeneric_within {base : String} {params : List Ty}
    (hexpects : f.Expects (.generic base params)) (h : Known p n st f names t) :
    Gives (Later p n st) (unifyGeneric p (engine p k) base params t s)
    (Substitution.Within names) := by
  have hzip {actuals : List Ty} (hactuals : ∀ u ∈ actuals, Known p n st f names u) :
      Gives (Later p n st) (unifyAll (engine p k) (params.zip actuals) s)
        (Substitution.Within names) :=
    unifyAll_within hbinds hs fun x hx =>
      ⟨hexpects.1.child (List.of_mem_zip hx).1, hactuals x.2 (List.of_mem_zip hx).2⟩
  have hview : base = "table" → Gives (Later p n st) (tableView p (engine p k) t)
      fun view => view.2.isUnknown = false → Known p n st f names view.1 ∧
        Known p n st f names view.2 := by
    rintro rfl
    exact tableView_known hexpects hk h
  have hblank : Gives (Later p n st) (Pure.pure (.unknown, .unknown))
      fun view : Ty × Ty => view.2.isUnknown = false → Known p n st f names view.1 ∧
        Known p n st f names view.2 :=
    .pure (by intro hknown; cases hknown)
  have hbase (htable : (base == "table" && params.length == 2) = true) : base = "table" := by
    simpa using (Bool.and_eq_true_iff.1 htable).1
  simp only [unifyGeneric]
  refine .ite (fun htable => .bind (hview (hbase htable)) fun view hview => ?_) fun _ =>
    .bind hblank fun view hview => ?_
  all_goals
    refine .ite (fun hvalue => hzip ?_) fun _ =>
      .bind (genericParamsAs_known hexpects h) fun found hfound => ?_
    · simpa using hview (by simpa using hvalue)
    · cases found with
      | none => exact .pure hs
      | some actuals => exact hzip (hfound actuals rfl)

theorem unifyFunc_within {isAsync isColon : Bool} {params : List (String × Option Ty)} {ret : Ty}
    (hexpects : f.Expects (.func isAsync isColon params ret)) (h : Known p n st f names t) :
    Gives (Later p n st) (unifyFunc (engine p k) params ret t s) (Substitution.Within names) := by
  have hcallables : Gives (Later p n st) ((engine p k).findCallables t) fun _ => True :=
    fun st' hst => ⟨trivial, hst.callables t hk⟩
  refine .bind hcallables.answer fun found ⟨st', hst, hfound⟩ => ?_
  cases hhead : found.head? with
  | none => exact .pure hs
  | some called =>
    have hcalled : ((engine p k).findCallables t st').1.head? = some called := hfound ▸ hhead
    refine unifyAll_within hbinds hs fun x hx => ?_
    rcases List.mem_append.1 hx with hx | hx
    · obtain ⟨⟨⟨name, expected?⟩, ⟨name', actual?⟩⟩, hpair, hx⟩ := List.mem_filterMap.1 hx
      cases expected? <;> cases actual? <;> simp only [Option.some.injEq, reduceCtorEq] at hx
      subst hx
      obtain ⟨hparam, hactual⟩ := List.of_mem_zip hpair
      refine ⟨hexpects.1.child ?_, h.next (.found (.param hexpects hk hst hcalled hactual))⟩
      exact List.mem_append_left _ (List.mem_filterMap.2 ⟨_, hparam, rfl⟩)
    · obtain rfl := List.mem_singleton.1 hx
      exact ⟨hexpects.1.child (List.mem_append_right _ (.head _)),
        h.next (.found (.result hexpects hk hst hcalled))⟩

theorem unify_within {expected : Ty} (hin : f.Mentions expected) (h : Known p n st f names t) :
    Gives (Later p n st) (unify p (engine p k) expected t s) (Substitution.Within names) := by
  refine .ite (fun _ => .pure hs) fun hasked => ?_
  have hexpects : f.Expects expected := ⟨hin, by simp_all⟩
  cases expected with
  | tpl name => exact .pure (within_bindTemplate hs h.within name)
  | array item => exact unifyArray_within hk hbinds hs hexpects h
  | generic base params => exact unifyGeneric_within hk hbinds hs hexpects h
  | union members => exact unifyUnion_within hbinds hs hin h
  | func isAsync isColon params ret => exact unifyFunc_within hk hbinds hs hexpects h
  | variadic item => exact hbinds item _ s (hin.child (.head _)) (h.next (.first t)) hs
  | _ => exact .pure hs

end Answers

theorem bindsWithin_engine (hk : k ≤ n) : BindsWithin p n st f names (engine p k) := by
  induction k with
  | zero => exact fun expected actual s _ _ hs st' hst => ⟨hs, hst.stopped⟩
  | succ k ih =>
    have hbinds : BindsWithin p n st f names (engine p k) := ih (by omega)
    exact fun expected actual s hin h hs => unify_within (by omega) hbinds hs hin h

theorem unifyArgs_within (index : Nat) {args : List Ty}
    (hargs : ∀ arg ∈ args, Known p n st f names arg) {s : Substitution} (hs : s.Within names) :
    Gives (Later p n st) (unifyArgs (engine p n) f index args s) (Substitution.Within names) := by
  induction args generalizing index s with
  | nil => exact .pure hs
  | cons arg rest ih =>
    obtain ⟨harg, hrest⟩ := List.forall_mem_cons.1 hargs
    have hnext {s : Substitution} (hs : s.Within names) :
        Gives (Later p n st) (unifyArgs (engine p n) f (index + 1) rest s)
          (Substitution.Within names) :=
      ih (index + 1) hrest hs
    rw [unifyArgs]
    split
    · rename_i name _ hparam
      split
      · -- the last parameter takes what is left of the arguments together
        rename_i tpl _
        have hwidened : ∀ u ∈ (arg :: rest).map Ty.widen, Ty.Within names u :=
          List.forall_mem_map.2 fun u hu => (hargs u hu).within.widen
        refine .pure ?_
        split
        · exact hs
        · refine hs.insert tpl ?_
          split
          · rename_i u hsingle
            exact hwidened u (hsingle ▸ .head _)
          · exact (Ty.within_iff (by nofun)).2 hwidened
      · rename_i expected _ _ _
        have hin : f.Mentions expected :=
          ⟨name, expected, FuncType.mem_params_of_paramAt? hparam, .here⟩
        exact .bind (bindsWithin_engine (Nat.le_refl n) expected arg s hin harg hs)
          fun s hs => hnext hs
    · exact hnext hs

theorem instantiateCall_eq (e : Engine) (f : FuncType) (args : List Ty) (self? : Option Ty)
    (st : SearchState) :
    let bound := (unifyArgs e f 0 args { self? := self? } st).1
    let free := f.toTy.templates.eraseDups.filter fun name => !bound.contains name
    (instantiateCall e f args self? st).1 =
      if f.toTy.containsTpl then f.instantiate
        (free.foldl (fun s name => s.insert name .unknown) bound) else f := by
  rw [instantiateCall]
  cases f.toTy.containsTpl <;> rfl

theorem within_instantiateCall {args : List Ty} {self? : Option Ty}
    (hargs : ∀ arg ∈ args, Known p n st f names arg)
    (hself : ∀ receiver, self? = some receiver → Ty.Within names receiver) :
    Ty.Within names (instantiateCall (engine p n) f args self? st).1.toTy := by
  have hempty : Substitution.Within names { self? := self? } := by
    intro slot u hslot
    cases slot with
    | self => exact hself u hslot
    | _ => cases hslot
  have hbound := (unifyArgs_within 0 hargs hempty st .start).1
  rw [instantiateCall_eq]
  split
  · refine FuncType.within_instantiate (fun name hname hfree => ?_) (hbound.foldl_insert _ nofun)
    rw [Substitution.get?_foldl_insert] at hfree
    split at hfree
    · cases hfree
    · rename_i hbound
      simp [hname, Substitution.contains, hfree] at hbound
  · exact fun name hname => absurd (Ty.containsTpl_of_mem_templates hname) ‹_›

theorem GoesOn.templates_eq_nil (h : GoesOn p n st f t u) (ht : t.templates = [])
    (hfound : ∀ u, LooksUp p n st f t u → u.templates = []) : u.templates = [] := by
  simp only [Ty.templates_eq_nil_iff] at ht hfound ⊢
  cases h with
  | child hc => exact ht.children u hc
  | united items => exact .unionOf ht.children
  | left _ removed => exact ht.remove removed
  | first => exact ht.firstValue
  | index => nofun
  | key e owner s =>
    have hkeys : Gives (fun _ => True) (tableKeyType p e (.tableConst owner))
        (Ty.Within fun _ => False) := by
      refine .bind (fun _ _ => ⟨trivial, trivial⟩) fun infos (_ : True) =>
        .pure (.unionOf (List.forall_mem_map.2 fun info _ => ?_))
      split <;> nofun
    exact (hkeys s trivial).1
  | found h => exact hfound u h

end Binding

section Calls

variable {p : Project} {n : Nat} {st : SearchState} {f : FuncType} {t u : Ty}

theorem LooksUp.exists_expects (h : LooksUp p n st f t u) : ∃ t, f.Expects t ∧
    t.needsLookup = true := by
  cases h with
  | super hexpects | element hexpects | value hexpects | param hexpects | result hexpects =>
    exact ⟨_, hexpects, rfl⟩

theorem LeadsTo.templates_eq_nil {arg : Ty} (h : LeadsTo p n st f arg t) (harg : arg.templates = [])
    (hfound : ∀ t u, LeadsTo p n st f arg t → t.templates = [] → LooksUp p n st f t u →
      u.templates = []) :
    t.templates = [] := by
  induction h with
  | refl => exact harg
  | @tail t u hleads hstep ih => exact hstep.templates_eq_nil ih fun v hv => hfound t v hleads ih hv

def ofA : FuncType := { params := [("x", some (.generic "A" [.tpl "U"]))], ret := .tpl "U" }

theorem expects_ofA (h : ofA.Expects t) : t = .generic "A" [.tpl "U"] ∨ t = .tpl "U" := by
  obtain ⟨⟨name, type, hparam, hoccurs⟩, -⟩ := h
  obtain ⟨-, rfl⟩ : name = "x" ∧ type = .generic "A" [.tpl "U"] := by simpa [ofA] using hparam
  simpa [Ty.occurs_iff (t := .generic ..), Ty.occurs_iff (t := .tpl _), Ty.children] using hoccurs

theorem genericParamsAs_super {params : List Ty} {rest : List Ty} (ht : className? t = some "B")
    (hsupers : p.index.supers "B" = .generic "A" params :: rest) :
    ∃ s, genericParamsAs p t "A" {} = (some params, s) := by
  have hclimb : genericParamsAs p t "A" {} = Search.guarded none
      ((p.index.supers "B").findSomeM? fun super => genericParamsFor p maxDepth super "A") {} := by
    cases t with
    | ref name => obtain rfl := Option.some.inj ht; rfl
    | generic name params => obtain rfl := Option.some.inj ht; rfl
    | _ => cases ht
  rw [hclimb, hsupers]
  exact ⟨_, rfl⟩

theorem instantiateCall_ofA {item : Ty} {rest : List Ty} (ht : className? t = some "B")
    (hsupers : p.index.supers "B" = .generic "A" [item] :: rest)
    (hitem : item = .string ∨ item = .tpl "T") :
    (instantiateCall (engine p (n + 2)) ofA [t] none {}).1 =
    { params := [("x", some (.generic "A" [item]))], ret := item } := by
  obtain ⟨s, hs⟩ := genericParamsAs_super ht hsupers
  have hknown : t.isUnknown = false := by cases t <;> first | rfl | cases ht
  have hunify : unify p (engine p (n + 1)) (.generic "A" [.tpl "U"]) t {} {} =
      unifyAll (engine p (n + 1)) [(.tpl "U", item)] {} s := by
    rw [unify, hknown]
    change unifyGeneric p (engine p (n + 1)) "A" [.tpl "U"] t {} {} = _
    rw [unifyGeneric, if_neg (by decide), pure_bind]
    dsimp only
    rw [if_neg (by decide), Search.bind_apply hs]
    rfl
  have hbound : (unifyArgs (engine p (n + 2)) ofA 0 [t] {} {}).1 =
      { bindings := [("U", item)] } := by
    refine Eq.trans (congrArg (·.1) hunify) ?_
    rcases hitem with rfl | rfl <;> rfl
  rw [instantiateCall_eq, hbound]
  rcases hitem with rfl | rfl <;> rfl

theorem eq_generic_of_beq {base : String} {item : Ty} (hitem : ∀ v, Ty.beq v item = true → v = item)
    (h : (t == .generic base [item]) = true) : t = .generic base [item] := by
  cases t with
  | generic base' params =>
    obtain ⟨hbase, hparams⟩ :=
      Bool.and_eq_true_iff.1 (h : (base' == base && Ty.beqList params [item]) = true)
    match params, hparams with
    | [v], hparams => rw [beq_iff_eq.1 hbase, hitem v (by simpa [Ty.beqList] using hparams)]
    | v :: _ :: _, hparams => simp [Ty.beqList] at hparams
  | _ => cases h

theorem supers_of_recorded {uri : Uri} {text : String} {item : Ty}
    (hitem : ∀ v, Ty.beq v item = true → v = item)
    (hsaid : (recordedSupers {} (.ofText 0 uri text)).map
      (fun e => (e.1, e.2 == .generic "A" [item])) = [("B", true)]) :
    let p := (Project.ofSettings {}).run [.add uri text]
    (∀ name super, super ∈ p.index.supers name → super = .generic "A" [item]) ∧
      ∃ rest, p.index.supers "B" = .generic "A" [item] :: rest := by
  intro p
  obtain ⟨⟨name, super⟩, hrecorded, hname⟩ := List.map_eq_singleton_iff.1 hsaid
  obtain ⟨rfl, hbeq⟩ := Prod.mk.inj hname
  obtain rfl := eq_generic_of_beq hitem hbeq
  have hsource (doc : DocId) : p.source? doc = if doc = 0 then some (.ofText 0 uri text)
      else none :=
    Project.source?_single {} uri text doc
  have hmem (name : String) (super : Ty) :
      super ∈ p.index.supers name ↔ name = "B" ∧ super = .generic "A" [item] := by
    have hiff := Project.run_mem_supers_iff {} [.add uri text] name super
    have hsome (doc : DocId) (s : Source) : p.source? doc = some s ↔ doc = 0 ∧
        .ofText 0 uri text = s := by
      simp [hsource]
    refine hiff.trans ?_
    simp [p, hsome, hrecorded]
  refine ⟨fun name super h => ((hmem name super).1 h).2, ?_⟩
  have hextends := (hmem "B" _).2 ⟨rfl, rfl⟩
  cases hlist : p.index.supers "B" with
  | nil => simp [hlist] at hextends
  | cons super rest =>
    obtain rfl := ((hmem "B" super).1 (hlist ▸ .head _)).2
    exact ⟨rest, rfl⟩

/-- A template that is left when a call has filled in those of a function is in the type of the
receiver or in a type that some argument leads to. So none is left if the receiver and the arguments
have none, unless one is looked up for a type without templates, which cannot be if nothing is
looked up. What no argument decides becomes `unknown`. -/
theorem templates_instantiateCall (p : Project) (n : Nat) (f : FuncType) (args : List Ty)
    (self? : Option Ty) (st : SearchState) :
    let result := (instantiateCall (engine p n) f args self? st).1
    (∀ name ∈ result.toTy.templates, (∃ receiver, self? = some receiver ∧
      name ∈ receiver.templates) ∨
        ∃ arg ∈ args, ∃ t, LeadsTo p n st f arg t ∧ name ∈ t.templates) ∧
      ((∀ arg ∈ args, arg.templates = []) →
        (∀ receiver, self? = some receiver → receiver.templates = []) →
        ((∀ t, f.Expects t → t.needsLookup = false) ∨
          ∀ arg ∈ args, ∀ t u, LeadsTo p n st f arg t → t.templates = [] → LooksUp p n st f t u →
          u.templates = []) →
        result.toTy.templates = []) ∧
      (f.toTy.containsTpl = true → ∃ s : Substitution, result = f.instantiate s ∧
        ∀ name ∈ f.toTy.templates, s.get? name =
        some (((unifyArgs (engine p n) f 0 args { self? := self? } st).1.get? name).getD
          .unknown)) := by
  intro result
  have hsource : ∀ name ∈ result.toTy.templates,
      (∃ receiver, self? = some receiver ∧ name ∈ receiver.templates) ∨
      ∃ arg ∈ args, ∃ t, LeadsTo p n st f arg t ∧ name ∈ t.templates :=
    within_instantiateCall (fun arg harg t hleads name hname => .inr ⟨arg, harg, t, hleads, hname⟩)
      fun receiver hself name hname => .inl ⟨receiver, hself, hname⟩
  refine ⟨hsource, fun hargs hself hlooks => ?_, fun htpl => ?_⟩
  · have hfound : ∀ arg ∈ args, ∀ t u, LeadsTo p n st f arg t → t.templates = [] →
        LooksUp p n st f t u →
        u.templates = [] := by
      rcases hlooks with hnone | hfound
      · intro arg _ t u _ _ hlook
        obtain ⟨expected, hexpects, hneeds⟩ := hlook.exists_expects
        rw [hnone expected hexpects] at hneeds
        cases hneeds
      · exact hfound
    refine List.eq_nil_iff_forall_not_mem.2 fun name hname => ?_
    rcases hsource name hname with ⟨receiver, hsome, hmem⟩ | ⟨arg, harg, t, hleads, hmem⟩
    · rw [hself receiver hsome] at hmem
      cases hmem
    · rw [hleads.templates_eq_nil (hargs arg harg) (hfound arg harg)] at hmem
      cases hmem
  · refine ⟨_, (instantiateCall_eq (engine p n) f args self? st).trans (if_pos htpl),
      fun name hname => ?_⟩
    rw [Substitution.get?_foldl_insert]
    generalize (unifyArgs (engine p n) f 0 args { self? := self? } st).1 = bound
    cases hbound : bound.get? name <;> simp [hname, Substitution.contains, hbound]

/-- Of a class that extends another one with strings, what takes that one takes and gives
strings. -/
theorem templates_instantiateCall_extendsWithParameter :
    let p := (Project.ofSettings {}).run
      [.add Project.extendsWithParameter.uri Project.extendsWithParameter.text]
    (∀ arg ∈ [Ty.ref "B"], arg.templates = []) ∧
      (∀ arg ∈ [Ty.ref "B"], ∀ t u, LeadsTo p searchFuel {} ofA arg t → t.templates = [] →
        LooksUp p searchFuel {} ofA t u →
        u.templates = []) ∧
      (run (instantiateCall (fullEngine p) ofA [.ref "B"] none)).toTy.templates = [] ∧
      run (instantiateCall (fullEngine p) ofA [.ref "B"] none) =
        { params := [("x", some (.generic "A" [.string]))], ret := .string } := by
  intro p
  obtain ⟨hsupers, rest, hlist⟩ : (∀ name super, super ∈ p.index.supers name →
      super = .generic "A" [.string]) ∧
      ∃ rest, p.index.supers "B" = .generic "A" [.string] :: rest :=
    supers_of_recorded (fun v h => by cases v <;> first | rfl | cases h) (by decide +kernel)
  have hargs : ∀ arg ∈ [Ty.ref "B"], arg.templates = [] := by simp [Ty.templates]
  have hfound : ∀ arg ∈ [Ty.ref "B"], ∀ t u, LeadsTo p searchFuel {} ofA arg t → t.templates = [] →
      LooksUp p searchFuel {} ofA t u → u.templates = [] := by
    intro _ _ t u _ _ hlook
    cases hlook with
    | super hexpects hextends hu =>
      obtain ⟨below, -, name, -, hsuper⟩ := Relation.TransGen.tail'_iff.1 hextends
      obtain ⟨-, rfl⟩ := Ty.generic.inj (hsupers name _ hsuper)
      rw [List.mem_singleton.1 hu]
      rfl
    | element hexpects | value hexpects | param hexpects | result hexpects =>
      simpa using expects_ofA hexpects
  refine ⟨hargs, hfound, ?_, instantiateCall_ofA (n := searchFuel - 2) rfl hlist (.inl rfl)⟩
  exact (templates_instantiateCall p searchFuel ofA [.ref "B"] none {}).2.1 hargs (by simp)
    (.inr hfound)

/-- Calls without templates in the arguments and in the receiver leave none in what they call. -/
def KeepsNoTemplates (p : Project) : Prop :=
  ∀ (f : FuncType) (args : List Ty) (self? : Option Ty), (∀ arg ∈ args, arg.templates = []) →
    (∀ receiver, self? = some receiver → receiver.templates = []) →
      (run (instantiateCall (fullEngine p) f args self?)).toTy.templates = []

/-- A class with a parameter that it hands on to the class that it extends. -/
def extendsWithTemplate : Source := .ofText 0 ⟨"file:///t.lua", "/t.lua"⟩ "---@class B<T>: A<T>\n"

/-- The parameter of a class is taken as its own template, not as what stands for it in the
argument. -/
theorem not_keepsNoTemplates_extendsWithTemplate :
    ¬ KeepsNoTemplates ((Project.ofSettings {}).run
      [.add extendsWithTemplate.uri extendsWithTemplate.text]) := by
  intro h
  obtain ⟨-, rest, hlist⟩ :=
    @supers_of_recorded extendsWithTemplate.uri extendsWithTemplate.text (.tpl "T")
      (fun v h => by cases v <;> simp_all [Ty.beq]) (by decide +kernel)
  have hnone := h ofA [.generic "B" [.string]] none (by simp [Ty.templates, Ty.listTemplates]) nofun
  have hresult : run (instantiateCall (fullEngine _) ofA [.generic "B" [.string]] none) =
      { params := [("x", some (.generic "A" [.tpl "T"]))], ret := .tpl "T" } :=
    instantiateCall_ofA (n := searchFuel - 2) rfl hlist (.inr rfl)
  rw [hresult] at hnone
  cases hnone

end Calls

end LuaAnalysis.Inference
