import LuaAnalysis.Inference.Query
import LuaAnalysis.Proofs.Types.Equality
import LuaAnalysis.Proofs.Types.Written

/-!
The text of a type for readers against the one that an annotation would have. They are told apart by
the marks around a function that may be missing: an annotation puts parentheses around it, and the
text for readers leaves them out.
-/

namespace LuaAnalysis.Types.Ty

def plainUnionText (members : List Ty) (texts : List String) : String :=
  if texts.length == 2 && members.any isNil then
    match (members.zip texts).find? fun (t, _) => !t.isNil with
    | some (_, text) => text ++ "?"
    | none => "|".intercalate texts
  else "|".intercalate texts

mutual

def plainText (t : Ty) : String :=
  match t with
  | .multi items => ", ".intercalate (plainTexts items)
  | .variadic item => "..." ++ plainText item
  | .union members => plainUnionText members (plainTexts members)
  | t => t.text
termination_by structural t

def plainTexts (ts : List Ty) : List String :=
  match ts with
  | [] => []
  | t :: ts => plainText t :: plainTexts ts
termination_by structural ts

end

attribute [local simp] plainUnionText plainText plainTexts

theorem plainTexts_eq (ts : List Ty) : plainTexts ts = ts.map plainText := by
  induction ts with
  | nil => rfl
  | cons t ts ih => simp [ih]

/-- The types that make up a type when several values and unions are taken apart. -/
inductive PartOf (a : Ty) : Ty → Prop
  | self : PartOf a a
  | multi {items : List Ty} {t : Ty} (ht : t ∈ items) (h : PartOf a t) : PartOf a (.multi items)
  | variadic {t : Ty} (h : PartOf a t) : PartOf a (.variadic t)
  | union {members : List Ty} {t : Ty} (ht : t ∈ members) (h : PartOf a t) :
      PartOf a (.union members)

def IsLoose (members : List Ty) : Prop :=
  members = [.nil, .nil] ∨ ∃ f : Ty, f.isFunc = true ∧ (members = [f, .nil] ∨ members = [.nil, f])

/-- No union that a type is made of is a function or nothing. -/
def Tight (t : Ty) : Prop := ∀ members, PartOf (.union members) t → ¬ IsLoose members

section Tight

variable {t : Ty} {ts : List Ty}

theorem tight_multi_iff : Tight (.multi ts) ↔ ∀ t ∈ ts, Tight t := by
  refine ⟨fun h t ht members hpart => h members (.multi ht hpart), fun h members hpart => ?_⟩
  cases hpart with
  | multi ht hpart => exact h _ ht members hpart

theorem tight_variadic_iff : Tight (.variadic t) ↔ Tight t := by
  refine ⟨fun h members hpart => h members (.variadic hpart), fun h members hpart => ?_⟩
  cases hpart with
  | variadic hpart => exact h members hpart

theorem tight_union_iff : Tight (.union ts) ↔ ¬ IsLoose ts ∧ ∀ t ∈ ts, Tight t := by
  refine ⟨fun h => ⟨h ts .self, fun t ht members hpart => h members (.union ht hpart)⟩,
    fun ⟨hself, hbelow⟩ members hpart => ?_⟩
  cases hpart with
  | self => exact hself
  | union ht hpart => exact hbelow _ ht members hpart

end Tight

def markWeight (s : String) : Int := s.toList.count '(' - s.toList.count '|'

theorem markWeight_append (s s' : String) :
    markWeight (s ++ s') = markWeight s + markWeight s' := by
  simp only [markWeight, String.toList_append, List.count_append]
  omega

/-- The text for readers has no more marks than that of the annotation, and as many only if the type
is tight. -/
def Weighs (t : Ty) : Prop :=
  markWeight t.plainText ≤ markWeight t.text ∧
    (markWeight t.plainText = markWeight t.text → Tight t)

theorem weighs_intercalate (separator : String) {ts : List Ty} (h : ∀ t ∈ ts, Weighs t) :
    markWeight (separator.intercalate (plainTexts ts)) ≤
    markWeight (separator.intercalate (texts ts)) ∧
      (markWeight (separator.intercalate (plainTexts ts)) =
        markWeight (separator.intercalate (texts ts)) →
        ∀ t ∈ ts, Tight t) := by
  induction ts with
  | nil => exact ⟨Int.le_refl _, fun _ => List.forall_mem_nil _⟩
  | cons t ts ih =>
    obtain ⟨⟨hle, htight⟩, hts⟩ := List.forall_mem_cons.1 h
    cases ts with
    | nil =>
      simp only [plainTexts, texts, String.intercalate_singleton]
      exact ⟨hle, fun heq => List.forall_mem_singleton.2 (htight heq)⟩
    | cons t' ts =>
      obtain ⟨hles, htights⟩ := ih hts
      simp only [plainTexts, texts, String.intercalate_cons_cons,
        markWeight_append] at hles htights ⊢
      exact ⟨by omega, fun heq => List.forall_mem_cons.2 ⟨htight (by omega), htights (by omega)⟩⟩

theorem beside_nil {ts : List Ty} (h : (ts.length == 2 && ts.any isNil) = true) :
    ts = [.nil, .nil] ∨ ∃ t : Ty, t.isNil = false ∧ (ts = [t, .nil] ∨ ts = [.nil, t]) := by
  rw [Bool.and_eq_true, beq_iff_eq] at h
  obtain ⟨a, b, rfl⟩ := List.length_eq_two.1 h.1
  have hnil (t : Ty) (ht : t.isNil = true) : t = .nil := by cases t <;> first | rfl | cases ht
  cases ha : a.isNil with
  | true =>
    obtain rfl := hnil a ha
    cases hb : b.isNil with
    | true => exact .inl (by rw [hnil b hb])
    | false => exact .inr ⟨b, hb, .inr rfl⟩
  | false =>
    have hb : b.isNil = true := by simpa [ha] using h.2
    exact .inr ⟨a, ha, .inl (by rw [hnil b hb])⟩

section Beside

variable {t : Ty} {ts : List Ty}

theorem plainText_beside_nil (h : t.isNil = false) (hts : ts = [t, .nil] ∨ ts = [.nil, t]) :
    plainText (.union ts) = t.plainText ++ "?" := by
  have hnil : isNil .nil = true := rfl
  rcases hts with rfl | rfl <;> simp [h, hnil]

theorem isLoose_beside_nil (h : t.isNil = false) (hts : ts = [t, .nil] ∨ ts = [.nil, t]) :
    IsLoose ts ↔ t.isFunc = true := by
  constructor
  · rintro (rfl | ⟨f, hf, hfs⟩)
    · rcases hts with hts | hts <;> cases hts <;> cases h
    · rcases hts with rfl | rfl <;> rcases hfs with hfs | hfs <;> cases hfs <;> exact hf
  · exact fun hf => .inr ⟨t, hf, hts⟩

theorem not_isLoose (h : ¬ (ts.length == 2 && ts.any isNil) = true) : ¬ IsLoose ts := by
  have hnil : isNil .nil = true := rfl
  rintro (rfl | ⟨f, -, rfl | rfl⟩) <;> simp [hnil] at h

end Beside

theorem weighs (t : Ty) : Weighs t := by
  induction t using induction_children with
  | made t ih =>
    cases t with
    | multi items =>
      obtain ⟨hle, htight⟩ := weighs_intercalate ", " (show ∀ t ∈ items, Weighs t from ih)
      exact ⟨hle, fun heq => tight_multi_iff.2 (htight heq)⟩
    | variadic item =>
      obtain ⟨hle, htight⟩ := ih item (List.mem_singleton_self item)
      simp only [Weighs, plainText, text, markWeight_append]
      exact ⟨by omega, fun heq => tight_variadic_iff.2 (htight (by omega))⟩
    | union members =>
      by_cases hnil : (members.length == 2 && members.any isNil) = true
      · rcases beside_nil hnil with rfl | ⟨t, ht, hts⟩
        · have hless : markWeight (plainText (.union [.nil, .nil])) <
              markWeight (text (.union [.nil, .nil])) := by
            decide +kernel
          exact ⟨Int.le_of_lt hless, fun heq => absurd heq (Int.ne_of_lt hless)⟩
        · have hmem : t ∈ members := by rcases hts with rfl | rfl <;> simp
          obtain ⟨hle, htight⟩ := ih t hmem
          rw [Weighs, plainText_beside_nil ht hts]
          cases hfunc : t.isFunc with
          | true =>
            have hopen : markWeight "(" = 1 := by decide +kernel
            have hclose : markWeight ")?" = 0 := by decide +kernel
            have hmark : markWeight "?" = 0 := by decide +kernel
            simp only [text_func_beside_nil hfunc hts, markWeight_append, hopen, hclose, hmark]
            exact ⟨by omega, fun heq => absurd heq (by omega)⟩
          | false =>
            have htext : text (.union members) = t.text ++ "?" := by
              rcases hts with rfl | rfl
              · exact (text_beside_nil ht hfunc).1
              · exact (text_beside_nil ht hfunc).2
            simp only [htext, markWeight_append]
            refine ⟨by omega, fun heq => tight_union_iff.2 ⟨?_, fun u hu => ?_⟩⟩
            · simp [isLoose_beside_nil ht hts, hfunc]
            · have hcases : u = t ∨ u = .nil := by
                rcases hts with rfl | rfl <;> simpa [or_comm] using hu
              rcases hcases with rfl | rfl
              · exact htight (by omega)
              · exact fun _ hpart => by cases hpart
      · obtain ⟨hle, htight⟩ := weighs_intercalate "|" (show ∀ t ∈ members, Weighs t from ih)
        have hlength : (members.map plainText).length = members.length := List.length_map _
        rw [Weighs, plainText, plainUnionText, text, unionText, plainTexts_eq, hlength, if_neg hnil,
          if_neg hnil, ← plainTexts_eq]
        exact ⟨hle, fun heq => tight_union_iff.2 ⟨not_isLoose hnil, htight heq⟩⟩
    | _ => exact ⟨Int.le_refl _, fun _ _ hpart => by cases hpart⟩

theorem plainText_of_tight {t : Ty} (h : Tight t) : t.plainText = t.text := by
  induction t using induction_children with
  | made t ih =>
    have hlist {ts : List Ty} (hts : ∀ u ∈ ts, u.plainText = u.text) : plainTexts ts =
        texts ts := by
      rw [plainTexts_eq, texts_eq]
      exact List.map_congr_left hts
    cases t with
    | multi items =>
      have hitems : plainTexts items = texts items :=
        hlist fun u hu => ih u hu (tight_multi_iff.1 h u hu)
      rw [plainText, text, hitems]
    | variadic item =>
      rw [plainText, text, ih item (List.mem_singleton_self item) (tight_variadic_iff.1 h)]
    | union members =>
      obtain ⟨hloose, hmembers⟩ := tight_union_iff.1 h
      have htexts : plainTexts members = texts members := hlist fun u hu => ih u hu (hmembers u hu)
      by_cases hnil : (members.length == 2 && members.any isNil) = true
      · obtain ⟨t, ht, hts⟩ := (beside_nil hnil).resolve_left fun hboth => hloose (.inl hboth)
        have hfunc : t.isFunc = false := by simpa [isLoose_beside_nil ht hts] using hloose
        have hmem : t ∈ members := by rcases hts with rfl | rfl <;> simp
        rw [plainText_beside_nil ht hts, ih t hmem (hmembers t hmem)]
        rcases hts with rfl | rfl
        · exact (text_beside_nil ht hfunc).1.symm
        · exact (text_beside_nil ht hfunc).2.symm
      · have hlength : (texts members).length = members.length := by rw [texts_eq, List.length_map]
        rw [plainText, plainUnionText, text, unionText, htexts, hlength, if_neg hnil, if_neg hnil]
    | _ => rfl

theorem plainText_eq_text_iff (t : Ty) : t.plainText = t.text ↔ Tight t :=
  ⟨fun h => (weighs t).2 (congrArg markWeight h), plainText_of_tight⟩

end LuaAnalysis.Types.Ty

namespace LuaAnalysis.Inference

open LuaAnalysis.Types Workspace Ty

theorem showType_eq_pure (p : Project) {t : Ty} (h : ∀ closure, ¬ PartOf (.signature closure) t) :
    showType p t = pure t.plainText := by
  induction t using induction_children with
  | made t ih =>
    have hlist {ts : List Ty} (hts : ∀ u ∈ ts, showType p u = pure u.plainText) : showTypes p ts =
        pure (plainTexts ts) := by
      induction ts with
      | nil => rfl
      | cons u ts ihts =>
        obtain ⟨hu, hts⟩ := List.forall_mem_cons.1 hts
        rw [showTypes, hu, ihts hts, pure_bind, pure_bind]
        rfl
    cases t with
    | signature closure => exact absurd .self (h closure)
    | multi items =>
      have hitems : showTypes p items = pure (plainTexts items) :=
        hlist fun u hu => ih u hu fun closure hpart => h closure (.multi hu hpart)
      rw [showType, hitems, pure_bind]
      rfl
    | variadic item =>
      rw [showType, ih item (List.mem_singleton_self item) fun closure hpart =>
        h closure (.variadic hpart), pure_bind]
      rfl
    | union members =>
      have hmembers : showTypes p members = pure (plainTexts members) :=
        hlist fun u hu => ih u hu fun closure hpart => h closure (.union hu hpart)
      rw [showType, hmembers, pure_bind, plainText, plainUnionText]
      dsimp only
      split
      · cases (members.zip (plainTexts members)).find? fun (t, _) => !t.isNil <;> rfl
      · rfl
    | _ => rfl

/-- The text of a type for readers is found without a search unless a function that is defined in
code is shown, and it is the text of an annotation just if the type is tight: in no union that it is
made of is the only other member of `nil` a function. -/
theorem showType_eq_text_iff (p : Project) {t : Ty} (h : ∀ closure, ¬ PartOf (.signature closure) t)
    (s : SearchState) : ((showType p t).run s).2 = s ∧
    (((showType p t).run s).1 = t.text ↔ Tight t) := by
  rw [showType_eq_pure p h]
  exact ⟨rfl, plainText_eq_text_iff t⟩

/-- A point that may be missing, and behind it a function with a function that may be missing. -/
def pointAndHandler : Ty :=
  .multi [.union [.nil, .ref "Point"],
    .func false false [("then", some (.union [.func false false [] .any, .nil]))] .nil]

theorem showType_eq_text_iff_pointAndHandler :
    (∀ closure, ¬ PartOf (.signature closure) pointAndHandler) ∧
    pointAndHandler.text = "Point?, fun(then: (fun(): any)?)" ∧
    ((showType (.ofSettings {}) pointAndHandler).run {}).2 = {} ∧
      (((showType (.ofSettings {}) pointAndHandler).run {}).1 = pointAndHandler.text ↔
        Tight pointAndHandler) := by
  have hpart : ∀ closure, ¬ PartOf (.signature closure) pointAndHandler := by
    intro closure h
    cases h with
    | multi ht h =>
      rcases List.mem_pair.1 ht with rfl | rfl
      · cases h with
        | union ht h => rcases List.mem_pair.1 ht with rfl | rfl <;> cases h
      · cases h
  exact ⟨hpart, by decide +kernel, showType_eq_text_iff _ hpart {}⟩

def optionalFunction : Ty := .union [.func false false [] .integer, .nil]

/-- Without the parentheses, the text of a function that may be missing is that of one whose result
may be missing. -/
theorem not_showType_eq_text :
    ¬ ∀ (p : Project) (t : Ty), (∀ closure, ¬ PartOf (.signature closure) t) →
    run (showType p t) = t.text := by
  intro h
  have hpart : ∀ closure, ¬ PartOf (.signature closure) optionalFunction := by
    intro closure hpart
    cases hpart with
    | union ht hpart => rcases List.mem_pair.1 ht with rfl | rfl <;> cases hpart
  have hshown : run (showType (.ofSettings {}) optionalFunction) = "fun(): integer?" := by
    decide +kernel
  have htext : optionalFunction.text = "(fun(): integer)?" := by decide +kernel
  have hsame := h (.ofSettings {}) optionalFunction hpart
  rw [hshown, htext] at hsame
  exact absurd hsame (by decide +kernel)

end LuaAnalysis.Inference
