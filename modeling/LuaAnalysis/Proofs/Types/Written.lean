import LuaAnalysis.Proofs.Syntax.TypeForms
import LuaAnalysis.Proofs.Types.ReadBack
import LuaAnalysis.Types.Printer

/-!
The types that annotations can write, the annotations that are written for them, and that their text
is that of the words of the annotation.
-/

namespace LuaAnalysis.Types

open Syntax

/-- The types that are built in under a name of their own. -/
def Ty.isBuiltin : Ty → Bool
  | .unknown | .any | .never | .nil | .boolean | .integer | .number | .string | .table | .function
  | .thread | .userdata
  | .self => true
  | _ => false

theorem Ty.isUnion_of_isBuiltin {t : Ty} (h : t.isBuiltin = true) : t.isUnion = false := by
  cases t <;> first | rfl | cases h

theorem Ty.isFunc_of_isBuiltin {t : Ty} (h : t.isBuiltin = true) : t.isFunc = false := by
  cases t <;> first | rfl | cases h

/-- The types that are made of what annotations can name, with unions as they are built. -/
inductive Writable : Ty → Prop where
  | builtin {t : Ty} (h : t.isBuiltin = true) : Writable t
  | boolConst (value : Bool) : Writable (.boolConst value)
  | intConst {value : Int} (hlow : -2 ^ 63 < value) (hhigh : value < 2 ^ 63) :
      Writable (.intConst value)
  | strConst {value : String} (h : ∀ c ∈ value.toList, 0x20 ≤ c.toNat ∧ c.toNat ≤ 0x7e) :
      Writable (.strConst value)
  | ref {name : String} (hname : IsIdentifier name) (hbuiltin : Ty.ofBuiltinName? name = none)
      (hfree : name ∉ reservedWords) : Writable (.ref name)
  | array {item : Ty} (h : Writable item) : Writable (.array item)
  | tuple {items : List Ty} (h : ∀ t ∈ items, Writable t) : Writable (.tuple items)
  | generic {base : String} {params : List Ty} (hbase : IsIdentifier base)
      (hfree : base ∉ reservedWords) (hne : params ≠ []) (h : ∀ t ∈ params, Writable t) :
      Writable (.generic base params)
  | unionOf {ts : List Ty} (h : ∀ t ∈ ts, Writable t) : Writable (Ty.unionOf ts)

/-- The types that are read back, by what they are made of: with members in place of what a union is
built from. -/
inductive Legible : Ty → Prop where
  | builtin {t : Ty} (h : t.isBuiltin = true) : Legible t
  | boolConst (value : Bool) : Legible (.boolConst value)
  | intConst {value : Int} (hlow : -2 ^ 63 < value) (hhigh : value < 2 ^ 63) :
      Legible (.intConst value)
  | strConst {value : String} (h : IsShown value) : Legible (.strConst value)
  | ref {name : String} (hname : IsIdentifier name) (hbuiltin : Ty.ofBuiltinName? name = none)
      (hfree : name ∉ reservedWords) : Legible (.ref name)
  | array {item : Ty} (h : Legible item) : Legible (.array item)
  | tuple {items : List Ty} (h : ∀ t ∈ items, Legible t) : Legible (.tuple items)
  | generic {base : String} {params : List Ty} (hbase : IsIdentifier base)
      (hfree : base ∉ reservedWords) (hne : params ≠ []) (h : ∀ t ∈ params, Legible t) :
      Legible (.generic base params)
  | union {members : List Ty} (hnormal : Ty.Normal members) (h : ∀ t ∈ members, Legible t) :
      Legible (.union members)

theorem isShown_of_printable {value : String}
    (h : ∀ c ∈ value.toList, 0x20 ≤ c.toNat ∧ c.toNat ≤ 0x7e) : IsShown value := by
  have hshown : ∀ n < 0x7f, 0x20 ≤ n → Text.inRanges Text.hiddenRanges n = false := by
    decide +kernel
  intro c hc
  obtain ⟨hlow, hhigh⟩ := h c hc
  exact hshown c.toNat (by omega) hlow

theorem Legible.alternatives {t : Ty} (h : Legible t) : ∀ a ∈ t.alternatives, Legible a := by
  intro a ha
  cases hunion : t.isUnion with
  | false =>
    rw [Ty.alternatives_of_not_union hunion, List.mem_singleton] at ha
    exact ha ▸ h
  | true =>
    cases h with
    | union hnormal hmembers =>
      rw [Ty.alternatives, Ty.allAlternatives_of_not_union fun t ht =>
        (hnormal.single t ht).1] at ha
      exact hmembers a ha
    | builtin h =>
      rw [Ty.isUnion_of_isBuiltin h] at hunion
      cases hunion
    | _ => cases hunion

theorem Writable.legible {t : Ty} (h : Writable t) : Legible t := by
  induction h with
  | builtin h => exact .builtin h
  | boolConst value => exact .boolConst value
  | intConst hlow hhigh => exact .intConst hlow hhigh
  | strConst h => exact .strConst (isShown_of_printable h)
  | ref hname hbuiltin hfree => exact .ref hname hbuiltin hfree
  | array _ ih => exact .array ih
  | tuple _ ih => exact .tuple ih
  | generic hbase hfree hne _ ih => exact .generic hbase hfree hne ih
  | @unionOf ts _ ih =>
    obtain ⟨members, hunion, hmem, hmembers⟩ := Ty.unionOf_cases ts
    have hlegible : ∀ t ∈ members, Legible t := by
      intro t ht
      rcases hmem t ht with rfl | ht
      · exact .builtin rfl
      · obtain ⟨u, hu, ht⟩ := Ty.mem_allAlternatives.1 ht
        exact (ih u hu).alternatives t ht
    rw [hunion]
    rcases hmembers with rfl | ⟨t, rfl⟩ | hnormal
    · exact .builtin rfl
    · exact hlegible t (.head _)
    · rw [Ty.ofMembers_of_two_le hnormal.two_le]
      exact .union hnormal hlegible

namespace Ty

def unionForm (members : List Ty) (forms : List TypeForm) : TypeForm :=
  if members.length == 2 && members.any isNil then
    match (members.zip forms).find? fun (t, _) => !t.isNil with
    | some (_, form) => .optional form
    | none => .union forms
  else .union forms

mutual

def form (t : Ty) : TypeForm :=
  match t with
  | .boolConst value => .bool value
  | .intConst value => .int value
  | .strConst value => .str value
  | .array item => .array (if item.isUnion then .paren (form item) else form item)
  | .tuple items => .tuple (forms items)
  | .generic base params => .generic base (forms params)
  | .union members => unionForm members (forms members)
  | t => .name t.text
termination_by structural t

def forms (ts : List Ty) : List TypeForm :=
  match ts with
  | [] => []
  | t :: ts => form t :: forms ts
termination_by structural ts

end

theorem forms_eq (ts : List Ty) : forms ts = ts.map form := by
  induction ts with
  | nil => rfl
  | cons t ts ih => rw [forms, ih, List.map_cons]

theorem texts_eq (ts : List Ty) : texts ts = ts.map text := by
  induction ts with
  | nil => rfl
  | cons t ts ih => rw [texts, ih, List.map_cons]

theorem form_beside_nil {t : Ty} (h : t.isNil = false) :
    form (.union [t, .nil]) = .optional t.form ∧ form (.union [.nil, t]) = .optional t.form := by
  have hnil : isNil .nil = true := rfl
  simp [form, forms, unionForm, h, hnil]

theorem text_beside_nil {t : Ty} (h : t.isNil = false) (hfunc : t.isFunc = false) :
    text (.union [t, .nil]) = t.text ++ "?" ∧ text (.union [.nil, t]) = t.text ++ "?" := by
  have hnil : isNil .nil = true := rfl
  simp [text, texts, unionText, h, hnil, hfunc]

theorem text_func_beside_nil {t : Ty} {ts : List Ty} (h : t.isFunc = true)
    (hts : ts = [t, .nil] ∨ ts = [.nil, t]) : text (.union ts) = "(" ++ t.text ++ ")?" := by
  have hnil : isNil .nil = true := rfl
  have hsome : t.isNil = false := by cases t <;> first | rfl | cases h
  rcases hts with rfl | rfl <;> simp [text, texts, unionText, h, hsome, hnil]

theorem isSingle_form {t : Ty} (h : t.isUnion = false) : t.form.isSingle = true := by
  cases t <;> first | rfl | cases h

end Ty

theorem Legible.wellFormed_form {t : Ty} (h : Legible t) : t.form.WellFormed := by
  induction h with
  | @builtin t h =>
    cases t <;> first | exact .name ⟨_, _, rfl, rfl, List.all_eq_true.1 rfl⟩ (by decide) | cases h
  | boolConst value => exact .bool value
  | intConst hlow hhigh => exact .int hlow hhigh
  | strConst h => exact .str h
  | ref hname _ hfree => exact .name hname hfree
  | @array item _ ih =>
    rw [Ty.form]
    split
    · exact .array rfl (.paren ih)
    · rename_i hunion
      exact .array (Ty.isSingle_form (by simpa using hunion)) ih
  | tuple _ ih =>
    rw [Ty.form, Ty.forms_eq]
    exact .tuple (by simpa using ih)
  | generic hbase hfree hne _ ih =>
    rw [Ty.form, Ty.forms_eq]
    exact .generic hbase hfree (by simpa using hne) (by simpa using ih)
  | @union members hnormal _ ih =>
    by_cases hnil : (members.length == 2 && members.any Ty.isNil) = true
    · obtain ⟨t, ht, hbeside⟩ := hnormal.beside_nil hnil
      have hmem : t ∈ members := by rcases hbeside with rfl | rfl <;> simp
      have hoptional :=
        TypeForm.WellFormed.optional (Ty.isSingle_form (hnormal.single t hmem).1) (ih t hmem)
      rcases hbeside with rfl | rfl
      · rwa [(Ty.form_beside_nil ht).1]
      · rwa [(Ty.form_beside_nil ht).2]
    · rw [Ty.form, Ty.forms_eq, Ty.unionForm, if_neg hnil]
      refine .union (by simpa using hnormal.two_le) ?_ (by simpa using ih)
      simpa using fun t ht => Ty.isSingle_form (hnormal.single t ht).1

theorem chars_intercalate (separator : DocWord) (lists : List (List DocWord)) :
    DocWord.chars ([separator].intercalate lists) =
      (separator.text.toList ++ separator.gap).intercalate (lists.map DocWord.chars) := by
  induction lists with
  | nil => rfl
  | cons ws lists ih =>
    cases lists with
    | nil => simp
    | cons ws' lists =>
      rw [List.intercalate_cons_cons, DocWord.chars_append, DocWord.chars_append, ih]
      simp [DocWord.chars]

theorem Legible.isFunc_eq {t : Ty} (h : Legible t) : t.isFunc = false := by
  cases h with
  | builtin h => exact Ty.isFunc_of_isBuiltin h
  | _ => rfl

theorem chars_singleton {w : DocWord} (h : w.gap = []) : DocWord.chars [w] = w.text.toList := by
  simp [DocWord.chars, h]

theorem chars_forms {separator : DocWord} {s : String}
    (hs : separator.text.toList ++ separator.gap = s.toList) {ts : List Ty}
    (h : ∀ t ∈ ts, DocWord.chars t.form.words = t.text.toList) :
    DocWord.chars ([separator].intercalate (TypeForm.wordLists (Ty.forms ts))) =
    (s.intercalate (Ty.texts ts)).toList := by
  rw [TypeForm.wordLists_eq, Ty.forms_eq, Ty.texts_eq, chars_intercalate, String.toList_intercalate,
    hs, List.map_map, List.map_map, List.map_map]
  exact congrArg s.toList.intercalate (List.map_congr_left h)

theorem Legible.chars_form {t : Ty} (h : Legible t) :
    DocWord.chars t.form.words = t.text.toList := by
  induction h with
  | @builtin t h =>
    have hform : t.form = .name t.text := by cases t <;> first | rfl | cases h
    rw [hform, TypeForm.words, chars_singleton rfl]
    rfl
  | boolConst value =>
    rw [Ty.form, TypeForm.words, chars_singleton rfl]
    cases value <;> rfl
  | intConst hlow hhigh =>
    rw [Ty.form, TypeForm.words, chars_singleton rfl]
    rfl
  | strConst h =>
    rw [Ty.form, TypeForm.words, chars_singleton rfl]
    rfl
  | @ref name _ _ _ =>
    show DocWord.chars [DocWord.name name] = name.toList
    exact chars_singleton rfl
  | @array item hitem ih =>
    rw [Ty.form, TypeForm.words, DocWord.chars_append, Ty.text, hitem.isFunc_eq, Bool.or_false]
    split
    · rw [TypeForm.words, DocWord.chars_cons, DocWord.chars_append, ih]
      simp [DocWord.chars, DocWord.gap, DocWord.leftParen, DocWord.rightParen, DocWord.leftBracket,
        DocWord.rightBracket]
    · rw [ih]
      simp [DocWord.chars, DocWord.gap, DocWord.leftBracket, DocWord.rightBracket]
  | tuple _ ih =>
    rw [Ty.form, TypeForm.words, DocWord.chars_cons, DocWord.chars_append,
      chars_forms (s := ", ") rfl ih, Ty.text]
    simp [DocWord.chars, DocWord.gap, DocWord.leftBracket, DocWord.rightBracket]
  | generic hbase hfree hne _ ih =>
    rw [Ty.form, TypeForm.words, DocWord.chars_cons, DocWord.chars_cons, DocWord.chars_append,
      chars_forms (s := ", ") rfl ih, Ty.text]
    simp [DocWord.chars, DocWord.gap, DocWord.name, DocWord.lt, DocWord.gt]
  | @union members hnormal hmembers ih =>
    by_cases hnil : (members.length == 2 && members.any Ty.isNil) = true
    · obtain ⟨t, ht, hbeside⟩ := hnormal.beside_nil hnil
      have hmem : t ∈ members := by rcases hbeside with rfl | rfl <;> simp
      have htext := Ty.text_beside_nil ht (hmembers t hmem).isFunc_eq
      have hoptional : DocWord.chars (TypeForm.optional t.form).words = (t.text ++ "?").toList := by
        rw [TypeForm.words, DocWord.chars_append, ih t hmem]
        simp [DocWord.chars, DocWord.gap, DocWord.question]
      rcases hbeside with rfl | rfl
      · rw [(Ty.form_beside_nil ht).1, htext.1, hoptional]
      · rw [(Ty.form_beside_nil ht).2, htext.2, hoptional]
    · rw [Ty.form, Ty.unionForm, if_neg hnil, TypeForm.words, chars_forms (s := "|") rfl ih,
        Ty.text, Ty.unionText, if_neg hnil]

end LuaAnalysis.Types
