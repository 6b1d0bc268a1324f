import LuaAnalysis.Proofs.Syntax.AnnotatedLocal
import LuaAnalysis.Proofs.Types.Written
import LuaAnalysis.Proofs.Workspace.TypeReader

/-!
The text of a type is an annotation of that type. Where a function with a result stands in front of
other members of a union, it is the text of another type.
-/

namespace LuaAnalysis.Workspace

open Syntax LuaAnalysis.Types

theorem formType_form {type : Ty} (h : Legible type) : formType type.form = type.readBack := by
  have htypes {ts : List Ty} (ih : ∀ t ∈ ts, formType t.form = t.readBack) :
      formTypes (Ty.forms ts) = Ty.readBacks ts := by
    rw [formTypes_eq, Ty.forms_eq, Ty.readBacks_eq, List.map_map]
    exact List.map_congr_left ih
  induction h with
  | @builtin t h => cases t <;> first | rfl | cases h
  | boolConst value => rfl
  | intConst => rfl
  | strConst => rfl
  | @ref name hname hbuiltin hfree =>
    have hfun : (name == "fun") = false := by
      simp only [reservedWords, List.mem_cons, List.not_mem_nil, or_false, not_or] at hfree
      exact beq_false_of_ne hfree.2.2
    show namedType [] name = .ref name
    rw [namedType, hfun, hbuiltin]
    rfl
  | @array item _ ih =>
    rw [Ty.form, formType, Ty.readBack]
    split
    · rw [formType, ih]
    · rw [ih]
  | tuple _ ih => rw [Ty.form, formType, Ty.readBack, htypes ih]
  | generic _ _ _ _ ih => rw [Ty.form, formType, Ty.readBack, htypes ih]
  | @union members hnormal _ ih =>
    have hback : Ty.Normal (Ty.nilLast (Ty.readBacks members)) :=
      Ty.normal_nilLast (Ty.normal_readBacks hnormal)
    rw [Ty.readBack, ← Ty.unionOf_of_normal hback]
    by_cases hnil : (members.length == 2 && members.any Ty.isNil) = true
    · obtain ⟨t, ht, hbeside⟩ := hnormal.beside_nil hnil
      have hmem : t ∈ members := by rcases hbeside with rfl | rfl <;> simp
      have hlast := Ty.nilLast_of_beside_nil (t := t.readBack) (by rwa [Ty.isNil_readBack])
      rcases hbeside with rfl | rfl
      · rw [(Ty.form_beside_nil ht).1, formType, ih t hmem]
        exact congrArg Ty.unionOf hlast.1.symm
      · rw [(Ty.form_beside_nil ht).2, formType, ih t hmem]
        exact congrArg Ty.unionOf hlast.2.symm
    · rw [Ty.nilLast_readBacks hnil, Ty.form, Ty.unionForm, if_neg hnil, formType, htypes ih]

theorem beq_readBack_self {type : Ty} (h : Legible type) : Ty.beq type.readBack type = true := by
  have hlist {ts : List Ty} (ih : ∀ t ∈ ts, Ty.beq t.readBack t = true) :
      Ty.beqList (Ty.readBacks ts) ts = true := by
    induction ts with
    | nil => rfl
    | cons t ts ihts =>
      obtain ⟨ht, hts⟩ := List.forall_mem_cons.1 ih
      rw [Ty.readBacks, Ty.beqList, ht, ihts hts, Bool.and_true]
  induction h with
  | @builtin t h => cases t <;> first | rfl | cases h
  | boolConst value => exact beq_self_eq_true value
  | @intConst value => exact beq_self_eq_true value
  | @strConst value => exact beq_self_eq_true value
  | @ref name => exact beq_self_eq_true name
  | array _ ih => exact ih
  | tuple _ ih => exact hlist ih
  | @generic base params _ _ _ _ ih =>
    rw [Ty.readBack, Ty.beq, hlist ih, beq_self_eq_true, Bool.and_true]
  | @union members _ _ ih =>
    rw [Ty.readBack, Ty.beq_union_perm (Ty.nilLast_perm _) (.refl _), Ty.readBacks_eq, Ty.beq,
      List.length_map, beq_self_eq_true, Bool.true_and, Ty.allIn_eq, List.all_map, List.all_eq_true]
    exact fun t ht => List.any_eq_true.2 ⟨t, ht, ih t ht⟩

/-- The type tag above the first local variable of a text. -/
def typeTag? (t : Tree) : Option ElementId := do
  let block ← t.child? Tree.root .block
  let stat ← t.child? block .localStat
  let comment ← t.child? stat .comment
  t.child? comment .docTagType

theorem exists_typeTag {t : Tree} {f : TypeForm} {name : Name}
    (h : t.shape Tree.root = .node .chunk [.node .block [annotatedShape f.shape name]]) :
    ∃ tag node m, typeTag? t = some tag ∧ (t.types tag).head? = some node ∧
    t.shapeFrom m node = f.shape ∧ m ≤ t.size := by
  have htype := (holdsTypes_nil.form f).token .typeTag
  obtain ⟨block, n₁, hle₁, hblock, h⟩ :=
    Tree.exists_child? .block h (by decide) (by simp [Shape.Present, Shape.nodeKind?]) rfl
  obtain ⟨stat, n₂, hle₂, hstat, h⟩ := Tree.exists_child? .localStat h (by decide)
    (by simp [Shape.Present, Shape.nodeKind?, annotatedShape]) rfl
  obtain ⟨comment, n₃, hle₃, hcomment, h⟩ := Tree.exists_child? .comment h (by decide)
    (by simp [Shape.Present, Shape.nodeKind?, Word.shape]) rfl
  obtain ⟨tag, n₄, hle₄, htag, h⟩ := Tree.exists_child? .docTagType h (by decide)
    (by simp [Shape.Present, Shape.nodeKind?, DocWord.shape]) rfl
  obtain ⟨m, rfl, -, hchildren⟩ := Tree.shapeFrom_eq_node (by decide) h
  have htypes := (Tree.map_types hchildren htype.present).trans htype.types
  obtain ⟨node, hnode, hform⟩ := List.map_eq_singleton_iff.1 htypes
  have hfound : typeTag? t = some tag := by simp [typeTag?, hblock, hstat, hcomment, htag]
  exact ⟨tag, node, m, hfound, by rw [hnode]; rfl, hform, by omega⟩

/-- The text of a type, written as a tag above a local variable, is read without an error as a type
that is equal. -/
theorem typeOf_annotated {type : Ty} (h : Writable type) (name : Name) :
    let t := parse (annotated type.text name)
    t.errors = [] ∧ ∃ tag node, typeTag? t = some tag ∧ (t.types tag).head? = some node ∧
    (typeOf t [] node == type) = true := by
  have hlegible := h.legible
  obtain ⟨herrors, hshape⟩ := parse_annotated hlegible.wellFormed_form hlegible.chars_form.symm name
  obtain ⟨tag, node, m, htag, hnode, hform, hle⟩ := exists_typeTag hshape
  have htype : typeOf (parse (annotated type.text name)) [] node = type.readBack := by
    rw [typeOf, typeDeep_of_shape hlegible.wellFormed_form hform hle, formType_form hlegible]
  refine ⟨herrors, tag, node, htag, hnode, ?_⟩
  rw [htype]
  exact beq_readBack_self hlegible

def points : Ty :=
  .unionOf [.array (.unionOf [.nil, .ref "Point"]), .generic "table" [.string, .intConst (-3)],
    .strConst "no points"]

theorem writable_points : Writable points := by
  have hpoint : Writable (.ref "Point") :=
    .ref ⟨'P', ['o', 'i', 'n', 't'], rfl, rfl, List.all_eq_true.1 rfl⟩
      (by decide +kernel) (by decide)
  have hlist : Writable (.array (.unionOf [.nil, .ref "Point"])) :=
    .array (.unionOf (List.forall_mem_cons.2 ⟨.builtin rfl, List.forall_mem_singleton.2 hpoint⟩))
  have htable : Writable (.generic "table" [.string, .intConst (-3)]) :=
    .generic ⟨'t', ['a', 'b', 'l', 'e'], rfl, rfl, List.all_eq_true.1 rfl⟩ (by decide) (by simp)
      (List.forall_mem_cons.2 ⟨.builtin rfl,
        List.forall_mem_singleton.2 (.intConst (by decide) (by decide))⟩)
  have hprintable : ("no points".toList.all fun c => 0x20 ≤ c.toNat && c.toNat ≤ 0x7e) = true := rfl
  have hconst : Writable (.strConst "no points") :=
    .strConst fun c hc => by simpa using List.all_eq_true.1 hprintable c hc
  exact .unionOf (List.forall_mem_cons.2 ⟨hlist,
    List.forall_mem_cons.2 ⟨htable, List.forall_mem_singleton.2 hconst⟩⟩)

def pointsName : Name := { kind := .name, text := "points", kind_mem := List.mem_singleton_self _ }

theorem typeOf_annotated_points : Writable points ∧
    annotated points.text pointsName =
    "---@type (Point?)[]|table<string, -3>|\"no points\"\nlocal points" ∧
    let t := parse (annotated points.text pointsName)
    t.errors = [] ∧ ∃ tag node, typeTag? t = some tag ∧ (t.types tag).head? = some node ∧
    (typeOf t [] node == points) = true :=
  ⟨writable_points, by decide +kernel, typeOf_annotated writable_points pointsName⟩

theorem text_func_union {isAsync isColon : Bool} {params : List (String × Option Ty)} {ret : Ty}
    {ts : List Ty} (hret : ret.isNil = false) (hne : ts ≠ []) (hts : ∀ t ∈ ts, t.isNil = false) :
    Ty.text (.union (.func isAsync isColon params ret :: ts)) =
    Ty.text (.func isAsync isColon params (.union (ret :: ts))) := by
  obtain ⟨t, ts, rfl⟩ := List.exists_cons_of_ne_nil hne
  have hunion {u : Ty} (hu : u.isNil = false) :
      Ty.text (.union (u :: t :: ts)) = u.text ++ "|" ++ "|".intercalate (Ty.texts (t :: ts)) := by
    have hany : ¬((u :: t :: ts).length == 2 && (u :: t :: ts).any Ty.isNil) = true := by
      have hnone : (u :: t :: ts).any Ty.isNil = false := by simpa [hu] using hts
      rw [hnone, Bool.and_false]
      decide
    rw [Ty.text, Ty.unionText, if_neg hany]
    simp [Ty.texts]
  have hresult : Ty.isNil (.union (ret :: t :: ts)) = false := rfl
  rw [hunion rfl, Ty.text, Ty.text, hunion hret]
  simp [Ty.funcText, hret, hresult, String.append_assoc]

/-- The type in the tag above the first local variable of a text. -/
def writtenType (source : String) : Ty :=
  let t := parse source
  ((typeTag? t).map (firstType t [])).getD .unknown

theorem not_beq_of_text_eq : ¬ ∀ source source' : String, (parse source).errors = [] →
    (parse source').errors = [] →
    (writtenType source).text = (writtenType source').text →
    (writtenType source == writtenType source') = true := by
  intro h
  have herrors : (parse "---@type (fun():A)|B\nlocal f").errors = [] := by decide +kernel
  have herrors' : (parse "---@type fun():A|B\nlocal f").errors = [] := by decide +kernel
  have htypes : (writtenType "---@type (fun():A)|B\nlocal f").text =
      (writtenType "---@type fun():A|B\nlocal f").text ∧
      (writtenType "---@type (fun():A)|B\nlocal f" == writtenType "---@type fun():A|B\nlocal f") =
      false := by
    decide +kernel
  obtain ⟨htext, hdiffer⟩ := htypes
  rw [h _ _ herrors herrors' htext] at hdiffer
  cases hdiffer

end LuaAnalysis.Workspace
