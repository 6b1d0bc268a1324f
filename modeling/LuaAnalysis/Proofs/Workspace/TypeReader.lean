import LuaAnalysis.Proofs.Syntax.LiteralText
import LuaAnalysis.Proofs.Syntax.ShapeQueries
import LuaAnalysis.Proofs.Syntax.TypeForms
import LuaAnalysis.Workspace.TypeReader

namespace LuaAnalysis.Workspace

open Syntax LuaAnalysis.Types

mutual

/-- The type that an annotation stands for where no generic parameters are declared. -/
def formType (f : TypeForm) : Ty :=
  match f with
  | .name name => namedType [] name
  | .bool value => .boolConst value
  | .int value => .intConst value
  | .str value => .strConst value
  | .generic base params => .generic base (formTypes params)
  | .tuple items => .tuple (formTypes items)
  | .paren inner => formType inner
  | .array item => .array (formType item)
  | .optional item => (formType item).nullable
  | .union members => .unionOf (formTypes members)
termination_by structural f

def formTypes (fs : List TypeForm) : List Ty :=
  match fs with
  | [] => []
  | f :: fs => formType f :: formTypes fs
termination_by structural fs

end

theorem formTypes_eq (fs : List TypeForm) : formTypes fs = fs.map formType := by
  induction fs with
  | nil => rfl
  | cons f fs ih => rw [formTypes, ih, List.map_cons]

/-- The types among children that look like this are those of the annotations. -/
structure HoldsTypes (shapes : List Shape) (fs : List TypeForm) : Prop where
  present : ∀ s ∈ shapes, s.Present
  types : shapes.filter Shape.isType = fs.map TypeForm.shape

section

variable {shapes : List Shape} {f : TypeForm} {fs : List TypeForm}

theorem holdsTypes_nil : HoldsTypes [] [] := ⟨nofun, rfl⟩

theorem HoldsTypes.token (h : HoldsTypes shapes fs) (w : DocWord) :
    HoldsTypes (w.shape :: shapes) fs :=
  ⟨List.forall_mem_cons.2 ⟨nofun, h.present⟩, h.types⟩

theorem HoldsTypes.form (h : HoldsTypes shapes fs) (f : TypeForm) :
    HoldsTypes (f.shape :: shapes) (f :: fs) := by
  have htype : f.shape.isType = true := by cases f <;> rfl
  refine ⟨List.forall_mem_cons.2 ⟨?_, h.present⟩, ?_⟩
  · cases f <;> exact nofun
  · rw [List.filter_cons_of_pos htype, h.types, List.map_cons]

theorem HoldsTypes.separated (h : HoldsTypes shapes []) (separator : DocWord) (fs : List TypeForm) :
    HoldsTypes ((fs.map TypeForm.shape).intersperse separator.shape ++ shapes) fs := by
  induction fs with
  | nil => exact h
  | cons f fs ih =>
    cases fs with
    | nil => exact h.form f
    | cons g fs => exact (ih.token separator).form f

end

variable {t : Tree} {read : ElementId → Ty} {k : Nat} {id : ElementId} {shapes : List Shape}
  {f : TypeForm} {fs : List TypeForm}

theorem map_read {ids : List ElementId} (h : ids.map (t.shapeFrom k) = fs.map TypeForm.shape)
    (hread : ∀ f ∈ fs, ∀ id, t.shapeFrom k id = f.shape → read id = formType f) :
    ids.map read = formTypes fs := by
  induction fs generalizing ids with
  | nil =>
    rw [List.map_nil, List.map_eq_nil_iff] at h
    rw [h]
    rfl
  | cons f fs ih =>
    obtain ⟨hf, hfs⟩ := List.forall_mem_cons.1 hread
    cases ids with
    | nil => cases h
    | cons id ids =>
      obtain ⟨hid, hids⟩ := List.cons.inj h
      rw [List.map_cons, formTypes, hf id hid, ih hids hfs]

theorem map_types_read (h : (t.children id).map (t.shapeFrom k) = shapes)
    (hholds : HoldsTypes shapes fs)
    (hread : ∀ f ∈ fs, ∀ id, t.shapeFrom k id = f.shape → read id = formType f) :
    (t.types id).map read = formTypes fs :=
  map_read ((Tree.map_types h hholds.present).trans hholds.types) hread

theorem readFirst_of_shape (h : (t.children id).map (t.shapeFrom k) = shapes)
    (hholds : HoldsTypes shapes [f]) (hread : ∀ id, t.shapeFrom k id = f.shape →
      read id = formType f) : readFirst t read id = formType f := by
  have htypes := map_types_read h hholds (List.forall_mem_singleton.2 hread)
  rw [readFirst, ← List.head?_map, htypes]
  rfl

theorem exists_childTokens {kind : TokenKind} {text : String}
    (h : (t.children id).map (t.shapeFrom k) = [.token kind text]) :
    ∃ c, t.childTokens id = [c] ∧ t.tokenKind? c = some kind ∧ t.textOf c = text := by
  have htokens := Tree.map_childTokens h (by simp [Shape.Present, Shape.nodeKind?])
  obtain ⟨c, hc, hshape⟩ := List.map_eq_singleton_iff.1 htokens
  exact ⟨c, hc, Tree.shapeFrom_eq_token hshape⟩

theorem literalType_bool {value : Bool}
    (h : (t.children id).map (t.shapeFrom k) = [(DocWord.name (toString value)).shape]) :
    literalType t id = .boolConst value := by
  obtain ⟨c, hc, hkind, htext⟩ := exists_childTokens h
  rw [literalType, hc]
  simp only [List.head?_cons, hkind, htext]
  cases value <;> rfl

theorem literalType_int {value : Int} (hlow : -2 ^ 63 < value) (hhigh : value < 2 ^ 63)
    (h : (t.children id).map (t.shapeFrom k) = [(DocWord.int value).shape]) :
    literalType t id = .intConst value := by
  obtain ⟨c, hc, hkind, htext⟩ := exists_childTokens h
  rw [literalType, hc]
  simp only [List.head?_cons, hkind, htext, DocWord.int]
  rw [Literal.integerValue?_toString hlow hhigh]
  rfl

theorem literalType_str {value : String} (hshown : IsShown value)
    (h : (t.children id).map (t.shapeFrom k) = [(DocWord.str value).shape]) :
    literalType t id = .strConst value := by
  obtain ⟨c, hc, hkind, htext⟩ := exists_childTokens h
  rw [literalType, hc]
  simp only [List.head?_cons, hkind, htext, DocWord.str]
  rw [Literal.stringValue_quoted hshown]

theorem typeDeep_of_node {kind : NodeKind} (hkind : kind ≠ .absent) {n m : Nat}
    (h : t.shapeFrom n id = .node kind shapes) (hle : n ≤ m) : ∃ k j, k ≤ j ∧ t.kind id = kind ∧
    (t.children id).map (t.shapeFrom k) = shapes ∧
      typeDeep t [] m id = typeOfNode t [] (typeDeep t [] j) id := by
  obtain ⟨k, rfl, hid, hchildren⟩ := Tree.shapeFrom_eq_node hkind h
  obtain ⟨j, rfl⟩ : ∃ j, m = j + 1 := ⟨m - 1, by omega⟩
  exact ⟨k, j, by omega, by rw [Tree.kind, hid]; rfl, hchildren, rfl⟩

theorem typeDeep_of_shape (hf : f.WellFormed) {n m : Nat} (h : t.shapeFrom n id = f.shape)
    (hle : n ≤ m) : typeDeep t [] m id = formType f := by
  induction hf generalizing n m id with
  | @name name _ _ =>
    obtain ⟨k, j, hle, hkind, hchildren, hread⟩ := typeDeep_of_node (by decide) h hle
    have hpresent := (holdsTypes_nil.token (.name name)).present
    rw [hread, typeOfNode, hkind]
    simp only [Tree.nameText?_eq hchildren hpresent rfl]
    rfl
  | bool value =>
    obtain ⟨k, j, hle, hkind, hchildren, hread⟩ := typeDeep_of_node (by decide) h hle
    rw [hread, typeOfNode, hkind]
    exact literalType_bool hchildren
  | int hlow hhigh =>
    obtain ⟨k, j, hle, hkind, hchildren, hread⟩ := typeDeep_of_node (by decide) h hle
    rw [hread, typeOfNode, hkind]
    exact literalType_int hlow hhigh hchildren
  | str hshown =>
    obtain ⟨k, j, hle, hkind, hchildren, hread⟩ := typeDeep_of_node (by decide) h hle
    rw [hread, typeOfNode, hkind]
    exact literalType_str hshown hchildren
  | @generic base params _ _ _ _ ih =>
    obtain ⟨k, j, hle, hkind, hchildren, hread⟩ := typeDeep_of_node (by decide) h hle
    have hholds := (((holdsTypes_nil.token .gt).separated .comma params).token .lt).token
      (.name base)
    rw [TypeForm.shapes_eq] at hchildren
    rw [hread, typeOfNode, hkind]
    simp only [Tree.nameText?_eq hchildren hholds.present rfl, Option.getD_some]
    rw [map_types_read hchildren hholds fun f hf id h => ih f hf h hle]
    rfl
  | @tuple items _ ih =>
    obtain ⟨k, j, hle, hkind, hchildren, hread⟩ := typeDeep_of_node (by decide) h hle
    have hholds := ((holdsTypes_nil.token .rightBracket).separated .comma items).token .leftBracket
    rw [TypeForm.shapes_eq] at hchildren
    rw [hread, typeOfNode, hkind]
    exact congrArg Ty.tuple (map_types_read hchildren hholds fun f hf id h => ih f hf h hle)
  | @paren inner _ ih =>
    obtain ⟨k, j, hle, hkind, hchildren, hread⟩ := typeDeep_of_node (by decide) h hle
    have hholds := ((holdsTypes_nil.token .rightParen).form inner).token .leftParen
    rw [hread, typeOfNode, hkind]
    show readFirst t (typeDeep t [] j) id = formType inner
    exact readFirst_of_shape hchildren hholds fun id h => ih h hle
  | @array item _ _ ih =>
    obtain ⟨k, j, hle, hkind, hchildren, hread⟩ := typeDeep_of_node (by decide) h hle
    have hholds := ((holdsTypes_nil.token .rightBracket).token .leftBracket).form item
    rw [hread, typeOfNode, hkind]
    exact congrArg Ty.array (readFirst_of_shape hchildren hholds fun id h => ih h hle)
  | @optional item _ _ ih =>
    obtain ⟨k, j, hle, hkind, hchildren, hread⟩ := typeDeep_of_node (by decide) h hle
    have hholds := (holdsTypes_nil.token .question).form item
    rw [hread, typeOfNode, hkind]
    exact congrArg Ty.nullable (readFirst_of_shape hchildren hholds fun id h => ih h hle)
  | @union members _ _ _ ih =>
    obtain ⟨k, j, hle, hkind, hchildren, hread⟩ := typeDeep_of_node (by decide) h hle
    have hholds := holdsTypes_nil.separated .bar members
    rw [List.append_nil, ← TypeForm.shapes_eq] at hholds
    rw [hread, typeOfNode, hkind]
    exact congrArg Ty.unionOf (map_types_read hchildren hholds fun f hf id h => ih f hf h hle)

end LuaAnalysis.Workspace
