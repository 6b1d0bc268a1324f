import Mathlib.Algebra.Group.Int.Defs
import LuaAnalysis.Proofs.Syntax.DocWords

/-!
Types as annotations write them, the words that they are written with, and what they look like in a
syntax tree.
-/

namespace LuaAnalysis.Syntax

inductive TypeForm where
  | name (name : String)
  | bool (value : Bool)
  | int (value : Int)
  | str (value : String)
  | generic (base : String) (params : List TypeForm)
  | tuple (items : List TypeForm)
  | paren (inner : TypeForm)
  | array (item : TypeForm)
  | optional (item : TypeForm)
  | union (members : List TypeForm)

namespace TypeForm

mutual

def words (f : TypeForm) : List DocWord :=
  match f with
  | .name n => [.name n]
  | .bool value => [.name (toString value)]
  | .int value => [.int value]
  | .str value => [.str value]
  | .generic base params => .name base :: .lt ::
      ([DocWord.comma].intercalate (wordLists params) ++ [.gt])
  | .tuple items => .leftBracket ::
      ([DocWord.comma].intercalate (wordLists items) ++ [.rightBracket])
  | .paren inner => .leftParen :: (words inner ++ [.rightParen])
  | .array item => words item ++ [.leftBracket, .rightBracket]
  | .optional item => words item ++ [.question]
  | .union members => [DocWord.bar].intercalate (wordLists members)
termination_by structural f

def wordLists (fs : List TypeForm) : List (List DocWord) :=
  match fs with
  | [] => []
  | f :: fs => words f :: wordLists fs
termination_by structural fs

end

mutual

def shape (f : TypeForm) : Shape :=
  match f with
  | .name n => .node .typeName [(DocWord.name n).shape]
  | .bool value => .node .typeLiteral [(DocWord.name (toString value)).shape]
  | .int value => .node .typeLiteral [(DocWord.int value).shape]
  | .str value => .node .typeLiteral [(DocWord.str value).shape]
  | .generic base params => .node .typeGeneric
      ((DocWord.name base).shape :: DocWord.lt.shape ::
        ((shapes params).intersperse DocWord.comma.shape ++ [DocWord.gt.shape]))
  | .tuple items => .node .typeTuple
      (DocWord.leftBracket.shape ::
        ((shapes items).intersperse DocWord.comma.shape ++ [DocWord.rightBracket.shape]))
  | .paren inner => .node .typeParen [DocWord.leftParen.shape, shape inner,
      DocWord.rightParen.shape]
  | .array item => .node .typeArray [shape item, DocWord.leftBracket.shape,
      DocWord.rightBracket.shape]
  | .optional item => .node .typeNullable [shape item, DocWord.question.shape]
  | .union members => .node .typeUnion ((shapes members).intersperse DocWord.bar.shape)
termination_by structural f

def shapes (fs : List TypeForm) : List Shape :=
  match fs with
  | [] => []
  | f :: fs => shape f :: shapes fs
termination_by structural fs

end

theorem wordLists_eq (fs : List TypeForm) : wordLists fs = fs.map words := by
  induction fs with
  | nil => rfl
  | cons f fs ih => rw [wordLists, ih, List.map_cons]

theorem shapes_eq (fs : List TypeForm) : shapes fs = fs.map shape := by
  induction fs with
  | nil => rfl
  | cons f fs ih => rw [shapes, ih, List.map_cons]

def isSingle : TypeForm → Bool
  | .union _ => false
  | _ => true

end TypeForm

/-- The names that stand for something else than a type of that name. -/
def reservedWords : List String := ["true", "false", "fun"]

/-- A type that its words leave no other way to read. -/
inductive TypeForm.WellFormed : TypeForm → Prop where
  | name {name : String} (hname : IsIdentifier name) (hfree : name ∉ reservedWords) :
      WellFormed (.name name)
  | bool (value : Bool) : WellFormed (.bool value)
  | int {value : Int} (hlow : -2 ^ 63 < value) (hhigh : value < 2 ^ 63) : WellFormed (.int value)
  | str {value : String} (h : IsShown value) : WellFormed (.str value)
  | generic {base : String} {params : List TypeForm} (hbase : IsIdentifier base)
      (hfree : base ∉ reservedWords) (hne : params ≠ []) (hparams : ∀ f ∈ params, f.WellFormed) :
      WellFormed (.generic base params)
  | tuple {items : List TypeForm} (hitems : ∀ f ∈ items, f.WellFormed) : WellFormed (.tuple items)
  | paren {inner : TypeForm} (h : inner.WellFormed) : WellFormed (.paren inner)
  | array {item : TypeForm} (hsingle : item.isSingle = true) (h : item.WellFormed) :
      WellFormed (.array item)
  | optional {item : TypeForm} (hsingle : item.isSingle = true) (h : item.WellFormed) :
      WellFormed (.optional item)
  | union {members : List TypeForm} (hlength : 2 ≤ members.length)
      (hsingle : ∀ f ∈ members, f.isSingle = true) (hmembers : ∀ f ∈ members, f.WellFormed) :
      WellFormed (.union members)

namespace TypeForm

open DocWord

theorem apart_intercalate (separator : DocWord) (hseparator : separator ∈ marks)
    {fs : List TypeForm} {ws : List DocWord}
    (hfs : ∀ f ∈ fs, ∀ ws, EndsWord (chars ws) → Apart ws → Apart (f.words ++ ws))
    (hend : EndsWord (chars ws)) (hws : Apart ws) :
    Apart ([separator].intercalate (fs.map words) ++ ws) := by
  induction fs with
  | nil => exact hws
  | cons f fs ih =>
    obtain ⟨hf, hfs⟩ := List.forall_mem_cons.1 hfs
    cases fs with
    | nil => simpa [List.intercalate] using hf ws hend hws
    | cons g fs =>
      have hrest := apart_mark hseparator (ih hfs)
      have hall := hf _ (endsWord_mark hseparator _) hrest
      simpa [List.intercalate] using hall

theorem apart_words {f : TypeForm} (h : f.WellFormed) {ws : List DocWord}
    (hend : EndsWord (chars ws)) (hws : Apart ws) : Apart (f.words ++ ws) := by
  induction h generalizing ws with
  | name hname => exact apart_name hname hend hws
  | bool value =>
    have hword : IsIdentifier (toString value) := by
      cases value
      · exact ⟨'f', ['a', 'l', 's', 'e'], rfl, rfl, List.all_eq_true.1 rfl⟩
      · exact ⟨'t', ['r', 'u', 'e'], rfl, rfl, List.all_eq_true.1 rfl⟩
    exact apart_name hword hend hws
  | @int value _ _ => exact apart_int value hend hws
  | str h => exact apart_str h hws
  | generic hbase _ _ _ ih =>
    have hclose : Apart (.gt :: ws) := apart_mark (by decide) hws
    have hparams := apart_intercalate .comma (by decide) (fun f hf ws => ih f hf)
      (endsWord_mark (by decide) ws) hclose
    have hopen := apart_mark (w := .lt) (by decide) hparams
    have hall := apart_name hbase (endsWord_mark (by decide) _) hopen
    simpa [words, wordLists_eq] using hall
  | tuple _ ih =>
    have hclose : Apart (.rightBracket :: ws) := apart_mark (by decide) hws
    have hitems := apart_intercalate .comma (by decide) (fun f hf ws => ih f hf)
      (endsWord_mark (by decide) ws) hclose
    have hall := apart_mark (w := .leftBracket) (by decide) hitems
    simpa [words, wordLists_eq] using hall
  | paren _ ih =>
    have hclose : Apart (.rightParen :: ws) := apart_mark (by decide) hws
    have hall := apart_mark (w := .leftParen) (by decide) (ih (endsWord_mark (by decide) ws) hclose)
    simpa [words] using hall
  | array _ _ ih =>
    have hclose : Apart (.leftBracket :: .rightBracket :: ws) :=
      apart_mark (by decide) (apart_mark (by decide) hws)
    have hall := ih (endsWord_mark (by decide) _) hclose
    simpa [words] using hall
  | optional _ _ ih =>
    have hclose : Apart (.question :: ws) := apart_mark (by decide) hws
    have hall := ih (endsWord_mark (by decide) ws) hclose
    simpa [words] using hall
  | union _ _ _ ih =>
    rw [words, wordLists_eq]
    exact apart_intercalate .bar (by decide) (fun f hf ws => ih f hf) hend hws

end TypeForm

end LuaAnalysis.Syntax
