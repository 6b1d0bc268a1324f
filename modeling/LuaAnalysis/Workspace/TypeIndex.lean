import LuaAnalysis.Document.DocRows
import LuaAnalysis.Workspace.TypeDecl
import Std.Data.HashSet

namespace LuaAnalysis.Workspace

open Document LuaAnalysis.Types

structure TypeIndex where
  /-- The pieces of each named type, by document. -/
  rows : Std.HashMap String (DocMap (List TypePart)) := {}
  namesByDoc : DocMap (Std.HashSet String) := {}
  rows_ne_empty : ∀ name : String, rows[name]?.any (·.isEmpty) = false := by simp
  mem_namesByDoc : ∀ (doc : DocId) (name : String),
    name ∈ (namesByDoc.get? doc).getD ∅ ↔ (rows.getD name {}).contains doc = true := by
      simp [DocMap.contains]

namespace TypeIndex

abbrev empty : TypeIndex := {}

instance : Inhabited TypeIndex := ⟨empty⟩

variable (t : TypeIndex)

def partsOf? (doc : DocId) (name : String) : Option (List TypePart) :=
  (t.rows.getD name {}).get? doc

def nameSetOf (doc : DocId) : Std.HashSet String := (t.namesByDoc.get? doc).getD ∅

def namesOf (doc : DocId) : List String := (t.nameSetOf doc).toList

def names : List String := t.rows.keys

def get? (name : String) : Option TypeDecl := (t.rows[name]?).map fun pieces => ⟨name, pieces⟩

def add (doc : DocId) (name : String) (part : TypePart) : TypeIndex where
  rows :=
    t.rows.insert name ((t.rows.getD name {}).insert doc ((t.partsOf? doc name).getD [] ++ [part]))
  namesByDoc := t.namesByDoc.insert doc ((t.nameSetOf doc).insert name)
  rows_ne_empty n := by
    rw [Std.HashMap.getElem?_insert]
    split
    · rw [Option.any_some, ← Bool.not_eq_true, DocMap.isEmpty_iff]
      intro hempty
      simpa [DocMap.get?_insert] using congrArg (·.get? doc) hempty
    · exact t.rows_ne_empty n
  mem_namesByDoc d n := by
    have hold := t.mem_namesByDoc d n
    rw [DocMap.get?_insert, Std.HashMap.getD_insert]
    by_cases hn : name = n
    · subst hn
      by_cases hd : d = doc
      · subst hd
        simp [DocMap.contains_insert]
      · simpa [hd, DocMap.contains_insert] using hold
    · by_cases hd : d = doc
      · subst hd
        simpa [hn, nameSetOf] using hold
      · simpa [hd, hn] using hold

theorem mem_namesOf {doc : DocId} {name : String} (h : (t.rows.getD name {}).contains doc = true) :
    name ∈ t.namesOf doc := by
  rw [namesOf, Std.HashSet.mem_toList]
  exact (t.mem_namesByDoc doc name).2 h

def erase (doc : DocId) : TypeIndex where
  rows := purge (·.without? doc) t.rows (t.namesOf doc)
  namesByDoc := t.namesByDoc.erase doc
  rows_ne_empty n := by
    rw [getElem?_purge_without? t.rows_ne_empty fun _ => t.mem_namesOf]
    cases t.rows[n]? with
    | none => rfl
    | some row => exact DocMap.isEmpty_without? row doc
  mem_namesByDoc d n := by
    rw [getD_purge_without? t.rows_ne_empty fun _ => t.mem_namesOf, DocMap.contains_erase,
      DocMap.get?_erase]
    by_cases hd : d = doc
    · simp [hd]
    · simpa [hd] using t.mem_namesByDoc d n

variable {t}

@[simp] theorem partsOf?_empty (doc : DocId) (name : String) : empty.partsOf? doc name = none := by
  simp [partsOf?]

def pushPart (name : String) (part : TypePart) (parts : String → Option (List TypePart)) :
    String → Option (List TypePart) :=
  fun n => if name == n then some ((parts n).getD [] ++ [part]) else parts n

theorem partsOf?_add (doc : DocId) (name : String) (part : TypePart) (d : DocId) :
    (t.add doc name part).partsOf? d = if d = doc then pushPart name part (t.partsOf? d)
    else t.partsOf? d := by
  funext n
  by_cases hn : name = n
  · subst hn
    by_cases hd : d = doc
    · subst hd
      simp [partsOf?, add, pushPart, DocMap.get?_insert]
    · simp [partsOf?, add, DocMap.get?_insert, hd]
  · have hother : (t.add doc name part).partsOf? d n = t.partsOf? d n := by
      simp [partsOf?, add, Std.HashMap.getD_insert, hn]
    rw [hother]
    split <;> simp [pushPart, hn]

theorem partsOf?_erase (doc d : DocId) (n : String) :
    (t.erase doc).partsOf? d n = if d = doc then none else t.partsOf? d n := by
  rw [partsOf?, erase]
  simp only
  rw [getD_purge_without? t.rows_ne_empty fun _ => t.mem_namesOf, DocMap.get?_erase]
  rfl

theorem getElem?_rows_eq (name : String) :
    t.rows[name]? = if (t.rows.getD name {}).isEmpty then none else some (t.rows.getD name {}) := by
  rw [Std.HashMap.getD_eq_getD_getElem?]
  cases hrow : t.rows[name]? with
  | none => rfl
  | some row =>
    have hne : row.isEmpty = false := by simpa [hrow] using t.rows_ne_empty name
    simp [hne]

theorem get?_congr {u : TypeIndex} {name : String}
    (h : ∀ doc, t.partsOf? doc name = u.partsOf? doc name) : t.get? name = u.get? name := by
  have hrow : t.rows.getD name {} = u.rows.getD name {} := DocMap.ext_get? h
  rw [get?, get?, getElem?_rows_eq, getElem?_rows_eq, hrow]

theorem mem_namesOf_iff (doc : DocId) (name : String) : name ∈ t.namesOf doc ↔
    (t.partsOf? doc name).isSome = true := by
  rw [namesOf, Std.HashSet.mem_toList, nameSetOf, t.mem_namesByDoc]
  rfl

theorem mem_names_iff (name : String) : name ∈ t.names ↔ (t.get? name).isSome = true := by
  rw [names, Std.HashMap.mem_keys, ← Std.HashMap.contains_iff_mem,
    Std.HashMap.contains_eq_isSome_getElem?, get?, Option.isSome_map]

theorem nodup_namesOf (doc : DocId) : (t.namesOf doc).Nodup := by
  simpa [namesOf, List.Nodup] using (t.nameSetOf doc).distinct_toList

theorem nodup_names : t.names.Nodup := by
  simpa [names, List.Nodup] using t.rows.distinct_keys

end TypeIndex

end LuaAnalysis.Workspace
