import LuaAnalysis.Document.DocMap

/-!
Rows under keys, each of which has at most one cell for each document. A row without cells is not
kept.
-/

namespace LuaAnalysis.Document

variable {κ α β : Type} [BEq κ] [Hashable κ] [LawfulBEq κ]

def purge (trim : β → Option β) (m : Std.HashMap κ β) (keys : List κ) : Std.HashMap κ β :=
  keys.foldl (fun m key => m.alter key (·.bind trim)) m

theorem getElem?_purge {trim : β → Option β} (htrim : ∀ v, (trim v).bind trim = trim v)
    (m : Std.HashMap κ β) (keys : List κ) (key : κ) :
    (purge trim m keys)[key]? = if key ∈ keys then m[key]?.bind trim else m[key]? := by
  have hidem : ∀ v : Option β, (v.bind trim).bind trim = v.bind trim := by
    rintro (_ | v)
    · rfl
    · exact htrim v
  induction keys generalizing m with
  | nil => simp [purge]
  | cons first rest ih =>
    have hstep := ih (m.alter first (·.bind trim))
    simp only [purge, List.foldl_cons] at hstep ⊢
    rw [hstep, Std.HashMap.getElem?_alter]
    by_cases hfirst : key = first
    · subst hfirst
      simp [hidem]
    · simp [hfirst, Ne.symm hfirst]

def DocMap.without? (m : DocMap α) (doc : DocId) : Option (DocMap α) :=
  let kept := m.erase doc
  if kept.isEmpty then none else some kept

namespace DocMap

theorem isEmpty_iff (m : DocMap α) : m.isEmpty = true ↔ m = {} := by
  obtain ⟨entries, hasc⟩ := m
  simp [isEmpty]

theorem getD_without? (m : DocMap α) (doc : DocId) : (m.without? doc).getD {} = m.erase doc := by
  simp only [without?]
  split
  · rename_i hempty
    exact ((isEmpty_iff _).1 hempty).symm
  · rfl

theorem isEmpty_without? (m : DocMap α) (doc : DocId) : (m.without? doc).any isEmpty = false := by
  simp only [without?]
  split
  · rfl
  · rename_i hkept
    simpa using hkept

theorem erase_erase (m : DocMap α) (doc : DocId) : (m.erase doc).erase doc = m.erase doc :=
  ext_get? fun d => by by_cases hd : d = doc <;> simp [get?_erase, hd]

theorem without?_idem (m : DocMap α) (doc : DocId) :
    (m.without? doc).bind (·.without? doc) = m.without? doc := by
  simp only [without?]
  split
  · rfl
  · rename_i hkept
    simp only [Option.bind_some, erase_erase, hkept]
    rfl

theorem erase_of_not_contains {m : DocMap α} {doc : DocId} (h : m.contains doc = false) :
    m.erase doc = m :=
  ext_get? fun d => by
    rw [get?_erase]
    split
    · rename_i hd
      exact (by simpa [contains, hd] using h : m.get? d = none).symm
    · rfl

theorem without?_of_not_contains {m : DocMap α} {doc : DocId} (hne : m.isEmpty = false)
    (h : m.contains doc = false) : m.without? doc = some m := by
  simp [without?, erase_of_not_contains h, hne]

theorem contains_erase (m : DocMap α) (doc d : DocId) :
    (m.erase doc).contains d = (d != doc && m.contains d) := by
  by_cases hd : d = doc <;> simp [contains, get?_erase, hd]

theorem contains_insert (m : DocMap α) (doc : DocId) (a : α) (d : DocId) :
    (m.insert doc a).contains d = (d == doc || m.contains d) := by
  by_cases hd : d = doc <;> simp [contains, get?_insert, hd]

end DocMap

theorem getElem?_purge_without? {rows : Std.HashMap κ (DocMap α)} {doc : DocId} {keys : List κ}
    (hne : ∀ key : κ, rows[key]?.any (·.isEmpty) = false)
    (hkeys : ∀ key, (rows.getD key {}).contains doc = true → key ∈ keys) (key : κ) :
    (purge (·.without? doc) rows keys)[key]? = rows[key]?.bind (·.without? doc) := by
  rw [getElem?_purge fun m => DocMap.without?_idem m doc]
  split
  · rfl
  · rename_i hkey
    cases hrow : rows[key]? with
    | none => rfl
    | some row =>
      have hcell : row.contains doc = false := by
        simpa [Std.HashMap.getD_eq_getD_getElem?, hrow] using fun h => hkey (hkeys key h)
      exact (DocMap.without?_of_not_contains (by simpa [hrow] using hne key) hcell).symm

theorem getD_purge_without? {rows : Std.HashMap κ (DocMap α)} {doc : DocId} {keys : List κ}
    (hne : ∀ key : κ, rows[key]?.any (·.isEmpty) = false)
    (hkeys : ∀ key, (rows.getD key {}).contains doc = true → key ∈ keys) (key : κ) :
    (purge (·.without? doc) rows keys).getD key {} = (rows.getD key {}).erase doc := by
  rw [Std.HashMap.getD_eq_getD_getElem?, getElem?_purge_without? hne hkeys,
    Std.HashMap.getD_eq_getD_getElem?]
  cases rows[key]? with
  | none => exact (DocMap.ext_get? fun d => by simp [DocMap.get?_erase]).symm
  | some row => exact DocMap.getD_without? row doc

end LuaAnalysis.Document
