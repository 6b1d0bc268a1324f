import LuaAnalysis.Document.Ids
import Std.Data.HashMap
import Std.Data.HashSet

namespace LuaAnalysis.Document

/-- At most one value for each document, listed by ascending document. -/
structure DocMap (α : Type) where
  entries : List (DocId × α) := []
  ascending : entries.Pairwise (fun a b => a.1 < b.1) := by simp
deriving Repr

namespace DocMap

variable {α : Type}

abbrev empty : DocMap α := {}

instance : Inhabited (DocMap α) := ⟨empty⟩

def isEmpty (m : DocMap α) : Bool := m.entries.isEmpty

def size (m : DocMap α) : Nat := m.entries.length

def docs (m : DocMap α) : List DocId := m.entries.map (·.1)

def get? (m : DocMap α) (doc : DocId) : Option α := (m.entries.find? (·.1 == doc)).map (·.2)

def contains (m : DocMap α) (doc : DocId) : Bool := (m.get? doc).isSome

def insertInto (doc : DocId) (a : α) : List (DocId × α) → List (DocId × α)
  | [] => [(doc, a)]
  | (d, b) :: rest =>
    if doc < d then (doc, a) :: (d, b) :: rest
    else if doc = d then (doc, a) :: rest
    else (d, b) :: insertInto doc a rest

theorem mem_insertInto {doc : DocId} {a : α} {e : DocId × α} {entries : List (DocId × α)}
    (h : e ∈ insertInto doc a entries) : e = (doc, a) ∨ e ∈ entries := by
  induction entries with
  | nil => exact .inl (by simpa [insertInto] using h)
  | cons first rest ih =>
    rw [insertInto] at h
    split at h
    · simpa using h
    · split at h
      · rcases List.mem_cons.1 h with rfl | h
        · exact .inl rfl
        · exact .inr (.tail _ h)
      · rcases List.mem_cons.1 h with rfl | h
        · exact .inr (.head _)
        · exact (ih h).imp_right (.tail _)

theorem pairwise_insertInto (doc : DocId) (a : α) {entries : List (DocId × α)}
    (h : entries.Pairwise fun a b => a.1 < b.1) :
    (insertInto doc a entries).Pairwise fun a b => a.1 < b.1 := by
  induction entries with
  | nil => simp [insertInto]
  | cons first rest ih =>
    obtain ⟨hfirst, hrest⟩ := List.pairwise_cons.1 h
    rw [insertInto]
    split
    · rename_i hlt
      refine List.pairwise_cons.2 ⟨fun e he => ?_, h⟩
      rcases List.mem_cons.1 he with rfl | he
      · exact hlt
      · exact Nat.lt_trans hlt (hfirst e he)
    · split
      · rename_i heq
        exact List.pairwise_cons.2 ⟨fun e he => heq ▸ hfirst e he, hrest⟩
      · rename_i hlt hne
        refine List.pairwise_cons.2 ⟨fun e he => ?_, ih hrest⟩
        rcases mem_insertInto he with rfl | he
        · exact Nat.lt_of_le_of_ne (Nat.le_of_not_lt hlt) (Ne.symm hne)
        · exact hfirst e he

def insert (m : DocMap α) (doc : DocId) (a : α) : DocMap α :=
  ⟨insertInto doc a m.entries, pairwise_insertInto doc a m.ascending⟩

def erase (m : DocMap α) (doc : DocId) : DocMap α :=
  ⟨m.entries.filter (·.1 != doc), m.ascending.filter _⟩

@[simp] theorem get?_empty (doc : DocId) : ({} : DocMap α).get? doc = none := rfl

theorem get?_insert (m : DocMap α) (doc : DocId) (a : α) (d : DocId) :
    (m.insert doc a).get? d = if d = doc then some a else m.get? d := by
  obtain ⟨entries, hasc⟩ := m
  simp only [insert, get?]
  induction entries with
  | nil => by_cases hd : d = doc <;> simp [insertInto, hd, Ne.symm]
  | cons first rest ih =>
    have ih := ih (List.pairwise_cons.1 hasc).2
    rw [insertInto]
    split
    · by_cases hd : d = doc
      · simp [hd]
      · simp [hd, Ne.symm hd]
    · split
      · rename_i heq
        by_cases hd : d = doc
        · simp [hd]
        · simp [hd, Ne.symm hd, ← heq]
      · rename_i hne
        by_cases hd : d = first.1
        · simp [hd, Ne.symm hne]
        · simp [Ne.symm hd, ih]

theorem get?_erase (m : DocMap α) (doc d : DocId) :
    (m.erase doc).get? d = if d = doc then none else m.get? d := by
  simp only [erase, get?, List.find?_filter]
  by_cases hd : d = doc
  · subst hd
    simp
  · simp only [hd, if_false]
    congr 2
    funext e
    by_cases he : e.1 = d <;> simp [he, hd]

theorem get?_eq_some_iff (m : DocMap α) (doc : DocId) (a : α) : m.get? doc = some a ↔
    (doc, a) ∈ m.entries := by
  obtain ⟨entries, hasc⟩ := m
  simp only [get?]
  induction entries with
  | nil => simp
  | cons first rest ih =>
    obtain ⟨hfirst, hrest⟩ := List.pairwise_cons.1 hasc
    by_cases hd : first.1 = doc
    · have hnot : (doc, a) ∉ rest := fun hmem => Nat.lt_irrefl _ (hd ▸ hfirst _ hmem)
      obtain ⟨d, b⟩ := first
      simp only at hd
      subst hd
      simp [hnot, eq_comm]
    · have hne : (doc, a) ≠ first := fun he => hd (he ▸ rfl)
      simpa [List.find?_cons, hd, hne] using ih hrest

theorem eq_of_mem_iff {xs ys : List (DocId × α)} (hxs : xs.Pairwise fun a b => a.1 < b.1)
    (hys : ys.Pairwise fun a b => a.1 < b.1) (h : ∀ e, e ∈ xs ↔ e ∈ ys) : xs = ys := by
  induction xs generalizing ys with
  | nil => exact (List.eq_nil_iff_forall_not_mem.2 fun e he => by simpa using (h e).2 he).symm
  | cons x xs ih =>
    obtain ⟨hx, hxs⟩ := List.pairwise_cons.1 hxs
    cases ys with
    | nil => exact absurd ((h x).1 (.head _)) (by simp)
    | cons y ys =>
      obtain ⟨hy, hysTail⟩ := List.pairwise_cons.1 hys
      have hxy : x = y := by
        rcases List.mem_cons.1 ((h x).1 (.head _)) with hxy | hin
        · exact hxy
        · rcases List.mem_cons.1 ((h y).2 (.head _)) with hyx | hin'
          · exact hyx.symm
          · exact absurd (Nat.lt_trans (hx y hin') (hy x hin)) (Nat.lt_irrefl _)
      subst hxy
      have hne : ∀ zs : List (DocId × α), (∀ z ∈ zs, x.1 < z.1) → ∀ e ∈ zs, e ≠ x := by
        rintro zs hz e hin rfl
        exact Nat.lt_irrefl _ (hz e hin)
      refine congrArg (x :: ·) (ih hxs hysTail fun e => ⟨fun he => ?_, fun he => ?_⟩)
      · exact (List.mem_cons.1 ((h e).1 (.tail _ he))).resolve_left (hne xs hx e he)
      · exact (List.mem_cons.1 ((h e).2 (.tail _ he))).resolve_left (hne ys hy e he)

theorem ext_get? {m n : DocMap α} (h : ∀ doc, m.get? doc = n.get? doc) : m = n := by
  have hmem : ∀ e, e ∈ m.entries ↔ e ∈ n.entries := fun e => by
    rw [← get?_eq_some_iff m e.1 e.2, ← get?_eq_some_iff n e.1 e.2, h]
  obtain ⟨xs, hxs⟩ := m
  obtain ⟨ys, hys⟩ := n
  simp only [mk.injEq]
  exact eq_of_mem_iff hxs hys hmem

theorem mem_docs_iff (m : DocMap α) (doc : DocId) : doc ∈ m.docs ↔ ∃ a, m.get? doc = some a := by
  simp [docs, get?_eq_some_iff]

end DocMap

end LuaAnalysis.Document
