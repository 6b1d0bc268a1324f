import LuaAnalysis.Document.DocRows

/-!
Maps from keys to lists of values, each of which remembers the document that added it. The entries
of a document can be taken out together.
-/

namespace LuaAnalysis.Document

variable {κ α : Type} [BEq κ] [Hashable κ] [LawfulBEq κ]

def InOrder (entries : List (DocId × α)) : Prop := entries.Pairwise fun a b => a.1 ≤ b.1

def insertBehind (doc : DocId) (a : α) (entries : List (DocId × α)) : List (DocId × α) :=
  entries.takeWhile (·.1 ≤ doc) ++ (doc, a) :: entries.dropWhile (·.1 ≤ doc)

def ofDoc (doc : DocId) (entries : List (DocId × α)) : List α :=
  (entries.filter (·.1 == doc)).map (·.2)

def withoutDoc (doc : DocId) (entries : List (DocId × α)) : Option (List (DocId × α)) :=
  let kept := entries.filter (·.1 != doc)
  if kept.isEmpty then none else some kept

theorem getD_withoutDoc (doc : DocId) (entries : List (DocId × α)) :
    (withoutDoc doc entries).getD [] = entries.filter (·.1 != doc) := by
  simp only [withoutDoc]
  split
  · rename_i hempty
    exact (List.isEmpty_iff.1 hempty).symm
  · rfl

theorem withoutDoc_ne_nil (doc : DocId) (entries : List (DocId × α)) :
    withoutDoc doc entries ≠ some [] := by
  simp only [withoutDoc]
  split
  · simp
  · rename_i hkept
    simpa using hkept

theorem withoutDoc_idem (doc : DocId) (entries : List (DocId × α)) :
    (withoutDoc doc entries).bind (withoutDoc doc) = withoutDoc doc entries := by
  simp only [withoutDoc]
  split
  · rfl
  · rename_i hkept
    simp only [Option.bind_some, withoutDoc, List.filter_filter, Bool.and_self, hkept]
    rfl

theorem withoutDoc_of_not_mem {doc : DocId} {entries : List (DocId × α)} (hne : entries ≠ [])
    (h : doc ∉ entries.map (·.1)) : withoutDoc doc entries = some entries := by
  have hkept : entries.filter (·.1 != doc) = entries := by
    refine List.filter_eq_self.2 fun e he => ?_
    simpa using fun hdoc => h (List.mem_map.2 ⟨e, he, hdoc⟩)
  simp only [withoutDoc, hkept]
  exact if_neg (by simpa using hne)

theorem mem_insertBehind {doc : DocId} {a : α} {entries : List (DocId × α)} {e : DocId × α} :
    e ∈ insertBehind doc a entries ↔ e = (doc, a) ∨ e ∈ entries := by
  rw [insertBehind, List.mem_append, List.mem_cons]
  conv =>
    rhs; rw [← List.takeWhile_append_dropWhile (p := fun e => decide (e.1 ≤ doc)) (l := entries),
    List.mem_append]
  exact or_left_comm

theorem lt_of_mem_dropWhile {doc : DocId} {entries : List (DocId × α)} (h : InOrder entries)
    {e : DocId × α} (he : e ∈ entries.dropWhile (·.1 ≤ doc)) : doc < e.1 := by
  induction entries with
  | nil => simp at he
  | cons first rest ih =>
    obtain ⟨hfirst, hrest⟩ := List.pairwise_cons.1 h
    by_cases hle : first.1 ≤ doc
    · exact ih hrest (by simpa [List.dropWhile_cons, hle] using he)
    · have hlt : doc < first.1 := Nat.lt_of_not_le hle
      rcases List.mem_cons.1 (by simpa [List.dropWhile_cons, hle] using he) with rfl | he
      · exact hlt
      · exact Nat.lt_of_lt_of_le hlt (hfirst e he)

theorem le_of_mem_takeWhile {doc : DocId} {entries : List (DocId × α)} {e : DocId × α}
    (he : e ∈ entries.takeWhile (·.1 ≤ doc)) : e.1 ≤ doc := by
  simpa using List.all_eq_true.1 List.all_takeWhile e he

theorem inOrder_insertBehind (doc : DocId) (a : α) {entries : List (DocId × α)}
    (h : InOrder entries) : InOrder (insertBehind doc a entries) := by
  refine List.pairwise_append.2 ⟨h.sublist (List.takeWhile_sublist _), ?_, fun x hx y hy => ?_⟩
  · refine List.pairwise_cons.2 ⟨fun e he => ?_, h.sublist (List.dropWhile_sublist _)⟩
    exact Nat.le_of_lt (lt_of_mem_dropWhile h he)
  · have hxle := le_of_mem_takeWhile hx
    rcases List.mem_cons.1 hy with rfl | hy
    · exact hxle
    · exact Nat.le_of_lt (Nat.lt_of_le_of_lt hxle (lt_of_mem_dropWhile h hy))

theorem ofDoc_insertBehind (doc : DocId) (a : α) {entries : List (DocId × α)} (h : InOrder entries)
    (d : DocId) : ofDoc d (insertBehind doc a entries) = if d = doc then ofDoc d entries ++ [a]
    else ofDoc d entries := by
  have hsplit : ofDoc d entries =
      ofDoc d (entries.takeWhile (·.1 ≤ doc)) ++ ofDoc d (entries.dropWhile (·.1 ≤ doc)) := by
    rw [ofDoc, ofDoc, ofDoc, ← List.map_append, ← List.filter_append,
      List.takeWhile_append_dropWhile]
  rw [hsplit]
  split
  · rename_i hd
    subst hd
    have hnone : (entries.dropWhile (·.1 ≤ d)).filter (·.1 == d) = [] := by
      refine List.filter_eq_nil_iff.2 fun e he => ?_
      simpa using Nat.ne_of_gt (lt_of_mem_dropWhile h he)
    simp [ofDoc, insertBehind, List.filter_append, hnone]
  · rename_i hd
    simp [ofDoc, insertBehind, List.filter_append, Ne.symm hd]

theorem eq_of_ofDoc_eq {xs ys : List (DocId × α)} (hxs : InOrder xs) (hys : InOrder ys)
    (h : ∀ doc, ofDoc doc xs = ofDoc doc ys) : xs = ys := by
  have hnil : ∀ {zs : List (DocId × α)} {e : DocId × α}, e ∈ zs → ofDoc e.1 zs ≠ [] := by
    intro zs e he hempty
    have hmem : e ∈ zs.filter (·.1 == e.1) := List.mem_filter.2 ⟨he, by simp⟩
    rw [ofDoc, List.map_eq_nil_iff] at hempty
    simp [hempty] at hmem
  induction xs generalizing ys with
  | nil =>
    refine (List.eq_nil_iff_forall_not_mem.2 fun e he => hnil he ?_).symm
    rw [← h]
    rfl
  | cons x xs ih =>
    obtain ⟨hx, hxsTail⟩ := List.pairwise_cons.1 hxs
    cases ys with
    | nil => exact absurd (h x.1) (hnil (.head _))
    | cons y ys =>
      obtain ⟨hy, hysTail⟩ := List.pairwise_cons.1 hys
      have hle : ∀ {z : DocId × α} {zs : List (DocId × α)} {w : DocId × α}, (∀ e ∈ zs, z.1 ≤ e.1) →
          ofDoc w.1 (z :: zs) ≠ [] → z.1 ≤ w.1 := by
        intro z zs w hz hne
        obtain ⟨b, hb⟩ := List.exists_mem_of_ne_nil _ hne
        obtain ⟨e, he, -⟩ := List.mem_map.1 hb
        obtain ⟨he, hew⟩ := List.mem_filter.1 he
        have hew : e.1 = w.1 := by simpa using hew
        rcases List.mem_cons.1 he with rfl | he
        · exact Nat.le_of_eq hew
        · exact hew ▸ hz e he
      have hdoc : x.1 = y.1 :=
        Nat.le_antisymm (hle hx (h y.1 ▸ hnil (.head _))) (hle hy (h x.1 ▸ hnil (.head _)))
      have hhead := h x.1
      simp only [ofDoc, List.filter_cons, beq_self_eq_true, if_true, ← hdoc, List.map_cons,
        List.cons.injEq] at hhead
      have hxy : x = y := Prod.ext hdoc hhead.1
      subst hxy
      refine congrArg (x :: ·) (ih hxsTail hysTail fun doc => ?_)
      have hdocs := h doc
      simp only [ofDoc, List.filter_cons] at hdocs ⊢
      split at hdocs
      · simpa using hdocs
      · exact hdocs

/-- Values under keys, with the documents that added them. -/
structure DocMultimap (κ α : Type) [BEq κ] [Hashable κ] [LawfulBEq κ] where
  /-- The entries of each key, by document and then in the order in which they were added. -/
  entries : Std.HashMap κ (List (DocId × α)) := {}
  /-- The keys that each document added something under. -/
  keysByDoc : DocMap (Std.HashSet κ) := {}
  inOrder : ∀ key : κ, InOrder (entries.getD key []) := by simp [InOrder]
  ne_nil : ∀ key : κ, entries[key]? ≠ some [] := by simp
  mem_keysByDoc : ∀ (doc : DocId) (key : κ),
    key ∈ (keysByDoc.get? doc).getD ∅ ↔ doc ∈ (entries.getD key []).map (·.1) := by simp

namespace DocMultimap

abbrev empty : DocMultimap κ α := {}

instance : Inhabited (DocMultimap κ α) := ⟨empty⟩

variable (m : DocMultimap κ α)

def isEmpty : Bool := m.entries.isEmpty

def withDoc (key : κ) : List (DocId × α) := m.entries.getD key []

def values (key : κ) : List α := (m.withDoc key).map (·.2)

def hasKey (key : κ) : Bool := m.entries.contains key

def keys : List κ := m.entries.keys

def size : Nat := (m.keys.flatMap m.withDoc).length

def keySetOf (doc : DocId) : Std.HashSet κ := (m.keysByDoc.get? doc).getD ∅

def keysOf (doc : DocId) : List κ := (m.keySetOf doc).toList

def valuesOf (doc : DocId) (key : κ) : List α := ofDoc doc (m.withDoc key)

def entriesOf (doc : DocId) : List (κ × α) :=
  (m.keysOf doc).flatMap fun key => (m.valuesOf doc key).map (key, ·)

def valuesIn (key : κ) (entries : List (κ × α)) : List α :=
  entries.filterMap fun (k, a) => if k == key then some a else none

def add (doc : DocId) (key : κ) (a : α) : DocMultimap κ α where
  entries := m.entries.insert key (insertBehind doc a (m.withDoc key))
  keysByDoc := m.keysByDoc.insert doc ((m.keySetOf doc).insert key)
  inOrder k := by
    rw [Std.HashMap.getD_insert]
    split
    · exact inOrder_insertBehind doc a (m.inOrder key)
    · exact m.inOrder k
  ne_nil k := by
    rw [Std.HashMap.getElem?_insert]
    split
    · simp [insertBehind]
    · exact m.ne_nil k
  mem_keysByDoc d k := by
    have hold := m.mem_keysByDoc d k
    rw [DocMap.get?_insert, Std.HashMap.getD_insert]
    by_cases hk : key = k
    · subst hk
      by_cases hd : d = doc
      · subst hd
        simp [mem_insertBehind]
      · simpa [mem_insertBehind, hd, Ne.symm hd, withDoc] using hold
    · by_cases hd : d = doc
      · subst hd
        simpa [hk, keySetOf] using hold
      · simpa [hd, hk] using hold

theorem getElem?_purge_withoutDoc (doc : DocId) (key : κ) :
    (purge (withoutDoc doc) m.entries (m.keysOf doc))[key]? =
    m.entries[key]?.bind (withoutDoc doc) := by
  rw [getElem?_purge (withoutDoc_idem doc)]
  split
  · rfl
  · rename_i hkey
    rw [keysOf, Std.HashSet.mem_toList, keySetOf, m.mem_keysByDoc,
      Std.HashMap.getD_eq_getD_getElem?] at hkey
    cases hentries : m.entries[key]? with
    | none => rfl
    | some entries =>
      have hne : entries ≠ [] := fun h => m.ne_nil key (h ▸ hentries)
      exact (withoutDoc_of_not_mem hne (by simpa [hentries] using hkey)).symm

theorem getD_purge_withoutDoc (doc : DocId) (key : κ) :
    (purge (withoutDoc doc) m.entries (m.keysOf doc)).getD key [] =
    (m.withDoc key).filter (·.1 != doc) := by
  rw [Std.HashMap.getD_eq_getD_getElem?, getElem?_purge_withoutDoc, withDoc,
    Std.HashMap.getD_eq_getD_getElem?]
  cases m.entries[key]? with
  | none => rfl
  | some entries => exact getD_withoutDoc doc entries

def erase (doc : DocId) : DocMultimap κ α where
  entries := purge (withoutDoc doc) m.entries (m.keysOf doc)
  keysByDoc := m.keysByDoc.erase doc
  inOrder k := by
    rw [getD_purge_withoutDoc]
    exact (m.inOrder k).sublist List.filter_sublist
  ne_nil k := by
    rw [getElem?_purge_withoutDoc]
    cases m.entries[k]? with
    | none => simp
    | some entries => exact withoutDoc_ne_nil doc entries
  mem_keysByDoc d k := by
    have hold := m.mem_keysByDoc d k
    rw [getD_purge_withoutDoc, DocMap.get?_erase]
    by_cases hd : d = doc
    · subst hd
      simp
    · simp only [hd, if_false, hold, withDoc, List.mem_map, List.mem_filter]
      refine ⟨fun ⟨e, he, hed⟩ => ⟨e, ⟨he, ?_⟩, hed⟩, fun ⟨e, he, hed⟩ => ⟨e, he.1, hed⟩⟩
      simpa [hed] using hd

variable {m}

@[simp] theorem withDoc_empty (key : κ) : ({} : DocMultimap κ α).withDoc key = [] :=
  Std.HashMap.getD_empty

theorem withDoc_add (doc : DocId) (key : κ) (a : α) (k : κ) :
    (m.add doc key a).withDoc k = if key == k then insertBehind doc a (m.withDoc key)
    else m.withDoc k :=
  Std.HashMap.getD_insert

@[simp] theorem valuesOf_empty (doc : DocId) (key : κ) :
    ({} : DocMultimap κ α).valuesOf doc key = [] := by
  simp [valuesOf, ofDoc]

def pushAt (key : κ) (a : α) (values : κ → List α) : κ → List α :=
  fun k => if key == k then values k ++ [a] else values k

theorem valuesOf_add (doc : DocId) (key : κ) (a : α) (d : DocId) :
    (m.add doc key a).valuesOf d = if d = doc then pushAt key a (m.valuesOf d)
    else m.valuesOf d := by
  funext k
  by_cases hk : key = k
  · subst hk
    have hvalues := ofDoc_insertBehind doc a (m.inOrder key) d
    by_cases hd : d = doc
    · subst hd
      simpa [valuesOf, withDoc, add, pushAt] using hvalues
    · simpa [valuesOf, withDoc, add, hd] using hvalues
  · have hother : (m.add doc key a).valuesOf d k = m.valuesOf d k := by
      rw [valuesOf, valuesOf, withDoc_add, if_neg (by simpa using hk)]
    rw [hother]
    split <;> simp [pushAt, hk]

theorem mem_valuesOf_add {doc d : DocId} {key k : κ} {a x : α}
    (h : x ∈ (m.add doc key a).valuesOf d k) : (d = doc ∧ k = key ∧ x = a) ∨
    x ∈ m.valuesOf d k := by
  rw [valuesOf_add] at h
  split at h
  · rename_i hd
    rw [pushAt] at h
    split at h
    · rename_i hk
      rcases List.mem_append.1 h with h | h
      · exact .inr h
      · exact .inl ⟨hd, (eq_of_beq hk).symm, List.mem_singleton.1 h⟩
    · exact .inr h
  · exact .inr h

theorem mem_withDoc_iff {doc : DocId} {key : κ} {a : α} : (doc, a) ∈ m.withDoc key ↔
    a ∈ m.valuesOf doc key := by
  simp [valuesOf, ofDoc]

theorem valuesOf_erase (doc d : DocId) (k : κ) :
    (m.erase doc).valuesOf d k = if d = doc then [] else m.valuesOf d k := by
  simp only [valuesOf, withDoc, erase]
  rw [getD_purge_withoutDoc]
  by_cases hd : d = doc
  · subst hd
    simp [ofDoc, List.filter_filter]
  · simp only [hd, if_false, ofDoc, List.filter_filter, withDoc]
    congr 2
    funext e
    by_cases he : e.1 = d <;> simp [he, hd]

theorem withDoc_congr {n : DocMultimap κ α} {key : κ}
    (h : ∀ doc, m.valuesOf doc key = n.valuesOf doc key) : m.withDoc key = n.withDoc key :=
  eq_of_ofDoc_eq (m.inOrder key) (n.inOrder key) h

theorem mem_keysOf_iff (doc : DocId) (key : κ) : key ∈ m.keysOf doc ↔ m.valuesOf doc key ≠ [] := by
  rw [keysOf, Std.HashSet.mem_toList, keySetOf, m.mem_keysByDoc, valuesOf, withDoc, ofDoc]
  simp [List.filter_eq_nil_iff]

theorem hasKey_iff (key : κ) : m.hasKey key = true ↔ m.withDoc key ≠ [] := by
  rw [hasKey, Std.HashMap.contains_eq_isSome_getElem?, withDoc, Std.HashMap.getD_eq_getD_getElem?]
  cases hentries : m.entries[key]? with
  | none => simp
  | some entries => simpa using fun h : entries = [] => m.ne_nil key (h ▸ hentries)

theorem mem_keys_iff (key : κ) : key ∈ m.keys ↔ m.withDoc key ≠ [] := by
  rw [keys, Std.HashMap.mem_keys, ← Std.HashMap.contains_iff_mem]
  exact hasKey_iff key

theorem nodup_keys : m.keys.Nodup := by
  simpa [keys, List.Nodup] using m.entries.distinct_keys

theorem nodup_keysOf (doc : DocId) : (m.keysOf doc).Nodup := by
  simpa [keysOf, List.Nodup] using (m.keySetOf doc).distinct_toList

end DocMultimap

end LuaAnalysis.Document
