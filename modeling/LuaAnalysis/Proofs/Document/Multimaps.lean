import Mathlib.Data.List.Induction
import Mathlib.Data.List.Perm.Basic
import LuaAnalysis.Document.DocMultimap
import LuaAnalysis.Proofs.Sorting

/-!
A multimap has no memory: after any edits it lists under a key what each document added there since
it was last taken out, by document and then in the order of adding.
-/

namespace LuaAnalysis.Document

variable {κ α : Type}

/-- The entries by ascending document, those of one document in the order that they have. -/
def byDoc (entries : List (DocId × α)) : List (DocId × α) := entries.mergeSort fun a b => a.1 ≤ b.1

theorem inOrder_byDoc (entries : List (DocId × α)) : InOrder (byDoc entries) :=
  pairwise_mergeSort_key Prod.fst entries

theorem byDoc_eq_nil_iff (entries : List (DocId × α)) : byDoc entries = [] ↔ entries = [] := by
  rw [← List.length_eq_zero_iff, byDoc, List.length_mergeSort, List.length_eq_zero_iff]

theorem ofDoc_byDoc (doc : DocId) (entries : List (DocId × α)) :
    ofDoc doc (byDoc entries) = ofDoc doc entries :=
  congrArg (List.map Prod.snd) (filter_mergeSort_key Prod.fst doc entries)

namespace DocMultimap

section Answers

variable [BEq κ] [Hashable κ] [LawfulBEq κ] {m n : DocMultimap κ α}

theorem values_congr (h : ∀ doc, m.valuesOf doc = n.valuesOf doc) (key : κ) :
    m.values key = n.values key := by
  rw [values, values, withDoc_congr fun doc => congrFun (h doc) key]

theorem keys_perm (h : ∀ doc, m.valuesOf doc = n.valuesOf doc) : m.keys.Perm n.keys := by
  refine (List.perm_ext_iff_of_nodup m.nodup_keys n.nodup_keys).2 fun key => ?_
  rw [mem_keys_iff, mem_keys_iff, withDoc_congr fun doc => congrFun (h doc) key]

theorem hasKey_congr (h : ∀ doc, m.valuesOf doc = n.valuesOf doc) (key : κ) :
    m.hasKey key = n.hasKey key := by
  rw [Bool.eq_iff_iff, hasKey_iff, hasKey_iff, withDoc_congr fun doc => congrFun (h doc) key]

theorem keysOf_perm {doc : DocId} (h : m.valuesOf doc = n.valuesOf doc) :
    (m.keysOf doc).Perm (n.keysOf doc) := by
  refine (List.perm_ext_iff_of_nodup (m.nodup_keysOf doc) (n.nodup_keysOf doc)).2 fun key => ?_
  rw [mem_keysOf_iff, mem_keysOf_iff, h]

theorem entriesOf_perm {doc : DocId} (h : m.valuesOf doc = n.valuesOf doc) :
    (m.entriesOf doc).Perm (n.entriesOf doc) := by
  simpa only [entriesOf, h] using (keysOf_perm h).flatMap_right _

theorem isEmpty_iff : m.isEmpty = true ↔ m.keys = [] := by
  rw [isEmpty, keys, ← List.isEmpty_iff, Std.HashMap.isEmpty_keys]

/-- Two multimaps that no question can tell apart. Lists of keys have no order of their own. -/
structure SameAnswers (m n : DocMultimap κ α) : Prop where
  withDoc : ∀ key, m.withDoc key = n.withDoc key
  values : ∀ key, m.values key = n.values key
  hasKey : ∀ key, m.hasKey key = n.hasKey key
  isEmpty : m.isEmpty = n.isEmpty
  keys : m.keys.Perm n.keys
  keysOf : ∀ doc, (m.keysOf doc).Perm (n.keysOf doc)
  entriesOf : ∀ doc, (m.entriesOf doc).Perm (n.entriesOf doc)

theorem sameAnswers_iff : SameAnswers m n ↔ ∀ doc, m.valuesOf doc = n.valuesOf doc := by
  refine ⟨fun h doc => funext fun key => by rw [valuesOf, valuesOf, h.withDoc], fun h => ?_⟩
  exact {
    withDoc := fun key => withDoc_congr fun doc => congrFun (h doc) key
    values := values_congr h
    hasKey := hasKey_congr h
    isEmpty := by rw [Bool.eq_iff_iff, isEmpty_iff, isEmpty_iff, ← List.length_eq_zero_iff,
      ← List.length_eq_zero_iff, (keys_perm h).length_eq]
    keys := keys_perm h
    keysOf := fun doc => keysOf_perm (h doc)
    entriesOf := fun doc => entriesOf_perm (h doc) }

end Answers

inductive Edit (κ α : Type) where
  | add (doc : DocId) (key : κ) (a : α)
  | erase (doc : DocId)

/-- Whether an edit takes out all that a document added. -/
def Edit.erases (doc : DocId) : Edit κ α → Bool
  | .add .. => false
  | .erase d => d == doc

variable [BEq κ]

/-- The value that an edit adds for a document under a key. -/
def Edit.value? (doc : DocId) (key : κ) : Edit κ α → Option α
  | .add d k a => if d == doc && k == key then some a else none
  | .erase _ => none

/-- The edits that came after a document was last taken out. -/
def sinceErased (doc : DocId) (edits : List (Edit κ α)) : List (Edit κ α) :=
  (edits.reverse.takeWhile fun e => !e.erases doc).reverse

/-- The values that a document added under a key since it was last taken out. -/
def addedBy (doc : DocId) (key : κ) (edits : List (Edit κ α)) : List α :=
  (sinceErased doc edits).filterMap (Edit.value? doc key)

/-- The entries that were added under a key and that no later edit took out. -/
def kept (key : κ) : List (Edit κ α) → List (DocId × α)
  | [] => []
  | .add doc k a :: edits =>
    if k == key && !edits.any (Edit.erases doc) then (doc, a) :: kept key edits else kept key edits
  | .erase _ :: edits => kept key edits

theorem kept_add (key k : κ) (doc : DocId) (a : α) (edits : List (Edit κ α)) :
    kept key (edits ++ [.add doc k a]) = kept key edits ++ if k == key then [(doc, a)] else [] := by
  induction edits with
  | nil => simp [kept]
  | cons first edits ih =>
    cases first with
    | add d k' b =>
      simp only [List.cons_append, kept, ih, List.any_append, List.any_cons, List.any_nil,
        Edit.erases, Bool.or_false]
      split <;> rfl
    | erase d => exact ih

theorem kept_erase (key : κ) (doc : DocId) (edits : List (Edit κ α)) :
    kept key (edits ++ [.erase doc]) = (kept key edits).filter (·.1 != doc) := by
  induction edits with
  | nil => rfl
  | cons first edits ih =>
    cases first with
    | add d k a =>
      simp only [List.cons_append, kept, ih, List.any_append, List.any_cons, List.any_nil,
        Edit.erases, Bool.or_false]
      by_cases hd : d = doc
      · subst hd
        simp only [beq_self_eq_true, Bool.or_true, Bool.not_true, Bool.and_false,
          Bool.false_eq_true, if_false]
        split <;> simp
      · simp only [beq_false_of_ne (Ne.symm hd), Bool.or_false]
        split <;> simp [hd]
    | erase d => exact ih

theorem addedBy_add (doc d : DocId) (key k : κ) (a : α) (edits : List (Edit κ α)) :
    addedBy doc key (edits ++ [.add d k a]) = addedBy doc key edits ++ if d == doc && k == key then
    [a] else [] := by
  have hsince : sinceErased doc (edits ++ [.add d k a]) = sinceErased doc edits ++
      [.add d k a] := by
    simp [sinceErased, Edit.erases]
  rw [addedBy, hsince, List.filterMap_append, addedBy]
  by_cases h : (d == doc && k == key) = true <;> simp [Edit.value?, h]

theorem addedBy_erase (doc d : DocId) (key : κ) (edits : List (Edit κ α)) :
    addedBy doc key (edits ++ [.erase d]) = if d = doc then [] else addedBy doc key edits := by
  by_cases hd : d = doc <;> simp [addedBy, sinceErased, Edit.erases, Edit.value?, hd]

theorem ofDoc_kept (doc : DocId) (key : κ) (edits : List (Edit κ α)) :
    ofDoc doc (kept key edits) = addedBy doc key edits := by
  induction edits using List.reverseRecOn with
  | nil => rfl
  | append_singleton edits e ih =>
    cases e with
    | add d k a =>
      rw [kept_add, addedBy_add, ← ih, ofDoc, List.filter_append, List.map_append]
      by_cases hk : k == key <;> by_cases hd : d = doc <;> simp [ofDoc, hk, hd]
    | erase d =>
      rw [kept_erase, addedBy_erase, ← ih]
      by_cases hd : d = doc
      · simp [ofDoc, hd]
      · rw [if_neg hd, ofDoc, ofDoc, List.filter_filter]
        congr 2
        funext e
        by_cases he : e.1 = doc <;> simp [he, Ne.symm hd]

variable [Hashable κ] [LawfulBEq κ]

def apply (m : DocMultimap κ α) : Edit κ α → DocMultimap κ α
  | .add doc key a => m.add doc key a
  | .erase doc => m.erase doc

/-- The multimap after edits of one that was empty. -/
def run (edits : List (Edit κ α)) : DocMultimap κ α := edits.foldl apply empty

theorem run_concat (edits : List (Edit κ α)) (e : Edit κ α) :
    run (edits ++ [e]) = apply (run edits) e :=
  List.foldl_append

theorem valuesOf_run (edits : List (Edit κ α)) (doc : DocId) (key : κ) :
    (run edits).valuesOf doc key = addedBy doc key edits := by
  induction edits using List.reverseRecOn with
  | nil => exact valuesOf_empty doc key
  | append_singleton edits e ih =>
    rw [run_concat]
    cases e with
    | add d k a =>
      rw [apply, valuesOf_add, addedBy_add, ← ih]
      by_cases hd : doc = d
      · by_cases hk : k = key <;> simp [pushAt, hd, hk]
      · simp [hd, Ne.symm hd]
    | erase d =>
      rw [apply, valuesOf_erase, addedBy_erase, ← ih]
      simp only [eq_comm]

theorem withDoc_run (edits : List (Edit κ α)) (key : κ) :
    (run edits).withDoc key = byDoc (kept key edits) := by
  refine eq_of_ofDoc_eq ((run edits).inOrder key) (inOrder_byDoc _) fun doc => ?_
  rw [ofDoc_byDoc, ofDoc_kept]
  exact valuesOf_run edits doc key

theorem getElem?_entries_run (edits : List (Edit κ α)) (key : κ) :
    (run edits).entries[key]? = if kept key edits = [] then none
    else some (byDoc (kept key edits)) := by
  have hlist := withDoc_run edits key
  rw [withDoc, Std.HashMap.getD_eq_getD_getElem?] at hlist
  cases hentries : (run edits).entries[key]? with
  | none =>
    rw [hentries] at hlist
    rw [if_pos ((byDoc_eq_nil_iff _).1 hlist.symm)]
  | some entries =>
    rw [hentries] at hlist
    obtain rfl : entries = byDoc (kept key edits) := hlist
    rw [if_neg fun hnil => (run edits).ne_nil key (by rw [hentries, (byDoc_eq_nil_iff _).2 hnil])]

theorem mem_keysOf_run (edits : List (Edit κ α)) (doc : DocId) (key : κ) :
    key ∈ (run edits).keysOf doc ↔ doc ∈ (kept key edits).map (·.1) := by
  rw [mem_keysOf_iff, valuesOf_run, ← ofDoc_kept]
  simp [ofDoc, List.filter_eq_nil_iff]

/-- After any edits a key has the entries that were added there since their documents were last
taken out, by document and then in the order of adding, and it is not kept without any. The keys of
a document are those of its entries. The answers tell no more of the edits than which values each
document added under each key since then, in which order. -/
theorem run_lists_kept (edits : List (Edit κ α)) :
    (∀ key, (run edits).withDoc key = byDoc (kept key edits)) ∧
      (∀ doc, ((run edits).keysOf doc).Nodup ∧ ∀ key, key ∈ (run edits).keysOf doc ↔
        doc ∈ (kept key edits).map (·.1)) ∧
      (∀ key : κ, (run edits).entries[key]? = if kept key edits = [] then none
        else some (byDoc (kept key edits))) ∧
      ∀ edits', SameAnswers (run edits) (run edits') ↔
      ∀ doc key, addedBy doc key edits = addedBy doc key edits' := by
  refine ⟨withDoc_run edits, fun doc => ⟨nodup_keysOf doc, mem_keysOf_run edits doc⟩,
    getElem?_entries_run edits,
    fun edits' => ?_⟩
  rw [sameAnswers_iff]
  simp only [funext_iff, valuesOf_run]

/-- Two documents add values in either order, after what one of them had before was taken out. -/
theorem run_lists_kept_interleaved :
    let edits : List (Edit String Nat) :=
  [.add 1 "a" 5, .erase 1, .add 1 "a" 10, .add 0 "a" 20, .add 1 "a" 30]
    let edits' : List (Edit String Nat) := [.add 0 "a" 20, .add 1 "a" 10, .add 1 "a" 30]
    kept "a" edits = [(1, 10), (0, 20), (1, 30)] ∧
    (run edits).withDoc "a" = [(0, 20), (1, 10), (1, 30)] ∧
      "a" ∈ (run edits).keysOf 1 ∧ SameAnswers (run edits) (run edits') := by
  intro edits edits'
  obtain ⟨hlist, hkeys, -, hsame⟩ := run_lists_kept edits
  have hkept : kept "a" edits = [(1, 10), (0, 20), (1, 30)] := by decide
  have hsorted : byDoc (kept "a" edits) = [(0, 20), (1, 10), (1, 30)] := by
    refine eq_of_ofDoc_eq (inOrder_byDoc _) (by simp [InOrder]) fun doc => ?_
    rw [ofDoc_byDoc, hkept]
    obtain _ | _ | doc := doc <;> rfl
  refine ⟨hkept, (hlist "a").trans hsorted, ((hkeys 1).2 "a").2 ?_,
    (hsame edits').2 fun doc key => ?_⟩
  · rw [hkept]
    decide
  · obtain _ | _ | doc := doc <;> by_cases hkey : "a" = key <;>
      simp [edits, edits', addedBy, sinceErased, Edit.erases, List.filterMap_cons,
        Edit.value?, hkey]

end DocMultimap

end LuaAnalysis.Document
