import Mathlib.Data.List.Induction
import Mathlib.Data.List.TakeDrop
import Mathlib.Data.List.TakeWhile
import LuaAnalysis.Document.Modules

/-!
A name that can be required stands for the least of the documents whose paths give it. After any
edits these are the paths with which the documents were last added.
-/

namespace LuaAnalysis.Document

namespace Path

theorem dropFront?_eq_some_iff {front parts rest : List PathPart} :
    dropFront? front parts = some rest ↔ parts = front ++ rest := by
  induction front generalizing parts with
  | nil => simp [dropFront?]
  | cons a front ih =>
    cases parts with
    | nil => simp [dropFront?]
    | cons b parts =>
      by_cases hab : a = b
      · simp [dropFront?, hab, ih]
      · simp [dropFront?, hab, Ne.symm hab]

theorem below?_eq_some_iff {root path : String} {rest : List PathPart} :
    below? root path = some rest ↔ parts path = parts root ++ rest :=
  dropFront?_eq_some_iff

end Path

theorem pairwise_eraseDups (l : List String) :
    l.eraseDups.Pairwise fun a b => ∃ front back, l = front ++ back ∧ a ∈ front ∧ b ∉ front := by
  cases l with
  | nil => simp
  | cons first rest =>
    rw [List.eraseDups_cons]
    refine .cons (fun b hb => ⟨[first], rest, rfl, .head _, ?_⟩)
      ((pairwise_eraseDups (rest.filter fun b => !b == first)).imp_of_mem ?_)
    · simp only [List.mem_eraseDups, List.mem_filter, Bool.not_eq_true', beq_eq_false_iff_ne] at hb
      simpa using hb.2
    · rintro a b - hb ⟨front, back, hsplit, ha, hnot⟩
      simp only [List.mem_eraseDups, List.mem_filter, Bool.not_eq_true', beq_eq_false_iff_ne] at hb
      obtain ⟨front, back, rfl, rfl, rfl⟩ := List.filter_eq_append_iff.1 hsplit
      refine ⟨first :: front, back, rfl, .tail _ (List.mem_filter.1 ha).1, fun hmem => ?_⟩
      have hfront := (List.mem_cons.1 hmem).resolve_left hb.2
      exact hnot (List.mem_filter.2 ⟨hfront, by simpa using hb.2⟩)
termination_by l.length
decreasing_by
  have hle := List.length_filter_le (fun b => !b == first) rest
  simp only [List.length_cons]
  omega

namespace Modules

/-- The deepest of the roots that a path is below. -/
structure DeepestRoot (roots : List String) (path root : String) : Prop where
  mem : root ∈ roots
  above : Path.parts root <+: Path.parts path
  deepest : ∀ other ∈ roots, Path.parts other <+: Path.parts path →
    (Path.parts other).length ≤ (Path.parts root).length

/-- What names are read off: the path below the deepest root, or the whole path if it is below
none. -/
inductive Remains (roots : List String) (path : String) : List PathPart → Prop where
  | below {root : String} {rest : List PathPart} (h : DeepestRoot roots path root)
      (hrest : Path.parts path = Path.parts root ++ rest) : Remains roots path rest
  | outside (h : ∀ root ∈ roots, ¬ Path.parts root <+: Path.parts path) :
      Remains roots path (Path.parts path)

theorem shortest?_eq_none_iff {β : Type} {ls : List (List β)} : shortest? ls = none ↔ ls = [] := by
  cases ls with
  | nil => simp [shortest?]
  | cons l ls =>
    simp only [shortest?]
    split <;> simp
    split <;> simp

theorem shortest?_spec {β : Type} {ls : List (List β)} {l : List β} (h : shortest? ls = some l) :
    l ∈ ls ∧ ∀ l' ∈ ls, l.length ≤ l'.length := by
  induction ls generalizing l with
  | nil => cases h
  | cons first ls ih =>
    rw [shortest?] at h
    cases hshort : shortest? ls with
    | none =>
      obtain rfl := shortest?_eq_none_iff.1 hshort
      obtain rfl : first = l := by simpa [hshort] using h
      simp
    | some m =>
      obtain ⟨hm, hleast⟩ := ih hshort
      simp only [hshort] at h
      split at h
      · rename_i hlt
        obtain rfl := Option.some.inj h
        exact ⟨.tail _ hm, List.forall_mem_cons.2 ⟨Nat.le_of_lt hlt, hleast⟩⟩
      · rename_i hle
        obtain rfl := Option.some.inj h
        exact ⟨.head _, List.forall_mem_cons.2
          ⟨Nat.le_refl _, fun l' hl' => Nat.le_trans (Nat.le_of_not_lt hle) (hleast l' hl')⟩⟩

theorem remains_relative (roots : List String) (path : String) :
    ∃ rest, Remains roots path rest ∧ relative roots path = Path.slashed rest := by
  have hmem {rest : List PathPart} : rest ∈ roots.filterMap (Path.below? · path) ↔
      ∃ root ∈ roots, Path.parts path = Path.parts root ++ rest := by
    simp [Path.below?_eq_some_iff]
  rw [relative]
  cases hshort : shortest? (roots.filterMap fun root => Path.below? root path) with
  | none =>
    refine ⟨_, .outside fun root hroot ⟨rest, hrest⟩ => ?_, rfl⟩
    have hnil := shortest?_eq_none_iff.1 hshort
    simpa [hnil] using hmem.2 ⟨root, hroot, hrest.symm⟩
  | some rest =>
    obtain ⟨hrest, hleast⟩ := shortest?_spec hshort
    obtain ⟨root, hroot, hrest⟩ := hmem.1 hrest
    refine ⟨rest, .below ⟨hroot, ⟨rest, hrest.symm⟩,
      fun other hother ⟨rest', hrest'⟩ => ?_⟩ hrest, rfl⟩
    -- the less is left below a root, the deeper it is
    have hle := hleast rest' (hmem.2 ⟨other, hother, hrest'.symm⟩)
    have hlength := congrArg List.length (hrest.symm.trans hrest'.symm)
    simp only [List.length_append] at hlength
    omega

theorem Remains.unique {roots : List String} {path : String} {rest rest' : List PathPart}
    (h : Remains roots path rest) (h' : Remains roots path rest') : rest = rest' := by
  cases h with
  | below hroot hrest =>
    cases h' with
    | below hroot' hrest' =>
      have hlength := Nat.le_antisymm (hroot'.deepest _ hroot.mem hroot.above)
        (hroot.deepest _ hroot'.mem hroot'.above)
      exact (List.append_inj (hrest.symm.trans hrest') hlength).2
    | outside hnone => exact absurd hroot.above (hnone _ hroot.mem)
  | outside hnone =>
    cases h' with
    | below hroot' => exact absurd hroot'.above (hnone _ hroot'.mem)
    | outside => rfl

/-- A pattern gives a name to a text in which the name, with slashes for its dots, stands between
what is in front of the pattern's first question mark and what is behind it. -/
def Gives (pattern text name : String) : Prop :=
  ∃ front middle back, '?' ∉ front ∧ pattern.toList = front ++ '?' :: back ∧
    text.toList = front ++ middle ++ back ∧
    middle ≠ [] ∧ name = String.ofList (middle.map fun c => if c == '/' then '.' else c)

theorem splitPattern?_eq_some_iff {pattern : String} {front back : List Char} :
    splitPattern? pattern = some (front, back) ↔ '?' ∉ front ∧
    pattern.toList = front ++ '?' :: back := by
  rw [splitPattern?, List.span_eq_takeWhile_dropWhile]
  constructor
  · intro h
    have hsplit := List.takeWhile_append_dropWhile (p := (· != '?')) (l := pattern.toList)
    cases hback : pattern.toList.dropWhile (· != '?') with
    | nil => simp [hback] at h
    | cons c rest =>
      have hmark : c = '?' := by
        simpa [hback] using List.head?_dropWhile_not (· != '?') pattern.toList
      obtain ⟨rfl, rfl⟩ : pattern.toList.takeWhile (· != '?') = front ∧ rest = back := by
        simpa [hback] using h
      refine ⟨fun hmem => by simpa using List.mem_takeWhile_imp hmem, ?_⟩
      rw [hback, hmark] at hsplit
      exact hsplit.symm
  · rintro ⟨hfront, hpattern⟩
    have hother : ∀ c ∈ front, (c != '?') = true :=
      fun c hc => by simpa using ne_of_mem_of_not_mem hc hfront
    rw [hpattern, List.takeWhile_append_of_pos hother, List.dropWhile_append_of_pos hother]
    simp

theorem between?_eq_some_iff {front back cs middle : List Char} :
    between? front back cs = some middle ↔ cs = front ++ middle ++ back := by
  rw [between?, List.append_assoc]
  constructor
  · intro h
    split at h
    · rename_i hfront
      obtain ⟨rest, rfl⟩ := List.isPrefixOf_iff_prefix.1 hfront
      simp only [List.drop_left] at h
      split at h
      · rename_i hback
        rw [← Option.some.inj h, List.suffix_iff_eq_append.1 (List.isSuffixOf_iff_suffix.1 hback)]
      · cases h
    · cases h
  · rintro rfl
    simp [List.isPrefixOf_iff_prefix, List.isSuffixOf_iff_suffix]

theorem nameBy?_eq_some_iff {pattern text name : String} : nameBy? pattern text = some name ↔
    Gives pattern text name := by
  simp only [nameBy?, Gives, Option.bind_eq_bind, Option.bind_eq_some_iff, Prod.exists,
    splitPattern?_eq_some_iff, between?_eq_some_iff]
  constructor
  · rintro ⟨front, back, ⟨hfront, hpattern⟩, middle, htext, hname⟩
    split at hname
    · cases hname
    · rename_i hne
      exact ⟨front, middle, back, hfront, hpattern, htext, by simpa using hne,
        (Option.some.inj hname).symm⟩
  · rintro ⟨front, middle, back, hfront, hpattern, htext, hne, rfl⟩
    exact ⟨front, back, ⟨hfront, hpattern⟩, middle, htext, by simp [hne]⟩

/-- The names that a path has by some of the patterns. -/
def Yields (roots patterns : List String) (path name : String) : Prop :=
  ∃ rest, Remains roots path rest ∧ ∃ pattern ∈ patterns, Gives pattern (Path.slashed rest) name

theorem yields_iff {roots patterns : List String} {path name : String} :
    Yields roots patterns path name ↔ name ∈ patterns.filterMap fun pattern =>
      nameBy? pattern (relative roots path) := by
  obtain ⟨rest, hrest, hrelative⟩ := remains_relative roots path
  simp only [List.mem_filterMap, hrelative, nameBy?_eq_some_iff]
  refine ⟨fun ⟨rest', hrest', hgives⟩ => ?_, fun hgives => ⟨rest, hrest, hgives⟩⟩
  rwa [hrest.unique hrest']

theorem mem_namesFrom {roots patterns : List String} {path name : String} :
    name ∈ namesFrom roots patterns path ↔ Yields roots patterns path name := by
  rw [namesFrom, List.mem_eraseDups, yields_iff]

/-- The names of a path stand in the order of the patterns: some first patterns yield the one and
not yet the other. -/
theorem pairwise_namesFrom (roots patterns : List String) (path : String) :
    (namesFrom roots patterns path).Pairwise fun a b =>
      ∃ front back, patterns = front ++ back ∧ Yields roots front path a ∧
        ¬ Yields roots front path b := by
  refine (pairwise_eraseDups _).imp fun ⟨front, back, hsplit, ha, hb⟩ => ?_
  obtain ⟨front, back, rfl, rfl, rfl⟩ := List.filterMap_eq_append_iff.1 hsplit
  exact ⟨front, back, rfl, yields_iff.2 ha, fun hyields => hb (yields_iff.1 hyields)⟩

theorem nodup_namesFrom (roots patterns : List String) (path : String) :
    (namesFrom roots patterns path).Nodup := by
  refine (pairwise_eraseDups _).imp ?_
  rintro a b ⟨front, back, -, ha, hb⟩ rfl
  exact hb ha

variable {m : Modules}

theorem mem_of_iff {doc : DocId} {name : String} : name ∈ m.of doc ↔
    doc ∈ (m.claimsByName.getD name {}).docs := by
  rw [of, m.mem_names, DocMap.contains, DocMap.mem_docs_iff, Option.isSome_iff_exists]

theorem head?_docs_eq_some_iff {rows : DocMap Unit} {doc : DocId} :
    rows.docs.head? = some doc ↔ doc ∈ rows.docs ∧ ∀ d ∈ rows.docs, doc ≤ d := by
  have hascending : rows.docs.Pairwise (· < ·) := List.pairwise_map.2 rows.ascending
  cases hdocs : rows.docs with
  | nil => simp
  | cons first rest =>
    rw [hdocs] at hascending
    have hfirst := (List.pairwise_cons.1 hascending).1
    constructor
    · intro h
      obtain rfl : first = doc := by simpa using h
      exact ⟨.head _, List.forall_mem_cons.2 ⟨Nat.le_refl _,
        fun d hd => Nat.le_of_lt (hfirst d hd)⟩⟩
    · rintro ⟨hdoc, hleast⟩
      rcases List.mem_cons.1 hdoc with rfl | hdoc
      · rfl
      · exact absurd (hfirst doc hdoc) (Nat.not_lt_of_le (hleast first (.head _)))

theorem find?_eq_some_iff {name : String} {doc : DocId} :
    m.find? name = some doc ↔ name ∈ m.of doc ∧ ∀ d, name ∈ m.of d → doc ≤ d := by
  simp only [find?, head?_docs_eq_some_iff, mem_of_iff]

theorem find?_eq_none_iff {name : String} : m.find? name = none ↔ ∀ doc, name ∉ m.of doc := by
  simp only [find?, List.head?_eq_none_iff, List.eq_nil_iff_forall_not_mem, mem_of_iff]

theorem of_add (doc : DocId) (path : String) (d : DocId) :
    (m.add doc path).of d = if d = doc then namesFrom m.roots m.patterns path else m.of d := by
  rw [of, get?_names_add]
  split <;> rfl

theorem of_remove (doc d : DocId) : (m.remove doc).of d = if d = doc then [] else m.of d := by
  rw [of, remove, DocMap.get?_erase]
  split <;> rfl

inductive Edit where
  | add (doc : DocId) (path : String)
  | remove (doc : DocId)

def Edit.doc : Edit → DocId
  | .add doc _ => doc
  | .remove doc => doc

def Edit.path? : Edit → Option String
  | .add _ path => some path
  | .remove _ => none

def apply (m : Modules) : Edit → Modules
  | .add doc path => m.add doc path
  | .remove doc => m.remove doc

/-- The modules after edits of those without any. -/
def run (roots patterns : List String) (edits : List Edit) : Modules :=
  edits.foldl apply (ofRoots roots patterns)

/-- The path with which a document was last added, if it was not removed since. -/
def lastPath? (doc : DocId) (edits : List Edit) : Option String :=
  (edits.filter (·.doc == doc)).getLast?.bind Edit.path?

theorem lastPath?_concat (doc : DocId) (edits : List Edit) (e : Edit) :
    lastPath? doc (edits ++ [e]) = if e.doc = doc then e.path? else lastPath? doc edits := by
  by_cases he : e.doc = doc <;> simp [lastPath?, he]

/-- Whether the path with which a document was last added yields a name. -/
def Claims (roots patterns : List String) (edits : List Edit) (doc : DocId)
    (name : String) : Prop :=
  ∃ path, lastPath? doc edits = some path ∧ Yields roots patterns path name

variable (roots patterns : List String) (edits : List Edit)

theorem run_concat (e : Edit) : run roots patterns (edits ++ [e]) =
    (run roots patterns edits).apply e :=
  List.foldl_append

theorem settings_run : (run roots patterns edits).roots = roots ∧
    (run roots patterns edits).patterns = patterns := by
  induction edits using List.reverseRecOn with
  | nil => exact ⟨rfl, rfl⟩
  | append_singleton edits e ih =>
    rw [run_concat]
    cases e with
    | add doc path => exact ih
    | remove doc => exact ih

theorem of_run (doc : DocId) :
    (run roots patterns edits).of doc =
    ((lastPath? doc edits).map (namesFrom roots patterns)).getD [] := by
  induction edits using List.reverseRecOn with
  | nil => rfl
  | append_singleton edits e ih =>
    obtain ⟨hroots, hpatterns⟩ := settings_run roots patterns edits
    rw [run_concat, lastPath?_concat]
    cases e with
    | add d path =>
      rw [apply, of_add, hroots, hpatterns, ih]
      by_cases hd : doc = d <;> simp [Edit.doc, Edit.path?, hd, Ne.symm]
    | remove d =>
      rw [apply, of_remove, ih]
      by_cases hd : doc = d <;> simp [Edit.doc, Edit.path?, hd, Ne.symm]

theorem mem_of_run {doc : DocId} {name : String} :
    name ∈ (run roots patterns edits).of doc ↔ Claims roots patterns edits doc name := by
  rw [of_run, Claims]
  cases lastPath? doc edits <;> simp [mem_namesFrom]

theorem ordered_of_run (doc : DocId) :
    ((run roots patterns edits).of doc).Pairwise fun a b =>
      ∃ front back, patterns = front ++ back ∧ Claims roots front edits doc a ∧
        ¬ Claims roots front edits doc b := by
  rw [of_run]
  cases hpath : lastPath? doc edits with
  | none => exact .nil
  | some path =>
    refine (pairwise_namesFrom roots patterns path).imp ?_
    rintro a b ⟨front, back, hsplit, ha, hb⟩
    refine ⟨front, back, hsplit, ⟨path, hpath, ha⟩, ?_⟩
    rintro ⟨path', hpath', hb'⟩
    obtain rfl : path = path' := Option.some.inj (hpath.symm.trans hpath')
    exact hb hb'

theorem nodup_of_run (doc : DocId) : ((run roots patterns edits).of doc).Nodup := by
  rw [of_run]
  cases lastPath? doc edits with
  | none => exact .nil
  | some path => exact nodup_namesFrom roots patterns path

/-- After any edits a name stands for the least document of which the last path yields it, and a
document has just the names of its last path, in the order of the patterns. A document that is added
again has no other names than those of the new path. -/
theorem run_resolves :
    (∀ name doc, (run roots patterns edits).find? name = some doc ↔
        Claims roots patterns edits doc name ∧ ∀ d, Claims roots patterns edits d name → doc ≤ d) ∧
      (∀ name, (run roots patterns edits).find? name = none ↔
        ∀ doc, ¬ Claims roots patterns edits doc name) ∧
      (∀ doc, ((run roots patterns edits).of doc).Nodup ∧
        (∀ name, name ∈ (run roots patterns edits).of doc ↔ Claims roots patterns edits doc name) ∧
        ((run roots patterns edits).of doc).Pairwise fun a b =>
          ∃ front back, patterns = front ++ back ∧ Claims roots front edits doc a ∧
            ¬ Claims roots front edits doc b) ∧
      ∀ doc path name,
        (name ∈ ((run roots patterns edits).add doc path).of doc ↔
          Yields roots patterns path name) ∧
        (((run roots patterns edits).add doc path).find? name = some doc ↔
          Yields roots patterns path name ∧ ∀ d, d ≠ doc → Claims roots patterns edits d name →
          doc ≤ d) := by
  obtain ⟨hroots, hpatterns⟩ := settings_run roots patterns edits
  refine ⟨fun name doc => ?_, fun name => ?_, fun doc => ⟨nodup_of_run roots patterns edits doc,
    fun name => mem_of_run roots patterns edits, ordered_of_run roots patterns edits doc⟩,
      fun doc path name => ?_⟩
  · simp only [find?_eq_some_iff, mem_of_run]
  · simp only [find?_eq_none_iff, mem_of_run]
  · have hnew : name ∈ ((run roots patterns edits).add doc path).of doc ↔
        Yields roots patterns path name := by
      rw [of_add, if_pos rfl, hroots, hpatterns, mem_namesFrom]
    refine ⟨hnew, ?_⟩
    rw [find?_eq_some_iff, hnew]
    refine and_congr_right fun _ => forall_congr' fun d => ?_
    by_cases hd : d = doc
    · simp [hd]
    · simp [of_add, hd, mem_of_run]

end Modules

end LuaAnalysis.Document
