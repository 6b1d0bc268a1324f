import LuaAnalysis.Document.DocRows
import LuaAnalysis.Document.Path

/-!
The names under which documents can be required. A pattern such as `?/init.lua` says what stands
around the name in the path of a file below a root.
-/

namespace LuaAnalysis.Document

structure Modules where
  roots : List String := []
  patterns : List String := []
  /-- The documents that claim a name. -/
  claimsByName : Std.HashMap String (DocMap Unit) := {}
  /-- The names of each document, in the order of the patterns. -/
  names : DocMap (List String) := {}
  claims_ne_empty : ∀ name : String, claimsByName[name]?.any (·.isEmpty) = false := by simp
  mem_names : ∀ (doc : DocId) (name : String),
    name ∈ (names.get? doc).getD [] ↔ (claimsByName.getD name {}).contains doc = true := by
      simp [DocMap.contains]

namespace Modules

abbrev ofRoots (roots patterns : List String) : Modules := { roots, patterns }

instance : Inhabited Modules := ⟨ofRoots [] []⟩

def shortest? {α : Type} : List (List α) → Option (List α)
  | [] => none
  | l :: ls =>
    match shortest? ls with
    | some m => if m.length < l.length then some m else some l
    | none => some l

def relative (roots : List String) (path : String) : String :=
  Path.slashed ((shortest? (roots.filterMap fun root => Path.below? root path)).getD
    (Path.parts path))

def splitPattern? (pattern : String) : Option (List Char × List Char) :=
  match pattern.toList.span (· != '?') with
  | (front, _ :: back) => some (front, back)
  | (_, []) => none

def between? (front back cs : List Char) : Option (List Char) :=
  if front.isPrefixOf cs then
    let rest := cs.drop front.length
    if back.isSuffixOf rest then some (rest.take (rest.length - back.length)) else none
  else none

def nameBy? (pattern path : String) : Option String := do
  let (front, back) ← splitPattern? pattern
  let middle ← between? front back path.toList
  if middle.isEmpty then none
  else some (String.ofList (middle.map fun c => if c == '/' then '.' else c))

def namesFrom (roots patterns : List String) (path : String) : List String :=
  (patterns.filterMap fun pattern => nameBy? pattern (relative roots path)).eraseDups

def claim (doc : DocId) (claims : Std.HashMap String (DocMap Unit)) (name : String) :
    Std.HashMap String (DocMap Unit) :=
  claims.insert name ((claims.getD name {}).insert doc ())

theorem getD_foldl_claim (doc : DocId) (names : List String)
    (claims : Std.HashMap String (DocMap Unit)) (name : String) :
    (names.foldl (claim doc) claims).getD name {} =
      if name ∈ names then (claims.getD name {}).insert doc () else claims.getD name {} := by
  induction names generalizing claims with
  | nil => simp
  | cons first rest ih =>
    rw [List.foldl_cons, ih, claim, Std.HashMap.getD_insert]
    by_cases hfirst : name = first
    · subst hfirst
      have htwice : (((claims.getD name {}).insert doc ()).insert doc ()) =
          (claims.getD name {}).insert doc () :=
        DocMap.ext_get? fun d => by by_cases hd : d = doc <;> simp [DocMap.get?_insert, hd]
      simp [htwice]
    · simp [hfirst, Ne.symm hfirst]

theorem foldl_claim_ne_empty (doc : DocId) (names : List String)
    {claims : Std.HashMap String (DocMap Unit)}
    (h : ∀ name : String, claims[name]?.any (·.isEmpty) = false) (name : String) :
    (names.foldl (claim doc) claims)[name]?.any (·.isEmpty) = false := by
  induction names generalizing claims with
  | nil => exact h name
  | cons first rest ih =>
    refine ih fun n => ?_
    rw [claim, Std.HashMap.getElem?_insert]
    split
    · rw [Option.any_some, ← Bool.not_eq_true, DocMap.isEmpty_iff]
      intro hempty
      simpa [DocMap.get?_insert] using congrArg (·.get? doc) hempty
    · exact h n

variable (m : Modules)

def of (doc : DocId) : List String := (m.names.get? doc).getD []

def find? (name : String) : Option DocId := (m.claimsByName.getD name {}).docs.head?

theorem mem_of {doc : DocId} {name : String}
    (h : (m.claimsByName.getD name {}).contains doc = true) : name ∈ m.of doc :=
  (m.mem_names doc name).2 h

def remove (doc : DocId) : Modules where
  roots := m.roots
  patterns := m.patterns
  claimsByName := purge (·.without? doc) m.claimsByName (m.of doc)
  names := m.names.erase doc
  claims_ne_empty name := by
    rw [getElem?_purge_without? m.claims_ne_empty fun _ => m.mem_of]
    cases m.claimsByName[name]? with
    | none => rfl
    | some claims => exact DocMap.isEmpty_without? claims doc
  mem_names d name := by
    rw [getD_purge_without? m.claims_ne_empty fun _ => m.mem_of, DocMap.contains_erase,
      DocMap.get?_erase]
    by_cases hd : d = doc
    · simp [hd]
    · simpa [hd] using m.mem_names d name

def add (doc : DocId) (path : String) : Modules where
  roots := m.roots
  patterns := m.patterns
  claimsByName := (namesFrom m.roots m.patterns path).foldl (claim doc) (m.remove doc).claimsByName
  names := (m.remove doc).names.insert doc (namesFrom m.roots m.patterns path)
  claims_ne_empty := foldl_claim_ne_empty doc _ (m.remove doc).claims_ne_empty
  mem_names d name := by
    have hold := (m.remove doc).mem_names d name
    rw [getD_foldl_claim, DocMap.get?_insert]
    by_cases hd : d = doc
    · subst hd
      have hgone : ((m.remove d).claimsByName.getD name {}).contains d = false := by
        simpa [remove, DocMap.get?_erase] using hold
      by_cases hname : name ∈ namesFrom m.roots m.patterns path <;>
        simp [hname, hgone, DocMap.contains_insert]
    · simp only [hd, if_false, hold]
      split <;> simp [DocMap.contains_insert, hd]

variable {m}

@[simp] theorem roots_add (doc : DocId) (path : String) : (m.add doc path).roots = m.roots := rfl

@[simp] theorem patterns_add (doc : DocId) (path : String) :
    (m.add doc path).patterns = m.patterns := rfl

theorem get?_names_add (doc : DocId) (path : String) (d : DocId) :
    (m.add doc path).names.get? d =
      if d = doc then some (namesFrom m.roots m.patterns path) else m.names.get? d := by
  by_cases hd : d = doc <;> simp [add, remove, DocMap.get?_insert, DocMap.get?_erase, hd]

theorem find?_congr {n : Modules} (h : ∀ doc, m.names.get? doc = n.names.get? doc) (name : String) :
    m.find? name = n.find? name := by
  have hclaims : m.claimsByName.getD name {} = n.claimsByName.getD name {} :=
    DocMap.ext_get? fun doc => by
      have hiff : (m.claimsByName.getD name {}).contains doc =
          (n.claimsByName.getD name {}).contains doc := by
        rw [Bool.eq_iff_iff, ← m.mem_names, ← n.mem_names, h]
      simp only [DocMap.contains] at hiff
      cases hm : (m.claimsByName.getD name {}).get? doc <;>
        cases hn : (n.claimsByName.getD name {}).get? doc <;>
        simp_all
  rw [find?, find?, hclaims]

end Modules

end LuaAnalysis.Document
