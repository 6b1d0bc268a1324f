import LuaAnalysis.Proofs.Index.History
import LuaAnalysis.Proofs.Index.Passes
import LuaAnalysis.Proofs.Report.Switches

/-!
Which codes a comment switches off. Words that name no code are left out of its list, and without
codes it is about every code, so a comment is about the codes that it lists unless it lists none
that there is.
-/

namespace LuaAnalysis.Report

theorem Code.ofName?_name (code : Code) : Code.ofName? code.name = some code := by
  cases code <;> decide

theorem Code.name_of_ofName? {word : String} {code : Code} (h : Code.ofName? word = some code) :
    code.name = word := by
  simpa using List.find?_some h

theorem isSuppressed_congr {xs ys : List Suppression} {code : Code}
    (h : xs.filter (·.covers code) = ys.filter (·.covers code)) (line : Nat) :
    isSuppressed xs code line = isSuppressed ys code line := by
  refine isSuppressed_eq_of_filter fun n => ?_
  have hmatters (zs : List Suppression) :
      (zs.filter (·.covers code)).filter (·.Matters code line) =
      zs.filter (·.Matters code line) := by
    rw [List.filter_filter]
    refine List.filter_congr fun s _ => ?_
    by_cases hs : s.Matters code line
    · simp [hs, hs.covers]
    · simp [hs]
  rw [← hmatters xs, h, hmatters]

end LuaAnalysis.Report

namespace LuaAnalysis.Workspace

open Document LuaAnalysis.Types Scope Syntax Settings Report

namespace CommentContext

variable (c : CommentContext)

def listedWords (tag : ElementId) : List String :=
  match c.tree.child? tag .docDiagnosticCodeList with
  | some list => c.names list
  | none => []

/-- Whether a tag is about a code: it lists the code, or it lists no code that there is. -/
def concerns (code : Code) (tag : ElementId) : Bool :=
  (c.listedWords tag).contains code.name || (c.listedWords tag).all fun word =>
    (Code.ofName? word).isNone

/-- The tags of all comments that switch codes, in the order of the text. -/
def diagnosticTags : List ElementId :=
  ((c.tree.descendants Tree.root).filter fun n => c.tree.kind n == .comment).flatMap fun n =>
    (c.tree.childNodes n).filter fun tag => c.tree.kind tag == .docTagDiagnostic

variable {c} {tag : ElementId} {s : Suppression}

theorem codes_suppression? (h : c.suppression? tag = some s) :
    s.codes = (c.listedWords tag).filterMap Code.ofName? := by
  simp only [suppression?, Option.bind_eq_bind, Option.bind_eq_some_iff, Option.pure_def,
    Option.some.injEq] at h
  obtain ⟨action, -, rfl⟩ := h
  rw [listedWords]
  cases c.tree.child? tag .docDiagnosticCodeList <;> rfl

theorem covers_suppression? (h : c.suppression? tag = some s) (code : Code) :
    s.covers code = c.concerns code tag := by
  have hlisted : code ∈ (c.listedWords tag).filterMap Code.ofName? ↔
      code.name ∈ c.listedWords tag := by
    rw [List.mem_filterMap]
    constructor
    · rintro ⟨word, hword, hcode⟩
      rwa [Code.name_of_ofName? hcode]
    · intro hname
      exact ⟨code.name, hname, Code.ofName?_name code⟩
  rw [Suppression.covers, codes_suppression? h, concerns, Bool.or_comm, Bool.eq_iff_iff]
  simp [hlisted]

theorem isSuppressed_concerning (tags : List ElementId) (code : Code) (line : Nat) :
    isSuppressed (tags.filterMap c.suppression?) code line =
      isSuppressed ((tags.filter (c.concerns code)).filterMap c.suppression?) code line := by
  refine isSuppressed_congr ?_ line
  induction tags with
  | nil => rfl
  | cons tag tags ih =>
    cases hrecorded : c.suppression? tag with
    | none => by_cases hcode : c.concerns code tag <;> simp [hcode, hrecorded, ih]
    | some s =>
      have hcovers := covers_suppression? hrecorded code
      by_cases hcode : c.concerns code tag <;> simp [hcode, hcovers, hrecorded, ih]

end CommentContext

theorem recordedSuppressions_eq (settings : Settings) (s : Source) :
    recordedSuppressions settings s = (commentContext settings s).diagnosticTags.filterMap
    (commentContext settings s).suppression? := by
  rw [recordedSuppressions, CommentContext.diagnosticTags, List.filterMap_flatMap]
  congr 1
  funext n
  exact CommentContext.readComment_suppressions _ n

namespace Project

variable {p : Project} {doc : DocId} {s : Source}

theorem Faithful.suppressions_eq (h : p.Faithful) (hs : p.source? doc = some s) :
    p.index.suppressions doc = recordedSuppressions p.settings s := by
  obtain ⟨rfl, hpart⟩ := h.part_eq hs
  have hstored : p.index.suppressionStore.get? s.id = _ := congrArg Index.Part.suppressions? hpart
  have hrecorded := suppressions_analyze p.settings s (.ofSettings p.settings)
  have hnone : (Index.ofSettings p.settings).suppressions s.id = [] := rfl
  rw [hnone, List.nil_append, Index.suppressions] at hrecorded
  rw [Index.suppressions, hstored, Source.part, Index.part, hrecorded]

/-- After any edits, what is recorded of an open document are its tags that switch codes. Each
covers the codes that the tag is about, and for the code of a finding only the tags that are about
it matter. -/
theorem run_suppressions (settings : Settings) (edits : List Edit) {doc : DocId} {s : Source}
    (h : ((ofSettings settings).run edits).source? doc = some s) :
    let c := commentContext settings s
    let suppressions := ((ofSettings settings).run edits).index.suppressions doc
    suppressions = c.diagnosticTags.filterMap c.suppression? ∧
      (∀ tag recorded, c.suppression? tag = some recorded → ∀ code,
        recorded.covers code = true ↔ code.name ∈ c.listedWords tag ∨
          ∀ word ∈ c.listedWords tag, Code.ofName? word = none) ∧
      ∀ code line, isSuppressed suppressions code line =
        isSuppressed ((c.diagnosticTags.filter (c.concerns code)).filterMap c.suppression?)
          code line := by
  have heq := ((faithful_ofSettings settings).run edits).suppressions_eq h
  rw [settings_run, recordedSuppressions_eq] at heq
  refine ⟨heq, fun tag recorded hrecorded code => ?_, fun code line => ?_⟩
  · rw [CommentContext.covers_suppression? hrecorded, CommentContext.concerns]
    simp
  · rw [heq]
    exact CommentContext.isSuppressed_concerning _ code line

def oneCodeOfTwo : Source := .ofText 0 ⟨"a", "a"⟩ "---@diagnostic disable: deprecated, not-a-code\n"

theorem source?_oneCodeOfTwo :
    ((ofSettings {}).run [.add oneCodeOfTwo.uri oneCodeOfTwo.text]).source? 0 = some oneCodeOfTwo :=
  (source?_single {} _ _ 0).trans (if_pos rfl)

theorem run_suppressions_one_code_of_two :
    let c := commentContext {} oneCodeOfTwo
    let p := (ofSettings {}).run [.add oneCodeOfTwo.uri oneCodeOfTwo.text]
    p.source? 0 = some oneCodeOfTwo ∧ p.index.suppressions 0 =
    c.diagnosticTags.filterMap c.suppression? :=
  ⟨source?_oneCodeOfTwo, (run_suppressions {} _ source?_oneCodeOfTwo).1⟩

end Project

/-- A tag with a list covers only codes that are listed. -/
def CommentContext.CoversListedOnly (c : CommentContext) : Prop :=
  ∀ tag ∈ c.diagnosticTags, (c.tree.child? tag .docDiagnosticCodeList).isSome = true →
    ∀ recorded, c.suppression? tag = some recorded → ∀ code, recorded.covers code = true →
      code.name ∈ c.listedWords tag

/-- A document whose only list has no word that is a code. -/
def unknownWord : Source :=
  .ofText 0 ⟨"file:///t.lua", "/t.lua"⟩ "---@diagnostic disable: not-a-code\nx = y\n"

theorem not_coversListedOnly_unknownWord : ¬ (commentContext {} unknownWord).CoversListedOnly := by
  intro h
  let c := commentContext {} unknownWord
  -- together, so that the document is read only once
  obtain ⟨htag, hlist, hrecorded, hword⟩ : 5 ∈ c.diagnosticTags ∧
      (c.tree.child? 5 .docDiagnosticCodeList).isSome = true ∧
      c.suppression? 5 = some ⟨.disable, [], 0⟩ ∧ c.listedWords 5 = ["not-a-code"] := by
        decide +kernel
  have hlisted : Code.undefinedGlobal.name ∈ c.listedWords 5 :=
    h 5 htag hlist _ hrecorded .undefinedGlobal rfl
  rw [hword] at hlisted
  exact absurd hlisted (by decide)

end LuaAnalysis.Workspace
