import LuaAnalysis.Proofs.Index.Suppressions
import LuaAnalysis.Proofs.Report.Cancellation
import Mathlib.Data.List.Chain
import Mathlib.Data.List.Nodup

/-!
What a report lists of the findings of its passes. It has those that neither settings nor comments
switch off, in order, with the severity that the settings say. Of equal findings one is kept if they
are neighbours, so that a finding is listed twice just if another one of its place and code was
found between the two.
-/

namespace LuaAnalysis.Report

open Document LuaAnalysis.Types Scope Syntax Settings Workspace Inference

section Repeated

variable {a b d : Diagnostic} {xs ys : List Diagnostic}

theorem dropRepeated_sublist (xs : List Diagnostic) : (dropRepeated xs).Sublist xs := by
  induction xs using dropRepeated.induct with
  | case1 => exact .slnil
  | case2 d => exact List.Sublist.refl [d]
  | case3 d rest ih =>
    rw [dropRepeated, if_pos rfl]
    exact ih.cons d
  | case4 d e rest hne ih =>
    rw [dropRepeated, if_neg hne]
    exact ih.cons_cons d

theorem sublist_dropRepeated (hchain : ys.IsChain (· ≠ ·)) (h : ys.Sublist xs) :
    ys.Sublist (dropRepeated xs) := by
  induction xs using dropRepeated.induct generalizing ys with
  | case1 => exact h
  | case2 d => exact h
  | case3 d rest ih =>
    rw [dropRepeated, if_pos rfl]
    refine ih hchain ?_
    rcases List.sublist_cons_iff.1 h with h | ⟨zs, rfl, hzs⟩
    · exact h
    · rcases List.sublist_cons_iff.1 hzs with hzs | ⟨ws, rfl, -⟩
      · exact hzs.cons_cons d
      · exact absurd rfl (List.isChain_cons_cons.1 hchain).1
  | case4 d e rest hne ih =>
    rw [dropRepeated, if_neg hne]
    rcases List.sublist_cons_iff.1 h with h | ⟨zs, rfl, hzs⟩
    · exact (ih hchain h).cons d
    · exact (ih hchain.of_cons hzs).cons_cons d

theorem head?_dropRepeated (xs : List Diagnostic) : (dropRepeated xs).head? = xs.head? := by
  induction xs using dropRepeated.induct with
  | case1 => rfl
  | case2 d => rfl
  | case3 d rest ih => rw [dropRepeated, if_pos rfl, ih, List.head?_cons, List.head?_cons]
  | case4 d e rest hne ih => rw [dropRepeated, if_neg hne, List.head?_cons, List.head?_cons]

theorem isChain_dropRepeated (xs : List Diagnostic) : (dropRepeated xs).IsChain (· ≠ ·) := by
  induction xs using dropRepeated.induct with
  | case1 => exact .nil
  | case2 d => exact .singleton d
  | case3 d rest ih => rwa [dropRepeated, if_pos rfl]
  | case4 d e rest hne ih =>
    rw [dropRepeated, if_neg hne, List.isChain_cons, head?_dropRepeated]
    refine ⟨fun f hf => ?_, ih⟩
    obtain rfl := Option.some.inj hf
    exact hne

theorem mem_dropRepeated : d ∈ dropRepeated xs ↔ d ∈ xs := by
  refine ⟨(dropRepeated_sublist xs).mem, fun h => ?_⟩
  exact List.singleton_sublist.1 (sublist_dropRepeated (.singleton d) (List.singleton_sublist.2 h))

theorem exists_between (hchain : xs.IsChain (· ≠ ·)) (h : [a, a].Sublist xs) : ∃ b, a ≠ b ∧
    [a, b, a].Sublist xs := by
  induction xs with
  | nil => cases h
  | cons x xs ih =>
    rcases List.sublist_cons_iff.1 h with h | ⟨rest, heq, hrest⟩
    · obtain ⟨b, hne, hb⟩ := ih hchain.of_cons h
      exact ⟨b, hne, hb.cons x⟩
    · obtain ⟨rfl, rfl⟩ := List.cons.inj heq
      cases xs with
      | nil => cases hrest
      | cons b xs =>
        have hne : a ≠ b := (List.isChain_cons_cons.1 hchain).1
        have hlater : a ∈ xs := (List.mem_cons.1 (List.singleton_sublist.1 hrest)).resolve_left hne
        exact ⟨b, hne, ((List.singleton_sublist.2 hlater).cons_cons b).cons_cons a⟩

theorem isChain_between (hne : a ≠ b) : [a, b, a].IsChain (· ≠ ·) :=
  List.isChain_cons_cons.2 ⟨hne, List.isChain_pair.2 hne.symm⟩

theorem nodup_dropRepeated_iff : (dropRepeated xs).Nodup ↔ ¬ ∃ a b, a ≠ b ∧
    [a, b, a].Sublist xs := by
  constructor
  · rintro hnodup ⟨a, b, hne, hsub⟩
    have htwice := hnodup.sublist (sublist_dropRepeated (isChain_between hne) hsub)
    simp at htwice
  · intro hnone
    refine List.nodup_iff_sublist.2 fun a hsub => hnone ?_
    obtain ⟨b, hne, hb⟩ := exists_between (isChain_dropRepeated xs) hsub
    exact ⟨a, b, hne, hb.trans (dropRepeated_sublist xs)⟩

end Repeated

section Order

variable {a b c : Diagnostic} {xs : List Diagnostic}

theorem Code.rank_inj {c d : Code} : c.rank = d.rank ↔ c = d :=
  List.idxOf_inj (by cases c <;> decide)

theorem comesBefore_iff : comesBefore a b = true ↔
    a.span.start < b.span.start ∨ a.span.start = b.span.start ∧ a.code.rank ≤ b.code.rank := by
  simp [comesBefore]

theorem comesBefore_trans (a b c : Diagnostic) (h : comesBefore a b = true)
    (h' : comesBefore b c = true) : comesBefore a c = true := by
  rw [comesBefore_iff] at *
  omega

theorem comesBefore_total (a b : Diagnostic) : (comesBefore a b || comesBefore b a) = true := by
  rw [Bool.or_eq_true, comesBefore_iff, comesBefore_iff]
  omega

theorem comesBefore_both_iff : comesBefore a b = true ∧ comesBefore b a = true ↔
    a.span.start = b.span.start ∧ a.code = b.code := by
  rw [comesBefore_iff, comesBefore_iff, ← Code.rank_inj]
  omega

theorem between_mergeSort_iff : [a, b, a].Sublist (xs.mergeSort comesBefore) ↔
    a.span.start = b.span.start ∧ a.code = b.code ∧ [a, b, a].Sublist xs := by
  constructor
  · intro hsub
    have hsorted := (List.pairwise_mergeSort comesBefore_trans comesBefore_total xs).sublist hsub
    simp only [List.pairwise_cons, List.mem_cons, List.not_mem_nil, or_false, forall_eq_or_imp,
      forall_eq] at hsorted
    obtain ⟨hstart, hcode⟩ := comesBefore_both_iff.1 ⟨hsorted.1.1, hsorted.2.1⟩
    refine ⟨hstart, hcode, ?_⟩
    have hsame := filter_mergeSort comesBefore_trans comesBefore_total
      (p := fun d => d.span.start == a.span.start && d.code == a.code) (fun c d hc hd => ?_) xs
    · have hkept := hsub.filter fun d => d.span.start == a.span.start && d.code == a.code
      rw [hsame] at hkept
      simp only [List.filter_cons, List.filter_nil, ← hstart, ← hcode, beq_self_eq_true,
        Bool.and_self, if_true] at hkept
      exact hkept.trans List.filter_sublist
    · rw [Bool.and_eq_true, beq_iff_eq, beq_iff_eq] at hc hd
      exact (comesBefore_both_iff.2 ⟨hc.1.trans hd.1.symm, hc.2.trans hd.2.symm⟩).1
  · rintro ⟨hstart, hcode, hsub⟩
    obtain ⟨hab, hba⟩ := comesBefore_both_iff.2 ⟨hstart, hcode⟩
    have haa : comesBefore a a = true := comesBefore_trans a b a hab hba
    refine List.sublist_mergeSort comesBefore_trans comesBefore_total ?_ hsub
    simp [hab, hba, haa]

end Order

section Reports

variable {p : Project} {doc : DocId} {s : Source} {found report : List Diagnostic}

/-- Neither the settings nor the comments of a document switch a finding off. -/
def IsOn (p : Project) (s : Source) (d : Diagnostic) : Prop :=
  d.code ∉ p.settings.report.disabled ∧
    isSuppressed (p.index.suppressions s.id) d.code (s.lines.lineOf d.span.start) = false

/-- What is reported of findings, as they were found. -/
def kept (p : Project) (s : Source) (found : List Diagnostic) : List Diagnostic :=
  (found.filter (isReported p.settings.report (p.index.suppressions s.id) s)).map
    (withSeverity p.settings.report)

/-- What a report lists of findings. -/
structure Arranges (p : Project) (s : Source) (found report : List Diagnostic) : Prop where
  /-- Findings are listed by where they start, then by code. -/
  sorted : report.Pairwise fun a b => a.span.start < b.span.start ∨ a.span.start = b.span.start ∧
    a.code.rank ≤ b.code.rank
  isOn : ∀ d ∈ report, IsOn p s d
  severity : ∀ d ∈ report, ∀ severity, p.settings.report.severity? d.code = some severity →
    d.severity = severity
  sound : ∀ d ∈ report, ∃ f ∈ found, withSeverity p.settings.report f = d
  complete : ∀ f ∈ found, IsOn p s f → withSeverity p.settings.report f ∈ report
  /-- No two neighbours are the same. -/
  apart : report.IsChain (· ≠ ·)
  /-- A finding is listed twice just if another one of its place and code was found between the
  two. -/
  once : report.Nodup ↔
    ¬ ∃ a b, a ≠ b ∧ a.span.start = b.span.start ∧ a.code = b.code ∧
    [a, b, a].Sublist (kept p s found)

theorem isReported_iff {d : Diagnostic} :
    isReported p.settings.report (p.index.suppressions s.id) s d = true ↔ IsOn p s d := by
  simp [isReported, IsOn]

theorem mem_kept {d : Diagnostic} : d ∈ kept p s found ↔ ∃ f ∈ found, IsOn p s f ∧
    withSeverity p.settings.report f = d := by
  simp [kept, isReported_iff, and_assoc]

theorem arranges_arrange (p : Project) (s : Source) (found : List Diagnostic) :
    Arranges p s found (arrange p.settings.report (p.index.suppressions s.id) s found) := by
  have hmem {d : Diagnostic} : d ∈ arrange p.settings.report (p.index.suppressions s.id) s found ↔
      ∃ f ∈ found, IsOn p s f ∧ withSeverity p.settings.report f = d :=
    mem_dropRepeated.trans ((List.mergeSort_perm _ _).mem_iff.trans mem_kept)
  refine ⟨?_, fun d hd => ?_, fun d hd severity hseverity => ?_, fun d hd => ?_, fun f hf hon => ?_,
    isChain_dropRepeated _, ?_⟩
  · have hsorted := List.pairwise_mergeSort comesBefore_trans comesBefore_total (kept p s found)
    exact (hsorted.sublist (dropRepeated_sublist _)).imp comesBefore_iff.1
  · obtain ⟨f, -, hon, rfl⟩ := hmem.1 hd
    exact hon
  · obtain ⟨f, -, -, rfl⟩ := hmem.1 hd
    rw [withSeverity] at hseverity ⊢
    rw [hseverity, Option.getD_some]
  · obtain ⟨f, hf, -, heq⟩ := hmem.1 hd
    exact ⟨f, hf, heq⟩
  · exact hmem.2 ⟨f, hf, hon, rfl⟩
  · rw [arrange, nodup_dropRepeated_iff]
    simp only [between_mergeSort_iff]
    rfl

theorem diagnose_eq_arrange (h : p.source? doc = some s) :
    diagnose p doc none =
    .ok (arrange p.settings.report (p.index.suppressions s.id) s (run (findings p s))) := by
  obtain ⟨report, -, -, hnone, -⟩ := exists_looks_diagnose h
  have heq := diagnose_eq h none
  rw [hnone] at heq
  split at heq
  · cases heq
  · rw [hnone, heq]
    rfl

/-- A report of an open document lists what the passes find, in order, but for what settings or
comments switch off, and with the severities of the settings. It lists a finding twice just if
another one of its place and code was found between the two. -/
theorem diagnose_arranges (h : p.source? doc = some s) :
    ∃ report, diagnose p doc none = .ok report ∧
    (∀ polls other, diagnose p doc polls = .ok other → other = report) ∧
    Arranges p s (run (findings p s)) report ∧
      (p.index.isMeta s.id = true → report = []) := by
  refine ⟨_, diagnose_eq_arrange h, fun polls other hother => ?_, arranges_arrange p s _,
    fun hmeta => ?_⟩
  · obtain ⟨report, looks, -, hnone, hsome⟩ := exists_looks_diagnose h
    rw [diagnose_eq_arrange h] at hnone
    rw [Except.ok.inj hnone]
    cases polls with
    | none => exact Except.ok.inj (hother.symm.trans ((diagnose_eq_arrange h).trans hnone))
    | some n =>
      rw [hsome] at hother
      split at hother
      · cases hother
      · exact (Except.ok.inj hother).symm
  · have hnone : run (findings p s) = [] := by
      rw [findings, if_pos hmeta]
      rfl
    rw [hnone]
    simp [arrange, dropRepeated]

/-- A call of a function that stops in the parameters of a function passed to it. -/
def unclosed : Source := .ofText 0 ⟨"file:///t.lua", "/t.lua"⟩ "f(function("

abbrev unclosedProject : Project := (Project.ofSettings {}).run [.add unclosed.uri unclosed.text]

theorem source?_unclosed : unclosedProject.source? 0 = some unclosed :=
  (Project.source?_single {} _ _ 0).trans (if_pos rfl)

theorem diagnose_arranges_unclosed : unclosedProject.source? 0 = some unclosed ∧
    ∃ report, diagnose unclosedProject 0 none = .ok report ∧
      Arranges unclosedProject unclosed (run (findings unclosedProject unclosed)) report :=
  ⟨source?_unclosed, (diagnose_arranges source?_unclosed).imp fun _ h => ⟨h.1, h.2.2.1⟩⟩

def ListsOnce (p : Project) : Prop := ∀ doc polls report, diagnose p doc polls = .ok report →
    report.Nodup

def foundErrors (text : String) : List SyntaxError :=
  let lexed := Lexer.tokenize text
  let log := (Grammar.chunk (Parser.ofTokens text lexed.1)).log
  lexed.2 ++ (TreeBuilder.replayFrom log.size 0 log {} []).2.reverse

theorem errors_parse (text : String) :
    (parse text).errors = (foundErrors text).mergeSort fun x y => x.span.start ≤ y.span.start := by
  simp only [parse, Tree.ofLog, foundErrors]

def missingAtEnd (kind : TokenKind) : SyntaxError := ⟨.expected kind .eof, ⟨11, 11⟩⟩

theorem sublist_errors_unclosed :
    [missingAtEnd .rightParen, missingAtEnd .kwEnd,
      missingAtEnd .rightParen].Sublist unclosed.tree.errors := by
  have hfound : [missingAtEnd .rightParen, missingAtEnd .kwEnd, missingAtEnd .rightParen].Sublist
      (foundErrors unclosed.text) := by
    decide +kernel
  change List.Sublist _ (parse unclosed.text).errors
  rw [errors_parse]
  exact List.sublist_mergeSort (by simp; omega) (by simp; omega) (by decide) hfound

theorem exists_findings_eq (h : p.index.isMeta s.id = false) :
    ∃ later, run (findings p s) = syntaxFindings s.tree ++ later := by
  rw [findings, if_neg (by simp [h])]
  exact ⟨_, rfl⟩

/-- Between the two findings that a call is not closed stands the one that the function has no
end. -/
theorem not_listsOnce_unclosed : ¬ ListsOnce unclosedProject := by
  intro h
  have honce := h 0 none _ (diagnose_eq_arrange source?_unclosed)
  rw [(arranges_arrange _ _ _).once] at honce
  obtain ⟨later, hfindings⟩ :=
    exists_findings_eq (p := unclosedProject) (s := unclosed) (by decide +kernel)
  have hsettings : unclosedProject.settings = {} := Project.settings_run _
  have hkept (found : List Diagnostic) : kept unclosedProject unclosed found = found := by
    have hnone : unclosedProject.index.suppressions unclosed.id = [] := by decide +kernel
    have hreported : isReported {} [] unclosed = fun _ => true := by
      funext d
      simp [isReported, isSuppressed, offAfter]
    have hseverity : withSeverity {} = id := rfl
    rw [kept, hnone, hsettings, hreported, hseverity, List.filter_true, List.map_id]
  let finding (e : SyntaxError) : Diagnostic := .of .syntaxError e.span e.message
  refine honce ⟨finding (missingAtEnd .rightParen),
    finding (missingAtEnd .kwEnd), by decide, rfl, rfl, ?_⟩
  rw [hkept, hfindings]
  exact (sublist_errors_unclosed.map finding).trans (List.sublist_append_left _ _)

end Reports

end LuaAnalysis.Report
