import LuaAnalysis.Proofs.Index.History
import LuaAnalysis.Proofs.Inference.Interruption
import LuaAnalysis.Report.Document

namespace LuaAnalysis.Report

open Document LuaAnalysis.Types Scope Syntax Workspace Inference

variable (p : Project)

theorem interruptible_fullEngine : Bindings p fun _ f => Interruptible (f (fullEngine p)) :=
  (interruptible_engine p searchFuel).questions.bindings

mutual

theorem interruptible_showType (t : Ty) : Interruptible (showType p t) := by
  cases t with
  | signature closure =>
    rw [showType]
    exact .bind ((interruptible_fullEngine p).signatureFunc closure) fun func => .pure _
  | multi items =>
    rw [showType]
    exact .bind (interruptible_showTypes items) fun texts => .pure _
  | variadic item =>
    rw [showType]
    exact .bind (interruptible_showType item) fun text => .pure _
  | union members =>
    rw [showType]
    refine .bind (interruptible_showTypes members) fun texts => .ite ?_ (.pure _)
    split <;> exact .pure _
  | _ => exact .pure _

theorem interruptible_showTypes (ts : List Ty) : Interruptible (showTypes p ts) := by
  cases ts with
  | nil => exact .pure []
  | cons t ts =>
    rw [showTypes]
    exact .bind (interruptible_showType t) fun text =>
      .bind (interruptible_showTypes ts) fun texts => .pure _

end

theorem interruptible_isSubtype (sub sup : Ty) :
    Interruptible (isSubtype p (fullEngine p) sub sup) :=
  .guarded ((interruptible_fullEngine p).fits sub sup)

theorem interruptible_mismatch (sub sup t u : Ty) (finding : String → String → Diagnostic) :
    Interruptible (do
    if ← isSubtype p (fullEngine p) sub sup then return none
    let text ← showType p t
    let text' ← showType p u
    return some (finding text text')) := by
  refine .bind (interruptible_isSubtype p sub sup) fun fits => .ite (.pure none) ?_
  exact .bind (interruptible_showType p t) fun text =>
    .bind (interruptible_showType p u) fun text' => .pure _

variable (doc : DocId) (t : Tree)

theorem interruptible_argumentFindings (found : CallMatch) (args : List ElementId) :
    Interruptible (argumentFindings p doc t found args) := by
  refine .filterMapM _ fun ⟨arg, name, expected?⟩ _ => ?_
  cases expected? with
  | none => exact .pure none
  | some expected =>
    refine .bind ((interruptible_fullEngine p).inferFirst doc arg) fun actual => ?_
    exact interruptible_mismatch p actual expected expected actual _

theorem interruptible_callFindings (call : ElementId) :
    Interruptible (callFindings p doc t call) := by
  refine .bind ((interruptible_fullEngine p).resolveCall doc call) fun found? => ?_
  cases found? with
  | none => exact .pure []
  | some found =>
    exact .bind (interruptible_argumentFindings p doc t found _) fun arguments => .pure _

theorem interruptible_returnStatFindings (stat : ElementId) (expected : List Ty) :
    Interruptible (returnStatFindings p doc t stat expected) := by
  refine .bind ((interruptible_fullEngine p).exprListTypes doc _) fun actual => ?_
  exact .filterMapM _ fun ⟨expected, i⟩ _ => interruptible_mismatch p _ expected expected _ _

theorem interruptible_returnFindings (closure : ElementId) :
    Interruptible (returnFindings p doc t closure) := by
  rw [returnFindings]
  split
  · refine .ite (.pure []) (.bind (.mapM _ fun stat _ => ?_) fun mismatches => .pure _)
    exact interruptible_returnStatFindings p doc t stat _
  · exact .pure []

theorem interruptible_assignedFinding (declared : Ty) (types : List Ty) (values : List ElementId)
    (index : Nat) : Interruptible (assignedFinding p t declared types values index) := by
  rw [assignedFinding]
  split
  · exact interruptible_mismatch p _ declared _ declared _
  · exact .pure none

theorem interruptible_localFindings (stat : ElementId) :
    Interruptible (localFindings p doc t stat) := by
  rw [localFindings]
  split
  · exact .pure []
  · refine .bind ((interruptible_fullEngine p).exprListTypes doc _) fun types =>
      .filterMapM _ fun ⟨name, i⟩ _ => ?_
    dsimp only
    split
    · exact interruptible_assignedFinding p t _ types _ i
    · exact .pure none

theorem interruptible_targetType (target : ElementId) :
    Interruptible (targetType p doc t target) := by
  rw [targetType]
  split
  · exact .pure _
  · split
    · refine .bind ((interruptible_fullEngine p).inferFirst doc _) fun source => ?_
      exact .bind ((interruptible_fullEngine p).findMember source _) fun info? => .pure _
    · exact .pure none
  · exact .pure none

theorem interruptible_assignFindings (stat : ElementId) :
    Interruptible (assignFindings p doc t stat) := by
  refine .bind ((interruptible_fullEngine p).exprListTypes doc _) fun types =>
    .filterMapM _ fun ⟨target, i⟩ _ => ?_
  refine .bind (interruptible_targetType p doc t target) fun declared? => ?_
  cases declared? with
  | none => exact .pure none
  | some declared => exact interruptible_assignedFinding p t declared types _ i

theorem interruptible_flowFindings (node : ElementId) :
    Interruptible (flowFindings p doc t node) := by
  rw [flowFindings]
  split
  · exact interruptible_callFindings p doc t node
  · exact interruptible_returnFindings p doc t node
  · exact interruptible_localFindings p doc t node
  · exact interruptible_assignFindings p doc t node
  · exact .pure []

theorem interruptible_flowPassOver (nodes : List ElementId) :
    Interruptible (flowPassOver p doc t nodes) := by
  induction nodes with
  | nil => exact .pure []
  | cons node rest ih =>
    refine .bind .isCancelled fun cancelled => .ite (.pure []) ?_
    exact .bind (interruptible_flowFindings p doc t node) fun found => .bind ih fun later => .pure _

theorem interruptible_classAmong (nodes : List ElementId) :
    Interruptible (classAmong p doc t nodes) := by
  induction nodes with
  | nil => exact .pure none
  | cons node rest ih =>
    refine .ite ih ?_
    split
    · exact .pure none
    · refine .bind ((interruptible_fullEngine p).inferFirst doc _) fun source => ?_
      split
      · exact .pure _
      · exact ih

theorem interruptible_isAccessible (node : ElementId) (m : Member) :
    Interruptible (isAccessible p doc t node m) := by
  rw [isAccessible]
  split
  · exact .pure _
  · exact .pure _
  · exact .bind (interruptible_classAmong p doc t _) fun name? => .pure _
  · refine .bind (interruptible_classAmong p doc t _) fun name? => ?_
    split
    · exact (interruptible_fullEngine p).inherits _ _
    · exact .pure false
  · exact .pure _

theorem interruptible_indexFindings (node : ElementId) :
    Interruptible (indexFindings p doc t node) := by
  rw [indexFindings]
  split
  · refine .bind ((interruptible_fullEngine p).inferFirst doc _) fun source => ?_
    refine .bind ((interruptible_fullEngine p).findMember source _) fun info? => ?_
    split
    · exact .pure []
    · refine .ite (.pure []) (.bind (interruptible_isAccessible p doc t node _)
        fun accessible => ?_)
      exact .ite (.pure _) (.pure _)
  · exact .pure []

theorem interruptible_namePass : Interruptible (namePass p doc t) := by
  refine .bind (.mapM _ fun node _ => ?_) fun found => .pure _
  rw [findingsAt]
  split
  · exact .pure _
  · exact interruptible_indexFindings p doc t node
  · exact .pure []

theorem interruptible_runPasses (passes : List (Search (List Diagnostic)))
    (h : ∀ pass ∈ passes, Interruptible pass) : Interruptible (runPasses passes) := by
  induction passes with
  | nil => exact .pure []
  | cons pass rest ih =>
    obtain ⟨hpass, hrest⟩ := List.forall_mem_cons.1 h
    refine .bind .isCancelled fun cancelled => .ite (.pure []) ?_
    exact .bind hpass fun found => .bind (ih hrest) fun later => .pure _

theorem interruptible_checkDocument (s : Source) : Interruptible (checkDocument p s) := by
  refine .bind (.ite (.pure []) (interruptible_runPasses _ ?_)) fun found => .pure _
  intro pass hpass
  rcases hpass with _ | ⟨_, _ | ⟨_, _ | ⟨_, _ | ⟨_, hpass⟩⟩⟩⟩
  · exact .pure _
  · exact interruptible_namePass p s.id s.tree
  · exact interruptible_flowPassOver p s.id s.tree _
  · exact .pure _
  · nomatch hpass

variable {p} {doc} {s : Source}

theorem diagnose_eq (h : p.source? doc = some s) (polls : Option Nat) : diagnose p doc polls =
    if (checkDocument p s { polls := polls }).2.polls = some 0 then .error .cancelled
    else .ok (checkDocument p s { polls := polls }).1 := by
  simp only [diagnose, h]
  generalize checkDocument p s = search
  have hlast : (do
      let report ← search
      return (report, ← Search.isCancelled) : Search (List Diagnostic × Bool)) { polls := polls } =
        (((search { polls := polls }).1, (Search.isCancelled (search { polls := polls }).2).1),
          (Search.isCancelled (search { polls := polls }).2).2) := rfl
  rw [StateT.run, hlast]
  generalize search { polls := polls } = result
  obtain ⟨report, exprs, decls, depth, expanding, polls', exhausted⟩ := result
  match polls' with
  | none => rfl
  | some 0 => rfl
  | some (n + 1) => rfl

theorem exists_looks_diagnose (h : p.source? doc = some s) : ∃ report looks, 0 < looks ∧
    diagnose p doc none = .ok report ∧
      ∀ n, diagnose p doc (some n) = if n < looks then .error .cancelled else .ok report := by
  obtain ⟨looks, hnone, hcut, hthrough⟩ := interruptible_checkDocument p s {} rfl
  simp only [SearchState.within] at hcut hthrough
  refine ⟨(checkDocument p s {}).1, looks + 1, Nat.succ_pos looks, ?_, fun n => ?_⟩
  · rw [diagnose_eq h, if_neg (by simp [hnone])]
  rw [diagnose_eq h]
  by_cases hlt : n < looks
  · rw [if_pos (hcut n hlt), if_pos (Nat.lt_succ_of_lt hlt)]
  · obtain ⟨k, rfl⟩ := Nat.exists_eq_add_of_le (Nat.le_of_not_lt hlt)
    rw [hthrough]
    -- the last look is the one that no pass makes
    cases k <;> simp

end LuaAnalysis.Report
