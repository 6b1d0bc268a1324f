import LuaAnalysis.Report.Flow

/-!
Whether an execution can fall off the end of a block that is said to end its function on every path.
What a condition comes to is left open. Only a loop with its condition behind it that is left by a
`break`, and a call of something else that is called `error`, lead there.
-/

namespace LuaAnalysis.Report

open Syntax

/-- How an execution of statements ends: it goes on behind them, it leaves the innermost loop around
them, or the function is left for good. -/
inductive Outcome where
  | falls | breaks | leaves
deriving DecidableEq

/-- What is executed: a list of statements, one of them, or any number of rounds of a list. -/
inductive Phrase where
  | stats (stats : List ElementId)
  | stat (stat : ElementId)
  | rounds (stats : List ElementId)

def statsOf (t : Tree) (block : ElementId) : List ElementId :=
  (t.childNodes block).filter fun n => (t.kind n).isStat

def bodyOf (t : Tree) (node : ElementId) : List ElementId :=
  ((t.child? node .block).map (statsOf t)).getD []

/-- The parts of an `if` statement that one of is executed. -/
def branchesOf (t : Tree) (stat : ElementId) : List ElementId :=
  stat :: t.childrenOf stat .elseIfClause ++ (t.child? stat .elseClause).toList

/-- The name that a statement calls, if it is a call of `error`. -/
def errorCallee? (t : Tree) (stat : ElementId) : Option ElementId :=
  if t.kind stat = .callExprStat then
    ((t.child? stat .callExpr).bind fun call => (t.exprs call).head?).filter fun callee =>
      t.kind callee == .nameExpr && t.nameText? callee == some "error"
  else none

/-- Whether execution goes on behind a statement in any case. -/
def isPlain : NodeKind → Bool
  | .emptyStat | .localStat | .assignStat | .funcStat | .localFuncStat | .labelStat => true
  | _ => false

/-- The executions of statements, where conditions come out in any way and loops have any number of
rounds, given the names that are global. There is none that goes through a `goto`. -/
inductive Runs (t : Tree) (isGlobal : ElementId → Prop) : Phrase → Outcome → Prop
  | done : Runs t isGlobal (.stats []) .falls
  | next {stat : ElementId} {rest : List ElementId} {o : Outcome}
      (hstat : Runs t isGlobal (.stat stat) .falls) (hrest : Runs t isGlobal (.stats rest) o) :
      Runs t isGlobal (.stats (stat :: rest)) o
  | stop {stat : ElementId} {rest : List ElementId} {o : Outcome}
      (hstat : Runs t isGlobal (.stat stat) o) (ho : o ≠ .falls) :
      Runs t isGlobal (.stats (stat :: rest)) o
  | plain {stat : ElementId} (hkind : isPlain (t.kind stat) = true) :
      Runs t isGlobal (.stat stat) .falls
  | returns {stat : ElementId} (hkind : t.kind stat = .returnStat) :
      Runs t isGlobal (.stat stat) .leaves
  | breaks {stat : ElementId} (hkind : t.kind stat = .breakStat) :
      Runs t isGlobal (.stat stat) .breaks
  | error {stat callee : ElementId} (hcallee : errorCallee? t stat = some callee)
      (hglobal : isGlobal callee) : Runs t isGlobal (.stat stat) .leaves
  | call {stat : ElementId} (hkind : t.kind stat = .callExprStat)
      (hcallee : ∀ callee, errorCallee? t stat = some callee → ¬ isGlobal callee) :
      Runs t isGlobal (.stat stat) .falls
  | block {stat : ElementId} {o : Outcome} (hkind : t.kind stat = .doStat)
      (hbody : Runs t isGlobal (.stats (bodyOf t stat)) o) : Runs t isGlobal (.stat stat) o
  | branch {stat branch : ElementId} {o : Outcome} (hkind : t.kind stat = .ifStat)
      (hbranch : branch ∈ branchesOf t stat)
      (hbody : Runs t isGlobal (.stats (bodyOf t branch)) o) : Runs t isGlobal (.stat stat) o
  | otherwise {stat : ElementId} (hkind : t.kind stat = .ifStat)
      (hnone : t.child? stat .elseClause = none) : Runs t isGlobal (.stat stat) .falls
  | loop {stat : ElementId} {o : Outcome} (hkind : t.kind stat = .whileStat ∨
      t.kind stat = .forStat ∨ t.kind stat = .forRangeStat) (hrounds :
        Runs t isGlobal (.rounds (bodyOf t stat)) o) : Runs t isGlobal (.stat stat) o
  | again {stat : ElementId} {o : Outcome} (hkind : t.kind stat = .repeatStat)
      (hbody : Runs t isGlobal (.stats (bodyOf t stat)) .falls)
      (hrounds : Runs t isGlobal (.rounds (bodyOf t stat)) o) : Runs t isGlobal (.stat stat) o
  | broken {stat : ElementId} (hkind : t.kind stat = .repeatStat)
      (hbody : Runs t isGlobal (.stats (bodyOf t stat)) .breaks) :
      Runs t isGlobal (.stat stat) .falls
  | left {stat : ElementId} (hkind : t.kind stat = .repeatStat)
      (hbody : Runs t isGlobal (.stats (bodyOf t stat)) .leaves) :
      Runs t isGlobal (.stat stat) .leaves
  | roundsDone {stats : List ElementId} : Runs t isGlobal (.rounds stats) .falls
  | roundsNext {stats : List ElementId} {o : Outcome}
      (hround : Runs t isGlobal (.stats stats) .falls)
      (hrounds : Runs t isGlobal (.rounds stats) o) : Runs t isGlobal (.rounds stats) o
  | roundsBroken {stats : List ElementId} (hround : Runs t isGlobal (.stats stats) .breaks) :
      Runs t isGlobal (.rounds stats) .falls
  | roundsLeft {stats : List ElementId} (hround : Runs t isGlobal (.stats stats) .leaves) :
      Runs t isGlobal (.rounds stats) .leaves

/-- The last statement of a block that is not empty. -/
def lastStat? (t : Tree) (block : ElementId) : Option ElementId :=
  ((t.childNodes block).filter fun n => (t.kind n).isStat && t.kind n != .emptyStat).getLast?

/-- Whether a statement is the last one of a block, or of a block that the last statement of the
block has. -/
inductive Tail (t : Tree) : ElementId → ElementId → Prop
  | last {block stat : ElementId} (h : lastStat? t block = some stat) : Tail t block stat
  | inner {block last inner stat : ElementId} (h : lastStat? t block = some last)
      (hkind : t.kind last = .doStat ∨ t.kind last = .repeatStat)
      (hinner : t.child? last .block = some inner) (hstat : Tail t inner stat) : Tail t block stat
  | branch {block last branch inner stat : ElementId} (h : lastStat? t block = some last)
      (hkind : t.kind last = .ifStat) (hbranch : branch ∈ branchesOf t last)
      (hinner : t.child? branch .block = some inner) (hstat : Tail t inner stat) : Tail t block stat

/-- Whether execution may go on behind a statement that is taken to end the function: a loop that a
`break` leaves, or a call of a local that is called `error`. -/
def Slips (t : Tree) (isGlobal : ElementId → Prop) (stat : ElementId) : Prop :=
  t.kind stat = .repeatStat ∧ Runs t isGlobal (.stats (bodyOf t stat)) .breaks ∨
    ∃ callee, errorCallee? t stat = some callee ∧ ¬ isGlobal callee

variable {t : Tree} {isGlobal : ElementId → Prop} {stat block inner : ElementId}
  {stats : List ElementId}

theorem Runs.falls_of_mem (h : Runs t isGlobal (.stats stats) .falls) (hstat : stat ∈ stats) :
    Runs t isGlobal (.stat stat) .falls := by
  induction stats with
  | nil => cases hstat
  | cons first rest ih =>
    cases h with
    | next hfirst hrest =>
      rcases List.mem_cons.1 hstat with rfl | hstat
      · exact hfirst
      · exact ih hrest hstat
    | stop _ ho => exact absurd rfl ho

theorem mem_statsOf_of_lastStat? (h : lastStat? t block = some stat) : stat ∈ statsOf t block := by
  obtain ⟨hchild, hkind⟩ := List.mem_filter.1 (List.mem_of_getLast? h)
  exact List.mem_filter.2 ⟨hchild, (Bool.and_eq_true_iff.1 hkind).1⟩

theorem bodyOf_eq (h : t.child? stat .block = some inner) : bodyOf t stat = statsOf t inner := by
  rw [bodyOf, h]
  rfl

section

attribute [local simp] isPlain

theorem Runs.not_falls_of_returnStat (hkind : t.kind stat = .returnStat) :
    ¬ Runs t isGlobal (.stat stat) .falls := by
  intro h
  cases h <;> simp_all

theorem Runs.falls_of_doStat (h : Runs t isGlobal (.stat stat) .falls)
    (hkind : t.kind stat = .doStat) : Runs t isGlobal (.stats (bodyOf t stat)) .falls := by
  cases h <;> simp_all

theorem Runs.falls_of_repeatStat (h : Runs t isGlobal (.stat stat) .falls)
    (hkind : t.kind stat = .repeatStat) : Runs t isGlobal (.stats (bodyOf t stat)) .falls ∨
    Runs t isGlobal (.stats (bodyOf t stat)) .breaks := by
  cases h <;> simp_all

theorem Runs.falls_of_ifStat (h : Runs t isGlobal (.stat stat) .falls)
    (hkind : t.kind stat = .ifStat) : t.child? stat .elseClause = none ∨
    ∃ branch ∈ branchesOf t stat, Runs t isGlobal (.stats (bodyOf t branch)) .falls := by
  cases h with
  | branch _ hbranch hbody => exact .inr ⟨_, hbranch, hbody⟩
  | otherwise _ hnone => exact .inl hnone
  | _ => simp_all

theorem Runs.falls_of_callExprStat (h : Runs t isGlobal (.stat stat) .falls)
    (hkind : t.kind stat = .callExprStat) : ∀ callee, errorCallee? t stat = some callee →
    ¬ isGlobal callee := by
  cases h <;> simp_all

end

theorem kind_of_errorCallee? {callee : ElementId} (h : errorCallee? t stat = some callee) :
    t.kind stat = .callExprStat := by
  rw [errorCallee?] at h
  split at h
  · assumption
  · cases h

theorem exists_inner {node : ElementId} {f : ElementId → Bool}
    (h : ((t.child? node .block).map f).getD false = true) :
    ∃ inner, t.child? node .block = some inner ∧ f inner = true := by
  cases hinner : t.child? node .block with
  | none => simp [hinner] at h
  | some inner => exact ⟨inner, rfl, by simpa [hinner] using h⟩

theorem endsDeep_succ {fuel : Nat} (h : endsDeep t (fuel + 1) block = true) :
    ∃ last, lastStat? t block = some last ∧
    (t.kind last = .returnStat ∨
      ((t.kind last = .doStat ∨ t.kind last = .repeatStat) ∧
        ∃ inner, t.child? last .block = some inner ∧ endsDeep t fuel inner = true) ∨
      (t.kind last = .ifStat ∧ t.child? last .elseClause ≠ none ∧
        ∀ branch ∈ branchesOf t last, ∃ inner, t.child? branch .block = some inner ∧
        endsDeep t fuel inner = true) ∨
      ∃ callee, errorCallee? t last = some callee) := by
  rw [endsDeep, ← lastStat?.eq_1] at h
  cases hlast : lastStat? t block with
  | none => simp [hlast] at h
  | some last =>
    refine ⟨last, rfl, ?_⟩
    simp only [hlast] at h
    cases hkind : t.kind last with
    | returnStat => exact .inl rfl
    | doStat =>
      simp only [hkind] at h
      exact .inr (.inl ⟨.inl rfl, exists_inner h⟩)
    | repeatStat =>
      simp only [hkind] at h
      exact .inr (.inl ⟨.inr rfl, exists_inner h⟩)
    | ifStat =>
      simp only [hkind] at h
      cases helse : t.child? last .elseClause with
      | none => simp [helse] at h
      | some otherwise =>
        refine .inr (.inr (.inl ⟨rfl, by simp, fun branch hbranch => exists_inner ?_⟩))
        simp only [helse, List.all_eq_true] at h
        exact h branch (by simpa [branchesOf, helse] using hbranch)
    | callExprStat =>
      simp only [hkind] at h
      cases hcallee : (t.child? last .callExpr).bind fun call => (t.exprs call).head? with
      | none => simp [hcallee] at h
      | some callee =>
        simp only [hcallee] at h
        refine .inr (.inr (.inr ⟨callee, ?_⟩))
        rw [errorCallee?, if_pos hkind, hcallee, Option.filter_some, if_pos h]
    | _ => simp [hkind] at h

theorem exists_slips_of_endsDeep {fuel : Nat} (h : endsDeep t fuel block = true)
    (hrun : Runs t isGlobal (.stats (statsOf t block)) .falls) : ∃ stat, Tail t block stat ∧
    Slips t isGlobal stat := by
  induction fuel generalizing block with
  | zero => cases h
  | succ fuel ih =>
    obtain ⟨last, hlast, hends⟩ := endsDeep_succ h
    have hfalls := hrun.falls_of_mem (mem_statsOf_of_lastStat? hlast)
    rcases hends with hkind | ⟨hkind, inner, hinner, hends⟩ | ⟨hkind, helse,
      hbranches⟩ | ⟨callee, hcallee⟩
    · exact absurd hfalls (Runs.not_falls_of_returnStat hkind)
    · -- a `do` is left at its end only, a `repeat` by a `break` too
      have hbody : Runs t isGlobal (.stats (bodyOf t last)) .falls ∨ Slips t isGlobal last := by
        rcases hkind with hkind | hkind
        · exact .inl (hfalls.falls_of_doStat hkind)
        · exact (hfalls.falls_of_repeatStat hkind).imp_right fun hbreaks => .inl ⟨hkind, hbreaks⟩
      rcases hbody with hbody | hslips
      · obtain ⟨stat, htail, hslips⟩ := ih hends (bodyOf_eq hinner ▸ hbody)
        exact ⟨stat, .inner hlast hkind hinner htail, hslips⟩
      · exact ⟨last, .last hlast, hslips⟩
    · obtain ⟨branch, hbranch, hbody⟩ := (hfalls.falls_of_ifStat hkind).resolve_left helse
      obtain ⟨inner, hinner, hends⟩ := hbranches branch hbranch
      obtain ⟨stat, htail, hslips⟩ := ih hends (bodyOf_eq hinner ▸ hbody)
      exact ⟨stat, .branch hlast hkind hbranch hinner htail, hslips⟩
    · have hlocal := hfalls.falls_of_callExprStat (kind_of_errorCallee? hcallee) callee hcallee
      exact ⟨last, .last hlast, .inr ⟨callee, hcallee, hlocal⟩⟩

/-- A body that is taken to end its function on every path is left at its end only behind a last
statement that slips. Where no `break` leaves a loop with its condition behind it among its last
statements, and `error` is the global there, no execution falls off its end. -/
theorem exists_slips_of_blockAlwaysReturns (t : Tree) (isGlobal : ElementId → Prop)
    (body : ElementId) (h : blockAlwaysReturns t body = true)
    (hrun : Runs t isGlobal (.stats (statsOf t body)) .falls) :
    ∃ stat, Tail t body stat ∧ Slips t isGlobal stat :=
  exists_slips_of_endsDeep h hrun

/-- A loop that returns a value unless it is left by a `break`. -/
def breaksOut : String := "function f(x) repeat if x then break end return 1 until x end"

theorem stats_breaksOut :
    let t := parse breaksOut
    statsOf t 12 = [13] ∧ t.kind 13 = .repeatStat ∧ bodyOf t 13 = [16, 25] ∧ t.kind 16 = .ifStat ∧
    bodyOf t 16 = [22] ∧
      t.kind 22 = .breakStat ∧ blockAlwaysReturns t 12 = true := by
  decide +kernel

theorem falls_breaksOut (isGlobal : ElementId → Prop) :
    Runs (parse breaksOut) isGlobal (.stats (statsOf (parse breaksOut) 12)) .falls := by
  obtain ⟨hbody, hrepeat, hloop, hif, hbranch, hbreak, -⟩ := stats_breaksOut
  have hbreaks : Runs (parse breaksOut) isGlobal
      (.stats (bodyOf (parse breaksOut) 13)) .breaks := by
    rw [hloop]
    refine .stop (.branch hif (.head _) ?_) (by decide)
    rw [hbranch]
    exact .stop (.breaks hbreak) (by decide)
  rw [hbody]
  exact .next (.broken hrepeat hbreaks) .done

theorem exists_slips_of_blockAlwaysReturns_breaksOut :
    let t := parse breaksOut
    blockAlwaysReturns t 12 = true ∧ Runs t (fun _ => True) (.stats (statsOf t 12)) .falls ∧
      ∃ stat, Tail t 12 stat ∧ Slips t (fun _ => True) stat := by
  obtain ⟨-, -, -, -, -, -, hends⟩ := stats_breaksOut
  exact ⟨hends, falls_breaksOut _,
    exists_slips_of_blockAlwaysReturns _ _ 12 hends (falls_breaksOut _)⟩

/-- Whether no execution falls off the end of a body that is taken to end its function on every
path. -/
def ReturnsSoundly (t : Tree) : Prop :=
  ∀ isGlobal body, blockAlwaysReturns t body = true →
    ¬ Runs t isGlobal (.stats (statsOf t body)) .falls

theorem not_returnsSoundly_breaksOut : ¬ ReturnsSoundly (parse breaksOut) := by
  obtain ⟨-, -, -, -, -, -, hends⟩ := stats_breaksOut
  exact fun h => h (fun _ => True) 12 hends (falls_breaksOut _)

end LuaAnalysis.Report
