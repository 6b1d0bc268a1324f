import Mathlib.Logic.Function.Basic
import LuaAnalysis.Proofs.Index.History
import LuaAnalysis.Session

/-!
A session that clients use at the same time. Wherever a client may have to wait for others, a step
ends: at the cancellation of the pass under way, at the start of a pass, where the lock of the
workspace is taken or given back, and at each look for a cancellation by the task of a document.
-/

namespace LuaAnalysis.Schedule

open Document Workspace Report

/-- What a client wants: an edit, or a pass, which may be delayed. -/
inductive Request where
  | edit (e : Edit)
  | pass (delayed : Bool)

/-- The report of one document in a pass, with the looks for a cancellation that showed none so
far. -/
structure Task where
  doc : DocId
  uri : Uri
  looks : Nat := 0
  result? : Option (Except ReportError (List Diagnostic)) := none

/-- How far a client is. Passes go by their numbers. -/
inductive Client where
  | idle (r : Request)
  /-- Waits for the lock, with the pass under way cancelled. -/
  | editing (e : Edit)
  | writing (e : Edit)
  | edited
  /-- Waits for the lock, to read the delay first if there is one. -/
  | begun (pass : Nat) (delayed : Bool)
  | delaying (pass : Nat)
  | sleeping (pass : Nat)
  /-- Has tasks and reports of those that were collected. The tasks may outlive the pass. -/
  | reporting (pass : Nat) (tasks : List Task) (found : List DocumentReport)
      (outcome? : Option (Except ReportError (List DocumentReport)))

namespace Client

def pass? : Client → Option Nat
  | .begun pass _ | .delaying pass | .sleeping pass | .reporting pass _ _ _ => some pass
  | _ => none

/-- Whether a client shares the lock. Tasks keep it until the last of them is finished. -/
def reads : Client → Bool
  | .delaying _ => true
  | .reporting _ tasks _ outcome? => outcome?.isNone || tasks.any (·.result?.isNone)
  | _ => false

def writes : Client → Bool
  | .writing _ => true
  | _ => false

end Client

structure System where
  session : Session
  clients : Nat → Client

namespace System

/-- Clients that all have yet to start, and a session in which nothing was cancelled. -/
def start (p : Project) (requests : Nat → Request) : System :=
  ⟨{ project := p }, fun i => .idle (requests i)⟩

def NoWriter (s : System) : Prop := ∀ i, (s.clients i).writes = false

def NoReader (s : System) : Prop := ∀ i, (s.clients i).reads = false

end System

def tasksOf (p : Project) : List Task := p.store.sources.entries.map fun (doc, source) =>
  { doc := doc, uri := source.uri }

inductive Action where
  | cancel
  | lockWrite
  | write
  | begin
  | lockRead
  | unlockRead
  | wake
  | spawn
  | look (doc : DocId)
  | finish (doc : DocId)
  | join (doc : DocId)
  | abort (doc : DocId)
  | report

def Action.cancels : Action → Bool
  | .cancel | .begin => true
  | _ => false

/-- What a client can do next, with what becomes of the session and of the client. -/
inductive Act (s : System) : Client → Action → Session → Client → Prop where
  | cancel {e : Edit} : Act s (.idle (.edit e)) .cancel s.session.cancelPass (.editing e)
  | lockWrite {e : Edit} (hwriter : s.NoWriter) (hreader : s.NoReader) :
      Act s (.editing e) .lockWrite s.session (.writing e)
  | write {e : Edit} :
      Act s (.writing e) .write { s.session with project := s.session.project.apply e } .edited
  | begin {delayed : Bool} :
      Act s (.idle (.pass delayed)) .begin s.session.beginPass.1
        (.begun s.session.beginPass.2 delayed)
  | lockRead {pass : Nat} (hwriter : s.NoWriter) :
      Act s (.begun pass true) .lockRead s.session (.delaying pass)
  | unlockRead {pass : Nat} : Act s (.delaying pass) .unlockRead s.session (.sleeping pass)
  | wake {pass : Nat} (hlook : s.session.isCancelled pass = false) :
      Act s (.sleeping pass) .wake s.session (.begun pass false)
  | wakeCancelled {pass : Nat} (hlook : s.session.isCancelled pass = true) :
      Act s (.sleeping pass) .wake s.session (.reporting pass [] [] (some (.error .cancelled)))
  | spawn {pass : Nat} (hwriter : s.NoWriter) :
      Act s (.begun pass false) .spawn s.session
        (.reporting pass (tasksOf s.session.project) [] none)
  | look {pass : Nat} {before after : List Task} {t : Task} {found outcome?}
      (hrun : t.result? = none) (hmore : ∀ report,
        diagnose s.session.project t.doc (some t.looks) ≠ .ok report)
      (hlook : s.session.isCancelled pass = false) :
      Act s (.reporting pass (before ++ t :: after) found outcome?) (.look t.doc) s.session
        (.reporting pass (before ++ { t with looks := t.looks + 1 } :: after) found outcome?)
  | lookCancelled {pass : Nat} {before after : List Task} {t : Task} {found outcome?}
      (hrun : t.result? = none) (hmore : ∀ report,
        diagnose s.session.project t.doc (some t.looks) ≠ .ok report)
      (hlook : s.session.isCancelled pass = true) :
      Act s (.reporting pass (before ++ t :: after) found outcome?) (.look t.doc) s.session
        (.reporting pass
          (before ++ { t with result? := some (diagnose s.session.project t.doc (some t.looks)) } ::
            after) found outcome?)
  | finish {pass : Nat} {before after : List Task} {t : Task} {found outcome?} {report :
      List Diagnostic} (hrun : t.result? = none) (hreport :
        diagnose s.session.project t.doc (some t.looks) = .ok report) :
      Act s (.reporting pass (before ++ t :: after) found outcome?) (.finish t.doc) s.session
        (.reporting pass (before ++ { t with result? := some (.ok report) } ::
          after) found outcome?)
  | join {pass : Nat} {before after : List Task} {t : Task} {found} {report : List Diagnostic}
      (hresult : t.result? = some (.ok report)) :
      Act s (.reporting pass (before ++ t :: after) found none) (.join t.doc) s.session
        (.reporting pass (before ++ after) (found ++ [⟨t.doc, t.uri, report⟩]) none)
  | joinError {pass : Nat} {before after : List Task} {t : Task} {found} {error : ReportError}
      (hresult : t.result? = some (.error error)) :
      Act s (.reporting pass (before ++ t :: after) found none) (.join t.doc) s.session
        (.reporting pass (before ++ after) found (some (.error error)))
  /-- When a pass is over, tasks that have not begun yet are given up. -/
  | abort {pass : Nat} {before after : List Task} {t : Task} {found outcome}
      (hrun : t.result? = none) (hlooks : t.looks = 0) :
      Act s (.reporting pass (before ++ t :: after) found (some outcome)) (.abort t.doc) s.session
        (.reporting pass (before ++ after) found (some outcome))
  | report {pass : Nat} {found : List DocumentReport} :
      Act s (.reporting pass [] found none) .report s.session
        (.reporting pass [] found (some (.ok (found.mergeSort fun a b => a.doc ≤ b.doc))))

/-- One step of one client. -/
inductive Step (s : System) : Nat × Action → System → Prop where
  | act {i : Nat} {a : Action} {session : Session} {c : Client}
      (h : Act s (s.clients i) a session c) : Step s (i, a) ⟨session, Function.update s.clients i c⟩

/-- Steps one after the other, with who did what. -/
inductive Run (s : System) : List (Nat × Action) → System → Prop where
  | nil : Run s [] s
  | snoc {events : List (Nat × Action)} {e : Nat × Action} {m s' : System} (h : Run s events m)
      (hlast : Step m e s') : Run s (events ++ [e]) s'

theorem Run.append {s m s' : System} {events later : List (Nat × Action)} (h : Run s events m)
    (h' : Run m later s') : Run s (events ++ later) s' := by
  induction h' with
  | nil => simpa using h
  | snoc _ hlast ih =>
    rw [← List.append_assoc]
    exact ih.snoc hlast

section Session

variable (s : Session) (uri : Uri) (text : String)

theorem fst_add : (s.add uri text).1 =
    { s.cancelPass with project := s.project.apply (.add uri text) } := rfl

theorem fst_update : (s.update uri text).1 =
    { s.cancelPass with project := s.project.apply (.update uri text) } := by
  rw [Session.update, Project.apply]
  cases s.project.update? uri text <;> rfl

theorem fst_remove : (s.remove uri).1 =
    { s.cancelPass with project := s.project.apply (.remove uri) } := by
  rw [Session.remove, Project.apply]
  cases s.project.remove? uri <;> rfl

end Session

variable {s : System} {c c' : Client} {a : Action} {session : Session}

theorem Act.session_cases (h : Act s c a session c') :
    (a.cancels = false ∧ session.current = s.session.current ∧
      session.cancelled = s.session.cancelled ∧
        c'.pass? = c.pass?) ∨
      (a = .cancel ∧ session = s.session.cancelPass ∧ c'.pass? = none) ∨
        (a = .begin ∧ session = s.session.beginPass.1 ∧ c'.pass? = some s.session.beginPass.2) := by
  cases h with
  | cancel => exact .inr (.inl ⟨rfl, rfl, rfl⟩)
  | begin => exact .inr (.inr ⟨rfl, rfl, rfl⟩)
  | _ => exact .inl ⟨rfl, rfl, rfl, rfl⟩

theorem Act.project_eq (h : Act s c a session c') : session.project = s.session.project ∨
    c.writes = true := by
  cases h with
  | write => exact .inr rfl
  | _ => exact .inl rfl

theorem Act.reads_cases (h : Act s c a session c') : c'.reads = true → c.reads = true ∨
    s.NoWriter := by
  intro hreads
  cases h with
  | lockRead hwriter => exact .inr hwriter
  | spawn hwriter => exact .inr hwriter
  | unlockRead | write | cancel | lockWrite | begin | wake | wakeCancelled =>
    simp [Client.reads] at hreads
  | look hrun => exact .inl (by simp [Client.reads, hrun])
  | lookCancelled hrun => exact .inl (by simp [Client.reads, hrun])
  | finish hrun => exact .inl (by simp [Client.reads, hrun])
  | abort hrun => exact .inl (by simp [Client.reads, hrun])
  | join | joinError | report => exact .inl rfl

theorem Act.writes_cases (h : Act s c a session c') : c'.writes = true → s.NoWriter ∧
    s.NoReader := by
  intro hwrites
  cases h with
  | lockWrite hwriter hreader => exact ⟨hwriter, hreader⟩
  | _ => simp [Client.writes] at hwrites

end LuaAnalysis.Schedule
