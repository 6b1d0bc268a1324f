import Mathlib.Data.List.Perm.Basic
import LuaAnalysis.Proofs.Report.Cancellation
import LuaAnalysis.Proofs.Session.Schedule
import LuaAnalysis.Proofs.Sorting

/-!
What passes report while others edit. A pass that ends well reports on one state of the workspace,
and nothing was cancelled between its start and the last look of its tasks.
-/

namespace LuaAnalysis.Schedule

open Document Workspace Report Session

def Calm (i : Nat) (events : List (Nat × Action)) : Prop :=
  ∃ before middle, events = before ++ (i, .begin) :: middle ∧ ∀ e ∈ middle, e.2.cancels = false

/-- Nothing was cancelled from when a client started its pass to the last look of its tasks. -/
def CalmToLastLook (i : Nat) (events : List (Nat × Action)) : Prop :=
  ∃ before middle doc after, events = before ++ (i, .begin) :: (middle ++ (i, .look doc) :: after) ∧
    (∀ e ∈ middle, e.2.cancels = false) ∧ ∀ e ∈ after, ∀ doc, e ≠ (i, .look doc)

variable {i : Nat} {events : List (Nat × Action)} {e : Nat × Action}

theorem Calm.snoc (h : Calm i events) (he : e.2.cancels = false) : Calm i (events ++ [e]) := by
  obtain ⟨before, middle, rfl, hmiddle⟩ := h
  refine ⟨before, middle ++ [e], by simp, fun x hx => ?_⟩
  rcases List.mem_append.1 hx with hx | hx
  · exact hmiddle x hx
  · rwa [List.mem_singleton.1 hx]

theorem Calm.look (h : Calm i events) (doc : DocId) :
    CalmToLastLook i (events ++ [(i, .look doc)]) := by
  obtain ⟨before, middle, rfl, hmiddle⟩ := h
  exact ⟨before, middle, doc, [], by simp, hmiddle, by simp⟩

theorem CalmToLastLook.snoc (h : CalmToLastLook i events) (he : ∀ doc, e ≠ (i, .look doc)) :
    CalmToLastLook i (events ++ [e]) := by
  obtain ⟨before, middle, doc, after, rfl, hmiddle, hafter⟩ := h
  refine ⟨before, middle, doc, after ++ [e], by simp, hmiddle, fun x hx => ?_⟩
  rcases List.mem_append.1 hx with hx | hx
  · exact hafter x hx
  · rwa [List.mem_singleton.1 hx]

def Exclusive (s : System) : Prop :=
  ∀ i j, (s.clients i).writes = true → i ≠ j → (s.clients j).writes = false ∧
    (s.clients j).reads = false

variable {s s' : System}

theorem Step.exclusive (h : Step s e s') (hs : Exclusive s) : Exclusive s' := by
  obtain @⟨k, a, session, c, hact⟩ := h
  intro i j hwrites hij
  dsimp only at hwrites ⊢
  by_cases hi : i = k
  · subst hi
    rw [Function.update_self] at hwrites
    rw [Function.update_of_ne (Ne.symm hij)]
    obtain ⟨hwriter, hreader⟩ := hact.writes_cases hwrites
    exact ⟨hwriter j, hreader j⟩
  rw [Function.update_of_ne hi] at hwrites
  have hsome (h : s.NoWriter) : False := by simp [h i] at hwrites
  by_cases hj : j = k
  · subst hj
    rw [Function.update_self]
    refine ⟨?_, ?_⟩
    · by_contra hc
      exact hsome (hact.writes_cases (by simpa using hc)).1
    · by_contra hc
      rcases hact.reads_cases (by simpa using hc) with hreads | hwriter
      · simp [(hs i j hwrites hij).2] at hreads
      · exact hsome hwriter
  · rw [Function.update_of_ne hj]
    exact hs i j hwrites hij

theorem Step.project_eq (h : Step s e s') (hs : Exclusive s) {j : Nat}
    (hreads : (s.clients j).reads = true) : s'.session.project = s.session.project := by
  obtain @⟨k, a, session, c, hact⟩ := h
  rcases hact.project_eq with hproject | hwrites
  · exact hproject
  · by_cases hj : k = j
    · subst hj
      cases hc : s.clients k <;> simp [hc, Client.reads, Client.writes] at hreads hwrites
    · simp [(hs k j hwrites hj).2] at hreads

/-- All passes but the newest one are cancelled, and while the newest one is not, nothing was since
it started. -/
structure Numbered (events : List (Nat × Action)) (s : System) : Prop where
  cancelled : ∀ pass, pass < s.session.current → pass ∈ s.session.cancelled
  pass_le : ∀ i pass, (s.clients i).pass? = some pass → pass ≤ s.session.current
  calm : ∀ i pass, (s.clients i).pass? = some pass → pass ∉ s.session.cancelled → Calm i events

theorem Numbered.eq_current (hs : Numbered events s) {pass : Nat}
    (hi : (s.clients i).pass? = some pass) (hlive : pass ∉ s.session.cancelled) :
    pass = s.session.current := by
  by_contra hne
  have hle := hs.pass_le i pass hi
  exact hlive (hs.cancelled pass (by omega))

theorem Step.numbered (h : Step s e s') (hs : Numbered events s) : Numbered (events ++ [e]) s' := by
  obtain @⟨k, a, session, c, hact⟩ := h
  obtain ⟨hcancels, hcurrent, hcancelled, hpass⟩ | ⟨rfl, rfl, hpass⟩ | ⟨rfl, rfl, hpass⟩ :=
    hact.session_cases
  · have hclient (i : Nat) : (Function.update s.clients k c i).pass? = (s.clients i).pass? := by
      by_cases hi : i = k
      · subst hi
        rw [Function.update_self, hpass]
      · rw [Function.update_of_ne hi]
    refine ⟨?_, fun i pass hi => ?_, fun i pass hi hlive => ?_⟩
    · simpa [hcurrent, hcancelled] using hs.cancelled
    · rw [hclient] at hi
      simpa [hcurrent] using hs.pass_le i pass hi
    · rw [hclient] at hi
      exact (hs.calm i pass hi (by simpa [hcancelled] using hlive)).snoc hcancels
  · -- the newest pass is cancelled now, and there is no other one to speak of
    have hclient (i pass : Nat) (hi : (Function.update s.clients k c i).pass? = some pass) :
        (s.clients i).pass? = some pass := by
      by_cases hik : i = k
      · subst hik
        simp [hpass] at hi
      · rwa [Function.update_of_ne hik] at hi
    refine ⟨fun pass hlt => .tail _ (hs.cancelled pass hlt),
      fun i pass hi => hs.pass_le i pass (hclient i pass hi), ?_⟩
    intro i pass hi hlive
    have hlive : pass ≠ s.session.current ∧ pass ∉ s.session.cancelled := by
      simpa [cancelPass] using hlive
    exact absurd (hs.eq_current (hclient i pass hi) hlive.2) hlive.1
  · have hclient (i pass : Nat) (hik : i ≠ k)
        (hi : (Function.update s.clients k c i).pass? = some pass) : (s.clients i).pass? =
        some pass := by rwa [Function.update_of_ne hik] at hi
    refine ⟨fun pass hlt => ?_, fun i pass hi => ?_, fun i pass hi hlive => ?_⟩
    · rcases Nat.lt_succ_iff_lt_or_eq.1 hlt with hlt | rfl
      · exact .tail _ (hs.cancelled pass hlt)
      · exact .head _
    · by_cases hik : i = k
      · subst hik
        dsimp only at hi
        rw [Function.update_self, hpass, Option.some.injEq] at hi
        exact Nat.le_of_eq hi.symm
      · exact Nat.le_succ_of_le (hs.pass_le i pass (hclient i pass hik hi))
    · by_cases hik : i = k
      · subst hik
        exact ⟨events, [], rfl, by simp⟩
      · have hlive : pass ≠ s.session.current ∧ pass ∉ s.session.cancelled := by
          simpa [beginPass, cancelPass] using hlive
        exact absurd (hs.eq_current (hclient i pass hik hi) hlive.2) hlive.1

def reportOf (p : Project) (d : DocId × Uri) : DocumentReport :=
  ⟨d.1, d.2, (diagnose p d.1 none).toOption.getD []⟩

def wholeReports (p : Project) : List DocumentReport :=
  p.store.sources.entries.map fun entry => reportOf p (entry.1, entry.2.uri)

theorem reports_eq_wholeReports (p : Project) : reports p none = .ok (wholeReports p) := by
  have hall (entries : List (DocId × Source))
      (h : ∀ entry ∈ entries, entry ∈ p.store.sources.entries) : (entries.mapM fun entry => do
        pure (⟨entry.1, entry.2.uri, ← diagnose p entry.1 none⟩ : DocumentReport) :
          Except ReportError _) =
        .ok (entries.map fun entry => reportOf p (entry.1, entry.2.uri)) := by
    induction entries with
    | nil => rfl
    | cons entry rest ih =>
      obtain ⟨hentry, hrest⟩ := List.forall_mem_cons.1 h
      obtain ⟨report, -, -, hreport, -⟩ :=
        exists_looks_diagnose ((p.store.sources.get?_eq_some_iff entry.1 entry.2).2 hentry)
      rw [List.mapM_cons, ih hrest, hreport, List.map_cons]
      simp only [reportOf, hreport]
      rfl
  exact hall _ fun _ => id

theorem pairwise_wholeReports (p : Project) : (wholeReports p).Pairwise fun a b => a.doc < b.doc :=
  List.pairwise_map.2 p.store.sources.ascending

/-- The tasks and reports of a pass are those of the open documents, and what a task found is the
whole report, which took it at least one look. -/
structure Sound (p : Project) (tasks : List Task) (found : List DocumentReport) : Prop where
  perm : (tasks.map (fun t => (t.doc, t.uri)) ++ found.map fun r => (r.doc, r.uri)).Perm
    (p.store.sources.entries.map fun entry => (entry.1, entry.2.uri))
  task : ∀ t ∈ tasks, ∀ report, t.result? = some (.ok report) → 0 < t.looks ∧
    diagnose p t.doc none = .ok report
  found : ∀ r ∈ found, diagnose p r.doc none = .ok r.diagnostics

namespace Sound

variable {p : Project} {before after tasks : List Task} {t : Task} {found : List DocumentReport}

theorem start (p : Project) : Sound p (tasksOf p) [] where
  perm := by simp [tasksOf, Function.comp_def]
  task t ht report hreport := by
    obtain ⟨entry, -, rfl⟩ := List.mem_map.1 ht
    simp at hreport
  found := by simp

theorem replace (h : Sound p (before ++ t :: after) found) {t' : Task} (hdoc : t'.doc = t.doc)
    (huri : t'.uri = t.uri) (ht' : ∀ report, t'.result? = some (.ok report) → 0 < t'.looks ∧
      diagnose p t'.doc none = .ok report) :
    Sound p (before ++ t' :: after) found where
  perm := by simpa [hdoc, huri] using h.perm
  task u hu report hreport := by
    rcases List.mem_append.1 hu with hu | hu
    · exact h.task u (List.mem_append_left _ hu) report hreport
    · rcases List.mem_cons.1 hu with rfl | hu
      · exact ht' report hreport
      · exact h.task u (List.mem_append_right _ (.tail _ hu)) report hreport
  found := h.found

theorem source?_of_mem (h : Sound p tasks found) (ht : t ∈ tasks) :
    ∃ s, p.source? t.doc = some s := by
  have hmem : (t.doc, t.uri) ∈ p.store.sources.entries.map fun entry => (entry.1, entry.2.uri) :=
    h.perm.subset (List.mem_append_left _ (List.mem_map.2 ⟨t, ht, rfl⟩))
  obtain ⟨⟨doc, s⟩, hentry, heq⟩ := List.mem_map.1 hmem
  obtain ⟨rfl, -⟩ := Prod.mk.inj heq
  exact ⟨s, (p.store.sources.get?_eq_some_iff _ s).2 hentry⟩

theorem of_finished (h : Sound p tasks found) (ht : t ∈ tasks) {report : List Diagnostic}
    (hreport : diagnose p t.doc (some t.looks) = .ok report) :
    0 < t.looks ∧ diagnose p t.doc none = .ok report := by
  obtain ⟨s, hs⟩ := h.source?_of_mem ht
  obtain ⟨whole, looks, hpos, hnone, hsome⟩ := exists_looks_diagnose hs
  rw [hsome] at hreport
  split at hreport
  · exact absurd hreport (by simp)
  · rw [hnone]
    exact ⟨by omega, hreport⟩

theorem join (h : Sound p (before ++ t :: after) found) {report : List Diagnostic}
    (hresult : t.result? = some (.ok report)) :
    Sound p (before ++ after) (found ++ [⟨t.doc, t.uri, report⟩]) where
  perm := by
    refine List.Perm.trans ?_ h.perm
    simp only [List.map_append, List.map_cons, List.map_nil, List.append_assoc]
    refine List.Perm.append_left _ ?_
    simpa [List.append_assoc] using (List.perm_append_singleton (t.doc, t.uri)
      (after.map (fun t => (t.doc, t.uri)) ++ found.map fun r => (r.doc, r.uri)))
  task u hu report hreport := by
    refine h.task u ?_ report hreport
    rcases List.mem_append.1 hu with hu | hu
    · exact List.mem_append_left _ hu
    · exact List.mem_append_right _ (.tail _ hu)
  found r hr := by
    rcases List.mem_append.1 hr with hr | hr
    · exact h.found r hr
    · rw [List.mem_singleton.1 hr]
      exact (h.task t (by simp) report hresult).2

theorem reports_eq (h : Sound p [] found) :
    reports p none = .ok (found.mergeSort fun a b => a.doc ≤ b.doc) := by
  have hfound : found.map (fun r => reportOf p (r.doc, r.uri)) = found := by
    refine (List.map_congr_left fun r hr => ?_).trans (List.map_id found)
    simp only [reportOf, h.found r hr]
    rfl
  have hperm : found.Perm (wholeReports p) := by
    have hall := h.perm.map (reportOf p)
    simp only [List.map_nil, List.nil_append, List.map_map, Function.comp_def] at hall
    rwa [hfound] at hall
  have hsame : (found.mergeSort fun a b => a.doc ≤ b.doc).Perm (wholeReports p) :=
    (List.mergeSort_perm _ _).trans hperm
  have hwhole := pairwise_wholeReports p
  rw [reports_eq_wholeReports]
  refine congrArg _ (List.Perm.eq_of_pairwise (fun a b ha hb hab hba => ?_)
    (pairwise_mergeSort_key _ found) (hwhole.imp Nat.le_of_lt) hsame).symm
  have hnodup : ((wholeReports p).map (·.doc)).Nodup :=
    List.pairwise_map.2 (hwhole.imp Nat.ne_of_lt)
  exact List.inj_on_of_nodup_map hnodup (hsame.subset ha) hb (Nat.le_antisymm hab hba)

end Sound

def AllSound (s : System) : Prop :=
  ∀ i pass tasks found, s.clients i = .reporting pass tasks found none →
    Sound s.session.project tasks found

theorem Act.sound {c c' : Client} {a : Action} {session : Session} (h : Act s c a session c')
    (hc : ∀ pass tasks found, c = .reporting pass tasks found none →
      Sound s.session.project tasks found) :
    ∀ pass tasks found, c' = .reporting pass tasks found none →
    Sound session.project tasks found := by
  intro pass tasks found hc'
  cases h with
  | spawn =>
    cases hc'
    exact .start _
  | look hrun hmore =>
    cases hc'
    exact (hc _ _ _ rfl).replace rfl rfl fun report hreport =>
      absurd (hrun.symm.trans hreport) (by simp)
  | lookCancelled hrun hmore =>
    cases hc'
    exact (hc _ _ _ rfl).replace rfl rfl fun report hreport =>
      absurd (Option.some.inj hreport) (hmore report)
  | finish hrun hreport =>
    cases hc'
    have hfinished := (hc _ _ _ rfl).of_finished (List.mem_append_right _ (.head _)) hreport
    refine (hc _ _ _ rfl).replace rfl rfl fun report heq => ?_
    obtain rfl := Except.ok.inj (Option.some.inj heq)
    exact hfinished
  | join hresult =>
    cases hc'
    exact (hc _ _ _ rfl).join hresult
  | _ => cases hc'

theorem Step.allSound (h : Step s e s') (hlock : Exclusive s) (hs : AllSound s) : AllSound s' := by
  have hproject {j : Nat} := h.project_eq hlock (j := j)
  obtain @⟨k, a, session, c, hact⟩ := h
  intro i pass tasks found hi
  dsimp only at hi hproject ⊢
  by_cases hik : i = k
  · subst hik
    rw [Function.update_self] at hi
    exact hact.sound (hs i) pass tasks found hi
  · rw [Function.update_of_ne hik] at hi
    rw [hproject (by rw [hi]; rfl)]
    exact hs i pass tasks found hi

def Looked (events : List (Nat × Action)) (s : System) : Prop :=
  ∀ i pass tasks found, s.clients i = .reporting pass tasks found none →
    (∃ t ∈ tasks, 0 < t.looks) ∨ found ≠ [] →
    CalmToLastLook i events ∨ ∃ t ∈ tasks, ∃ error, t.result? = some (.error error)

theorem Step.looked (h : Step s e s') (hnumbered : Numbered events s) (hsound : AllSound s)
    (hs : Looked events s) : Looked (events ++ [e]) s' := by
  obtain @⟨k, a, session, c, hact⟩ := h
  intro i pass tasks found hi hlooked
  dsimp only at hi
  by_cases hik : i = k
  · subst hik
    rw [Function.update_self] at hi
    have hlive := hnumbered.calm i pass
    have hold := hs i
    have hsound := hsound i
    generalize s.clients i = before at hact hlive hold hsound
    cases hact with
    | spawn =>
      cases hi
      simp [tasksOf] at hlooked
    | look hrun hmore hlook =>
      cases hi
      exact .inl ((hlive rfl (by simpa [isCancelled] using hlook)).look _)
    | lookCancelled hrun hmore hlook =>
      cases hi
      refine .inr ⟨_, List.mem_append_right _ (.head _), ?_⟩
      cases hresult : diagnose s.session.project _ _ with
      | ok report => exact absurd hresult (hmore report)
      | error error => exact ⟨error, rfl⟩
    | @finish _ before after t _ _ _ hrun hreport =>
      cases hi
      have hfinished := (hsound _ _ _ rfl).of_finished (List.mem_append_right _ (.head _)) hreport
      refine (hold _ _ _ rfl (.inl ⟨t, by simp, hfinished.1⟩)).imp
        (·.snoc fun _ heq => by cases heq) ?_
      rintro ⟨u, hu, error, herror⟩
      have hne : u ≠ t := by
        rintro rfl
        exact absurd (hrun.symm.trans herror) (by simp)
      have hu : u ∈ before ∨ u ∈ after := by simpa [hne] using hu
      exact ⟨u, by rcases hu with hu | hu <;> simp [hu], error, herror⟩
    | @join _ before after t found _ hresult =>
      cases hi
      have hlooks := ((hsound _ _ _ rfl).task t (by simp) _ hresult).1
      refine (hold _ _ _ rfl (.inl ⟨t, by simp, hlooks⟩)).imp (·.snoc fun _ heq => by cases heq) ?_
      rintro ⟨u, hu, error, herror⟩
      have hne : u ≠ t := by
        rintro rfl
        exact absurd (hresult.symm.trans herror) (by simp)
      exact ⟨u, by simpa [hne] using hu, error, herror⟩
    | _ => cases hi
  · rw [Function.update_of_ne hik] at hi
    refine (hs i pass tasks found hi hlooked).imp_left fun hcalm => hcalm.snoc fun doc heq => ?_
    exact hik (congrArg Prod.fst heq).symm

end LuaAnalysis.Schedule
