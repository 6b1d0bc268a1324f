import LuaAnalysis.Proofs.Session.Passes

namespace LuaAnalysis.Schedule

open Document Workspace Report Session

variable {i : Nat} {events : List (Nat × Action)} {e : Nat × Action} {s₀ s s' : System}

def Answered (s₀ : System) (events : List (Nat × Action)) (s : System) : Prop :=
  ∀ i pass tasks found rs, s.clients i = .reporting pass tasks found (some (.ok rs)) → tasks = [] ∧
    ∃ before after m, events = before ++ after ∧ Run s₀ before m ∧ Run m after s ∧
      m.clients i = .reporting pass [] found none ∧ reports m.session.project none = .ok rs ∧
        (m.session.project.openDocs ≠ [] → CalmToLastLook i events)

/-- What is kept by every step of every client. -/
structure Kept (s₀ : System) (events : List (Nat × Action)) (s : System) : Prop where
  run : Run s₀ events s
  exclusive : Exclusive s
  numbered : Numbered events s
  sound : AllSound s
  looked : Looked events s
  answered : Answered s₀ events s

theorem Kept.start (p : Project) (requests : Nat → Request) :
    Kept (.start p requests) [] (.start p requests) where
  run := .nil
  exclusive i j hwrites := by simp [System.start, Client.writes] at hwrites
  numbered :=
    ⟨by simp [System.start], by simp [System.start, Client.pass?], by simp [System.start,
      Client.pass?]⟩
  sound i pass tasks found hi := by cases hi
  looked i pass tasks found hi := by cases hi
  answered i pass tasks found rs hi := by cases hi

theorem reports_eq_nil_iff (p : Project) : reports p none = .ok [] ↔ p.openDocs = [] := by
  simp [reports_eq_wholeReports, wholeReports, Project.openDocs]

theorem Kept.answered_step (h : Kept s₀ events s) (hstep : Step s e s') :
    Answered s₀ (events ++ [e]) s' := by
  have hlast := hstep
  obtain @⟨k, a, session, c, hact⟩ := hstep
  intro i pass tasks found rs hi
  dsimp only at hi
  by_cases hik : i = k
  · subst hik
    rw [Function.update_self] at hi
    have hsound := h.sound i
    have hlooked := h.looked i
    have hold := h.answered i
    -- the client was done before, unless this step is its report
    cases hc : s.clients i with
    | reporting pass' tasks' found' outcome? =>
      rw [hc] at hact
      cases hact with
      | report =>
        cases hi
        have hsound := hsound _ _ _ hc
        refine ⟨rfl, events, [(i, .report)], s, rfl, h.run, .snoc .nil hlast, hc, hsound.reports_eq,
          fun hopen => ?_⟩
        have hfound : found ≠ [] := by
          rintro rfl
          exact hopen ((reports_eq_nil_iff _).1 (by simpa using hsound.reports_eq))
        rcases hlooked _ _ _ hc (.inr hfound) with hcalm | ⟨t, ht, -⟩
        · exact hcalm.snoc fun doc heq => by cases heq
        · nomatch ht
      | joinError => cases hi
      | join => cases hi
      | _ =>
        cases hi
        exact absurd (hold _ _ _ _ hc).1 (by simp)
    | _ =>
      rw [hc] at hact
      cases hact <;> cases hi
  · rw [Function.update_of_ne hik] at hi
    obtain ⟨rfl, before, after, m, rfl, hbefore, hafter, hm, hreports, hcalm⟩ :=
      h.answered i pass tasks found rs hi
    refine ⟨rfl, before, after ++ [(k, a)], m, by simp, hbefore, hafter.snoc hlast, hm, hreports,
      fun hopen => ?_⟩
    exact (hcalm hopen).snoc fun doc heq => hik (congrArg Prod.fst heq).symm

theorem Kept.step (h : Kept s₀ events s) (hstep : Step s e s') : Kept s₀ (events ++ [e]) s' where
  run := h.run.snoc hstep
  exclusive := hstep.exclusive h.exclusive
  numbered := hstep.numbered h.numbered
  sound := hstep.allSound h.exclusive h.sound
  looked := hstep.looked h.numbered h.sound h.looked
  answered := h.answered_step hstep

theorem Run.kept {p : Project} {requests : Nat → Request} (h : Run (.start p requests) events s) :
    Kept (.start p requests) events s := by
  induction h with
  | nil => exact .start p requests
  | snoc _ hlast ih => exact ih.step hlast

section Alone

variable {session : Session} {clients : Nat → Client} {pass : Nat} {tasks : List Task} {t : Task}
  {found : List DocumentReport} {c c' : Client} {a : Action}

theorem Step.update (h : Act ⟨session, Function.update clients i c⟩ c a session c') :
    Step ⟨session, Function.update clients i c⟩ (i, a) ⟨session, Function.update clients i c'⟩ := by
  have hstep : Step ⟨session, Function.update clients i c⟩ (i, a) _ := .act (by simpa using h)
  rwa [Function.update_idem] at hstep

theorem exists_run_looks (i : Nat) (clients : Nat → Client) (tasks : List Task)
    (found : List DocumentReport) (hlive : session.isCancelled pass = false)
    (hrun : t.result? = none) (n : Nat)
    (hmore : ∀ k < n, ∀ report, diagnose session.project t.doc (some (t.looks + k)) ≠ .ok report) :
    ∃ events, Run ⟨session,
      Function.update clients i (.reporting pass (t :: tasks) found none)⟩ events ⟨session,
      Function.update clients i
        (.reporting pass ({ t with looks := t.looks + n } :: tasks) found none)⟩ := by
  induction n with
  | zero => exact ⟨[], .nil⟩
  | succ n ih =>
    obtain ⟨events, hevents⟩ := ih fun k hk => hmore k (Nat.lt_succ_of_lt hk)
    exact ⟨_,
      hevents.snoc (.update (@Act.look _ _ [] _ _ _ _ hrun (hmore n (Nat.lt_succ_self n)) hlive))⟩

theorem exists_run_task (i : Nat) (clients : Nat → Client) (tasks : List Task)
    (found : List DocumentReport) (hlive : session.isCancelled pass = false)
    (hrun : t.result? = none) (hlooks : t.looks = 0)
    {source : Source} (hsource : session.project.source? t.doc = some source) :
    ∃ events report, Run ⟨session,
      Function.update clients i (.reporting pass (t :: tasks) found none)⟩ events ⟨session,
      Function.update clients i
        (.reporting pass tasks (found ++ [⟨t.doc, t.uri, report⟩]) none)⟩ := by
  obtain ⟨report, looks, -, -, hsome⟩ := exists_looks_diagnose hsource
  obtain ⟨events, hevents⟩ :=
    exists_run_looks i clients tasks found hlive hrun looks fun k hk report => by
      simp [hlooks, hsome, hk]
  have hreport : diagnose session.project t.doc (some (t.looks + looks)) = .ok report := by
    simp [hlooks, hsome]
  have hfinish := hevents.snoc (.update (@Act.finish _ _ [] _ _ _ _ _ hrun hreport))
  exact ⟨_, report, hfinish.snoc (.update (@Act.join _ _ [] _ _ _ _ rfl))⟩

theorem exists_run_tasks (session : Session) (i : Nat) (clients : Nat → Client)
    (found : List DocumentReport) (hlive : session.isCancelled pass = false)
    (htasks : ∀ t ∈ tasks, t.result? = none ∧ t.looks = 0 ∧
      ∃ source, session.project.source? t.doc = some source) :
    ∃ events found', Run ⟨session,
      Function.update clients i (.reporting pass tasks found none)⟩ events ⟨session,
      Function.update clients i (.reporting pass [] found' none)⟩ := by
  induction tasks generalizing found with
  | nil => exact ⟨[], found, .nil⟩
  | cons t rest ih =>
    obtain ⟨⟨hrun, hlooks, source, hsource⟩, hrest⟩ := List.forall_mem_cons.1 htasks
    obtain ⟨events, report, hevents⟩ :=
      exists_run_task i clients rest found hlive hrun hlooks hsource
    obtain ⟨later, found', hlater⟩ := ih (found ++ [⟨t.doc, t.uri, report⟩]) hrest
    exact ⟨_, found', hevents.append hlater⟩

end Alone

/-- A pass comes to its end when nothing happens but its own steps, and returns what it returns
without the steps. -/
theorem exists_run_diagnoseAll (p : Project) (i : Nat) :
    ∃ events s found rs, Run (.start p fun _ => .pass false) events s ∧
      s.clients i = .reporting 1 [] found (some (.ok rs)) ∧
        diagnoseAll ⟨p, 0, []⟩ = (s.session, .ok rs) := by
  let clients : Nat → Client := fun _ => .idle (.pass false)
  let begun : System := ⟨(beginPass ⟨p, 0, []⟩).1, Function.update clients i (.begun 1 false)⟩
  have hbegin : Step (.start p fun _ => .pass false) (i, .begin) begun := .act .begin
  have hwriter : begun.NoWriter := by
    intro j
    by_cases hj : j = i
    · subst hj
      simp [begun, Client.writes]
    · simp [begun, clients, hj, Client.writes]
  have hlive : begun.session.isCancelled 1 = false := rfl
  have hspawn := (Run.snoc .nil hbegin).snoc (.update (.spawn hwriter))
  have htasks : ∀ t ∈ tasksOf p, t.result? = none ∧ t.looks = 0 ∧
      ∃ source, p.source? t.doc = some source := by
    intro t ht
    obtain ⟨⟨doc, source⟩, hentry, rfl⟩ := List.mem_map.1 ht
    exact ⟨rfl, rfl, source, (p.store.sources.get?_eq_some_iff doc source).2 hentry⟩
  obtain ⟨events, found, hcollect⟩ := exists_run_tasks begun.session i clients [] hlive htasks
  have hall := hspawn.append hcollect
  have hreports := (hall.kept.sound i 1 [] found (by simp)).reports_eq
  refine ⟨_, _, found, found.mergeSort fun a b => a.doc ≤ b.doc, hall.snoc (.update .report), ?_,
    Prod.ext rfl hreports⟩
  exact Function.update_self i _ clients

/-- However clients take turns, all passes but the newest one are cancelled at any time, and a pass
that ends well has the reports of one state of the workspace. If there was something to report on,
no edit and no other pass has cancelled anything between the start of the pass and the last look of
its tasks. -/
theorem run_passes (p : Project) (requests : Nat → Request) {events : List (Nat × Action)}
    {s : System} (h : Run (.start p requests) events s) :
    (∀ pass < s.session.current, s.session.isCancelled pass = true) ∧
      (∀ i pass, (s.clients i).pass? = some pass → pass ≠ s.session.current →
        s.session.isCancelled pass = true) ∧
        ∀ i pass tasks found rs, s.clients i = .reporting pass tasks found (some (.ok rs)) →
          ∃ before after m, events = before ++ after ∧ Run (.start p requests) before m ∧
          Run m after s ∧
            m.clients i = .reporting pass [] found none ∧ reports m.session.project none = .ok rs ∧
              (m.session.project.openDocs ≠ [] → CalmToLastLook i events) := by
  have hkept := h.kept
  have hcancelled (pass : Nat) (hlt : pass < s.session.current) :
      s.session.isCancelled pass = true :=
    List.contains_iff_mem.2 (hkept.numbered.cancelled pass hlt)
  refine ⟨hcancelled, fun i pass hi hne => hcancelled pass ?_, fun i pass tasks found rs hi => ?_⟩
  · exact Nat.lt_of_le_of_ne (hkept.numbered.pass_le i pass hi) hne
  · exact (hkept.answered i pass tasks found rs hi).2

theorem run_passes_assignment :
    ∃ events s found rs,
    Run (.start ((Project.ofSettings {}).add ⟨"file:///t.lua", "/t.lua"⟩ "x = y").1
        fun _ => .pass false) events s ∧
      s.clients 0 = .reporting 1 [] found (some (.ok rs)) ∧ rs ≠ [] ∧ CalmToLastLook 0 events := by
  have hopened := Project.source?_add (Project.ofSettings {}) ⟨"file:///t.lua", "/t.lua"⟩ "x = y"
  generalize Project.add _ _ _ = opened at hopened
  obtain ⟨events, s, found, rs, hrun, hi, hall⟩ := exists_run_diagnoseAll opened.1 0
  have hreports : reports opened.1 none = .ok rs := congrArg Prod.snd hall
  have hrs : rs ≠ [] := by
    rintro rfl
    have hnone := (reports_eq_nil_iff _).1 hreports
    have hmem := (opened.1.store.sources.get?_eq_some_iff _ _).1 hopened
    simp [Project.openDocs] at hnone
    simp [hnone] at hmem
  obtain ⟨-, -, hanswer⟩ := run_passes opened.1 _ hrun
  obtain ⟨before, after, m, -, -, -, -, hm, hcalm⟩ := hanswer 0 1 [] found rs hi
  refine ⟨events, s, found, rs, hrun, hi, hrs, hcalm fun hopen => hrs ?_⟩
  exact Except.ok.inj (hm.symm.trans ((reports_eq_nil_iff _).2 hopen))

end LuaAnalysis.Schedule
