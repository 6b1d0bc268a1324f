import LuaAnalysis.Proofs.Syntax.Forest
import LuaAnalysis.Syntax.Tree

/-!
Nodes that are given up before anything was written in them. One that was just opened leaves no
trace. One that was opened around a closed node leaves the distance to itself in the start event of
the closed one, and what comes to stand there next is taken for it: a node that is opened is opened
around the closed one, and anything else is lost.
-/

namespace LuaAnalysis.Syntax

namespace EventLog

theorem size_openNode (log : EventLog) : log.openNode.1.size = log.size + 1 := by
  simp [openNode]

theorem abandon_of_last {log : EventLog} {m : Marker} (h : m.position + 1 = log.size) :
    log.abandon m = log.pop := by
  rw [abandon, if_pos h]

theorem abandon_openNode (log : EventLog) : log.openNode.1.abandon log.openNode.2 = log := by
  rw [abandon_of_last (by rw [position_openNode, size_openNode]), openNode, Array.pop_push]

theorem size_setWrapper (log : EventLog) (position distance : Nat) :
    (log.setWrapper position distance).size = log.size :=
  Array.size_modify

theorem wrap_eq (log : EventLog) (c : ClosedNode) :
    log.wrap c = (log.openNode.1.setWrapper c.position (log.size - c.position),
      log.openNode.2) := by
  rw [← position_openNode]
  rfl

theorem setWrapper_openNode (log : EventLog) {position : Nat} (h : position < log.size)
    (distance : Nat) : log.openNode.1.setWrapper position distance =
    (log.setWrapper position distance).openNode.1 := by
  refine Array.ext_getElem? fun i => ?_
  simp only [setWrapper, openNode, Array.getElem?_modify, Array.getElem?_push, Array.size_modify]
  by_cases hlast : i = log.size
  · simp [hlast, Nat.ne_of_lt h]
  · simp [hlast]

variable {log : EventLog} {c : ClosedNode}

theorem wrap_of_lt (h : c.position < log.size) :
    log.wrap c = (log.setWrapper c.position (log.size - c.position)).openNode := by
  refine Prod.ext ?_ ?_
  · rw [wrap_eq, setWrapper_openNode log h]
  · rw [wrap_eq, Marker.mk.injEq, position_openNode, position_openNode, size_setWrapper]

theorem abandon_wrap (h : c.position < log.size) :
    (log.wrap c).1.abandon (log.wrap c).2 = log.setWrapper c.position (log.size - c.position) := by
  rw [wrap_of_lt h, abandon_openNode]

end EventLog

/-- Two logs of one size that are the same from a position on. -/
structure AgreeFrom (position : Nat) (log log' : EventLog) : Prop where
  size_eq : log.size = log'.size
  get_eq : ∀ i, position ≤ i → log[i]? = log'[i]?

theorem AgreeFrom.mono {position position' : Nat} {log log' : EventLog}
    (h : AgreeFrom position log log') (hle : position ≤ position') : AgreeFrom position' log log' :=
  ⟨h.size_eq, fun i hi => h.get_eq i (Nat.le_trans hle hi)⟩

theorem AgreeFrom.blank {position : Nat} {log log' : EventLog}
    (h : AgreeFrom position log log') (i : Nat) :
    AgreeFrom position (log.setIfInBounds i .blank) (log'.setIfInBounds i .blank) := by
  refine ⟨by simpa using h.size_eq, fun j hj => ?_⟩
  rw [Array.getElem?_setIfInBounds, Array.getElem?_setIfInBounds, h.size_eq, h.get_eq j hj]

namespace TreeBuilder

theorem takeWrappers_none (fuel : Nat) (log : EventLog) (position : Nat) (kinds : List NodeKind) :
    takeWrappers fuel log position none kinds = (log, kinds) := by
  cases fuel <;> rfl

theorem takeWrappers_start {log : EventLog} {position distance : Nat} {kind : NodeKind}
    {wrapper : Option Nat} (h : log[position + distance]? = some (.start kind wrapper)) (fuel : Nat)
    (kinds : List NodeKind) :
    takeWrappers (fuel + 1) log position (some distance) kinds =
      takeWrappers fuel (log.setIfInBounds (position + distance) .blank)
        (position + distance) wrapper (kind :: kinds) := by
  simp only [takeWrappers, h]

theorem takeWrappers_agree {start position : Nat} {log log' : EventLog}
    (h : AgreeFrom start log log') (hposition : start ≤ position) (fuel : Nat)
    (wrapper : Option Nat) (kinds : List NodeKind) :
    AgreeFrom start (takeWrappers fuel log position wrapper kinds).1
    (takeWrappers fuel log' position wrapper kinds).1 ∧
      (takeWrappers fuel log position wrapper kinds).2 =
      (takeWrappers fuel log' position wrapper kinds).2 := by
  induction fuel generalizing log log' position wrapper kinds with
  | zero => exact ⟨h, rfl⟩
  | succ fuel ih =>
    cases wrapper with
    | none => exact ⟨h, rfl⟩
    | some distance =>
      have hnext : start ≤ position + distance := Nat.le_trans hposition (Nat.le_add_right _ _)
      rw [takeWrappers, takeWrappers, h.get_eq _ hnext]
      split
      · exact ih (h.blank _) hnext _ _
      · exact ⟨h.blank _, rfl⟩

theorem replay_agree {position : Nat} {log log' : EventLog} (h : AgreeFrom position log log')
    (b : TreeBuilder) (errors : List SyntaxError) :
    AgreeFrom position (replay log position b errors).1 (replay log' position b errors).1 ∧
      (replay log position b errors).2 = (replay log' position b errors).2 := by
  rw [replay, replay, h.get_eq position (Nat.le_refl _)]
  split
  · rename_i kind wrapper _
    obtain ⟨hlog, hkinds⟩ := takeWrappers_agree h (Nat.le_refl _) log.size wrapper [kind]
    rw [h.size_eq] at hlog hkinds ⊢
    exact ⟨hlog, by simp only [hkinds]⟩
  all_goals exact ⟨h, rfl⟩

theorem replayFrom_succ (count position : Nat) (log : EventLog) (b : TreeBuilder)
    (errors : List SyntaxError) : replayFrom (count + 1) position log b errors =
      replayFrom count (position + 1) (replay log position b errors).1
        (replay log position b errors).2.1 (replay log position b errors).2.2 := rfl

theorem replayFrom_agree {position : Nat} {log log' : EventLog} (h : AgreeFrom position log log')
    (count : Nat) (b : TreeBuilder) (errors : List SyntaxError) :
    replayFrom count position log b errors = replayFrom count position log' b errors := by
  induction count generalizing position log log' b errors with
  | zero => rfl
  | succ count ih =>
    obtain ⟨hlog, hrest⟩ := replay_agree h b errors
    rw [replayFrom_succ, replayFrom_succ, ← hrest]
    exact ih (hlog.mono (Nat.le_succ _)) _ _

end TreeBuilder

/-- Every node that was opened around a closed one comes behind it. -/
def Forward (log : EventLog) : Prop :=
  ∀ (i : Nat) (kind : NodeKind), log[i]? ≠ some (.start kind (some 0))

/-- The first log is the second one, but that a closed node is told of one around it, in whose place
nothing of the kind stands. -/
structure Dangles (position place : Nat) (log log' : EventLog) : Prop where
  size_eq : log.size = log'.size
  place_lt : place < log.size
  behind : position < place
  forward : Forward log
  told : ∃ kind, log[position]? = some (.start kind (some (place - position))) ∧
    log'[position]? = some (.start kind none)
  taken : (∀ kind wrapper, log[place]? ≠ some (.start kind wrapper)) ∨ log[place]? = some .blank
  lost : log'[place]? = some .blank
  others : ∀ i, i ≠ position → i ≠ place → log[i]? = log'[i]?

namespace Dangles

variable {position place : Nat} {log log' : EventLog}

theorem forward_blank (h : Forward log) (i : Nat) : Forward (log.setIfInBounds i .blank) := by
  intro j kind
  rw [Array.getElem?_setIfInBounds]
  split
  · split <;> simp [Event.blank]
  · exact h j kind

theorem blank (h : Dangles position place log log') {i : Nat} (hposition : i ≠ position) :
    Dangles position place (log.setIfInBounds i .blank) (log'.setIfInBounds i .blank) where
  size_eq := by simpa using h.size_eq
  place_lt := by simpa using h.place_lt
  behind := h.behind
  forward := forward_blank h.forward i
  told := by
    obtain ⟨kind, hlog, hlog'⟩ := h.told
    exact ⟨kind, by simpa [Array.getElem?_setIfInBounds, hposition] using hlog,
      by simpa [Array.getElem?_setIfInBounds, hposition] using hlog'⟩
  taken := by
    have hlt := h.place_lt
    by_cases hplace : i = place
    · simp [hplace, hlt]
    · simpa [Array.getElem?_setIfInBounds, hplace] using h.taken
  lost := by
    have hlt := h.size_eq ▸ h.place_lt
    by_cases hplace : i = place
    · simp [hplace, hlt]
    · simpa [Array.getElem?_setIfInBounds, hplace] using h.lost
  others := by
    intro j hj hj'
    rw [Array.getElem?_setIfInBounds, Array.getElem?_setIfInBounds, h.size_eq, h.others j hj hj']

theorem agree_behind (h : Dangles position place log log') :
    AgreeFrom (position + 1) (log.setIfInBounds place .blank) log' := by
  refine ⟨by simpa using h.size_eq, fun i hi => ?_⟩
  by_cases hplace : i = place
  · simp [hplace, h.place_lt, h.lost]
  · rw [Array.getElem?_setIfInBounds, if_neg (Ne.symm hplace), h.others i (Nat.ne_of_gt hi) hplace]

theorem agree_blanked (h : Dangles position place log log') :
    AgreeFrom 0 ((log.setIfInBounds position .blank).setIfInBounds place .blank)
    (log'.setIfInBounds position .blank) := by
  have hlt : position < log.size := Nat.lt_trans h.behind h.place_lt
  refine ⟨by simpa using h.size_eq, fun i _ => ?_⟩
  by_cases hposition : i = position
  · have hplace : place ≠ position := Nat.ne_of_gt h.behind
    simp [hposition, hplace, hlt, h.size_eq ▸ hlt]
  · by_cases hplace : i = place
    · subst hplace
      simp [h.place_lt, Ne.symm hposition, h.lost]
    · simp [Ne.symm hposition, Ne.symm hplace, h.others i hposition hplace]

end Dangles

namespace TreeBuilder

abbrev nodeKinds (kinds : List NodeKind) : List NodeKind := kinds.filter (· != .absent)

theorem takeWrappers_place {log : EventLog} {position distance place : Nat}
    (hplace : position + distance = place)
    (htaken : (∀ kind wrapper, log[place]? ≠ some (.start kind wrapper)) ∨
      log[place]? = some .blank) (fuel : Nat)
    (kinds : List NodeKind) :
    (takeWrappers (fuel + 1) log position (some distance) kinds).1 =
    log.setIfInBounds place .blank ∧
      nodeKinds (takeWrappers (fuel + 1) log position (some distance) kinds).2 =
      nodeKinds kinds := by
  subst hplace
  rcases htaken with hno | hblank
  · rw [takeWrappers]
    split
    · rename_i kind wrapper hget
      exact absurd hget (hno kind wrapper)
    · exact ⟨rfl, rfl⟩
  · rw [takeWrappers_start hblank, takeWrappers_none]
    exact ⟨rfl, rfl⟩

variable {position place : Nat} {log log' : EventLog}

theorem nodeKinds_cons {kind : NodeKind} {kinds kinds' : List NodeKind}
    (h : nodeKinds kinds = nodeKinds kinds') :
    nodeKinds (kind :: kinds) = nodeKinds (kind :: kinds') := by
  rw [nodeKinds, nodeKinds, List.filter_cons, List.filter_cons, ← nodeKinds, ← nodeKinds, h]

theorem takeWrappers_told (h : Dangles position place log log') {start distance : Nat}
    (hposition : start + distance = position) (fuel : Nat) {kinds kinds' : List NodeKind}
    (hkinds : nodeKinds kinds = nodeKinds kinds') :
    AgreeFrom 0 (takeWrappers (fuel + 2) log start (some distance) kinds).1
        (takeWrappers (fuel + 2) log' start (some distance) kinds').1 ∧
      nodeKinds (takeWrappers (fuel + 2) log start (some distance) kinds).2 =
        nodeKinds (takeWrappers (fuel + 2) log' start (some distance) kinds').2 := by
  subst hposition
  obtain ⟨kind, hlog, hlog'⟩ := h.told
  have hne : place ≠ start + distance := Nat.ne_of_gt h.behind
  have htaken : (∀ kind wrapper, (log.setIfInBounds (start + distance) .blank)[place]? ≠
      some (.start kind wrapper)) ∨
      (log.setIfInBounds (start + distance) .blank)[place]? = some .blank := by
    simpa [Array.getElem?_setIfInBounds, hne.symm] using h.taken
  have hleads : start + distance + (place - (start + distance)) = place :=
    Nat.add_sub_of_le (Nat.le_of_lt h.behind)
  obtain ⟨hafter, hopened⟩ := takeWrappers_place hleads htaken fuel (kind :: kinds)
  rw [takeWrappers_start hlog, takeWrappers_start hlog', takeWrappers_none, hafter, hopened]
  exact ⟨h.agree_blanked, nodeKinds_cons hkinds⟩

theorem takeWrappers_dangles (h : Dangles position place log log') {fuel start : Nat}
    (hfuel : log.size ≤ start + fuel) {wrapper : Option Nat} (hwrapper : wrapper ≠ some 0)
    (kinds kinds' : List NodeKind) (hkinds : nodeKinds kinds = nodeKinds kinds') :
    (Dangles position place (takeWrappers fuel log start wrapper kinds).1
      (takeWrappers fuel log' start wrapper kinds').1 ∨
        AgreeFrom 0 (takeWrappers fuel log start wrapper kinds).1
          (takeWrappers fuel log' start wrapper kinds').1) ∧
      nodeKinds (takeWrappers fuel log start wrapper kinds).2 =
      nodeKinds (takeWrappers fuel log' start wrapper kinds').2 := by
  induction fuel generalizing log log' start wrapper kinds kinds' with
  | zero => exact ⟨.inl h, hkinds⟩
  | succ fuel ih =>
    rcases wrapper with _ | distance
    · exact ⟨.inl h, hkinds⟩
    have hdistance : distance ≠ 0 := fun hzero => hwrapper (congrArg some hzero)
    have hlt := h.place_lt
    have hbehind := h.behind
    by_cases hposition : start + distance = position
    · obtain ⟨fuel, rfl⟩ : ∃ n, fuel = n + 1 := ⟨fuel - 1, by omega⟩
      obtain ⟨hlog, hopened⟩ := takeWrappers_told h hposition fuel hkinds
      exact ⟨.inr hlog, hopened⟩
    · by_cases hplace : start + distance = place
      · obtain ⟨hlog, hopened⟩ := takeWrappers_place hplace h.taken fuel kinds
        obtain ⟨hlog', hopened'⟩ := takeWrappers_place hplace (.inr h.lost) fuel kinds'
        rw [hlog, hlog', hopened, hopened']
        exact ⟨.inl (h.blank (by omega)), hkinds⟩
      · rw [takeWrappers, takeWrappers, ← h.others _ hposition hplace]
        split
        · rename_i kind wrapper hget
          have hnext : wrapper ≠ some 0 := by
            rintro rfl
            exact h.forward _ _ hget
          exact ih (h.blank hposition) (by rw [Array.size_setIfInBounds]; omega) hnext _ _
            (nodeKinds_cons hkinds)
        · exact ⟨.inl (h.blank hposition), hkinds⟩

theorem replay_dangles (h : Dangles position place log log') {start : Nat}
    (hstart : start < position) (b : TreeBuilder) (errors : List SyntaxError) :
    (Dangles position place (replay log start b errors).1 (replay log' start b errors).1 ∨
        AgreeFrom 0 (replay log start b errors).1 (replay log' start b errors).1) ∧
      (replay log start b errors).2 = (replay log' start b errors).2 := by
  have hbehind := h.behind
  rw [replay, replay, ← h.others start (by omega) (by omega)]
  split
  · rename_i kind wrapper hget
    have hwrapper : wrapper ≠ some 0 := by
      rintro rfl
      exact h.forward _ _ hget
    obtain ⟨hlog, hkinds⟩ :=
      takeWrappers_dangles h (Nat.le_add_left _ start) hwrapper [kind] [kind] rfl
    simp only [nodeKinds] at hkinds
    rw [← h.size_eq]
    exact ⟨hlog, by simp only [hkinds]⟩
  all_goals exact ⟨.inl h, rfl⟩

theorem replayFrom_dangles (h : Dangles position place log log') (count : Nat) {start : Nat}
    (hstart : start ≤ position) (b : TreeBuilder) (errors : List SyntaxError) :
    replayFrom count start log b errors = replayFrom count start log' b errors := by
  induction count generalizing start log log' b errors with
  | zero => rfl
  | succ count ih =>
    rw [replayFrom_succ, replayFrom_succ]
    rcases Nat.lt_or_eq_of_le hstart with hstart | rfl
    · obtain ⟨hlog, hrest⟩ := replay_dangles h hstart b errors
      rw [← hrest]
      rcases hlog with hlog | hlog
      · exact ih hlog hstart _ _
      · exact replayFrom_agree (hlog.mono (Nat.zero_le _)) _ _ _
    · -- the closed node itself: what the distance leads to is taken away, and nothing looks back at
      -- its start event
      have hlt := h.place_lt
      obtain ⟨kind, hlog, hlog'⟩ := h.told
      obtain ⟨fuel, hfuel⟩ : ∃ n, log.size = n + 1 := ⟨log.size - 1, by omega⟩
      have hleads : start + (place - start) = place := Nat.add_sub_of_le (Nat.le_of_lt h.behind)
      obtain ⟨hafter, hopened⟩ := takeWrappers_place hleads h.taken fuel [kind]
      have hreplay : replay log start b errors =
          (log.setIfInBounds place .blank, (nodeKinds [kind]).foldl openNode b, errors) := by
        simp only [replay, hlog, hfuel, hafter, hopened]
      have hreplay' : replay log' start b errors =
          (log', (nodeKinds [kind]).foldl openNode b, errors) := by
        simp only [replay, hlog', takeWrappers_none]
      rw [hreplay, hreplay']
      exact replayFrom_agree h.agree_behind count _ errors

end TreeBuilder

namespace EventLog

theorem getElem?_continued (log more : EventLog) (e : Event) (i : Nat) : (log.push e ++ more)[i]? =
    if i < log.size then log[i]? else if i = log.size then some e
    else more[i - (log.size + 1)]? := by
  rw [Array.getElem?_append, Array.getElem?_push, Array.size_push]
  split_ifs <;> first | rfl | omega

theorem getElem?_setWrapper_of_ne {log : EventLog} {position i : Nat} (h : i ≠ position)
    (distance : Nat) : (log.setWrapper position distance)[i]? = log[i]? := by
  rw [setWrapper, Array.getElem?_modify, if_neg (Ne.symm h)]

theorem getElem?_setWrapper_self {log : EventLog} {position : Nat} {kind : NodeKind}
    {wrapper : Option Nat} (h : log[position]? = some (.start kind wrapper)) (distance : Nat) :
    (log.setWrapper position distance)[position]? = some (.start kind (some distance)) := by
  rw [setWrapper, Array.getElem?_modify, if_pos rfl, h]
  rfl

theorem dangles_setWrapper {log : EventLog} {position : Nat} {kind : NodeKind}
    (h : log[position]? = some (.start kind none)) {e : Event}
    (he : (∀ kind wrapper, e ≠ .start kind wrapper) ∨ e = .blank) {more : EventLog}
    (hforward : Forward (log.push e ++ more)) :
    Dangles position log.size ((log.setWrapper position (log.size - position)).push e ++ more)
    (log.push .blank ++ more) := by
  obtain ⟨hlt, -⟩ := Array.getElem?_eq_some_iff.1 h
  have hsize := size_setWrapper log position (log.size - position)
  have hself := getElem?_setWrapper_self h (log.size - position)
  have hothers {i : Nat} (hi : i ≠ position) :=
    @getElem?_setWrapper_of_ne log _ _ hi (log.size - position)
  generalize log.setWrapper position (log.size - position) = left at hsize hself hothers
  refine ⟨by simp [hsize], by simp [hsize]; omega, hlt, fun i kind' => ?_, ⟨kind, ?_, ?_⟩, ?_, ?_,
    fun i hi hi' => ?_⟩
  · by_cases hi : i = position
    · rw [getElem?_continued, hi, hsize, if_pos hlt, hself]
      simp
      omega
    · have hnot := hforward i kind'
      rw [getElem?_continued] at hnot ⊢
      rwa [hsize, hothers hi]
  · rw [getElem?_continued, hsize, if_pos hlt, hself]
  · rw [getElem?_continued, if_pos hlt, h]
  · rw [getElem?_continued, hsize, if_neg (Nat.lt_irrefl _), if_pos rfl]
    simpa using he
  · rw [getElem?_continued, if_neg (Nat.lt_irrefl _), if_pos rfl]
  · rw [getElem?_continued, getElem?_continued, hsize, hothers hi, if_neg hi', if_neg hi']

/-- A node that is given up right after it was opened leaves the log as it was, if it was just
opened. If it was opened around a closed node then the log is left with the distance to it. A node
that is opened next is around the closed one then; what is written there otherwise is lost, as it
would be in an empty start event. -/
theorem abandon_untouched (log : EventLog) :
    log.openNode.1.abandon log.openNode.2 = log ∧
      ∀ (c : ClosedNode) (kind : NodeKind), log[c.position]? = some (.start kind none) →
        let left := (log.wrap c).1.abandon (log.wrap c).2
        left = log.setWrapper c.position (log.size - c.position) ∧ left ≠ log ∧
        left.openNode = log.wrap c ∧
          ∀ (e : Event) (more : EventLog), Forward (log.push e ++ more) →
            ((∀ kind wrapper, e ≠ .start kind wrapper) ∨ e = .blank) → ∀ text errors,
              Tree.ofLog text (left.push e ++ more) errors =
              Tree.ofLog text (log.push .blank ++ more) errors := by
  refine ⟨abandon_openNode log, fun c kind h => ?_⟩
  intro left
  obtain ⟨hlt, -⟩ := Array.getElem?_eq_some_iff.1 h
  have hleft : left = log.setWrapper c.position (log.size - c.position) := abandon_wrap hlt
  rw [hleft]
  refine ⟨rfl, fun hsame => ?_, (wrap_of_lt hlt).symm, fun e more hforward he text errors => ?_⟩
  · have hget := congrArg (·[c.position]?) hsame
    simp [setWrapper, Array.getElem?_modify, h] at hget
  · have hdangles := dangles_setWrapper h he hforward
    rw [Tree.ofLog, Tree.ofLog, ← hdangles.size_eq,
      TreeBuilder.replayFrom_dangles hdangles _ (Nat.zero_le _)]

/-- The name that comes behind a closed node is lost. -/
theorem abandon_untouched_name :
    let log : EventLog := #[.start .nameExpr none, .finish]
    let left := (log.wrap ⟨0⟩).1.abandon (log.wrap ⟨0⟩).2
    log[0]? = some (.start .nameExpr none) ∧
      Tree.ofLog "x" (left.push (.token .name ⟨0, 1⟩) ++ #[]) [] =
      Tree.ofLog "x" (log.push .blank ++ #[]) [] := by
  have hforward : Forward (#[.start .nameExpr none, .finish, .token .name ⟨0, 1⟩] : EventLog) := by
    intro i kind
    match i with
    | 0 | 1 | 2 => simp
    | i + 3 => simp
  exact ⟨by simp,
    ((abandon_untouched #[.start .nameExpr none, .finish]).2 ⟨0⟩ .nameExpr rfl).2.2.2 _ #[] hforward
    (.inl (by simp)) "x" []⟩

/-- Opening a node around a closed one and giving it up leaves the log as it was. -/
def Restores (log : EventLog) (c : ClosedNode) : Prop := (log.wrap c).1.abandon (log.wrap c).2 = log

instance (log : EventLog) (c : ClosedNode) : Decidable (Restores log c) :=
  inferInstanceAs (Decidable ((log.wrap c).1.abandon (log.wrap c).2 = log))

/-- The log differs, and so does the tree once a name is written. -/
theorem not_restores_nameExpr :
    let log : EventLog :=
  (EventLog.close (EventLog.openNode #[]).1 (EventLog.openNode #[]).2 .nameExpr).1
    let left := (log.wrap ⟨0⟩).1.abandon (log.wrap ⟨0⟩).2
    log[0]? = some (.start .nameExpr none) ∧ ¬ Restores log ⟨0⟩ ∧
      (Tree.ofLog "x" (log.push (.token .name ⟨0, 1⟩)) []).size = 2 ∧
      (Tree.ofLog "x" (left.push (.token .name ⟨0, 1⟩)) []).size = 1 := by
  decide

end EventLog

end LuaAnalysis.Syntax
