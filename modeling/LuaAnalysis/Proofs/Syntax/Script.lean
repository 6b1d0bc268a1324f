import Mathlib.Data.List.Nodup
import LuaAnalysis.Proofs.Syntax.Balance

/-!
What the events of a log do when a tree is built from it. A start event opens its node with all that
come around it, and does nothing when one before it has opened its node.
-/

namespace LuaAnalysis.Syntax

/-- A step of building a tree, with nodes known by the positions of their start events. -/
inductive Act where
  | enter (position : Nat)
  | token (kind : TokenKind) (span : Span)
  | leave
deriving DecidableEq

namespace Act

def run (kinds : Nat → NodeKind) (b : TreeBuilder) : Act → TreeBuilder
  | .enter position => b.openNode (kinds position)
  | .token kind span => b.token kind span
  | .leave => b.finishNode

def position? : Act → Option Nat
  | .enter position => some position
  | _ => none

def entered (acts : List Act) : List Nat := acts.filterMap position?

theorem entered_append (xs ys : List Act) : entered (xs ++ ys) = entered xs ++ entered ys :=
  List.filterMap_append

theorem mem_entered {acts : List Act} {p : Nat} : p ∈ entered acts ↔ .enter p ∈ acts := by
  rw [entered, List.mem_filterMap]
  constructor
  · rintro ⟨act, hact, hp⟩
    cases act with
    | enter q => exact Option.some.inj hp ▸ hact
    | token => cases hp
    | leave => cases hp
  · intro h
    exact ⟨_, h, rfl⟩

theorem entered_enter (ps : List Nat) : entered (ps.map .enter) = ps := by
  rw [entered, List.filterMap_map]
  exact List.filterMap_some

end Act

open Act (entered mem_entered)

def Event.unnamed : Event → Event
  | .start _ wrapper => .start .absent wrapper
  | e => e

theorem Event.eq_of_unnamed {e : Option Event} {e' : Event} (h : e.map unnamed = some e'.unnamed) :
    e = some e' ∨ ∃ kind kind' wrapper, e = some (.start kind wrapper) ∧
    e' = .start kind' wrapper := by
  obtain ⟨e, rfl, h⟩ := Option.map_eq_some_iff.1 h
  cases e <;> cases e' <;> simp_all [unnamed]

theorem Event.exists_start {e : Option Event} {kind : NodeKind} {wrapper : Option Nat}
    (h : e.map unnamed = some (Event.start kind wrapper).unnamed) :
    ∃ kind, e = some (.start kind wrapper) := by
  rcases eq_of_unnamed h with rfl | ⟨kind', _, _, rfl, heq⟩
  · exact ⟨kind, rfl⟩
  · cases heq
    exact ⟨kind', rfl⟩

/-- The start events of the nodes around a node, innermost first, and how far it is to the first of
them. -/
inductive Wraps (log : EventLog) : Nat → Option Nat → List Nat → Prop where
  | nil (p : Nat) : Wraps log p none []
  | cons {p d : Nat} {kind : NodeKind} {wrapper : Option Nat} {qs : List Nat} (hd : 0 < d)
      (hget : log[p + d]? = some (.start kind wrapper)) (h : Wraps log (p + d) wrapper qs) :
      Wraps log p (some d) ((p + d) :: qs)

namespace Wraps

variable {log log' : EventLog} {p : Nat} {wrapper : Option Nat} {qs : List Nat}

theorem lt (h : Wraps log p wrapper qs) : ∀ q ∈ qs, p < q := by
  induction h with
  | nil => simp
  | cons hd _ _ ih =>
    intro q hq
    rcases List.mem_cons.1 hq with rfl | hq
    · omega
    · have := ih q hq
      omega

theorem start (h : Wraps log p wrapper qs) :
    ∀ q ∈ qs, ∃ kind wrapper, log[q]? = some (.start kind wrapper) := by
  induction h with
  | nil => simp
  | cons _ hget _ ih => exact List.forall_mem_cons.2 ⟨⟨_, _, hget⟩, ih⟩

theorem congr (h : Wraps log p wrapper qs)
    (hlog : ∀ q ∈ qs, log'[q]?.map Event.unnamed = log[q]?.map Event.unnamed) :
    Wraps log' p wrapper qs := by
  induction h with
  | nil => exact .nil _
  | @cons p d kind wrapper qs hd hget _ ih =>
    obtain ⟨hq, hqs⟩ := List.forall_mem_cons.1 hlog
    rw [hget] at hq
    obtain ⟨kind', hget'⟩ := Event.exists_start hq
    exact .cons hd hget' (ih hqs)

theorem length_lt (h : Wraps log p wrapper qs) (hp : p < log.size) : p + qs.length < log.size := by
  induction h with
  | nil => exact hp
  | cons hd hget _ ih =>
    have := ih (Array.getElem?_eq_some_iff.1 hget).1
    rw [List.length_cons]
    omega

end Wraps

def EventLog.blankAt (log : EventLog) (qs : List Nat) : EventLog :=
  qs.foldl (fun log q => log.setIfInBounds q .blank) log

theorem EventLog.getElem?_blankAt (log : EventLog) (qs : List Nat) (i : Nat) :
    (log.blankAt qs)[i]? = if i ∈ qs ∧ i < log.size then some .blank else log[i]? := by
  induction qs generalizing log with
  | nil => simp [blankAt]
  | cons q qs ih =>
    have hcons : log.blankAt (q :: qs) = EventLog.blankAt (log.setIfInBounds q .blank) qs := rfl
    rw [hcons, ih, Array.size_setIfInBounds, Array.getElem?_setIfInBounds]
    by_cases hq : q = i
    · subst hq
      by_cases hi : q < log.size
      · simp [hi]
      · simp [hi]
    · simp [hq, Ne.symm hq]

theorem TreeBuilder.takeWrappers_wraps {log : EventLog} {p : Nat} {wrapper : Option Nat}
    {qs : List Nat} (h : Wraps log p wrapper qs) {fuel : Nat} (hfuel : qs.length ≤ fuel)
    (kinds : List NodeKind) :
    takeWrappers fuel log p wrapper kinds =
    (log.blankAt qs, (qs.map fun q => log.kindOf ⟨q⟩).reverse ++ kinds) := by
  induction qs generalizing log p wrapper fuel kinds with
  | nil =>
    cases h
    cases fuel <;> rfl
  | cons q qs ih =>
    cases h with
    | @cons _ d kind wrapper _ hd hget h =>
      obtain ⟨fuel, rfl⟩ : ∃ n, fuel = n + 1 := ⟨fuel - 1, by simp at hfuel; omega⟩
      have hother : ∀ i ∈ qs, (log.setIfInBounds (p + d) .blank)[i]? = log[i]? := fun i hi =>
        Array.getElem?_setIfInBounds_ne (Nat.ne_of_lt (h.lt i hi))
      have hkinds : (qs.map fun q => EventLog.kindOf (log.setIfInBounds (p + d) .blank) ⟨q⟩) =
          qs.map fun q => log.kindOf ⟨q⟩ :=
        List.map_congr_left fun i hi => by rw [EventLog.kindOf, hother i hi, EventLog.kindOf]
      have hkind : log.kindOf ⟨p + d⟩ = kind := by rw [EventLog.kindOf, hget]
      rw [takeWrappers]
      simp only [hget]
      rw [ih (h.congr fun i hi => congrArg _ (hother i hi)) (Nat.le_of_succ_le_succ hfuel), hkinds,
        List.map_cons, hkind]
      simp [EventLog.blankAt]

inductive Does (log : EventLog) (position : Nat) : List Act → Prop where
  | token {kind : TokenKind} {span : Span} (hget : log[position]? = some (.token kind span)) :
      Does log position [.token kind span]
  | leave (hget : log[position]? = some .finish) : Does log position [.leave]
  | enter {kind : NodeKind} {wrapper : Option Nat} {qs : List Nat}
      (hget : log[position]? = some (.start kind wrapper)) (h : Wraps log position wrapper qs) :
      Does log position ((position :: qs).reverse.map .enter)

namespace Does

variable {log log' : EventLog} {position : Nat} {acts : List Act}

theorem start (h : Does log position acts) :
    ∀ q ∈ entered acts, position ≤ q ∧ ∃ kind wrapper, log[q]? = some (.start kind wrapper) := by
  cases h with
  | token => simp [entered, Act.position?]
  | leave => simp [entered, Act.position?]
  | enter hget h =>
    intro q hq
    rw [Act.entered_enter, List.mem_reverse, List.mem_cons] at hq
    rcases hq with rfl | hq
    · exact ⟨Nat.le_refl _, _, _, hget⟩
    · exact ⟨Nat.le_of_lt (h.lt q hq), h.start q hq⟩

theorem mem_entered (h : Does log position acts) {kind : NodeKind} {wrapper : Option Nat}
    (hget : log[position]? = some (.start kind wrapper)) : position ∈ entered acts := by
  cases h with
  | token hget' => cases hget.symm.trans hget'
  | leave hget' => cases hget.symm.trans hget'
  | enter =>
    rw [Act.entered_enter, List.mem_reverse]
    exact List.mem_cons_self

theorem congr (h : Does log position acts)
    (hposition : log'[position]?.map Event.unnamed = log[position]?.map Event.unnamed)
    (hlog : ∀ q ∈ entered acts, log'[q]?.map Event.unnamed = log[q]?.map Event.unnamed) :
    Does log' position acts := by
  cases h with
  | token hget =>
    rw [hget] at hposition
    rcases Event.eq_of_unnamed hposition with hget' | ⟨_, _, _, _, heq⟩
    · exact .token hget'
    · cases heq
  | leave hget =>
    rw [hget] at hposition
    rcases Event.eq_of_unnamed hposition with hget' | ⟨_, _, _, _, heq⟩
    · exact .leave hget'
    · cases heq
  | enter hget h =>
    rw [hget] at hposition
    obtain ⟨kind', hget'⟩ := Event.exists_start hposition
    rw [Act.entered_enter] at hlog
    refine .enter hget' (h.congr fun q hq => hlog q ?_)
    rw [List.mem_reverse]
    exact .tail _ hq

end Does

/-- What is still to be done from a position on. What was opened before its turn is out of the log,
or will be. -/
structure Follows (kinds : Nat → NodeKind) (log : EventLog) (position : Nat)
    (script : List (List Act)) : Prop where
  does : ∀ j acts, script[j]? = some acts → acts ≠ [] → Does log (position + j) acts
  taken : ∀ j, script[j]? = some [] → log[position + j]? = some .blank ∨
    ∃ i acts, i < j ∧ script[i]? = some acts ∧ position + j ∈ entered acts
  nodup : (entered script.flatten).Nodup
  kinds_eq : ∀ q ∈ entered script.flatten, log.kindOf ⟨q⟩ = kinds q ∧ kinds q ≠ .absent

namespace Follows

variable {kinds : Nat → NodeKind} {log log' : EventLog} {position : Nat} {acts : List Act}
  {script : List (List Act)}

theorem tail (h : Follows kinds log position (acts :: script))
    (hstart : ∀ q ∈ entered acts, ∃ kind wrapper, log[q]? = some (.start kind wrapper))
    (hlog : ∀ i, i ∉ entered acts → log'[i]? = log[i]?)
    (hblank : ∀ q ∈ entered acts, q ≠ position → log'[q]? = some .blank) :
    Follows kinds log' (position + 1) script := by
  have hnodup := h.nodup
  rw [List.flatten_cons, Act.entered_append] at hnodup
  have hrest := List.Nodup.of_append_right hnodup
  have hdisjoint := List.disjoint_of_nodup_append hnodup
  have hbehind : ∀ j, position + (j + 1) = position + 1 + j := fun j => by omega
  have hlater : ∀ q ∈ entered script.flatten, log'[q]? = log[q]? := fun q hq =>
    hlog q fun hq' => hdisjoint hq' hq
  constructor
  · intro j acts' hacts hne
    have hdoes := h.does (j + 1) acts' hacts hne
    rw [hbehind] at hdoes
    have hmem : ∀ q ∈ entered acts', q ∈ entered script.flatten := fun q hq =>
      mem_entered.2 (List.mem_flatten.2 ⟨acts', List.mem_of_getElem? hacts, mem_entered.1 hq⟩)
    refine hdoes.congr (congrArg _ (hlog _ fun htaken => ?_)) fun q hq =>
      congrArg _ (hlater q (hmem q hq))
    -- a node that is entered here is not entered before
    obtain ⟨kind, wrapper, hget⟩ := hstart _ htaken
    exact hdisjoint htaken (hmem _ (hdoes.mem_entered hget))
  · intro j hacts
    have htaken := h.taken (j + 1) hacts
    rw [hbehind] at htaken
    by_cases hmem : position + 1 + j ∈ entered acts
    · exact .inl (hblank _ hmem (by omega))
    · rw [hlog _ hmem]
      refine htaken.imp_right ?_
      rintro ⟨i, acts', hi, hget, hentered⟩
      cases i with
      | zero =>
        obtain rfl := Option.some.inj hget
        exact absurd hentered hmem
      | succ i => exact ⟨i, acts', Nat.lt_of_succ_lt_succ hi, hget, hentered⟩
  · exact hrest
  · intro q hq
    have hkind :=
      h.kinds_eq q (by rw [List.flatten_cons, Act.entered_append]; exact List.mem_append_right _ hq)
    rwa [EventLog.kindOf, hlater q hq]

theorem replay (h : Follows kinds log position (acts :: script)) (b : TreeBuilder)
    (errors : List SyntaxError) : ∃ log', TreeBuilder.replay log position b errors =
    (log', acts.foldl (Act.run kinds) b, errors) ∧
      Follows kinds log' (position + 1) script := by
  by_cases hne : acts = []
  · subst hne
    have hblank : log[position]? = some .blank := by
      rcases h.taken 0 rfl with hblank | ⟨i, -, hi, -⟩
      · exact hblank
      · exact absurd hi (Nat.not_lt_zero i)
    refine ⟨log, ?_, h.tail (by simp [entered]) (fun _ _ => rfl) (by simp [entered])⟩
    simp only [TreeBuilder.replay, hblank, Event.blank]
    rw [TreeBuilder.takeWrappers_wraps (.nil position) (Nat.zero_le _)]
    rfl
  have hdoes : Does log position acts := h.does 0 acts rfl hne
  have hstart := fun q hq => (hdoes.start q hq).2
  cases hdoes with
  | @token kind span hget =>
    refine ⟨log, ?_, h.tail (by simp [entered, Act.position?]) (fun _ _ => rfl)
      (by simp [entered, Act.position?])⟩
    simp only [TreeBuilder.replay, hget]
    rfl
  | leave hget =>
    refine ⟨log, ?_, h.tail (by simp [entered, Act.position?]) (fun _ _ => rfl)
      (by simp [entered, Act.position?])⟩
    simp only [TreeBuilder.replay, hget]
    rfl
  | @enter kind wrapper qs hget hwraps =>
    have hposition : position < log.size := (Array.getElem?_eq_some_iff.1 hget).1
    have hlength := hwraps.length_lt hposition
    have hkinds : ∀ q ∈ position :: qs, log.kindOf ⟨q⟩ = kinds q ∧ kinds q ≠ .absent := by
      intro q hq
      apply h.kinds_eq
      rw [List.flatten_cons, Act.entered_append, Act.entered_enter]
      exact List.mem_append_left _ (List.mem_reverse.2 hq)
    refine ⟨log.blankAt qs, ?_, h.tail hstart (fun i hi => ?_) fun q hq hqne => ?_⟩
    · have hchain : (qs.map fun q => log.kindOf ⟨q⟩).reverse ++ [kind] =
          (position :: qs).reverse.map kinds := by
        have hkind : log.kindOf ⟨position⟩ = kind := by rw [EventLog.kindOf, hget]
        rw [← hkind, ← List.reverse_cons, ← List.map_cons (f := fun q => log.kindOf ⟨q⟩),
          List.map_reverse, List.map_congr_left fun q hq => (hkinds q hq).1]
      have hnamed : ∀ k ∈ (position :: qs).reverse.map kinds, (k != .absent) = true := by
        intro k hk
        obtain ⟨q, hq, rfl⟩ := List.mem_map.1 hk
        exact bne_iff_ne.2 (hkinds q (List.mem_reverse.1 hq)).2
      simp only [TreeBuilder.replay, hget]
      rw [TreeBuilder.takeWrappers_wraps hwraps (by omega), hchain, List.filter_eq_self.2 hnamed,
        List.foldl_map, List.foldl_map]
      rfl
    · rw [Act.entered_enter, List.mem_reverse, List.mem_cons, not_or] at hi
      rw [log.getElem?_blankAt, if_neg fun h => hi.2 h.1]
    · rw [Act.entered_enter, List.mem_reverse, List.mem_cons] at hq
      obtain ⟨kind', wrapper', hget'⟩ := hwraps.start q (hq.resolve_left hqne)
      rw [log.getElem?_blankAt,
        if_pos ⟨hq.resolve_left hqne, (Array.getElem?_eq_some_iff.1 hget').1⟩]

theorem replayFrom (h : Follows kinds log position script) (b : TreeBuilder)
    (errors : List SyntaxError) : TreeBuilder.replayFrom script.length position log b errors =
    (script.flatten.foldl (Act.run kinds) b, errors) := by
  induction script generalizing log position b with
  | nil => rfl
  | cons acts script ih =>
    obtain ⟨log', hreplay, htail⟩ := h.replay b errors
    rw [List.length_cons, TreeBuilder.replayFrom, hreplay, List.flatten_cons, List.foldl_append]
    exact ih htail _

end Follows

theorem getElem?_concat_eq_some {α : Type} {xs : List α} {x y : α} {j : Nat} :
    (xs ++ [x])[j]? = some y ↔ xs[j]? = some y ∨ j = xs.length ∧ y = x := by
  rcases Nat.lt_trichotomy j xs.length with hj | rfl | hj
  · simp [List.getElem?_append_left hj, Nat.ne_of_lt hj]
  · simp [eq_comm]
  · have hnone : xs[j]? = none := List.getElem?_eq_none (Nat.le_of_lt hj)
    rw [List.getElem?_append_right (Nat.le_of_lt hj), List.getElem?_singleton,
      if_neg (by omega), hnone]
    simp [Nat.ne_of_gt hj]

/-- What the events of a log will do. Each node is opened once, at its start event or at one before
it. -/
structure Scripted (log : EventLog) (script : List (List Act)) : Prop where
  length_eq : script.length = log.size
  does : ∀ j acts, script[j]? = some acts → acts ≠ [] → Does log j acts
  taken : ∀ j, script[j]? = some [] → ∃ i acts, i < j ∧ script[i]? = some acts ∧ j ∈ entered acts
  nodup : (entered script.flatten).Nodup

namespace Scripted

variable {log log' : EventLog} {script : List (List Act)}

theorem follows (h : Scripted log script)
    (hkinds : ∀ q ∈ entered script.flatten, log.kindOf ⟨q⟩ ≠ .absent) :
    Follows (fun q => log.kindOf ⟨q⟩) log 0 script := by
  constructor
  · intro j acts hacts hne
    rw [Nat.zero_add]
    exact h.does j acts hacts hne
  · intro j hacts
    rw [Nat.zero_add]
    exact .inr (h.taken j hacts)
  · exact h.nodup
  · intro q hq
    exact ⟨rfl, hkinds q hq⟩

theorem exists_does (h : Scripted log script) {q : Nat} (hq : q ∈ entered script.flatten) :
    ∃ j acts, script[j]? = some acts ∧ q ∈ entered acts ∧ Does log j acts := by
  obtain ⟨acts, hacts, hmem⟩ := List.mem_flatten.1 (mem_entered.1 hq)
  obtain ⟨j, hj⟩ := List.mem_iff_getElem?.1 hacts
  have hne : acts ≠ [] := by
    rintro rfl
    cases hmem
  exact ⟨j, acts, hj, mem_entered.2 hmem, h.does j acts hj hne⟩

theorem lt_size (h : Scripted log script) {q : Nat} (hq : q ∈ entered script.flatten) :
    q < log.size := by
  obtain ⟨j, acts, -, hmem, hdoes⟩ := h.exists_does hq
  obtain ⟨-, kind, wrapper, hget⟩ := hdoes.start q hmem
  exact (Array.getElem?_eq_some_iff.1 hget).1

theorem index_lt (h : Scripted log script) {j : Nat} {acts : List Act}
    (hacts : script[j]? = some acts) : j < log.size :=
  h.length_eq ▸ (List.getElem?_eq_some_iff.1 hacts).1

theorem lt_size_of_mem (h : Scripted log script) {j q : Nat} {acts : List Act}
    (hacts : script[j]? = some acts) (hq : q ∈ entered acts) : q < log.size :=
  h.lt_size
    (mem_entered.2 (List.mem_flatten.2 ⟨acts, List.mem_of_getElem? hacts, mem_entered.1 hq⟩))

theorem rename (h : Scripted log script) (hsize : log'.size = log.size)
    (hlog : ∀ i : Nat, log'[i]?.map Event.unnamed = log[i]?.map Event.unnamed) :
    Scripted log' script :=
  ⟨h.length_eq.trans hsize.symm, fun j acts hacts hne => (h.does j acts hacts hne).congr (hlog j)
    fun q _ => hlog q, h.taken, h.nodup⟩

theorem push (h : Scripted log script) {e : Event} {acts : List Act}
    (hdoes : Does (log.push e) log.size acts) (hne : acts ≠ []) (hnodup : (entered acts).Nodup)
    (hentered : ∀ q ∈ entered acts, q = log.size) :
    Scripted (log.push e) (script ++ [acts]) := by
  have hlength := h.length_eq
  have hold : ∀ i, i < log.size → (log.push e)[i]? = log[i]? := fun i hi => by
    rw [Array.getElem?_push, if_neg (Nat.ne_of_lt hi)]
  constructor
  · simp [hlength]
  · intro j acts' hacts hne'
    rcases getElem?_concat_eq_some.1 hacts with hacts | ⟨rfl, rfl⟩
    · refine (h.does j acts' hacts hne').congr (congrArg _ (hold j (h.index_lt hacts))) fun q hq =>
        congrArg _ (hold q ?_)
      exact h.lt_size_of_mem hacts hq
    · exact hlength.symm ▸ hdoes
  · intro j hacts
    rcases getElem?_concat_eq_some.1 hacts with hacts | ⟨-, heq⟩
    · obtain ⟨i, acts', hi, hget, hmem⟩ := h.taken j hacts
      exact ⟨i, acts', hi, getElem?_concat_eq_some.2 (.inl hget), hmem⟩
    · exact absurd heq.symm hne
  · rw [List.flatten_append, List.flatten_singleton, Act.entered_append]
    refine h.nodup.append hnodup fun q hq hq' => ?_
    exact Nat.lt_irrefl _ (hentered q hq' ▸ h.lt_size hq)

end Scripted

def Act.enterBefore (p q : Nat) (act : Act) : List Act :=
  if act = .enter p then [.enter q, act] else [act]

section

variable {p q : Nat}

theorem Act.flatMap_enterBefore_of_not_mem {acts : List Act} (h : p ∉ entered acts) :
    acts.flatMap (enterBefore p q) = acts := by
  induction acts with
  | nil => rfl
  | cons act acts ih =>
    have hne : act ≠ .enter p := by
      rintro rfl
      exact h (mem_entered.2 List.mem_cons_self)
    have hrest : p ∉ entered acts := fun hp => h (mem_entered.2 (.tail _ (mem_entered.1 hp)))
    rw [List.flatMap_cons, ih hrest, enterBefore, if_neg hne, List.singleton_append]

theorem Act.mem_entered_flatMap {acts : List Act} {i : Nat} :
    i ∈ entered (acts.flatMap (enterBefore p q)) ↔ i ∈ entered acts ∨ i = q ∧ p ∈ entered acts := by
  rw [mem_entered, mem_entered, mem_entered, List.mem_flatMap]
  constructor
  · rintro ⟨act, hact, hi⟩
    unfold enterBefore at hi
    split at hi
    · rename_i heq
      subst heq
      simp only [List.mem_cons, Act.enter.injEq, List.not_mem_nil, or_false] at hi
      rcases hi with rfl | rfl
      · exact .inr ⟨rfl, hact⟩
      · exact .inl hact
    · obtain rfl := List.mem_singleton.1 hi
      exact .inl hact
  · rintro (hi | ⟨rfl, hp⟩)
    · refine ⟨_, hi, ?_⟩
      unfold enterBefore
      split <;> simp
    · exact ⟨_, hp, by simp [enterBefore]⟩

theorem Act.entered_middle (A B : List Act) :
    entered (A ++ .enter p :: B) = entered A ++ p :: entered B := by
  rw [entered_append]
  rfl

theorem Act.ne_of_nodup_middle {A B : List Act} (h : (entered (A ++ .enter p :: B)).Nodup) :
    ∀ i, i ∈ entered A ∨ i ∈ entered B → i ≠ p := by
  rw [entered_middle, List.nodup_middle, List.nodup_cons, List.mem_append] at h
  rintro i hi rfl
  exact h.1 hi

theorem Act.flatMap_enterBefore_middle {A B : List Act} (h : (entered (A ++ .enter p :: B)).Nodup) :
    (A ++ .enter p :: B).flatMap (enterBefore p q) = A ++ .enter q :: .enter p :: B := by
  have hA : p ∉ entered A := fun hp => ne_of_nodup_middle h p (.inl hp) rfl
  have hB : p ∉ entered B := fun hp => ne_of_nodup_middle h p (.inr hp) rfl
  rw [List.flatMap_append, List.flatMap_cons, flatMap_enterBefore_of_not_mem hA,
    flatMap_enterBefore_of_not_mem hB, enterBefore, if_pos rfl]
  rfl

variable {log log' : EventLog}

theorem Wraps.extend {j : Nat} {kind : NodeKind} {wrapper : Option Nat} {qs : List Nat}
    (h : Wraps log j wrapper qs) (hget : log[j]? = some (.start kind wrapper)) (hp : p ∈ j :: qs)
    {freeKind : NodeKind}
    (hfree : log[p]? = some (.start freeKind none)) (hlt : p < q)
    (hp' : log'[p]? = some (.start freeKind (some (q - p)))) (hq' : log'[q]? = some .blank)
    (hother : ∀ i ∈ j :: qs, i ≠ p → log'[i]? = log[i]?) :
    (∃ wrapper', log'[j]? = some (.start kind wrapper') ∧ Wraps log' j wrapper' (qs ++ [q])) ∧
      ((j :: qs).reverse.map Act.enter).flatMap (Act.enterBefore p q) =
      (j :: (qs ++ [q])).reverse.map .enter := by
  induction h generalizing kind with
  | nil j =>
    obtain rfl := List.mem_singleton.1 hp
    obtain rfl : freeKind = kind := by simpa using hfree.symm.trans hget
    have hdistance : p + (q - p) = q := by omega
    refine ⟨⟨_, hp', ?_⟩, by simp [Act.enterBefore]⟩
    have hwraps := Wraps.cons (show 0 < q - p by omega) (hdistance.symm ▸ hq') (.nil (p + (q - p)))
    rwa [hdistance] at hwraps
  | @cons j d kind' wrapper' qs hd hget' h ih =>
    have hne : j ≠ p := by
      rintro rfl
      cases hfree.symm.trans hget
    obtain ⟨⟨wrapper'', hget'', hwraps⟩, hacts⟩ :=
      ih hget' ((List.mem_cons.1 hp).resolve_left (Ne.symm hne)) (fun i hi => hother i (.tail _ hi))
    refine ⟨⟨some d, (hother j List.mem_cons_self hne).trans hget, .cons hd hget'' hwraps⟩, ?_⟩
    rw [List.reverse_cons, List.map_append, List.flatMap_append, hacts]
    simp [Act.enterBefore, hne]

theorem EventLog.getElem?_wrap {kind : NodeKind}
    (hget : log[p]? = some (.start kind none)) (i : Nat) : (log.wrap ⟨p⟩).1[i]? =
      if i = p then some (.start kind (some (log.size - p))) else if i = log.size then some .blank
        else log[i]? := by
  have hp : p < log.size := (Array.getElem?_eq_some_iff.1 hget).1
  simp only [wrap, openNode, setWrapper, Array.getElem?_modify, Array.getElem?_push,
    Array.size_push, Nat.add_sub_cancel]
  by_cases hi : i = p
  · subst hi
    simp [hget, Nat.ne_of_lt hp]
  · simp [hi, Ne.symm hi]

def enterBefore (p q : Nat) (script : List (List Act)) : List (List Act) :=
  script.map (List.flatMap (Act.enterBefore p q)) ++ [[]]

theorem flatten_enterBefore (script : List (List Act)) :
    (enterBefore p q script).flatten = script.flatten.flatMap (Act.enterBefore p q) := by
  rw [enterBefore, List.flatten_append, List.flatten_singleton, List.append_nil]
  induction script with
  | nil => rfl
  | cons acts script ih => rw [List.map_cons, List.flatten_cons, List.flatten_cons,
      List.flatMap_append, ih]

theorem getElem?_enterBefore {script : List (List Act)} {j : Nat} {acts : List Act} :
    (enterBefore p q script)[j]? = some acts ↔
      (∃ acts', script[j]? = some acts' ∧ acts'.flatMap (Act.enterBefore p q) = acts) ∨
      j = script.length ∧ acts = [] := by
  rw [enterBefore, getElem?_concat_eq_some, List.getElem?_map, Option.map_eq_some_iff,
    List.length_map]

/-- A chain of nodes gets one more around it if it ends with the wrapped one, and stays as it is
otherwise. -/
theorem Does.wrap {j : Nat} {acts : List Act} (h : Does log j acts) (hj : j < log.size)
    (hentered : ∀ i ∈ entered acts, i < log.size) (hp : p < log.size) {kind : NodeKind}
    (hfree : log[p]? = some (.start kind none)) :
    Does (log.wrap ⟨p⟩).1 j (acts.flatMap (Act.enterBefore p log.size)) := by
  have hget := EventLog.getElem?_wrap hfree
  have hother : ∀ i : Nat, i < log.size → i ≠ p → (log.wrap ⟨p⟩).1[i]? = log[i]? :=
    fun i hi hne => by
      rw [hget, if_neg hne, if_neg (Nat.ne_of_lt hi)]
  by_cases hmem : p ∈ entered acts
  · cases h with
    | token => simp [entered, Act.position?] at hmem
    | leave => simp [entered, Act.position?] at hmem
    | enter hget' hwraps =>
      simp only [Act.entered_enter, List.mem_reverse] at hmem hentered
      have hwrapped : (log.wrap ⟨p⟩).1[p]? = some (.start kind (some (log.size - p))) := by
        rw [hget, if_pos rfl]
      have hblank : (log.wrap ⟨p⟩).1[log.size]? = some .blank := by
        rw [hget, if_neg (Nat.ne_of_gt hp), if_pos rfl]
      obtain ⟨⟨wrapper', hget'', hwraps'⟩, heq⟩ := hwraps.extend hget' hmem hfree hp hwrapped hblank
        fun i hi => hother i (hentered i hi)
      rw [heq]
      exact .enter hget'' hwraps'
  · rw [Act.flatMap_enterBefore_of_not_mem hmem]
    have hne : j ≠ p := by
      rintro rfl
      exact hmem (h.mem_entered hfree)
    refine h.congr (congrArg _ (hother j hj hne)) fun i hi =>
      congrArg _ (hother i (hentered i hi) ?_)
    rintro rfl
    exact hmem hi

theorem Scripted.wrap {script : List (List Act)} (h : Scripted log script)
    (hp : p ∈ entered script.flatten) {kind : NodeKind}
    (hfree : log[p]? = some (.start kind none)) :
    Scripted (log.wrap ⟨p⟩).1 (enterBefore p log.size script) := by
  constructor
  · simp [enterBefore, EventLog.wrap, EventLog.openNode, EventLog.setWrapper, h.length_eq]
  · intro j acts hacts hne
    rcases getElem?_enterBefore.1 hacts with ⟨acts', hacts', rfl⟩ | ⟨-, rfl⟩
    · have hne' : acts' ≠ [] := by
        rintro rfl
        exact hne rfl
      exact (h.does j acts' hacts' hne').wrap (h.index_lt hacts') (fun i => h.lt_size_of_mem hacts')
        (h.lt_size hp) hfree
    · exact absurd rfl hne
  · intro j hacts
    rcases getElem?_enterBefore.1 hacts with ⟨acts', hacts', hnil⟩ | ⟨rfl, -⟩
    · obtain rfl : acts' = [] := by
        cases acts' with
        | nil => rfl
        | cons act acts' =>
          rw [List.flatMap_cons, Act.enterBefore] at hnil
          split at hnil <;> cases hnil
      obtain ⟨i, acts, hi, hget, hmem⟩ := h.taken j hacts'
      exact ⟨i, _, hi, getElem?_enterBefore.2 (.inl ⟨acts, hget, rfl⟩),
        Act.mem_entered_flatMap.2 (.inl hmem)⟩
    · obtain ⟨i, acts, hget, hmem, -⟩ := h.exists_does hp
      refine ⟨i, _, (List.getElem?_eq_some_iff.1 hget).1,
        getElem?_enterBefore.2 (.inl ⟨acts, hget, rfl⟩), ?_⟩
      exact Act.mem_entered_flatMap.2 (.inr ⟨h.length_eq, hmem⟩)
  · obtain ⟨A, B, hsplit⟩ := List.append_of_mem (mem_entered.1 hp)
    have hnodup := h.nodup
    have hfresh : log.size ∉ entered script.flatten := fun hq => Nat.lt_irrefl _ (h.lt_size hq)
    rw [flatten_enterBefore, hsplit]
    rw [hsplit] at hnodup hfresh
    rw [Act.flatMap_enterBefore_middle hnodup, Act.entered_middle, List.nodup_middle]
    rw [Act.entered_middle] at hnodup hfresh
    exact List.nodup_cons.2 ⟨hfresh, hnodup⟩

end

end LuaAnalysis.Syntax
