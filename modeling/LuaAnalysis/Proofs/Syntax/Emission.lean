import Mathlib.Logic.Relation
import LuaAnalysis.Proofs.Syntax.Shape
import LuaAnalysis.Proofs.Syntax.Script

/-!
Writing a tree to a log. A node is opened before what is in it or around a closed node that is the
first in it, and it is closed behind what is in it. However the nodes are opened, what is built from
the log is the tree.
-/

namespace LuaAnalysis.Syntax

open Act (entered mem_entered)
open Relation (ReflTransGen)

inductive Rose where
  | token (kind : TokenKind) (span : Span)
  | node (kind : NodeKind) (children : List Rose)

mutual

def Rose.Named : Rose → Prop
  | .token _ _ => True
  | .node kind children => kind ≠ .absent ∧ Rose.AllNamed children

def Rose.AllNamed : List Rose → Prop
  | [] => True
  | tree :: trees => tree.Named ∧ Rose.AllNamed trees

end

def Tree.rose (t : Tree) (id : ElementId) : Rose := t.foldFrom .token .node t.size id

/-- What was written side by side, the last outermost. A closed node is known by the position of its
start event. -/
inductive Written where
  | nil
  | token (before : Written) (kind : TokenKind) (span : Span)
  | node (before : Written) (position : Nat) (kind : NodeKind) (inside : Written)

namespace Written

def append (x : Written) : Written → Written
  | .nil => x
  | .token y kind span => .token (append x y) kind span
  | .node y position kind inside => .node (append x y) position kind inside

def roses : Written → List Rose
  | .nil => []
  | .token x kind span => x.roses ++ [.token kind span]
  | .node x _ kind inside => x.roses ++ [.node kind inside.roses]

def acts : Written → List Act
  | .nil => []
  | .token x kind span => x.acts ++ [.token kind span]
  | .node x position _ inside => x.acts ++ .enter position :: inside.acts ++ [.leave]

def nodes : Written → List (Nat × NodeKind)
  | .nil => []
  | .token x _ _ => x.nodes
  | .node x position kind inside => x.nodes ++ (position, kind) :: inside.nodes

def tops : Written → List Nat
  | .nil => []
  | .token x _ _ => x.tops
  | .node x position _ _ => x.tops ++ [position]

def forest : Written → Forest
  | .nil => .nil
  | .token x kind span => .token x.forest kind span
  | .node x _ kind inside => .branch x.forest (.node kind inside.forest)

attribute [local simp] append roses acts nodes tops

theorem acts_append (x y : Written) : (x.append y).acts = x.acts ++ y.acts := by
  induction y with
  | nil => simp
  | token y _ _ ih => simp [ih]
  | node y _ _ _ ih _ => simp [ih]

theorem roses_append (x y : Written) : (x.append y).roses = x.roses ++ y.roses := by
  induction y with
  | nil => simp
  | token y _ _ ih => simp [ih]
  | node y _ _ _ ih _ => simp [ih]

theorem nodes_append (x y : Written) : (x.append y).nodes = x.nodes ++ y.nodes := by
  induction y with
  | nil => simp
  | token y _ _ ih => simp [ih]
  | node y _ _ _ ih _ => simp [ih]

theorem tops_append (x y : Written) : (x.append y).tops = x.tops ++ y.tops := by
  induction y with
  | nil => simp
  | token y _ _ ih => simp [ih]
  | node y _ _ _ ih _ => simp [ih]

theorem entered_acts (x : Written) : entered x.acts = x.nodes.map (·.1) := by
  induction x with
  | nil => rfl
  | token x _ _ ih =>
    rw [acts, Act.entered_append, ih, nodes]
    exact List.append_nil _
  | node x position kind inside ih ihInside =>
    rw [acts, List.append_assoc, List.cons_append, Act.entered_middle, Act.entered_append, ih,
      ihInside, nodes, List.map_append, List.map_cons]
    exact congrArg _ (congrArg _ (List.append_nil _))

theorem tops_subset (x : Written) : x.tops ⊆ entered x.acts := by
  induction x with
  | nil => exact List.Subset.refl _
  | token x _ _ ih =>
    rw [acts, Act.entered_append, tops]
    exact List.subset_append_of_subset_left _ ih
  | node x position _ inside ih _ =>
    rw [acts, List.append_assoc, List.cons_append, Act.entered_middle, tops]
    intro i hi
    rcases List.mem_append.1 hi with hi | hi
    · exact List.mem_append_left _ (ih hi)
    · rw [List.mem_singleton.1 hi]
      exact List.mem_append_right _ List.mem_cons_self

theorem folds_layout (x : Written) : x.forest.layout.folds .token .node = x.roses := by
  induction x with
  | nil => rfl
  | token x _ _ ih => rw [forest, Forest.layout, Layout.folds, ih, roses]
  | node x _ _ inside ih ihInside =>
    rw [forest, Forest.layout, Layout.folds, ih, Branch.contents, ihInside, roses]
    rfl

theorem foldl_acts (x : Written) {kinds : Nat → NodeKind} (hkinds : ∀ n ∈ x.nodes, kinds n.1 = n.2)
    (s : Replayed) : x.acts.foldl (Act.run kinds) s.1 = (x.forest.play s).1 := by
  induction x generalizing s with
  | nil => rfl
  | token x _ _ ih =>
    rw [acts, List.foldl_append, ih hkinds]
    rfl
  | node x position kind inside ih ihInside =>
    rw [nodes, List.forall_mem_append, List.forall_mem_cons] at hkinds
    obtain ⟨hx, hkind, hinside⟩ := hkinds
    have hrest := ihInside hinside (((x.forest.play s).1.openNode kind), (x.forest.play s).2)
    rw [acts, List.append_assoc, List.foldl_append, ih hx, List.cons_append, List.foldl_cons,
      List.foldl_append, Act.run, hkind, hrest]
    rfl

end Written

/-- What was written since a node was opened. If the node was put around a closed one, that one
comes first. -/
structure Level where
  opened : Option Nat
  first : Written
  items : Written

namespace Level

def acts (l : Level) : List Act := l.opened.toList.map .enter ++ (l.first.acts ++ l.items.acts)

def nodes (l : Level) : List (Nat × NodeKind) := l.first.nodes ++ l.items.nodes

def free (l : Level) : List Nat := l.opened.toList ++ l.items.tops

def allActs : List Level → List Act
  | [] => []
  | l :: levels => allActs levels ++ l.acts

theorem allActs_append (xs ys : List Level) : allActs (xs ++ ys) = allActs ys ++ allActs xs := by
  induction xs with
  | nil => simp [allActs]
  | cons l xs ih => simp [allActs, ih]

end Level

/-- One step of writing a tree: a token, or a node that is opened, closed, or opened around a closed
one that stands outermost in its level. -/
inductive WriteStep : EventLog × List Level → EventLog × List Level → Prop where
  | token {log : EventLog} {opened : Option Nat} {first items : Written} {levels : List Level}
      (kind : TokenKind) (span : Span) :
      WriteStep (log, ⟨opened, first, items⟩ :: levels)
        (log.push (.token kind span), ⟨opened, first, .token items kind span⟩ :: levels)
  | mark {log : EventLog} {levels : List Level} :
      WriteStep (log, levels) (log.openNode.1, ⟨some log.openNode.2.position, .nil, .nil⟩ :: levels)
  | complete {log : EventLog} {p : Nat} {opened : Option Nat}
      {first items outerFirst outer : Written} {levels : List Level} (kind : NodeKind)
      (hkind : kind ≠ .absent) : WriteStep (log,
        ⟨some p, first, items⟩ :: ⟨opened, outerFirst, outer⟩ :: levels) ((log.close ⟨p⟩ kind).1,
        ⟨opened, outerFirst, .node outer p kind (first.append items)⟩ :: levels)
  | precede {log : EventLog} {p : Nat} {kind : NodeKind} {opened : Option Nat}
      {first before inside behind : Written} (inner levels : List Level) :
      WriteStep (log, inner ++ ⟨opened, first, (Written.node before p kind inside).append behind⟩ ::
        levels) ((log.wrap ⟨p⟩).1, inner ++
        ⟨some (log.wrap ⟨p⟩).2.position, .node .nil p kind inside, behind⟩ ::
        ⟨opened, first, before⟩ :: levels)

/-- A log can be written for a tree, in which the root has its start event at a position. -/
def Emits (tree : Rose) (position : Nat) (log : EventLog) : Prop :=
  ∃ kind inside, tree = .node kind inside.roses ∧
  ReflTransGen WriteStep (#[], [⟨none, .nil, .nil⟩]) (log,
    [⟨none, .nil, .node .nil position kind inside⟩])

mutual

theorem Rose.exists_writeSteps : ∀ tree : Rose, tree.Named →
    ∀ (log : EventLog) (opened : Option Nat) (first items : Written) (levels : List Level),
    ∃ log' items', items'.roses = items.roses ++ [tree] ∧
      ReflTransGen WriteStep (log, ⟨opened, first, items⟩ :: levels) (log',
        ⟨opened, first, items'⟩ :: levels)
  | .token kind span, _, log, opened, first, items,
      levels => ⟨_, .token items kind span, rfl, .single (.token kind span)⟩
  | .node kind children, h, log, opened, first, items, levels => by
    obtain ⟨log', inside, hinside, hsteps⟩ := Rose.exists_writeSteps_all children h.2 log.openNode.1
      (some log.openNode.2.position) .nil .nil (⟨opened, first, items⟩ :: levels)
    refine ⟨_, _, ?_, ((ReflTransGen.single .mark).trans hsteps).tail (.complete kind h.1)⟩
    rw [Written.roses, Written.roses_append, hinside]
    rfl

theorem Rose.exists_writeSteps_all : ∀ trees : List Rose, Rose.AllNamed trees → ∀ (log : EventLog)
    (opened : Option Nat) (first items : Written) (levels : List Level), ∃ log' items',
      items'.roses = items.roses ++ trees ∧
        ReflTransGen WriteStep (log, ⟨opened, first, items⟩ :: levels) (log',
          ⟨opened, first, items'⟩ :: levels)
  | [], _, log, opened, first, items, levels => ⟨log, items, (List.append_nil _).symm, .refl⟩
  | tree :: trees, h, log, opened, first, items, levels => by
    obtain ⟨log', items', hitems, hsteps⟩ :=
      Rose.exists_writeSteps tree h.1 log opened first items levels
    obtain ⟨log'', items'', hitems', hsteps'⟩ :=
      Rose.exists_writeSteps_all trees h.2 log' opened first items' levels
    refine ⟨log'', items'', ?_, hsteps.trans hsteps'⟩
    rw [hitems', hitems, List.append_assoc]
    rfl

end

theorem Rose.exists_emits {kind : NodeKind} {children : List Rose}
    (h : (Rose.node kind children).Named) : ∃ p log, Emits (.node kind children) p log := by
  obtain ⟨log, inside, hinside, hsteps⟩ :=
    Rose.exists_writeSteps_all children h.2 (EventLog.openNode #[]).1
      (some (EventLog.openNode #[]).2.position) .nil .nil [⟨none, .nil, .nil⟩]
  refine ⟨_, _, kind, _, ?_, ((ReflTransGen.single .mark).trans hsteps).tail (.complete kind h.1)⟩
  rw [Written.roses_append, hinside]
  rfl

namespace Level

theorem entered_acts (l : Level) : entered l.acts = l.opened.toList ++ l.nodes.map (·.1) := by
  rw [acts, Act.entered_append, Act.entered_append, Act.entered_enter, Written.entered_acts,
    Written.entered_acts, nodes, List.map_append]

theorem free_subset (l : Level) : l.free ⊆ entered l.acts := by
  rw [acts, Act.entered_append, Act.entered_append, Act.entered_enter, free]
  exact List.append_subset.2 ⟨List.subset_append_left _ _,
    List.subset_append_of_subset_right _ (List.subset_append_of_subset_right _ l.items.tops_subset)⟩

theorem mem_entered_of_node {l : Level} {n : Nat × NodeKind} (hn : n ∈ l.nodes) :
    n.1 ∈ entered l.acts := by
  rw [l.entered_acts]
  exact List.mem_append_right _ (List.mem_map_of_mem hn)

theorem mem_entered_allActs {levels : List Level} {l : Level} (hl : l ∈ levels) {p : Nat}
    (hp : p ∈ entered l.acts) : p ∈ entered (allActs levels) := by
  induction levels with
  | nil => cases hl
  | cons l' levels ih =>
    rw [allActs, Act.entered_append, List.mem_append]
    rcases List.mem_cons.1 hl with rfl | hl
    · exact .inr hp
    · exact .inl (ih hl)

end Level

/-- Nodes of a level that another one can still come around are in no chain, and closed ones have
their kinds. -/
structure Level.Fits (log : EventLog) (l : Level) : Prop where
  free : ∀ p ∈ l.free, ∃ kind, log[p]? = some (.start kind none)
  kinds : ∀ n ∈ l.nodes, log.kindOf ⟨n.1⟩ = n.2 ∧ n.2 ≠ .absent

theorem Level.Fits.congr {log log' : EventLog} {l : Level} (h : l.Fits log)
    (hlog : ∀ i ∈ entered l.acts, log'[i]? = log[i]?) : l.Fits log' := by
  constructor
  · intro p hp
    rw [hlog p (l.free_subset hp)]
    exact h.free p hp
  · intro n hn
    rw [EventLog.kindOf, hlog n.1 (mem_entered_of_node hn)]
    exact h.kinds n hn

theorem Level.Fits.split {log log' : EventLog} {p q : Nat} {kind : NodeKind} {opened : Option Nat}
    {first before inside behind : Written}
    (h : Level.Fits log ⟨opened, first, (Written.node before p kind inside).append behind⟩)
    (hfree : ∀ i ∈ opened.toList ++ before.tops ++ behind.tops, log'[i]? = log[i]?)
    (hkinds : ∀ n ∈ Level.nodes ⟨opened, first, (Written.node before p kind inside).append behind⟩,
      log'.kindOf ⟨n.1⟩ = log.kindOf ⟨n.1⟩) (hnew : log'[q]? = some .blank) :
    Level.Fits log' ⟨some q, .node .nil p kind inside, behind⟩ ∧
    Level.Fits log' ⟨opened, first, before⟩ := by
  have hold : ∀ i ∈ opened.toList ++ before.tops ++ behind.tops, ∃ kind, log'[i]? =
      some (.start kind none) := by
    intro i hi
    rw [hfree i hi]
    apply h.free
    rw [Level.free, Written.tops_append, Written.tops]
    simp only [List.mem_append] at hi ⊢
    tauto
  have hnamed : ∀ n ∈ first.nodes ++ before.nodes ++ ((p, kind) :: inside.nodes ++ behind.nodes),
      log'.kindOf ⟨n.1⟩ = n.2 ∧ n.2 ≠ .absent := by
    intro n hn
    have hn' : n ∈ Level.nodes ⟨opened, first,
        (Written.node before p kind inside).append behind⟩ := by
      rw [Level.nodes, Written.nodes_append, Written.nodes]
      simpa using hn
    rw [hkinds n hn']
    exact h.kinds n hn'
  refine ⟨⟨?_, ?_⟩, ⟨?_, ?_⟩⟩
  · intro i hi
    rcases List.mem_cons.1 hi with rfl | hi
    · exact ⟨.absent, hnew⟩
    · exact hold i (List.mem_append_right _ hi)
  · intro n hn
    exact hnamed n (List.mem_append_right _ hn)
  · intro i hi
    exact hold i (List.mem_append_left _ hi)
  · intro n hn
    exact hnamed n (List.mem_append_left _ hn)

structure Records (log : EventLog) (levels : List Level) (script : List (List Act)) : Prop where
  scripted : Scripted log script
  acts_eq : script.flatten = Level.allActs levels
  fits : ∀ l ∈ levels, l.Fits log

namespace Records

variable {log log' : EventLog} {levels : List Level} {script : List (List Act)} {p : Nat}

theorem lt_size (h : Records log levels script) {l : Level} (hl : l ∈ levels)
    (hp : p ∈ entered l.acts) : p < log.size :=
  h.scripted.lt_size (h.acts_eq ▸ Level.mem_entered_allActs hl hp)

theorem fits_apart (h : Records log levels script) {A B : List Act}
    (hacts : script.flatten = A ++ .enter p :: B)
    (hsame : ∀ i : Nat, i < log.size → i ≠ p → log'[i]? = log[i]?) {l : Level} (hl : l ∈ levels)
    (hapart : entered l.acts ⊆ entered A ∨ entered l.acts ⊆ entered B) : l.Fits log' := by
  refine (h.fits l hl).congr fun i hi => hsame i (h.lt_size hl hi) ?_
  exact Act.ne_of_nodup_middle (hacts ▸ h.scripted.nodup) i (hapart.imp (· hi) (· hi))

theorem fits_push (h : Records log levels script) (e : Event) :
    ∀ l ∈ levels, l.Fits (log.push e) := fun l hl =>
  (h.fits l hl).congr fun i hi => by
    rw [Array.getElem?_push, if_neg (Nat.ne_of_lt (h.lt_size hl hi))]

theorem token {opened : Option Nat} {first items : Written}
    (h : Records log (⟨opened, first, items⟩ :: levels) script) (kind : TokenKind) (span : Span) :
    Records (log.push (.token kind span)) (⟨opened, first, .token items kind span⟩ :: levels)
    (script ++ [[.token kind span]]) := by
  obtain ⟨⟨hfree, hkinds⟩, hrest⟩ := List.forall_mem_cons.1 (h.fits_push (.token kind span))
  refine ⟨?_, ?_, List.forall_mem_cons.2 ⟨⟨hfree, hkinds⟩, hrest⟩⟩
  · exact h.scripted.push (.token (by simp)) (by simp) List.nodup_nil
      (by simp [entered, Act.position?])
  · rw [List.flatten_append, h.acts_eq]
    simp [Level.allActs, Level.acts, Written.acts]

theorem mark (h : Records log levels script) :
    Records log.openNode.1 (⟨some log.openNode.2.position, .nil, .nil⟩ :: levels)
    (script ++ [[.enter log.size]]) := by
  have hpush : log.openNode.1 = log.push .blank := rfl
  have hposition : log.openNode.2.position = log.size := EventLog.position_openNode log
  have hget : (log.push .blank)[log.size]? = some .blank := by simp
  rw [hpush, hposition]
  refine ⟨?_, ?_, List.forall_mem_cons.2 ⟨⟨?_, ?_⟩, h.fits_push .blank⟩⟩
  · exact h.scripted.push (.enter hget (.nil _)) (by simp) (by simp [entered, Act.position?])
      (by simp [entered, Act.position?])
  · rw [List.flatten_append, h.acts_eq]
    simp [Level.allActs, Level.acts, Written.acts]
  · intro p hp
    obtain rfl := List.mem_singleton.1 hp
    exact ⟨.absent, hget⟩
  · intro n hn
    cases hn

theorem complete {opened : Option Nat} {first items outerFirst outer : Written}
    (h : Records log (⟨some p, first, items⟩ :: ⟨opened, outerFirst, outer⟩ :: levels) script)
    {kind : NodeKind}
    (hkind : kind ≠ .absent) : Records (log.close ⟨p⟩ kind).1
      (⟨opened, outerFirst, .node outer p kind (first.append items)⟩ :: levels)
      (script ++ [[.leave]]) := by
  obtain ⟨hinner, hlevels⟩ := List.forall_mem_cons.1 h.fits
  obtain ⟨houter, hrest⟩ := List.forall_mem_cons.1 hlevels
  obtain ⟨kind', hget⟩ := hinner.free p List.mem_cons_self
  have hlt : p < log.size := (Array.getElem?_eq_some_iff.1 hget).1
  have hset : ∀ i : Nat, (log.setKind p kind)[i]? = if i = p then some (.start kind none)
      else log[i]? := by
    intro i
    rw [EventLog.setKind, Array.getElem?_modify]
    by_cases hi : i = p
    · simp [hi, hget]
    · simp [hi, Ne.symm hi]
  have hsize : (log.setKind p kind).size = log.size := Array.size_modify
  have hlog : ∀ i : Nat, i < log.size →
      (log.close ⟨p⟩ kind).1[i]? = if i = p then some (.start kind none) else log[i]? := by
    intro i hi
    rw [EventLog.close, Array.getElem?_push, if_neg (hsize ▸ Nat.ne_of_lt hi), hset]
  have hacts : script.flatten = (Level.allActs levels ++ Level.acts ⟨opened, outerFirst, outer⟩) ++
      .enter p :: (first.acts ++ items.acts) := by
    rw [h.acts_eq]
    simp [Level.allActs, Level.acts]
  have hapart := Act.ne_of_nodup_middle (hacts ▸ h.scripted.nodup)
  have hother : ∀ l ∈ ⟨opened, outerFirst, outer⟩ :: levels, l.Fits (log.close ⟨p⟩ kind).1 := by
    intro l hl
    refine h.fits_apart hacts (fun i hi hne => ?_) (.tail _ hl)
      (.inl fun i hi => Level.mem_entered_allActs hl hi)
    rw [hlog i hi, if_neg hne]
  obtain ⟨houter', hrest'⟩ := List.forall_mem_cons.1 hother
  have hp : (log.close ⟨p⟩ kind).1[p]? = some (.start kind none) := by rw [hlog p hlt, if_pos rfl]
  refine ⟨?_, ?_, List.forall_mem_cons.2 ⟨⟨?_, ?_⟩, hrest'⟩⟩
  · refine (h.scripted.rename hsize fun i => ?_).push (.leave (by simp)) (by simp) List.nodup_nil
      (by simp [entered, Act.position?])
    rw [hset]
    split
    · rename_i hi
      rw [hi, hget]
      rfl
    · rfl
  · rw [List.flatten_append, h.acts_eq]
    simp [Level.allActs, Level.acts, Written.acts, Written.acts_append]
  · intro q hq
    rw [Level.free, Written.tops, ← List.append_assoc, List.mem_append, List.mem_singleton] at hq
    rcases hq with hq | rfl
    · exact houter'.free q hq
    · exact ⟨kind, hp⟩
  · intro n hn
    rw [Level.nodes, Written.nodes, Written.nodes_append, ← List.append_assoc, List.mem_append,
      List.mem_cons] at hn
    rcases hn with hn | rfl | hn
    · exact houter'.kinds n hn
    · exact ⟨by rw [EventLog.kindOf, hp], hkind⟩
    · have hmem : n.1 ∈ entered (first.acts ++ items.acts) := by
        rw [Act.entered_append, Written.entered_acts, Written.entered_acts, ← List.map_append]
        exact List.mem_map_of_mem hn
      have hi := h.lt_size List.mem_cons_self
        (Level.mem_entered_of_node (l := ⟨some p, first, items⟩) hn)
      rw [EventLog.kindOf, hlog n.1 hi, if_neg (hapart n.1 (.inr hmem))]
      exact hinner.kinds n hn

theorem precede {kind : NodeKind} {opened : Option Nat} {first before inside behind : Written}
    {inner : List Level}
    (h : Records log (inner ++ ⟨opened, first, (Written.node before p kind inside).append behind⟩ ::
      levels) script) :
    Records (log.wrap ⟨p⟩).1 (inner ++
      ⟨some (log.wrap ⟨p⟩).2.position, .node .nil p kind inside, behind⟩ ::
      ⟨opened, first, before⟩ :: levels) (enterBefore p log.size script) := by
  have hmiddle : (⟨opened, first, (Written.node before p kind inside).append behind⟩ : Level) ∈
      inner ++ ⟨opened, first, (Written.node before p kind inside).append behind⟩ :: levels :=
    List.mem_append_right _ List.mem_cons_self
  have hlevel := h.fits _ hmiddle
  obtain ⟨kind', hget⟩ := hlevel.free p (by simp [Level.free, Written.tops_append, Written.tops])
  have hlt : p < log.size := (Array.getElem?_eq_some_iff.1 hget).1
  have hwrap := EventLog.getElem?_wrap hget
  have hposition : (log.wrap ⟨p⟩).2.position = log.size := EventLog.position_openNode log
  have hacts : script.flatten = (Level.allActs levels ++ Level.acts ⟨opened, first, before⟩) ++
      .enter p :: (inside.acts ++ [.leave] ++ behind.acts ++ Level.allActs inner) := by
    rw [h.acts_eq]
    simp [Level.allActs_append, Level.allActs, Level.acts, Written.acts_append, Written.acts]
  have hnodup := hacts ▸ h.scripted.nodup
  have hsame : ∀ i : Nat, i < log.size → i ≠ p → (log.wrap ⟨p⟩).1[i]? = log[i]? := by
    intro i hi hne
    rw [hwrap, if_neg hne, if_neg (Nat.ne_of_lt hi)]
  have hfree : ∀ i ∈ opened.toList ++ before.tops ++ behind.tops, (log.wrap ⟨p⟩).1[i]? =
      log[i]? := by
    intro i hi
    have hapart : i ≠ p := by
      apply Act.ne_of_nodup_middle hnodup
      rw [Act.entered_append, Act.entered_append, Act.entered_append]
      rcases List.mem_append.1 hi with hi | hi
      · exact .inl (List.mem_append_right _ (Level.free_subset ⟨opened, first, before⟩ hi))
      · exact .inr (List.mem_append_left _ (List.mem_append_right _ (behind.tops_subset hi)))
    refine hsame i (h.lt_size hmiddle (Level.free_subset _ ?_)) hapart
    rw [Level.free, Written.tops_append, Written.tops]
    simp only [List.mem_append] at hi ⊢
    tauto
  have hkinds :
      ∀ n ∈ Level.nodes ⟨opened, first, (Written.node before p kind inside).append behind⟩,
      (log.wrap ⟨p⟩).1.kindOf ⟨n.1⟩ = log.kindOf ⟨n.1⟩ := by
    intro n hn
    by_cases hne : n.1 = p
    · rw [EventLog.kindOf, EventLog.kindOf, hwrap, if_pos hne, hne, hget]
    · rw [EventLog.kindOf, EventLog.kindOf,
        hsame _ (h.lt_size hmiddle (Level.mem_entered_of_node hn)) hne]
  have hnew : (log.wrap ⟨p⟩).1[log.size]? = some .blank := by
    rw [hwrap, if_neg (Nat.ne_of_gt hlt), if_pos rfl]
  obtain ⟨hwrapping, hwrapped⟩ := hlevel.split hfree hkinds hnew
  refine ⟨?_, ?_, ?_⟩
  · refine h.scripted.wrap ?_ hget
    rw [hacts, Act.entered_middle]
    exact List.mem_append_right _ List.mem_cons_self
  · rw [flatten_enterBefore, hacts, Act.flatMap_enterBefore_middle hnodup, hposition]
    simp [Level.allActs_append, Level.allActs, Level.acts, Written.acts]
  · intro l hl
    rw [hposition, List.mem_append, List.mem_cons, List.mem_cons] at hl
    rcases hl with hl | rfl | rfl | hl
    · refine h.fits_apart hacts hsame (List.mem_append_left _ hl) (.inr fun i hi => ?_)
      rw [Act.entered_append]
      exact List.mem_append_right _ (Level.mem_entered_allActs hl hi)
    · exact hwrapping
    · exact hwrapped
    · refine h.fits_apart hacts hsame (List.mem_append_right _ (.tail _ hl)) (.inl fun i hi => ?_)
      rw [Act.entered_append]
      exact List.mem_append_left _ (Level.mem_entered_allActs hl hi)

theorem step (h : Records log levels script) {levels' : List Level}
    (hstep : WriteStep (log, levels) (log', levels')) :
    ∃ script', Records log' levels' script' := by
  cases hstep with
  | token kind span => exact ⟨_, h.token kind span⟩
  | mark => exact ⟨_, h.mark⟩
  | complete kind hkind => exact ⟨_, h.complete hkind⟩
  | precede => exact ⟨_, h.precede⟩

theorem steps {log levels} (h : ReflTransGen WriteStep (#[], [⟨none, .nil, .nil⟩]) (log, levels)) :
    ∃ script, Records log levels script := by
  generalize hend : (log, levels) = s at h
  induction h generalizing log levels with
  | refl =>
    cases hend
    refine ⟨[], ⟨rfl, by simp, by simp, by simp [entered]⟩, rfl, ?_⟩
    intro l hl
    obtain rfl := List.mem_singleton.1 hl
    constructor <;> simp [Level.free, Level.nodes, Written.tops, Written.nodes]
  | @tail s s' _ hstep ih =>
    obtain ⟨script, h⟩ := @ih s.1 s.2 rfl
    exact h.step (hend ▸ hstep)

end Records

theorem Emits.rows {tree : Rose} {p : Nat} {log : EventLog} (h : Emits tree p log) :
    ∃ kind inside, tree = .node kind inside.roses ∧ ∀ (text : String) (errors : List SyntaxError),
      (Tree.ofLog text log errors).elements.toList.map Row.ofElement =
        (Written.node .nil p kind inside).forest.layout.outline none 0 := by
  obtain ⟨kind, inside, rfl, hsteps⟩ := h
  obtain ⟨script, hrecords⟩ := Records.steps hsteps
  have hkinds := (hrecords.fits _ List.mem_cons_self).kinds
  have hacts : script.flatten = (Written.node .nil p kind inside).acts := by
    rw [hrecords.acts_eq]
    simp [Level.allActs, Level.acts, Written.acts]
  have hfollows : Follows (fun q => log.kindOf ⟨q⟩) log 0 script :=
    hrecords.scripted.follows fun q hq => by
      rw [hacts, Written.entered_acts] at hq
      obtain ⟨n, hn, rfl⟩ := List.mem_map.1 hq
      obtain ⟨hkind, hne⟩ := hkinds n hn
      exact hkind ▸ hne
  have hreplay := hfollows.replayFrom {} []
  rw [hrecords.scripted.length_eq, hacts,
    (Written.node .nil p kind inside).foldl_acts (fun n hn => (hkinds n hn).1) ({}, [])] at hreplay
  obtain ⟨hrows, -, -⟩ := Forest.play_spec (Written.node .nil p kind inside).forest ({}, [])
    (fun id hid => by simp at hid)
  refine ⟨kind, inside, rfl, fun text errors => ?_⟩
  rw [← Forest.outline_layout]
  simp only [Tree.ofLog, hreplay]
  exact hrows

theorem Emits.rose_eq {tree : Rose} {p : Nat} {log : EventLog} (h : Emits tree p log)
    (text : String) (errors : List SyntaxError) :
    (Tree.ofLog text log errors).rose Tree.root = tree ∧
      (Tree.ofLog text log errors).preorder = List.range (Tree.ofLog text log errors).size := by
  obtain ⟨kind, inside, rfl, hrows⟩ := h.rows
  have hfold := Tree.map_foldFrom_of_rows Rose.token Rose.node (hrows text errors)
  rw [Written.folds_layout] at hfold
  exact ⟨(List.cons.inj hfold).1, Tree.preorder_of_rows rfl (hrows text errors)⟩

/-- Opens nodes around a closed one, each around the one before. -/
def EventLog.wrapAll (log : EventLog) (c : ClosedNode) : List NodeKind → EventLog × ClosedNode
  | [] => (log, c)
  | kind :: kinds =>
    let (log, m) := log.wrap c
    let (log, c) := log.close m kind
    wrapAll log c kinds

theorem Emits.wrapAll {tree : Rose} {p : Nat} {log : EventLog} (h : Emits tree p log)
    {kinds : List NodeKind} (hkinds : ∀ kind ∈ kinds, kind ≠ .absent) :
    Emits (kinds.foldl (fun tree kind => .node kind [tree]) tree) (log.wrapAll ⟨p⟩ kinds).2.position
      (log.wrapAll ⟨p⟩ kinds).1 := by
  induction kinds generalizing tree p log with
  | nil => exact h
  | cons kind kinds ih =>
    obtain ⟨hkind, hkinds⟩ := List.forall_mem_cons.1 hkinds
    obtain ⟨kind', inside, rfl, hsteps⟩ := h
    have hprecede := @WriteStep.precede log p kind' none .nil .nil inside .nil [] []
    refine @ih _ (log.wrap ⟨p⟩).2.position
      ((log.wrap ⟨p⟩).1.close (log.wrap ⟨p⟩).2 kind).1 ?_ hkinds
    exact ⟨kind, .node .nil p kind' inside, rfl, (hsteps.tail hprecede).tail (.complete kind hkind)⟩

/-- Every tree of nodes that have kinds can be written, and however it is written, what is built
from the log is the tree. The last one of nodes that come around each other is the outermost. -/
theorem build_eq_of_emits {kind : NodeKind} {children : List Rose}
    (hnamed : (Rose.node kind children).Named) : (∃ p log, Emits (.node kind children) p log) ∧
    ∀ p log, Emits (.node kind children) p log →
      ∀ (text : String) (errors : List SyntaxError),
        ((Tree.ofLog text log errors).rose Tree.root = .node kind children ∧
          (Tree.ofLog text log errors).preorder = List.range (Tree.ofLog text log errors).size) ∧
        ∀ kinds : List NodeKind, (∀ k ∈ kinds, k ≠ .absent) →
          (Tree.ofLog text (log.wrapAll ⟨p⟩ kinds).1 errors).rose Tree.root =
            kinds.foldl (fun tree k => .node k [tree]) (.node kind children) := by
  refine ⟨Rose.exists_emits hnamed,
    fun p log h text errors => ⟨h.rose_eq text errors, fun kinds hkinds => ?_⟩⟩
  exact ((h.wrapAll hkinds).rose_eq text errors).1

def sumOperands : List Rose :=
  [.node .nameExpr [.token .name ⟨0, 1⟩], .token .plus ⟨1, 2⟩, .token .name ⟨2, 3⟩]

def sumLog : EventLog :=
  #[.start .nameExpr (some 4), .token .name ⟨0, 1⟩, .finish, .token .plus ⟨1, 2⟩,
    .start .binaryExpr none, .token .name ⟨2, 3⟩, .finish]

theorem emits_sumLog : Emits (.node .binaryExpr sumOperands) 4 sumLog := by
  have hname : ReflTransGen WriteStep (#[], [⟨none, .nil, .nil⟩])
      (#[.start .nameExpr none, .token .name ⟨0, 1⟩, .finish],
        [⟨none, .nil, .node .nil 0 .nameExpr (.token .nil .name ⟨0, 1⟩)⟩]) :=
    ((ReflTransGen.single .mark).tail (.token .name ⟨0, 1⟩)).tail (.complete .nameExpr (by decide))
  have hoperator := hname.tail (.token .plus ⟨1, 2⟩)
  have hprecede := @WriteStep.precede
    #[.start .nameExpr none, .token .name ⟨0, 1⟩, .finish,
      .token .plus ⟨1, 2⟩] 0 .nameExpr none .nil .nil
    (.token .nil .name ⟨0, 1⟩) (.token .nil .plus ⟨1, 2⟩) [] []
  have hsum := ((hoperator.tail hprecede).tail (.token .name ⟨2, 3⟩)).tail
    (.complete .binaryExpr (by decide))
  exact ⟨.binaryExpr, _, rfl, hsum⟩

theorem build_eq_of_emits_sum : (Rose.node .binaryExpr sumOperands).Named ∧
    (Tree.ofLog "a+b" sumLog []).rose Tree.root = .node .binaryExpr sumOperands := by
  have hnamed : (Rose.node .binaryExpr sumOperands).Named := by
    simp [Rose.Named, Rose.AllNamed, sumOperands]
  exact ⟨hnamed, ((build_eq_of_emits hnamed).2 4 sumLog emits_sumLog "a+b" []).1.1⟩

end LuaAnalysis.Syntax
