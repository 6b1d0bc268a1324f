import LuaAnalysis.Proofs.Syntax.WellNested

/-!
A tree leaves no room at the front of a node: a node starts where the first thing in it starts, and
no token is empty. Only a node with nothing in it can be found between two tokens that touch.

The search for the token at an offset goes down from the root, at each level into one child that
touches the offset, and never comes back. A token that starts at the offset or goes on behind it is
always found. One that ends there is missed just if a node with nothing in it stands there too,
because that node starts there and has no token.
-/

namespace LuaAnalysis.Syntax

open LuaAnalysis.Text (Ascends IsBoundary)
open Relation (TransGen ReflTransGen)

namespace TreeBuilder

variable {b : TreeBuilder} {Good : Nat → Prop}

def Snug (b : TreeBuilder) : Prop := ∀ i p : Nat, b.parentAt? i = some p → p ∉ b.opened →
  ∃ first : Nat, b.parentAt? first = some p ∧ (b.spanAt first).start = (b.spanAt p).start

theorem Snug.push (h : b.Snug) (hnested : b.Nested Good) (kind : ElementKind) (span : Span) :
    (b.push kind span).Snug := by
  intro i p hp hclosed
  have hopened : (b.push kind span).opened = b.opened := rfl
  have hold : ∀ j : Nat, (b.push kind span).parentAt? j = some p → j ≠ b.elements.size ∧
      b.parentAt? j = some p := by
    intro j hj
    rw [parentAt?_push] at hj
    split at hj
    · exact absurd (List.mem_of_mem_head? hj) (hopened ▸ hclosed)
    · exact ⟨‹_›, hj⟩
  obtain ⟨-, hbefore⟩ := hold i hp
  obtain ⟨first, hfirst, hstart⟩ := h i p hbefore (hopened ▸ hclosed)
  have hlt := Nested.lt_size hfirst
  have hparent := hnested.parent_before first p hfirst
  refine ⟨first, ?_, ?_⟩
  · rw [parentAt?_push, if_neg (Nat.ne_of_lt hlt), hfirst]
  · rw [spanAt_push, spanAt_push, if_neg (Nat.ne_of_lt hlt), if_neg (by omega), hstart]

theorem Snug.openNode (h : b.Snug) (hnested : b.Nested Good) (kind : NodeKind) :
    (b.openNode kind).Snug := by
  intro i p hp hclosed
  rw [opened_openNode, List.mem_cons, not_or] at hclosed
  exact h.push hnested (.node kind) (.empty b.lastStop) i p hp hclosed.2

theorem Snug.finishNode (h : b.Snug) (hnested : b.Nested Good) : b.finishNode.Snug := by
  cases hopened : b.opened with
  | nil => rwa [TreeBuilder.finishNode, hopened]
  | cons id opened =>
    have hid : id < b.elements.size := hnested.linked.opened_lt id (hopened ▸ List.mem_cons_self)
    have hrest : b.finishNode.opened = opened := by simp [TreeBuilder.finishNode, hopened]
    have hspan := spanAt_finishNode hopened hid
    intro i p hp hclosed
    rw [parentAt?_finishNode] at hp
    rw [hrest] at hclosed
    by_cases hself : p = id
    · subst hself
      rcases hnested.closedSpan_cases hid with ⟨hnone, -⟩ | ⟨first, _, hfirst, -, -, heq⟩
      · exact absurd hp (hnone i)
      · have hne := Nat.ne_of_gt (hnested.parent_before first p hfirst)
        exact ⟨first, by rw [parentAt?_finishNode, hfirst], by rw [hspan, hspan, if_neg hne,
          if_pos rfl, heq]⟩
    · have hclosed' : p ∉ b.opened := by simp [hopened, hself, hclosed]
      obtain ⟨first, hfirst, hstart⟩ := h i p hp hclosed'
      -- the node that is closed stands in an open one
      have hne : first ≠ id := by
        rintro rfl
        exact hclosed' (hnested.opened_parent first (by simp [hopened]) p hfirst)
      exact ⟨first, by rw [parentAt?_finishNode, hfirst], by rw [hspan, hspan, if_neg hne,
        if_neg hself, hstart]⟩

theorem Snug.openNodes (h : b.Snug) (hnested : b.Nested Good) (kinds : List NodeKind) :
    (kinds.foldl TreeBuilder.openNode b).Snug := by
  induction kinds generalizing b with
  | nil => exact h
  | cons kind kinds ih => exact ih (h.openNode hnested kind) (hnested.openNode kind)

theorem Snug.replay (h : b.Snug) (hnested : b.Nested Good) (log : EventLog) (position : Nat)
    (errors : List SyntaxError) : (TreeBuilder.replay log position b errors).2.1.Snug := by
  unfold TreeBuilder.replay
  split
  · exact h.openNodes hnested _
  · exact h.push hnested _ _
  · exact h
  · exact h.finishNode hnested
  · exact h

theorem Awaits.snug_replayFrom {stop position : Nat} {log : EventLog}
    (h : b.Awaits Good stop ((log.toList.drop position).filterMap Event.tokenSpan?))
    (hsnug : b.Snug) (count : Nat)
    (errors : List SyntaxError) : (TreeBuilder.replayFrom count position log b errors).1.Snug := by
  induction count generalizing b position log errors with
  | zero => exact hsnug
  | succ count ih =>
    have hblanks := (blanks_replay log position b errors).drop (position + 1)
    exact ih ((h.replay errors).sublist (hblanks.filterMap_sublist rfl))
      (hsnug.replay h.nested log position errors) _

end TreeBuilder

theorem Layout.mem_leaves_of_outline {l : Layout} {above parent : Option ElementId}
    {start : ElementId} {kind : TokenKind} {span : Span}
    (h : Row.token kind span parent ∈ l.outline above start) : ⟨kind, span⟩ ∈ l.leaves := by
  induction l generalizing above start with
  | nil => cases h
  | token l kind' span' ih =>
    rw [outline, List.mem_append, List.mem_singleton] at h
    rw [leaves, List.mem_append, List.mem_singleton]
    refine h.imp ih fun heq => ?_
    obtain ⟨hkind, rfl, -⟩ := Row.mk.inj heq
    rw [ElementKind.token.inj hkind]
  | node l kind' inside ih ihInside =>
    rw [outline, List.mem_append, List.mem_cons] at h
    rw [leaves, List.mem_append]
    rcases h with h | h | h
    · exact .inl (ih h)
    · cases congrArg Row.kind h
    · exact .inr (ihInside h)

namespace Tree

/-- Nodes start with what is in them, and tokens are not empty. -/
structure Snug (t : Tree) : Prop where
  token_lt : ∀ id : ElementId, (t.tokenKind? id).isSome = true →
    (t.span id).start < (t.span id).stop
  first_child : ∀ p : ElementId, t.children p ≠ [] →
    ∃ first ∈ t.children p, (t.span first).start = (t.span p).start

theorem row_of_tokenKind? {t : Tree} {id : ElementId} {kind : TokenKind}
    (h : t.tokenKind? id = some kind) :
    Row.token kind (t.span id) (t.parent? id) ∈ t.elements.toList.map Row.ofElement := by
  unfold tokenKind? at h
  split at h
  · rename_i kind' span parent children next he
    obtain rfl := Option.some.inj h
    refine List.mem_map.2 ⟨_, Array.mem_toList_iff.2 (Array.mem_of_getElem? he), ?_⟩
    rw [Tree.span, parent?, he]
    rfl
  · cases h

theorem snug_ofLog {text : String} {f : Forest} (hf : f.Proper false) {log : EventLog}
    (hlog : log.toList = (Branch.node .chunk f).encode false) {stop : Nat}
    (hascends : Ascends 0 (f.leaves.map (·.span)) stop)
    (hgood : ∀ t ∈ f.leaves, IsBoundary text t.span.start ∧ IsBoundary text t.span.stop)
    (errors : List SyntaxError) :
    (Tree.ofLog text log errors).Snug := by
  have hforest : (Forest.branch .nil (.node .chunk f)).Proper false :=
    ⟨trivial, by simp, by simp, hf⟩
  have hencode : log.toList = (Forest.branch .nil (.node .chunk f)).encode := by
    simpa [Forest.encode] using hlog
  refine ⟨fun id hid => ?_, fun p hp => ?_⟩
  · obtain ⟨kind, hkind⟩ := Option.isSome_iff_exists.1 hid
    have hrow := row_of_tokenKind? hkind
    rw [Tree.rows_ofLog hforest hencode, Forest.outline_layout] at hrow
    have hleaf := Layout.mem_leaves_of_outline hrow
    rw [Forest.leaves_layout] at hleaf
    exact (hascends.bounds (List.mem_map_of_mem (f := (·.span)) hleaf)).2.1
  · have hstart : ({} : TreeBuilder).Snug := fun i p hp => by cases hp
    have hawaits := TreeBuilder.awaits_ofLog (Text.isBoundary_zero text) hencode hascends hgood
    have hsnug := hawaits.snug_replayFrom hstart log.size []
    obtain ⟨i, hi⟩ := List.exists_mem_of_ne_nil _ hp
    obtain ⟨first, hfirst, heq⟩ :=
      hsnug i p (mem_children_ofLog.1 hi) (by simp [(TreeBuilder.balanced hforest hencode).1])
    exact ⟨first, mem_children_ofLog.2 hfirst, heq⟩

theorem snug_parse (text : String) : (parse text).Snug := by
  obtain ⟨f, hf, hlog, hmatches⟩ := exists_chunk text
  obtain ⟨hascends, hgood⟩ := Forest.leaves_spec hmatches
  rw [parse_eq]
  exact snug_ofLog hf.proper hlog hascends hgood _

end Tree

namespace Tree

def isToken (t : Tree) (id : ElementId) : Bool := (t.tokenKind? id).isSome

def childAt? (t : Tree) (offset : Nat) (id : ElementId) : Option ElementId :=
  let touching := (t.children id).filter fun c => (t.span c).touches offset
  (touching.filter fun c => (t.span c).start == offset).getLast? <|> touching.head?

theorem tokenAt?_go_succ (t : Tree) (offset fuel : Nat) (id : ElementId) :
    tokenAt?.go t offset (fuel + 1) id =
    match t.childAt? offset id with
    | some c => if t.isNode c then tokenAt?.go t offset fuel c else some c
    | none => none := rfl

variable {t : Tree} {offset : Nat} {id p c d : Nat}

theorem lt_size_of_parent? (h : t.parent? id = some p) : id < t.size := by
  obtain ⟨e, he, -⟩ := Option.bind_eq_some_iff.1 h
  exact (Array.getElem?_eq_some_iff.1 he).1

theorem isToken_eq_not_isNode (h : id < t.size) : t.isToken id = !t.isNode id := by
  have hget : t.elements[id]? = some t.elements[id] := Array.getElem?_eq_getElem h
  rw [isToken, isNode, tokenKind?, nodeKind?, hget]
  generalize t.elements[id] = e
  obtain ⟨kind, span, parent, children, next⟩ := e
  cases kind <;> rfl

theorem lt_size_of_isToken (h : t.isToken id = true) : id < t.size := by
  by_contra hsize
  have hnone : t.elements[id]? = none := Array.getElem?_eq_none (Nat.le_of_not_lt hsize)
  simp [isToken, tokenKind?, hnone] at h

theorem lt_size_of_isNode (h : t.isNode id = true) : id < t.size := by
  by_contra hsize
  have hnone : t.elements[id]? = none := Array.getElem?_eq_none (Nat.le_of_not_lt hsize)
  simp [isNode, nodeKind?, hnone] at h

theorem touches_iff {s : Span} : s.touches offset = true ↔ s.start ≤ offset ∧ offset ≤ s.stop := by
  simp [Span.touches]

theorem childAt?_eq_some_iff : t.childAt? offset id = some c ↔
    (((t.children id).filter fun c => (t.span c).touches offset).filter
      fun c => (t.span c).start == offset).getLast? = some c ∨
    (((t.children id).filter fun c => (t.span c).touches offset).filter
      fun c => (t.span c).start == offset).getLast? = none ∧
      ((t.children id).filter fun c => (t.span c).touches offset).head? = some c := by
  rw [childAt?, Option.orElse_eq_orElse, Option.orElse_eq_or, Option.or_eq_some_iff]

theorem childAt?_spec (h : t.childAt? offset id = some c) : c ∈ t.children id ∧
    (t.span c).touches offset = true := by
  rcases childAt?_eq_some_iff.1 h with h | ⟨-, h⟩
  · exact List.mem_filter.1 (List.mem_filter.1 (List.mem_of_getLast? h)).1
  · exact List.mem_filter.1 (List.mem_of_head? h)

theorem childAt?_ne_none (hc : c ∈ t.children id) (htouches : (t.span c).touches offset = true) :
    t.childAt? offset id ≠ none := by
  have hmem : c ∈ (t.children id).filter fun c => (t.span c).touches offset :=
    List.mem_filter.2 ⟨hc, htouches⟩
  rw [childAt?, Option.orElse_eq_orElse, Option.orElse_eq_or, ne_eq, Option.or_eq_none_iff,
    List.head?_eq_none_iff]
  rintro ⟨-, hnil⟩
  rw [hnil] at hmem
  cases hmem

theorem Snug.isNode_of_start (hs : t.Snug)
    (hnone : ∀ c : Nat, t.isToken c = true → (t.span c).start ≤ offset → (t.span c).stop ≤ offset)
    (hsize : id < t.size)
    (hstart : (t.span id).start = offset) : t.isNode id = true := by
  by_contra hnode
  have htoken : t.isToken id = true := by
    rw [isToken_eq_not_isNode hsize, Bool.eq_false_of_not_eq_true hnode]
    rfl
  have := hnone id htoken (Nat.le_of_eq hstart)
  have := hs.token_lt id htoken
  omega

namespace WellNested

variable (hw : t.WellNested)

include hw

theorem mem_children_iff : c ∈ t.children p ↔ t.parent? c = some p := by
  rw [← List.count_pos_iff, hw.listed]
  split <;> simp [*]

theorem nodup_children (p : ElementId) : (t.children p).Nodup := by
  refine List.nodup_iff_count_le_one.2 fun c => ?_
  rw [hw.listed]
  split <;> decide

theorem le (h : id < t.size) : (t.span id).start ≤ (t.span id).stop := by
  obtain ⟨cs, hpiece⟩ := hw.piece id h
  rw [hpiece.stop_eq]
  exact Nat.le_add_right _ _

theorem bounds (h : TransGen (fun p id => t.parent? id = some p) p id) :
    (t.span p).start ≤ (t.span id).start ∧ (t.span id).stop ≤ (t.span p).stop := by
  simpa [Span.covers] using hw.covers p id h

theorem bounds_of_refl (h : ReflTransGen (fun p id => t.parent? id = some p) p id) :
    (t.span p).start ≤ (t.span id).start ∧ (t.span id).stop ≤ (t.span p).stop := by
  rcases Relation.reflTransGen_iff_eq_or_transGen.1 h with rfl | h
  · exact ⟨Nat.le_refl _, Nat.le_refl _⟩
  · exact hw.bounds h

theorem lt_of_below (h : TransGen (fun p id => t.parent? id = some p) p id) :
    p < id ∧ id < t.size := by
  induction h with
  | single hp => exact ⟨(hw.parent_node _ _ hp).2, lt_size_of_parent? hp⟩
  | tail _ hp ih => exact ⟨ih.1.trans (hw.parent_node _ _ hp).2, lt_size_of_parent? hp⟩

theorem below_root (h : id < t.size) :
    ReflTransGen (fun p id => t.parent? id = some p) root id := by
  induction id using Nat.strongRecOn with
  | ind id ih =>
    cases hparent : t.parent? id with
    | none =>
      rw [(hw.parent_eq_none id h).1 hparent]
    | some p =>
      have hlt := (hw.parent_node id p hparent).2
      exact (ih p hlt (hlt.trans h)).tail hparent

theorem apart (hc : c ∈ t.children id) (hd : d ∈ t.children id) :
    c = d ∨ (t.span c).stop ≤ (t.span d).start ∨ (t.span d).stop ≤ (t.span c).start := by
  by_cases hne : c = d
  · exact .inl hne
  · refine .inr ?_
    have hsymm : Std.Symm fun x y : Nat =>
      (t.span x).stop ≤ (t.span y).start ∨ (t.span y).stop ≤ (t.span x).start :=
        ⟨fun _ _ => Or.symm⟩
    have hpairwise : (t.children id).Pairwise fun x y : Nat =>
      (t.span x).stop ≤ (t.span y).start ∨ (t.span y).stop ≤ (t.span x).start :=
        (hw.siblings id).imp Or.inl
    exact hpairwise.forall hc hd hne

theorem start_childAt? (hc : c ∈ t.children id) (htouches : (t.span c).touches offset = true)
    (hstart : (t.span c).start = offset) (h : t.childAt? offset id = some d) :
    (t.span d).start = offset ∧ (c = d ∨ (t.span c).stop ≤ (t.span d).start) := by
  have hmem : c ∈ ((t.children id).filter fun c => (t.span c).touches offset).filter
      fun c => (t.span c).start == offset := by simp [hc, htouches, hstart]
  have hordered := ((hw.siblings id).filter fun c => (t.span c).touches offset).filter
    fun c => (t.span c).start == offset
  rcases childAt?_eq_some_iff.1 h with hlast | ⟨hnone, -⟩
  · obtain ⟨front, hfront⟩ := List.getLast?_eq_some_iff.1 hlast
    refine ⟨by simpa using (List.mem_filter.1 (List.mem_of_getLast? hlast)).2, ?_⟩
    rw [hfront] at hmem hordered
    rcases List.mem_append.1 hmem with hmem | hmem
    · exact .inr ((List.pairwise_append.1 hordered).2.2 c hmem d List.mem_cons_self)
    · exact .inl (List.mem_singleton.1 hmem)
  · rw [List.getLast?_eq_none_iff.1 hnone] at hmem
    cases hmem

theorem childAt?_eq (hc : c ∈ t.children id) (htouches : (t.span c).touches offset = true)
    (h : offset < (t.span c).stop ∨ ∀ d ∈ t.children id, (t.span d).start ≠ offset) :
    t.childAt? offset id = some c := by
  obtain ⟨d, hd⟩ := Option.ne_none_iff_exists'.1 (childAt?_ne_none hc htouches)
  obtain ⟨hmem, htouches'⟩ := childAt?_spec hd
  obtain ⟨hstart, hstop⟩ := touches_iff.1 htouches
  obtain ⟨hstart', hstop'⟩ := touches_iff.1 htouches'
  rcases hw.apart hc hmem with rfl | hbefore | hbehind
  · exact hd
  · rcases h with hlt | hnone
    · omega
    · exact absurd (by omega) (hnone d hmem)
  · -- the child that was found ends where this one starts
    have hat : (t.span c).start = offset := by omega
    rcases h with hlt | hnone
    · obtain ⟨hsame, rfl | hlast⟩ := hw.start_childAt? hc htouches hat hd
      · exact hd
      · omega
    · exact absurd hat (hnone c hc)

theorem go_spec {fuel : Nat} (h : tokenAt?.go t offset fuel id = some c) :
    t.isToken c = true ∧ (t.span c).touches offset = true := by
  induction fuel generalizing id with
  | zero => cases h
  | succ fuel ih =>
    rw [tokenAt?_go_succ] at h
    split at h
    · rename_i d hd
      obtain ⟨hmem, htouches⟩ := childAt?_spec hd
      split at h
      · exact ih h
      · obtain rfl := Option.some.inj h
        rename_i hnode
        have hsize := lt_size_of_parent? (hw.mem_children_iff.1 hmem)
        exact ⟨by simp [isToken_eq_not_isNode hsize, hnode], htouches⟩
    · cases h

theorem go_eq_some (htoken : t.isToken c = true) (htouches : (t.span c).touches offset = true)
    (h : offset < (t.span c).stop ∨ ∀ d : ElementId, d < t.size → (t.span d).start ≠ offset)
    {fuel : Nat}
    (hbelow : TransGen (fun p id => t.parent? id = some p) id c) (hfuel : t.size ≤ id + fuel) :
    tokenAt?.go t offset fuel id = some c := by
  induction fuel generalizing id with
  | zero =>
    have := hw.lt_of_below hbelow
    omega
  | succ fuel ih =>
    obtain ⟨d, hd, hrest⟩ := TransGen.head'_iff.1 hbelow
    obtain ⟨hstart, hstop⟩ := hw.bounds_of_refl hrest
    obtain ⟨hat, hat'⟩ := touches_iff.1 htouches
    have hfound : t.childAt? offset id = some d := by
      refine hw.childAt?_eq (hw.mem_children_iff.2 hd) (touches_iff.2 ⟨by omega, by omega⟩)
        (h.imp (by omega) fun h x hx => ?_)
      exact h x (lt_size_of_parent? (hw.mem_children_iff.1 hx))
    rw [tokenAt?_go_succ, hfound]
    dsimp only
    rcases Relation.reflTransGen_iff_eq_or_transGen.1 hrest with rfl | hrest
    · have hsize := lt_size_of_isToken htoken
      rw [if_neg (by simpa [isToken_eq_not_isNode hsize] using htoken)]
    · obtain ⟨e, he, -⟩ := TransGen.head'_iff.1 hrest
      have := (hw.parent_node _ _ hd).2
      rw [if_pos (hw.parent_node _ _ he).1, ih hrest (by omega)]

variable (hs : t.Snug) (hnone : ∀ c : Nat, t.isToken c = true → (t.span c).start ≤ offset →
  (t.span c).stop ≤ offset)

include hs hnone

theorem go_eq_none_of_start (hstart : (t.span id).start = offset) (fuel : Nat) :
    tokenAt?.go t offset fuel id = none := by
  induction fuel generalizing id with
  | zero => rfl
  | succ fuel ih =>
    rw [tokenAt?_go_succ]
    cases hfound : t.childAt? offset id with
    | none => rfl
    | some c =>
      obtain ⟨hmem, htouches⟩ := childAt?_spec hfound
      have hparent := hw.mem_children_iff.1 hmem
      have hbounds := hw.bounds (.single hparent)
      obtain ⟨hat, -⟩ := touches_iff.1 htouches
      have hstart' : (t.span c).start = offset := by omega
      simp only [hs.isNode_of_start hnone (lt_size_of_parent? hparent) hstart', if_true]
      exact ih hstart'

theorem go_eq_none_of_empty {n : Nat} (hempty : t.children n = []) (hsize : n < t.size)
    (hstart : (t.span n).start = offset)
    (hbelow : ReflTransGen (fun p id => t.parent? id = some p) id n) (fuel : Nat) :
    tokenAt?.go t offset fuel id = none := by
  induction fuel generalizing id with
  | zero => rfl
  | succ fuel ih =>
    rw [tokenAt?_go_succ]
    rcases hbelow.cases_head with rfl | ⟨c, hc, hrest⟩
    · simp [childAt?, hempty]
    · obtain ⟨hle, hle'⟩ := hw.bounds_of_refl hrest
      have hn := hw.le hsize
      have htouches : (t.span c).touches offset = true := touches_iff.2 ⟨by omega, by omega⟩
      have hmem := hw.mem_children_iff.2 hc
      cases hfound : t.childAt? offset id with
      | none => rfl
      | some d =>
        obtain ⟨hmem', htouches'⟩ := childAt?_spec hfound
        obtain ⟨hat, hat'⟩ := touches_iff.1 htouches'
        by_cases hd : (t.span d).start = offset
        · have hsize' := lt_size_of_parent? (hw.mem_children_iff.1 hmem')
          simp only [hs.isNode_of_start hnone hsize' hd, if_true]
          exact hw.go_eq_none_of_start hs hnone hd fuel
        · -- nothing among the children starts at the offset, so the search stays with the node
          have hc' : (t.span c).start ≠ offset :=
            fun heq => hd (hw.start_childAt? hmem htouches heq hfound).1
          obtain rfl : c = d := by
            rcases hw.apart hmem hmem' with rfl | hbefore | hbehind
            · rfl
            · omega
            · omega
          rcases hrest.cases_head with rfl | ⟨e, he, -⟩
          · exact absurd hstart hc'
          · simp only [(hw.parent_node _ _ he).1, if_true]
            exact ih hrest

theorem exists_empty_of_start (hsize : id < t.size) (hstart : (t.span id).start = offset) :
    ∃ n : Nat, t.isNode n = true ∧ t.children n = [] ∧ (t.span n).start = offset := by
  generalize hleft : t.size - id = left
  induction left using Nat.strongRecOn generalizing id with
  | ind left ih =>
    by_cases hempty : t.children id = []
    · exact ⟨id, hs.isNode_of_start hnone hsize hstart, hempty, hstart⟩
    · obtain ⟨first, hfirst, heq⟩ := hs.first_child id hempty
      have hparent := hw.mem_children_iff.1 hfirst
      have hlt := (hw.parent_node _ _ hparent).2
      have hsize' := lt_size_of_parent? hparent
      exact ih (t.size - first) (by omega) hsize' (heq.trans hstart) rfl

omit hs hnone in
theorem below_root_of_isToken (htoken : t.isToken id = true) :
    TransGen (fun p id => t.parent? id = some p) root id := by
  have hsize := lt_size_of_isToken htoken
  refine (Relation.reflTransGen_iff_eq_or_transGen.1 (hw.below_root hsize)).resolve_left ?_
  rintro rfl
  rw [isToken_eq_not_isNode hsize, isNode_of_nodeKind? hw.root_chunk] at htoken
  cases htoken

omit hs hnone in
theorem tokenAt?_of_lt (htoken : t.isToken id = true) (hstart : (t.span id).start ≤ offset)
    (hlt : offset < (t.span id).stop) : t.tokenAt? offset = some id :=
  hw.go_eq_some htoken (touches_iff.2 ⟨hstart, Nat.le_of_lt hlt⟩) (.inl hlt)
    (hw.below_root_of_isToken htoken) (Nat.le_add_left _ _)

theorem tokenAt?_eq_none_iff : t.tokenAt? offset = none ↔
    (∀ id, t.isToken id = true → (t.span id).touches offset = false) ∨
      ∃ n, t.isNode n = true ∧ t.children n = [] ∧ (t.span n).start = offset := by
  constructor
  · intro hmissed
    by_contra hmiss
    obtain ⟨hsome, hfull⟩ := not_or.1 hmiss
    push Not at hsome hfull
    obtain ⟨id, htoken, htouches⟩ := hsome
    have hbare : ∀ d : Nat, d < t.size → (t.span d).start ≠ offset := fun d hd hstart => by
      obtain ⟨n, hnode, hempty, hn⟩ := hw.exists_empty_of_start hs hnone hd hstart
      exact hfull n hnode hempty hn
    have hlast := hw.go_eq_some htoken (by simpa using htouches) (.inr hbare)
      (hw.below_root_of_isToken htoken) (Nat.le_add_left _ _)
    cases hmissed.symm.trans hlast
  · rintro (hmiss | ⟨n, hnode, hempty, hstart⟩)
    · cases h : t.tokenAt? offset with
      | none => rfl
      | some id =>
        obtain ⟨htoken, htouches⟩ := hw.go_spec h
        rw [hmiss id htoken] at htouches
        cases htouches
    · have hsize := lt_size_of_isNode hnode
      exact hw.go_eq_none_of_empty hs hnone hempty hsize hstart (hw.below_root hsize) _

end WellNested

/-- What the search for the token at an offset finds touches the offset. A token that starts there
or goes on behind it is found, and one that only ends there unless a node with nothing in it stands
there. -/
theorem tokenAt?_parse (text : String) (offset : Nat) :
    let t := parse text
    (∀ id, t.tokenAt? offset = some id → t.isToken id = true ∧ (t.span id).touches offset = true) ∧
    (∀ id, t.isToken id = true → (t.span id).start ≤ offset → offset < (t.span id).stop →
      t.tokenAt? offset = some id) ∧
    (t.tokenAt? offset = none ↔
      (∀ id, t.isToken id = true → (t.span id).start ≤ offset → (t.span id).stop ≤ offset) ∧
      ((∀ id, t.isToken id = true → (t.span id).touches offset = false) ∨
        ∃ n, t.isNode n = true ∧ t.children n = [] ∧ (t.span n).start = offset)) := by
  intro t
  have hw : t.WellNested := (parse_wellNested text).1
  have hs : t.Snug := snug_parse text
  refine ⟨fun id h => hw.go_spec h, fun id => hw.tokenAt?_of_lt, fun hmissed => ?_, ?_⟩
  · have hends : ∀ id, t.isToken id = true → (t.span id).start ≤ offset →
        (t.span id).stop ≤ offset := by
      intro id htoken hstart
      by_contra hlt
      rw [hw.tokenAt?_of_lt htoken hstart (Nat.lt_of_not_le hlt)] at hmissed
      cases hmissed
    exact ⟨hends, (hw.tokenAt?_eq_none_iff hs hends).1 hmissed⟩
  · rintro ⟨hends, hmiss⟩
    exact (hw.tokenAt?_eq_none_iff hs hends).2 hmiss

/-- At every offset that a token touches one is found, and the one that starts there if one does. -/
def FindsTokens (t : Tree) : Prop := ∀ offset id, t.isToken id = true →
    (t.span id).touches offset = true →
  ∃ found, t.tokenAt? offset = some found ∧ (t.span found).touches offset = true ∧
    ((t.span id).start = offset → (t.span found).start = offset)

/-- Between the words of a loop with an empty body stands a node with nothing in it, where the first
of the words ends. -/
theorem not_findsTokens_emptyBody : ¬ (parse "while x do end").FindsTokens := by
  intro h
  have htoken : (parse "while x do end").isToken 6 = true := by decide +kernel
  have htouches : ((parse "while x do end").span 6).touches 10 = true := by decide +kernel
  have hnone : (parse "while x do end").tokenAt? 10 = none := by decide +kernel
  obtain ⟨found, hfound, -⟩ := h 10 6 htoken htouches
  exact absurd (hnone.symm.trans hfound) (by simp)

end Tree

end LuaAnalysis.Syntax
