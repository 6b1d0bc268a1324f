import Mathlib.Data.List.Induction
import Mathlib.Data.List.Nodup
import LuaAnalysis.Proofs.Inference.Settles
import LuaAnalysis.Proofs.Syntax.TreePlaces
import LuaAnalysis.Proofs.Types.Substitution
import LuaAnalysis.Report.Flow

/-!
The return statements of the body of a function, and what the function returns by them. They are
looked for with a stack of nodes, which is out of the order of the text, and no node is opened
twice. What is found are the statements that stand in no function inside the body: a return
statement stands in a block, and the blocks around it lead up to the body.
-/

namespace LuaAnalysis.Inference

open Relation (ReflTransGen)
open Document LuaAnalysis.Types Syntax Workspace

section Slots

variable {returns order : List (List Ty)} {values : List Ty} {r : ReturnSlots} {i : Nat}

def longest (returns : List (List Ty)) : Nat := (returns.map List.length).foldl max 0

/-- The values at one place of each list. A list that is too short has `nil` there. -/
def column (returns : List (List Ty)) (i : Nat) : List Ty :=
  returns.map fun values => values[i]?.getD .nil

theorem longest_concat (returns : List (List Ty)) (values : List Ty) :
    longest (returns ++ [values]) = max (longest returns) values.length := by
  simp [longest]

theorem column_concat (returns : List (List Ty)) (values : List Ty) (i : Nat) :
    column (returns ++ [values]) i = column returns i ++ [values[i]?.getD .nil] := by
  simp [column]

theorem length_le_longest (h : values ∈ returns) : values.length ≤ longest returns := by
  induction returns using List.reverseRecOn with
  | nil => cases h
  | append_singleton returns last ih =>
    rw [longest_concat]
    rcases List.mem_append.1 h with h | h
    · exact Nat.le_trans (ih h) (Nat.le_max_left _ _)
    · exact List.mem_singleton.1 h ▸ Nat.le_max_right _ _

theorem column_of_longest_le (h : longest returns ≤ i) :
    column returns i = List.replicate returns.length .nil := by
  rw [column, ← List.map_const']
  refine List.map_congr_left fun values hvalues => ?_
  rw [List.getElem?_eq_none (Nat.le_trans (length_le_longest hvalues) h)]
  rfl

/-- Between two statements the slots are the columns of what was looked at. -/
structure Filled (r : ReturnSlots) (returns : List (List Ty)) : Prop where
  slots : r.slots = (List.range (longest returns)).map (column returns)
  seen : r.seen = returns.length

theorem Filled.padded (h : Filled r returns) (values : List Ty) :
    r.slots ++ List.replicate (values.length - r.slots.length) (List.replicate r.seen Ty.nil) =
      (List.range (longest (returns ++ [values]))).map (column returns) := by
  have hlength : r.slots.length = longest returns := by simp [h.slots]
  have hmax : max (longest returns) values.length = longest returns +
      (values.length - longest returns) := by omega
  rw [longest_concat, hmax, List.range_add, List.map_append, ← h.slots, hlength, h.seen,
    List.map_map]
  -- where no statement before had a value, all of them count as `nil`
  have hnew : ∀ i ∈ List.range (values.length - longest returns),
      (column returns ∘ (longest returns + ·)) i = List.replicate returns.length .nil :=
    fun i _ => column_of_longest_le (Nat.le_add_right _ i)
  rw [List.map_congr_left hnew, List.map_const', List.length_range]

theorem Filled.add (h : Filled r returns) (values : List Ty) :
    Filled (r.add values) (returns ++ [values]) := by
  refine ⟨?_, by simp [ReturnSlots.add, h.seen]⟩
  simp only [ReturnSlots.add, h.padded values]
  refine List.ext_getElem (by simp) fun i hi _ => ?_
  simp [column_concat]

theorem filled_foldl (returns : List (List Ty)) :
    Filled (returns.foldl ReturnSlots.add {}) returns := by
  induction returns using List.reverseRecOn with
  | nil => exact ⟨rfl, rfl⟩
  | append_singleton returns values ih =>
    rw [List.foldl_append]
    exact ih.add values

theorem mergeReturns_eq (returns : List (List Ty)) :
    mergeReturns returns =
    .ofReturns ((List.range (longest returns)).map fun i => .unionOf (column returns i)) := by
  rw [mergeReturns, (filled_foldl returns).slots, List.map_map]
  rfl

/-- A type is the result of a function whose return statements return these lists of values. -/
structure Merges (returns : List (List Ty)) (result : Ty) : Prop where
  none : longest returns = 0 → result = .nil
  one : longest returns = 1 → result = .unionOf (column returns 0)
  several : 2 ≤ longest returns →
    result = .multi ((List.range (longest returns)).map fun i => .unionOf (column returns i))

theorem merges_mergeReturns (returns : List (List Ty)) : Merges returns (mergeReturns returns) := by
  rw [mergeReturns_eq]
  generalize hslots : (List.range (longest returns)).map (fun i => Ty.unionOf (column returns i)) =
    slots
  refine ⟨fun h => ?_, fun h => ?_, fun h => ?_⟩
  · obtain rfl : slots = [] := by rw [← hslots, h]; rfl
    rfl
  · obtain rfl : slots = [.unionOf (column returns 0)] := by rw [← hslots, h]; rfl
    rfl
  · have hlength : 2 ≤ slots.length := by simpa [← hslots] using h
    rw [hslots, Ty.ofReturns_of_two_le hlength]

theorem longest_perm (h : order.Perm returns) : longest order = longest returns :=
  (h.map _).foldl_op_eq

theorem column_perm (h : order.Perm returns) (i : Nat) :
    (column order i).Perm (column returns i) := h.map _

theorem normalized_column (h : ∀ values ∈ returns, ∀ t ∈ values, t.Normalized) (i : Nat) :
    ∀ t ∈ column returns i, t.Normalized := by
  simp only [column, List.forall_mem_map]
  intro values hvalues
  cases hvalue : values[i]? with
  | none => exact .leaf rfl rfl
  | some t => exact h values hvalues t (List.mem_of_getElem? hvalue)

theorem beq_ofReturns {ts us : List Ty} (h : Ty.EqualEach ts us) :
    (Ty.ofReturns ts == Ty.ofReturns us) = true := by
  cases h with
  | nil => rfl
  | @cons t u ts us htu h =>
    cases h with
    | nil => exact htu
    | cons hnext h => exact Ty.beqList_iff.2 (.cons htu (.cons hnext h))

theorem beq_mergeReturns_of_perm (h : order.Perm returns)
    (hnormal : ∀ values ∈ returns, ∀ t ∈ values, t.Normalized) :
    (mergeReturns order == mergeReturns returns) = true := by
  have hnormal' : ∀ values ∈ order, ∀ t ∈ values, t.Normalized :=
    fun values hvalues => hnormal values (h.mem_iff.1 hvalues)
  rw [mergeReturns_eq, mergeReturns_eq, longest_perm h]
  refine beq_ofReturns ?_
  rw [Ty.EqualEach, List.forall₂_map_left_iff, List.forall₂_map_right_iff, List.forall₂_same]
  refine fun i _ => Ty.beq_unionOf_of_exists (normalized_column hnormal' i)
    (normalized_column hnormal i) ?_ ?_
  · exact fun t ht => ⟨t, (column_perm h i).mem_iff.1 ht, Ty.beq_refl t⟩
  · exact fun t ht => ⟨t, (column_perm h i).mem_iff.2 ht, Ty.beq_refl t⟩

end Slots

def ownReturns (t : Tree) (node : ElementId) : List ElementId :=
  (t.childNodes node).filter fun c => t.kind c == .returnStat

def innerNodes (t : Tree) (node : ElementId) : List ElementId :=
  (t.childNodes node).filter fun c => t.kind c != .returnStat && t.kind c != .closureExpr

def openedBelow (t : Tree) : Nat → List ElementId → List ElementId
  | 0, _ => []
  | _, [] => []
  | fuel + 1, node :: stack => node :: openedBelow t fuel ((innerNodes t node).reverse ++ stack)

variable {t : Tree} {body node stat m c p : ElementId} {seen stack : List ElementId}

theorem returnsBelow_eq (t : Tree) (fuel : Nat) (stack : List ElementId) :
    returnsBelow t fuel stack = (openedBelow t fuel stack).flatMap (ownReturns t) := by
  induction fuel generalizing stack with
  | zero => rfl
  | succ fuel ih =>
    cases stack with
    | nil => rfl
    | cons node stack =>
      rw [openedBelow, List.flatMap_cons, ← ih]
      rfl

def Enters (t : Tree) (node c : ElementId) : Prop := c ∈ innerNodes t node

theorem enters_iff (hw : t.WellNested) : Enters t node c ↔
    t.parent? c = some node ∧ t.isNode c = true ∧ t.kind c ≠ .returnStat ∧
    t.kind c ≠ .closureExpr := by
  simp only [Enters, innerNodes, Tree.childNodes, List.mem_filter, hw.mem_children_iff,
    Bool.and_eq_true, bne_iff_ne, and_assoc]

theorem mem_ownReturns_iff (hw : t.WellNested) :
    stat ∈ ownReturns t node ↔ t.parent? stat = some node ∧ t.kind stat = .returnStat := by
  simp only [ownReturns, Tree.childNodes, List.mem_filter, hw.mem_children_iff,
    beq_iff_eq, and_assoc]
  refine and_congr_right fun _ => and_iff_right_of_imp fun hkind => ?_
  exact Tree.isNode_of_nodeKind? (Tree.nodeKind?_of_kind hkind NodeKind.noConfusion)

/-- What was opened and what is still to be opened are different nodes at or below the body, each
below one that was opened. -/
structure Walk (t : Tree) (body : ElementId) (seen stack : List ElementId) : Prop where
  nodup : (seen ++ stack).Nodup
  lt_size : ∀ x ∈ seen ++ stack, x < t.size
  below : ∀ x ∈ seen ++ stack, x = body ∨ body < x ∧ ∃ p ∈ seen, t.parent? x = some p

theorem Walk.le (h : Walk t body seen stack) (hm : m ∈ seen ++ stack) : body ≤ m := by
  rcases h.below m hm with rfl | ⟨hlt, -⟩
  · exact Nat.le_refl _
  · exact Nat.le_of_lt hlt

theorem Walk.fresh (hw : t.WellNested) (h : Walk t body seen (node :: stack))
    (hparent : t.parent? c = some node) : c ∉ seen ++ node :: stack := by
  intro hc
  have hnode : node ∈ seen ++ node :: stack := by simp
  have hlt := (hw.parent_node c node hparent).2
  rcases h.below c hc with rfl | ⟨-, p, hp, heq⟩
  · exact Nat.not_lt.2 (h.le hnode) hlt
  · obtain rfl := Option.some.inj (heq.symm.trans hparent)
    exact (List.nodup_append.1 h.nodup).2.2 p hp p List.mem_cons_self rfl

theorem Walk.step (hw : t.WellNested) (h : Walk t body seen (node :: stack)) :
    Walk t body (seen ++ [node]) ((innerNodes t node).reverse ++ stack) := by
  have hperm : (seen ++ [node] ++ ((innerNodes t node).reverse ++ stack)).Perm
      ((seen ++ node :: stack) ++ innerNodes t node) := by
    have hrest : ((innerNodes t node).reverse ++ stack).Perm (stack ++ innerNodes t node) :=
      List.perm_append_comm.trans ((List.reverse_perm _).append_left _)
    simpa using (hrest.append_left (seen ++ [node]))
  have hinner : ∀ c ∈ innerNodes t node, t.parent? c = some node ∧ c < t.size := fun c hc =>
    have hparent := ((enters_iff hw).1 hc).1
    ⟨hparent, Tree.lt_size_of_parent? hparent⟩
  refine ⟨?_, fun x hx => ?_, fun x hx => ?_⟩
  · rw [hperm.nodup_iff, List.nodup_append]
    refine ⟨h.nodup,
      ((hw.nodup_children node).sublist (List.filter_sublist.trans List.filter_sublist)), ?_⟩
    rintro x hx _ hc rfl
    exact h.fresh hw (hinner x hc).1 hx
  · rcases List.mem_append.1 (hperm.mem_iff.1 hx) with hx | hx
    · exact h.lt_size x hx
    · exact (hinner x hx).2
  · rcases List.mem_append.1 (hperm.mem_iff.1 hx) with hx | hx
    · exact (h.below x hx).imp_right fun ⟨hlt, p, hp, heq⟩ =>
        ⟨hlt, p, List.mem_append_left _ hp, heq⟩
    · have hparent := (hinner x hx).1
      have hlt := (hw.parent_node x node hparent).2
      exact .inr ⟨Nat.lt_of_le_of_lt (h.le (by simp)) hlt, node, by simp, hparent⟩

theorem Walk.opened (hw : t.WellNested) {fuel : Nat} (h : Walk t body seen stack)
    (hfuel : t.size ≤ seen.length + fuel) : (seen ++ openedBelow t fuel stack).Nodup ∧
      ∀ m, m ∈ openedBelow t fuel stack ↔ ∃ node ∈ stack, ReflTransGen (Enters t) node m := by
  induction fuel generalizing seen stack with
  | zero =>
    -- as many nodes were opened as there are elements, and those on the stack are others
    have hlength : (seen ++ stack).length ≤ t.size := by
      have hsub : (seen ++ stack).Subperm (List.range t.size) :=
        List.subperm_of_subset h.nodup fun x hx => List.mem_range.2 (h.lt_size x hx)
      simpa using hsub.length_le
    obtain rfl : stack = [] := by
      rw [List.length_append] at hlength
      exact List.length_eq_zero_iff.1 (by omega)
    exact ⟨h.nodup, by simp [openedBelow]⟩
  | succ fuel ih =>
    cases stack with
    | nil => exact ⟨h.nodup, by simp [openedBelow]⟩
    | cons node stack =>
      obtain ⟨hnodup, hmem⟩ := ih (h.step hw) (by simp; omega)
      refine ⟨by simpa [openedBelow] using hnodup, fun m => ?_⟩
      rw [openedBelow, List.mem_cons, hmem, List.exists_mem_cons_iff,
        Relation.ReflTransGen.cases_head_iff, or_assoc, eq_comm]
      refine or_congr_right ?_
      simp only [List.mem_append, List.mem_reverse, or_and_right, exists_or]
      rfl

theorem openedBelow_body (hw : t.WellNested) (hbody : body < t.size) :
    (openedBelow t t.size [body]).Nodup ∧ ∀ m, m ∈ openedBelow t t.size [body] ↔
    ReflTransGen (Enters t) body m := by
  have hwalk : Walk t body [] [body] := ⟨by simp, by simpa using hbody, by simp⟩
  simpa using hwalk.opened hw (show t.size ≤ ([] : List ElementId).length + t.size by simp)

theorem mem_bodyReturns (hw : t.WellNested) (hbody : body < t.size) : stat ∈ bodyReturns t body ↔
    t.kind stat = .returnStat ∧ ∃ m, ReflTransGen (Enters t) body m ∧ t.parent? stat = some m := by
  simp only [bodyReturns, returnsBelow_eq, List.mem_flatMap, (openedBelow_body hw hbody).2,
    mem_ownReturns_iff hw]
  constructor
  · rintro ⟨m, hm, hparent, hkind⟩
    exact ⟨hkind, m, hm, hparent⟩
  · rintro ⟨hkind, m, hm, hparent⟩
    exact ⟨m, hm, hparent, hkind⟩

theorem nodup_bodyReturns (hw : t.WellNested) (hbody : body < t.size) :
    (bodyReturns t body).Nodup := by
  rw [bodyReturns, returnsBelow_eq, List.nodup_flatMap]
  refine ⟨fun node _ => (hw.nodup_children node).sublist
    (List.filter_sublist.trans List.filter_sublist), ?_⟩
  refine (openedBelow_body hw hbody).1.imp fun {m n} hne stat hm hn => hne ?_
  have hm := ((mem_ownReturns_iff hw).1 hm).1
  exact Option.some.inj (hm.symm.trans ((mem_ownReturns_iff hw).1 hn).1)

theorem perm_returnStats (t : Tree) (body : ElementId) :
    (Report.returnStats t body).Perm (bodyReturns t body) :=
  List.mergeSort_perm _ _

def functionAround? (t : Tree) (id : ElementId) : Option ElementId :=
  (t.ancestors id).find? fun n => t.kind n == .closureExpr

theorem ancestors_go (hw : t.WellNested) {fuel id : Nat} (h : id < fuel) :
    Tree.ancestors.go t fuel id = t.ancestors id := by
  induction id using Nat.strong_induction_on generalizing fuel with
  | _ id ih =>
    obtain ⟨fuel, rfl⟩ : ∃ n, fuel = n + 1 := ⟨fuel - 1, by omega⟩
    rw [Tree.ancestors, Tree.ancestors.go, Tree.ancestors.go]
    cases hparent : t.parent? id with
    | none => rfl
    | some p =>
      have hlt := (hw.parent_node id p hparent).2
      simp only
      rw [ih p hlt hlt, ih p hlt (by omega)]

theorem functionAround?_of_parent? (hw : t.WellNested) (h : t.parent? c = some p) :
    functionAround? t c = if t.kind p = .closureExpr then some p else functionAround? t p := by
  have hancestors : t.ancestors c = p :: t.ancestors p := by
    rw [Tree.ancestors, Tree.ancestors.go, h]
    simp only
    rw [ancestors_go hw (hw.parent_node c p h).2]
  rw [functionAround?, hancestors]
  split
  · next hkind => exact List.find?_cons_of_pos (by simpa using hkind)
  · next hkind => exact List.find?_cons_of_neg (by simpa using hkind)

theorem functionAround?_of_enters (hw : t.WellNested) {closure : ElementId}
    (hclosure : t.kind closure = .closureExpr) (hbody : t.child? closure .block = some body)
    (h : ReflTransGen (Enters t) body m) :
    t.kind m ≠ .closureExpr ∧ functionAround? t m = some closure := by
  induction h with
  | refl =>
    have hkind := Tree.nodeKind?_of_child? hbody
    have hparent := hw.mem_children_iff.1 (List.mem_of_find?_eq_some hbody)
    rw [functionAround?_of_parent? hw hparent, if_pos hclosure]
    exact ⟨by simp [Tree.kind, hkind], rfl⟩
  | tail _ hstep ih =>
    obtain ⟨hparent, -, -, hkind⟩ := (enters_iff hw).1 hstep
    rw [functionAround?_of_parent? hw hparent, if_neg ih.1]
    exact ⟨hkind, ih.2⟩

theorem entered_of_functionAround? (ht : t.Orderly) {closure x : ElementId}
    (hbody : t.child? closure .block = some body) (hplaced : (t.kind x).isPlaced = true)
    (hx : functionAround? t x = some closure) :
    x = body ∨ ∃ m, ReflTransGen (Enters t) body m ∧ t.parent? x = some m := by
  have hw := ht.toWellNested
  induction x using Nat.strong_induction_on with
  | _ x ih =>
    cases hparent : t.parent? x with
    | none =>
      rw [functionAround?, Tree.ancestors, Tree.ancestors.go, hparent] at hx
      cases hx
    | some p =>
      rw [functionAround?_of_parent? hw hparent] at hx
      rcases NodeKind.of_mayHold (ht.mayHold_of_parent? hparent hplaced) hplaced with ⟨hclosure,
        hblock⟩ | ⟨hfunction, hreturn, hp⟩
      · -- a block that is directly in a function is its body
        rw [if_pos hclosure] at hx
        obtain rfl := Option.some.inj hx
        exact .inl (Option.some.inj ((ht.child?_block_of_parent? hparent hblock).symm.trans hbody))
      · rw [if_neg hfunction] at hx
        refine .inr ⟨p, ?_, rfl⟩
        rcases ih p (hw.parent_node x p hparent).2 hp hx with rfl | ⟨m, hm, hparent'⟩
        · exact .refl
        · exact hm.tail ((enters_iff hw).2 ⟨hparent', (hw.parent_node x p hparent).1,
            hreturn, hfunction⟩)

theorem mem_bodyReturns_iff {text : String} {closure : ElementId}
    (hclosure : (parse text).kind closure = .closureExpr)
    (hbody : (parse text).child? closure .block = some body) :
    stat ∈ bodyReturns (parse text) body ↔
      (parse text).kind stat = .returnStat ∧ functionAround? (parse text) stat = some closure := by
  have hw := (parse_wellNested text).1
  have hlt := Tree.lt_size_of_isNode (Tree.isNode_of_nodeKind? (Tree.nodeKind?_of_child? hbody))
  rw [mem_bodyReturns hw hlt]
  refine and_congr_right fun hkind => ⟨?_, fun hstat => ?_⟩
  · rintro ⟨m, hm, hparent⟩
    obtain ⟨hfunction, hm⟩ := functionAround?_of_enters hw hclosure hbody hm
    rw [functionAround?_of_parent? hw hparent, if_neg hfunction]
    exact hm
  · rcases entered_of_functionAround? (parse_orderly text) hbody
      (by rw [hkind]; rfl) hstat with rfl | hentered
    · rw [Tree.kind, Tree.nodeKind?_of_child? hbody] at hkind
      cases hkind
    · exact hentered

theorem exists_map_eq_mapM {α β : Type} [Nonempty β] (f : α → Search β) {xs : List α} (h : xs.Nodup)
    (s : SearchState) : ∃ values : α → β, (xs.mapM f s).1 = xs.map values := by
  classical
  induction xs generalizing s with
  | nil => exact ⟨Classical.arbitrary _, rfl⟩
  | cons x xs ih =>
    obtain ⟨hx, hxs⟩ := List.nodup_cons.1 h
    obtain ⟨values, hvalues⟩ := ih hxs (f x s).2
    refine ⟨Function.update values x (f x s).1, ?_⟩
    have hrest : xs.map (Function.update values x (f x s).1) = xs.map values :=
      List.map_congr_left fun y hy => Function.update_of_ne (ne_of_mem_of_not_mem hy hx) _ _
    rw [List.mapM_cons, Search.bind_apply (x := f x) rfl, List.map_cons, Function.update_self,
      hrest, ← hvalues]
    rfl

theorem inferBodyReturns_apply {p : Project} {doc : DocId} {closure : ElementId}
    (htree : p.tree? doc = some t) (hbody : t.child? closure .block = some body) (e : Engine)
    (s : SearchState) :
    (inferBodyReturns p e ⟨doc, closure⟩ s).1 =
      mergeReturns ((bodyReturns t body).mapM
        (fun stat => exprListTypes e doc (t.exprs stat)) s).1 := by
  simp only [inferBodyReturns, htree, hbody]
  rfl

/-- The return statements of a function are those whose innermost function it is, and its result is
put together from the values of all of them, whatever order they are looked at in. -/
theorem inferred_returns {text : String} {closure body : ElementId}
    (hclosure : (parse text).kind closure = .closureExpr)
    (hbody : (parse text).child? closure .block = some body) :
    let t := parse text
    let stats := bodyReturns t body
    (∀ stat, stat ∈ stats ↔ t.kind stat = .returnStat ∧ functionAround? t stat = some closure) ∧
    stats.Nodup ∧
    (Report.returnStats t body).Perm stats ∧
    ∀ (p : Project) (doc : DocId), p.tree? doc = some t →
    ∀ (e : Engine) (s : SearchState), ∃ values : ElementId → List Ty,
      (stats.mapM (fun stat => exprListTypes e doc (t.exprs stat)) s).1 = stats.map values ∧
      Merges (stats.map values) (inferBodyReturns p e ⟨doc, closure⟩ s).1 ∧
      ∀ order : List ElementId, order.Perm stats →
      Merges (order.map values) (mergeReturns (order.map values)) ∧
        ((∀ stat ∈ stats, ∀ v ∈ values stat, v.Normalized) →
          (mergeReturns (order.map values) == (inferBodyReturns p e ⟨doc, closure⟩ s).1) =
          true) := by
  have hw := (parse_wellNested text).1
  have hlt := Tree.lt_size_of_isNode (Tree.isNode_of_nodeKind? (Tree.nodeKind?_of_child? hbody))
  have hnodup := nodup_bodyReturns hw hlt
  refine ⟨fun stat => mem_bodyReturns_iff hclosure hbody, hnodup, perm_returnStats _ _,
    fun p doc htree e s => ?_⟩
  obtain ⟨values, hvalues⟩ :=
    exists_map_eq_mapM (fun stat => exprListTypes e doc ((parse text).exprs stat)) hnodup s
  refine ⟨values, hvalues, ?_⟩
  rw [inferBodyReturns_apply htree hbody, hvalues]
  refine ⟨merges_mergeReturns _, fun order horder => ⟨merges_mergeReturns _, fun hnormal => ?_⟩⟩
  exact beq_mergeReturns_of_perm (horder.map values) (List.forall_mem_map.2 hnormal)

def branches : String := "function f(x) if x then return 1 end return 2, 3 end"

def withBranches : Project := ((Project.ofSettings {}).add ⟨"file:///t.lua", "/t.lua"⟩ branches).1

theorem tree?_withBranches : withBranches.tree? 0 = some (parse branches) := by
  have hid : (({} : Store).setText ⟨"file:///t.lua", "/t.lua"⟩ branches).2 = 0 := by decide +kernel
  have hget : withBranches.tree? 0 =
      ((({} : Store).setText ⟨"file:///t.lua", "/t.lua"⟩ branches).1.get? 0).map (·.tree) := rfl
  rw [hget, Store.get?_setText, hid, if_pos rfl]
  rfl

/-- The long statement is looked at first, and the short one is told to return `nil` behind its
value. -/
theorem inferred_returns_branches :
    let t := parse branches
    let result := (inferBodyReturns withBranches (fullEngine withBranches) ⟨0, 6⟩ {}).1
    bodyReturns t 12 = [24, 19] ∧ (Report.returnStats t 12).Perm [24, 19] ∧
    (∀ stat, stat ∈ [24, 19] ↔ t.kind stat = .returnStat ∧ functionAround? t stat = some 6) ∧
    (result == .multi [.union [.intConst 2, .intConst 1], .union [.intConst 3, .nil]]) = true ∧
    ∃ values : ElementId → List Ty, Merges [values 24, values 19] result ∧
      (mergeReturns [values 19, values 24] == result) = true := by
  intro t result
  -- together, so that the document is read only once
  obtain ⟨hclosure, hbody, hstats, hleaves, hresult⟩ : t.kind 6 = .closureExpr ∧
      t.child? 6 .block = some 12 ∧
      bodyReturns t 12 = [24, 19] ∧
      ((bodyReturns t 12).mapM (fun stat =>
        exprListTypes (fullEngine withBranches) 0 (t.exprs stat)) {}).1.all (fun values =>
          values.all fun v => !v.isUnion && v.children.isEmpty) = true ∧
      (result == .multi [.union [.intConst 2, .intConst 1], .union [.intConst 3, .nil]]) =
      true := by decide +kernel
  obtain ⟨hmem, -, hsorted, h⟩ := @inferred_returns branches 6 12 hclosure hbody
  obtain ⟨values, hvalues, hmerges, h⟩ :=
    h withBranches 0 tree?_withBranches (fullEngine withBranches) {}
  rw [hvalues] at hleaves
  have hnormal : ∀ stat ∈ bodyReturns t 12, ∀ v ∈ values stat, v.Normalized := by
    intro stat hstat v hv
    have hv := List.all_eq_true.1 (List.all_eq_true.1 hleaves _ (List.mem_map_of_mem hstat)) v hv
    simp only [Bool.and_eq_true, Bool.not_eq_true', List.isEmpty_iff] at hv
    exact .leaf hv.1 hv.2
  refine ⟨hstats, hstats ▸ hsorted, hstats ▸ hmem, hresult, values, ?_, ?_⟩
  · have hlist : (bodyReturns t 12).map values = [values 24, values 19] := by rw [hstats]; rfl
    rwa [hlist] at hmerges
  · have horder : [19, 24].Perm (bodyReturns t 12) := by rw [hstats]; decide
    exact (h _ horder).2 hnormal

end LuaAnalysis.Inference
