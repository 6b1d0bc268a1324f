import Mathlib.Algebra.Order.BigOperators.Group.Finset
import Mathlib.Logic.Relation
import LuaAnalysis.Proofs.Inference.Lookups
import LuaAnalysis.Report.TypeDecls

/-!
Classes that are reached from a class through what it extends. The search for a class that extends
itself goes through a list of classes that wait, the check of inheritance follows each way down to
the greatest depth; both find just what is reached.
-/

namespace LuaAnalysis.Report

open Document LuaAnalysis.Types Workspace Inference Relation

def HasSuper (p : Project) (sub super : String) : Prop := super ∈ superNames p sub

/-- The search for a name among the classes that wait, the first of the list next, with no bound on
its length. -/
inductive Visits (p : Project) (name : String) : List String → List String → Bool → Prop
  | ends (visited : List String) : Visits p name visited [] false
  | met (visited pending : List String) : Visits p name visited (name :: pending) true
  | again {visited pending : List String} {current : String} {found : Bool} (hname : current ≠ name)
      (hvisited : current ∈ visited) (hrest : Visits p name visited pending found) :
      Visits p name visited (current :: pending) found
  | opens {visited pending : List String} {current : String} {found : Bool} (hname : current ≠ name)
      (hnew : current ∉ visited)
      (hrest : Visits p name (current :: visited)
        ((superNames p current).reverse ++ pending) found) :
      Visits p name visited (current :: pending) found

variable {p : Project} {name a b : String} {visited pending : List String} {found found' : Bool}

theorem Visits.unique (h : Visits p name visited pending found)
    (h' : Visits p name visited pending found') : found = found' := by
  induction h with
  | ends =>
    cases h'
    rfl
  | met =>
    cases h' with
    | met => rfl
    | again hname | opens hname => exact absurd rfl hname
  | again hname hvisited _ ih =>
    cases h' with
    | met => exact absurd rfl hname
    | again _ _ hrest => exact ih hrest
    | opens _ hnew => exact absurd hvisited hnew
  | opens hname hnew _ ih =>
    cases h' with
    | met => exact absurd rfl hname
    | again _ hvisited => exact absurd hvisited hnew
    | opens _ _ hrest => exact ih hrest

theorem Visits.exists_reaches (h : Visits p name visited pending true) :
    ∃ current ∈ pending, ReflTransGen (HasSuper p) current name := by
  generalize hfound : true = found at h
  induction h with
  | ends => cases hfound
  | met => exact ⟨name, .head _, .refl⟩
  | again _ _ _ ih =>
    obtain ⟨c, hc, hreach⟩ := ih hfound
    exact ⟨c, .tail _ hc, hreach⟩
  | opens _ _ _ ih =>
    obtain ⟨c, hc, hreach⟩ := ih hfound
    rcases List.mem_append.1 hc with hc | hc
    · exact ⟨_, .head _, .head (List.mem_reverse.1 hc) hreach⟩
    · exact ⟨c, .tail _ hc, hreach⟩

def Covered (p : Project) (visited pending : List String) : Prop :=
  ∀ a ∈ visited, ∀ b, HasSuper p a b → b ∈ visited ∨ b ∈ pending

theorem Covered.mem_of_reaches (h : Covered p visited []) (ha : a ∈ visited)
    (hreach : ReflTransGen (HasSuper p) a b) : b ∈ visited := by
  induction hreach with
  | refl => exact ha
  | tail _ hstep ih => exact (h _ ih _ hstep).resolve_right List.not_mem_nil

theorem Covered.again (h : Covered p visited (a :: pending)) (ha : a ∈ visited) :
    Covered p visited pending := by
  intro c hc b hstep
  rcases h c hc b hstep with hb | hb
  · exact .inl hb
  · rcases List.mem_cons.1 hb with rfl | hb
    · exact .inl ha
    · exact .inr hb

theorem Covered.opens (h : Covered p visited (a :: pending)) :
    Covered p (a :: visited) ((superNames p a).reverse ++ pending) := by
  intro c hc b hstep
  rw [List.mem_append, List.mem_reverse]
  rcases List.mem_cons.1 hc with rfl | hc
  · exact .inr (.inl hstep)
  · rcases h c hc b hstep with hb | hb
    · exact .inl (.tail _ hb)
    · rcases List.mem_cons.1 hb with rfl | hb
      · exact .inl (.head _)
      · exact .inr (.inr hb)

theorem Visits.not_reaches (h : Visits p name visited pending false)
    (hcovered : Covered p visited pending) (hname : name ∉ visited)
    (ha : a ∈ visited ∨ a ∈ pending) : ¬ ReflTransGen (HasSuper p) a name := by
  generalize hfound : false = found at h
  induction h with
  | ends =>
    have hvisited := ha.resolve_right List.not_mem_nil
    exact fun hreach => hname (hcovered.mem_of_reaches hvisited hreach)
  | met => cases hfound
  | again _ hvisited _ ih =>
    refine ih (hcovered.again hvisited) hname ?_ hfound
    rcases ha with ha | ha
    · exact .inl ha
    · rcases List.mem_cons.1 ha with rfl | ha
      · exact .inl hvisited
      · exact .inr ha
  | opens hne _ _ ih =>
    refine ih hcovered.opens ?_ ?_ hfound
    · exact fun hmem => (List.mem_cons.1 hmem).elim (Ne.symm hne) hname
    · rw [List.mem_cons, List.mem_append]
      rcases ha with ha | ha
      · exact .inl (.inr ha)
      · exact (List.mem_cons.1 ha).imp .inl .inr

def unopened (p : Project) (visited : List String) : Nat :=
  ∑ name ∈ p.index.superStore.keys.toFinset \ visited.toFinset, (superNames p name).length

theorem mem_keys_of_superNames (h : superNames p name ≠ []) : name ∈ p.index.superStore.keys := by
  rw [DocMultimap.mem_keys_iff]
  intro hnil
  exact h (by simp [superNames, Index.supers, DocMultimap.values, hnil])

theorem unopened_cons (h : name ∉ visited) :
    unopened p (name :: visited) + (superNames p name).length = unopened p visited := by
  have herase : p.index.superStore.keys.toFinset \ (name :: visited).toFinset =
      (p.index.superStore.keys.toFinset \ visited.toFinset).erase name := by
    rw [List.toFinset_cons, Finset.sdiff_insert]
  rw [unopened, unopened, herase]
  by_cases hsupers : superNames p name = []
  · rw [hsupers, List.length_nil, Nat.add_zero]
    exact Finset.sum_erase _ (by rw [hsupers, List.length_nil])
  · refine Finset.sum_erase_add _ _ (Finset.mem_sdiff.2 ?_)
    exact ⟨List.mem_toFinset.2 (mem_keys_of_superNames hsupers), mt List.mem_toFinset.1 h⟩

theorem length_superNames_le (name : String) :
    (superNames p name).length ≤ (p.index.superStore.withDoc name).length := by
  refine (List.length_filterMap_le _ _).trans ?_
  rw [Index.supers, DocMultimap.values, List.length_map]

theorem superCount_eq (p : Project) :
    superCount p = ∑ name ∈ p.index.superStore.keys.toFinset,
    (p.index.superStore.withDoc name).length := by
  rw [List.sum_toFinset _ DocMultimap.nodup_keys, superCount, DocMultimap.size, List.length_flatMap]

theorem unopened_nil_le : unopened p [] ≤ superCount p := by
  rw [unopened, List.toFinset_nil, Finset.sdiff_empty, superCount_eq]
  exact Finset.sum_le_sum fun name _ => length_superNames_le name

/-- Fuel for all the classes that wait, and for all that those not visited extend, is fuel for the
whole search. -/
theorem visits_meets {fuel : Nat} (h : pending.length + unopened p visited < fuel) :
    Visits p name visited pending (meets p name fuel visited pending) := by
  induction fuel generalizing visited pending with
  | zero => omega
  | succ fuel ih =>
    cases pending with
    | nil => exact .ends visited
    | cons current pending =>
      rw [List.length_cons] at h
      simp only [meets, beq_iff_eq, List.contains_iff_mem]
      split
      · next hname => exact hname ▸ .met visited pending
      · next hname =>
        split
        · next hvisited => exact .again hname hvisited (ih (by omega))
        · next hnew =>
          have hcount := unopened_cons (p := p) hnew
          refine .opens hname hnew (ih ?_)
          rw [List.length_append, List.length_reverse]
          omega

theorem visits_reachesItself (p : Project) (name : String) :
    Visits p name [] (superNames p name).reverse (reachesItself p name) := by
  refine visits_meets ?_
  have hall := unopened_nil_le (p := p)
  have hown : unopened p [name] + (superNames p name).length = unopened p [] :=
    unopened_cons List.not_mem_nil
  rw [List.length_reverse]
  omega

theorem reachesItself_iff (p : Project) (name : String) :
    reachesItself p name = true ↔ TransGen (HasSuper p) name name := by
  have hvisits := visits_reachesItself p name
  rw [TransGen.head'_iff]
  refine ⟨fun hfound => ?_, fun ⟨super, hstep, hreach⟩ => ?_⟩
  · obtain ⟨super, hsuper, hreach⟩ := (hfound ▸ hvisits).exists_reaches
    exact ⟨super, List.mem_reverse.1 hsuper, hreach⟩
  · by_contra hnot
    rw [Bool.not_eq_true] at hnot
    have hcovered : Covered p [] (superNames p name).reverse :=
      fun a ha => absurd ha List.not_mem_nil
    exact (hnot ▸ hvisits).not_reaches hcovered List.not_mem_nil
      (.inr (List.mem_reverse.2 hstep)) hreach

def within (p : Project) : Nat → String → String → Bool
  | 0, sub, sup => sub == sup
  | n + 1, sub, sup => sub == sup || (superNames p sub).any fun name => within p n name sup

theorem within_self (n : Nat) (name : String) : within p n name name = true := by
  cases n <;> simp [within]

theorem reaches_of_within {n : Nat} (h : within p n a b = true) :
    ReflTransGen (HasSuper p) a b := by
  induction n generalizing a with
  | zero =>
    obtain rfl : a = b := by simpa [within] using h
    exact .refl
  | succ n ih =>
    rw [within, Bool.or_eq_true, beq_iff_eq, List.any_eq_true] at h
    rcases h with rfl | ⟨super, hsuper, h⟩
    · exact .refl
    · exact .head hsuper (ih h)

theorem reaches_avoiding {α : Type} {r : α → α → Prop} {x y : α} (a : α) (h : ReflTransGen r x y) :
    ReflTransGen (fun c d => r c d ∧ c ≠ a) x y ∨ ∃ c, r a c ∧
    ReflTransGen (fun c d => r c d ∧ c ≠ a) c y := by
  induction h using ReflTransGen.head_induction_on with
  | refl => exact .inl .refl
  | @head x c hstep _ ih =>
    rcases ih with hrest | hlater
    · by_cases hxa : x = a
      · exact .inr ⟨c, hxa ▸ hstep, hrest⟩
      · exact .inl (.head ⟨hstep, hxa⟩ hrest)
    · exact .inr hlater

theorem exists_last_step {α : Type} {r : α → α → Prop} {x y : α} (h : ReflTransGen r x y)
    (hne : x ≠ y) : ∃ c, r x c ∧ ReflTransGen (fun c d => r c d ∧ c ≠ x) c y := by
  rcases reaches_avoiding x h with hrest | hlater
  · rcases hrest.cases_head with rfl | ⟨c, hstep, -⟩
    · exact absurd rfl hne
    · exact absurd rfl hstep.2
  · exact hlater

/-- What is reached from classes of a finite set is reached in no more steps than there are
classes. -/
theorem within_of_reaches {n : Nat} {classes : Finset String}
    (h : ReflTransGen (fun c d => HasSuper p c d ∧ c ∈ classes) a b) (hn : classes.card ≤ n) :
    within p n a b = true := by
  induction n generalizing a classes with
  | zero =>
    obtain rfl : classes = ∅ := Finset.card_eq_zero.1 (Nat.le_zero.1 hn)
    rcases h.cases_head with rfl | ⟨c, hstep, -⟩
    · exact within_self 0 a
    · exact absurd hstep.2 (Finset.notMem_empty a)
  | succ n ih =>
    by_cases hab : a = b
    · exact hab ▸ within_self _ a
    -- behind its last step out of `a` the way needs the other classes only
    obtain ⟨c, ⟨hstep, ha⟩, hrest⟩ := exists_last_step h hab
    have hcard : (classes.erase a).card ≤ n := by
      rw [Finset.card_erase_of_mem ha]
      omega
    have hleft : ReflTransGen (fun c d => HasSuper p c d ∧ c ∈ classes.erase a) c b :=
      ReflTransGen.mono (fun c d hcd => ⟨hcd.1.1, Finset.mem_erase.2 ⟨hcd.2, hcd.1.2⟩⟩) _ _ hrest
    rw [within, Bool.or_eq_true, List.any_eq_true]
    exact .inr ⟨c, hstep, ih hleft hcard⟩

theorem inheritsFor_succ {fuel : Nat} {s : SearchState} {g : String → Bool}
    (h : ∀ name, Search.guarded false (inheritsFor p fuel name b) s = (g name, s)) :
    inheritsFor p (fuel + 1) a b s = (a == b || (superNames p a).any g, s) := by
  rw [inheritsFor]
  by_cases hab : a = b
  · simp [hab]
    rfl
  · simp only [beq_eq_false_iff_ne.2 hab, Bool.false_eq_true, if_false, Bool.false_or]
    exact Search.anyM_apply fun name _ => h name

theorem inheritsFor_of_no_room {s : SearchState} (fuel : Nat) (hdeep : maxDepth ≤ s.depth) :
    inheritsFor p (fuel + 1) a b s = (within p 0 a b, s) := by
  have hbelow (name : String) : Search.guarded false (inheritsFor p fuel name b) s = (false, s) :=
    Search.guarded_of_no_room hdeep
  rw [inheritsFor_succ hbelow, List.any_eq_false.2 fun _ _ => Bool.false_ne_true,
    Bool.or_false, within]

theorem inheritsFor_apply {fuel : Nat} {s : SearchState} (hpolls : s.polls = none)
    (hfuel : maxDepth ≤ fuel + s.depth) :
    inheritsFor p (fuel + 1) a b s = (within p (maxDepth - s.depth) a b, s) := by
  induction fuel generalizing a s with
  | zero =>
    have hdeep : maxDepth ≤ s.depth := by omega
    rw [inheritsFor_of_no_room 0 hdeep, Nat.sub_eq_zero_of_le hdeep]
  | succ fuel ih =>
    rcases Nat.lt_or_ge s.depth maxDepth with hroom | hdeep
    · obtain ⟨left, hleft⟩ : ∃ left, maxDepth - s.depth = left + 1 :=
        ⟨maxDepth - s.depth - 1, by omega⟩
      have hbelow (name : String) :
          Search.guarded false (inheritsFor p (fuel + 1) name b) s = (within p left name b, s) := by
        have hinner :=
          ih (a := name) (s := { s with depth := s.depth + 1 }) hpolls (by simp only; omega)
        rw [show maxDepth - (s.depth + 1) = left by omega] at hinner
        exact Search.guarded_of_room hpolls hroom hinner
      rw [inheritsFor_succ hbelow, hleft, within]
    · rw [inheritsFor_of_no_room (fuel + 1) hdeep, Nat.sub_eq_zero_of_le hdeep]

theorem inherits_apply (p : Project) (sub sup : String) :
    inherits p sub sup {} = (within p maxDepth sub sup, {}) :=
  inheritsFor_apply rfl (Nat.le_refl maxDepth)

/-- With no more classes that extend others than there is depth, the check of inheritance finds all
that is reached. -/
theorem within_iff {classes : Finset String}
    (hclasses : ∀ name, p.index.supers name ≠ [] → name ∈ classes)
    (hcard : classes.card ≤ maxDepth) : within p maxDepth a b = true ↔
    ReflTransGen (HasSuper p) a b := by
  refine ⟨reaches_of_within, fun hreach => within_of_reaches ?_ hcard⟩
  refine ReflTransGen.mono (fun c d hstep => ⟨hstep, hclasses c fun hnil => ?_⟩) _ _ hreach
  simp [HasSuper, superNames, hnil] at hstep

theorem circleFindings_ne_nil_iff (doc : DocId) (decl : TypeDecl) : circleFindings p doc decl ≠ [] ↔
    decl.kind = .classType ∧ (∃ part ∈ decl.parts, part.1 = doc) ∧
    TransGen (HasSuper p) decl.name decl.name := by
  rw [← reachesItself_iff, circleFindings]
  split
  · next h =>
    rw [Bool.and_eq_true, beq_iff_eq] at h
    simp [h.1, h.2]
  · next h =>
    rw [Bool.and_eq_true, beq_iff_eq] at h
    simp only [ne_eq, not_true_eq_false, false_iff]
    exact fun hall => h ⟨hall.1, hall.2.2⟩

/-- The search for a class that extends itself ends in every workspace, and with the answer whether
there is a way from the class back to it. Where no more classes extend others than there is depth,
the check of inheritance answers whether there is a way at all from one class to another, so that a
class is found in a circle where it is inherited by what it extends. -/
theorem hierarchy_searches (p : Project) :
    (∀ name, (∀ found, Visits p name [] (superNames p name).reverse found ↔
      found = reachesItself p name) ∧
      (reachesItself p name = true ↔ TransGen (HasSuper p) name name)) ∧
    ∀ classes : Finset String, (∀ name, p.index.supers name ≠ [] → name ∈ classes) →
    classes.card ≤ maxDepth →
      (∀ sub sup, ∃ answer, inherits p sub sup {} = (answer, {}) ∧
        (answer = true ↔ ReflTransGen (HasSuper p) sub sup)) ∧
      ∀ doc decl, circleFindings p doc decl ≠ [] ↔ decl.kind = .classType ∧
      (∃ part ∈ decl.parts, part.1 = doc) ∧
        ∃ super ∈ superNames p decl.name, (inherits p super decl.name {}).1 = true := by
  refine ⟨fun name => ⟨fun found => ?_, reachesItself_iff p name⟩,
    fun classes hclasses hcard => ⟨fun sub sup => ?_, ?_⟩⟩
  · exact ⟨fun h => h.unique (visits_reachesItself p name),
      fun h => h ▸ visits_reachesItself p name⟩
  · exact ⟨within p maxDepth sub sup, inherits_apply p sub sup, within_iff hclasses hcard⟩
  · intro doc decl
    rw [circleFindings_ne_nil_iff, TransGen.head'_iff]
    simp only [inherits_apply, within_iff hclasses hcard]
    rfl

def circle : Project :=
  { index := ((({} : Index).addSuper 0 "A" (.ref "B")).addSuper 0 "B" (.ref "A")).addSuper 0 "C"
      (.ref "A") }

theorem supers_circle (name : String) : circle.index.supers name =
    if name = "A" then [.ref "B"] else if name = "B" ∨ name = "C" then [.ref "A"] else [] := by
  have hsupers : circle.index.supers name =
      ((((({} : DocMultimap String Ty).add 0 "A" (.ref "B")).add 0 "B" (.ref "A")).add 0 "C"
        (.ref "A")).withDoc name).map (·.2) := rfl
  rw [hsupers]
  simp only [DocMultimap.withDoc_add, DocMultimap.withDoc_empty, beq_iff_eq]
  by_cases hA : name = "A"
  · simp [hA, insertBehind]
  by_cases hB : name = "B"
  · simp [hB, insertBehind]
  by_cases hC : name = "C"
  · simp [hC, insertBehind]
  · simp [hA, hB, hC, Ne.symm hA, Ne.symm hB, Ne.symm hC]

theorem hasSuper_circle_iff : HasSuper circle a b ↔ a = "A" ∧ b = "B" ∨ (a = "B" ∨ a = "C") ∧
    b = "A" := by
  rw [HasSuper, superNames, supers_circle]
  split_ifs <;> simp_all [className?]

/-- `B` is in a circle, which `C` leads to but is not part of. -/
theorem hierarchy_searches_circle :
    let classes : Finset String := {"A", "B", "C"}
    (∀ name, circle.index.supers name ≠ [] → name ∈ classes) ∧ classes.card ≤ maxDepth ∧
      reachesItself circle "B" = true ∧ reachesItself circle "C" = false ∧
      (inherits circle "C" "B" {}).1 = true ∧ (inherits circle "B" "C" {}).1 = false := by
  intro classes
  have hclasses : ∀ name, circle.index.supers name ≠ [] → name ∈ classes := by
    intro name hname
    rw [supers_circle] at hname
    split_ifs at hname <;> simp_all [classes]
  have hcard : classes.card ≤ maxDepth := by decide
  have hup : HasSuper circle "C" "A" ∧ HasSuper circle "A" "B" ∧ HasSuper circle "B" "A" := by
    simp [hasSuper_circle_iff]
  have hdown {name : String} (h : HasSuper circle name "C") : False := by
    simp [hasSuper_circle_iff] at h
  obtain ⟨hcycles, hinherits⟩ := hierarchy_searches circle
  have hanswer (sub sup : String) :
      (inherits circle sub sup {}).1 = true ↔ ReflTransGen (HasSuper circle) sub sup := by
    obtain ⟨answer, hrun, hiff⟩ := (hinherits classes hclasses hcard).1 sub sup
    rw [hrun]
    exact hiff
  refine ⟨hclasses, hcard, ?_, ?_, ?_, ?_⟩
  · exact (hcycles "B").2.2 (.tail (.single hup.2.2) hup.2.1)
  · rw [← Bool.not_eq_true, (hcycles "C").2, TransGen.tail'_iff]
    exact fun ⟨_, _, hstep⟩ => hdown hstep
  · exact (hanswer "C" "B").2 (.tail (.single hup.1) hup.2.1)
  · rw [← Bool.not_eq_true, hanswer]
    intro hreach
    rcases hreach.cases_tail with hself | ⟨_, _, hstep⟩
    · simp at hself
    · exact hdown hstep

end LuaAnalysis.Report
