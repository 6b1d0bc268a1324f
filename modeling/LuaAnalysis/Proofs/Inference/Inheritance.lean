import LuaAnalysis.Proofs.Inference.CallTemplates

/-!
Generic classes that extend each other. An instance of a class extends instances of other ones, with
its arguments in the place of the parameters of its class. The search for members puts arguments in
twice on its way up, which comes to the same as long as no template is left that is called like one
of these parameters. The search for the parameters of a class puts in none at all.
-/

namespace LuaAnalysis.Inference

open Document LuaAnalysis.Types Workspace

variable {p : Project} {e : Engine} {t u v super : Ty} {name base : String} {params : List Ty}
  {s : Substitution} {n : Nat}

/-- Whether a type is of a class that is looked into for members. -/
def isOfClass (p : Project) : Ty → Bool
  | .ref name => !p.isAliasName name
  | .generic base _ => (p.index.typeDecl? base).isSome && !p.isAliasName base
  | _ => false

/-- Whether a type is of a class, and there are at most some levels of such classes from there
on. -/
inductive Hierarchy (p : Project) : Nat → Ty → Prop
  | step {n : Nat} {t : Ty} (hclass : isOfClass p t = true) (h : ∀ super, Extends p t super →
      Hierarchy p n super) : Hierarchy p (n + 1) t

theorem isSome_className? (h : isOfClass p t = true) : ∃ name, className? t = some name := by
  cases t with
  | ref name | generic name => exact ⟨name, rfl⟩
  | _ => cases h

theorem isOfClass_instantiate (h : isOfClass p t = true) (s : Substitution) :
    isOfClass p (t.instantiate s) = true ∧ className? (t.instantiate s) = className? t := by
  rw [Ty.instantiate]
  split
  · exact ⟨h, rfl⟩
  · cases t <;> first | exact ⟨h, rfl⟩ | cases h

theorem extends_congr (h : className? t = className? u) : Extends p t super ↔
    Extends p u super := by
  rw [Extends, Extends, h]

namespace Hierarchy

theorem ofClass (h : Hierarchy p n t) : isOfClass p t = true := by
  cases h with
  | step hclass => exact hclass

theorem above (h : Hierarchy p (n + 1) t) (hsuper : Extends p t super) : Hierarchy p n super := by
  cases h with
  | step _ h => exact h super hsuper

theorem instantiate (h : Hierarchy p n t) (s : Substitution) : Hierarchy p n (t.instantiate s) := by
  cases h with
  | step hclass h =>
    obtain ⟨hclass', hname⟩ := isOfClass_instantiate hclass s
    exact .step hclass' fun super hsuper => h super ((extends_congr hname).1 hsuper)

theorem mono {m : Nat} (h : Hierarchy p n t) (hle : n ≤ m) : Hierarchy p m t := by
  induction h generalizing m with
  | step hclass _ ih =>
    obtain ⟨m, rfl⟩ := Nat.exists_eq_add_of_le' (Nat.le_trans (Nat.le_add_left 1 _) hle)
    exact .step hclass fun super hsuper => ih super hsuper (by omega)

theorem ofClass_of_extends (h : Hierarchy p n t) (hup : Relation.ReflTransGen (Extends p) t v) :
    isOfClass p v = true := by
  induction hup using Relation.ReflTransGen.head_induction_on generalizing n with
  | refl => exact h.ofClass
  | head hsuper _ ih =>
    cases h with
    | step _ h => exact ih (h _ hsuper)

end Hierarchy

def paramNames (p : Project) (name : String) : List String :=
  ((p.index.typeDecl? name).map (·.genericNames)).getD []

/-- What an instance of a class has for the parameters of the class. -/
def ownArgs (p : Project) : Ty → Substitution
  | .generic base params => .ofParams (paramNames p base) params
  | _ => .empty

def Inherits (p : Project) (t u : Ty) : Prop :=
  ∃ super, Extends p t super ∧ super.instantiate (ownArgs p t) = u

/-- Whether an instance is another one or extends it, directly or not. -/
abbrev Reaches (p : Project) : Ty → Ty → Prop := Relation.ReflTransGen (Inherits p)

/-- Whether no template is left in what an instance extends that is called like a parameter of its
class. What goes up from a class without arguments has none at all, as those from below are still
put in there. -/
def Apart (p : Project) (t : Ty) : Prop :=
  ∀ u, Inherits p t u → Ty.Regular u ∧
    ∀ name ∈ u.templates, (ownArgs p t).get? name = none ∧ ∃ base params, t = .generic base params

theorem self?_ofParams (names : List String) (args : List Ty) :
    (Substitution.ofParams names args).self? = none := by
  have hfold (pairs : List (String × Ty)) (s : Substitution) :
      (pairs.foldl (fun s pair => s.insert pair.1 pair.2) s).self? = s.self? := by
    induction pairs generalizing s with
    | nil => rfl
    | cons pair pairs ih => exact ih _
  exact hfold _ _

theorem self?_ownArgs (p : Project) (t : Ty) : (ownArgs p t).self? = none := by
  unfold ownArgs
  split
  · exact self?_ofParams _ _
  · rfl

/-- What the search puts in for a class that it comes to by a type, with what it has put in
before. -/
def putIn (p : Project) (x : Ty × Substitution) : Substitution :=
  match x.1 with
  | .generic base params => .ofParams (paramNames p base) (params.map (·.instantiate x.2))
  | _ => x.2

theorem putIn_generic (base : String) (params : List Ty) (s : Substitution) :
    putIn p (.generic base params, s) =
    .ofParams (paramNames p base) (params.map (·.instantiate s)) := rfl

def Climbs (p : Project) (x y : Ty × Substitution) : Prop :=
  ∃ super, Extends p x.1 super ∧ (super.instantiate (putIn p x), putIn p x) = y

/-- Where the members of a class are, those of the tables that are declared to be it among them. -/
def classOwners (p : Project) (name : String) : List MemberOwner :=
  .type name :: p.index.classGlobals name

/-- Whether an owner is one of a class that the search comes to, with what it puts in there. -/
def IsSource (p : Project) (x : Ty × Substitution) (o : MemberOwner × Substitution) : Prop :=
  ∃ name, className? x.1 = some name ∧ o.1 ∈ classOwners p name ∧ o.2 = putIn p x

/-- Whether the owners of some types were added to the sources of members, and the classes of all
that they extend visited. -/
structure Walked (p : Project) (xs : List (Ty × Substitution))
    (before after : MemberSources) : Prop where
  owners : ∃ added, after.owners = before.owners ++ added ∧
    ∀ o ∈ added, ∃ x ∈ xs, ∃ y, Relation.ReflTransGen (Climbs p) x y ∧ IsSource p y o
  visited : ∀ name ∈ before.visited, name ∈ after.visited
  reached : ∀ x ∈ xs, ∀ name, className? x.1 = some name → name ∈ after.visited
  closed : ∀ name ∈ after.visited, name ∈ before.visited ∨ (∃ s, (.type name, s) ∈ after.owners) ∧
    ∀ super ∈ p.index.supers name, ∀ above, className? super = some above → above ∈ after.visited

section Walks

variable {before between after : MemberSources} {x : Ty × Substitution}
  {xs ys : List (Ty × Substitution)}

theorem Walked.nil (sources : MemberSources) : Walked p [] sources sources where
  owners := ⟨[], (List.append_nil _).symm, nofun⟩
  visited _ := id
  reached := nofun
  closed _ := .inl

theorem Walked.append (h : Walked p xs before between) (h' : Walked p ys between after) :
    Walked p (xs ++ ys) before after := by
  obtain ⟨added, hadded, hfrom⟩ := h.owners
  obtain ⟨added', hadded', hfrom'⟩ := h'.owners
  refine ⟨⟨added ++ added', by rw [hadded', hadded, List.append_assoc], fun o ho => ?_⟩,
    fun name hname => h'.visited name (h.visited name hname), fun x hx name hname => ?_,
      fun name hname => ?_⟩
  · rcases List.mem_append.1 ho with ho | ho
    · obtain ⟨x, hx, hsource⟩ := hfrom o ho
      exact ⟨x, List.mem_append_left _ hx, hsource⟩
    · obtain ⟨x, hx, hsource⟩ := hfrom' o ho
      exact ⟨x, List.mem_append_right _ hx, hsource⟩
  · rcases List.mem_append.1 hx with hx | hx
    · exact h'.visited name (h.reached x hx name hname)
    · exact h'.reached x hx name hname
  · rcases h'.closed name hname with hname | hclosed
    · rcases h.closed name hname with hname | ⟨⟨s, hs⟩, hsupers⟩
      · exact .inl hname
      · refine .inr ⟨⟨s, ?_⟩, fun super hsuper above habove => ?_⟩
        · rw [hadded']
          exact List.mem_append_left _ hs
        · exact h'.visited above (hsupers super hsuper above habove)
    · exact .inr hclosed

theorem Walked.of_visited (hname : className? x.1 = some name) (h : name ∈ before.visited) :
    Walked p [x] before before where
  owners := ⟨[], (List.append_nil _).symm, nofun⟩
  visited _ := id
  reached y hy above habove := by
    obtain rfl := List.mem_singleton.1 hy
    obtain rfl := Option.some.inj (hname.symm.trans habove)
    exact h
  closed _ := .inl

theorem Walked.of_supers (hname : className? x.1 = some name)
    (hsupers : ∀ super, Extends p x.1 super → isOfClass p super = true)
    (h : Walked p (((p.index.supers name).map (·.instantiate (putIn p x))).map (·, putIn p x))
      { before with
        visited := name :: before.visited
        owners := before.owners ++ (classOwners p name).map (·, putIn p x) } after) :
    Walked p [x] before after := by
  obtain ⟨added, hadded, hfrom⟩ := h.owners
  refine ⟨⟨(classOwners p name).map (·, putIn p x) ++ added, by rw [hadded, List.append_assoc],
    fun o ho => ⟨x, .head _, ?_⟩⟩,
    fun above habove => h.visited above (.tail _ habove), fun y hy above habove => ?_,
      fun above habove => ?_⟩
  · rcases List.mem_append.1 ho with ho | ho
    · obtain ⟨owner, howner, rfl⟩ := List.mem_map.1 ho
      exact ⟨x, .refl, name, hname, howner, rfl⟩
    · obtain ⟨y, hy, z, hclimbs, hsource⟩ := hfrom o ho
      rw [List.map_map] at hy
      obtain ⟨super, hsuper, rfl⟩ := List.mem_map.1 hy
      exact ⟨z, .head ⟨super, ⟨name, hname, hsuper⟩, rfl⟩ hclimbs, hsource⟩
  · obtain rfl := List.mem_singleton.1 hy
    obtain rfl := Option.some.inj (hname.symm.trans habove)
    exact h.visited _ (.head _)
  · rcases h.closed above habove with hbefore | hclosed
    · rcases List.mem_cons.1 hbefore with rfl | hbefore
      · refine .inr ⟨⟨putIn p x, ?_⟩, fun super hsuper first hfirst => ?_⟩
        · rw [hadded]
          simp [classOwners]
        · refine h.reached _ (List.mem_map_of_mem (List.mem_map_of_mem hsuper)) first ?_
          exact (isOfClass_instantiate (hsupers super ⟨_, hname, hsuper⟩) _).2.trans hfirst
      · exact .inl hbefore
    · exact .inr hclosed

theorem Walked.exists_owner (h : Walked p [x] {} after)
    (hup : Relation.ReflTransGen (Extends p) x.1 v) (hname : className? v = some name) :
    ∃ s, (.type name, s) ∈ after.owners := by
  have hvisited : name ∈ after.visited := by
    induction hup generalizing name with
    | refl => exact h.reached x (.head _) name hname
    | tail _ hstep ih =>
      obtain ⟨below, hbelow, hsuper⟩ := hstep
      rcases h.closed below (ih hbelow) with hnone | ⟨-, hsupers⟩
      · cases hnone
      · exact hsupers _ hsuper name hname
  rcases h.closed name hvisited with hnone | ⟨howner, -⟩
  · cases hnone
  · exact howner

def Walks (p : Project) (search : MemberSources → Search MemberSources)
    (xs : List (Ty × Substitution)) : Prop :=
  ∀ sources st, ∃ after, search sources st = (after, st) ∧ Walked p xs sources after

theorem walks_foldlM {ts : List Ty} (h : ∀ t ∈ ts, Walks p (e.collectSources t s) [(t, s)]) :
    Walks p (fun sources => ts.foldlM (fun sources t => e.collectSources t s sources) sources)
    (ts.map (·, s)) := by
  induction ts with
  | nil => exact fun sources st => ⟨sources, rfl, .nil sources⟩
  | cons t ts ih =>
    intro sources st
    obtain ⟨hhead, htail⟩ := List.forall_mem_cons.1 h
    obtain ⟨between, hrun, hwalked⟩ := hhead sources st
    obtain ⟨after, hrun', hwalked'⟩ := ih htail between st
    exact ⟨after, (Search.bind_apply hrun).trans hrun', hwalked.append hwalked'⟩

theorem collectClass_of_new {sources : MemberSources} (h : name ∉ sources.visited) :
    collectClass p e name s sources = ((p.index.supers name).map (·.instantiate s)).foldlM
    (fun sources t => e.collectSources t s sources)
    { sources with visited := name :: sources.visited, owners :=
      sources.owners ++ (classOwners p name).map (·, s) } := by
  rw [collectClass, if_neg (by simpa using h)]
  rfl

theorem walks_collectClass (hname : className? x.1 = some name)
    (hsupers : ∀ super, Extends p x.1 super → isOfClass p super = true)
    (h : ∀ y, Climbs p x y → Walks p (e.collectSources y.1 y.2) [y]) :
    Walks p (collectClass p e name (putIn p x)) [x] := by
  intro sources st
  by_cases hvisited : name ∈ sources.visited
  · refine ⟨sources, ?_, .of_visited hname hvisited⟩
    rw [collectClass, if_pos (by simpa using hvisited)]
    rfl
  · have hsteps : ∀ u ∈ (p.index.supers name).map (·.instantiate (putIn p x)),
        Climbs p x (u, putIn p x) :=
      List.forall_mem_map.2 fun super hsuper => ⟨super, ⟨name, hname, hsuper⟩, rfl⟩
    rw [collectClass_of_new hvisited]
    obtain ⟨after, hrun, hwalked⟩ := walks_foldlM (fun u hu => h _ (hsteps u hu)) _ st
    exact ⟨after, hrun, .of_supers hname hsupers hwalked⟩

theorem collectSources_generic (h : isOfClass p (.generic base params) = true)
    (sources : MemberSources) : collectSources p e (.generic base params) s sources =
      collectClass p e base (putIn p (.generic base params, s)) sources := by
  obtain ⟨hdeclared, halias⟩ := Bool.and_eq_true_iff.1 h
  obtain ⟨decl, hdecl⟩ := Option.isSome_iff_exists.1 hdeclared
  have halias : decl.isAlias = false := by simpa [Project.isAliasName, hdecl] using halias
  simp only [collectSources, hdecl, halias, putIn, paramNames]
  rfl

theorem walks_collectSources (h : Hierarchy p n t) (s : Substitution) :
    Walks p (collectSources p (engine p n) t s) [(t, s)] := by
  induction n generalizing t s with
  | zero => cases h
  | succ n ih =>
    have hclass (name : String) (hname : className? t = some name) :
        Walks p (collectClass p (engine p (n + 1)) name (putIn p (t, s))) [(t, s)] := by
      refine walks_collectClass hname (fun super hsuper => (h.above hsuper).ofClass) ?_
      rintro _ ⟨super, hsuper, rfl⟩
      exact ih ((h.above hsuper).instantiate _) _
    cases t with
    | ref name =>
      intro sources st
      obtain ⟨after, hrun, hwalked⟩ := hclass name rfl sources st
      refine ⟨after, ?_, hwalked⟩
      rw [collectSources, if_neg (by simpa [isOfClass] using h.ofClass)]
      exact hrun
    | generic base params =>
      intro sources st
      rw [collectSources_generic h.ofClass]
      exact hclass base rfl sources st
    | _ => cases h.ofClass

end Walks

theorem args_of_instantiate (h : (Ty.generic base params).instantiate s = .generic base params) :
    params.map (·.instantiate s) = params := by
  simp only [Ty.instantiate] at h ⊢
  split at h
  · simp_all
  · rw [Ty.subst, Ty.substList_eq] at h
    simp_all

/-- Whether the search comes to an instance with what changes nothing in it any more. -/
def Settled (p : Project) (t : Ty) (x : Ty × Substitution) : Prop :=
  Reaches p t x.1 ∧ x.1.instantiate x.2 = x.1 ∧ x.2.self? = none

variable {x y : Ty × Substitution}

theorem putIn_of_settled (h : Settled p t x) (hx : x.1 = .generic base params) :
    putIn p x = .ofParams (paramNames p base) params := by
  obtain ⟨u, s⟩ := x
  obtain rfl : u = .generic base params := hx
  rw [putIn_generic, args_of_instantiate h.2.1]

theorem Settled.climbs (h : Settled p t x) (hapart : Apart p x.1) (hstep : Climbs p x y) :
    Settled p t y := by
  obtain ⟨super, hsuper, rfl⟩ := hstep
  have hself : (putIn p x).self? = none := by
    rw [putIn]
    split
    · exact self?_ofParams _ _
    · exact h.2.2
  have hown (hgeneric : ∃ base params, x.1 = .generic base params) : putIn p x = ownArgs p x.1 := by
    obtain ⟨base, params, hx⟩ := hgeneric
    rw [putIn_of_settled h hx, hx, ownArgs]
  have hinherits : Inherits p x.1 (super.instantiate (ownArgs p x.1)) := ⟨super, hsuper, rfl⟩
  obtain ⟨hregular, hfree⟩ := hapart _ hinherits
  have hagain : (super.instantiate (ownArgs p x.1)).instantiate (putIn p x) =
      super.instantiate (ownArgs p x.1) := by
    refine Ty.instantiate_of_not_bound hregular (fun name hname => ?_) hself
    obtain ⟨hnone, hgeneric⟩ := hfree name hname
    rw [hown hgeneric, hnone]
  have hsame : super.instantiate (putIn p x) = super.instantiate (ownArgs p x.1) := by
    by_cases hgeneric : ∃ base params, x.1 = .generic base params
    · rw [hown hgeneric]
    · -- what is put in from below finds no template
      have hnone : super.instantiate (ownArgs p x.1) = super := by
        unfold ownArgs
        split
        · exact absurd ⟨_, _, ‹_›⟩ hgeneric
        · rfl
      rw [hnone] at hagain ⊢
      exact hagain
  rw [← hsame] at hinherits hagain
  exact ⟨h.1.tail hinherits, hagain, hself⟩

theorem settled_of_climbs (hapart : ∀ u, Reaches p t u → Apart p u)
    (h : Relation.ReflTransGen (Climbs p) (t, {}) x) : Settled p t x := by
  induction h with
  | refl => exact ⟨.refl, rfl, rfl⟩
  | tail _ hstep ih => exact ih.climbs (hapart _ ih.1) hstep

/-- With depth and fuel for all levels, the parameters of each class are found that a type is of or
extends. -/
theorem genericParamsFor_apply {fuel : Nat} {st : SearchState} (h : Hierarchy p n t)
    (hpolls : st.polls = none) (hroom : st.depth + n ≤ maxDepth) (hfuel : n ≤ fuel) :
    ∃ found, genericParamsFor p fuel t base st = (found, st) ∧
      ∀ params, Relation.ReflTransGen (Extends p) t (.generic base params) →
      found.isSome = true := by
  induction h generalizing fuel st with
  | @step n t hclass _ ih =>
    obtain ⟨fuel, rfl⟩ : ∃ k, fuel = k + 1 := ⟨fuel - 1, by omega⟩
    have hdeeper : ({ st with depth := st.depth + 1 } : SearchState).depth + n ≤ maxDepth := by
      simp only
      omega
    have heach (super : Ty) (hsuper : Extends p t super) : ∃ found,
        genericParamsFor p fuel super base { st with depth := st.depth + 1 } =
        (found, { st with depth := st.depth + 1 }) ∧
          ∀ params, Relation.ReflTransGen (Extends p) super (.generic base params) →
          found.isSome = true :=
      ih super hsuper hpolls hdeeper (by omega)
    have hclimb {name : String} (hname : className? t = some name)
        (hother : ∀ params, t ≠ .generic base params) : ∃ found, Search.guarded none
        ((p.index.supers name).findSomeM? fun super => genericParamsFor p fuel super base) st =
        (found, st) ∧ ∀ params, Relation.ReflTransGen (Extends p) t (.generic base params) →
        found.isSome = true := by
      obtain ⟨found, hrun, hsome⟩ := Search.findSomeM?_apply fun super hsuper =>
        (heach super ⟨name, hname, hsuper⟩).imp fun _ => And.left
      refine ⟨found, Search.guarded_of_room hpolls (by omega) hrun, fun params hup => ?_⟩
      rcases hup.cases_head with hself | ⟨super, hsuper, hrest⟩
      · exact absurd hself (hother params)
      · obtain ⟨above, habove, hfound⟩ := heach super hsuper
        obtain ⟨name', hname', hsuper⟩ := hsuper
        obtain rfl := Option.some.inj (hname'.symm.trans hname)
        refine hsome super hsuper ?_
        rw [habove]
        exact hfound params hrest
    cases t with
    | ref name => exact hclimb rfl nofun
    | generic name params =>
      simp only [genericParamsFor]
      split
      · exact ⟨some params, rfl, fun _ _ => rfl⟩
      · rename_i hne
        exact hclimb rfl fun params h => hne (beq_iff_eq.2 (Ty.generic.inj h).1)
    | _ => cases hclass

theorem run_genericParamsAs_of_extends (h : Hierarchy p maxDepth t)
    (hup : Relation.ReflTransGen (Extends p) t (.generic base params)) :
    ∃ written, run (genericParamsAs p t base) = some written ∧
    Relation.ReflTransGen (Extends p) t (.generic base written) := by
  obtain ⟨found, hrun, hsome⟩ : ∃ found, genericParamsAs p t base {} = (found, {}) ∧
      ∀ params, Relation.ReflTransGen (Extends p) t (.generic base params) → found.isSome = true :=
    genericParamsFor_apply h rfl (Nat.le_of_eq (Nat.zero_add _)) (Nat.le_succ _)
  obtain ⟨written, rfl⟩ := Option.isSome_iff_exists.1 (hsome params hup)
  have hfound : (genericParamsAs p t base {}).1 = some written := congrArg Prod.fst hrun
  exact ⟨written, hfound,
    (genericParamsFor_extends base (maxDepth + 1) t {} trivial).1 written hfound⟩

theorem exists_reaches (h : Hierarchy p n t) (hup : Relation.ReflTransGen (Extends p) t v) :
    ∃ u, Reaches p t u ∧ className? u = className? v := by
  induction hup with
  | refl => exact ⟨t, .refl, rfl⟩
  | tail hup hsuper ih =>
    obtain ⟨u, hu, hname⟩ := ih
    have hclass := h.ofClass_of_extends (hup.tail hsuper)
    exact ⟨_, hu.tail ⟨_, (extends_congr hname).2 hsuper, rfl⟩, (isOfClass_instantiate hclass _).2⟩

theorem reaches_of_closed {written : List Ty} (h : Hierarchy p n t)
    (hup : Relation.ReflTransGen (Extends p) t (.generic base written))
    (hregular : Ty.Regular (.generic base written))
    (hclosed : Ty.listTemplates written = []) : Reaches p t (.generic base written) := by
  rcases hup.cases_tail with hself | ⟨v, hv, hsuper⟩
  · exact hself ▸ .refl
  · obtain ⟨u, hu, hname⟩ := exists_reaches h hv
    refine hu.tail ⟨_, (extends_congr hname).2 hsuper,
      Ty.instantiate_of_not_bound hregular ?_ (self?_ownArgs p u)⟩
    rw [Ty.templates, hclosed]
    exact fun name hname => absurd hname List.not_mem_nil

/-- Whether a member that has a type of its own is one of an owner in a list, and has this type as
it is seen there. -/
def SeenThrough (p : Project) (t : Ty) (owners : List (MemberOwner × Substitution))
    (info : MemberInfo) : Prop :=
  ∀ m declared, info.member? = some m → m.type? = some declared →
    ∃ o ∈ owners, (∃ key, p.index.member? o.1 key = some m) ∧
    info.type = declared.instantiate { o.2 with self? := some t }

section Members

variable {owners : List (MemberOwner × Substitution)}

theorem seenThrough_field (key : MemberKey) (type : Ty) :
    SeenThrough p t owners ⟨key, type, none⟩ := by
  intro m declared hmember
  cases hmember

theorem memberType_gives {m : Member} {o : MemberOwner × Substitution} {key : MemberKey}
    (ho : o ∈ owners) (hm : p.index.member? o.1 key = some m) (key' : MemberKey) :
    Gives (fun _ => True) (memberType p e m o.2 t)
      fun type => SeenThrough p t owners ⟨key', type, some m⟩ := by
  intro st _
  refine ⟨fun m' declared hmember hdeclared => ⟨o, ho, ⟨key, ?_⟩, ?_⟩, trivial⟩
  · rw [← Option.some.inj hmember]
    exact hm
  · obtain rfl := Option.some.inj hmember
    rw [memberType, hdeclared]
    rfl

theorem addMembers_gives {o : MemberOwner × Substitution} {found : List MemberInfo}
    (ho : o ∈ owners) (hfound : ∀ info ∈ found, SeenThrough p t owners info) :
    Gives (fun _ => True) (addMembers p e t found o) fun infos =>
      ∀ info ∈ infos, SeenThrough p t owners info := by
  refine .foldlM _ (fun found m _ hfound => .ite (fun _ => .pure hfound) fun _ => ?_) hfound
  split
  · exact .pure hfound
  · rename_i m hm
    refine .bind (memberType_gives ho hm m.key) fun type hseen => .pure ?_
    rw [List.forall_mem_append]
    exact ⟨hfound, by simpa using hseen⟩

theorem findMembers_seenThrough (p : Project) (e : Engine) (t : Ty) :
    ∀ info ∈ run (findMembers p e t), SeenThrough p t (run (memberSources p e t)).owners info := by
  obtain ⟨sources, st, hrun⟩ : ∃ sources st, memberSources p e t {} = (sources, st) := ⟨_, _, rfl⟩
  have hsources : run (memberSources p e t) = sources := congrArg Prod.fst hrun
  have howners : Gives (fun _ => True) (sources.owners.foldlM (addMembers p e t) [])
      fun found => ∀ info ∈ found, SeenThrough p t sources.owners info :=
    .foldlM _ (fun found o ho hfound => addMembers_gives ho hfound) (by simp)
  rw [hsources, run, findMembers]
  change ∀ info ∈ ((memberSources p e t >>= _) {}).1, _
  rw [Search.bind_apply hrun]
  refine (Gives.bind (R := fun infos => ∀ info ∈ infos, SeenThrough p t sources.owners info) howners
    (fun found hfound => .pure ?_) st trivial).1
  refine List.foldlRecOn (motive := fun found => ∀ info ∈ found,
    SeenThrough p t sources.owners info) sources.fields _ hfound
    fun found hfound field _ => ?_
  dsimp only
  split
  · exact hfound
  · rw [List.forall_mem_append]
    exact ⟨hfound, by simpa using seenThrough_field field.1 field.2⟩

theorem findMember_seenThrough (p : Project) (e : Engine) (hunion : t.isUnion = false)
    (key : MemberKey) : ∀ info, run (findMember p e t key) = some info →
    SeenThrough p t (run (memberSources p e t)).owners info := by
  obtain ⟨sources, st, hrun⟩ : ∃ sources st, memberSources p e t {} = (sources, st) := ⟨_, _, rfl⟩
  have hsources : run (memberSources p e t) = sources := congrArg Prod.fst hrun
  have hown : findMember p e t key = findOwnMember p e t key := by
    cases t <;> first | rfl | cases hunion
  rw [hsources, run, hown, findOwnMember]
  have hfrom (search : Search (Option MemberInfo)) (h : Gives (fun _ => True) search
      fun info? => ∀ info, info? = some info → SeenThrough p t sources.owners info) :
      ∀ info, (search st).1 = some info → SeenThrough p t sources.owners info :=
    (h st trivial).1
  change ∀ info, ((memberSources p e t >>= _) {}).1 = some info → _
  rw [Search.bind_apply hrun]
  refine hfrom _ ?_
  split
  · rename_i m s hfound
    obtain ⟨⟨owner, s'⟩, ho, hmember⟩ := List.exists_of_findSome?_eq_some hfound
    obtain ⟨m', hm, hpair⟩ := Option.map_eq_some_iff.1 hmember
    obtain ⟨rfl, rfl⟩ := Prod.mk.inj hpair
    exact .bind (memberType_gives ho hm key) fun type hseen => .pure fun info hinfo =>
      Option.some.inj hinfo ▸ hseen
  · refine .pure fun info hinfo => ?_
    obtain ⟨field, -, rfl⟩ := Option.map_eq_some_iff.1 hinfo
    exact seenThrough_field key field.2

end Members

def genericPart : TypePart :=
  { (default : TypePart) with span := ⟨10, 11⟩, generics := [("T", none)] }

/-- A workspace with the classes `B<T>` and `C<T>: B<T>`. -/
def heirs : Project :=
  let classes := (({} : Index).addTypePart 0 "B" genericPart).addTypePart 0 "C" genericPart
  { index := classes.addSuper 0 "C" (.generic "B" [.tpl "T"]) }

theorem typeDecl?_heirs (h : name = "B" ∨ name = "C") :
    heirs.index.typeDecl? name = some ⟨name, DocMap.insert {} 0 [genericPart]⟩ := by
  have htypes : heirs.index.types =
      (({} : TypeIndex).add 0 "B" genericPart).add 0 "C" genericPart := rfl
  rw [Index.typeDecl?, htypes]
  rcases h with rfl | rfl <;>
    simp [TypeIndex.get?, TypeIndex.add, TypeIndex.partsOf?, Std.HashMap.getElem_insert,
      Std.HashMap.getD_insert]

theorem paramNames_heirs (h : name = "B" ∨ name = "C") : paramNames heirs name = ["T"] := by
  rw [paramNames, typeDecl?_heirs h]
  rfl

theorem isOfClass_heirs (h : name = "B" ∨ name = "C") (args : List Ty) :
    isOfClass heirs (.generic name args) = true := by
  rw [isOfClass, Project.isAliasName, typeDecl?_heirs h]
  rfl

theorem supers_heirs (name : String) :
    heirs.index.supers name = if "C" = name then [.generic "B" [.tpl "T"]] else [] := by
  have hsupers : heirs.index.supers name =
      (({} : DocMultimap String Ty).add 0 "C" (.generic "B" [.tpl "T"])).values name := rfl
  rw [hsupers]
  by_cases h : "C" = name <;> simp [DocMultimap.values, DocMultimap.withDoc_add, h, insertBehind]

theorem classOwners_heirs (name : String) : classOwners heirs name = [.type name] := by
  have hglobals : heirs.index.classGlobals name =
      ({} : DocMultimap String MemberOwner).values name := rfl
  rw [classOwners, hglobals, DocMultimap.values, DocMultimap.withDoc_empty, List.map_nil]

theorem extends_heirs_iff : Extends heirs t super ↔ className? t = some "C" ∧
    super = .generic "B" [.tpl "T"] := by
  simp only [Extends, supers_heirs]
  constructor
  · rintro ⟨name, hname, hsuper⟩
    split at hsuper
    · rename_i h
      exact ⟨h ▸ hname, List.mem_singleton.1 hsuper⟩
    · cases hsuper
  · rintro ⟨hname, rfl⟩
    exact ⟨"C", hname, by simp⟩

theorem ownArgs_heirs (h : name = "B" ∨ name = "C") (arg : Ty) :
    ownArgs heirs (.generic name [arg]) = { bindings := [("T", arg)] } := by
  rw [ownArgs, paramNames_heirs h]
  rfl

theorem inherits_heirs_iff {arg : Ty} : Inherits heirs (.generic "C" [arg]) u ↔
    u = .generic "B" [arg] := by
  have hinstance : (Ty.generic "B" [.tpl "T"]).instantiate (ownArgs heirs (.generic "C" [arg])) =
      .generic "B" [arg] := by
    rw [ownArgs_heirs (.inr rfl)]
    rfl
  simp only [Inherits, extends_heirs_iff]
  constructor
  · rintro ⟨super, ⟨-, rfl⟩, rfl⟩
    exact hinstance
  · rintro rfl
    exact ⟨_, ⟨rfl, rfl⟩, hinstance⟩

theorem reaches_heirs_iff {arg : Ty} :
    Reaches heirs (.generic "C" [arg]) u ↔ u = .generic "C" [arg] ∨ u = .generic "B" [arg] := by
  constructor
  · intro h
    induction h with
    | refl => exact .inl rfl
    | tail _ hstep ih =>
      rcases ih with rfl | rfl
      · exact .inr (inherits_heirs_iff.1 hstep)
      · obtain ⟨super, hsuper, -⟩ := hstep
        exact absurd (extends_heirs_iff.1 hsuper).1 (by simp [className?])
  · rintro (rfl | rfl)
    · exact .refl
    · exact .single (inherits_heirs_iff.2 rfl)

theorem hierarchy_heirs (args : List Ty) : Hierarchy heirs maxDepth (.generic "C" args) := by
  have habove : Hierarchy heirs 1 (.generic "B" [.tpl "T"]) :=
    .step (isOfClass_heirs (.inl rfl) _) fun super hsuper =>
      absurd (extends_heirs_iff.1 hsuper).1 (by simp [className?])
  have hbelow : Hierarchy heirs 2 (.generic "C" args) :=
    .step (isOfClass_heirs (.inr rfl) _) fun super hsuper => (extends_heirs_iff.1 hsuper).2 ▸ habove
  exact hbelow.mono (by decide)

theorem eq_of_extends_heirs {args written : List Ty}
    (h : Relation.ReflTransGen (Extends heirs) (.generic "C" args) (.generic "B" written)) :
    written = [.tpl "T"] := by
  rcases h.cases_tail with hself | ⟨v, -, hsuper⟩
  · simp at hself
  · exact (Ty.generic.inj (extends_heirs_iff.1 hsuper).2).2

theorem run_genericParamsAs_heirs (args : List Ty) :
    run (genericParamsAs heirs (.generic "C" args) "B") = some [.tpl "T"] := by
  have hup : Relation.ReflTransGen (Extends heirs) (.generic "C" args) (.generic "B" [.tpl "T"]) :=
    .single (extends_heirs_iff.2 ⟨rfl, rfl⟩)
  obtain ⟨written, hfound, hwritten⟩ := run_genericParamsAs_of_extends (hierarchy_heirs args) hup
  rw [hfound, eq_of_extends_heirs hwritten]

theorem owners_heirs (arg : Ty) (n : Nat) (st : SearchState) : let s : Substitution :=
  { bindings := [("T", arg)] }
    (memberSources heirs (engine heirs (n + 1)) (.generic "C" [arg]) st).1.owners =
      [(.type "C", s), (.type "B", { bindings := [("T", arg.instantiate s)] })] := by
  intro s
  have hbelow : memberSources heirs (engine heirs (n + 1)) (.generic "C" [arg]) =
      collectClass heirs (engine heirs (n + 1)) "C" s {} := by
    rw [memberSources, collectSources_generic (isOfClass_heirs (.inr rfl) _), putIn_generic,
      paramNames_heirs (.inr rfl)]
    rfl
  have habove (sources : MemberSources) :
      (engine heirs (n + 1)).collectSources (.generic "B" [arg]) s sources =
      collectClass heirs (engine heirs n) "B" { bindings :=
        [("T", arg.instantiate s)] } sources := by
    refine (collectSources_generic (isOfClass_heirs (.inl rfl) _) sources).trans ?_
    rw [putIn_generic, paramNames_heirs (.inl rfl)]
    rfl
  have hinstance : (Ty.generic "B" [.tpl "T"]).instantiate s = .generic "B" [arg] := rfl
  rw [hbelow, collectClass_of_new (by simp), supers_heirs, if_pos rfl, List.map_singleton,
    List.foldlM_cons, hinstance, habove, collectClass_of_new (by simp), supers_heirs,
    if_neg (by decide), classOwners_heirs, classOwners_heirs]
  rfl

theorem apart_heirs (h : Reaches heirs (.generic "C" [.string]) u) : Apart heirs u := by
  intro v hv
  rcases reaches_heirs_iff.1 h with rfl | rfl
  · obtain rfl := inherits_heirs_iff.1 hv
    refine ⟨.made rfl rfl ?_, nofun⟩
    simpa [Ty.children] using Ty.Regular.leaf rfl rfl rfl
  · obtain ⟨super, hsuper, -⟩ := hv
    exact absurd (extends_heirs_iff.1 hsuper).1 (by simp [className?])

/-- Members are seen through sources that are those of all classes above, with what the search puts
in on its way up there. As long as all instances are apart, that is the arguments of one of the
instances that are reached. The parameters of a class above are found as they are written where it
is extended, which are the arguments there if no template is written. -/
theorem inherited_args (p : Project) (t : Ty) (h : Hierarchy p maxDepth t) :
    let owners := (run (memberSources p (fullEngine p) t)).owners
    (∀ info ∈ run (findMembers p (fullEngine p) t), SeenThrough p t owners info) ∧
      (∀ key info, run (findMember p (fullEngine p) t key) = some info →
        SeenThrough p t owners info) ∧
      (∀ v name, Relation.ReflTransGen (Extends p) t v → className? v = some name →
        ∃ s, (.type name, s) ∈ owners) ∧
      (∀ o ∈ owners, ∃ x, Relation.ReflTransGen (Climbs p) (t, {}) x ∧ IsSource p x o) ∧
      ((∀ u, Reaches p t u → Apart p u) → ∀ o ∈ owners, ∃ u name, Reaches p t u ∧
        className? u = some name ∧
        o.1 ∈ classOwners p name ∧ ∀ base params, u = .generic base params →
        o.2 = .ofParams (paramNames p base) params) ∧
      ∀ base params, Relation.ReflTransGen (Extends p) t (.generic base params) →
        ∃ written, run (genericParamsAs p t base) = some written ∧
        Relation.ReflTransGen (Extends p) t (.generic base written) ∧
          (Ty.Regular (.generic base written) → Ty.listTemplates written = [] →
            Reaches p t (.generic base written)) := by
  obtain ⟨after, hrun, hwalked⟩ :=
    walks_collectSources (h.mono (show maxDepth ≤ searchFuel by decide)) {} {} {}
  intro owners
  have howners : owners = after.owners := congrArg (·.1.owners) hrun
  have hclimbs : ∀ o ∈ owners, ∃ x, Relation.ReflTransGen (Climbs p) (t, {}) x ∧
      IsSource p x o := by
    obtain ⟨added, hadded, hfrom⟩ := hwalked.owners
    rw [howners, hadded]
    intro o ho
    obtain ⟨x, hx, y, hy, hsource⟩ := hfrom o ho
    exact ⟨y, List.mem_singleton.1 hx ▸ hy, hsource⟩
  have hunion : t.isUnion = false := by
    obtain ⟨name, hname⟩ := isSome_className? h.ofClass
    cases t <;> first | rfl | cases hname
  refine ⟨findMembers_seenThrough p _ t, findMember_seenThrough p _ hunion,
    fun v name hup hname => ?_, hclimbs,
    fun hapart o ho => ?_, fun base params hup => ?_⟩
  · rw [howners]
    exact hwalked.exists_owner hup hname
  · obtain ⟨x, hx, name, hname, howner, hputs⟩ := hclimbs o ho
    have hsettled := settled_of_climbs hapart hx
    refine ⟨x.1, name, hsettled.1, hname, howner, fun base params hgeneric => ?_⟩
    rw [hputs, putIn_of_settled hsettled hgeneric]
  · obtain ⟨written, hfound, hwritten⟩ := run_genericParamsAs_of_extends h hup
    exact ⟨written, hfound, hwritten, reaches_of_closed h hwritten⟩

/-- The members of `B` are seen from `C<string>` with strings, but the parameter of `B` is found as
it is written. -/
theorem inherited_args_heirs :
    let t := Ty.generic "C" [.string]
    Hierarchy heirs maxDepth t ∧ (∀ u, Reaches heirs t u → Apart heirs u) ∧
      (.type "B", .ofParams ["T"] [.string]) ∈
      (run (memberSources heirs (fullEngine heirs) t)).owners ∧
      run (genericParamsAs heirs t "B") = some [.tpl "T"] := by
  intro t
  obtain ⟨-, -, howner, -, hfrom, hparams⟩ := inherited_args heirs t (hierarchy_heirs _)
  have habove : Relation.ReflTransGen (Extends heirs) t (.generic "B" [.tpl "T"]) :=
    .single (extends_heirs_iff.2 ⟨rfl, rfl⟩)
  refine ⟨hierarchy_heirs _, fun u => apart_heirs, ?_, ?_⟩
  · obtain ⟨s, hs⟩ := howner _ "B" habove rfl
    obtain ⟨u, name, hu, hname, hclass, hputs⟩ := hfrom (fun u => apart_heirs) _ hs
    rw [classOwners_heirs] at hclass
    obtain rfl := MemberOwner.type.inj (List.mem_singleton.1 hclass)
    rcases reaches_heirs_iff.1 hu with rfl | rfl
    · simp [className?] at hname
    · have hstrings := hputs "B" [.string] rfl
      rw [paramNames_heirs (.inl rfl)] at hstrings
      exact hstrings ▸ hs
  · obtain ⟨written, hfound, hup, -⟩ := hparams "B" _ habove
    rw [hfound, eq_of_extends_heirs hup]

/-- Whether the parameters of a class that is reached are found as they are there. -/
def SeesParams (p : Project) : Prop :=
  ∀ t base params, Hierarchy p maxDepth t → Reaches p t (.generic base params) →
    run (genericParamsAs p t base) = some params

/-- Whether the members of a class that is reached are seen with the arguments there. -/
def SeesMembers (p : Project) : Prop :=
  ∀ t base params, Hierarchy p maxDepth t → Reaches p t (.generic base params) →
    (.type base, .ofParams (paramNames p base) params) ∈
    (run (memberSources p (fullEngine p) t)).owners

/-- From `C<string>` the parameter of `B` is not found to be `string`, and from `C<T[]>` its members
are not seen with `T[]`. -/
theorem not_sees_heirs : ¬ SeesParams heirs ∧ ¬ SeesMembers heirs := by
  refine ⟨fun h => ?_, fun h => ?_⟩
  · have hfound := h (.generic "C" [.string]) "B" [.string] (hierarchy_heirs _)
      (reaches_heirs_iff.2 (.inr rfl))
    rw [run_genericParamsAs_heirs] at hfound
    simp at hfound
  · have howner := h (.generic "C" [.array (.tpl "T")]) "B" _ (hierarchy_heirs _)
      (reaches_heirs_iff.2 (.inr rfl))
    have howners := owners_heirs (.array (.tpl "T")) (searchFuel - 1) {}
    rw [paramNames_heirs (.inl rfl)] at howner
    have hmem := howners ▸
      (show _ ∈ (memberSources heirs (engine heirs (searchFuel - 1 + 1)) _ {}).1.owners from howner)
    -- the substitution for `B` has the array twice
    have hsame :=
      (Prod.mk.inj (List.mem_singleton.1 ((List.mem_cons.1 hmem).resolve_left (by simp)))).2
    cases hsame

end LuaAnalysis.Inference
