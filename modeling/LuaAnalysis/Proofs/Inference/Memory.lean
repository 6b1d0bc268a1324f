import LuaAnalysis.Proofs.Index.Grounded
import LuaAnalysis.Proofs.Inference.Termination
import Mathlib.Data.Nat.Find

/-!
What a search remembers. Whatever else is asked before, an expression or a declaration that is asked
for again has the type that was found the first time. Where no question leads back to itself or too
far down, this is the type that a search of its own finds, and a search that remembers nothing.
-/

namespace LuaAnalysis.Inference

open Document LuaAnalysis.Types Scope Syntax LuaAnalysis.Settings Workspace

/-- A question whose answer a search keeps. -/
inductive Query where
  | expr (doc : DocId) (expr : ElementId)
  | decl (decl : Decl)

def CacheEntry.answer : CacheEntry → Ty
  | .pending => .unknown
  | .done type => type

namespace Query

def ask (e : Engine) : Query → Search Ty
  | .expr doc node => e.inferExpr doc node
  | .decl d => e.declType d

def held? : Query → SearchState → Option CacheEntry
  | .expr doc node, s => s.exprCached? ⟨doc, node⟩
  | .decl d, s => s.declCached? d.id

def keep : Query → CacheEntry → SearchState → SearchState
  | .expr doc node, entry, s => s.keepExpr ⟨doc, node⟩ entry
  | .decl d, entry, s => s.keepDecl d.id entry

def known? (p : Project) (s : SearchState) : Query → Option Ty
  | .expr doc node =>
    if (p.tree? doc).isNone then some .unknown
    else ((Query.expr doc node).held? s).map (·.answer)
  | .decl d => ((Query.decl d).held? s).map (·.answer)

variable {p : Project} {depth : Nat} {s s' : SearchState} {a : Ty}

theorem held?_keep (q : Query) (entry : CacheEntry) (s : SearchState) :
    q.held? (q.keep entry s) = some entry := by
  cases q with
  | expr doc node => exact (SearchState.exprCached?_keepExpr _ entry s _).trans (if_pos rfl)
  | decl d => exact (SearchState.declCached?_keepDecl _ entry s _).trans (if_pos rfl)

theorem held?_leads (h : s.Leads s') {q : Query} {entry : CacheEntry}
    (hentry : q.held? s = some entry) : q.held? s' = some entry := by
  cases q with
  | expr doc node => exact h.expr _ _ hentry
  | decl d => exact h.decl _ _ hentry

theorem known?_leads (h : s.Leads s') (q : Query) (hknown : q.known? p s = some a) :
    q.known? p s' = some a := by
  have hkept {q : Query} (hq : (q.held? s).map (·.answer) = some a) :
      (q.held? s').map (·.answer) = some a := by
    obtain ⟨entry, hentry, rfl⟩ := Option.map_eq_some_iff.1 hq
    rw [held?_leads h hentry, Option.map_some]
  cases q with
  | expr doc node =>
    simp only [known?] at hknown ⊢
    split
    · rwa [if_pos ‹_›] at hknown
    · rw [if_neg ‹_›] at hknown
      exact hkept hknown
  | decl d => exact hkept hknown

theorem cached_known {lookup : SearchState → Option CacheEntry}
    {keep : CacheEntry → SearchState → SearchState} {entry : CacheEntry}
    (h : lookup s = some entry) (search : Search Ty) :
    Search.cached lookup keep search s = (entry.answer, s) := by
  cases entry with
  | pending => exact Search.cached_of_pending h search
  | done type => exact Search.cached_of_done h search

theorem cached_keeps (q : Query) (search : Search Ty) (s : SearchState) :
    (q.held? (Search.cached q.held? q.keep search s).2).map (·.answer) =
      some (Search.cached q.held? q.keep search s).1 := by
  cases hlookup : q.held? s with
  | none =>
    rw [Search.cached_of_none hlookup, held?_keep]
    rfl
  | some entry =>
    rw [cached_known hlookup, hlookup]
    rfl

theorem known?_ask (n : Nat) (q : Query) (s : SearchState) :
    q.known? p (q.ask (engine p (n + 1)) s).2 = some (q.ask (engine p (n + 1)) s).1 := by
  cases q with
  | expr doc node =>
    change known? p (inferExpr p (engine p n) doc node s).2 (.expr doc node) =
      some (inferExpr p (engine p n) doc node s).1
    simp only [known?, inferExpr]
    cases p.tree? doc with
    | none => rfl
    | some t =>
      rw [Option.isNone_some, if_neg Bool.false_ne_true]
      exact cached_keeps (.expr doc node) _ s
  | decl d => exact cached_keeps (.decl d) _ s

theorem ask_settles (h : WellFounded (LooksInto p)) (q : Query) :
    Settles p depth fun e => q.ask e := by
  have g := guarded_all h depth
  cases q with
  | expr doc node => exact g.inferExpr doc node
  | decl d => exact g.declType d

theorem asks_settle (h : WellFounded (LooksInto p)) (qs : List Query) (hs : s.Ready depth) :
    ∃ s', s'.Ready depth ∧ s.Leads s' ∧ ∃ n, ∀ m, n ≤ m →
      (qs.mapM (·.ask (engine p m)) : Search (List Ty)) s =
        (qs.map fun q => (q.known? p s').getD .unknown, s') := by
  induction qs generalizing s with
  | nil => exact ⟨s, hs, .refl s, 0, fun _ _ => rfl⟩
  | cons q qs ih =>
    obtain ⟨a, s₁, -, hs₁, hleads₁, n₁, h₁⟩ := ask_settles h q s hs
    obtain ⟨s₂, hs₂, hleads₂, n₂, h₂⟩ := ih hs₁
    have hknown : q.known? p s₁ = some a := by
      have hask := known?_ask (p := p) n₁ q s
      rwa [show q.ask (engine p (n₁ + 1)) s = (a, s₁) from h₁ (n₁ + 1) (by omega)] at hask
    refine ⟨s₂, hs₂, hleads₁.trans hleads₂, max n₁ n₂, fun m hm => ?_⟩
    rw [List.mapM_cons, Search.bind_apply (h₁ m (by omega)), Search.bind_apply (h₂ m (by omega))]
    rw [List.map_cons, known?_leads hleads₂ q hknown]
    rfl

theorem answers_stable (h : WellFounded (LooksInto p)) (qs : List Query) :
    ∃ answer : Query → Ty, ∃ n, ∀ m, n ≤ m →
      run (qs.mapM (·.ask (engine p m))) = qs.map answer := by
  have hready : SearchState.Ready {} 0 := ⟨rfl, rfl, rfl⟩
  obtain ⟨s, -, -, n, hn⟩ := asks_settle h qs hready
  exact ⟨fun q => (q.known? p s).getD .unknown, n, fun m hm => congrArg (·.1) (hn m hm)⟩

end Query

/-- Runs a search one level deeper, if that is less than `limit` levels down. -/
def Search.below {α : Type} (limit : Nat) (fallback : α) (search : Search α) : Search α := do
  if limit ≤ (← get).depth then Search.outOfFuel fallback
  else
    modify fun s => { s with depth := s.depth + 1 }
    let result ← search
    modify fun s => { s with depth := s.depth - 1 }
    return result

/-- The answers of `engine` without its memory. What leads too far down counts as out of fuel. -/
def direct (p : Project) (limit : Nat) : Nat → Engine
  | 0 => .stopped
  | n + 1 =>
    { inferExpr := fun doc expr =>
        match p.tree? doc with
        | none => return .unknown
        | some t => Search.below limit .unknown (inferNode p (direct p limit n) t doc expr)
      declType := fun decl => Search.below limit .unknown (declTypeOf p (direct p limit n) decl)
      isSubtype := fun sub sup => Search.below limit true (fits p (direct p limit n) sub sup)
      findMember := fun t key => findMember p (direct p limit n) t key
      findCallables := fun t => findCallables p (direct p limit n) t
      indexAccess := fun source key => indexAccess p (direct p limit n) source key
      collectSources := fun t s sources => collectSources p (direct p limit n) t s sources
      unify := fun expected actual s => unify p (direct p limit n) expected actual s }

/-- The declarations that are asked for are those of the index. -/
def Query.Asked (p : Project) : Query → Prop
  | .expr _ _ => True
  | .decl d => p.index.decl? d.id = some d

/-- Without a memory the fuel lasts for an answer at a depth. -/
def Query.Ends (p : Project) (limit fuel depth : Nat) (q : Query) : Prop :=
  (q.ask (direct p limit fuel) { depth := depth }).2.exhausted = false

def Query.Gives (p : Project) (limit : Nat) (q : Query) (a : Ty) : Prop :=
  ∃ fuel, ∀ n, fuel ≤ n → q.ask (direct p limit n) {} = (a, {})

/-- The states between the steps of a search that remembers nothing but right answers. -/
structure SearchState.Sound (p : Project) (limit : Nat) (s : SearchState) : Prop where
  polls_eq : s.polls = none
  expanding_eq : s.expanding = []
  kept : ∀ (q : Query) a, q.Asked p → q.held? s = some (.done a) → q.Gives p limit a

/-- No search is under way for a question that ends with so much fuel. -/
structure SearchState.Fits (p : Project) (limit fuel : Nat) (s : SearchState) : Prop
    extends s.Sound p limit where
  pending : ∀ q : Query, q.Asked p → q.held? s = some .pending →
    ∀ n depth, n ≤ fuel → s.depth ≤ depth → ¬ q.Ends p limit n depth

/-- What a search leaves: only what was under way before it still is. -/
structure SearchState.Follows (p : Project) (limit : Nat) (s s' : SearchState) : Prop
    extends s'.Sound p limit where
  depth_eq : s'.depth = s.depth
  pending : ∀ q : Query, q.Asked p → q.held? s' = some .pending → q.held? s = some .pending

/-- Down to a depth, what follows from the names of types is what follows from them at the top. -/
structure SameNames (p : Project) (limit : Nat) : Prop where
  resolveAlias : ∀ t (s : SearchState), s.polls = none → s.expanding = [] → s.depth ≤ limit →
    resolveAlias p t s = (run (resolveAlias p t), s)
  inherits : ∀ sub sup (s : SearchState), s.polls = none → s.expanding = [] → s.depth ≤ limit →
    inherits p sub sup s = (run (inherits p sub sup), s)
  genericParamsAs : ∀ actual base (s : SearchState),
    s.polls = none → s.expanding = [] → s.depth ≤ limit →
      genericParamsAs p actual base s = (run (genericParamsAs p actual base), s)

variable {p : Project} {limit fuel depth : Nat} {α β : Type} {s s' s'' : SearchState}

namespace Query

theorem held?_keep_of_ne {q q' : Query} (hq : q.Asked p) (hq' : q'.Asked p) (hne : q ≠ q')
    (entry : CacheEntry) (s : SearchState) : q'.held? (q.keep entry s) = q'.held? s := by
  cases q with
  | expr doc node =>
    cases q' with
    | expr doc' node' =>
      refine (SearchState.exprCached?_keepExpr _ entry s _).trans (if_neg fun h => hne ?_)
      cases h
      rfl
    | decl d' => rfl
  | decl d =>
    cases q' with
    | expr doc' node' => rfl
    | decl d' =>
      refine (SearchState.declCached?_keepDecl _ entry s _).trans (if_neg fun h => hne ?_)
      rw [Asked, h] at hq
      rw [Option.some.inj (hq.symm.trans hq')]

@[simp] theorem held?_depth (q : Query) (s : SearchState) (depth : Nat) :
    q.held? { s with depth := depth } = q.held? s := by
  cases q <;> rfl

theorem keep_depth (q : Query) (entry : CacheEntry) (s : SearchState) :
    (q.keep entry s).depth = s.depth := by
  cases q <;> rfl

theorem keep_polls (q : Query) (entry : CacheEntry) (s : SearchState) :
    (q.keep entry s).polls = s.polls := by
  cases q <;> rfl

theorem keep_expanding (q : Query) (entry : CacheEntry) (s : SearchState) :
    (q.keep entry s).expanding = s.expanding := by
  cases q <;> rfl

theorem Gives.unique {q : Query} {a b : Ty} (ha : q.Gives p limit a) (hb : q.Gives p limit b) :
    a = b := by
  obtain ⟨n, hn⟩ := ha
  obtain ⟨m, hm⟩ := hb
  have hsame := (hn (max n m) (Nat.le_max_left n m)).symm.trans
    (hm (max n m) (Nat.le_max_right n m))
  exact congrArg (·.1) hsame

theorem asked_of_decl? {id : DeclId} {d : Decl} (h : p.index.decl? id = some d) :
    (Query.decl d).Asked p := by
  obtain ⟨decls, hdecls, hfind⟩ := Option.bind_eq_some_iff.1 h
  rwa [Asked, DeclTree.id_eq_of_decl? hfind]

end Query

namespace SearchState

theorem fits_start : SearchState.Fits p limit fuel {} where
  polls_eq := rfl
  expanding_eq := rfl
  kept q a _ hentry := by cases q <;> cases hentry
  pending q _ hentry := by cases q <;> cases hentry

theorem Sound.at (h : s.Sound p limit) (depth : Nat) :
    SearchState.Sound p limit { s with depth := depth } where
  polls_eq := h.polls_eq
  expanding_eq := h.expanding_eq
  kept q a hq hentry := h.kept q a hq (by rwa [Query.held?_depth] at hentry)

theorem Follows.refl (h : s.Sound p limit) : s.Follows p limit s :=
  { h with depth_eq := rfl, pending := fun _ _ => id }

theorem Follows.trans (h : s.Follows p limit s') (h' : s'.Follows p limit s'') :
    s.Follows p limit s'' :=
  { h'.toSound with
    depth_eq := h'.depth_eq.trans h.depth_eq
    pending := fun q hq hpending => h.pending q hq (h'.pending q hq hpending) }

theorem Follows.back (h : SearchState.Follows p limit { s with depth := s.depth + 1 } s') :
    s.Follows p limit { s' with depth := s'.depth - 1 } :=
  { h.toSound.at (s'.depth - 1) with
    depth_eq := by rw [h.depth_eq]; rfl
    pending := fun q hq hpending => by
      rw [Query.held?_depth] at hpending
      exact (Query.held?_depth q s _).symm.trans (h.pending q hq hpending) }

theorem Fits.follows (h : s.Fits p limit fuel) (hs : s.Follows p limit s') : s'.Fits p limit fuel :=
  { hs.toSound with
    pending := fun q hq hpending n d hn hd =>
      h.pending q hq (hs.pending q hq hpending) n d hn (hs.depth_eq ▸ hd) }

theorem Fits.mono (h : s.Fits p limit fuel) {n : Nat} (hn : n ≤ fuel) : s.Fits p limit n :=
  { h.toSound with
    pending := fun q hq hpending m d hm => h.pending q hq hpending m d (hm.trans hn) }

theorem Fits.deeper (h : s.Fits p limit fuel) :
    SearchState.Fits p limit fuel { s with depth := s.depth + 1 } :=
  { h.toSound.at (s.depth + 1) with
    pending := fun q hq hpending n depth hn hdepth => by
      rw [Query.held?_depth] at hpending
      exact h.pending q hq hpending n depth hn (Nat.le_of_succ_le hdepth) }

section Keep

variable {q : Query} (hq : q.Asked p)

include hq

theorem Fits.keep_pending {n : Nat} (h : s.Fits p limit fuel) (hn : n ≤ fuel)
    (hlate : ∀ m d, m ≤ n → s.depth ≤ d → ¬ q.Ends p limit m d) :
    (q.keep .pending s).Fits p limit n where
  polls_eq := (q.keep_polls _ s).trans h.polls_eq
  expanding_eq := (q.keep_expanding _ s).trans h.expanding_eq
  kept q' a hq' hentry := by
    by_cases hne : q = q'
    · rw [← hne, Query.held?_keep] at hentry
      cases hentry
    · rw [Query.held?_keep_of_ne hq hq' hne] at hentry
      exact h.kept q' a hq' hentry
  pending q' hq' hentry m d hm hd := by
    rw [Query.keep_depth] at hd
    by_cases hne : q = q'
    · exact hne ▸ hlate m d hm hd
    · rw [Query.held?_keep_of_ne hq hq' hne] at hentry
      exact h.pending q' hq' hentry m d (hm.trans hn) hd

theorem Follows.keep_done {a : Ty} (h : (q.keep .pending s).Follows p limit s')
    (ha : q.Gives p limit a) : s.Follows p limit (q.keep (.done a) s') where
  polls_eq := (q.keep_polls _ s').trans h.polls_eq
  expanding_eq := (q.keep_expanding _ s').trans h.expanding_eq
  depth_eq := (q.keep_depth _ s').trans (h.depth_eq.trans (q.keep_depth _ s))
  kept q' b hq' hentry := by
    by_cases hne : q = q'
    · rw [← hne, Query.held?_keep] at hentry
      cases hentry
      exact hne ▸ ha
    · rw [Query.held?_keep_of_ne hq hq' hne] at hentry
      exact h.kept q' b hq' hentry
  pending q' hq' hentry := by
    by_cases hne : q = q'
    · rw [← hne, Query.held?_keep] at hentry
      cases hentry
    · rw [Query.held?_keep_of_ne hq hq' hne] at hentry
      have hbefore := h.pending q' hq' hentry
      rwa [Query.held?_keep_of_ne hq hq' hne] at hbefore

end Keep

end SearchState

/-- From some fuel on and down to some depth, a search has this answer with and without a memory. -/
structure Finds (p : Project) (limit fuel depth : Nat) (f : Engine → Search α) (a : α) : Prop where
  anew : ∀ n d, fuel ≤ n → d ≤ depth → f (direct p limit n) { depth := d } = (a, { depth := d })
  remembered : ∀ n s, fuel ≤ n → s.depth ≤ depth → s.Fits p limit fuel →
    ∃ s', f (engine p n) s = (a, s') ∧ s.Follows p limit s'

/-- If the fuel lasts without a memory, the answer is the same with one. -/
def Agrees (p : Project) (limit fuel depth : Nat) (f : Engine → Search α) : Prop :=
  ∃ a exhausted,
    (∀ before, f (direct p limit fuel) { depth := depth, exhausted := before } =
      (a, { depth := depth, exhausted := before || exhausted })) ∧
    (exhausted = false → Finds p limit fuel depth f a)

namespace Agrees

theorem pure (a : α) : Agrees p limit fuel depth fun _ => Pure.pure a := by
  refine ⟨a, false, fun before => ?_, fun _ => ⟨fun _ _ _ _ => rfl, fun _ s _ _ hs => ?_⟩⟩
  · rw [Bool.or_false]
    rfl
  · exact ⟨s, rfl, .refl hs.toSound⟩

theorem bind {f : Engine → Search α} {g : α → Engine → Search β}
    (hf : Agrees p limit fuel depth f) (hg : ∀ a, Agrees p limit fuel depth (g a)) :
    Agrees p limit fuel depth fun e => f e >>= fun a => g a e := by
  obtain ⟨a, first, hfirst, hfinds⟩ := hf
  obtain ⟨b, second, hsecond, hfinds'⟩ := hg a
  refine ⟨b, first || second, fun before => ?_, fun h => ?_⟩
  · rw [← Bool.or_assoc]
    exact (Search.bind_apply (hfirst before)).trans (hsecond _)
  · obtain ⟨hnone, hnone'⟩ := Bool.or_eq_false_iff.1 h
    have ha := hfinds hnone
    have hb := hfinds' hnone'
    refine ⟨fun n d hn hd => ?_, fun n s hn hd hs => ?_⟩
    · exact (Search.bind_apply (ha.anew n d hn hd)).trans (hb.anew n d hn hd)
    · obtain ⟨s₁, hrun, hs₁⟩ := ha.remembered n s hn hd hs
      obtain ⟨s₂, hrun', hs₂⟩ := hb.remembered n s₁ hn (hs₁.depth_eq ▸ hd) (hs.follows hs₁)
      exact ⟨s₂, (Search.bind_apply hrun).trans hrun', hs₁.trans hs₂⟩

theorem chains : Chains fun _ => Agrees p limit fuel depth := ⟨pure, bind⟩

theorem of_same {x : Search α} {a : α} (hdepth : depth ≤ limit)
    (h : ∀ s : SearchState, s.polls = none → s.expanding = [] → s.depth ≤ limit → x s = (a, s)) :
    Agrees p limit fuel depth fun _ => x := by
  refine ⟨a, false, fun before => ?_, fun _ => ⟨fun _ d _ hd => ?_, fun _ s _ hd hs => ?_⟩⟩
  · rw [Bool.or_false]
    exact h _ rfl rfl hdepth
  · exact h _ rfl rfl (hd.trans hdepth)
  · exact ⟨s, h s hs.polls_eq hs.expanding_eq (hd.trans hdepth), .refl hs.toSound⟩

theorem outOfFuel {f : Engine → Search α} {a : α} (h : f .stopped = Search.outOfFuel a) :
    Agrees p limit 0 depth f := by
  refine ⟨a, true, fun before => ?_, nofun⟩
  rw [Bool.or_true]
  exact congrFun h _

theorem next {f g : Engine → Search α} (hf : Agrees p limit fuel depth f)
    (hdirect : ∀ n, g (direct p limit (n + 1)) = f (direct p limit n))
    (hengine : ∀ n, g (engine p (n + 1)) = f (engine p n)) :
    Agrees p limit (fuel + 1) depth g := by
  obtain ⟨a, exhausted, hrun, hfinds⟩ := hf
  refine ⟨a, exhausted, fun before => ?_, fun h => ⟨fun n d hn hd => ?_, fun n s hn hd hs => ?_⟩⟩
  · exact (congrFun (hdirect fuel) _).trans (hrun before)
  all_goals obtain ⟨m, rfl⟩ : ∃ m, n = m + 1 := ⟨n - 1, by omega⟩
  · rw [hdirect]
    exact (hfinds h).anew m d (Nat.le_of_succ_le_succ hn) hd
  · rw [hengine]
    exact (hfinds h).remembered m s (Nat.le_of_succ_le_succ hn) hd (hs.mono (Nat.le_succ fuel))

end Agrees

theorem Search.below_of_room {fallback a : α} {search : Search α} (hroom : s.depth < limit)
    (h : search { s with depth := s.depth + 1 } = (a, s')) :
    Search.below limit fallback search s = (a, { s' with depth := s'.depth - 1 }) := by
  change (if limit ≤ s.depth then Search.outOfFuel fallback else _ : Search α) s = _
  rw [if_neg (Nat.not_le_of_lt hroom)]
  change (search >>= fun result => do
    modify fun s => { s with depth := s.depth - 1 }
    return result) { s with depth := s.depth + 1 } = _
  exact Search.bind_apply h

theorem Search.below_of_no_room {fallback : α} (search : Search α) (hdeep : limit ≤ s.depth) :
    Search.below limit fallback search s = (fallback, { s with exhausted := true }) := by
  change (if limit ≤ s.depth then Search.outOfFuel fallback else _ : Search α) s = _
  rw [if_pos hdeep]
  rfl

namespace Finds

variable {f : Engine → Search α} {a : α} (h : Finds p limit fuel (depth + 1) f a)
  (hroom : depth < limit)

include h hroom

theorem below {fallback : α} (n d : Nat) (hn : fuel ≤ n) (hd : d ≤ depth) :
    Search.below limit fallback (f (direct p limit n)) { depth := d } = (a, { depth := d }) :=
  Search.below_of_room (s := { depth := d }) (Nat.lt_of_le_of_lt hd hroom)
    (h.anew n (d + 1) hn (Nat.succ_le_succ hd))

theorem guarded {fallback : α} (hlimit : limit ≤ maxDepth) (n : Nat) (hn : fuel ≤ n)
    (hd : s.depth ≤ depth) (hs : s.Fits p limit fuel) :
    ∃ s', Search.guarded fallback (f (engine p n)) s = (a, s') ∧ s.Follows p limit s' := by
  obtain ⟨s₁, hrun, hs₁⟩ :=
    h.remembered n { s with depth := s.depth + 1 } hn (Nat.succ_le_succ hd) hs.deeper
  exact ⟨_, Search.guarded_of_uncancelled hs.polls_eq (by omega) hrun, hs₁.back⟩

end Finds

namespace Agrees

theorem below (fallback : α) {f : Engine → Search α}
    (hf : depth < limit → Agrees p limit fuel (depth + 1) f) :
    ∃ a exhausted,
      (∀ before, Search.below limit fallback (f (direct p limit fuel))
        { depth := depth, exhausted := before } =
          (a, { depth := depth, exhausted := before || exhausted })) ∧
      (exhausted = false → depth < limit ∧ Finds p limit fuel (depth + 1) f a) := by
  by_cases hroom : depth < limit
  · obtain ⟨a, exhausted, hrun, hfinds⟩ := hf hroom
    refine ⟨a, exhausted, fun before => ?_, fun h => ⟨hroom, hfinds h⟩⟩
    exact Search.below_of_room (s := { depth := depth, exhausted := before }) hroom (hrun before)
  · refine ⟨fallback, true, fun before => ?_, nofun⟩
    rw [Bool.or_true]
    exact Search.below_of_no_room _ (Nat.le_of_not_lt hroom)

theorem guarded {fallback : α} {f g : Engine → Search α} (hlimit : limit ≤ maxDepth)
    (hf : depth < limit → Agrees p limit fuel (depth + 1) f)
    (hdirect : ∀ n, g (direct p limit (n + 1)) = Search.below limit fallback (f (direct p limit n)))
    (hengine : ∀ n, g (engine p (n + 1)) = Search.guarded fallback (f (engine p n))) :
    Agrees p limit (fuel + 1) depth g := by
  obtain ⟨a, exhausted, hrun, hfinds⟩ := below fallback hf
  refine ⟨a, exhausted, fun before => ?_, fun h => ?_⟩
  · exact (congrFun (hdirect fuel) _).trans (hrun before)
  obtain ⟨hroom, hfinds⟩ := hfinds h
  refine ⟨fun n d hn hd => ?_, fun n s hn hd hs => ?_⟩
  all_goals obtain ⟨m, rfl⟩ : ∃ m, n = m + 1 := ⟨n - 1, by omega⟩
  · rw [hdirect]
    exact hfinds.below hroom m d (Nat.le_of_succ_le_succ hn) hd
  · rw [hengine]
    have hfits := hs.mono (Nat.le_succ fuel)
    exact hfinds.guarded hroom hlimit m (Nat.le_of_succ_le_succ hn) hd hfits

end Agrees

section Cached

variable {q : Query} {f : Engine → Search Ty}
  (hstopped : ∃ a, q.ask .stopped = Search.outOfFuel a)
  (hdirect : ∀ n, q.ask (direct p limit (n + 1)) =
    Search.below limit .unknown (f (direct p limit n)))

include hstopped in
theorem Query.Ends.exists_least (h : q.Ends p limit fuel depth) {top : Nat} (htop : top ≤ depth) :
    ∃ n d, n < fuel ∧ top ≤ d ∧ q.Ends p limit (n + 1) d ∧
      ∀ m d, m ≤ n → top ≤ d → ¬ q.Ends p limit m d := by
  have hexists : ∃ n d, top ≤ d ∧ q.Ends p limit n d := ⟨fuel, depth, htop, h⟩
  classical
  obtain ⟨d, hd, hends⟩ := Nat.find_spec hexists
  have hle : Nat.find hexists ≤ fuel := Nat.find_min' hexists ⟨depth, htop, h⟩
  have hmin {m : Nat} (hm : m < Nat.find hexists) := Nat.find_min hexists hm
  cases hfirst : Nat.find hexists with
  | zero =>
    obtain ⟨a, ha⟩ := hstopped
    rw [hfirst, Query.Ends, direct, ha] at hends
    cases hends
  | succ n =>
    rw [hfirst] at hends hle hmin
    exact ⟨n, d, hle, hd, hends, fun m d' hm hd' h => hmin (Nat.lt_succ_of_le hm) ⟨d', hd', h⟩⟩

include hdirect in
theorem Query.Gives.of_below {a : Ty} (hroom : depth < limit)
    (h : Finds p limit fuel (depth + 1) f a) : q.Gives p limit a := by
  refine ⟨fuel + 1, fun n hn => ?_⟩
  obtain ⟨m, rfl⟩ : ∃ m, n = m + 1 := ⟨n - 1, by omega⟩
  rw [hdirect]
  exact h.below hroom m 0 (Nat.le_of_succ_le_succ hn) (Nat.zero_le depth)

include hstopped hdirect in
/-- A question whose answer is remembered has the answer that it has without a memory. It is not
under way, since a search for it that led to it again would end with less fuel than it takes. -/
theorem Agrees.cached (hlimit : limit ≤ maxDepth) (hq : q.Asked p)
    (hf : ∀ n d, n ≤ fuel → d ≤ limit → Agrees p limit n d f)
    (hengine : ∀ n, q.ask (engine p (n + 1)) = Search.cached q.held? q.keep (f (engine p n))) :
    Agrees p limit (fuel + 1) depth fun e => q.ask e := by
  have hbelow (n d : Nat) (hn : n ≤ fuel) :=
    below (p := p) Ty.unknown fun hroom => hf n (d + 1) hn hroom
  obtain ⟨a, exhausted, hrun, hfinds⟩ := hbelow fuel depth le_rfl
  refine ⟨a, exhausted, fun before => ?_, fun h => ?_⟩
  · exact (congrFun (hdirect fuel) _).trans (hrun before)
  obtain ⟨hroom, hfinds⟩ := hfinds h
  have hgives : q.Gives p limit a := .of_below hdirect hroom hfinds
  have hends : q.Ends p limit (fuel + 1) depth := by
    rw [Query.Ends, hdirect, hrun]
    exact h
  refine ⟨fun n d hn hd => ?_, fun n s hn hd hs => ?_⟩
  all_goals obtain ⟨m, rfl⟩ : ∃ m, n = m + 1 := ⟨n - 1, by omega⟩
  · rw [hdirect]
    exact hfinds.below hroom m d (Nat.le_of_succ_le_succ hn) hd
  rw [hengine]
  cases hentry : q.held? s with
  | some entry =>
    cases entry with
    | done b =>
      obtain rfl := (hs.kept q b hq hentry).unique hgives
      exact ⟨s, Search.cached_of_done hentry _, .refl hs.toSound⟩
    | pending => exact absurd hends (hs.pending q hq hentry (fuel + 1) depth le_rfl hd)
  | none =>
    -- With least fuel the search asks for nothing that takes as much, itself included.
    obtain ⟨k, d, hk, hsd, hleast, hlate⟩ := hends.exists_least hstopped hd
    obtain ⟨b, exhausted', hrun', hfinds'⟩ := hbelow k d (Nat.le_of_lt_succ hk)
    rw [Query.Ends, hdirect, hrun'] at hleast
    obtain ⟨hroom', hfinds'⟩ := hfinds' hleast
    obtain rfl := (Query.Gives.of_below hdirect hroom' hfinds').unique hgives
    have hfits := hs.keep_pending hq (Nat.le_of_lt hk) hlate
    have hkeep : (q.keep .pending s).depth ≤ d := (q.keep_depth _ s).le.trans hsd
    obtain ⟨s', hsearch, hs'⟩ := hfinds'.guarded hroom' hlimit m (by omega) hkeep hfits
    refine ⟨_, (Search.cached_of_none hentry _).trans ?_, hs'.keep_done hq hgives⟩
    rw [hsearch]

end Cached

theorem questions_agree (hlimit : limit ≤ maxDepth) (hnames : SameNames p limit)
    (hdecl : ∀ d, ComesTo p d → p.index.decl? d.id = some d) (hdepth : depth ≤ limit) :
    Questions p fun _ => Agrees p limit fuel depth := by
  induction fuel using Nat.strongRecOn generalizing depth with
  | _ fuel ih =>
    have hresolve (t : Ty) : Agrees p limit fuel depth fun _ => resolveAlias p t :=
      .of_same hdepth (hnames.resolveAlias t)
    have hinherits (sub sup : String) : Agrees p limit fuel depth fun _ => inherits p sub sup :=
      .of_same hdepth (hnames.inherits sub sup)
    have hparams (actual : Ty) (base : String) :
        Agrees p limit fuel depth fun _ => genericParamsAs p actual base :=
      .of_same hdepth (hnames.genericParamsAs actual base)
    cases fuel with
    | zero =>
      exact { Agrees.chains with
        inferExpr := fun _ _ => .outOfFuel rfl
        declType := fun _ _ => .outOfFuel rfl
        isSubtype := fun _ _ => .outOfFuel rfl
        findMember := fun _ _ => .outOfFuel rfl
        findCallables := fun _ => .outOfFuel rfl
        indexAccess := fun _ _ => .outOfFuel rfl
        collectSources := fun _ _ _ => .outOfFuel rfl
        unify := fun _ _ _ => .outOfFuel rfl
        resolveAlias := hresolve
        inherits := hinherits
        genericParamsAs := hparams }
    | succ fuel =>
      have hbelow {n d : Nat} (hn : n ≤ fuel) (hd : d ≤ limit) :
          Questions p fun _ => Agrees p limit n d := ih n (Nat.lt_succ_of_le hn) hd
      have h : Questions p fun _ => Agrees p limit fuel depth := hbelow le_rfl hdepth
      have g := h.bindings
      have hexpr (doc : DocId) (expr : ElementId) :
          Agrees p limit (fuel + 1) depth fun e => e.inferExpr doc expr := by
        cases htree : p.tree? doc with
        | none =>
          refine .next (f := fun _ => Pure.pure Ty.unknown) (.pure _) (fun n => ?_) fun n => ?_
          · simp only [direct, htree]
          · simp only [engine, inferExpr, htree]
        | some t =>
          refine Agrees.cached (q := .expr doc expr) (f := fun e => inferNode p e t doc expr)
            ⟨_, rfl⟩ (fun n => ?_) hlimit trivial (fun n d hn hd => ?_) fun n => ?_
          · simp only [Query.ask, direct, htree]
          · exact (hbelow hn hd).bindings.inferNode t doc expr
          · simp only [Query.ask, engine, inferExpr, htree]
            rfl
      have hdeclType (d : Decl) (hd : ComesTo p d) :
          Agrees p limit (fuel + 1) depth fun e => e.declType d := by
        refine Agrees.cached (q := .decl d) (f := fun e => declTypeOf p e d) ⟨_, rfl⟩
          (fun _ => rfl) hlimit (hdecl d hd) (fun n depth hn hdepth => ?_) fun _ => rfl
        exact (hbelow hn hdepth).bindings.declTypeOf d
      have hsubtype (sub sup : Ty) :
          Agrees p limit (fuel + 1) depth fun e => e.isSubtype sub sup := by
        refine .guarded (f := fun e => fits p e sub sup) hlimit (fun hroom => ?_) (fun _ => rfl)
          fun _ => rfl
        exact (hbelow le_rfl hroom).bindings.fits sub sup
      exact { Agrees.chains with
        inferExpr := hexpr
        declType := hdeclType
        isSubtype := hsubtype
        findMember := fun t key => .next (g.findMember t key) (fun _ => rfl) fun _ => rfl
        findCallables := fun t => .next (g.findCallables t) (fun _ => rfl) fun _ => rfl
        indexAccess := fun t key => .next (g.indexAccess t key) (fun _ => rfl) fun _ => rfl
        collectSources := fun t s sources =>
          .next (h.collectSourcesBelow t s sources) (fun _ => rfl) fun _ => rfl
        unify := fun expected actual s =>
          .next (h.unifyBelow expected actual s) (fun _ => rfl) fun _ => rfl
        resolveAlias := hresolve
        inherits := hinherits
        genericParamsAs := hparams }

theorem comesTo_iff (h : p.Faithful) {d : Decl} : ComesTo p d ↔ p.index.decl? d.id = some d := by
  constructor
  · intro hd
    cases hd with
    | «local» hlocal =>
      obtain ⟨decls, hdecls, hfind⟩ := Option.bind_eq_some_iff.1 hlocal
      obtain ⟨b, -, hb⟩ := List.exists_of_findSome?_eq_some hfind
      obtain ⟨id, -, hid⟩ := List.exists_of_findSome?_eq_some hb
      have hmem : d ∈ decls.decls := (Array.mem_filter.1 (Array.mem_of_find?_eq_some hid)).1
      obtain ⟨tree, doc, hmore⟩ := h.finished hdecls
      rw [Index.decl?, (h.noDangling.decl _ decls hdecls d hmem).1, hdecls]
      exact DeclTree.decl?_of_mem (hmore.within (bindDocument_within tree doc)).nodup hmem
    | declared hdecls hat =>
      rw [DeclTree.declAt?, (h.noDangling.declTree _ _ hdecls).1] at hat
      rw [DeclTree.id_eq_of_decl? hat, Index.decl?, hdecls]
      exact hat
    | global hglobal =>
      obtain ⟨id, -, hid⟩ := List.mem_filterMap.1 hglobal
      exact Query.asked_of_decl? hid
  · intro hd
    obtain ⟨decls, hdecls, hfind⟩ := Option.bind_eq_some_iff.1 hd
    have hat : decls.declAt? d.id.position = some d := by
      rwa [DeclTree.declAt?, (h.noDangling.declTree _ _ hdecls).1]
    exact .declared hdecls hat

namespace Query

section

variable (hlimit : limit ≤ maxDepth) (hnames : SameNames p limit) (h : p.Faithful)

include hlimit hnames h

theorem exists_ask_direct {q : Query} (hq : q.Asked p) (hends : q.Ends p limit fuel 0)
    (hdepth : s.depth = 0) (hs : s.Fits p limit fuel) :
    ∃ s', q.ask (engine p fuel) s = (run (q.ask (direct p limit fuel)), s') ∧
      s.Follows p limit s' := by
  have g : Questions p fun _ => Agrees p limit fuel 0 :=
    questions_agree hlimit hnames (fun d => (comesTo_iff h).1) (Nat.zero_le limit)
  have hagrees : Agrees p limit fuel 0 fun e => q.ask e := by
    cases q with
    | expr doc node => exact g.inferExpr doc node
    | decl d => exact g.declType d ((comesTo_iff h).2 hq)
  obtain ⟨a, exhausted, hrun, hfinds⟩ := hagrees
  have hanswer : q.ask (direct p limit fuel) {} = (a, { exhausted := exhausted }) := hrun false
  have hlasts : exhausted = false := by rwa [Query.Ends, hanswer] at hends
  obtain ⟨s', hsearch, hs'⟩ := (hfinds hlasts).remembered fuel s le_rfl hdepth.le hs
  refine ⟨s', hsearch.trans ?_, hs'⟩
  rw [show run (q.ask (direct p limit fuel)) = a from congrArg (·.1) hanswer]

theorem exists_asks_direct (qs : List Query) (hasked : ∀ q ∈ qs, q.Asked p)
    (hends : ∀ q ∈ qs, q.Ends p limit fuel 0) (hdepth : s.depth = 0) (hs : s.Fits p limit fuel) :
    ∃ s', (qs.mapM (·.ask (engine p fuel)) : Search (List Ty)) s =
      (qs.map fun q => run (q.ask (direct p limit fuel)), s') := by
  induction qs generalizing s with
  | nil => exact ⟨s, rfl⟩
  | cons q qs ih =>
    obtain ⟨hq, hqs⟩ := List.forall_mem_cons.1 hasked
    obtain ⟨hqends, hqsends⟩ := List.forall_mem_cons.1 hends
    obtain ⟨s₁, hsearch, hs₁⟩ := exists_ask_direct hlimit hnames h hq hqends hdepth hs
    obtain ⟨s₂, hrest⟩ := ih hqs hqsends (hs₁.depth_eq.trans hdepth) (hs.follows hs₁)
    refine ⟨s₂, ?_⟩
    rw [List.mapM_cons, Search.bind_apply hsearch, Search.bind_apply hrest]
    rfl

end

/-- Where no question leads back to itself or too far down, it makes no difference what was asked
before: each question has the answer that it has in a search of its own, the one without a
memory. -/
theorem answers_direct (hp : ∃ settings edits, p = (Project.ofSettings settings).run edits)
    (hlimit : limit ≤ maxDepth) (hnames : SameNames p limit) (qs : List Query)
    (hasked : ∀ q ∈ qs, q.Asked p) (hends : ∀ q ∈ qs, q.Ends p limit searchFuel 0) :
    run (qs.mapM (·.ask (fullEngine p))) = qs.map (fun q => run (q.ask (fullEngine p))) ∧
      ∀ q ∈ qs, run (q.ask (fullEngine p)) = run (q.ask (direct p limit searchFuel)) := by
  obtain ⟨settings, edits, hp⟩ := hp
  have h : p.Faithful := hp ▸ (Project.faithful_ofSettings settings).run edits
  have hone (q : Query) (hq : q ∈ qs) :
      run (q.ask (fullEngine p)) = run (q.ask (direct p limit searchFuel)) := by
    obtain ⟨s, hs, -⟩ :=
      exists_ask_direct hlimit hnames h (hasked q hq) (hends q hq) rfl SearchState.fits_start
    exact congrArg (·.1) hs
  obtain ⟨s, hs⟩ :=
    exists_asks_direct hlimit hnames h qs hasked hends rfl SearchState.fits_start
  exact ⟨(congrArg (·.1) hs).trans (List.map_congr_left hone).symm, hone⟩

end Query

theorem isAliasName_eq_false (h : ∀ name ∈ p.index.typeNames, p.isAliasName name = false)
    (name : String) : p.isAliasName name = false := by
  by_cases hname : name ∈ p.index.typeNames
  · exact h name hname
  · rw [Index.typeNames, TypeIndex.mem_names_iff, Bool.not_eq_true, Option.isSome_eq_false_iff,
      Option.isNone_iff_eq_none] at hname
    rw [Project.isAliasName, Index.typeDecl?, hname]
    rfl

theorem supers_eq_nil (h : p.index.superStore.keys = []) (name : String) :
    p.index.supers name = [] := by
  have hname : name ∉ p.index.superStore.keys := h ▸ List.not_mem_nil
  rw [DocMultimap.mem_keys_iff, not_not] at hname
  rw [Index.supers, DocMultimap.values, hname, List.map_nil]

theorem sameNames_of_flat (haliases : ∀ name ∈ p.index.typeNames, p.isAliasName name = false)
    (hsupers : p.index.superStore.keys = []) : SameNames p limit where
  resolveAlias t s _ _ _ := by
    have hnone : isAlias p t = false := by
      cases t with
      | ref name => exact isAliasName_eq_false haliases name
      | generic base params => exact isAliasName_eq_false haliases base
      | _ => rfl
    rw [resolveAlias_of_not_isAlias hnone, resolveAlias, resolveAliasFor_succ,
      aliasStep?_eq_none hnone]
  inherits sub sup s _ _ _ := by
    simp only [run, inherits, inheritsFor, superNames, supers_eq_nil hsupers, List.filterMap_nil]
    split <;> rfl
  genericParamsAs actual base s hpolls _ _ := by
    have hclimb : (Search.guarded none
        (([] : List Ty).findSomeM? fun super => genericParamsFor p maxDepth super base)) s =
          (none, s) := by
      rcases Nat.lt_or_ge s.depth maxDepth with hroom | hdeep
      · exact Search.guarded_of_room hpolls hroom rfl
      · exact Search.guarded_of_no_room hdeep
    simp only [run, genericParamsAs, genericParamsFor, supers_eq_nil hsupers]
    cases actual with
    | ref name => exact hclimb
    | generic name params =>
      dsimp only
      split
      · rfl
      · exact hclimb
    | _ => rfl

def namesInARow : Project :=
  (Project.ofSettings {}).run
    [.add ⟨"file:///t.lua", "/t.lua"⟩ "local a = 1 local b = a local c = a .. b"]

def questionsInARow : List Query :=
  [.expr 0 21, .expr 0 22] ++ (namesInARow.index.decl? ⟨0, 18⟩).toList.map .decl ++
    [.expr 0 14, .expr 0 21]

theorem Query.answers_direct_namesInARow :
    questionsInARow.length = 5 ∧
    (∀ q ∈ questionsInARow, q.Asked namesInARow ∧ q.Ends namesInARow maxDepth searchFuel 0) ∧
    run (questionsInARow.mapM (·.ask (fullEngine namesInARow))) =
      questionsInARow.map (fun q => run (q.ask (fullEngine namesInARow))) ∧
    ∀ q ∈ questionsInARow, run (q.ask (fullEngine namesInARow)) =
      run (q.ask (direct namesInARow maxDepth searchFuel)) := by
  have hnames : SameNames namesInARow maxDepth := by
    have hnone : namesInARow.index.typeNames.isEmpty ∧
        namesInARow.index.superStore.keys.isEmpty := by decide +kernel
    refine sameNames_of_flat ?_ (List.isEmpty_iff.1 hnone.2)
    rw [List.isEmpty_iff.1 hnone.1]
    exact fun _ => nofun
  have hasked : ∀ q ∈ questionsInARow, q.Asked namesInARow := by
    intro q hq
    cases q with
    | expr doc node => trivial
    | decl d =>
      simp [questionsInARow] at hq
      exact Query.asked_of_decl? hq
  have hall : questionsInARow.length = 5 ∧ questionsInARow.all (fun q =>
      (q.ask (direct namesInARow maxDepth searchFuel) {}).2.exhausted == false) := by
    decide +kernel
  have hends : ∀ q ∈ questionsInARow, q.Ends namesInARow maxDepth searchFuel 0 := fun q hq =>
    beq_iff_eq.1 (List.all_eq_true.1 hall.2 q hq)
  exact ⟨hall.1, fun q hq => ⟨hasked q hq, hends q hq⟩,
    answers_direct ⟨_, _, rfl⟩ le_rfl hnames _ hasked hends⟩

/-- What is answered does not depend on what was asked before. -/
def Transparent (p : Project) : Prop :=
  ∀ qs : List Query,
    run (qs.mapM (·.ask (fullEngine p))) = qs.map fun q => run (q.ask (fullEngine p))

/-- A workspace with a function that returns the length of what it returns. -/
def lengthOfItself : Project :=
  ((Project.ofSettings {}).add ⟨"file:///t.lua", "/t.lua"⟩
    "local function f() return #f() end").1

/-- The call of the function is `unknown` after its length was asked for, and by itself an
integer. -/
theorem not_transparent_lengthOfItself : ¬ Transparent lengthOfItself := by
  intro h
  have hknown : (run ([Query.expr 0 14, .expr 0 16].mapM (·.ask (fullEngine lengthOfItself)))).map
      (·.isUnknown) = [false, true] := by decide +kernel
  have hfresh : (run ((fullEngine lengthOfItself).inferExpr 0 16)).isUnknown = false := by
    decide +kernel
  rw [h] at hknown
  simp [Query.ask, hfresh] at hknown

end LuaAnalysis.Inference
