import LuaAnalysis.Proofs.Inference.Chains

/-!
Searches that come to an end. The answers of a search are tied together with fuel for steps inside
each other. A search settles if from some fuel on it gives the same answer and leaves the same
state, with fuel to spare.
-/

namespace LuaAnalysis.Inference

open Document LuaAnalysis.Types Scope Syntax Workspace

/-- The states between the steps of a search at a depth: no alias is being expanded and the fuel has
lasted. -/
structure SearchState.Ready (s : SearchState) (depth : Nat) : Prop where
  depth_eq : s.depth = depth
  expanding_eq : s.expanding = []
  exhausted_eq : s.exhausted = false

/-- What the first state holds for an expression or a declaration, the second one holds too. -/
structure SearchState.Leads (s s' : SearchState) : Prop where
  expr : ∀ node entry, s.exprCached? node = some entry → s'.exprCached? node = some entry
  decl : ∀ decl entry, s.declCached? decl = some entry → s'.declCached? decl = some entry

namespace SearchState

variable {s s' s'' : SearchState}

theorem Leads.refl (s : SearchState) : s.Leads s := ⟨fun _ _ => id, fun _ _ => id⟩

theorem Leads.trans (h : s.Leads s') (h' : s'.Leads s'') : s.Leads s'' where
  expr node entry hentry := h'.expr node entry (h.expr node entry hentry)
  decl decl entry hentry := h'.decl decl entry (h.decl decl entry hentry)

theorem exprCached?_keepExpr (node : NodeRef) (entry : CacheEntry) (s : SearchState) (n : NodeRef) :
    (s.keepExpr node entry).exprCached? n = if node = n then some entry else s.exprCached? n := by
  by_cases hn : node = n <;> simp [exprCached?, keepExpr, hn]

theorem declCached?_keepDecl (decl : DeclId) (entry : CacheEntry) (s : SearchState) (d : DeclId) :
    (s.keepDecl decl entry).declCached? d = if decl = d then some entry else s.declCached? d := by
  by_cases hd : decl = d <;> simp [declCached?, keepDecl, hd]

theorem Leads.keepExpr {node : NodeRef} {first last : CacheEntry}
    (hnone : s.exprCached? node = none) (h : (s.keepExpr node first).Leads s') :
    s.Leads (s'.keepExpr node last) where
  expr n entry hentry := by
    have hne : node ≠ n := by
      rintro rfl
      simp [hnone] at hentry
    rw [exprCached?_keepExpr, if_neg hne]
    apply h.expr
    rw [exprCached?_keepExpr, if_neg hne, hentry]
  decl d entry hentry := h.decl d entry hentry

theorem Leads.keepDecl {decl : DeclId} {first last : CacheEntry} (hnone : s.declCached? decl = none)
    (h : (s.keepDecl decl first).Leads s') : s.Leads (s'.keepDecl decl last) where
  expr n entry hentry := h.expr n entry hentry
  decl d entry hentry := by
    have hne : decl ≠ d := by
      rintro rfl
      simp [hnone] at hentry
    rw [declCached?_keepDecl, if_neg hne]
    apply h.decl
    rw [declCached?_keepDecl, if_neg hne, hentry]

end SearchState

variable {α β : Type} {p : Project} {depth : Nat}

theorem Search.bind_apply {x : Search α} {f : α → Search β} {s s' : SearchState} {a : α}
    (h : x s = (a, s')) : (x >>= f) s = f a s' := by
  change (match x s with | (a, s) => f a s) = f a s'
  rw [h]

/-- From some fuel on a search does the same at a depth and forgets nothing, and what it finds has a
property. -/
def SettlesWith (p : Project) (depth : Nat) (f : Engine → Search α) (Q : α → Prop) : Prop :=
  ∀ s : SearchState, s.Ready depth →
    ∃ a s', Q a ∧ s'.Ready depth ∧ s.Leads s' ∧ ∃ n, ∀ m, n ≤ m → f (engine p m) s = (a, s')

def Settles (p : Project) (depth : Nat) (f : Engine → Search α) : Prop :=
  SettlesWith p depth f fun _ => True

namespace SettlesWith

theorem pure {Q : α → Prop} {a : α} (h : Q a) : SettlesWith p depth (fun _ => Pure.pure a) Q :=
  fun s hs => ⟨a, s, h, hs, .refl s, 0, fun _ _ => rfl⟩

theorem bind {Q : α → Prop} {R : β → Prop} {f : Engine → Search α} {g : α → Engine → Search β}
    (hf : SettlesWith p depth f Q) (hg : ∀ a, Q a → SettlesWith p depth (g a) R) :
    SettlesWith p depth (fun e => f e >>= fun a => g a e) R := by
  intro s hs
  obtain ⟨a, s₁, hQ, hs₁, hleads₁, n₁, h₁⟩ := hf s hs
  obtain ⟨b, s₂, hR, hs₂, hleads₂, n₂, h₂⟩ := hg a hQ s₁ hs₁
  refine ⟨b, s₂, hR, hs₂, hleads₁.trans hleads₂, max n₁ n₂, fun m hm => ?_⟩
  exact (Search.bind_apply (h₁ m (by omega))).trans (h₂ m (by omega))

theorem mono {Q R : α → Prop} {f : Engine → Search α} (hf : SettlesWith p depth f Q)
    (h : ∀ a, Q a → R a) : SettlesWith p depth f R := by
  intro s hs
  obtain ⟨a, s', hQ, hs', hn⟩ := hf s hs
  exact ⟨a, s', h a hQ, hs', hn⟩

theorem ite {Q : α → Prop} {c : Prop} [Decidable c] {f g : Engine → Search α}
    (hf : c → SettlesWith p depth f Q) (hg : ¬ c → SettlesWith p depth g Q) :
    SettlesWith p depth (fun e => if c then f e else g e) Q := by
  split
  · exact hf ‹_›
  · exact hg ‹_›

theorem foldlM {σ : Type} {Q : σ → Prop} {step : σ → α → Engine → Search σ} (xs : List α)
    (hstep : ∀ a x, x ∈ xs → Q a → SettlesWith p depth (step a x) Q) {init : σ} (h : Q init) :
    SettlesWith p depth (fun e => xs.foldlM (fun a x => step a x e) init) Q := by
  induction xs generalizing init with
  | nil => exact pure h
  | cons x xs ih =>
    simp only [List.foldlM_cons]
    refine bind (hstep init x (by simp) h) fun a ha => ?_
    exact ih (fun a y hy => hstep a y (by simp [hy])) ha

theorem next {Q : α → Prop} {f g : Engine → Search α} (hf : SettlesWith p depth f Q)
    (h : ∀ n, g (engine p (n + 1)) = f (engine p n)) : SettlesWith p depth g Q := by
  intro s hs
  obtain ⟨a, s', hQ, hs', hleads, n, hn⟩ := hf s hs
  refine ⟨a, s', hQ, hs', hleads, n + 1, fun m hm => ?_⟩
  obtain ⟨k, rfl⟩ : ∃ k, m = k + 1 := ⟨m - 1, by omega⟩
  rw [h k]
  exact hn k (by omega)

theorem back {Q : α → Prop} {f g : Engine → Search α} (hg : SettlesWith p depth g Q)
    (h : ∀ n, g (engine p (n + 1)) = f (engine p n)) : SettlesWith p depth f Q := by
  intro s hs
  obtain ⟨a, s', hQ, hs', hleads, n, hn⟩ := hg s hs
  refine ⟨a, s', hQ, hs', hleads, n, fun m hm => ?_⟩
  rw [← h m]
  exact hn (m + 1) (by omega)

end SettlesWith

namespace Settles

theorem of_with {Q : α → Prop} {f : Engine → Search α} (h : SettlesWith p depth f Q) :
    Settles p depth f :=
  h.mono fun _ _ => trivial

theorem pure (a : α) : Settles p depth fun _ => Pure.pure a := SettlesWith.pure trivial

theorem bind_with {Q : α → Prop} {f : Engine → Search α} {g : α → Engine → Search β}
    (hf : SettlesWith p depth f Q) (hg : ∀ a, Q a → Settles p depth (g a)) :
    Settles p depth fun e => f e >>= fun a => g a e :=
  SettlesWith.bind hf hg

theorem bind {f : Engine → Search α} {g : α → Engine → Search β} (hf : Settles p depth f)
    (hg : ∀ a, Settles p depth (g a)) : Settles p depth fun e => f e >>= fun a => g a e :=
  SettlesWith.bind hf fun a _ => hg a

theorem next {f g : Engine → Search α} (hf : Settles p depth f)
    (h : ∀ n, g (engine p (n + 1)) = f (engine p n)) : Settles p depth g :=
  SettlesWith.next hf h

theorem back {f g : Engine → Search α} (hg : Settles p depth g)
    (h : ∀ n, g (engine p (n + 1)) = f (engine p n)) : Settles p depth f :=
  SettlesWith.back hg h

theorem ite {c : Prop} [Decidable c] {f g : Engine → Search α} (hf : c → Settles p depth f)
    (hg : ¬ c → Settles p depth g) : Settles p depth fun e => if c then f e else g e :=
  SettlesWith.ite hf hg

theorem chains (p : Project) (depth : Nat) : Chains fun _ => Settles p depth := ⟨pure, bind⟩

end Settles

theorem Search.isCancelled_apply (s : SearchState) :
    ∃ cancelled polls, (∀ s' : SearchState, s'.polls = s.polls →
      Search.isCancelled s' = (cancelled, { s' with polls := polls })) ∧
      (s.polls = none → cancelled = false ∧ polls = none) := by
  cases hpolls : s.polls with
  | none =>
    refine ⟨false, none, fun s' h => ?_, fun _ => ⟨rfl, rfl⟩⟩
    obtain ⟨exprs, decls, depth, expanding, _, exhausted⟩ := s'
    obtain rfl := h
    rfl
  | some n =>
    cases n with
    | zero =>
      refine ⟨true, some 0, fun s' h => ?_, nofun⟩
      obtain ⟨exprs, decls, depth, expanding, _, exhausted⟩ := s'
      obtain rfl := h
      rfl
    | succ n =>
      refine ⟨false, some n, fun s' h => ?_, nofun⟩
      obtain ⟨exprs, decls, depth, expanding, _, exhausted⟩ := s'
      obtain rfl := h
      rfl

theorem Search.guarded_of_no_room {fallback : α} {search : Search α} {s : SearchState}
    (hdeep : maxDepth ≤ s.depth) : Search.guarded fallback search s = (fallback, s) := by
  change (if maxDepth ≤ s.depth then Pure.pure fallback else _ : Search α) s = _
  rw [if_pos hdeep]
  rfl

theorem Search.guarded_of_look {fallback : α} {search : Search α} {s s₁ : SearchState}
    {cancelled : Bool} (hroom : s.depth < maxDepth)
    (hlook : Search.isCancelled s = (cancelled, s₁)) :
    Search.guarded fallback search s = (if cancelled = true then Pure.pure fallback else do
      modify fun s => { s with depth := s.depth + 1 }
      let result ← search
      modify fun s => { s with depth := s.depth - 1 }
      return result : Search α) s₁ := by
  change (if maxDepth ≤ s.depth then Pure.pure fallback else _ : Search α) s = _
  rw [if_neg (Nat.not_le_of_lt hroom)]
  exact Search.bind_apply hlook

theorem Search.guarded_of_cancelled {fallback : α} {search : Search α} {s s₁ : SearchState}
    (hroom : s.depth < maxDepth) (hlook : Search.isCancelled s = (true, s₁)) :
    Search.guarded fallback search s = (fallback, s₁) :=
  Search.guarded_of_look hroom hlook

theorem Search.guarded_of_run {fallback a : α} {search : Search α} {s s₁ s₂ : SearchState}
    (hroom : s.depth < maxDepth) (hlook : Search.isCancelled s = (false, s₁))
    (hrun : search { s₁ with depth := s₁.depth + 1 } = (a, s₂)) :
    Search.guarded fallback search s = (a, { s₂ with depth := s₂.depth - 1 }) := by
  rw [Search.guarded_of_look hroom hlook]
  change (search >>= fun result => do
    modify fun s => { s with depth := s.depth - 1 }
    return result) { s₁ with depth := s₁.depth + 1 } = _
  exact Search.bind_apply hrun

/-- A guarded search either gives up, because it is too deep or cancelled, or runs one level
deeper. -/
theorem Search.guarded_cases (fallback : α) (s : SearchState) :
    ∃ polls, (s.polls = none → polls = none) ∧
      (((maxDepth ≤ s.depth ∨ s.polls ≠ none) ∧
          ∀ search, Search.guarded fallback search s = (fallback, { s with polls := polls })) ∨
        (s.depth < maxDepth ∧ ∀ search : Search α, ∀ a s',
          search { s with depth := s.depth + 1, polls := polls } = (a, s') →
            Search.guarded fallback search s = (a, { s' with depth := s'.depth - 1 }))) := by
  by_cases hdeep : maxDepth ≤ s.depth
  · exact ⟨s.polls, id, .inl ⟨.inl hdeep, fun search => Search.guarded_of_no_room hdeep⟩⟩
  have hroom := Nat.lt_of_not_le hdeep
  obtain ⟨cancelled, polls, hlook, hpolls⟩ := Search.isCancelled_apply s
  refine ⟨polls, fun h => (hpolls h).2, ?_⟩
  cases cancelled with
  | true => exact .inl ⟨.inr fun h => Bool.noConfusion (hpolls h).1,
      fun search => Search.guarded_of_cancelled hroom (hlook s rfl)⟩
  | false => exact .inr ⟨hroom, fun search a s' hrun =>
      Search.guarded_of_run hroom (hlook s rfl) hrun⟩

theorem Search.guarded_of_uncancelled {fallback a : α} {search : Search α} {s s' : SearchState}
    (hpolls : s.polls = none) (hroom : s.depth < maxDepth)
    (h : search { s with depth := s.depth + 1 } = (a, s')) :
    Search.guarded fallback search s = (a, { s' with depth := s'.depth - 1 }) := by
  obtain ⟨polls, hkept, ⟨hstop, -⟩ | ⟨-, hrun⟩⟩ := Search.guarded_cases fallback s
  · exact (hstop.elim (Nat.not_le_of_lt hroom) (· hpolls)).elim
  · obtain ⟨exprs, decls, depth, expanding, _, exhausted⟩ := s
    obtain rfl : _ = none := hpolls
    obtain rfl := hkept rfl
    exact hrun _ _ _ h

theorem Search.guarded_of_room {fallback a : α} {search : Search α} {s : SearchState}
    (hpolls : s.polls = none) (hroom : s.depth < maxDepth)
    (h : search { s with depth := s.depth + 1 } = (a, { s with depth := s.depth + 1 })) :
    Search.guarded fallback search s = (a, s) :=
  Search.guarded_of_uncancelled hpolls hroom h

theorem Search.allM_apply {f : α → Search Bool} {g : α → Bool} {xs : List α} {s : SearchState}
    (h : ∀ x ∈ xs, f x s = (g x, s)) : xs.allM f s = (xs.all g, s) := by
  induction xs with
  | nil => rfl
  | cons x xs ih =>
    obtain ⟨hx, hxs⟩ := List.forall_mem_cons.1 h
    rw [List.allM, Search.bind_apply hx, List.all_cons]
    cases g x with
    | false => rfl
    | true => exact ih hxs

theorem Search.anyM_apply {f : α → Search Bool} {g : α → Bool} {xs : List α} {s : SearchState}
    (h : ∀ x ∈ xs, f x s = (g x, s)) : xs.anyM f s = (xs.any g, s) := by
  induction xs with
  | nil => rfl
  | cons x xs ih =>
    obtain ⟨hx, hxs⟩ := List.forall_mem_cons.1 h
    rw [List.anyM, Search.bind_apply hx, List.any_cons]
    cases g x with
    | true => rfl
    | false => exact ih hxs

theorem Search.findSomeM?_apply {f : α → Search (Option β)} {xs : List α} {s : SearchState}
    (h : ∀ x ∈ xs, ∃ found, f x s = (found, s)) :
    ∃ found, xs.findSomeM? f s = (found, s) ∧ ∀ x ∈ xs, (f x s).1.isSome = true →
    found.isSome = true := by
  induction xs with
  | nil => exact ⟨none, rfl, fun x hx => absurd hx List.not_mem_nil⟩
  | cons x xs ih =>
    obtain ⟨⟨found, hx⟩, hxs⟩ := List.forall_mem_cons.1 h
    obtain ⟨later, hlater, hsome⟩ := ih hxs
    cases found with
    | some b => exact ⟨some b, by rw [List.findSomeM?, Search.bind_apply hx]; rfl, fun _ _ _ => rfl⟩
    | none =>
      refine ⟨later, by rw [List.findSomeM?, Search.bind_apply hx]; exact hlater,
        fun y hy hfound => ?_⟩
      rcases List.mem_cons.1 hy with rfl | hy
      · rw [hx] at hfound
        cases hfound
      · exact hsome y hy hfound

section

variable {lookup : SearchState → Option CacheEntry} {keep : CacheEntry → SearchState → SearchState}
  {s : SearchState}

theorem Search.cached_of_done {type : Ty} (h : lookup s = some (.done type)) (search : Search Ty) :
    Search.cached lookup keep search s = (type, s) := by
  change Search.answer keep search (lookup s) s = _
  rw [h]
  rfl

theorem Search.cached_of_pending (h : lookup s = some .pending) (search : Search Ty) :
    Search.cached lookup keep search s = (.unknown, s) := by
  change Search.answer keep search (lookup s) s = _
  rw [h]
  rfl

theorem Search.cached_of_none (h : lookup s = none) (search : Search Ty) :
    Search.cached lookup keep search s =
      ((Search.guarded .unknown search (keep .pending s)).1,
        keep (.done (Search.guarded .unknown search (keep .pending s)).1)
          (Search.guarded .unknown search (keep .pending s)).2) := by
  change Search.answer keep search (lookup s) s = _
  rw [h]
  rfl

end

namespace Settles

theorem guarded {fallback : α} {f : Engine → Search α}
    (h : depth < maxDepth → Settles p (depth + 1) f) : Settles p depth fun e =>
      Search.guarded fallback (f e) := by
  intro s hs
  obtain ⟨polls, -, ⟨-, hstop⟩ | ⟨hlt, hrun⟩⟩ := Search.guarded_cases fallback s
  · exact ⟨fallback, { s with polls := polls }, trivial, ⟨hs.1, hs.2, hs.3⟩,
      ⟨fun _ _ => id, fun _ _ => id⟩, 0,
      fun _ _ => hstop _⟩
  · obtain ⟨a, s', -, hs', hleads, n, hn⟩ :=
      h (hs.depth_eq ▸ hlt) { s with depth := s.depth + 1, polls := polls }
        ⟨by simp [hs.depth_eq], hs.2, hs.3⟩
    exact ⟨a, { s' with depth := s'.depth - 1 }, trivial, ⟨by simp [hs'.depth_eq], hs'.2, hs'.3⟩,
      ⟨hleads.1, hleads.2⟩, n, fun m hm => hrun _ _ _ (hn m hm)⟩

theorem cached {lookup : SearchState → Option CacheEntry}
    {keep : CacheEntry → SearchState → SearchState} {f : Engine → Search Ty}
    (hkeep : ∀ entry s, s.Ready depth → (keep entry s).Ready depth)
    (hleads : ∀ type s s', lookup s = none → (keep .pending s).Leads s' →
      s.Leads (keep (.done type) s'))
    (h : Settles p depth fun e => Search.guarded .unknown (f e)) :
    Settles p depth fun e => Search.cached lookup keep (f e) := by
  intro s hs
  cases hlookup : lookup s with
  | some entry =>
    cases entry with
    | done type => exact ⟨type, s, trivial, hs, .refl s, 0,
        fun m _ => Search.cached_of_done hlookup (f (engine p m))⟩
    | pending =>
      exact ⟨.unknown, s, trivial, hs, .refl s, 0,
        fun m _ => Search.cached_of_pending hlookup (f (engine p m))⟩
  | none =>
    obtain ⟨type, s', -, hs', hlater, n, hn⟩ := h (keep .pending s) (hkeep _ _ hs)
    refine ⟨type, keep (.done type) s', trivial, hkeep _ _ hs', hleads type s s' hlookup hlater, n,
      fun m hm => ?_⟩
    have hrun : Search.guarded .unknown (f (engine p m)) (keep .pending s) = (type, s') := hn m hm
    refine (Search.cached_of_none hlookup (f (engine p m))).trans ?_
    rw [hrun]

end Settles

end LuaAnalysis.Inference
