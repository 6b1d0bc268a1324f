import Mathlib.Data.List.TakeDrop
import LuaAnalysis.Syntax.Parser

/-!
How many tokens a reader of code has left. Taking up a token leaves fewer of them, and nothing
leaves more. What is read depends on the bound of a reader only through its loops, and these end
before they come to it.
-/

namespace LuaAnalysis.Syntax.Parser

/-- The number of tokens from the one at hand on; at the end of the text there are none. -/
def left (p : Parser) : Nat := if p.sees .eof then 0 else p.rest.length + 1

def withBound (p : Parser) (b : Nat) : Parser := { p with bound := b }

/-- What neither looks at the bound nor takes up a token. -/
structure Idle (f : Parser → Parser) : Prop where
  bound : ∀ p b, f (p.withBound b) = (f p).withBound b
  place : ∀ p, (f p).current = p.current ∧ (f p).rest = p.rest

namespace Idle

variable {f g : Parser → Parser}

theorem id : Idle fun p => p := ⟨fun _ _ => rfl, fun _ => ⟨rfl, rfl⟩⟩

theorem comp (hg : Idle g) (hf : Idle f) : Idle fun p => g (f p) where
  bound p b := by rw [hf.bound, hg.bound]
  place p := ⟨(hg.place _).1.trans (hf.place p).1, (hg.place _).2.trans (hf.place p).2⟩

theorem ofLog {l : Parser → EventLog} (h : ∀ p b, l (p.withBound b) = l p) :
    Idle fun p => { p with log := l p } where
  bound p b := by rw [h, withBound, withBound]
  place _ := ⟨rfl, rfl⟩

theorem report (fault : Fault) : Idle (report · fault) := ofLog fun _ _ => rfl

theorem openNode : Idle (·.openNode.1) := ofLog fun _ _ => rfl

theorem close (m : Marker) (kind : NodeKind) : Idle fun p => (p.close m kind).1 :=
  ofLog fun _ _ => rfl

theorem abandon (m : Marker) : Idle (abandon · m) := ofLog fun _ _ => rfl

theorem wrap (c : ClosedNode) : Idle fun p => (p.wrap c).1 := ofLog fun _ _ => rfl

theorem comment (spans : List Span) : Idle (comment · spans) := ofLog fun _ _ => rfl

theorem comments (groups : List CommentGroup) : Idle (comments · groups) := by
  induction groups with
  | nil => exact id
  | cons group groups ih => exact ih.comp (comment group.spans)

theorem withPending (pending : List Token) : Idle fun p => { p with pending := pending } :=
  ⟨fun _ _ => rfl, fun _ => ⟨rfl, rfl⟩⟩

theorem of_local (h : ∀ p : Parser, ∃ g, Idle g ∧ ∀ b, f (p.withBound b) = g (p.withBound b)) :
    Idle f where
  bound p b := by
    obtain ⟨g, hg, heq⟩ := h p
    have hsame : f p = g p := heq p.bound
    rw [heq, hg.bound, hsame]
  place p := by
    obtain ⟨g, hg, heq⟩ := h p
    have hsame : f p = g p := heq p.bound
    rw [hsame]
    exact hg.place p

theorem flushComments : Idle flushComments :=
  of_local fun p => ⟨_, (comments (CommentGroup.ofTrivia p.pending)).comp (withPending []),
    fun _ => rfl⟩

theorem trailingComment : Idle trailingComment := by
  refine of_local fun p => ?_
  cases hbehind : p.pending.dropWhile fun t => t.kind == .whitespace with
  | nil => exact ⟨_, id, fun b => by simp [Parser.trailingComment, withBound, hbehind]⟩
  | cons t pending =>
    by_cases hcomment : t.kind.isComment = true
    · refine ⟨_, (withPending pending).comp (comment [t.span]), fun b => ?_⟩
      simp [Parser.trailingComment, withBound, hbehind, hcomment]
    · exact ⟨_, id, fun b => by simp [Parser.trailingComment, withBound, hbehind, hcomment]⟩

end Idle

structure IdleWith {α : Type} (f : Parser → Parser × α) : Prop where
  bound : ∀ p b, f (p.withBound b) = ((f p).1.withBound b, (f p).2)
  place : ∀ p, (f p).1.current = p.current ∧ (f p).1.rest = p.rest

namespace IdleWith

variable {α β : Type}

theorem openNode : IdleWith openNode := ⟨fun _ _ => rfl, fun _ => ⟨rfl, rfl⟩⟩

theorem close (m : Marker) (kind : NodeKind) : IdleWith (close · m kind) :=
  ⟨fun _ _ => rfl, fun _ => ⟨rfl, rfl⟩⟩

theorem tell {f : Parser → Parser} (hf : Idle f) (a : α) : IdleWith fun p => (f p, a) :=
  ⟨fun p b => by rw [hf.bound], hf.place⟩

theorem bind {f : Parser → Parser × α} {g : Parser → α → Parser × β} (hf : IdleWith f)
    (hg : ∀ a, IdleWith (g · a)) : IdleWith fun p => g (f p).1 (f p).2 where
  bound p b := by rw [hf.bound, (hg _).bound]
  place p := ⟨((hg _).place _).1.trans (hf.place p).1, ((hg _).place _).2.trans (hf.place p).2⟩

theorem of_local {f : Parser → Parser × α}
    (h : ∀ p : Parser, ∃ g, IdleWith g ∧ ∀ b, f (p.withBound b) = g (p.withBound b)) :
    IdleWith f where
  bound p b := by
    obtain ⟨g, hg, heq⟩ := h p
    have hsame : f p = g p := heq p.bound
    rw [heq, hg.bound, hsame]
  place p := by
    obtain ⟨g, hg, heq⟩ := h p
    have hsame : f p = g p := heq p.bound
    rw [hsame]
    exact hg.place p

theorem leadingComments : IdleWith leadingComments := by
  refine of_local fun p => ?_
  have hwrite (groups : List CommentGroup) (doc : Option (List Span)) :
      IdleWith fun q => (({ q with pending := [] } : Parser).comments groups, doc) :=
    tell ((Idle.comments groups).comp (Idle.withPending [])) doc
  cases hlast : (CommentGroup.ofTrivia p.pending).getLast? with
  | none =>
    refine ⟨_, tell (Idle.withPending []) none, fun b => ?_⟩
    simp only [Parser.leadingComments, withBound, hlast]
  | some last =>
    by_cases hattached : (last.breaksAfter ≤ CommentGroup.maxAttachedBreaks && !p.sees .eof) = true
    · refine ⟨_, hwrite (CommentGroup.ofTrivia p.pending).dropLast (some last.spans), fun b => ?_⟩
      simp only [Parser.leadingComments, withBound, hlast]
      exact if_pos hattached
    · refine ⟨_, hwrite (CommentGroup.ofTrivia p.pending) none, fun b => ?_⟩
      simp only [Parser.leadingComments, withBound, hlast]
      exact if_neg hattached

theorem openDocumented : IdleWith openDocumented := by
  refine of_local fun p => ?_
  cases hdoc : p.leadingComments.2 with
  | none =>
    refine ⟨_, bind leadingComments fun _ => openNode, fun b => ?_⟩
    simp only [Parser.openDocumented, leadingComments.bound, hdoc]
  | some spans =>
    refine ⟨_, bind leadingComments fun _ => bind openNode fun m => tell (Idle.comment spans) m,
      fun b => ?_⟩
    simp only [Parser.openDocumented, leadingComments.bound, hdoc]

end IdleWith

theorem left_advance {e : Token} (he : e.kind = .eof) (tokens : List Token) :
    (if (advance e tokens).2.1.kind = .eof then 0 else (advance e tokens).2.2.length + 1) ≤
    tokens.length := by
  have hsplit := List.takeWhile_append_dropWhile (p := fun t : Token => t.kind.isTrivia)
    (l := tokens)
  unfold advance
  rw [List.span_eq_takeWhile_dropWhile]
  cases hrest : tokens.dropWhile fun t => t.kind.isTrivia with
  | nil => simp [he]
  | cons t rest =>
    have hlength := congrArg List.length hsplit
    rw [hrest, List.length_append, List.length_cons] at hlength
    dsimp only
    split <;> omega

variable {p q : Parser} {n : Nat}

theorem bump_at_eof (hkind : p.kind = .eof) : p.bump = p := by simp [bump, sees, hkind]

theorem bump_of_ne (hkind : p.kind ≠ .eof) : p.bump =
    let next := advance ⟨.eof, .empty p.flushComments.text.utf8ByteSize⟩ p.flushComments.rest
    { p.flushComments with
      log :=
        p.flushComments.log.push (.token p.flushComments.current.kind p.flushComments.current.span)
      pending := next.1
      current := next.2.1
      rest := next.2.2 } := by
  simp [bump, sees, hkind]

theorem bump_withBound (p : Parser) (b : Nat) : (p.withBound b).bump = p.bump.withBound b := by
  by_cases hkind : p.kind = .eof
  · rw [bump_at_eof hkind, bump_at_eof (p := p.withBound b) hkind]
  · rw [bump_of_ne hkind, bump_of_ne (p := p.withBound b) hkind, Idle.flushComments.bound]
    rfl

theorem left_of_ne (hkind : p.kind ≠ .eof) : p.left = p.rest.length + 1 := by
  simp [left, sees, hkind]

theorem left_bump (hkind : p.kind ≠ .eof) : p.bump.left < p.left := by
  obtain ⟨-, hrest⟩ := Idle.flushComments.place p
  have hle :=
    left_advance (e := ⟨.eof, .empty p.flushComments.text.utf8ByteSize⟩) rfl p.flushComments.rest
  rw [bump_of_ne hkind, left_of_ne hkind, ← hrest]
  simp only [left, sees, kind, beq_iff_eq]
  omega

/-- Two readers at one place with at most `n` tokens left. Their bounds are the same, or neither is
too low. -/
structure Alike (n : Nat) (p q : Parser) : Prop where
  eq : q = p.withBound q.bound
  left_le : p.left ≤ n
  bounds : q.bound = p.bound ∨ p.left ≤ p.bound ∧ p.left ≤ q.bound

def AlikeWith {α : Type} (n : Nat) (r s : Parser × α) : Prop :=
  ∃ p q a, r = (p, a) ∧ s = (q, a) ∧ Alike n p q

def AlikeExpr (n : Nat) (r s : Parser × Option ClosedNode) : Prop :=
  ∃ p q c, r = (p, c) ∧ s = (q, c) ∧ Alike n p q ∧ (c.isSome = true → p.left < n)

def AlikeStep {σ : Type} (R : Nat → σ → σ → Prop) (n : Nat) (r s : σ × Bool) : Prop :=
  ∃ a b more, r = (a, more) ∧ s = (b, more) ∧ R n a b ∧ (more = true → ∃ k < n, R k a b)

theorem AlikeStep.last {σ : Type} {R : Nat → σ → σ → Prop} {a b : σ} (h : R n a b) :
    AlikeStep R n (a, false) (b, false) :=
  ⟨a, b, false, rfl, rfl, h, by simp⟩

theorem AlikeStep.more {k : Nat} {r s : Parser} (hk : k < n) (h : Alike k r s) :
    AlikeStep Alike n (r, true) (s, true) :=
  ⟨r, s, true, rfl, rfl, ⟨h.eq, Nat.le_of_lt (Nat.lt_of_le_of_lt h.left_le hk), h.bounds⟩,
    fun _ => ⟨k, hk, h⟩⟩

theorem Idle.bound_eq {f : Parser → Parser} (hf : Idle f) (p : Parser) : (f p).bound = p.bound := by
  have hself : f p = (f p).withBound p.bound := hf.bound p p.bound
  rw [hself, withBound]

theorem IdleWith.bound_eq {α : Type} {f : Parser → Parser × α} (hf : IdleWith f) (p : Parser) :
    (f p).1.bound = p.bound := by
  have hself : f p = ((f p).1.withBound p.bound, (f p).2) := hf.bound p p.bound
  rw [hself, withBound]

theorem left_of_place (hcurrent : q.current = p.current) (hrest : q.rest = p.rest) :
    q.left = p.left := by
  rw [left, left, sees, sees, kind, kind, hcurrent, hrest]

theorem bound_bump (p : Parser) : p.bump.bound = p.bound := by
  have hself : p.bump = p.bump.withBound p.bound := bump_withBound p p.bound
  rw [hself, withBound]

theorem left_bump_le (p : Parser) : p.bump.left ≤ p.left := by
  by_cases hkind : p.kind = .eof
  · exact Nat.le_of_eq (congrArg left (bump_at_eof hkind))
  · exact Nat.le_of_lt (left_bump hkind)

namespace Alike

variable {α : Type}

theorem refl (h : p.left ≤ n) : Alike n p p := ⟨rfl, h, .inl rfl⟩

theorem mono {m : Nat} (h : Alike n p q) (hle : n ≤ m) : Alike m p q :=
  ⟨h.eq, Nat.le_trans h.left_le hle, h.bounds⟩

theorem tight (h : Alike n p q) : Alike p.left p q := ⟨h.eq, Nat.le_refl _, h.bounds⟩

theorem kind (h : Alike n p q) : q.kind = p.kind := by
  rw [h.eq]
  rfl

theorem sees (h : Alike n p q) (kind : TokenKind) : q.sees kind = p.sees kind := by
  rw [Parser.sees, h.kind, Parser.sees]

theorem nextKind (h : Alike n p q) : q.nextKind = p.nextKind := by
  rw [h.eq]
  rfl

theorem log (h : Alike n p q) : q.log = p.log := by
  rw [h.eq]
  rfl

theorem fuel (h : Alike n p q) : q.bound + 1 = p.bound + 1 ∨ p.left < p.bound + 1 ∧
    p.left < q.bound + 1 :=
  h.bounds.imp (congrArg (· + 1)) fun h => ⟨Nat.lt_succ_of_le h.1, Nat.lt_succ_of_le h.2⟩

theorem go {r s : Parser} (h : Alike n p q) (heq : s = r.withBound q.bound)
    (hbound : r.bound = p.bound) (hleft : r.left ≤ p.left) : Alike r.left r s := by
  have hs : s.bound = q.bound := by
    rw [heq]
    rfl
  refine ⟨by rw [hs, heq], Nat.le_refl _, ?_⟩
  rw [hs, hbound]
  exact h.bounds.imp_right fun h => ⟨by omega, by omega⟩

theorem idle (h : Alike n p q) {f : Parser → Parser} (hf : Idle f) : Alike n (f p) (f q) := by
  obtain ⟨hcurrent, hrest⟩ := hf.place p
  have hleft := left_of_place hcurrent hrest
  have hq : f q = (f p).withBound q.bound := by
    -- Only on the left: the right side keeps its bound.
    conv_lhs => rw [h.eq]
    exact hf.bound p q.bound
  exact (h.go hq (hf.bound_eq p) (Nat.le_of_eq hleft)).mono (hleft ▸ h.left_le)

theorem idleWith (h : Alike n p q) {f : Parser → Parser × α} (hf : IdleWith f) :
    AlikeWith n (f p) (f q) := by
  obtain ⟨hcurrent, hrest⟩ := hf.place p
  have hleft := left_of_place hcurrent hrest
  have hq : f q = ((f p).1.withBound q.bound, (f p).2) := by
    conv_lhs => rw [h.eq]
    exact hf.bound p q.bound
  have hgo := h.go rfl (hf.bound_eq p) (Nat.le_of_eq hleft)
  exact ⟨_, _, _, rfl, hq, hgo.mono (hleft ▸ h.left_le)⟩

theorem openNode (h : Alike n p q) : Alike n p.openNode.1 q.openNode.1 ∧
    q.openNode.2 = p.openNode.2 := by
  refine ⟨h.idle .openNode, ?_⟩
  rw [h.eq]
  rfl

theorem wrap (h : Alike n p q) (c : ClosedNode) : Alike n (p.wrap c).1 (q.wrap c).1 ∧
    (q.wrap c).2 = (p.wrap c).2 := by
  refine ⟨h.idle (.wrap c), ?_⟩
  rw [h.eq]
  rfl

theorem close (h : Alike n p q) (m : Marker) (kind : NodeKind) :
    AlikeWith n (p.close m kind) (q.close m kind) :=
  h.idleWith (.close m kind)

theorem finish (h : Alike n p q) (m : Marker) (kind : NodeKind) :
    Alike n (p.finish m kind) (q.finish m kind) :=
  h.idle (.close m kind)

theorem report (h : Alike n p q) (fault : Fault) : Alike n (p.report fault) (q.report fault) :=
  h.idle (.report fault)

theorem fail (h : Alike n p q) (m : Marker) (kind : NodeKind) (fault : Fault) :
    Alike n (p.fail m kind fault) (q.fail m kind fault) :=
  (h.report fault).finish m kind

theorem bump (h : Alike n p q) : Alike n p.bump q.bump := by
  have hq : q.bump = p.bump.withBound q.bound := by
    conv_lhs => rw [h.eq]
    exact bump_withBound p q.bound
  exact (h.go hq (bound_bump p) (left_bump_le p)).mono (Nat.le_trans (left_bump_le p) h.left_le)

theorem bump_lt (h : Alike n p q) (hkind : p.kind ≠ .eof) : ∃ k < n, Alike k p.bump q.bump :=
  ⟨p.bump.left, Nat.lt_of_lt_of_le (left_bump hkind) h.left_le, h.bump.tight⟩

theorem eat (h : Alike n p q) (kind : TokenKind) (hkind : kind ≠ .eof) :
    AlikeStep Alike n (p.eat kind) (q.eat kind) := by
  unfold Parser.eat
  rw [h.sees]
  split
  · rename_i hsees
    have hne : p.kind ≠ .eof := by
      have hp : p.kind = kind := by simpa [Parser.sees] using hsees
      rwa [hp]
    obtain ⟨k, hk, hbump⟩ := h.bump_lt hne
    exact .more hk hbump
  · exact .last h

theorem expect (h : Alike n p q) (kind : TokenKind) :
    AlikeWith n (p.expect kind) (q.expect kind) := by
  unfold Parser.expect
  rw [h.sees, h.kind]
  split
  · exact ⟨_, _, _, rfl, rfl, h.bump⟩
  · exact ⟨_, _, _, rfl, rfl, h.report _⟩

theorem need (h : Alike n p q) (kind : TokenKind) : Alike n (p.need kind) (q.need kind) := by
  obtain ⟨r, s, b, hr, hs, hrs⟩ := h.expect kind
  rw [Parser.need, Parser.need, hr, hs]
  exact hrs

end Alike

theorem repeatWhile_alike {σ : Type} {R : Nat → σ → σ → Prop} {step step' : σ → σ × Bool}
    (hmono : ∀ {k m s t}, R k s t → k ≤ m → R m s t) {i j : Nat} {s t : σ} (hs : R n s t)
    (hstep : ∀ {k s t}, k ≤ n → R k s t → AlikeStep R k (step s) (step' t))
    (hfuel : j = i ∨ n < i ∧ n < j) :
    R n (repeatWhile step i s) (repeatWhile step' j t) := by
  -- On the fuel of one side, which is more than what is left: `hfuel` rules out that just one side
  -- stops here.
  induction i generalizing n j s t with
  | zero =>
    obtain rfl : j = 0 := hfuel.resolve_right fun h => by omega
    exact hs
  | succ i ih =>
    obtain ⟨j, rfl⟩ : ∃ m, j = m + 1 := ⟨j - 1, by omega⟩
    obtain ⟨a, b, more, ha, hb, hab, hmore⟩ := hstep (Nat.le_refl n) hs
    rw [repeatWhile, repeatWhile, ha, hb]
    cases more with
    | false => exact hab
    | true =>
      obtain ⟨k, hk, hab⟩ := hmore rfl
      exact hmono (ih hab (fun hle => hstep (by omega)) (by omega)) (Nat.le_of_lt hk)

theorem Alike.repeatWhile {step step' : Parser → Parser × Bool} (h : Alike n p q) {i j : Nat}
    (hfuel : j = i ∨ p.left < i ∧ p.left < j)
    (hstep : ∀ {k r s}, k ≤ n → Alike k r s → AlikeStep Alike k (step r) (step' s)) :
    Alike n (repeatWhile step i p) (repeatWhile step' j q) :=
  (repeatWhile_alike (R := Alike) Alike.mono h.tight
    (fun hk => hstep (Nat.le_trans hk h.left_le)) hfuel).mono h.left_le

theorem AlikeWith.mono {α : Type} {m : Nat} {r s : Parser × α} (h : AlikeWith n r s) (hle : n ≤ m) :
    AlikeWith m r s := by
  obtain ⟨p, q, a, hr, hs, hpq⟩ := h
  exact ⟨p, q, a, hr, hs, hpq.mono hle⟩

theorem AlikeStep.moreWith {α : Type} {k : Nat} {r s : Parser × α} (hk : k < n)
    (h : AlikeWith k r s) : AlikeStep AlikeWith n (r, true) (s, true) :=
  ⟨r, s, true, rfl, rfl, h.mono (Nat.le_of_lt hk), fun _ => ⟨k, hk, h⟩⟩

theorem AlikeExpr.of_node {l : Nat} {r s : Parser × ClosedNode} (hl : l < n) (h : AlikeWith l r s) :
    AlikeExpr n (r.1, some r.2) (s.1, some s.2) := by
  obtain ⟨r, s, c, rfl, rfl, hrs⟩ := h
  exact ⟨r, s, _, rfl, rfl, hrs.mono (Nat.le_of_lt hl), fun _ => Nat.lt_of_le_of_lt hrs.left_le hl⟩

theorem AlikeExpr.of_none (h : Alike n p q) : AlikeExpr n (p, none) (q, none) :=
  ⟨p, q, none, rfl, rfl, h, by simp⟩

theorem Alike.repeatWhile_node {step step' : Parser × ClosedNode → (Parser × ClosedNode) × Bool}
    (h : Alike n p q) (c : ClosedNode) {i j : Nat} (hfuel : j = i ∨ p.left < i ∧ p.left < j)
    (hstep : ∀ {k r s} (c : ClosedNode), k ≤ n → Alike k r s →
      AlikeStep AlikeWith k (step (r, c)) (step' (s, c))) :
    AlikeWith n (Parser.repeatWhile step i (p, c)) (Parser.repeatWhile step' j (q, c)) := by
  refine (repeatWhile_alike (R := AlikeWith) AlikeWith.mono ⟨p, q, c, rfl, rfl,
    h.tight⟩ ?_ hfuel).mono h.left_le
  rintro k _ _ hk ⟨r, s, d, rfl, rfl, hrs⟩
  exact hstep d (Nat.le_trans hk h.left_le) hrs

theorem Alike.commaSeparated {item item' : Parser → Parser} (h : Alike n p q)
    (hitem : ∀ {k r s}, k ≤ n → Alike k r s → Alike k (item r) (item' s)) :
    Alike n (commaSeparated item p) (commaSeparated item' q) :=
  h.repeatWhile h.fuel fun hk hrs => (hitem hk hrs).eat .comma (by decide)

end LuaAnalysis.Syntax.Parser
