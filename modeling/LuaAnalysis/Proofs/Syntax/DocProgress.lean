import LuaAnalysis.Proofs.Syntax.DocRuns
import LuaAnalysis.Proofs.Syntax.Rounds
import LuaAnalysis.Syntax.Grammar.Doc

namespace LuaAnalysis.Syntax

namespace DocParser

/-- The number of bytes from the token at hand to the end of the line. -/
def left (p : DocParser) : Nat := p.lexer.cursor.stop - p.current.span.start

variable {p q r : DocParser}

theorem left_withLog (p : DocParser) (log : EventLog) : left { p with log := log } = p.left := rfl

theorem left_lt_bound (hp : p.Valid) : p.left < p.bound := by
  obtain ⟨chars, hholds⟩ := hp.current
  have hle := hholds.piece.byteLength_le
  have hstop := hholds.piece.stop_eq
  dsimp only at hstop
  rw [left, bound, hstop]
  omega

theorem left_atNext {l : DocLexer} (hl : l.Valid) (htext : l.cursor.text = p.text) :
    (p.atNext l).left ≤ l.cursor.stop - l.cursor.pos := by
  obtain ⟨blanks, chars, -, -, hstart, -⟩ := holds_next (p := p) hl htext
  obtain ⟨hfinds, -⟩ := DocLexer.finds_next hl
  simp only [left, atNext, hstart, hfinds.stop_eq]
  omega

theorem bump_eq (p : DocParser) : ∃ log, p.bump = { p.atNext p.lexer with log := log } := by
  unfold bump
  dsimp only
  split
  · exact ⟨p.log, rfl⟩
  · exact ⟨_, rfl⟩

theorem depth_bump (p : DocParser) : p.bump.depth = p.depth := by
  obtain ⟨log, hbump⟩ := bump_eq p
  rw [hbump]
  rfl

theorem left_bump_le (hp : p.Valid) : p.bump.left ≤ p.lexer.cursor.stop - p.lexer.cursor.pos := by
  obtain ⟨log, hbump⟩ := bump_eq p
  have hnext := left_atNext (p := p) hp.lexer hp.text_eq
  rwa [hbump, left_withLog]

theorem left_bump (hp : p.Valid) : p.bump.left ≤ p.left := by
  obtain ⟨chars, hholds⟩ := hp.current
  have hleft : p.left = p.lexer.cursor.stop - p.current.span.start := rfl
  have hle := left_bump_le hp
  rw [hholds.pos_eq, hholds.stop_eq] at hle
  omega

theorem left_bump_lt (hp : p.Valid) (hkind : p.kind ≠ .docLineEnd) : p.bump.left < p.left := by
  obtain ⟨chars, hholds⟩ := hp.current
  have hleft : p.left = p.lexer.cursor.stop - p.current.span.start := rfl
  have hpos := Text.byteLength_pos (hholds.ne_nil hkind)
  have hstop := hholds.piece.stop_eq
  have hle := left_bump_le hp
  rw [hholds.pos_eq, hholds.stop_eq] at hle
  rw [Text.byteLength_append] at hstop
  dsimp only at hstop
  omega

/-- What a step does that never fails: the reader is still inside its line, with as many brackets
open as before. -/
structure Stays (p q : DocParser) : Prop where
  valid : q.Valid
  left_le : q.left ≤ p.left
  depth_eq : q.depth = p.depth

theorem Stays.refl (hp : p.Valid) : Stays p p := ⟨hp, Nat.le_refl _, rfl⟩

theorem Stays.trans (h : Stays p q) (h' : Stays q r) : Stays p r :=
  ⟨h'.valid, Nat.le_trans h'.left_le h.left_le, h'.depth_eq.trans h.depth_eq⟩

theorem Stays.withLog (h : Stays p q) (log : EventLog) : Stays p { q with log := log } :=
  ⟨h.valid.withLog log, h.left_le, h.depth_eq⟩

theorem stays_bump (h : Stays p q) : Stays p q.bump :=
  h.trans ⟨(adds_bump h.valid).valid, left_bump h.valid, depth_bump q⟩

theorem stays_switch (h : Stays p q) : Stays p q.switchToDescription := by
  refine h.trans ?_
  by_cases hkind : q.kind = .docLineEnd
  · rw [switch_at_end hkind]
    exact .refl h.valid
  · obtain ⟨hvalid, htext, hstop, hpos, -⟩ := reset_spec h.valid
    have hleft := left_atNext (p := q) hvalid htext
    rw [hstop, hpos] at hleft
    have hswitch := (adds_switch h.valid).valid
    rw [switch_of_ne hkind] at hswitch ⊢
    exact ⟨hswitch, hleft, rfl⟩

theorem stays_freeText (h : Stays p q) : Stays p q.freeText := by
  unfold freeText
  dsimp only
  split
  · exact (stays_bump ((stays_switch h).withLog _)).withLog _
  · exact stays_switch h

theorem stays_description (h : Stays p q) : Stays p q.description := by
  unfold description
  split
  · exact h
  · have hswitch := stays_switch (stays_bump (h.withLog q.openNode.1.log))
    dsimp only
    split
    · exact (stays_bump hswitch).withLog _
    · exact hswitch.withLog _
  · exact stays_freeText h

theorem stays_recover (h : Stays p q) (e : SyntaxError) : Stays p (q.recover e) :=
  stays_freeText (h.withLog _)

end DocParser

open DocParser

def DocM.Outcome.onward {α β : Type} (value : α → DocParser → β) (state : α → DocParser → DocParser)
    (failed : DocParser → DocParser) : DocM.Outcome α → DocM.Outcome β
  | .ok a q => .ok (value a q) (state a q)
  | .error e q => .error e (failed q)

/-- Two readers that do the same from a place on. They stay inside the line, and leave as many
brackets open as there were, also where they fail. -/
structure AgreeAt {α : Type} (p : DocParser) (m m' : DocM α) (Q : α → DocParser → Prop) : Prop where
  eq : m' p = m p
  ok : ∀ {a q}, m p = .ok a q → Stays p q ∧ Q a q
  error : ∀ {e q}, m p = .error e q → q.depth = p.depth

variable {α β : Type} {p : DocParser} {m m' : DocM α} {Q : α → DocParser → Prop}
  {R : β → DocParser → Prop} {n : Nat}

namespace AgreeAt

theorem mono {Q' : α → DocParser → Prop} (h : AgreeAt p m m' Q)
    (hQ : ∀ {a q}, Stays p q → Q a q → Q' a q) : AgreeAt p m m' Q' where
  eq := h.eq
  ok hrun := ⟨(h.ok hrun).1, hQ (h.ok hrun).1 (h.ok hrun).2⟩
  error := h.error

theorem onward {l l' : DocM β} {p' : DocParser} (h : AgreeAt p m m' Q) (value : α → DocParser → β)
    (state : α → DocParser → DocParser) (failed : DocParser → DocParser)
    (hl : l p' = DocM.Outcome.onward value state failed (m p))
    (hl' : l' p' = DocM.Outcome.onward value state failed (m' p))
    (hok : ∀ {a q}, Stays p q → Q a q → Stays p' (state a q) ∧ R (value a q) (state a q))
    (hfailed : ∀ {q}, q.depth = p.depth → (failed q).depth = p'.depth) : AgreeAt p' l l' R := by
  rw [h.eq] at hl'
  cases hm : m p with
  | ok a q =>
    rw [hm] at hl hl'
    obtain ⟨hstays, hQ⟩ := h.ok hm
    refine ⟨hl'.trans hl.symm, fun hr => ?_, fun hr => ?_⟩
    · cases hl.symm.trans hr
      exact hok hstays hQ
    · cases hl.symm.trans hr
  | error e q =>
    rw [hm] at hl hl'
    refine ⟨hl'.trans hl.symm, fun hr => ?_, fun hr => ?_⟩
    · cases hl.symm.trans hr
    · cases hl.symm.trans hr
      exact hfailed (h.error hm)

theorem bind {f f' : α → DocM β} (hm : AgreeAt p m m' Q)
    (hf : ∀ {a q}, Stays p q → Q a q → AgreeAt q (f a) (f' a) R) :
    AgreeAt p (m >>= f) (m' >>= f') R := by
  cases hrun : m p with
  | ok a q =>
    obtain ⟨hstays, hQ⟩ := hm.ok hrun
    have hrest := hf hstays hQ
    have hp : (m >>= f) p = f a q := by rw [DocM.bind_apply, hrun]
    have hp' : (m' >>= f') p = f' a q := by rw [DocM.bind_apply, hm.eq, hrun]
    refine ⟨by rw [hp, hp', hrest.eq], fun hr => ?_, fun hr => ?_⟩
    · obtain ⟨hr, hR⟩ := hrest.ok (hp.symm.trans hr)
      exact ⟨hstays.trans hr, hR⟩
    · exact (hrest.error (hp.symm.trans hr)).trans hstays.depth_eq
  | error e q =>
    have hp : (m >>= f) p = .error e q := by rw [DocM.bind_apply, hrun]
    have hp' : (m' >>= f') p = .error e q := by rw [DocM.bind_apply, hm.eq, hrun]
    refine ⟨by rw [hp, hp'], fun hr => ?_, fun hr => ?_⟩
    · cases hp.symm.trans hr
    · cases hp.symm.trans hr
      exact hm.error hrun

theorem read_bind {g : DocParser → α} {f f' : α → DocM β} (hm : ∀ p, m p = .ok (g p) p)
    (h : AgreeAt p (f (g p)) (f' (g p)) R) : AgreeAt p (m >>= f) (m >>= f') R := by
  have hp (f : α → DocM β) : (m >>= f) p = f (g p) p := by rw [DocM.bind_apply, hm]
  exact ⟨by rw [hp, hp, h.eq], fun hr => h.ok ((hp f).symm.trans hr),
    fun hr => h.error ((hp f).symm.trans hr)⟩

theorem pure {a : α} (hp : p.Valid) (hQ : Q a p) : AgreeAt p (Pure.pure a) (Pure.pure a) Q where
  eq := rfl
  ok hrun := by
    cases hrun
    exact ⟨.refl hp, hQ⟩
  error hrun := by cases hrun

theorem modify {f : DocParser → DocParser} {R : Unit → DocParser → Prop} (h : Stays p (f p))
    (hR : R () (f p)) : AgreeAt p (modify f) (modify f) R where
  eq := rfl
  ok hrun := by
    cases hrun
    exact ⟨h, hR⟩
  error hrun := by cases hrun

theorem fail (fault : Fault) : AgreeAt p (DocM.fail fault) (DocM.fail fault) Q where
  eq := rfl
  ok hrun := by cases hrun
  error hrun := by
    cases hrun
    rfl

theorem bump (hp : p.Valid) : AgreeAt p DocM.bump DocM.bump fun _ q => p.kind ≠ .docLineEnd →
    q.left < p.left :=
  .modify (stays_bump (.refl hp)) fun hkind => left_bump_lt hp hkind

theorem eat (hp : p.Valid) {kind : TokenKind} (hkind : kind ≠ .docLineEnd) :
    AgreeAt p (DocM.eat kind) (DocM.eat kind) fun more q => more = true → q.left < p.left := by
  refine read_bind (g := (·.sees kind)) (fun _ => rfl) ?_
  split
  · rename_i hsees
    have hne : p.kind ≠ .docLineEnd := by
      have hp : p.kind = kind := by simpa [DocParser.sees] using hsees
      rwa [hp]
    refine (bump hp).bind fun hstays hlt => .pure hstays.valid fun _ => hlt hne
  · exact .pure hp fun h => by cases h

end AgreeAt

/-- Two readers that do the same wherever less than `n` is left of the line. -/
def ReadsAlike (n : Nat) (m m' : DocM α) : Prop :=
  ∀ p : DocParser, p.Valid → p.left < n → AgreeAt p m m' fun _ _ => True

def StepsAlike (n : Nat) (step step' : DocM Bool) : Prop :=
  ∀ p : DocParser, p.Valid → p.left < n → AgreeAt p step step' fun more q => more = true →
    q.left < p.left

theorem ReadsAlike.bind {f f' : α → DocM β} (hm : ReadsAlike n m m')
    (hf : ∀ a, ReadsAlike n (f a) (f' a)) : ReadsAlike n (m >>= f) (m' >>= f') :=
  fun _ hp hn => (hm _ hp hn).bind fun hstays _ =>
    hf _ _ hstays.valid (Nat.lt_of_le_of_lt hstays.left_le hn)

theorem ReadsAlike.bind_step {f f' : α → DocM Bool} (hm : ReadsAlike n m m')
    (hf : ∀ a, StepsAlike n (f a) (f' a)) : StepsAlike n (m >>= f) (m' >>= f') :=
  fun _ hp hn => (hm _ hp hn).bind fun hstays _ =>
    (hf _ _ hstays.valid (Nat.lt_of_le_of_lt hstays.left_le hn)).mono fun _ hlt hmore =>
      Nat.lt_of_lt_of_le (hlt hmore) hstays.left_le

theorem alike_pure (a : α) : ReadsAlike n (pure a) (pure a) := fun _ hp _ => .pure hp trivial

theorem alike_modify {f : DocParser → DocParser} (h : ∀ {p}, p.Valid → Stays p (f p)) :
    ReadsAlike n (modify f) (modify f) :=
  fun _ hp _ => .modify (h hp) trivial

theorem alike_get : ReadsAlike n (get : DocM DocParser) get := fun _ hp _ => by
  refine ⟨rfl, fun hrun => ?_, fun hrun => by cases hrun⟩
  cases hrun
  exact ⟨.refl hp, trivial⟩

theorem alike_kind : ReadsAlike n DocM.kind DocM.kind := alike_get.bind fun _ => alike_pure _

theorem alike_sees (kind : TokenKind) : ReadsAlike n (DocM.sees kind) (DocM.sees kind) :=
  alike_get.bind fun _ => alike_pure _

theorem alike_bump : ReadsAlike n DocM.bump DocM.bump :=
  alike_modify fun hp => stays_bump (.refl hp)

theorem alike_description : ReadsAlike n DocM.description DocM.description :=
  alike_modify fun hp => stays_description (.refl hp)

theorem alike_freeText : ReadsAlike n DocM.freeText DocM.freeText :=
  alike_modify fun hp => stays_freeText (.refl hp)

theorem alike_fail (fault : Fault) : ReadsAlike n (DocM.fail fault : DocM α) (DocM.fail fault) :=
  fun _ _ _ => .fail fault

theorem alikeStep_eat {kind : TokenKind} (hkind : kind ≠ .docLineEnd) :
    StepsAlike n (DocM.eat kind) (DocM.eat kind) :=
  fun _ hp _ => .eat hp hkind

theorem alike_eat (kind : TokenKind) : ReadsAlike n (DocM.eat kind) (DocM.eat kind) := by
  refine (alike_sees kind).bind fun b => ?_
  cases b
  · exact alike_pure _
  · exact alike_bump.bind fun _ => alike_pure _

theorem ReadsAlike.discard (h : ReadsAlike n m m') : ReadsAlike n (discard m) (discard m') := by
  have hbind (m : DocM α) : Functor.discard m = m >>= fun _ => pure PUnit.unit := rfl
  rw [hbind, hbind]
  exact h.bind fun _ => alike_pure _

theorem alike_expect (kind : TokenKind) : ReadsAlike n (DocM.expect kind) (DocM.expect kind) := by
  refine (alike_eat kind).bind fun b => ?_
  cases b
  · exact alike_get.bind fun _ => alike_fail _
  · exact alike_pure _

theorem alike_nameOrDots : ReadsAlike n DocM.nameOrDots DocM.nameOrDots := by
  refine (alike_eat .dots).bind fun b => ?_
  cases b
  · exact alike_expect .name
  · exact alike_pure _

section

variable {body body' : DocM Unit}

theorem ReadsAlike.whenEaten (h : ReadsAlike n body body') (kind : TokenKind) :
    ReadsAlike n (DocM.whenEaten kind body) (DocM.whenEaten kind body') := by
  refine (alike_eat kind).bind fun b => ?_
  cases b
  · exact alike_pure _
  · exact h

theorem ReadsAlike.unlessSees (h : ReadsAlike n body body') (kind : TokenKind) :
    ReadsAlike n (DocM.unlessSees kind body) (DocM.unlessSees kind body') := by
  refine (alike_sees kind).bind fun b => ?_
  cases b
  · exact h
  · exact alike_pure _

theorem nodeOf_onward (body : DocM NodeKind) (p : DocParser) : DocM.nodeOf body p =
    DocM.Outcome.onward (fun kind q => (q.close p.openNode.2 kind).2)
    (fun kind q => (q.close p.openNode.2 kind).1) id (body p.openNode.1) := by
  rw [nodeOf_apply]
  cases body p.openNode.1 <;> rfl

theorem nodeAround_onward (c : ClosedNode) (kind : NodeKind) (body : DocM Unit) (p : DocParser) :
    DocM.nodeAround c kind body p =
      DocM.Outcome.onward (fun _ q => (q.close (p.wrap c).2 kind).2)
        (fun _ q => (q.close (p.wrap c).2 kind).1) id (body (p.wrap c).1) := by
  rw [nodeAround_apply]
  cases body (p.wrap c).1 <;> rfl

theorem nested_onward (m : DocM Unit) (p : DocParser) :
    DocM.nested m p = DocM.Outcome.onward (fun _ _ => ()) (fun _ => DocM.higher) DocM.higher
    (m (DocM.deeper p)) := by
  show EStateM.bind (EStateM.tryCatch m _) _ (DocM.deeper p) = _
  unfold EStateM.bind EStateM.tryCatch
  cases m (DocM.deeper p) <;> rfl

theorem AgreeAt.nodeOf {body body' : DocM NodeKind} {Q : NodeKind → DocParser → Prop}
    (h : AgreeAt p.openNode.1 body body' Q) :
    AgreeAt p (DocM.nodeOf body) (DocM.nodeOf body') fun _ _ => True :=
  h.onward _ _ _ (nodeOf_onward body p) (nodeOf_onward body' p)
    (fun hq _ => ⟨⟨hq.valid.withLog _, hq.left_le, hq.depth_eq⟩, trivial⟩) id

theorem ReadsAlike.node (h : ReadsAlike n body body') (kind : NodeKind) :
    ReadsAlike n (DocM.node kind body) (DocM.node kind body') := by
  rw [node_eq, node_eq]
  exact ReadsAlike.discard fun p hp hn =>
    .nodeOf ((h.bind fun _ => alike_pure kind) p.openNode.1 (valid_openNode hp) hn)

theorem ReadsAlike.nodeAround (h : ReadsAlike n body body') (c : ClosedNode) (kind : NodeKind) :
    ReadsAlike n (DocM.nodeAround c kind body) (DocM.nodeAround c kind body') := fun p hp hn =>
  (h _ (valid_wrap hp c) hn).onward _ _ _ (nodeAround_onward c kind body p)
    (nodeAround_onward c kind body' p)
    (fun hq _ => ⟨⟨hq.valid.withLog _, hq.left_le, hq.depth_eq⟩, trivial⟩) id

theorem ReadsAlike.nested (h : ReadsAlike n body body') :
    ReadsAlike n (DocM.nested body) (DocM.nested body') := fun p hp hn =>
  have hdepth {q : DocParser} (hq : q.depth = (DocM.deeper p).depth) : (DocM.higher q).depth =
      p.depth := by
    rw [DocM.higher, hq, DocM.deeper, Nat.add_sub_cancel]
  (h (DocM.deeper p) (hp.withDepth _) hn).onward _ _ _ (nested_onward body p)
  (nested_onward body' p) (fun hq _ => ⟨⟨hq.valid.withDepth _, hq.left_le, hdepth hq.depth_eq⟩,
    trivial⟩) hdepth

theorem StepsAlike.readsAlike {step step' : DocM Bool} (h : StepsAlike n step step') :
    ReadsAlike n step step' :=
  fun p hp hn => (h p hp hn).mono fun _ _ => trivial

theorem ReadsAlike.repeatWhile {step step' : DocM Bool} (h : ReadsAlike n step step') (i : Nat) :
    ReadsAlike n (DocM.repeatWhile step i) (DocM.repeatWhile step' i) := by
  induction i with
  | zero => exact alike_pure _
  | succ i ih =>
    refine h.bind fun b => ?_
    cases b
    · exact alike_pure _
    · exact ih

theorem ReadsAlike.commaStep (h : ReadsAlike n body body') :
    StepsAlike n (do body; DocM.eat .comma) (do body'; DocM.eat .comma) :=
  h.bind_step fun _ => alikeStep_eat (by decide)

theorem ReadsAlike.commaSeparated (h : ReadsAlike n body body') :
    ReadsAlike n (DocM.commaSeparated body) (DocM.commaSeparated body') :=
  alike_get.bind fun _ => h.commaStep.readsAlike.repeatWhile _

theorem AgreeAt.bump_bind {f f' : Unit → DocM β} (hp : p.Valid) (hn : p.left < n + 1)
    (hkind : p.kind ≠ .docLineEnd) (h : ReadsAlike n (f ()) (f' ())) :
    AgreeAt p (DocM.bump >>= f) (DocM.bump >>= f') fun _ _ => True :=
  (AgreeAt.bump hp).bind fun hstays hlt =>
    h _ hstays.valid (Nat.lt_of_lt_of_le (hlt hkind) (Nat.le_of_lt_succ hn))

end

namespace DocType

open DocM

variable {single single' : DocM ClosedNode} {type type' : DocM Unit}

def unionStep (single : DocM ClosedNode) : DocM Bool := do
  if ← eat .docOr then
    discard single
    return true
  return false

theorem alikeStep_union (h : ReadsAlike n single single') :
    StepsAlike n (unionStep single) (unionStep single') :=
  fun _ hp hn => (AgreeAt.eat hp (by decide)).bind fun {more q} hstays hlt => by
    cases more
    · exact .pure hstays.valid fun h => by cases h
    · have hq := Nat.lt_of_le_of_lt hstays.left_le hn
      refine (h.discard q hstays.valid hq).bind fun hr _ => .pure hr.valid fun _ => ?_
      exact Nat.lt_of_le_of_lt hr.left_le (hlt rfl)

theorem alike_unionOf (h : ReadsAlike n single single') :
    ReadsAlike n (unionOf single) (unionOf single') := by
  refine h.bind fun first => (alike_sees _).bind fun b => ?_
  cases b
  · exact alike_pure _
  · exact alike_get.bind fun p =>
      ReadsAlike.nodeAround ((alikeStep_union h).readsAlike.repeatWhile p.bound) first _

theorem alike_marks (i : Nat) (c : ClosedNode) : ReadsAlike n (marks i c) (marks i c) := by
  induction i generalizing c with
  | zero => exact alike_pure _
  | succ i ih =>
    refine alike_kind.bind fun kind => ?_
    split
    · exact ((alike_bump.bind fun _ => alike_expect _).nodeAround c _).bind ih
    · exact (alike_bump.nodeAround c _).bind ih
    · exact alike_pure _

theorem alike_funParam (h : ReadsAlike n type type') :
    ReadsAlike n (funParam type) (funParam type') := by
  refine ReadsAlike.node (alike_nameOrDots.bind fun _ => (alike_eat _).discard.bind fun _ => ?_) _
  exact h.nested.whenEaten _

theorem alike_funResults (h : ReadsAlike n type type') :
    ReadsAlike n (funResults type) (funResults type') := by
  refine alike_get.bind fun p => ?_
  split
  · exact h.nested.commaSeparated
  · exact h.nested

theorem alike_funType (h : ReadsAlike n type type') :
    ReadsAlike n (funType type) (funType type') := by
  refine alike_bump.bind fun _ => ((alike_funParam h).commaSeparated.unlessSees _).bind fun _ => ?_
  exact (alike_expect _).bind fun _ => (alike_funResults h).whenEaten _

theorem alike_objectKey (h : ReadsAlike n type type') :
    ReadsAlike n (objectKey type) (objectKey type') := by
  refine alike_kind.bind fun kind => ?_
  split
  · exact alike_bump
  · exact alike_bump
  · exact alike_bump
  · exact alike_bump.bind fun _ => h.bind fun _ => alike_expect _
  · exact alike_fail _

theorem alike_objectField (h : ReadsAlike n type type') :
    ReadsAlike n (objectField type) (objectField type') := by
  refine ReadsAlike.node ((alike_objectKey h).bind fun _ =>
    (alike_eat _).discard.bind fun _ => ?_) _
  exact (alike_expect _).bind fun _ => h

def objectStep (type : DocM Unit) : DocM Bool := do
  if ← sees .rightBrace then
    return false
  objectField type
  eat .comma

theorem alikeStep_object (h : ReadsAlike n type type') :
    StepsAlike n (objectStep type) (objectStep type') := by
  refine (alike_sees _).bind_step fun b => ?_
  cases b
  · exact (alike_objectField h).commaStep
  · exact fun _ hp _ => .pure hp fun h => by cases h

theorem alike_objectFields (h : ReadsAlike n type type') :
    ReadsAlike n (objectFields type) (objectFields type') :=
  alike_get.bind fun p => (alikeStep_object h).readsAlike.repeatWhile p.bound

theorem alike_variadicBase (h : ReadsAlike n single single') :
    ReadsAlike n (variadicBase single) (variadicBase single') := by
  refine alike_kind.bind fun kind => ?_
  split
  · exact h.discard
  · exact h.discard
  · exact h.discard
  · exact alike_pure _

theorem agreeAt_namedKind (h : ReadsAlike n type type') (hp : p.Valid) (hn : p.left < n + 1)
    (hkind : p.kind ≠ .docLineEnd) :
    AgreeAt p (namedKind type) (namedKind type') fun _ _ => True := by
  refine AgreeAt.read_bind (g := (·.currentText)) (fun _ => rfl) (.bump_bind hp hn hkind ?_)
  split
  · exact alike_pure _
  split
  · refine (alike_sees _).bind fun b => ?_
    cases b
    · exact alike_pure _
    · exact (alike_funType h).bind fun _ => alike_pure _
  · refine (alike_eat _).bind fun b => ?_
    cases b
    · exact alike_pure _
    · exact h.commaSeparated.nested.bind fun _ => (alike_expect _).bind fun _ => alike_pure _

theorem alike_primaryKind (h : ReadsAlike n single single') :
    ReadsAlike (n + 1) (primaryKind single) (primaryKind single') := by
  intro p hp hn
  have htype : ReadsAlike n (discard (unionOf single)) (discard (unionOf single')) :=
    (alike_unionOf h).discard
  refine AgreeAt.read_bind (g := (·.kind)) (fun _ => rfl) ?_
  split
  · exact agreeAt_namedKind htype hp hn (by simp [*])
  · exact .bump_bind hp hn (by simp [*]) (alike_pure _)
  · exact .bump_bind hp hn (by simp [*]) (alike_pure _)
  · exact .bump_bind hp hn (by simp [*]) (alike_pure _)
  · exact .bump_bind hp hn (by simp [*])
      (htype.nested.bind fun _ => (alike_expect _).bind fun _ => alike_pure _)
  · refine .bump_bind hp hn (by simp [*]) ?_
    exact (htype.commaSeparated.nested.unlessSees _).bind fun _ => (alike_expect _).bind fun _ =>
      alike_pure _
  · refine .bump_bind hp hn (by simp [*]) ?_
    exact (alike_objectFields htype).nested.bind fun _ => (alike_expect _).bind fun _ =>
      alike_pure _
  · exact .bump_bind hp hn (by simp [*]) ((alike_variadicBase h).bind fun _ => alike_pure _)
  · exact .fail _

def around (single : DocM ClosedNode) : DocM ClosedNode := do marks (← get).bound (← primary single)

theorem alike_around (h : ReadsAlike n single single') :
    ReadsAlike (n + 1) (around single) (around single') := by
  refine alike_get.bind fun p => ReadsAlike.bind ?_ fun c => alike_marks p.bound c
  exact fun p hp hn => .nodeOf (alike_primaryKind h p.openNode.1 (valid_openNode hp) hn)

theorem alike_single {a b : Nat} (h : a = b ∨ n ≤ a ∧ n ≤ b) :
    ReadsAlike n (DocType.single a) (DocType.single b) := by
  -- As for the rules of code: the next level is entered only with less of the line left.
  induction a generalizing n b with
  | zero =>
    rcases h with rfl | ⟨hn, -⟩
    · exact alike_kind.bind fun _ => alike_fail _
    · exact fun _ _ hlt => by omega
  | succ a ih =>
    cases n with
    | zero => exact fun _ _ hlt => by omega
    | succ n =>
      obtain ⟨b, rfl⟩ : ∃ k, b = k + 1 := ⟨b - 1, by omega⟩
      exact alike_around (ih (by omega))

/-- A type with at most the given number of types around each other. -/
def typeWithin (i : Nat) : DocM Unit := discard (unionOf (DocType.single i))

theorem alike_typeWithin {a b : Nat} (h : a = b ∨ n ≤ a ∧ n ≤ b) :
    ReadsAlike n (typeWithin a) (typeWithin b) :=
  (alike_unionOf (alike_single h)).discard

theorem alike_type : ReadsAlike n DocType.type DocType.type :=
  alike_get.bind fun _ => alike_typeWithin (.inl rfl)

end DocType

namespace Doc

open DocM DocType

def genericParam : DocM Unit :=
  node .docGenericParam do
    expect .name
    whenEaten .colon (nested DocType.type)

theorem genericParams_eq : genericParams = commaSeparated genericParam := rfl

def namedResult : DocM Unit :=
  node .docNamedReturn do
    DocType.type
    discard (eat .name)

theorem results_eq : results = (do commaSeparated namedResult; description) := rfl

def version : DocM Unit :=
  node .docVersion do
    versionRange
    versionNumber

theorem versions_eq : versions = (do commaSeparated version; description) := rfl

theorem alike_genericParam : ReadsAlike n genericParam genericParam :=
  ReadsAlike.node ((alike_expect _).bind fun _ => alike_type.nested.whenEaten _) _

theorem alike_genericParams : ReadsAlike n genericParams genericParams := by
  rw [genericParams_eq]
  exact alike_genericParam.commaSeparated

theorem alike_namedResult : ReadsAlike n namedResult namedResult :=
  ReadsAlike.node (alike_type.bind fun _ => (alike_eat _).discard) _

theorem alike_versionRange : ReadsAlike n versionRange versionRange := by
  refine (alike_eat _).bind fun b => ?_
  cases b
  · exact (alike_eat _).discard
  · exact alike_pure _

theorem alike_versionNumber : ReadsAlike n versionNumber versionNumber := by
  refine alike_kind.bind fun kind => ?_
  split
  · exact alike_bump
  · exact alike_bump
  · exact alike_bump
  · exact alike_fail _

theorem alike_version : ReadsAlike n version version :=
  ReadsAlike.node (alike_versionRange.bind fun _ => alike_versionNumber) _

theorem alike_attributes : ReadsAlike n attributes attributes := by
  refine (alike_sees _).bind fun b => ?_
  cases b
  · exact alike_pure _
  · exact ReadsAlike.node (alike_bump.bind fun _ => (alike_expect _).commaSeparated.bind fun _ =>
      alike_expect _) _

theorem alike_genericDeclList : ReadsAlike n genericDeclList genericDeclList := by
  refine (alike_sees _).bind fun b => ?_
  cases b
  · exact alike_pure _
  · exact ReadsAlike.node (alike_bump.bind fun _ => alike_genericParams.bind fun _ =>
      alike_expect _) _

theorem alike_classLike : ReadsAlike n classLike classLike := by
  refine alike_attributes.bind fun _ => (alike_expect _).bind fun _ =>
    alike_genericDeclList.bind fun _ => ?_
  exact (ReadsAlike.whenEaten (alike_type.commaSeparated.node _) _).bind fun _ => alike_description

theorem alike_enumeration : ReadsAlike n enumeration enumeration := by
  refine alike_attributes.bind fun _ => (alike_expect _).bind fun _ => ?_
  exact (alike_type.whenEaten _).bind fun _ => alike_description

theorem alike_aliasType : ReadsAlike n aliasType aliasType := by
  refine (alike_sees _).bind fun _ => (alike_sees _).bind fun _ => ?_
  split
  · exact alike_pure _
  · exact alike_type

theorem alike_fieldKey : ReadsAlike n fieldKey fieldKey := by
  refine (alike_eat _).bind fun b => ?_
  cases b
  · exact alike_expect _
  · exact alike_type.nested.bind fun _ => alike_expect _

theorem alike_fieldRest : ReadsAlike n fieldRest fieldRest := by
  refine alike_fieldKey.bind fun _ => (alike_eat _).discard.bind fun _ => ?_
  exact alike_type.bind fun _ => alike_description

theorem alike_param : ReadsAlike n param param := by
  refine alike_nameOrDots.bind fun _ => (alike_eat _).discard.bind fun _ => ?_
  exact alike_type.bind fun _ => alike_description

theorem alike_results : ReadsAlike n results results := by
  rw [results_eq]
  exact alike_namedResult.commaSeparated.bind fun _ => alike_description

theorem alike_typeList : ReadsAlike n typeList typeList :=
  alike_type.commaSeparated.bind fun _ => alike_description

theorem alike_diagnostic : ReadsAlike n diagnostic diagnostic :=
  (alike_expect _).bind fun _ => ReadsAlike.whenEaten ((alike_expect _).commaSeparated.node _) _

theorem alike_versions : ReadsAlike n versions versions := by
  rw [versions_eq]
  exact alike_version.commaSeparated.bind fun _ => alike_description

theorem alike_operator : ReadsAlike n operator operator := by
  refine (alike_expect _).bind fun _ => ReadsAlike.bind (ReadsAlike.whenEaten ?_ _) fun _ =>
    (alike_type.whenEaten _).bind fun _ =>
      alike_description
  exact (ReadsAlike.node (alike_type.nested.commaSeparated.unlessSees _) _).bind fun _ =>
    alike_expect _

end Doc

end LuaAnalysis.Syntax
