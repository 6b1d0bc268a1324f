import LuaAnalysis.Proofs.Syntax.CodeProgress
import LuaAnalysis.Proofs.Syntax.DocGrammar
import LuaAnalysis.Proofs.Syntax.DocProgress

/-!
Every text is read to its end. Each round of a loop takes up a token or goes on to another comment,
or it is the last, and what is read inside something else is entered behind a token that was taken
up. So the counts that the grammar is given have no part in what is read.
-/

namespace LuaAnalysis.Syntax

namespace Grammar

open LuaAnalysis.Syntax.Parser

/-- A loop over code ends, and each round but the last takes up a token. -/
def CodeLoop (step : Parser → Parser × Bool) : Prop :=
  LoopEnds (fun _ => True) left (roundOf step) (repeatWhile step)

def NodeLoop (step : Parser × ClosedNode → (Parser × ClosedNode) × Bool) : Prop :=
  LoopEnds (fun _ => True) (fun s => s.1.left) (roundOf step) (repeatWhile step)

theorem step_of_roundOf {σ : Type} {step : σ → σ × Bool} {s t : σ} (h : roundOf step s = .inl t) :
    step s = (t, true) := by
  unfold roundOf at h
  split at h
  · rename_i hmore
    obtain rfl := Sum.inl.inj h
    exact Prod.ext rfl hmore
  · cases h

theorem codeLoop_of_alike {step : Parser → Parser × Bool}
    (h : ∀ p, AlikeStep Alike p.left (step p) (step p)) : CodeLoop step := by
  refine loopEnds_of_rounds (fun n s _ => repeatWhile_succ step n s) fun {p q} _ hround =>
    ⟨trivial, ?_⟩
  obtain ⟨a, b, more, ha, -, -, hmore⟩ := h p
  cases (step_of_roundOf hround).symm.trans ha
  obtain ⟨k, hk, halike⟩ := hmore rfl
  exact Nat.lt_of_le_of_lt halike.left_le hk

theorem nodeLoop_of_alike {step : Parser × ClosedNode → (Parser × ClosedNode) × Bool}
    (h : ∀ p c, AlikeStep AlikeWith p.left (step (p, c)) (step (p, c))) : NodeLoop step := by
  refine loopEnds_of_rounds (fun n s _ => repeatWhile_succ step n s) fun {s t} _ hround =>
    ⟨trivial, ?_⟩
  obtain ⟨p, c⟩ := s
  obtain ⟨a, b, more, ha, -, -, hmore⟩ := h p c
  cases (step_of_roundOf hround).symm.trans ha
  obtain ⟨k, hk, q, r, d, rfl, -, halike⟩ := hmore rfl
  exact Nat.lt_of_le_of_lt halike.left_le hk

/-- The loops of the code grammar. -/
structure LoopsEnd (g : Rules) : Prop where
  statements : CodeLoop (blockStep g)
  chunk : CodeLoop (chunkStep g)
  ifParts : CodeLoop (ifPart g)
  targets : CodeLoop (assignTarget g)
  tableItems : CodeLoop (tableItem g)
  exprs : CodeLoop fun p => (needExpr g p).eat .comma
  paramNames : CodeLoop fun p => (paramName p).eat .comma
  localNames : CodeLoop fun p => (localName p).eat .comma
  suffixes : NodeLoop (suffix g)
  operators : ∀ limit, NodeLoop (binaryStep g limit)
  funcName : NodeLoop funcNameStep

theorem loopsEnd_of_agrees {g : Rules} (hg : ∀ n, Rules.Agrees n g g) : LoopsEnd g where
  statements := codeLoop_of_alike fun p => alike_blockStep (hg _) (.refl (Nat.le_refl _))
  chunk := codeLoop_of_alike fun p => alike_chunkStep (hg _) (.refl (Nat.le_refl _))
  ifParts := codeLoop_of_alike fun p => alike_ifPart (hg _) (.refl (Nat.le_refl _))
  targets := codeLoop_of_alike fun p => alike_assignTarget (hg _) (.refl (Nat.le_refl _))
  tableItems := codeLoop_of_alike fun p =>
    alike_tableItem (hg _) (Nat.lt_succ_self _) (.refl (Nat.le_refl _))
  exprs := codeLoop_of_alike fun p =>
    (alike_needExpr (hg _) (Nat.lt_succ_self _) (.refl (Nat.le_refl p.left))).eat .comma (by decide)
  paramNames := codeLoop_of_alike fun p =>
    (alike_paramName (.refl (Nat.le_refl p.left))).eat .comma (by decide)
  localNames := codeLoop_of_alike fun p =>
    (alike_localName (.refl (Nat.le_refl p.left))).eat .comma (by decide)
  suffixes := nodeLoop_of_alike fun p c => alike_suffix (hg _) c (.refl (Nat.le_refl _))
  operators limit := nodeLoop_of_alike fun p c =>
    alike_binaryStep (hg _) limit c (.refl (Nat.le_refl _))
  funcName := nodeLoop_of_alike fun p c => alike_funcNameStep c (.refl (Nat.le_refl _))

theorem left_ofTokens (text : String) (tokens : List Token) :
    (ofTokens text tokens).left ≤ tokens.length := by
  have hle := left_advance (e := ⟨.eof, .empty text.utf8ByteSize⟩) rfl tokens
  simpa [left, sees, kind, ofTokens, beq_iff_eq] using hle

/-- Reading code ends. The rules that are inside other rules are entered only where fewer tokens are
left, and what is read does not depend on the bound. -/
structure Ends : Prop where
  loops : ∀ a, LoopsEnd (rules a)
  inward : ∀ {n g g'}, Rules.Agrees n g g' → Rules.Agrees (n + 1) (outward g) (outward g')
  defined : ∀ text tokens b, tokens.length ≤ b →
    (chunk ((ofTokens text tokens).withBound b)).log = (chunk (ofTokens text tokens)).log

theorem ends : Ends where
  loops a := loopsEnd_of_agrees fun n => agrees_rules (.inl rfl)
  inward := agrees_outward
  defined text tokens b hb := by
    have hleft := left_ofTokens text tokens
    have halike : Alike tokens.length (ofTokens text tokens) ((ofTokens text tokens).withBound b) :=
      ⟨rfl, hleft, .inr ⟨hleft, Nat.le_trans hleft hb⟩⟩
    exact (alike_chunk halike).log

end Grammar

open DocParser

/-- A loop within a line ends, and each round but the last takes up a token. -/
def DocLoop (step : DocM Bool) : Prop :=
  LoopEnds Valid left (DocM.roundOf step) (DocM.repeatWhile step)

def CommaLoop (item : DocM Unit) : Prop := DocLoop do item; DocM.eat .comma

theorem docLoop_of_alike {step : DocM Bool} (h : ∀ n, StepsAlike n step step) : DocLoop step := by
  refine loopEnds_of_rounds (fun n p _ => DocM.repeatWhile_succ step n p) fun {p q} hp hround => ?_
  obtain ⟨hstays, hlt⟩ := (h (p.left + 1) p hp (Nat.lt_succ_self _)).ok (DocM.ok_of_roundOf hround)
  exact ⟨hstays.valid, hlt rfl⟩

theorem commaLoop_of_alike {item : DocM Unit} (h : ∀ n, ReadsAlike n item item) : CommaLoop item :=
  docLoop_of_alike fun n => (h n).commaStep

namespace DocType

open DocM

def mark? (c : ClosedNode) : TokenKind → Option (DocM ClosedNode)
  | .leftBracket => some (nodeAround c .typeArray do
      bump
      expect .rightBracket)
  | .docQuestion => some (nodeAround c .typeNullable bump)
  | _ => none

def markRound (s : ClosedNode × DocParser) : (ClosedNode × DocParser) ⊕ Outcome ClosedNode :=
  match mark? s.1 s.2.kind with
  | some m =>
    match m s.2 with
    | .ok c q => .inl (c, q)
    | .error e q => .inr (.error e q)
  | none => .inr (.ok s.1 s.2)

theorem marks_succ (n : Nat) (c : ClosedNode) :
    marks (n + 1) c = kind >>= fun kind => match mark? c kind with
      | some m => m >>= marks n
      | none => pure c := by
  rw [marks]
  refine congrArg _ (funext fun kind => ?_)
  cases kind <;> rfl

theorem marks_round (n : Nat) (s : ClosedNode × DocParser) :
    marks (n + 1) s.1 s.2 = Sum.elim (fun t => marks n t.1 t.2) id (markRound s) := by
  have hkind : DocM.kind s.2 = .ok s.2.kind s.2 := rfl
  rw [marks_succ, bind_apply, hkind, markRound]
  dsimp only
  cases mark? s.1 s.2.kind with
  | none => rfl
  | some m =>
    dsimp only
    rw [bind_apply]
    cases m s.2 <;> rfl

theorem agreeAt_mark {c : ClosedNode} {p : DocParser} {m : DocM ClosedNode} (hp : p.Valid)
    (hm : mark? c p.kind = some m) : AgreeAt p m m fun _ q => q.left < p.left := by
  have hbehind {kind : NodeKind} {f : Unit → DocM Unit} (hkind : p.kind ≠ .docLineEnd)
      (hf : ReadsAlike p.left (f ()) (f ())) : AgreeAt p (nodeAround c kind (bump >>= f))
      (nodeAround c kind (bump >>= f)) fun _ q => q.left < p.left := by
    have hbody : AgreeAt (p.wrap c).1 (bump >>= f) (bump >>= f) fun _ q => q.left < p.left :=
      (AgreeAt.bump (valid_wrap hp c)).bind fun hstays hlt =>
        (hf _ hstays.valid (hlt hkind)).mono fun hr _ => Nat.lt_of_le_of_lt hr.left_le (hlt hkind)
    exact hbody.onward _ _ _ (nodeAround_onward c kind _ p) (nodeAround_onward c kind _ p)
      (fun hq hlt => ⟨⟨hq.valid.withLog _, hq.left_le, hq.depth_eq⟩, hlt⟩) id
  unfold mark? at hm
  split at hm
  · obtain rfl := Option.some.inj hm
    exact hbehind (by simp [*]) (alike_expect _)
  · obtain rfl := Option.some.inj hm
    exact hbehind (f := pure) (by simp [*]) (alike_pure _)
  · cases hm

theorem marks_end : LoopEnds (fun s => s.2.Valid) (fun s => s.2.left) markRound fun n s =>
      marks n s.1 s.2 := by
  refine loopEnds_of_rounds (fun n s _ => marks_round n s) fun {s t} hs hround => ?_
  unfold markRound at hround
  split at hround
  · rename_i m hmark
    have hagree := agreeAt_mark hs hmark
    split at hround
    · rename_i c q hrun
      obtain rfl := Sum.inl.inj hround
      obtain ⟨hstays, hlt⟩ := hagree.ok hrun
      exact ⟨hstays.valid, hlt⟩
    · cases hround
  · cases hround

end DocType

namespace Doc

open DocM DocType

/-- Whether there is another round behind what a reader comes to, and where that starts. -/
def goesOn (next : DocParser → Option DocParser) : Outcome Unit → DocParser ⊕ Outcome Unit
  | .ok _ q => ((next q).map Sum.inl).getD (.inr (.ok () q))
  | .error e q => .inr (.error e q)

theorem exists_of_goesOn {next : DocParser → Option DocParser} {o : Outcome Unit} {r : DocParser}
    (h : goesOn next o = .inl r) : ∃ q, o = .ok () q ∧ next q = some r := by
  cases o with
  | error e q => cases h
  | ok _ q =>
    rw [goesOn] at h
    cases hnext : next q with
    | none =>
      rw [hnext] at h
      cases h
    | some s =>
      rw [hnext] at h
      exact ⟨q, rfl, hnext.trans (congrArg some (Sum.inl.inj h))⟩

def memberLine (p : DocParser) : DocM Unit := do
  set (p.nextLine?.getD p)
  aliasMember
  needLineEnd

/-- A round of the lines behind an alias: another member, and whether a further one follows. -/
def aliasRound (p : DocParser) : DocParser ⊕ Outcome Unit :=
  goesOn (fun q => if q.nextLineContinues then some q else none) (memberLine p p)

structure BeforeMember (p : DocParser) : Prop where
  valid : p.Valid
  at_end : p.kind = .docLineEnd
  continues : p.nextLineContinues = true

theorem aliasLines_of_not_continues {p : DocParser} (h : ¬ p.nextLineContinues = true) (n : Nat) :
    aliasLines n p = .ok () p := by
  cases n with
  | zero => rfl
  | succ n =>
    have hget : (get : DocM DocParser) p = .ok p p := rfl
    rw [aliasLines, bind_apply, hget]
    simp [h]
    rfl

theorem aliasLines_round (n : Nat) {p : DocParser} (hp : BeforeMember p) :
    aliasLines (n + 1) p = Sum.elim (aliasLines n) id (aliasRound p) := by
  have hstep : aliasLines (n + 1) p = (memberLine p >>= fun _ => aliasLines n) p := by
    have hget : (get : DocM DocParser) p = .ok p p := rfl
    rw [aliasLines, bind_apply, hget]
    simp only [hp.continues, if_true, memberLine, bind_assoc]
  rw [hstep, bind_apply, aliasRound]
  cases memberLine p p with
  | error e q => rfl
  | ok _ q =>
    dsimp only [goesOn]
    split
    · rfl
    · rename_i hcontinues
      exact aliasLines_of_not_continues hcontinues n

theorem exists_nextLine {p : DocParser} (h : p.nextLineContinues = true) :
    ∃ q, p.nextLine? = some q := by
  unfold nextLineContinues at h
  unfold nextLine?
  split at h
  · exact ⟨_, rfl⟩
  · cases h

theorem later_le_of_adds {p q : DocParser} (h : Adds p q) : q.later.length ≤ p.later.length := by
  obtain ⟨f, -, -, hpasses⟩ := h
  exact hpasses.later_le

theorem aliasLines_end :
    LoopEnds BeforeMember (fun p => p.later.length - 1) aliasRound aliasLines := by
  refine loopEnds_of_rounds (fun n p hp => aliasLines_round n hp) fun {p q} hp hround => ?_
  obtain ⟨r, hr⟩ := exists_nextLine hp.continues
  obtain ⟨hpasses, -, hlt⟩ := passes_nextLine hp.valid hp.at_end hr
  have hset : Runs (· = p) (set (p.nextLine?.getD p) : DocM Unit) (fun _ => Adds r) fun q => True ∧
      Keeps r q := by
    rw [hr]
    exact fun _ _ => .refl hpasses.valid
  have hrun : Runs (· = p) (memberLine p) (fun _ => Ends r) fun q => True ∧ Keeps r q :=
    hset.bind fun _ => (sound_aliasMember r).bind fun _ => runs_needLineEnd r
  obtain ⟨s, hs, hnext⟩ := exists_of_goesOn hround
  obtain ⟨hcontinues, rfl⟩ : s.nextLineContinues = true ∧ s = q := by simpa using hnext
  have hends := hrun p rfl
  rw [hs] at hends
  obtain ⟨hadds, hend⟩ := hends
  obtain ⟨next, hnext⟩ := exists_nextLine hcontinues
  obtain ⟨-, -, hpos⟩ := passes_nextLine hadds.valid hend hnext
  have hle := later_le_of_adds hadds
  exact ⟨⟨hadds.valid, hend, hcontinues⟩, by omega⟩

/-- A round of the lines of a comment group: another line, and whether there is a further one. -/
def lineRound (p : DocParser) : DocParser ⊕ Outcome Unit := goesOn (·.nextLine?) (line p)

theorem lines_round (n : Nat) (p : DocParser) :
    lines (n + 1) p = Sum.elim (lines n) id (lineRound p) := by
  rw [lines, bind_apply, lineRound]
  cases line p with
  | error e q => rfl
  | ok _ q =>
    have hget : (get : DocM DocParser) q = .ok q q := rfl
    dsimp only [goesOn]
    rw [bind_apply, hget]
    dsimp only
    cases q.nextLine? with
    | none => rfl
    | some r => rfl

theorem lines_end : LoopEnds Valid (fun p => p.later.length) lineRound lines := by
  refine loopEnds_of_rounds (fun n p _ => lines_round n p) fun {p r} hp hround => ?_
  have hline := runs_line p p (.refl hp)
  obtain ⟨q, hq, hnext⟩ := exists_of_goesOn hround
  rw [hq] at hline
  obtain ⟨hadds, hend⟩ := hline
  obtain ⟨hpasses, -, hlt⟩ := passes_nextLine hadds.valid hend hnext
  exact ⟨hpasses.valid, Nat.lt_of_lt_of_le hlt (later_le_of_adds hadds)⟩

/-- The loops of the annotation grammar. What is inside types has a count of its own. -/
structure LoopsEnd : Prop where
  lines : LoopEnds Valid (fun p => p.later.length) lineRound lines
  aliasLines : LoopEnds BeforeMember (fun p => p.later.length - 1) aliasRound aliasLines
  names : CommaLoop (expect .name)
  genericParams : CommaLoop genericParam
  results : CommaLoop namedResult
  versions : CommaLoop version
  types : CommaLoop DocType.type
  operands : CommaLoop (nested DocType.type)
  unions : ∀ i, DocLoop (unionStep (DocType.single i))
  marks : LoopEnds (fun s => s.2.Valid) (fun s => s.2.left) markRound fun n s => marks n s.1 s.2
  typeArgs : ∀ i, CommaLoop (typeWithin i)
  funParams : ∀ i, CommaLoop (funParam (typeWithin i))
  funResults : ∀ i, CommaLoop (nested (typeWithin i))
  objectFields : ∀ i, DocLoop (objectStep (typeWithin i))

theorem loopsEnd : LoopsEnd where
  lines := lines_end
  aliasLines := aliasLines_end
  names := commaLoop_of_alike fun _ => alike_expect _
  genericParams := commaLoop_of_alike fun _ => alike_genericParam
  results := commaLoop_of_alike fun _ => alike_namedResult
  versions := commaLoop_of_alike fun _ => alike_version
  types := commaLoop_of_alike fun _ => alike_type
  operands := commaLoop_of_alike fun _ => alike_type.nested
  unions _ := docLoop_of_alike fun _ => alikeStep_union (alike_single (.inl rfl))
  marks := marks_end
  typeArgs _ := commaLoop_of_alike fun _ => alike_typeWithin (.inl rfl)
  funParams _ := commaLoop_of_alike fun _ => alike_funParam (alike_typeWithin (.inl rfl))
  funResults _ := commaLoop_of_alike fun _ => (alike_typeWithin (.inl rfl)).nested
  objectFields _ := docLoop_of_alike fun _ => alikeStep_object (alike_typeWithin (.inl rfl))

/-- Reading annotations ends. A type that is inside another one is entered only where less of the
line is left, and what is read does not depend on how many of them, or of the lines, there may
be. -/
structure Ends : Prop where
  loops : LoopsEnd
  inward : ∀ {n single single'}, ReadsAlike n single single' →
    ReadsAlike (n + 1) (around single) (around single')
  types : ∀ {p i}, Valid p → p.bound ≤ i → typeWithin i p = DocType.type p
  lines : ∀ {p n}, Valid p → p.later.length < n → lines n p = lines (p.later.length + 1) p

theorem ends : Ends where
  loops := loopsEnd
  inward := alike_around
  types {p i} hp hi := by
    have hreads : ReadsAlike p.bound (typeWithin p.bound) (typeWithin i) :=
      alike_typeWithin (.inr ⟨Nat.le_refl _, hi⟩)
    exact (hreads p hp (left_lt_bound hp)).eq
  lines hp hn := (lines_end.ends hp hn).unique (lines_end.ends hp (Nat.lt_succ_self _))

end Doc

/-- Reading ends for every text: each loop and each way back into the grammar takes something up,
and the tree of a text is what any larger bound would give. -/
theorem reading_ends : Grammar.Ends ∧ Doc.Ends ∧ ∀ text extra,
    let (tokens, errors) := Lexer.tokenize text
    let p := Grammar.chunk ((Parser.ofTokens text tokens).withBound (tokens.length + extra))
    parse text = Tree.ofLog text p.log errors := by
  refine ⟨Grammar.ends, Doc.ends, fun text extra => ?_⟩
  have hlog := Grammar.ends.defined text (Lexer.tokenize text).1 _ (Nat.le_add_right _ extra)
  exact congrArg (Tree.ofLog text · (Lexer.tokenize text).2) hlog.symm

end LuaAnalysis.Syntax
