import LuaAnalysis.Proofs.Syntax.DocTokens
import LuaAnalysis.Proofs.Syntax.Replay
import LuaAnalysis.Syntax.Grammar.Doc

/-!
Where the reader of annotations stands, and what its steps leave behind: tokens that cover all that
was passed over, apart from blanks.
-/

namespace LuaAnalysis.Syntax

/-- Tokens of which nothing is left over but blanks, in characters the first of which has the offset
`start`. -/
inductive Covers : Nat → List Char → List Token → Prop where
  | nil (start : Nat) : Covers start [] []
  | blank {start : Nat} {c : Char} {cs : List Char} {tokens : List Token}
      (hc : Text.isBlank c = true) (h : Covers (start + c.utf8Size) cs tokens) :
      Covers start (c :: cs) tokens
  | token {start : Nat} {chars cs : List Char} {kind : TokenKind} {tokens : List Token}
      (hne : chars ≠ []) (h : Covers (start + Text.byteLength chars) cs tokens) :
      Covers start (chars ++ cs) (⟨kind, ⟨start, start + Text.byteLength chars⟩⟩ :: tokens)

theorem Covers.blanks {start : Nat} {blanks cs : List Char} {tokens : List Token}
    (hblanks : ∀ c ∈ blanks, Text.isBlank c = true)
    (h : Covers (start + Text.byteLength blanks) cs tokens) :
    Covers start (blanks ++ cs) tokens := by
  induction blanks generalizing start with
  | nil => simpa using h
  | cons c blanks ih =>
    obtain ⟨hc, hrest⟩ := List.forall_mem_cons.1 hblanks
    refine .blank hc (ih hrest ?_)
    rwa [Text.byteLength_cons, ← Nat.add_assoc] at h

def IsComment (text : String) (span : Span) : Prop := ∃ r, Text.IsPiece text span ('-' :: '-' :: r)

/-- The characters of a comment, without the bracket that closes a long one. -/
def commentBody (text : String) (line : Span) : List Char :=
  (DocLexer.ofComment text line).cursor.rest

/-- Tokens that cover comments, one after the other. -/
def CoversLines (text : String) : List Span → List Token → Prop
  | [], tokens => tokens = []
  | line :: lines, tokens => ∃ here behind, tokens = here ++ behind ∧
      Covers line.start (commentBody text line) here ∧ CoversLines text lines behind

namespace DocParser

/-- The characters from the token at hand to the end of the comment. -/
def region (p : DocParser) : List Char :=
  (Text.slice p.text ⟨p.current.span.start, p.lexer.cursor.stop⟩).toList

/-- The token at hand stands right before the lexer, and is missing only at the end of the
comment. -/
structure Holds (text : String) (token : Token) (cursor : Cursor) (chars : List Char) : Prop where
  piece : Text.IsPiece text ⟨token.span.start, cursor.stop⟩ (chars ++ cursor.rest)
  stop_eq : token.span.stop = token.span.start + Text.byteLength chars
  pos_eq : cursor.pos = token.span.stop
  ne_nil : token.kind ≠ .docLineEnd → chars ≠ []
  at_end : token.kind = .docLineEnd → chars = [] ∧ cursor.rest = []

structure Valid (p : DocParser) : Prop where
  lexer : p.lexer.Valid
  mode : p.lexer.mode ≠ .init
  text_eq : p.lexer.cursor.text = p.text
  stop_eq : p.lexer.cursor.stop = (DocLexer.ofComment p.text p.line).cursor.stop
  current : ∃ chars, Holds p.text p.current p.lexer.cursor chars
  lines : ∀ line ∈ p.line :: p.later, IsComment p.text line

def Completes (p : DocParser) (tokens : List Token) : Prop :=
  ∃ here behind, tokens = here ++ behind ∧ Covers p.current.span.start p.region here ∧
    CoversLines p.text p.later behind

variable {p q r : DocParser}

theorem region_eq {chars : List Char} (h : Holds p.text p.current p.lexer.cursor chars) :
    p.region = chars ++ p.lexer.cursor.rest := h.piece.slice_eq

def atNext (p : DocParser) (l : DocLexer) : DocParser :=
  { p with current := l.next.1, lexer := l.next.2 }

theorem holds_next {l : DocLexer} (hl : l.Valid) (htext : l.cursor.text = p.text) :
    ∃ blanks chars, l.cursor.rest = blanks ++ (chars ++ l.next.2.cursor.rest) ∧
      (∀ c ∈ blanks, Text.isBlank c = true) ∧
      l.next.1.span.start = l.cursor.pos + Text.byteLength blanks ∧
      Holds p.text l.next.1 l.next.2.cursor chars := by
  obtain ⟨hfinds, hspan, -⟩ := DocLexer.finds_next hl
  obtain ⟨blanks, chars, hrest, hblanks, hstart, hpos, hne, hend⟩ := hfinds.exists_split
  have hpiece : Text.IsPiece l.cursor.text ⟨l.cursor.pos, l.cursor.stop⟩
      (blanks ++ (chars ++ l.next.2.cursor.rest)) := by
    rw [← List.append_assoc, ← hrest]
    exact hl.cursor
  refine ⟨blanks, chars, by rw [hrest, List.append_assoc], hblanks, ?_, ?_, ?_, ?_, hne, hend⟩
  · rw [hspan]
    exact hstart
  · rw [hspan, hfinds.stop_eq, ← htext]
    show Text.IsPiece _ ⟨l.next.2.cursor.start, _⟩ _
    rw [hstart]
    exact hpiece.split.2
  · rw [hspan]
    exact hpos
  · rw [hspan]
    rfl

theorem valid_atNext {l : DocLexer} (hl : l.Valid) (htext : l.cursor.text = p.text)
    (hstop : l.cursor.stop = (DocLexer.ofComment p.text p.line).cursor.stop)
    (hlines : ∀ line ∈ p.line :: p.later, IsComment p.text line) : (p.atNext l).Valid := by
  obtain ⟨hfinds, -, hmode⟩ := DocLexer.finds_next hl
  obtain ⟨blanks, chars, -, -, -, hholds⟩ := holds_next (p := p) hl htext
  exact ⟨hl.next, hmode, hfinds.text_eq.trans htext, hfinds.stop_eq.trans hstop,
    ⟨chars, hholds⟩, hlines⟩

theorem covers_atNext {l : DocLexer} (hl : l.Valid) (htext : l.cursor.text = p.text)
    {tokens : List Token} (h : Covers (p.atNext l).current.span.start (p.atNext l).region tokens) :
    Covers l.cursor.pos l.cursor.rest tokens := by
  obtain ⟨blanks, chars, hrest, hblanks, hstart, hholds⟩ := holds_next (p := p) hl htext
  have hregion : (p.atNext l).region = chars ++ l.next.2.cursor.rest :=
    region_eq (p := p.atNext l) hholds
  rw [hrest]
  refine .blanks hblanks ?_
  rw [hregion] at h
  exact hstart ▸ h

theorem Valid.withLog (hp : p.Valid) (log : EventLog) : Valid { p with log := log } :=
  ⟨hp.lexer, hp.mode, hp.text_eq, hp.stop_eq, hp.current, hp.lines⟩

theorem Valid.withDepth (hp : p.Valid) (depth : Nat) : Valid { p with depth := depth } :=
  ⟨hp.lexer, hp.mode, hp.text_eq, hp.stop_eq, hp.current, hp.lines⟩

/-- What one place leaves to be covered more than another are the tokens between them. -/
structure Passes (p : DocParser) (tokens : List Token) (q : DocParser) : Prop where
  valid : q.Valid
  text_eq : q.text = p.text
  later_le : q.later.length ≤ p.later.length
  completes : ∀ {more}, q.Completes more → p.Completes (tokens ++ more)

theorem Passes.refl (hp : p.Valid) : Passes p [] p := ⟨hp, rfl, Nat.le_refl _, id⟩

theorem Passes.trans {xs ys : List Token} (h : Passes p xs q) (h' : Passes q ys r) :
    Passes p (xs ++ ys) r where
  valid := h'.valid
  text_eq := h'.text_eq.trans h.text_eq
  later_le := h'.later_le.trans h.later_le
  completes := fun hr => by
    rw [List.append_assoc]
    exact h.completes (h'.completes hr)

theorem Passes.withLog {tokens : List Token} (h : Passes p tokens q) (log : EventLog) :
    Passes p tokens { q with log := log } :=
  ⟨h.valid.withLog log, h.text_eq, h.later_le, h.completes⟩

theorem Passes.ofLog {tokens : List Token} {log : EventLog}
    (h : Passes { p with log := log } tokens q) : Passes p tokens q :=
  ⟨h.valid, h.text_eq, h.later_le, h.completes⟩

theorem Passes.withDepth {tokens : List Token} (h : Passes p tokens q) (depth : Nat) :
    Passes p tokens { q with depth := depth } :=
  ⟨h.valid.withDepth depth, h.text_eq, h.later_le, h.completes⟩

theorem kind_atNext_of_rest {l : DocLexer} (hl : l.Valid) (hrest : l.cursor.rest = []) :
    (p.atNext l).kind = .docLineEnd :=
  DocLexer.kind_next_of_rest hl hrest

theorem kind_bump (p : DocParser) : p.bump.kind = p.lexer.next.1.kind := by
  unfold bump
  dsimp only
  split <;> rfl

theorem passes_bump (hp : p.Valid) (hkind : p.kind ≠ .docLineEnd) :
    Passes p [p.current] p.bump := by
  obtain ⟨chars, hholds⟩ := hp.current
  have hbump : p.bump = ({ p with log := p.log.push (.token p.current.kind p.current.span) } :
      DocParser).atNext p.lexer := by
    simp [bump, sees, hkind, atNext]
  rw [hbump]
  refine ⟨valid_atNext hp.lexer hp.text_eq hp.stop_eq hp.lines, rfl, Nat.le_refl _, ?_⟩
  rintro more ⟨here, behind, rfl, hhere, hbehind⟩
  have hrest := covers_atNext hp.lexer (p := { p with log := _ }) hp.text_eq hhere
  have hspan : p.current.span = ⟨p.current.span.start,
      p.current.span.start + Text.byteLength chars⟩ := by
    rw [← hholds.stop_eq]
  refine ⟨p.current :: here, behind, rfl, ?_, hbehind⟩
  rw [region_eq hholds]
  rw [hholds.pos_eq, hholds.stop_eq] at hrest
  have hcovers : Covers p.current.span.start (chars ++ p.lexer.cursor.rest)
      (⟨p.current.kind, _⟩ :: here) :=
    .token (hholds.ne_nil hkind) hrest
  rwa [← hspan] at hcovers

theorem bump_at_end (hp : p.Valid) (hkind : p.kind = .docLineEnd) :
    Passes p [] p.bump ∧ p.bump.log = p.log ∧ p.bump.kind = .docLineEnd := by
  obtain ⟨chars, hholds⟩ := hp.current
  obtain ⟨rfl, hrest⟩ := hholds.at_end hkind
  have hbump : p.bump = p.atNext p.lexer := by simp [bump, sees, hkind, atNext]
  rw [hbump]
  refine ⟨⟨valid_atNext hp.lexer hp.text_eq hp.stop_eq hp.lines, rfl, Nat.le_refl _, ?_⟩, rfl,
    kind_atNext_of_rest hp.lexer hrest⟩
  rintro more ⟨here, behind, rfl, hhere, hbehind⟩
  refine ⟨here, behind, rfl, ?_, hbehind⟩
  have hcovers := covers_atNext hp.lexer hp.text_eq hhere
  rw [hholds.pos_eq, hholds.stop_eq] at hcovers
  rw [region_eq hholds]
  simpa using hcovers

def reset (p : DocParser) : DocLexer := p.lexer.resetTo p.current.span.start .description

theorem reset_spec (hp : p.Valid) : p.reset.Valid ∧ p.reset.cursor.text = p.text ∧
    p.reset.cursor.stop = p.lexer.cursor.stop ∧ p.reset.cursor.pos = p.current.span.start ∧
    p.reset.cursor.rest = p.region := by
  obtain ⟨chars, hholds⟩ := hp.current
  have hle : p.current.span.start ≤ p.lexer.cursor.stop := by
    have := hholds.piece.stop_eq
    simp only at this
    omega
  have hpos : p.reset.cursor.pos = p.current.span.start := by
    simp [reset, DocLexer.resetTo, Cursor.resetTo, Cursor.moveTo, hle]
  have hrest : p.reset.cursor.rest = p.region := by
    simp [reset, DocLexer.resetTo, Cursor.resetTo, Cursor.moveTo, hle, region, hp.text_eq]
  refine ⟨⟨?_, by simp [reset, DocLexer.resetTo]⟩, ?_, ?_, hpos, hrest⟩
  · rw [Cursor.Valid, hpos, hrest, region_eq hholds]
    simpa [reset, DocLexer.resetTo, Cursor.resetTo, Cursor.moveTo, hp.text_eq] using hholds.piece
  · simpa [reset, DocLexer.resetTo, Cursor.resetTo, Cursor.moveTo] using hp.text_eq
  · simp [reset, DocLexer.resetTo, Cursor.resetTo, Cursor.moveTo]

theorem next_reset (p : DocParser) : p.reset.next =
    (⟨(DocLexer.remainder .docDescription .description p.reset.cursor).1,
      (DocLexer.remainder .docDescription .description p.reset.cursor).2.1.span⟩,
      ⟨(DocLexer.remainder .docDescription .description p.reset.cursor).2.1,
        (DocLexer.remainder .docDescription .description p.reset.cursor).2.2⟩) := by
  simp [DocLexer.next, reset, DocLexer.resetTo]

theorem switch_of_ne (hkind : p.kind ≠ .docLineEnd) : p.switchToDescription = p.atNext p.reset := by
  simp [switchToDescription, sees, hkind, atNext, reset]

theorem switch_at_end (hkind : p.kind = .docLineEnd) : p.switchToDescription = p := by
  simp [switchToDescription, sees, hkind]

theorem switchToDescription_spec (hp : p.Valid) :
    Passes p [] p.switchToDescription ∧ p.switchToDescription.log = p.log ∧
      (p.switchToDescription.kind = .docLineEnd ∨
        p.switchToDescription.kind = .docDescription ∧
        p.switchToDescription.lexer.cursor.rest = []) := by
  by_cases hkind : p.kind = .docLineEnd
  · rw [switch_at_end hkind]
    exact ⟨.refl hp, rfl, .inl hkind⟩
  obtain ⟨hvalid, htext, hstop, hpos, hrest⟩ := reset_spec hp
  rw [switch_of_ne hkind]
  refine ⟨⟨valid_atNext hvalid htext (hstop.trans hp.stop_eq) hp.lines, rfl,
    Nat.le_refl _, ?_⟩, rfl, ?_⟩
  · rintro more ⟨here, behind, rfl, hhere, hbehind⟩
    refine ⟨here, behind, rfl, ?_, hbehind⟩
    rw [← hrest, ← hpos]
    exact covers_atNext hvalid htext hhere
  · have hnext := next_reset p
    simp only [atNext, kind, hnext]
    exact (DocLexer.kind_remainder _ _ _).imp_right fun h =>
      ⟨h, DocLexer.rest_remainder _ _ hvalid.cursor⟩

theorem kind_next_of_switch (hp : p.Valid) :
    p.switchToDescription.lexer.next.1.kind = .docLineEnd := by
  obtain ⟨hpasses, -, hend⟩ := switchToDescription_spec hp
  rcases hend with hend | ⟨-, hrest⟩
  · rw [← kind_bump]
    exact (bump_at_end hpasses.valid hend).2.2
  · exact kind_atNext_of_rest (p := p) hpasses.valid.lexer hrest

theorem completes_at_end (hp : p.Valid) (hkind : p.kind = .docLineEnd) {tokens : List Token} :
    p.Completes tokens ↔ CoversLines p.text p.later tokens := by
  obtain ⟨chars, hholds⟩ := hp.current
  obtain ⟨rfl, hrest⟩ := hholds.at_end hkind
  have hregion : p.region = [] := by rw [region_eq hholds, hrest, List.append_nil]
  constructor
  · rintro ⟨here, behind, rfl, hhere, hbehind⟩
    rw [hregion] at hhere
    generalize hnil : ([] : List Char) = cs at hhere
    cases hhere with
    | nil => exact hbehind
    | blank => cases hnil
    | token hne => exact absurd (List.append_eq_nil_iff.1 hnil.symm).1 hne
  · intro h
    exact ⟨[], tokens, rfl, hregion ▸ .nil _, h⟩

section Lines

variable (p : DocParser) (text : String) (log : EventLog) (line : Span) (later : List Span)

theorem atLine_eq : p.atLine line later =
    ({ p with line := line, later := later } : DocParser).atNext
    (DocLexer.ofComment p.text line) := by
  rw [atLine, atNext]

@[simp] theorem atLine_text : (p.atLine line later).text = p.text := by rw [atLine_eq]; rfl

@[simp] theorem atLine_log : (p.atLine line later).log = p.log := by rw [atLine_eq]; rfl

@[simp] theorem atLine_later : (p.atLine line later).later = later := by rw [atLine_eq]; rfl

@[simp] theorem atLine_depth : (p.atLine line later).depth = p.depth := by rw [atLine_eq]; rfl

@[simp] theorem ofLines_text : (ofLines text log line later).text = text := by rw [ofLines]

@[simp] theorem ofLines_log : (ofLines text log line later).log = log := by rw [ofLines]

@[simp] theorem ofLines_later : (ofLines text log line later).later = later := by rw [ofLines]

theorem atLine_ofLines : (ofLines text log line later).atLine line later =
    ofLines text log line later := by
  rw [atLine_eq, ofLines_text, ofLines, atNext]

end Lines

theorem atLine_spec {line : Span} {later : List Span}
    (hlines : ∀ l ∈ line :: later, IsComment p.text l) : (p.atLine line later).Valid ∧
    ∀ {tokens}, (p.atLine line later).Completes tokens →
      CoversLines p.text (line :: later) tokens := by
  obtain ⟨r, hpiece⟩ := hlines line (by simp)
  obtain ⟨body, closer, -, hvalid, htext, hpos, hrest⟩ := DocLexer.ofComment_spec hpiece
  rw [atLine_eq]
  refine ⟨valid_atNext hvalid htext rfl hlines, ?_⟩
  rintro tokens ⟨here, behind, rfl, hhere, hbehind⟩
  refine ⟨here, behind, rfl, ?_, hbehind⟩
  rw [commentBody, ← hpos]
  exact covers_atNext (p := { p with line := line, later := later }) hvalid htext hhere

theorem ofLines_spec {text : String} {first : Span} {later : List Span}
    (hlines : ∀ l ∈ first :: later, IsComment text l) (log : EventLog) :
    (ofLines text log first later).Valid ∧ ∀ {tokens},
      (ofLines text log first later).Completes tokens →
      CoversLines text (first :: later) tokens := by
  have hfirst : ∀ l ∈ first :: later, IsComment (ofLines text log first later).text l := by
    rwa [ofLines_text]
  have hspec := atLine_spec hfirst
  rwa [atLine_ofLines, ofLines_text] at hspec

theorem passes_nextLine (hp : p.Valid) (hkind : p.kind = .docLineEnd) (h : p.nextLine? = some q) :
    Passes p [] q ∧ q.log = p.log ∧ q.later.length < p.later.length := by
  unfold nextLine? at h
  split at h
  · rename_i line later hlater
    obtain rfl := Option.some.inj h
    have hlines : ∀ l ∈ line :: later, IsComment p.text l :=
      fun l hl => hp.lines l (List.mem_cons_of_mem _ (hlater ▸ hl))
    obtain ⟨hvalid, hcompletes⟩ := atLine_spec hlines
    refine ⟨⟨hvalid, by simp, by simp [hlater], fun hmore => ?_⟩, by simp, by simp [hlater]⟩
    rw [List.nil_append, completes_at_end hp hkind, hlater]
    exact hcompletes hmore
  · cases h

/-- Something failed behind a place, and left in the log what stood there. -/
structure Keeps (p q : DocParser) : Prop where
  text_eq : q.text = p.text
  log_eq : ∃ events, q.log.toList = p.log.toList ++ events

theorem take_of_append {log log' : EventLog} {events : List Event}
    (h : log'.toList = log.toList ++ events) : log'.take log.size = log := by
  rw [← Array.toList_inj, Array.take_eq_extract, Array.toList_extract, h, ← Array.length_toList]
  simp

theorem rollback_checkpoint (hp : p.Valid) (h : Keeps p q) :
    q.rollback p.checkpoint = { p with depth := q.depth } := by
  obtain ⟨events, hlog⟩ := h.log_eq
  have hlexer : (DocLexer.ofComment p.text p.line).restore p.lexer.checkpoint = p.lexer :=
    DocLexer.restore_checkpoint hp.lexer hp.text_eq.symm hp.stop_eq.symm
  simp only [rollback, checkpoint, h.text_eq, hlexer, take_of_append hlog]

end DocParser

end LuaAnalysis.Syntax
