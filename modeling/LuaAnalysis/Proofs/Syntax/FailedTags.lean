import LuaAnalysis.Proofs.Syntax.DocAttempts

/-!
A tag that fails is one node in the log, of no special kind, which holds the word of the tag, the
fault and what is left of the line. Apart from that node the log is what it was in front of the tag.
-/

namespace LuaAnalysis.Syntax

open DocParser

/-- Characters as free text: a description of all of them but the blanks in front, if there are any
others. -/
def textEvents (start stop : Nat) (chars : List Char) : List Event :=
  if chars.all Text.isBlank then []
  else [.start .docDescription none,
    .token .docDescription ⟨start + Text.byteLength (chars.takeWhile Text.isBlank), stop⟩, .finish]

theorem textEvents_blanks {blanks : List Char} (hblanks : ∀ c ∈ blanks, Text.isBlank c = true)
    (start stop : Nat) (chars : List Char) :
    textEvents start stop (blanks ++ chars) =
    textEvents (start + Text.byteLength blanks) stop chars := by
  have hall : blanks.all Text.isBlank = true := List.all_eq_true.2 hblanks
  rw [textEvents, textEvents, List.all_append, hall, Bool.true_and,
    List.takeWhile_append_of_pos hblanks, Text.byteLength_append, Nat.add_assoc]

namespace DocLexer

open Cursor

theorem remainder_eq {c : Cursor} (hc : c.Valid) (kind : TokenKind) (mode : DocMode) :
    if c.rest.all Text.isBlank then (remainder kind mode c).1 = .docLineEnd
    else (remainder kind mode c).1 = kind ∧
      (remainder kind mode c).2.1.span =
      ⟨c.pos + Text.byteLength (c.rest.takeWhile Text.isBlank), c.stop⟩ := by
  have hreads := reads_skipWhile c Text.isBlank
  have hvalid := (hc.reads hreads).mark
  have hend : (c.skipWhile Text.isBlank).mark.atEnd = c.rest.all Text.isBlank := by
    rw [Bool.eq_iff_iff, hvalid.atEnd_iff, List.all_eq_true]
    exact List.dropWhile_eq_nil_iff
  have hafter := reads_skipWhile (c.skipWhile Text.isBlank).mark fun _ => true
  have hrest : ((c.skipWhile Text.isBlank).mark.skipWhile fun _ => true).rest = [] := by
    simp [skipWhile, eatWhile, List.dropWhile_eq_nil_iff]
  have hstop : c.stop = ((c.skipWhile Text.isBlank).mark.skipWhile fun _ => true).pos := by
    have hpiece : _ = _ := (hvalid.reads hafter).stop_eq
    rwa [hrest, Text.byteLength_nil, Nat.add_zero, hafter.stop_eq] at hpiece
  unfold remainder
  dsimp only
  rw [hend]
  split
  · rfl
  · exact ⟨rfl, by rw [span, hafter.start_eq, ← hstop, ← hreads.pos_eq]; rfl⟩

end DocLexer

namespace DocParser

variable {p q : DocParser} {e : SyntaxError}

theorem toList_finish {events : List Event} (h : q.log.toList = p.openNode.1.log.toList ++ events)
    (kind : NodeKind) : (q.finish p.openNode.2 kind).log.toList = p.log.toList ++
    .start kind none :: (events ++ [.finish]) := by
  have hblank : q.log.toList = p.log.toList ++ .blank :: events := by
    rw [h, DocParser.openNode, EventLog.toList_openNode, List.append_assoc]
    rfl
  have hmarker : p.openNode.2 = ⟨p.log.toList.length⟩ := by
    rw [Marker.mk.injEq, DocParser.openNode, EventLog.position_openNode, Array.length_toList]
  simp only [hmarker, finish, close, EventLog.close, EventLog.setKind, Array.toList_push,
    EventLog.toList_modify_of_eq hblank]
  simp [Event.blank]

theorem toList_bump (hkind : p.kind ≠ .docLineEnd) :
    p.bump.log.toList = p.log.toList ++ [.token p.kind p.current.span] := by
  have hsees : p.sees .docLineEnd = false := by simp [sees, hkind]
  simp [bump, hsees, kind]

theorem current_switch (hp : p.Valid) (hkind : p.kind ≠ .docLineEnd) :
    if p.region.all Text.isBlank then p.switchToDescription.kind = .docLineEnd
    else p.switchToDescription.current = ⟨.docDescription,
      ⟨p.current.span.start + Text.byteLength (p.region.takeWhile Text.isBlank),
        p.lexer.cursor.stop⟩⟩ := by
  obtain ⟨hvalid, -, hstop, hpos, hrest⟩ := reset_spec hp
  have htext := DocLexer.remainder_eq hvalid.cursor .docDescription .description
  rw [hrest, hpos, hstop] at htext
  rw [kind, switch_of_ne hkind, atNext, next_reset]
  dsimp only
  split
  · rename_i hblank
    rwa [if_pos hblank] at htext
  · rename_i hblank
    rw [if_neg hblank] at htext
    rw [htext.1, htext.2]

theorem toList_freeText (hp : p.Valid) : p.freeText.log.toList =
    p.log.toList ++ textEvents p.current.span.start p.lexer.cursor.stop p.region := by
  obtain ⟨-, hlog, -⟩ := switchToDescription_spec hp
  have hnone (hend : p.switchToDescription.kind = .docLineEnd) : p.freeText.log = p.log := by
    unfold freeText
    simp [sees, hend, hlog]
  by_cases hkind : p.kind = .docLineEnd
  · obtain ⟨chars, hholds⟩ := hp.current
    obtain ⟨rfl, hrest⟩ := hholds.at_end hkind
    have hregion : p.region = [] := by rw [region_eq hholds, hrest, List.append_nil]
    rw [hnone (by rwa [switch_at_end hkind]), hregion, textEvents]
    simp
  · have hcurrent := current_switch hp hkind
    rw [textEvents]
    split
    · rename_i hblank
      rw [if_pos hblank] at hcurrent
      rw [hnone hcurrent, List.append_nil]
    · rename_i hblank
      rw [if_neg hblank] at hcurrent
      have hsees : p.switchToDescription.sees .docDescription = true := by
        rw [sees, kind, hcurrent]; rfl
      have htoken := toList_bump (p := p.switchToDescription.openNode.1)
        (show p.switchToDescription.kind ≠ .docLineEnd by
          rw [kind, hcurrent]
          simp)
      have hspan : p.switchToDescription.openNode.1.current = p.switchToDescription.current := rfl
      unfold freeText
      dsimp only
      rw [if_pos hsees, toList_finish htoken, hlog, kind, hspan, hcurrent]
      rfl

theorem toList_recover (hp : p.Valid) (e : SyntaxError) : (p.recover e).log.toList =
    p.log.toList ++ .fault e.fault e.span ::
    textEvents p.current.span.start p.lexer.cursor.stop p.region := by
  have hfree := toList_freeText (hp.withLog (p.log.report e.fault e.span))
  dsimp only at hfree
  rw [EventLog.toList_report, List.append_assoc] at hfree
  exact hfree

/-- What is behind the token at hand on its line. -/
def behind (p : DocParser) : List Char :=
  (Text.slice p.text ⟨p.current.span.stop, p.lexer.cursor.stop⟩).toList

theorem behind_eq (hp : p.Valid) : p.behind = p.lexer.cursor.rest := by
  obtain ⟨chars, hholds⟩ := hp.current
  have hpiece := hholds.piece.split.2
  dsimp only at hpiece
  rw [← hholds.stop_eq] at hpiece
  exact hpiece.slice_eq

/-- A tag of no special kind: its word, a fault and the rest of its line. -/
def failedTagEvents (p : DocParser) (e : SyntaxError) : List Event :=
  .start .docTagOther none :: .token p.kind p.current.span :: .fault e.fault e.span ::
    (textEvents p.current.span.stop p.lexer.cursor.stop p.behind ++ [.finish])

theorem textEvents_bump (hp : p.Valid) :
    textEvents p.bump.current.span.start p.bump.lexer.cursor.stop p.bump.region =
    textEvents p.current.span.stop p.lexer.cursor.stop p.behind := by
  obtain ⟨log, hbump⟩ := bump_eq p
  obtain ⟨_, hholds⟩ := hp.current
  obtain ⟨blanks, chars, hrest, hblanks, hstart, hnext⟩ := holds_next (p := p) hp.lexer hp.text_eq
  obtain ⟨hfinds, -⟩ := DocLexer.finds_next hp.lexer
  have hregion : p.bump.region = chars ++ p.lexer.next.2.cursor.rest := by
    rw [hbump]
    exact region_eq (p := p.atNext p.lexer) hnext
  have hplace : p.bump.current = p.lexer.next.1 ∧ p.bump.lexer = p.lexer.next.2 := by
    rw [hbump]
    exact ⟨rfl, rfl⟩
  rw [behind_eq hp, hrest, textEvents_blanks hblanks, hregion, hplace.1, hplace.2, hstart,
    hfinds.stop_eq, hholds.pos_eq]

theorem toList_failedTag (hp : p.Valid) (hkind : p.kind ≠ .docLineEnd) (e : SyntaxError) :
    ((p.openNode.1.bump.recover e).finish p.openNode.2 .docTagOther).log.toList = p.log.toList ++
    failedTagEvents p e := by
  have hopen := valid_openNode hp
  have htext : (p.openNode.1.bump.recover e).log.toList = p.openNode.1.log.toList ++
      (.token p.kind p.current.span :: .fault e.fault e.span ::
        textEvents p.current.span.stop p.lexer.cursor.stop p.behind) := by
    rw [toList_recover (adds_bump hopen).valid, textEvents_bump hopen,
      toList_bump (p := p.openNode.1) hkind, List.append_assoc]
    rfl
  rw [toList_finish htext, failedTagEvents]
  rfl

theorem line_bump (p : DocParser) : p.bump.line = p.line ∧ p.bump.later = p.later := by
  obtain ⟨log, hbump⟩ := bump_eq p
  rw [hbump]
  exact ⟨rfl, rfl⟩

theorem line_switch (p : DocParser) : p.switchToDescription.line = p.line ∧
    p.switchToDescription.later = p.later := by
  unfold switchToDescription
  split
  · exact ⟨rfl, rfl⟩
  · exact ⟨rfl, rfl⟩

theorem line_freeText (p : DocParser) : p.freeText.line = p.line ∧ p.freeText.later = p.later := by
  obtain ⟨hline, hlater⟩ := line_switch p
  unfold freeText
  dsimp only
  split
  · obtain ⟨hline', hlater'⟩ := line_bump p.switchToDescription.openNode.1
    exact ⟨hline'.trans hline, hlater'.trans hlater⟩
  · exact ⟨hline, hlater⟩

theorem failedTag_place (hp : p.Valid) (e : SyntaxError) :
    let r := (p.openNode.1.bump.recover e).finish p.openNode.2 .docTagOther
    r.kind = .docLineEnd ∧ r.line = p.line ∧ r.later = p.later ∧ r.depth = p.depth := by
  have hopen := valid_openNode hp
  have hend := (ends_recover (adds_bump hopen).valid e).2
  have hdepth := (stays_recover (stays_bump (.refl hopen)) e).depth_eq
  obtain ⟨hline, hlater⟩ := line_bump p.openNode.1
  obtain ⟨hline', hlater'⟩ : (p.openNode.1.bump.recover e).line = _ ∧
      (p.openNode.1.bump.recover e).later = _ :=
    line_freeText (p.openNode.1.bump.report e.fault e.span)
  generalize p.openNode.1.bump.recover e = r at hend hdepth hline' hlater' ⊢
  exact ⟨hend, hline'.trans hline, hlater'.trans hlater, hdepth⟩

end DocParser

namespace Doc

open DocM DocType

variable {text : String} {comments : List Span} {log : EventLog} {p q : DocParser}

/-- Where a line is begun when the annotations of comments are read. -/
inductive LineAt (text : String) (comments : List Span) (log : EventLog) : DocParser → Prop where
  | first {first : Span} {later : List Span} (h : comments = first :: later) :
    LineAt text comments log (.ofLines text log first later)
  | next {p q r : DocParser} (hp : LineAt text comments log p) (hline : line p = .ok () q)
    (hnext : q.nextLine? = some r) : LineAt text comments log r

def TagAt (text : String) (comments : List Span) (log : EventLog) (p : DocParser) : Prop :=
  ∃ s, LineAt text comments log s ∧ lineStart s = .ok () p ∧ p.kind.isTag = true

/-- Where a member on a line behind an alias is tried. -/
inductive AliasMemberAt (text : String) (comments : List Span) (log : EventLog) :
    DocParser → Prop where
  | first {p q r : DocParser} (hp : TagAt text comments log p) (hkind : p.kind = .tagAlias)
    (hhead : aliasHead p.openNode.1.bump = .ok () q) (hcontinues : q.nextLineContinues = true)
    (hnext : q.nextLine? = some r) : AliasMemberAt text comments log r
  | next {p q r : DocParser} (hp : AliasMemberAt text comments log p)
    (hmember : (do aliasMember; needLineEnd : DocM Unit) p = .ok () q)
    (hcontinues : q.nextLineContinues = true) (hnext : q.nextLine? = some r) :
    AliasMemberAt text comments log r

/-- Where a member of an alias is tried, behind an alias or alone. -/
def MemberAt (text : String) (comments : List Span) (log : EventLog) (p : DocParser) : Prop :=
  AliasMemberAt text comments log p ∨ LineAt text comments log p ∧ p.sees .docContinueOr = true

def VisibleFieldAt (text : String) (comments : List Span) (log : EventLog) (p : DocParser) : Prop :=
  ∃ s, TagAt text comments log s ∧ s.kind = .tagField ∧ s.openNode.1.bump = p ∧
    seesVisibility p = true

section

variable (hcomments : ∀ c ∈ comments, IsComment text c)
include hcomments

theorem LineAt.valid (h : LineAt text comments log p) : p.Valid := by
  -- On the lines that were read: none of them is left before its end, and the next one is a comment
  -- too.
  induction h with
  | first h =>
    subst h
    exact (ofLines_spec hcomments log).1
  | next _ hline hnext ih =>
    have hrun := runs_line _ _ (.refl ih)
    rw [hline] at hrun
    obtain ⟨hadds, hend⟩ := hrun
    exact (passes_nextLine hadds.valid hend hnext).1.valid

theorem TagAt.valid (h : TagAt text comments log p) : p.Valid := by
  obtain ⟨s, hs, hstart, -⟩ := h
  have hsound : Sound True lineStart := sound_lineStart
  have hrun := hsound s s (.refl (hs.valid hcomments))
  rw [hstart] at hrun
  exact hrun.valid

theorem TagAt.valid_bump (h : TagAt text comments log p) : p.openNode.1.bump.Valid :=
  (adds_bump (valid_openNode (h.valid hcomments))).valid

theorem AliasMemberAt.valid (h : AliasMemberAt text comments log p) : p.Valid := by
  induction h with
  | first hp _ hhead _ hnext =>
    have hrun := runs_aliasHead _ _ (.refl (hp.valid_bump hcomments))
    rw [hhead] at hrun
    obtain ⟨hadds, hend⟩ := hrun
    exact (passes_nextLine hadds.valid hend hnext).1.valid
  | next _ hmember _ hnext ih =>
    have hrun := ((sound_aliasMember _).bind fun _ => runs_needLineEnd _) _ (.refl ih)
    rw [hmember] at hrun
    obtain ⟨hadds, hend⟩ := hrun
    exact (passes_nextLine hadds.valid hend hnext).1.valid

theorem MemberAt.valid (h : MemberAt text comments log p) : p.Valid := by
  rcases h with h | ⟨h, -⟩
  · exact h.valid hcomments
  · exact h.valid hcomments

theorem VisibleFieldAt.valid (h : VisibleFieldAt text comments log p) : p.Valid := by
  obtain ⟨s, hs, -, rfl, -⟩ := h
  exact hs.valid_bump hcomments

end

theorem ne_docLineEnd_of_isTag {kind : TokenKind} (h : kind.isTag = true) : kind ≠ .docLineEnd := by
  rintro rfl
  exact absurd h (by decide)

/-- Wherever in the annotations of comments something is tried and fails, the reader is taken back
to what it was, and a failed tag is one node of no special kind in the log. -/
theorem failed_tag_leaves_no_trace (hcomments : ∀ c ∈ comments, IsComment text c) (log : EventLog) :
    (∀ {p e q}, TagAt text comments log p → tagAttempt p.kind p = .error e q →
      q.rollback p.checkpoint = p ∧
      ∃ r, tag p = .ok () r ∧ r.log.toList = p.log.toList ++ failedTagEvents p e ∧
        r.kind = .docLineEnd ∧ r.line = p.line ∧ r.later = p.later ∧ r.depth = p.depth) ∧
    (∀ {p e q}, MemberAt text comments log p → memberAttempt p = .error e q →
      q.rollback p.checkpoint = p ∧
      aliasMember p = .ok () (p.bump.recover e)) ∧
    ∀ {p e q}, VisibleFieldAt text comments log p → visibleField p = .error e q →
    q.rollback p.checkpoint = p ∧
      field p = fieldRest p := by
  -- The three places where something is tried: a tag, a member of an alias, a field with its
  -- visibility.
  refine ⟨fun {p e q} hp hfail => ?_, fun {p e q} hp hfail => ?_, fun {p e q} hp hfail => ?_⟩
  · have hvalid := hp.valid hcomments
    obtain ⟨s, -, -, htag⟩ := hp
    exact ⟨leavesNoTrace_tagAttempt hvalid _ hfail, _, tag_of_error hvalid hfail,
      toList_failedTag hvalid (ne_docLineEnd_of_isTag htag) e, failedTag_place hvalid e⟩
  · have hvalid := hp.valid hcomments
    exact ⟨leavesNoTrace_memberAttempt hvalid hfail, aliasMember_of_error hvalid hfail⟩
  · have hvalid := hp.valid hcomments
    obtain ⟨s, -, -, -, hsees⟩ := hp
    exact ⟨leavesNoTrace_visibleField hvalid hfail, field_of_error hvalid hsees hfail⟩

theorem failed_tag_leaves_no_trace_unnamed_class :
    (∀ c ∈ [(⟨0, 11⟩ : Span)], IsComment "---@class 1" c) ∧
    ∃ p q e r, TagAt "---@class 1" [⟨0, 11⟩] #[] p ∧
      tagAttempt p.kind p = .error e q ∧ q.rollback p.checkpoint = p ∧ tag p = .ok () r ∧
      r.log.toList = p.log.toList ++ failedTagEvents p e := by
  have hcomments : ∀ c ∈ [(⟨0, 11⟩ : Span)], IsComment "---@class 1" c := by
    intro c hc
    obtain rfl := List.mem_singleton.1 hc
    exact ⟨"-@class 1".toList, [], [], by decide +kernel, rfl, by decide +kernel⟩
  obtain ⟨s, hs⟩ : ∃ s, s = DocParser.ofLines "---@class 1" #[] ⟨0, 11⟩ [] := ⟨_, rfl⟩
  have htag : TagAt "---@class 1" [⟨0, 11⟩] #[] s.bump := by
    have hopener : s.sees .docContinueOr = false := by
      rw [hs]
      decide +kernel
    have hsees : DocM.sees .docContinueOr s = .ok (s.sees .docContinueOr) s := rfl
    refine ⟨s, hs ▸ .first rfl, ?_, ?_⟩
    · rw [lineStart, bind_apply, hsees, hopener]
      rfl
    · rw [hs]
      decide +kernel
  have hfails : Outcome.failed (tagAttempt s.bump.kind s.bump) = true := by
    rw [hs]
    decide +kernel
  cases hrun : tagAttempt s.bump.kind s.bump with
  | ok _ q =>
    rw [hrun] at hfails
    cases hfails
  | error e q =>
    obtain ⟨hback, r, hr, hlog, -⟩ := (failed_tag_leaves_no_trace hcomments #[]).1 htag hrun
    exact ⟨hcomments, s.bump, q, e, r, htag, hrun, hback, hr, hlog⟩

example : (parseComments "---@class 1" [⟨0, 11⟩] #[]).toList =
    [.token .docStart ⟨0, 3⟩, .start .docTagOther none, .token .tagClass ⟨3, 9⟩,
      .fault (.expected .name .int) ⟨10, 11⟩, .start .docDescription none,
      .token .docDescription ⟨10, 11⟩, .finish, .finish] := by
  decide +kernel

end Doc

end LuaAnalysis.Syntax
