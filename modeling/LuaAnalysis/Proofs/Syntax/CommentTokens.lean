import Mathlib.Logic.Function.Iterate
import LuaAnalysis.Proofs.Syntax.Lossless

/-!
The lexer of annotations uses up its comment: after finitely many tokens it comes to the end of the
line and stays there, what it leaves out is blank or closes the comment, and from a place that it
goes back to it reads the same tokens again.
-/

namespace LuaAnalysis.Syntax

open LuaAnalysis.Text (Ascends)

theorem Covers.length_le {start : Nat} {cs : List Char} {tokens : List Token}
    (h : Covers start cs tokens) : tokens.length ≤ cs.length := by
  induction h with
  | nil => exact Nat.le_refl 0
  | blank _ _ ih => exact Nat.le_succ_of_le ih
  | token hne _ ih =>
    have := List.length_pos_iff.2 hne
    rw [List.length_cons, List.length_append]
    omega

namespace DocLexer

variable {l : DocLexer}

/-- The lexer behind the next `n` tokens. -/
def after (l : DocLexer) (n : Nat) : DocLexer := (fun l => l.next.2)^[n] l

/-- The token behind the next `n` ones. -/
def token (l : DocLexer) (n : Nat) : Token := (l.after n).next.1

theorem after_add (l : DocLexer) (m n : Nat) : l.after (m + n) = (l.after m).after n := by
  rw [after, Nat.add_comm, Function.iterate_add_apply]
  rfl

theorem Valid.after (hl : l.Valid) (n : Nat) :
    (l.after n).Valid ∧ (l.after n).cursor.text = l.cursor.text ∧
    (l.after n).cursor.stop = l.cursor.stop := by
  induction n generalizing l with
  | zero => exact ⟨hl, rfl, rfl⟩
  | succ n ih =>
    obtain ⟨hfinds, -⟩ := finds_next hl
    obtain ⟨hvalid, htext, hstop⟩ := ih hl.next
    exact ⟨hvalid, htext.trans hfinds.text_eq, hstop.trans hfinds.stop_eq⟩

theorem token_restore (hl : l.Valid) (i j n : Nat) :
    ((l.after j).restore (l.after i).checkpoint).token n = l.token (i + n) := by
  obtain ⟨hvalid, htext, hstop⟩ := hl.after i
  obtain ⟨-, htext', hstop'⟩ := hl.after j
  rw [restore_checkpoint hvalid (htext'.trans htext.symm) (hstop'.trans hstop.symm), token,
    token, after_add]

theorem next_of_lineEnd (hl : l.Valid) (hkind : l.next.1.kind = .docLineEnd) :
    l.next.1 = ⟨.docLineEnd, .empty l.cursor.stop⟩ ∧ l.next.2.cursor.rest = [] ∧
      ∀ c ∈ l.cursor.rest, Text.isBlank c = true := by
  obtain ⟨hfinds, hspan, -⟩ := finds_next hl
  obtain ⟨blanks, chars, hrest, hblanks, hstart, hpos, -, hend⟩ := hfinds.exists_split
  obtain ⟨rfl, hnil⟩ := hend hkind
  rw [hnil, List.append_nil, List.append_nil] at hrest
  rw [Text.byteLength_nil, Nat.add_zero] at hpos
  have hstop : l.cursor.stop = l.cursor.pos + Text.byteLength l.cursor.rest := hl.cursor.stop_eq
  have hplace : l.next.1.span = .empty l.cursor.stop := by
    rw [hspan, Cursor.span, hpos, hstart, hstop, hrest, Span.empty]
  exact ⟨by rw [← hkind, ← hplace], hnil, hrest ▸ hblanks⟩

theorem token_of_lineEnd (hl : l.Valid) (hkind : l.next.1.kind = .docLineEnd) (n : Nat) :
    l.token n = ⟨.docLineEnd, .empty l.cursor.stop⟩ := by
  induction n generalizing l with
  | zero => exact (next_of_lineEnd hl hkind).1
  | succ n ih =>
    obtain ⟨-, hrest, -⟩ := next_of_lineEnd hl hkind
    rw [← (finds_next hl).1.stop_eq]
    exact ih hl.next (kind_next_of_rest hl.next hrest)

theorem covers_next (hl : l.Valid) (hkind : l.next.1.kind ≠ .docLineEnd) :
    l.next.2.cursor.rest.length < l.cursor.rest.length ∧ ∀ {tokens},
      Covers l.next.2.cursor.pos l.next.2.cursor.rest tokens →
      Covers l.cursor.pos l.cursor.rest (l.next.1 :: tokens) := by
  obtain ⟨hfinds, hspan, -⟩ := finds_next hl
  obtain ⟨blanks, chars, hrest, hblanks, hstart, hpos, hne, -⟩ := hfinds.exists_split
  constructor
  · have := List.length_pos_iff.2 (hne hkind)
    rw [hrest, List.length_append, List.length_append]
    omega
  · intro tokens hbehind
    have htoken : l.next.1 = ⟨l.next.1.kind, l.next.2.cursor.start,
        l.next.2.cursor.start + Text.byteLength chars⟩ := by
      rw [← hpos]
      exact congrArg (Token.mk l.next.1.kind) hspan
    rw [hrest, List.append_assoc, htoken]
    refine .blanks hblanks ?_
    rw [← hstart]
    rw [hpos] at hbehind
    exact .token (hne hkind) hbehind

/-- Ahead of a lexer are tokens that leave out nothing but blanks, and then the end of the line for
ever. -/
theorem exists_tokens (hl : l.Valid) : ∃ tokens, Covers l.cursor.pos l.cursor.rest tokens ∧
    (∀ t ∈ tokens, t.kind ≠ .docLineEnd) ∧
    ∀ n, l.token n = tokens[n]?.getD ⟨.docLineEnd, .empty l.cursor.stop⟩ := by
  -- the characters left get fewer with each token
  induction hlength : l.cursor.rest.length using Nat.strong_induction_on generalizing l with
  | _ length ih =>
    by_cases hkind : l.next.1.kind = .docLineEnd
    · obtain ⟨-, -, hblanks⟩ := next_of_lineEnd hl hkind
      have hcovers := Covers.blanks hblanks (.nil (l.cursor.pos + Text.byteLength l.cursor.rest))
      rw [List.append_nil] at hcovers
      exact ⟨[], hcovers, by simp, token_of_lineEnd hl hkind⟩
    · obtain ⟨hlt, hcovers⟩ := covers_next hl hkind
      obtain ⟨tokens, hbehind, hkinds, hreads⟩ := ih _ (hlength ▸ hlt) hl.next rfl
      refine ⟨l.next.1 :: tokens, hcovers hbehind, List.forall_mem_cons.2 ⟨hkind, hkinds⟩,
        fun n => ?_⟩
      cases n with
      | zero => rfl
      | succ n =>
        rw [← (finds_next hl).1.stop_eq]
        exact hreads n

theorem map_toLineEnd_go {tokens : List Token} {last : Token} (hlast : last.kind = .docLineEnd)
    (hkinds : ∀ t ∈ tokens, t.kind ≠ .docLineEnd) (hreads : ∀ n, l.token n = tokens[n]?.getD last)
    {fuel : Nat}
    (hfuel : tokens.length < fuel) : (toLineEnd.go fuel l).map (·.1) = tokens ++ [last] := by
  induction tokens generalizing l fuel with
  | nil =>
    obtain ⟨fuel, rfl⟩ := Nat.exists_eq_succ_of_ne_zero (Nat.ne_of_gt hfuel)
    have hnext : l.next.1 = last := hreads 0
    simp [toLineEnd.go, hnext, hlast]
  | cons t tokens ih =>
    obtain ⟨fuel, rfl⟩ := Nat.exists_eq_succ_of_ne_zero (Nat.ne_zero_of_lt hfuel)
    obtain ⟨hkind, hkinds⟩ := List.forall_mem_cons.1 hkinds
    have hnext : l.next.1 = t := hreads 0
    have hbehind := ih hkinds (l := l.next.2) (fun n => hreads (n + 1))
      (Nat.lt_of_succ_lt_succ hfuel)
    simp [toLineEnd.go, hnext, hkind, hbehind]

theorem stop_ofComment {text : String} {comment : Span} (h : IsComment text comment) :
    (ofComment text comment).cursor.stop = comment.stop ∨
      ∃ level, longCommentLevel? (Text.slice text comment).toList = some level ∧
        Text.IsPiece text ⟨(ofComment text comment).cursor.stop, comment.stop⟩
          (Lexer.longCloser level) := by
  obtain ⟨r, hpiece⟩ := h
  obtain ⟨body, closer, hcontains, hvalid, -, hpos, hrest⟩ := ofComment_spec hpiece
  have hstop : (ofComment text comment).cursor.stop = comment.start + Text.byteLength body :=
    hpos ▸ hrest ▸ hvalid.cursor.stop_eq
  have hwhole : Text.IsPiece text comment (body ++ closer) := hcontains.append_eq ▸ hpiece
  have hcloser := hwhole.split.2
  rw [← hstop] at hcloser
  rcases hcontains.closer_eq with rfl | ⟨level, hlevel, rfl⟩
  · exact .inl hcloser.stop_eq.symm
  · exact .inr ⟨level, hpiece.slice_eq.symm ▸ hlevel, hcloser⟩

/-- The lexer of annotations makes tokens of a comment, and then finds the end of the line at `stop`
for ever. -/
structure UsesUp (text : String) (comment : Span) (tokens : List Token) (stop : Nat) : Prop where
  reads : ∀ n, (ofComment text comment).token n = tokens[n]?.getD ⟨.docLineEnd, .empty stop⟩
  ne_lineEnd : ∀ t ∈ tokens, t.kind ≠ .docLineEnd
  toLineEnd_eq : (ofComment text comment).toLineEnd.map (·.1) = tokens ++
    [⟨.docLineEnd, .empty stop⟩]
  /-- Tokens are not empty, and each of them ends before the next one starts, all of them inside the
  comment. -/
  ascends : Ascends comment.start (tokens.map (·.span)) stop
  stop_le : stop ≤ comment.stop
  /-- The line ends with the comment, or where the bracket stands that closes it. -/
  stop_or_closer : stop = comment.stop ∨
    ∃ level, longCommentLevel? (Text.slice text comment).toList = some level ∧
    Text.IsPiece text ⟨stop, comment.stop⟩ (Lexer.longCloser level)
  /-- What no token covers of the comment is blank or closes it. -/
  covered : ∀ pre c post, text.toList = pre ++ c :: post → comment.start ≤ Text.byteLength pre →
    Text.byteLength pre < comment.stop →
    (∃ t ∈ tokens, t.span.start ≤ Text.byteLength pre ∧
      Text.byteLength pre + c.utf8Size ≤ t.span.stop) ∨
      Text.isBlank c = true ∨ InCloser text comment (Text.byteLength pre)
  /-- Back at a checkpoint, from wherever it has come to, the lexer reads the tokens behind it
  again. -/
  again : ∀ i j n, (((ofComment text comment).after j).restore
    ((ofComment text comment).after i).checkpoint).token n = (ofComment text comment).token (i + n)

/-- Every comment of a text is used up. -/
theorem usesUp_comment {text : String} {comment : Token} (hmem : comment ∈ (Lexer.tokenize text).1)
    (hcomment : comment.kind.isComment = true) :
    ∃ tokens stop, UsesUp text comment.span tokens stop := by
  obtain ⟨r, hpiece⟩ := Lexer.isComment_tokenize text comment hmem hcomment
  have hspan : IsComment text comment.span := ⟨r, hpiece⟩
  obtain ⟨body, closer, -, hvalid, -, hpos, -⟩ := ofComment_spec hpiece
  obtain ⟨tokens, hcovers, hkinds, hreads⟩ := exists_tokens hvalid
  have hfuel := hcovers.length_le
  have hstop : (ofComment text comment.span).cursor.stop =
      comment.span.start + Text.byteLength (commentBody text comment.span) :=
        hpos ▸ hvalid.cursor.stop_eq
  rw [hpos] at hcovers
  refine ⟨tokens, (ofComment text comment.span).cursor.stop, hreads, hkinds, ?_, ?_, ?_,
    stop_ofComment hspan, ?_, token_restore hvalid⟩
  · exact map_toLineEnd_go rfl hkinds hreads (by omega)
  · rw [hstop]
    exact hcovers.ascends
  · rw [hstop]
    exact hspan.body_le
  · exact fun pre c post => covered_or_blank hspan hcovers

/-- A name with a dot and a dash in it, and a string without its second quote whose last character
is a backslash. -/
theorem usesUp_comment_openString :
    let text := "x=1 --[=[@type\u00a0std.io-x|'a\\]=] y"
    (⟨.longComment, ⟨4, 31⟩⟩ : Token) ∈ (Lexer.tokenize text).1 ∧
    TokenKind.isComment .longComment = true ∧
      UsesUp text ⟨4, 31⟩ [⟨.docLongStart, ⟨4, 9⟩⟩, ⟨.tagType, ⟨9, 14⟩⟩, ⟨.name, ⟨16, 24⟩⟩,
        ⟨.docOr, ⟨24, 25⟩⟩, ⟨.str, ⟨25, 28⟩⟩] 28 := by
  intro text
  have hmem : (⟨.longComment, ⟨4, 31⟩⟩ : Token) ∈ (Lexer.tokenize text).1 := by decide +kernel
  obtain ⟨tokens, stop, huses⟩ := usesUp_comment hmem rfl
  have hline : (ofComment text ⟨4, 31⟩).toLineEnd.map (·.1) =
      [⟨.docLongStart, ⟨4, 9⟩⟩, ⟨.tagType, ⟨9, 14⟩⟩,
      ⟨.name, ⟨16, 24⟩⟩, ⟨.docOr, ⟨24, 25⟩⟩, ⟨.str, ⟨25, 28⟩⟩] ++ [⟨.docLineEnd, .empty 28⟩] := by
        decide +kernel
  obtain ⟨rfl, hend⟩ := List.append_inj' (hline.symm.trans huses.toLineEnd_eq) rfl
  obtain rfl : 28 = stop := by simpa [Span.empty] using hend
  exact ⟨hmem, rfl, huses⟩

end DocLexer

end LuaAnalysis.Syntax
