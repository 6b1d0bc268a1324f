import Mathlib.Data.List.TakeWhile
import LuaAnalysis.Proofs.Syntax.Tokenize
import LuaAnalysis.Syntax.DocLexer

namespace LuaAnalysis.Syntax

namespace Cursor

/-- What a cursor has before it are characters of its text. -/
def Valid (c : Cursor) : Prop := Text.IsPiece c.text ⟨c.pos, c.stop⟩ c.rest

theorem restore_checkpoint {c d : Cursor} (hc : c.Valid) (htext : d.text = c.text)
    (hstop : d.stop = c.stop) : d.restore c.checkpoint = c := by
  have hrest : (Text.slice c.text ⟨c.pos, c.stop⟩).toList = c.rest := Text.IsPiece.slice_eq hc
  cases c
  simp_all [restore, checkpoint, moveTo]

/-- A cursor passes over characters and keeps its mark. -/
structure Reads (c : Cursor) (chars : List Char) (d : Cursor) : Prop where
  rest_eq : c.rest = chars ++ d.rest
  pos_eq : d.pos = c.pos + Text.byteLength chars
  start_eq : d.start = c.start
  text_eq : d.text = c.text
  stop_eq : d.stop = c.stop

variable {c d e : Cursor} {xs ys : List Char}

theorem Reads.refl (c : Cursor) : Reads c [] c := ⟨rfl, rfl, rfl, rfl, rfl⟩

theorem Reads.trans (h : Reads c xs d) (h' : Reads d ys e) : Reads c (xs ++ ys) e where
  rest_eq := by rw [h.rest_eq, h'.rest_eq, List.append_assoc]
  pos_eq := by rw [h'.pos_eq, h.pos_eq, Text.byteLength_append, Nat.add_assoc]
  start_eq := h'.start_eq.trans h.start_eq
  text_eq := h'.text_eq.trans h.text_eq
  stop_eq := h'.stop_eq.trans h.stop_eq

theorem Valid.reads (hc : c.Valid) (h : Reads c xs d) : d.Valid := by
  have hpiece : Text.IsPiece c.text ⟨c.pos, c.stop⟩ (xs ++ d.rest) := h.rest_eq ▸ hc
  have hback := hpiece.split.2
  rw [Valid, h.text_eq, h.pos_eq, h.stop_eq]
  exact hback

theorem Valid.mark (hc : c.Valid) : c.mark.Valid := hc

theorem Valid.atEnd_iff (hc : c.Valid) : c.atEnd = true ↔ c.rest = [] := by
  have hstop : c.stop = c.pos + Text.byteLength c.rest := hc.stop_eq
  rw [← Text.byteLength_eq_zero, atEnd, decide_eq_true_eq]
  omega

theorem reads_skipWhile (c : Cursor) (p : Char → Bool) :
    Reads c (c.rest.takeWhile p) (c.skipWhile p) where
  rest_eq := List.takeWhile_append_dropWhile.symm
  pos_eq := rfl
  start_eq := rfl
  text_eq := rfl
  stop_eq := rfl

theorem reads_bump (c : Cursor) : Reads c (c.rest.take 1) c.bump := by
  unfold bump
  split
  · rename_i h
    exact ⟨by simp [h], by simp [h], rfl, rfl, rfl⟩
  · rename_i h
    exact ⟨by simp [h], by simp [h], rfl, rfl, rfl⟩

theorem reads_bumpN (n : Nat) (c : Cursor) : Reads c (c.rest.take n) (c.bumpN n) := by
  induction n generalizing c with
  | zero => exact .refl c
  | succ n ih =>
    have h := (reads_bump c).trans (ih c.bump)
    have htake : c.rest.take 1 ++ c.bump.rest.take n = c.rest.take (n + 1) := by
      cases hrest : c.rest <;> simp [bump, hrest]
    rwa [htake] at h

theorem takeWhile_ne_nil {p : Char → Bool} {x : Char} {r : List Char} (h : c.rest = x :: r)
    (hx : p x = true) : c.rest.takeWhile p ≠ [] := by
  rw [h, List.takeWhile_cons_of_pos hx]
  simp

theorem take_ne_nil {n : Nat} (h : c.rest ≠ []) (hn : n ≠ 0) : c.rest.take n ≠ [] := by
  simp [h, hn]

theorem rest_ne_nil_of_sees {p : Char → Bool} (h : c.sees p = true) : ∃ x r, c.rest = x :: r ∧
    p x = true := by
  cases hrest : c.rest with
  | nil => simp [sees, peek?, hrest] at h
  | cons x r => exact ⟨x, r, rfl, by simpa [sees, peek?, hrest] using h⟩

def Advances (c d : Cursor) : Prop := ∃ chars, chars ≠ [] ∧ Reads c chars d

theorem Advances.trans (h : Advances c d) (h' : Reads d ys e) : Advances c e := by
  obtain ⟨xs, hne, hreads⟩ := h
  exact ⟨xs ++ ys, by simp [hne], hreads.trans h'⟩

theorem advances_bump (h : c.rest ≠ []) : Advances c c.bump :=
  ⟨_, take_ne_nil h (by simp), reads_bump c⟩

theorem advances_bumpN {n : Nat} (h : c.rest ≠ []) (hn : n ≠ 0) : Advances c (c.bumpN n) :=
  ⟨_, take_ne_nil h hn, reads_bumpN n c⟩

end Cursor

namespace DocLexer

open Cursor

variable {c : Cursor} {l : DocLexer}

/-- A token and where the cursor is behind it. Only blanks are passed over, and only at the end of
the comment is there no token. -/
structure Finds (c : Cursor) (kind : TokenKind) (d : Cursor) : Prop where
  exists_split : ∃ blanks chars, c.rest = blanks ++ chars ++ d.rest ∧
    (∀ x ∈ blanks, Text.isBlank x = true) ∧
    d.start = c.pos + Text.byteLength blanks ∧ d.pos = d.start + Text.byteLength chars ∧
    (kind ≠ .docLineEnd → chars ≠ []) ∧ (kind = .docLineEnd → chars = [] ∧ d.rest = [])
  text_eq : d.text = c.text
  stop_eq : d.stop = c.stop

theorem Finds.of_advances {kind : TokenKind} {d : Cursor} {blanks : List Char} {b : Cursor}
    (hb : Reads c blanks b) (hblanks : ∀ x ∈ blanks, Text.isBlank x = true)
    (hkind : kind ≠ .docLineEnd) (h : Advances b.mark d) :
    Finds c kind d := by
  obtain ⟨chars, hne, hreads⟩ := h
  refine ⟨⟨blanks, chars, ?_, hblanks, ?_, ?_, fun _ => hne, fun heq => absurd heq hkind⟩, ?_, ?_⟩
  · rw [List.append_assoc, ← hreads.rest_eq, hb.rest_eq]
    rfl
  · rw [hreads.start_eq, ← hb.pos_eq]
    rfl
  · rw [hreads.pos_eq, hreads.start_eq]
    rfl
  · exact hreads.text_eq.trans hb.text_eq
  · exact hreads.stop_eq.trans hb.stop_eq

theorem Finds.of_end {blanks : List Char} {b : Cursor} (hb : Reads c blanks b)
    (hblanks : ∀ x ∈ blanks, Text.isBlank x = true) (hend : b.rest = []) :
    Finds c .docLineEnd b.mark := by
  refine ⟨⟨blanks, [], ?_, hblanks, ?_, rfl, fun h => absurd rfl h, fun _ => ⟨rfl, hend⟩⟩,
    hb.text_eq, hb.stop_eq⟩
  · rw [hb.rest_eq, List.append_nil]
    rfl
  · exact hb.pos_eq

theorem Finds.of_blanks {kind : TokenKind} {d : Cursor} {blanks : List Char} {b : Cursor}
    (hb : Reads c blanks b) (hblanks : ∀ x ∈ blanks, Text.isBlank x = true)
    (h : Finds b.mark kind d) : Finds c kind d := by
  obtain ⟨⟨more, chars, hrest, hmore, hstart, hpos, hne, hend⟩, htext, hstop⟩ := h
  refine ⟨⟨blanks ++ more, chars, ?_, ?_, ?_, hpos, hne, hend⟩, htext.trans hb.text_eq,
    hstop.trans hb.stop_eq⟩
  · rw [hb.rest_eq, show b.rest = b.mark.rest from rfl, hrest]
    simp
  · simpa [or_imp, forall_and] using ⟨hblanks, hmore⟩
  · rw [hstart, show b.mark.pos = b.pos from rfl, hb.pos_eq, Text.byteLength_append, Nat.add_assoc]

theorem reads_blanks (c : Cursor) :
    ∃ blanks, Reads c blanks (c.skipWhile Text.isBlank) ∧ ∀ x ∈ blanks, Text.isBlank x = true :=
  ⟨_, reads_skipWhile c Text.isBlank, fun _ hx => List.mem_takeWhile_imp hx⟩

theorem finds_remainder (hc : c.Valid) {kind : TokenKind} (hkind : kind ≠ .docLineEnd)
    (mode : DocMode) : Finds c (remainder kind mode c).1 (remainder kind mode c).2.1 := by
  obtain ⟨blanks, hreads, hblanks⟩ := reads_blanks c
  have hvalid := (hc.reads hreads).mark
  unfold remainder
  dsimp only
  split
  · rename_i hend
    exact .of_end hreads hblanks (hvalid.atEnd_iff.1 hend)
  · rename_i hend
    refine .of_advances hreads hblanks hkind ⟨_, ?_, reads_skipWhile _ _⟩
    cases hrest : (c.skipWhile Text.isBlank).mark.rest with
    | nil => exact absurd (hvalid.atEnd_iff.2 hrest) hend
    | cons x r => simp

theorem rest_remainder (kind : TokenKind) (mode : DocMode) (hc : c.Valid) :
    (remainder kind mode c).2.1.rest = [] := by
  obtain ⟨blanks, hreads, -⟩ := reads_blanks c
  have hvalid := (hc.reads hreads).mark
  unfold remainder
  dsimp only
  split
  · rename_i hend
    exact hvalid.atEnd_iff.1 hend
  · simp [skipWhile, eatWhile, List.dropWhile_eq_nil_iff]

theorem ofTagWord_ne (word : String) : TokenKind.ofTagWord word ≠ .docLineEnd := by
  have hwords : ∀ e ∈ TokenKind.tagWords, e.2 ≠ .docLineEnd := by decide
  rw [TokenKind.ofTagWord]
  cases hword : TokenKind.tagWords.lookup word with
  | none => simp
  | some kind =>
    obtain ⟨before, after, hsplit, -⟩ := List.lookup_eq_some_iff.1 hword
    exact hwords (word, kind) (by simp [hsplit])

@[simp] theorem mode_remainder (kind : TokenKind) (mode : DocMode) (c : Cursor) :
    (remainder kind mode c).2.2 = mode := by
  unfold remainder
  dsimp only
  split <;> rfl

theorem kind_remainder (kind : TokenKind) (mode : DocMode) (c : Cursor) :
    (remainder kind mode c).1 = .docLineEnd ∨ (remainder kind mode c).1 = kind := by
  unfold remainder
  dsimp only
  split
  · exact .inl rfl
  · exact .inr rfl

theorem mode_tagWord (c : Cursor) : (tagWord c).2.2 ≠ .init := by
  unfold tagWord
  dsimp only
  split
  · simp
  · rw [mode_remainder]
    simp

theorem finds_tagWord (hc : c.Valid) : Finds c (tagWord c).1 (tagWord c).2.1 := by
  obtain ⟨blanks, hreads, hblanks⟩ := reads_blanks c
  unfold tagWord
  dsimp only
  split
  · rename_i hsees
    obtain ⟨x, r, hrest, -⟩ := rest_ne_nil_of_sees hsees
    apply Finds.of_advances hreads hblanks
    · apply ofTagWord_ne
    · exact (advances_bump (by simp [hrest])).trans (reads_skipWhile _ _)
  · exact .of_blanks hreads hblanks (finds_remainder (hc.reads hreads).mark (by simp) _)

theorem reads_nameTail (fuel : Nat) (c : Cursor) : ∃ chars, Reads c chars (nameTail fuel c) := by
  induction fuel generalizing c with
  | zero => exact ⟨[], .refl c⟩
  | succ fuel ih =>
    rw [nameTail]
    split
    · obtain ⟨chars, h⟩ := ih (c.bump.skipWhile Lexer.isNameChar)
      exact ⟨_, ((reads_bump c).trans (reads_skipWhile _ _)).trans h⟩
    · exact ⟨[], .refl c⟩

theorem reads_number (c : Cursor) :
    ∃ chars, Reads c (c.rest.takeWhile Char.isDigit ++ chars) (number c).2 := by
  have hdigits := reads_skipWhile c Char.isDigit
  unfold number
  dsimp only
  split
  · exact ⟨_, hdigits.trans ((reads_bump _).trans (reads_skipWhile _ _))⟩
  · exact ⟨[], hdigits.trans (.refl _)⟩

theorem number_ne (c : Cursor) : (number c).1 ≠ .docLineEnd := by
  unfold number
  dsimp only
  split <;> simp

theorem mark?_ne (x : Char) : (mark? x).getD .unknown ≠ .docLineEnd := by
  unfold mark?
  split <;> simp

theorem normalToken_ne (x : Char) (c : Cursor) : (normalToken x c).1 ≠ .docLineEnd := by
  unfold normalToken
  split
  · simp
  split
  · exact number_ne c
  split
  · exact number_ne c.bump
  split
  · simp
  split
  · simp
  · exact mark?_ne x

theorem advances_normalToken {x : Char} {r : List Char} (hrest : c.rest = x :: r) :
    Advances c (normalToken x c).2 := by
  have hne : c.rest ≠ [] := by simp [hrest]
  unfold normalToken
  split
  · rename_i hx
    obtain ⟨chars, htail⟩ := reads_nameTail c.rest.length (c.skipWhile Lexer.isNameChar)
    have hchar : Lexer.isNameChar x = true := by
      simp only [Lexer.isNameStart, Lexer.isNameChar, Bool.or_eq_true] at hx ⊢
      exact hx.imp_right fun h => by simp [Char.isAlphanum, h]
    exact Advances.trans ⟨_, takeWhile_ne_nil hrest hchar, reads_skipWhile _ _⟩ htail
  split
  · rename_i hx
    obtain ⟨chars, hnumber⟩ := reads_number c
    exact ⟨_, by simp [takeWhile_ne_nil hrest hx], hnumber⟩
  split
  · obtain ⟨chars, hnumber⟩ := reads_number c.bump
    exact (advances_bump hne).trans hnumber
  split
  · exact (advances_bump hne).trans ((reads_bumpN _ _).trans (reads_bump _))
  split
  · exact advances_bumpN hne (by simp)
  · exact advances_bump hne

theorem finds_normal (c : Cursor) : Finds c (normal c).1 (normal c).2 := by
  obtain ⟨blanks, hreads, hblanks⟩ := reads_blanks c
  unfold normal
  dsimp only
  cases hpeek : (c.skipWhile Text.isBlank).mark.peek? with
  | none =>
    have hend : (c.skipWhile Text.isBlank).rest = [] := by simpa [peek?, Cursor.mark] using hpeek
    exact .of_end hreads hblanks hend
  | some x =>
    obtain ⟨r, hrest⟩ : ∃ r, (c.skipWhile Text.isBlank).mark.rest = x :: r := by
      cases hrest : (c.skipWhile Text.isBlank).mark.rest with
      | nil => simp [peek?, hrest] at hpeek
      | cons y r => exact ⟨r, by simpa [peek?, hrest] using hpeek⟩
    exact .of_advances hreads hblanks (normalToken_ne _ _) (advances_normalToken hrest)

theorem finds_opener {r : List Char} (hrest : c.rest = '-' :: '-' :: r) :
    Finds c (opener c).1 (opener c).2.1 ∧ (opener c).1 ≠ .docLineEnd ∧ (opener c).2.2 ≠ .init := by
  have hne : c.mark.rest ≠ [] := by simp [Cursor.mark, hrest]
  have hfinds : ∀ {kind : TokenKind} {d : Cursor}, kind ≠ .docLineEnd → Advances c.mark d →
      Finds c kind d :=
    fun hkind h => .of_advances (.refl c) (by simp) hkind h
  unfold opener
  dsimp only
  split
  · exact ⟨hfinds (by simp) (advances_bumpN hne (by simp)), by simp, by simp⟩
  split
  · have hlong := (advances_bumpN (n := 3) hne (by simp)).trans
      ((reads_skipWhile _ (· == '=')).trans (reads_bump _))
    split
    · exact ⟨hfinds (by simp) hlong, by simp, by simp⟩
    · exact ⟨hfinds (by simp) hlong, by simp, by simp⟩
  split
  · refine ⟨hfinds (by simp) (advances_bumpN hne (by simp)), by simp, ?_⟩
    split <;> simp
  · refine ⟨hfinds (by simp) ⟨_, takeWhile_ne_nil (x := '-') hrest (by simp),
      reads_skipWhile _ _⟩, by simp, ?_⟩
    split <;> simp

/-- A lexer that can go on: what it has before it is a part of its text, which starts with two
dashes if a comment starts here. -/
structure Valid (l : DocLexer) : Prop where
  cursor : l.cursor.Valid
  opens : l.mode = .init → ∃ r, l.cursor.rest = '-' :: '-' :: r

theorem finds_next (hl : l.Valid) :
    Finds l.cursor l.next.1.kind l.next.2.cursor ∧ l.next.1.span = l.next.2.cursor.span ∧
    l.next.2.mode ≠ .init := by
  unfold next
  cases hmode : l.mode with
  | init =>
    obtain ⟨r, hrest⟩ := hl.opens hmode
    obtain ⟨hfinds, -, hne⟩ := finds_opener hrest
    exact ⟨hfinds, rfl, hne⟩
  | tag => exact ⟨finds_tagWord hl.cursor, rfl, mode_tagWord l.cursor⟩
  | normal => exact ⟨finds_normal l.cursor, rfl, by simp⟩
  | description => exact ⟨finds_remainder hl.cursor (by simp) _, rfl, by simp⟩
  | trivia => exact ⟨finds_remainder hl.cursor (by simp) _, rfl, by simp⟩

theorem kind_next_of_rest (hl : l.Valid) (hrest : l.cursor.rest = []) :
    l.next.1.kind = .docLineEnd := by
  obtain ⟨hfinds, -⟩ := finds_next hl
  obtain ⟨blanks, chars, hsplit, -, -, -, hne, -⟩ := hfinds.exists_split
  by_contra hkind
  rw [hrest] at hsplit
  exact hne hkind (List.append_eq_nil_iff.1 (List.append_eq_nil_iff.1 hsplit.symm).1).2

theorem restore_checkpoint {d : DocLexer} (hl : l.Valid) (htext : d.cursor.text = l.cursor.text)
    (hstop : d.cursor.stop = l.cursor.stop) : d.restore l.checkpoint = l := by
  rw [restore, checkpoint, Cursor.restore_checkpoint hl.cursor htext hstop]

theorem Finds.valid {kind : TokenKind} {d : Cursor} (hc : c.Valid) (h : Finds c kind d) :
    d.Valid := by
  obtain ⟨blanks, chars, hrest, -, hstart, hpos, -⟩ := h.exists_split
  have hpiece : Text.IsPiece c.text ⟨c.pos, c.stop⟩ ((blanks ++ chars) ++ d.rest) := hrest ▸ hc
  have hback := hpiece.split.2
  rw [Text.byteLength_append, ← Nat.add_assoc, ← hstart, ← hpos] at hback
  rw [Cursor.Valid, h.text_eq, h.stop_eq]
  exact hback

theorem Valid.next (hl : l.Valid) : l.next.2.Valid := by
  obtain ⟨hfinds, -, hmode⟩ := finds_next hl
  exact ⟨hfinds.valid hl.cursor, fun h => absurd h hmode⟩

/-- A comment as the annotation lexer sees it: what it reads, and the bracket that closes a long
comment. -/
structure Contains (comment body closer : List Char) : Prop where
  append_eq : body ++ closer = comment
  closer_eq : closer = [] ∨ ∃ level, longCommentLevel? comment = some level ∧
    closer = Lexer.longCloser level
  opens : ∃ r, body = '-' :: '-' :: r

theorem contains_whole (r : List Char) : Contains ('-' :: '-' :: r) ('-' :: '-' :: r) [] :=
  ⟨by simp, .inl rfl, r, rfl⟩

theorem contains_of_closer {comment : List Char} {level : Nat}
    (hlevel : longCommentLevel? comment = some level)
    (hlength : level + 6 < Text.byteLength comment)
    (hcloser : (Lexer.longCloser level).isPrefixOf (comment.reverse.take (level + 2)).reverse =
      true) :
    ∃ body, Contains comment body (Lexer.longCloser level) := by
  obtain ⟨r, hcomment⟩ : ∃ r, comment = '-' :: '-' :: r := by
    unfold longCommentLevel? at hlevel
    split at hlevel
    · exact ⟨_, rfl⟩
    · simp at hlevel
  have hback : (comment.reverse.take (level + 2)).reverse =
      comment.drop (comment.length - (level + 2)) := by
    rw [List.take_reverse, List.reverse_reverse]
  have heq : Lexer.longCloser level = comment.drop (comment.length - (level + 2)) := by
    rw [hback] at hcloser
    refine (List.isPrefixOf_iff_prefix.1 hcloser).eq_of_length_le ?_
    rw [List.length_drop, Lexer.length_longCloser]
    omega
  have happend : comment.take (comment.length - (level + 2)) ++ Lexer.longCloser level =
      comment := by
    rw [heq, List.take_append_drop]
  refine ⟨_, happend, .inr ⟨level, hlevel, rfl⟩, ?_⟩
  -- what is left is longer than four bytes, so it holds both dashes
  generalize comment.take (comment.length - (level + 2)) = body at happend
  have hbytes := congrArg Text.byteLength happend
  rw [Text.byteLength_append, Lexer.byteLength_longCloser] at hbytes
  subst hcomment
  cases body with
  | nil =>
    rw [Text.byteLength_nil] at hbytes
    omega
  | cons x body =>
    obtain ⟨rfl, hbehind⟩ := List.cons.inj happend
    cases body with
    | nil =>
      have hdash : Text.byteLength ['-'] = 1 := rfl
      omega
    | cons y body =>
      obtain ⟨rfl, -⟩ := List.cons.inj hbehind
      exact ⟨body, rfl⟩

theorem ofComment_spec {text : String} {span : Span} {r : List Char}
    (h : Text.IsPiece text span ('-' :: '-' :: r)) :
    ∃ body closer, Contains ('-' :: '-' :: r) body closer ∧ (ofComment text span).Valid ∧
      (ofComment text span).cursor.text = text ∧ (ofComment text span).cursor.pos = span.start ∧
      (ofComment text span).cursor.rest = body := by
  obtain ⟨body, closer, hcontains, hstop⟩ : ∃ body closer, Contains ('-' :: '-' :: r) body closer ∧
      (ofComment text span).cursor.stop = span.start + Text.byteLength body := by
    have hwhole : span.stop = span.start + Text.byteLength ('-' :: '-' :: r) := h.stop_eq
    simp only [ofComment, h.slice_eq, ofSpan]
    split
    · rename_i level hlevel
      split
      · rename_i hcloser
        simp only [Bool.and_eq_true, decide_eq_true_eq] at hcloser
        obtain ⟨body, hbody⟩ := contains_of_closer hlevel hcloser.1 hcloser.2
        have hbytes := congrArg Text.byteLength hbody.append_eq
        rw [Text.byteLength_append, Lexer.byteLength_longCloser] at hbytes
        have hstop : span.stop - (level + 2) = span.start + Text.byteLength body := by omega
        exact ⟨body, _, hbody, hstop⟩
      · exact ⟨_, [], contains_whole r, hwhole⟩
    · exact ⟨_, [], contains_whole r, hwhole⟩
  have hpiece : Text.IsPiece text span (body ++ closer) := hcontains.append_eq ▸ h
  have hbody := hpiece.split.1
  have hrest : (ofComment text span).cursor.rest = body := by
    show (Text.slice text ⟨span.start, (ofComment text span).cursor.stop⟩).toList = body
    rw [hstop, hbody.slice_eq]
  refine ⟨body, closer, hcontains, ⟨?_, fun _ => hrest ▸ hcontains.opens⟩, rfl, rfl, hrest⟩
  rw [Cursor.Valid, hrest, hstop]
  exact hbody

end DocLexer

end LuaAnalysis.Syntax
