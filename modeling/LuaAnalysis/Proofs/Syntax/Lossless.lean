import LuaAnalysis.Proofs.Syntax.CodeGrammar
import LuaAnalysis.Proofs.Syntax.Comments
import LuaAnalysis.Proofs.Text.Spans

namespace LuaAnalysis.Syntax

open LuaAnalysis.Text (Ascends)

/-- Where the tokens of items stand: those of a comment node in it and nowhere else. -/
inductive Renders : List Item → List (Token × List ElementId) → Prop where
  | nil : Renders [] []
  | code (token : Token) {items : List Item} {tokens : List (Token × List ElementId)}
      (h : Renders items tokens) : Renders (.code token :: items) ((token, []) :: tokens)
  | comment (docs : List Token) (id : ElementId) {items : List Item} {tokens :
      List (Token × List ElementId)} (h : Renders items tokens) : Renders (.comment docs ::
      items) (docs.map (·, [id]) ++ tokens)

theorem Renders.append {xs ys : List Item} {ts us : List (Token × List ElementId)}
    (h : Renders xs ts) (h' : Renders ys us) : Renders (xs ++ ys) (ts ++ us) := by
  induction h with
  | nil => exact h'
  | code token _ ih => exact .code token ih
  | comment docs id _ ih =>
    rw [List.append_assoc]
    exact .comment docs id ih

namespace Layout

theorem tokens_leaves {around : List ElementId} {start : ElementId} {l : Layout}
    (hl : l.Proper true) : l.tokens around start = l.leaves.map (·, around) := by
  induction l generalizing start with
  | nil => rfl
  | token l _ _ ih => simp [tokens, leaves, ih hl]
  | node l kind inside ih ihInside =>
    have hkind : kind ≠ .comment := fun h => by simpa using hl.2.1 h
    have hinside : inside.Proper true := by simpa using hl.2.2
    simp [tokens, leaves, hkind, ih hl.1, ihInside hinside]

theorem renders {start : ElementId} {l : Layout} (hl : l.Proper false) :
    Renders l.items (l.tokens [] start) := by
  induction l generalizing start with
  | nil => exact .nil
  | token l _ _ ih => exact (ih hl).append (.code _ .nil)
  | node l kind inside ih ihInside =>
    refine (ih hl.1).append ?_
    split
    · rename_i hkind
      subst hkind
      have hinside : inside.Proper true := by simpa using hl.2.2
      rw [tokens_leaves hinside]
      simpa using Renders.comment inside.leaves (start + l.size) .nil
    · rename_i hkind
      have hcode : (kind == .comment) = false := by simpa using hkind
      exact ihInside (by simpa [hcode] using hl.2.2)

end Layout

namespace Piece

def span : Piece → Span
  | .code token => token.span
  | .comment span => span

end Piece

theorem Covers.ascends {start : Nat} {cs : List Char} {tokens : List Token}
    (h : Covers start cs tokens) :
    Ascends start (tokens.map (·.span)) (start + Text.byteLength cs) := by
  induction h with
  | nil start => exact Nat.le_refl start
  | blank _ _ ih =>
    rw [Text.byteLength_cons, ← Nat.add_assoc]
    exact ih.mono (Nat.le_add_right _ _) (Nat.le_refl _)
  | token hne _ ih =>
    rw [Text.byteLength_append, ← Nat.add_assoc]
    exact ⟨Nat.le_refl _, Nat.lt_add_of_pos_right (Text.byteLength_pos hne), ih⟩

theorem IsComment.body_le {text : String} {span : Span} (h : IsComment text span) :
    span.start + Text.byteLength (commentBody text span) ≤ span.stop := by
  obtain ⟨r, hpiece⟩ := h
  obtain ⟨body, closer, hcontains, -, -, -, hrest⟩ := DocLexer.ofComment_spec hpiece
  have hlength := congrArg Text.byteLength hcontains.append_eq
  rw [Text.byteLength_append] at hlength
  rw [commentBody, hrest, hpiece.stop_eq]
  omega

theorem CoversLines.split {text : String} {spans : List Span} {docs : List Token}
    (h : CoversLines text spans docs) (hspans : ∀ s ∈ spans, IsComment text s) {start stop : Nat}
    (hascends : Ascends start spans stop) :
    Ascends start (docs.map (·.span)) stop ∧
    ∀ s ∈ spans, ∃ before here behind, docs = before ++ here ++ behind ∧
      Covers s.start (commentBody text s) here ∧ Ascends start (before.map (·.span)) s.start ∧
      Ascends s.stop (behind.map (·.span)) stop := by
  induction spans generalizing docs start with
  | nil =>
    obtain rfl : docs = [] := h
    exact ⟨hascends, by simp⟩
  | cons line lines ih =>
    obtain ⟨here, behind, rfl, hhere, hbehind⟩ := h
    obtain ⟨hline, hlines⟩ := List.forall_mem_cons.1 hspans
    obtain ⟨hstart, -, hrest⟩ := hascends
    obtain ⟨hascends, hsplit⟩ := ih hbehind hlines hrest
    have hfirst : Ascends start (here.map (·.span)) line.stop :=
      hhere.ascends.mono hstart hline.body_le
    refine ⟨?_, fun s hs => ?_⟩
    · rw [List.map_append]
      exact hfirst.append hascends
    · rcases List.mem_cons.1 hs with rfl | hs
      · exact ⟨[], here, behind, rfl, hhere, hstart, hascends⟩
      · obtain ⟨before, inside, after, rfl, hinside, hbefore, hafter⟩ := hsplit s hs
        refine ⟨here ++ before, inside, after, by simp, hinside, ?_, hafter⟩
        rw [List.map_append]
        exact hfirst.append hbefore

def SetsApart (text : String) (start stop : Nat) (tokens : List (Token × List ElementId))
    (s : Span) : Prop :=
  ∃ id before here behind, tokens = before ++ here.map (·, [id]) ++ behind ∧
    Covers s.start (commentBody text s) here ∧
    Ascends start (before.map (·.1.span)) s.start ∧ Ascends s.stop (behind.map (·.1.span)) stop

theorem SetsApart.behind {text : String} {start mid stop : Nat}
    {front tokens : List (Token × List ElementId)} {s : Span} (h : SetsApart text mid stop tokens s)
    (hfront : Ascends start (front.map (·.1.span)) mid) :
    SetsApart text start stop (front ++ tokens) s := by
  obtain ⟨id, before, here, behind, rfl, hhere, hbefore, hbehind⟩ := h
  refine ⟨id, front ++ before, here, behind, by simp, hhere, ?_, hbehind⟩
  rw [List.map_append]
  exact hfront.append hbefore

theorem Matches.split {text : String} {items : List Item} {pieces : List Piece}
    {tokens : List (Token × List ElementId)} (h : Matches text items pieces)
    (hrenders : Renders items tokens)
    (hcomments : ∀ s, .comment s ∈ pieces → IsComment text s) {start stop : Nat}
    (hascends : Ascends start (pieces.map Piece.span) stop) :
    Ascends start (tokens.map (·.1.span)) stop ∧ ∀ s, .comment s ∈ pieces →
    SetsApart text start stop tokens s := by
  induction h generalizing tokens start with
  | nil =>
    cases hrenders
    exact ⟨hascends, by simp⟩
  | @code token items pieces _ ih =>
    cases hrenders with
    | code _ hrenders =>
      obtain ⟨hstart, hlt, hrest⟩ := hascends
      obtain ⟨hascends, happart⟩ :=
        ih hrenders (fun s hs => hcomments s (List.mem_cons_of_mem _ hs)) hrest
      refine ⟨⟨hstart, hlt, hascends⟩, fun s hs => ?_⟩
      have hs : Piece.comment s ∈ pieces := by simpa using hs
      have hfront : Ascends start ([(token, ([] : List ElementId))].map (·.1.span))
          token.span.stop :=
        ⟨hstart, hlt, Nat.le_refl _⟩
      exact (happart s hs).behind hfront
  | @comment docs spans items pieces hdocs _ ih =>
    cases hrenders with
    | @comment _ id _ rest hrenders =>
      rw [List.map_append, List.map_map] at hascends
      obtain ⟨mid, hgroup, hrest⟩ := hascends.split
      have hspans : Ascends start spans mid := by simpa [Function.comp_def, Piece.span] using hgroup
      obtain ⟨hdocsAscend, hsplit⟩ := hdocs.split (fun s hs => hcomments s (by simp [hs])) hspans
      obtain ⟨htail, happart⟩ :=
        ih hrenders (fun s hs => hcomments s (List.mem_append_right _ hs)) hrest
      have hfront : Ascends start ((docs.map (·, [id])).map (·.1.span)) mid := by
        simpa [Function.comp_def] using hdocsAscend
      refine ⟨by rw [List.map_append]; exact hfront.append htail, fun s hs => ?_⟩
      rcases List.mem_append.1 hs with hs | hs
      · obtain ⟨before, here, behind, rfl, hhere, hbefore, hbehind⟩ := hsplit s (by simpa using hs)
        refine ⟨id, before.map (·, [id]), here, behind.map (·, [id]) ++ rest, by simp,
          hhere, ?_, ?_⟩
        · simpa [Function.comp_def] using hbefore
        · rw [List.map_append]
          exact Ascends.append (by simpa [Function.comp_def] using hbehind) htail
      · exact (happart s hs).behind hfront

theorem Matches.codes {text : String} {items : List Item} {pieces : List Piece}
    {tokens : List (Token × List ElementId)} (h : Matches text items pieces)
    (hrenders : Renders items tokens) :
    (tokens.filter fun x => x.2.isEmpty).map (fun x => Piece.code x.1) =
    pieces.filter Piece.isCode := by
  induction h generalizing tokens with
  | nil =>
    cases hrenders
    rfl
  | code token _ ih =>
    cases hrenders with
    | code _ hrenders =>
      rw [List.filter_cons_of_pos rfl, List.filter_cons_of_pos rfl, List.map_cons, ih hrenders]
  | comment _ _ ih =>
    cases hrenders with
    | comment _ id hrenders =>
      rw [List.filter_append, List.filter_append, List.map_append, ih hrenders]
      congr 1
      simp [List.filter_map, Function.comp_def, Piece.isCode]

theorem Covers.blank_or_covered {start : Nat} {cs : List Char} {tokens : List Token}
    (h : Covers start cs tokens) {pre post : List Char} {c : Char} (hcs : cs = pre ++ c :: post) :
    Text.isBlank c = true ∨ ∃ t ∈ tokens,
      t.span.start ≤ start + Text.byteLength pre ∧
      start + Text.byteLength pre + c.utf8Size ≤ t.span.stop := by
  induction h generalizing pre with
  | nil => simp at hcs
  | @blank start d cs tokens hd _ ih =>
    cases pre with
    | nil =>
      obtain ⟨rfl, -⟩ := List.cons.inj hcs
      exact .inl hd
    | cons d' pre =>
      obtain ⟨rfl, htail⟩ := List.cons.inj hcs
      rw [Text.byteLength_cons, ← Nat.add_assoc]
      exact ih htail
  | @token start chars cs kind tokens hne _ ih =>
    have hbehind : ∀ {more}, pre = chars ++ more → cs = more ++ c :: post → Text.isBlank c = true ∨
        ∃ t ∈ ⟨kind, ⟨start, start + Text.byteLength chars⟩⟩ :: tokens,
          t.span.start ≤ start + Text.byteLength pre ∧
          start + Text.byteLength pre + c.utf8Size ≤ t.span.stop := by
      rintro more rfl hmore
      rw [Text.byteLength_append, ← Nat.add_assoc]
      obtain hblank | ⟨t, ht, hcovered⟩ := ih hmore
      · exact .inl hblank
      · exact .inr ⟨t, List.mem_cons_of_mem _ ht, hcovered⟩
    rcases List.append_eq_append_iff.1 hcs with ⟨more, hpre, hmore⟩ | ⟨more, rfl, hmore⟩
    · exact hbehind hpre hmore
    · cases more with
      | nil =>
        have hnil : pre = (pre ++ []) ++ [] := by simp
        exact hbehind hnil (by simpa using hmore.symm)
      | cons d more =>
        obtain ⟨rfl, -⟩ := List.cons.inj hmore
        refine .inr ⟨_, List.mem_cons_self, Nat.le_add_right _ _, ?_⟩
        simp only [Text.byteLength_append, Text.byteLength_cons]
        omega

theorem Covers.exists_token {start : Nat} {r : List Char} {tokens : List Token}
    (h : Covers start ('-' :: r) tokens) : tokens ≠ [] := by
  generalize hcs : '-' :: r = cs at h
  cases h with
  | nil => cases hcs
  | blank hc =>
    obtain ⟨rfl, -⟩ := List.cons.inj hcs
    exact absurd hc (by decide)
  | token => simp

namespace Lexer

theorem Tiles.covers {start : Nat} {cs : List Char} {tokens : List Token}
    (h : Tiles start cs tokens) : Covers start cs tokens := by
  induction h with
  | nil start => exact .nil start
  | cons hne _ _ _ ih => exact .token hne ih

theorem Tiles.isComment {text : String} {start : Nat} {cs : List Char} {tokens : List Token}
    (h : Tiles start cs tokens) {pre : List Char} (htext : text.toList = pre ++ cs)
    (hpre : start = Text.byteLength pre) :
    ∀ t ∈ tokens, t.kind.isComment = true → IsComment text t.span := by
  induction h generalizing pre with
  | nil => simp
  | @cons start chars rest kind tokens hne heof hcomment htiles ih =>
    intro t ht hkind
    rcases List.mem_cons.1 ht with rfl | ht
    · obtain ⟨tail, rfl⟩ := hcomment hkind
      exact ⟨tail, pre, rest, by rw [htext, List.append_assoc], hpre, rfl⟩
    · have hcut : text.toList = (pre ++ chars) ++ rest := by rw [htext, List.append_assoc]
      exact ih hcut (by rw [Text.byteLength_append, hpre]) t ht hkind

end Lexer

theorem Piece.comment_mem {tokens : List Token} {s : Span}
    (h : Piece.comment s ∈ Piece.ofTokens tokens) : ∃ t ∈ tokens, t.kind.isComment = true ∧
    t.span = s := by
  obtain ⟨t, ht, hpiece⟩ := List.mem_filterMap.1 h
  unfold Piece.ofToken? at hpiece
  split at hpiece
  · rename_i hcomment
    exact ⟨t, ht, hcomment, by simpa using hpiece⟩
  · split at hpiece <;> simp at hpiece

theorem Piece.isComment_of_mem {text : String} {tokens : List Token}
    (hcomments : ∀ t ∈ tokens, t.kind.isComment = true → IsComment text t.span) :
    ∀ s, .comment s ∈ Piece.ofTokens tokens → IsComment text s := by
  intro s hs
  obtain ⟨t, ht, hkind, rfl⟩ := Piece.comment_mem hs
  exact hcomments t ht hkind

theorem ofTokens_spec (text : String) {tokens : List Token} (hends : Parser.EndsText tokens)
    (hcomments : ∀ t ∈ tokens, t.kind.isComment = true → IsComment text t.span) :
    (Parser.ofTokens text tokens).Valid ∧ (Parser.ofTokens text tokens).ahead =
    Piece.ofTokens tokens := by
  obtain ⟨hsplit, htrivia, hcode⟩ := Parser.advance_spec ⟨.eof, .empty text.utf8ByteSize⟩ hends
  have hahead : (Parser.ofTokens text tokens).ahead = Piece.ofTokens tokens :=
    congrArg Piece.ofTokens hsplit
  refine ⟨⟨htrivia, hcode, ?_, fun s hs => ?_⟩, hahead⟩
  · rw [← hsplit] at hends
    exact hends.of_append
  · exact Piece.isComment_of_mem hcomments s (hahead ▸ hs)

/-- A token of the code, neither blank nor comment nor the end of the text. -/
def Token.isCode (t : Token) : Bool := !t.kind.isTrivia && t.kind != .eof

/-- An offset lies in the bracket that closes a long comment. -/
def InCloser (text : String) (comment : Span) (offset : Nat) : Prop :=
  ∃ level body, DocLexer.longCommentLevel? (Text.slice text comment).toList = some level ∧
    (Text.slice text comment).toList = body ++ Lexer.longCloser level ∧
    comment.start + Text.byteLength body ≤ offset

def Tree.tokens (t : Tree) : List Token := t.tokensInComments.map (·.1)

/-- The tokens of a tree stand for the text that was cut into the given ones. -/
structure Tree.Lossless (t : Tree) (lexed : List Token) : Prop where
  /-- Tokens are not empty, and in preorder each of them ends before the next one starts. -/
  ascends : (t.tokens.map (·.span)).Pairwise (fun a b => a.stop ≤ b.start) ∧
    ∀ x ∈ t.tokens, x.span.start < x.span.stop
  /-- Outside of comments stand the tokens of the code, each once and in their order. -/
  code : (t.tokensInComments.filter fun x => x.2.isEmpty).map (·.1) = lexed.filter Token.isCode
  /-- The tokens of a comment stand in one comment node, and none reaches out of the comment. -/
  comment : ∀ c ∈ lexed, c.kind.isComment = true → ∃ id, t.nodeKind? id = some .comment ∧
    (∃ x ∈ t.tokensInComments, c.span.start ≤ x.1.span.start ∧ x.1.span.stop ≤ c.span.stop) ∧
    ∀ x ∈ t.tokensInComments, x.1.span.start < c.span.stop → c.span.start < x.1.span.stop →
      x.2 = [id] ∧ c.span.start ≤ x.1.span.start ∧ x.1.span.stop ≤ c.span.stop
  /-- What no token covers of a comment is blank or closes it. -/
  covered : ∀ c ∈ lexed, c.kind.isComment = true →
    ∀ pre ch post, t.text.toList = pre ++ ch :: post →
    c.span.start ≤ Text.byteLength pre → Text.byteLength pre < c.span.stop →
    (∃ x ∈ t.tokens, x.span.start ≤ Text.byteLength pre ∧
      Text.byteLength pre + ch.utf8Size ≤ x.span.stop) ∨
      Text.isBlank ch = true ∨ InCloser t.text c.span (Text.byteLength pre)

namespace Piece

theorem length_ofTokens_le (tokens : List Token) : (ofTokens tokens).length ≤ tokens.length :=
  List.length_filterMap_le _ _

theorem span_ofTokens (tokens : List Token) :
    ((ofTokens tokens).map span).Sublist (tokens.map (·.span)) := by
  induction tokens with
  | nil => exact .slnil
  | cons t tokens ih =>
    rw [ofTokens, List.filterMap_cons]
    split
    · exact ih.cons _
    · rename_i piece hpiece
      have hspan : piece.span = t.span := by
        unfold ofToken? at hpiece
        split at hpiece
        · obtain rfl := Option.some.inj hpiece
          rfl
        · split at hpiece
          · cases hpiece
          · obtain rfl := Option.some.inj hpiece
            rfl
      rw [List.map_cons, List.map_cons, hspan]
      exact ih.cons_cons _

theorem filter_isCode_ofTokens (tokens : List Token) :
    (ofTokens tokens).filter isCode = (tokens.filter Token.isCode).map .code := by
  induction tokens with
  | nil => rfl
  | cons t tokens ih =>
    by_cases hcomment : t.kind.isComment = true
    · have htrivia : t.kind.isTrivia = true := by
        cases hkind : t.kind <;> simp_all [TokenKind.isTrivia, TokenKind.isComment]
      rw [ofTokens_cons_comment hcomment, List.filter_cons_of_neg (by simp [isCode]), ih,
        List.filter_cons_of_neg (by simp [Token.isCode, htrivia])]
    · by_cases hcode : t.isCode = true
      · simp only [Token.isCode, Bool.and_eq_true, Bool.not_eq_true', bne_iff_ne] at hcode
        rw [ofTokens_cons_code hcode.1 hcode.2, List.filter_cons_of_pos rfl, ih,
          List.filter_cons_of_pos (by simpa [Token.isCode] using hcode), List.map_cons]
      · have hblank : (t.kind.isTrivia || t.kind == .eof) = true := by
          by_contra hne
          simp_all [Token.isCode]
        have hskip : ofTokens (t :: tokens) = ofTokens tokens := by
          simp only [ofTokens, List.filterMap_cons, ofToken?, hcomment, hblank]
          rfl
        rw [hskip, ih, List.filter_cons_of_neg hcode]

theorem comment_mem_ofTokens {tokens : List Token} {t : Token} (ht : t ∈ tokens)
    (hcomment : t.kind.isComment = true) : Piece.comment t.span ∈ ofTokens tokens :=
  List.mem_filterMap.2 ⟨t, ht, by simp [ofToken?, hcomment]⟩

end Piece

theorem IsComment.exists_body {text : String} {s : Span} (h : IsComment text s) :
    ∃ r, commentBody text s = '-' :: r := by
  obtain ⟨r, hpiece⟩ := h
  obtain ⟨body, closer, hcontains, -, -, -, hrest⟩ := DocLexer.ofComment_spec hpiece
  obtain ⟨r, hr⟩ := hcontains.opens
  exact ⟨'-' :: r, by rw [commentBody, hrest, hr]⟩

theorem SetsApart.comment {text : String} {start stop : Nat}
    {tokens : List (Token × List ElementId)} {s : Span} (h : SetsApart text start stop tokens s)
    (hs : IsComment text s) : ∃ id,
      (∃ x ∈ tokens, x.2 = [id] ∧ s.start ≤ x.1.span.start ∧ x.1.span.stop ≤ s.stop) ∧
      ∀ x ∈ tokens, x.1.span.start < s.stop → s.start < x.1.span.stop →
        x.2 = [id] ∧ s.start ≤ x.1.span.start ∧ x.1.span.stop ≤ s.stop := by
  obtain ⟨id, before, here, behind, rfl, hhere, hbefore, hbehind⟩ := h
  have hinside : ∀ t ∈ here, s.start ≤ t.span.start ∧ t.span.stop ≤ s.stop := by
    intro t ht
    obtain ⟨hstart, -, hstop⟩ := hhere.ascends.bounds (List.mem_map_of_mem ht)
    exact ⟨hstart, Nat.le_trans hstop hs.body_le⟩
  obtain ⟨r, hbody⟩ := hs.exists_body
  refine ⟨id, ?_, fun x hx hxstart hxstop => ?_⟩
  · obtain ⟨t, rest, rfl⟩ := List.exists_cons_of_ne_nil (hbody ▸ hhere).exists_token
    exact ⟨(t, [id]), by simp, rfl, hinside t (by simp)⟩
  · rw [List.mem_append, List.mem_append] at hx
    rcases hx with (hx | hx) | hx
    · have :=
        hbefore.bounds (List.mem_map_of_mem (f := fun x : Token × List ElementId => x.1.span) hx)
      omega
    · obtain ⟨t, ht, rfl⟩ := List.mem_map.1 hx
      exact ⟨rfl, hinside t ht⟩
    · have :=
        hbehind.bounds (List.mem_map_of_mem (f := fun x : Token × List ElementId => x.1.span) hx)
      omega

theorem covered_or_blank {text : String} {s : Span} {docs : List Token} (hs : IsComment text s)
    (hdocs : Covers s.start (commentBody text s) docs) {pre post : List Char} {c : Char}
    (htext : text.toList = pre ++ c :: post)
    (hstart : s.start ≤ Text.byteLength pre) (hstop : Text.byteLength pre < s.stop) :
    (∃ x ∈ docs, x.span.start ≤ Text.byteLength pre ∧
      Text.byteLength pre + c.utf8Size ≤ x.span.stop) ∨
      Text.isBlank c = true ∨ InCloser text s (Text.byteLength pre) := by
  obtain ⟨r, hpiece⟩ := hs
  obtain ⟨body, closer, hcontains, -, -, -, hrest⟩ := DocLexer.ofComment_spec hpiece
  have hslice := hpiece.slice_eq
  rw [commentBody, hrest] at hdocs
  obtain ⟨front, back, hsplit, hfront, hlength⟩ := hpiece
  rw [← hcontains.append_eq] at hsplit hlength hslice
  rw [htext] at hsplit
  obtain ⟨mid, rest, rfl, hmid⟩ := Text.split_of_offset hsplit.symm (by omega) (by omega)
  have hoffset : s.start + Text.byteLength mid = Text.byteLength (front ++ mid) := by
    rw [Text.byteLength_append, hfront]
  by_cases hin : Text.byteLength mid < Text.byteLength body
  · -- the character is in front of the closing bracket, where the tokens cover all but blanks
    have happend : [] ++ body ++ closer = mid ++ c :: rest := hmid
    obtain ⟨inner, behind, rfl, hbody⟩ :=
      Text.split_of_offset happend (Nat.zero_le _) (by simpa using hin)
    rcases hdocs.blank_or_covered hbody with hblank | hcovered
    · exact .inr (.inl hblank)
    · rw [← hoffset]
      exact .inl hcovered
  · have hlength' := congrArg Text.byteLength hmid
    rw [Text.byteLength_append, Text.byteLength_append, Text.byteLength_cons] at hlength'
    have hpos := c.utf8Size_pos
    rcases hcontains.closer_eq with rfl | ⟨level, hlevel, rfl⟩
    · rw [Text.byteLength_nil] at hlength'
      omega
    · refine .inr (.inr ⟨level, body, ?_, hslice, by omega⟩)
      rw [hslice, hcontains.append_eq]
      exact hlevel

theorem Tree.nodeKind?_of_commentsAround {t : Tree} {x : Token × List ElementId}
    (hx : x ∈ t.tokensInComments) {id : ElementId} (hid : id ∈ x.2) :
    t.nodeKind? id = some .comment := by
  obtain ⟨e, -, he⟩ := List.mem_filterMap.1 hx
  obtain ⟨token, -, rfl⟩ := Option.map_eq_some_iff.1 he
  have hkind : t.kind id = .comment := by simpa using (List.mem_filter.1 hid).2
  rw [Tree.kind] at hkind
  cases hnode : t.nodeKind? id with
  | none => simp [hnode] at hkind
  | some kind => simpa [hnode] using hkind

theorem Tree.lossless_of_matches {t : Tree} {text : String} (htext : t.text = text)
    {lexed : List Token} {items : List Item} {stop : Nat}
    (hmatches : Matches text items (Piece.ofTokens lexed))
    (hrenders : Renders items t.tokensInComments)
    (hcomments : ∀ c ∈ lexed, c.kind.isComment = true → IsComment text c.span)
    (hlexed : Ascends 0 ((Piece.ofTokens lexed).map Piece.span) stop) : t.Lossless lexed := by
  subst htext
  obtain ⟨hascends, happart⟩ := hmatches.split hrenders (Piece.isComment_of_mem hcomments) hlexed
  have htokens : t.tokens.map (·.span) = t.tokensInComments.map (·.1.span) := by
    simp [Tree.tokens, Function.comp_def]
  refine ⟨⟨?_, fun x hx => ?_⟩, ?_, fun c hc hkind => ?_,
    fun c hc hkind pre ch post hsplit hstart hstop => ?_⟩
  · rw [htokens]
    exact hascends.pairwise
  · exact (hascends.bounds (htokens ▸ List.mem_map_of_mem hx)).2.1
  · have hcodes := hmatches.codes hrenders
    rw [Piece.filter_isCode_ofTokens] at hcodes
    refine List.map_injective_iff.2 (fun a b h => Piece.code.inj h) (hcodes ▸ ?_)
    rw [List.map_map]
    rfl
  · have hs := hcomments c hc hkind
    obtain ⟨id, ⟨x, hx, hid, hinside⟩, hall⟩ :=
      (happart _ (Piece.comment_mem_ofTokens hc hkind)).comment hs
    exact ⟨id, t.nodeKind?_of_commentsAround hx (by simp [hid]), ⟨x, hx, hinside⟩, hall⟩
  · have hs := hcomments c hc hkind
    obtain ⟨id, before, here, behind, heq, hhere, -, -⟩ :=
      happart _ (Piece.comment_mem_ofTokens hc hkind)
    refine (covered_or_blank hs hhere hsplit hstart hstop).imp_left fun ⟨x, hx, hcovers⟩ =>
      ⟨x, ?_, hcovers⟩
    rw [Tree.tokens, heq]
    simp [hx]

theorem text_ofLog (text : String) (log : EventLog) (errors : List SyntaxError) :
    (Tree.ofLog text log errors).text = text :=
  rfl

theorem parse_eq (text : String) : parse text =
    Tree.ofLog text (Grammar.chunk (Parser.ofTokens text (Lexer.tokenize text).1)).log
    (Lexer.tokenize text).2 := rfl

namespace Lexer

theorem isComment_tokenize (text : String) : ∀ t ∈ (tokenize text).1, t.kind.isComment = true →
    IsComment text t.span := by
  obtain ⟨tokens, stop, htokens, htiles⟩ := tokenize_tiles text
  intro t ht hkind
  rw [htokens, List.mem_append, List.mem_singleton] at ht
  rcases ht with ht | rfl
  · exact htiles.isComment (List.nil_append _).symm rfl t ht hkind
  · cases hkind

theorem endsText_tokenize (text : String) : Parser.EndsText (tokenize text).1 := by
  obtain ⟨tokens, stop, htokens, htiles⟩ := tokenize_tiles text
  exact ⟨tokens, _, htokens, rfl, htiles.ne_eof⟩

theorem pieces_tokenize (text : String) :
    ∃ tokens, Piece.ofTokens (tokenize text).1 = Piece.ofTokens tokens ∧
    Tiles 0 text.toList tokens := by
  obtain ⟨tokens, stop, htokens, htiles⟩ := tokenize_tiles text
  refine ⟨tokens, ?_, htiles⟩
  rw [htokens, Piece.ofTokens_append]
  exact List.append_nil _

theorem ascends_tokenize (text : String) :
    Ascends 0 ((Piece.ofTokens (tokenize text).1).map Piece.span)
    (0 + Text.byteLength text.toList) := by
  obtain ⟨tokens, hpieces, htiles⟩ := pieces_tokenize text
  rw [hpieces]
  exact htiles.covers.ascends.sublist (Piece.span_ofTokens tokens)

end Lexer

theorem exists_chunk (text : String) : ∃ f : Forest, f.Places (NodeKind.production .chunk) ∧
    (Grammar.chunk (Parser.ofTokens text (Lexer.tokenize text).1)).log.toList =
    (Branch.node .chunk f).encode false ∧
    Matches text f.items (Piece.ofTokens (Lexer.tokenize text).1) := by
  have hends := Lexer.endsText_tokenize text
  have hcomments := Lexer.isComment_tokenize text
  generalize (Lexer.tokenize text).1 = lexed at hends hcomments ⊢
  obtain ⟨hvalid, hahead⟩ := ofTokens_spec text hends hcomments
  have hbound : (Parser.ofTokens text lexed).codes ≤ (Parser.ofTokens text lexed).bound := by
    rw [Parser.codes, hahead]
    exact Nat.le_trans List.countP_le_length (Piece.length_ofTokens_le lexed)
  obtain ⟨f, hf, hlog, hmatches⟩ := Grammar.chunk_spec hvalid hbound rfl
  exact ⟨f, hf, hlog, hahead ▸ hmatches⟩

theorem exists_branch (text : String) : ∃ b : Branch, b.Proper false ∧
    (Grammar.chunk (Parser.ofTokens text (Lexer.tokenize text).1)).log.toList = b.encode false ∧
    Matches text b.items (Piece.ofTokens (Lexer.tokenize text).1) := by
  obtain ⟨f, hf, hlog, hmatches⟩ := exists_chunk text
  exact ⟨.node .chunk f, ⟨by simp, by simp, hf.proper⟩, hlog, hmatches⟩

/-- Whatever a text is, its tree leaves out nothing but blanks. -/
theorem parse_lossless (text : String) : (parse text).Lossless (Lexer.tokenize text).1 := by
  obtain ⟨b, hb, hlog, hmatches⟩ := exists_branch text
  have hproper : (Forest.branch .nil b).Proper false := ⟨trivial, hb⟩
  have hitems : (Forest.branch .nil b).layout.items = b.items := by
    rw [Forest.items_layout _ hproper, Forest.items, Forest.items, List.nil_append]
  have hrenders : Renders b.items (parse text).tokensInComments := by
    rw [parse_eq, Tree.tokensInComments_ofLog hb hlog, ← hitems]
    exact Layout.renders (Forest.proper_layout _ hproper)
  have htext : (parse text).text = text := by rw [parse_eq, text_ofLog]
  exact Tree.lossless_of_matches htext hmatches hrenders (Lexer.isComment_tokenize text)
    (Lexer.ascends_tokenize text)

end LuaAnalysis.Syntax
