import LuaAnalysis.Proofs.Syntax.ExprText
import LuaAnalysis.Proofs.Syntax.TagReading
import LuaAnalysis.Proofs.Syntax.WordRuns

namespace LuaAnalysis.Syntax

def Word.kwLocal : Word := { kind := .kwLocal, text := "local" }

namespace Lexer

theorem lexeme_comment {line : List Char} (hline : ∀ c ∈ line, isLineBreak c = false)
    (s : List Char) : lexeme '-' ('-' :: '-' :: line ++ '\n' :: s) =
    ⟨.shortComment, '-' :: '-' :: '-' :: line, '\n' :: s, none⟩ := by
  have hlexeme : lexeme '-' ('-' :: '-' :: line ++ '\n' :: s) =
      comment ('-' :: line ++ '\n' :: s) := rfl
  have hlevel : longLevel? ('-' :: line ++ '\n' :: s) = none := rfl
  have hkept : ∀ c ∈ '-' :: line, (!isLineBreak c) = true := by
    simpa [show isLineBreak '-' = false by decide] using hline
  rw [hlexeme, comment, hlevel]
  simp only [run, List.span_eq_takeWhile_dropWhile]
  rw [List.takeWhile_append_of_pos hkept, List.dropWhile_append_of_pos hkept]
  simp [show isLineBreak '\n' = true by decide]

theorem lexeme_lineBreak {c : Char} (hc : isLineBreak c = false) (s : List Char) :
    lexeme '\n' (c :: s) = ⟨.endOfLine, ['\n'], c :: s, none⟩ := by
  have hne : c ≠ '\r' := by
    rintro rfl
    cases hc
  unfold lexeme lineBreak
  rw [if_pos (by decide)]
  split <;> simp_all

theorem exists_lexFrom_spaced (w : Word) (ws : List Word) (fuel start : Nat) :
    ∃ t tokens, (lexFrom (fuel + 1) start (spaced (w :: ws)).toList).1 = t :: tokens ∧
    t.kind = w.kind := by
  cases ws with
  | nil =>
    have hsingle : (spaced [w]).toList = w.text.toList ++ [] := by simp [spaced]
    rw [hsingle, lexFrom_word w (.inl rfl)]
    exact ⟨_, _, rfl, rfl⟩
  | cons w' ws =>
    rw [toList_spaced_cons, lexFrom_word w (.inr ⟨_, rfl⟩)]
    exact ⟨_, _, rfl, rfl⟩

theorem lexFrom_commented {line : List Char} (hline : ∀ c ∈ line, isLineBreak c = false) {c : Char}
    (hc : isLineBreak c = false) (n : Nat) (s : List Char) :
    lexFrom (n + 2) 0 ('-' :: '-' :: '-' :: line ++ '\n' :: c :: s) =
      (⟨.shortComment, ⟨0, Text.byteLength ('-' :: '-' :: '-' :: line)⟩⟩ ::
        ⟨.endOfLine, ⟨Text.byteLength ('-' :: '-' :: '-' :: line),
          Text.byteLength ('-' :: '-' :: '-' :: line ++ ['\n'])⟩⟩ ::
          (lexFrom n (Text.byteLength ('-' :: '-' :: '-' :: line ++ ['\n'])) (c :: s)).1,
        (lexFrom n (Text.byteLength ('-' :: '-' :: '-' :: line ++ ['\n'])) (c :: s)).2) := by
  rw [List.cons_append, lexFrom_cons, lexeme_comment hline]
  simp only
  rw [lexFrom_cons, lexeme_lineBreak hc]
  simp only
  rw [Nat.zero_add, ← Text.byteLength_append]
  rfl

theorem tokenize_commented {text : String} {line : List Char} {w : Word} {ws : List Word}
    (hline : ∀ c ∈ line, isLineBreak c = false)
    (htext : text.toList = '-' :: '-' :: '-' :: line ++ '\n' :: (spaced (w :: ws)).toList) :
    ∃ e t tokens, tokenize text =
        (⟨.shortComment, ⟨0, Text.byteLength ('-' :: '-' :: '-' :: line)⟩⟩ :: e :: t ::
          tokens, []) ∧
      e.kind = .endOfLine ∧ (∀ x ∈ tokens, x.kind.isComment = false) ∧
      Spells text (w :: ws) (t :: tokens.filter fun t => !t.kind.isTrivia) := by
  obtain ⟨c, s, hs, -, hbreak⟩ := exists_toList_spaced w ws
  have hpre : text.toList = ('-' :: '-' :: '-' :: line ++ ['\n']) ++ (spaced (w :: ws)).toList := by
    rw [htext]; simp
  obtain ⟨n, hn, hfuel⟩ : ∃ n, text.toList.length = n + 3 ∧
      (spaced (w :: ws)).toList.length ≤ n + 1 := by
    refine ⟨text.toList.length - 3, ?_, ?_⟩
    · rw [htext]
      simp
    · rw [htext]
      simp
      omega
  obtain ⟨tokens, htokens, hquiet, hspells⟩ := lexFrom_spaced hpre hfuel
  obtain ⟨t, tokens, hcons, hkind⟩ :=
    exists_lexFrom_spaced w ws n (Text.byteLength ('-' :: '-' :: '-' :: line ++ ['\n']))
  rw [htokens] at hcons
  obtain rfl : _ = t :: tokens := hcons
  have hshebang : shebang? text.toList = none := by rw [htext]; rfl
  have hlex : tokenize text = lexFrom (n + 1 + 2) 0
      ('-' :: '-' :: '-' :: line ++ '\n' :: (spaced (w :: ws)).toList) := by
    rw [tokenize, hshebang]
    simp only
    rw [hn, htext]
  rw [hs, lexFrom_commented hline hbreak, ← hs, htokens] at hlex
  rw [List.filter_cons, hkind, w.isTrivia] at hspells
  exact ⟨_, t, tokens, hlex, rfl, fun x hx => hquiet x (List.mem_cons_of_mem _ hx), hspells⟩

end Lexer

theorem Parser.ofTokens_commented {c e t : Token} (hc : c.kind = .shortComment)
    (he : e.kind = .endOfLine) (ht : t.kind.isTrivia = false) (text : String)
    (tokens : List Token) :
    ofTokens text (c :: e :: t :: tokens) = ⟨text, [c, e], t, tokens, #[], tokens.length + 3⟩ := by
  have htrivia : ∀ x ∈ [c, e], x.kind.isTrivia = true := by simp [hc, he, TokenKind.isTrivia]
  rw [ofTokens, show c :: e :: t :: tokens = [c, e] ++ t :: tokens from rfl,
    advance_append _ htrivia ht]
  rfl

theorem Parser.Wrote.comment {p : Parser} {text : String} {spans : List Span} {pre : List Event}
    {shapes inner : List Shape} {ws : List Word} (h : p.Wrote text pre shapes ws)
    (htext : p.text = text)
    (hinner : ∀ (log : EventLog) (pre : List Event), log.Holds true text pre [] →
      (Doc.parseComments text spans log).Holds true text pre inner) :
    (p.comment spans).Wrote text pre (shapes ++ [.node .comment inner]) ws := by
  subst htext
  have hinside := hinner p.log.openNode.1 _ (EventLog.holds_openNode true p.text p.log)
  exact ⟨h.1.withLog _, (h.2.close_of hinside fun _ hf => Branch.draws_comment hf).holds⟩

namespace Grammar

open Syntax.Parser

variable {g : Rules} {text : String} {p : Parser} {pre : List Event} {shapes : List Shape}
  {w : Word} {ws : List Word}

theorem wrote_localName (hname : w.kind = .name) (hlt : headKind ws ≠ .lt)
    (h : p.Wrote text pre shapes (w :: ws)) :
    (localName p).Wrote text pre (shapes ++ [.node .localName [w.shape]]) ws := by
  have hopened : p.openNode.1.Wrote text (p.log.toList ++ [.blank]) [] (w :: ws) :=
    ⟨h.1.withLog _, EventLog.holds_openNode false text p.log⟩
  have hattribute : (p.openNode.1.need .name).sees .lt = false := by
    rw [(hopened.need .name hname).sees_eq, beq_false_of_ne hlt]
  have hread : localName p = (p.openNode.1.need .name).finish p.openNode.2 .localName := by
    rw [localName]
    simp only [hattribute, Bool.false_eq_true, if_false]
  rw [hread]
  exact (h.node (show NodeKind.localName ≠ .absent ∧ NodeKind.localName ≠ .comment by decide)
    (fun q => q.need .name)
    fun q pre' hq => hq.need .name hname).wrote

theorem wrote_localStat (hname : w.kind = .name) (h : p.Wrote text pre shapes [.kwLocal, w]) :
    ∃ q, localStat g p = (q, .localStat) ∧
      q.Wrote text pre (shapes ++ [Word.kwLocal.shape, .node .localName [w.shape]]) [] := by
  have hlocal := h.bump
  have hplain := hlocal.eat_of_ne (show headKind [w] ≠ .kwFunction by rw [headKind, hname]; decide)
  have hread := wrote_localName hname (show headKind [] ≠ .lt by decide) hlocal
  have hcomma := hread.eat_of_ne (show headKind [] ≠ .comma by decide)
  have hassign := hread.eat_of_ne (show headKind [] ≠ .assign by decide)
  have hnames : commaSeparated localName p.bump = localName p.bump := by
    rw [commaSeparated, repeatWhile, hcomma]
  refine ⟨localName p.bump, ?_, by simpa using hread⟩
  rw [localStat, hplain]
  simp only
  rw [hnames, hassign]

theorem openDocumented_comment {c e : Token} (hc : c.kind = .shortComment)
    (he : e.kind = .endOfLine) (hpending : p.pending = [c, e]) (heof : p.sees .eof = false) :
    p.openDocumented = (({ p with pending := [] }.openNode.1).comment [c.span],
      p.log.openNode.2) := by
  have hgroups : CommentGroup.ofTrivia p.pending = [⟨[c.span], 1⟩] := by
    rw [hpending]
    simp [CommentGroup.ofTrivia, CommentGroup.split, hc, he, TokenKind.isComment]
  have hsees : Parser.sees { p with pending := [] } .eof = false := heof
  have hleading : p.leadingComments = ({ p with pending := [] }, some [c.span]) := by
    rw [leadingComments, hgroups]
    simp [hsees, CommentGroup.maxAttachedBreaks, comments]
  rw [openDocumented, hleading]
  rfl

theorem readsStat_commentedLocal {c e t : Token} {tokens : List Token} {inner : List Shape}
    (hc : c.kind = .shortComment) (he : e.kind = .endOfLine) (hname : w.kind = .name)
    (hquiet : ∀ x ∈ tokens, x.kind.isComment = false)
    (hspells : Spells text [.kwLocal, w] (t :: tokens.filter fun t => !t.kind.isTrivia))
    (hinner : ∀ (log : EventLog) (pre : List Event), log.Holds true text pre [] →
      (Doc.parseComments text [c.span] log).Holds true text pre inner) :
    ReadsStat g text (Parser.ofTokens text (c :: e :: t :: tokens))
      (.node .localStat [.node .comment inner, Word.kwLocal.shape,
        .node .localName [w.shape]]) := by
  intro log pre hlog
  have hkind : t.kind = .kwLocal := hspells.kind_head
  obtain ⟨p, hp⟩ : ∃ p : Parser, p = ⟨text, [c, e], t, tokens, log, tokens.length + 3⟩ := ⟨_, rfl⟩
  have hat : At text { p with pending := [] } [.kwLocal, w] := by
    rw [hp]
    exact ⟨by simpa using hquiet, hspells, by simp⟩
  have hopen : p.openDocumented = (({ p with pending := [] }.openNode.1).comment [c.span],
      p.log.openNode.2) :=
    openDocumented_comment hc he (by rw [hp]) (by rw [hp, sees, kind, hkind]; rfl)
  rw [ofTokens_commented hc he (by rw [hkind]; rfl), ← hp, documentedStat, hopen]
  have htext : p.text = text := by rw [hp]
  have hopened : (({ p with pending := [] } : Parser).openNode.1).Wrote text
      (p.log.toList ++ [.blank]) [] [.kwLocal, w] :=
    ⟨hat.withLog _, EventLog.holds_openNode false text p.log⟩
  have hcomment := hopened.comment htext hinner
  obtain ⟨q, hstat, hq⟩ := wrote_localStat (g := g) hname hcomment
  have hlocal : (({ p with pending := [] }.openNode.1).comment [c.span]).kind = .kwLocal :=
    hcomment.kind_eq
  simp only [statement?, hlocal, hstat]
  rw [hq.trailingComment]
  have hbefore : p.log.Holds false text pre [] := by rwa [hp]
  exact ⟨hq.1.withLog _,
    (hbefore.close hq.2 (show NodeKind.localStat ≠ .absent ∧
      NodeKind.localStat ≠ .comment by decide)).holds⟩

end Grammar

/-- A local variable of a name below a type tag with a text. -/
def annotated (type : String) (name : Name) : String :=
  "---@type " ++ type ++ "\n" ++ spaced [.kwLocal, name.toWord]

def annotatedShape (type : Shape) (name : Name) : Shape :=
  .node .localStat
    [.node .comment [DocWord.lineStart.shape, .node .docTagType [DocWord.typeTag.shape, type]],
      Word.kwLocal.shape, .node .localName [name.shape]]

theorem parse_annotated {f : TypeForm} (hf : f.WellFormed) {type : String}
    (htype : type.toList = DocWord.chars f.words) (name : Name) :
    (parse (annotated type name)).errors = [] ∧
      (parse (annotated type name)).shape Tree.root =
      .node .chunk [.node .block [annotatedShape f.shape name]] := by
  have happart := TypeForm.apart_words hf DocWord.endsWord_nil trivial
  rw [List.append_nil] at happart
  have hline : ∀ c ∈ "@type ".toList ++ DocWord.chars f.words, Lexer.isLineBreak c = false := by
    intro c hc
    have hopen : ("@type ".toList.all fun c => !Lexer.isLineBreak c) = true := rfl
    rcases List.mem_append.1 hc with hc | hc
    · simpa using List.all_eq_true.1 hopen c hc
    · exact DocWord.not_isLineBreak_of_apart happart c hc
  have htext : (annotated type name).toList =
      '-' :: '-' :: '-' :: ("@type ".toList ++ DocWord.chars f.words) ++ '\n' ::
      (spaced [.kwLocal, name.toWord]).toList := by
    simp [annotated, htype]
  obtain ⟨e, t, tokens, htokens, he, hquiet, hspells⟩ := Lexer.tokenize_commented hline htext
  refine parse_of_readsStat htokens ?_ ?_
  · have hkind : t.kind = .kwLocal := hspells.kind_head
    rw [Parser.ofTokens_commented rfl he (by rw [hkind]; rfl), Parser.kind, hkind]
    rfl
  · refine Grammar.readsStat_commentedLocal rfl he name.kind_eq hquiet hspells
      fun log pre hlog => ?_
    exact Doc.holds_parseComments hf ⟨[], _, htext, rfl, by simp⟩ hlog

end LuaAnalysis.Syntax
