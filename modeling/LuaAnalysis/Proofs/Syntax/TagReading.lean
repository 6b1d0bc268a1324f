import LuaAnalysis.Proofs.Syntax.DocGrammar
import LuaAnalysis.Proofs.Syntax.TypeReading

namespace LuaAnalysis.Syntax

namespace DocWord

def lineStart : DocWord := ⟨.docStart, "---"⟩

def typeTag : DocWord := ⟨.tagType, "@type"⟩

end DocWord

open DocWord

namespace DocLexer

open Cursor

theorem tagWord_type {c : Cursor} (hc : c.Valid) {s : List Char}
    (hrest : c.rest = "@type ".toList ++ s) : ∃ d : Cursor, (DocLexer.mk c .tag).next =
    (⟨.tagType, d.span⟩, ⟨d, .normal⟩) ∧ d.Valid ∧ d.text = c.text ∧
      d.rest = ' ' :: s ∧ Text.slice c.text d.span = "@type" := by
  have hblanks := reads_skipWhile c Text.isBlank
  rw [hrest, show ("@type ".toList ++ s).takeWhile Text.isBlank = [] from rfl] at hblanks
  obtain ⟨b, hb⟩ : ∃ b, b = (c.skipWhile Text.isBlank).mark := ⟨_, rfl⟩
  have hbrest : b.rest = "@type".toList ++ ' ' :: s := by
    rw [hb]
    exact hblanks.rest_eq.symm.trans hrest
  have hvalid : b.Valid := hb ▸ (hc.reads hblanks).mark
  have htext : b.text = c.text := by rw [hb]; exact hblanks.text_eq
  obtain ⟨d, hd⟩ : ∃ d, d = b.bump.skipWhile fun x => x == '-' || Lexer.isNameChar x := ⟨_, rfl⟩
  have hread : Reads b "@type".toList d := by
    have hbump :=
      (reads_bump b).trans (reads_skipWhile b.bump fun x => x == '-' || Lexer.isNameChar x)
    rw [← hd, show b.bump.rest = "type".toList ++ ' ' :: s by rw [bump, hbrest]; rfl,
      hbrest] at hbump
    exact hbump
  have hpiece : Text.IsPiece b.text ⟨b.pos, b.stop⟩ ("@type".toList ++ d.rest) :=
    hread.rest_eq ▸ hvalid
  have hspan : d.span = ⟨b.pos, b.pos + Text.byteLength "@type".toList⟩ := by
    rw [Cursor.span, hread.start_eq, hread.pos_eq, hb]
    rfl
  have hslice : Text.slice c.text d.span = "@type" := by
    rw [hspan, ← htext]
    exact String.toList_inj.1 hpiece.split.1.slice_eq
  refine ⟨d, ?_, hvalid.reads hread, hread.text_eq.trans htext,
    List.append_cancel_left (hread.rest_eq.symm.trans hbrest), hslice⟩
  have hsees : b.sees (· == '@') = true := by rw [sees, peek?, hbrest]; rfl
  have hkind : TokenKind.ofTagWord (String.ofList (d.piece.toList.drop 1)) = .tagType := by
    rw [piece, hread.text_eq, htext, hslice]
    rfl
  have htag : tagWord c = (.tagType, d, .normal) := by
    rw [tagWord, ← hb]
    simp only [hsees, if_true, ← hd, hkind]
  rw [next]
  simp only [htag]

theorem spells_ofComment {ws : List DocWord} (hws : Apart ws) {text : String} {span : Span}
    (h : Text.IsPiece text span ("---@type ".toList ++ chars ws)) :
    DocSpells text (.lineStart :: .typeTag :: ws) (ofComment text span).next.1
    (ofComment text span).next.2 := by
  have hcontent : (Text.slice text span).toList = "---@type ".toList ++ chars ws := h.slice_eq
  have hstart : ofComment text span =
      ⟨⟨text, span.stop, span.start, span.start, "---@type ".toList ++ chars ws⟩, .init⟩ := by
    have hlevel : longCommentLevel? ("---@type ".toList ++ chars ws) = none := rfl
    simp only [ofComment, hcontent, hlevel, ofSpan]
  have hnext : (ofComment text span).next =
      (⟨.docStart, ⟨span.start, span.start + 3⟩⟩,
        ⟨⟨text, span.stop, span.start, span.start + 3, "@type ".toList ++ chars ws⟩, .tag⟩) := by
    rw [hstart]
    rfl
  have hsplit : Text.IsPiece text span ("---".toList ++ ("@type ".toList ++ chars ws)) := h
  have hvalid : Cursor.Valid ⟨text, span.stop, span.start, span.start + 3,
      "@type ".toList ++ chars ws⟩ := hsplit.split.2
  obtain ⟨d, htag, hd, htext, hrest, hslice⟩ := tagWord_type hvalid rfl
  have hblank : ∀ x ∈ [' '], Text.isBlank x = true := List.all_eq_true.1 rfl
  have hbehind := spells_next hws hd hblank hrest
  rw [htext] at hbehind
  rw [hnext]
  refine .cons rfl (by decide) (String.toList_inj.1 hsplit.split.1.slice_eq) ?_
  rw [htag]
  exact .cons rfl (by decide) hslice hbehind

end DocLexer

open DocM

namespace Doc

variable {text : String} {f : TypeForm}

theorem takes_description : Takes text [] description () [] [] := by
  intro p pre shapes hp
  have hnone : p.description = p := by rw [DocParser.description, hp.1.kind_eq]; rfl
  exact ⟨p, congrArg (EStateM.Result.ok ()) hnone, by rwa [List.append_nil]⟩

theorem takes_typeList (hf : f.WellFormed) : Takes text f.words typeList () [f.shape] [] := by
  have htype : Takes text f.words (commaSeparated DocType.type) () [f.shape] [] := by
    refine takes_bound fun n hn => ?_
    obtain ⟨n, rfl⟩ : ∃ m, n = m + 1 := ⟨n - 1, by have := TypeForm.words_pos hf; omega⟩
    have hread : Takes text (f.words ++ []) DocType.type () [f.shape] [] :=
      DocType.takes_type hf rfl
    rw [List.append_nil] at hread
    exact takes_repeatWhile_last (hread.bind (takes_eat_of_ne (by decide)))
  exact htype.bind takes_description

theorem takes_tag (hf : f.WellFormed) :
    Takes text (.typeTag :: f.words) tag ()
    [.node .docTagType [DocWord.typeTag.shape, f.shape]] [] := by
  have htypes : Takes text f.words (tagBody .tagType) .docTagType [f.shape] [] :=
    (takes_typeList hf).bind (takes_pure _)
  have hbody : Takes text (.typeTag :: f.words) (do bump; tagBody .tagType) .docTagType
      [DocWord.typeTag.shape, f.shape] [] := takes_bump.bind htypes
  have hnode := (takesNode_nodeOf hbody (by decide)).discard
  rw [tag]
  exact takes_get fun p _ => takes_kind.bind (takes_tryCatch hnode)

theorem takes_line (hf : f.WellFormed) :
    Takes text (.lineStart :: .typeTag :: f.words) line ()
      [DocWord.lineStart.shape, .node .docTagType [DocWord.typeTag.shape, f.shape]] [] := by
  have hstart : Takes text (.lineStart :: .typeTag :: f.words) lineStart ()
      [DocWord.lineStart.shape] (.typeTag :: f.words) := (takes_sees .docContinueOr).bind takes_bump
  have hbody : Takes text (.typeTag :: f.words) lineBody ()
      [.node .docTagType [DocWord.typeTag.shape, f.shape]] [] :=
    takes_kind.bind (takes_tag hf)
  have hrest : Takes text [] lineRest () [] [] := takes_unlessSees_of_eq rfl
  exact hstart.bind (hbody.bind hrest)

theorem ofLines_eq (log : EventLog) (line : Span) (later : List Span) :
    DocParser.ofLines text log line later =
      ⟨text, log, line, later, (DocLexer.ofComment text line).next.2,
        (DocLexer.ofComment text line).next.1, 0⟩ := by
  rw [DocParser.ofLines]

theorem at_ofLines {ws : List DocWord} (hws : Apart ws) {span : Span}
    (h : Text.IsPiece text span ("---@type ".toList ++ chars ws)) (log : EventLog) :
    (DocParser.ofLines text log span []).At text (.lineStart :: .typeTag :: ws) := by
  have hspells := DocLexer.spells_ofComment hws h
  rw [ofLines_eq]
  generalize (DocLexer.ofComment text span).next = read at hspells ⊢
  refine ⟨hspells, rfl, rfl, ?_⟩
  have hbytes := Nat.le_trans (Text.length_le_byteLength _) h.byteLength_le
  have hcount := length_le_of_apart hws
  have hopen : "---@type ".toList.length = 9 := rfl
  rw [List.length_append, hopen] at hbytes
  show (DocWord.lineStart :: .typeTag :: ws).length ≤ text.utf8ByteSize + 1
  simp only [List.length_cons]
  omega

theorem holds_parseComments (hf : f.WellFormed) {span : Span}
    (h : Text.IsPiece text span ("---@type ".toList ++ chars f.words)) {log : EventLog}
    {pre : List Event}
    {shapes : List Shape} (hlog : log.Holds true text pre shapes) :
    (parseComments text [span] log).Holds true text pre
      (shapes ++ [DocWord.lineStart.shape,
        .node .docTagType [DocWord.typeTag.shape, f.shape]]) := by
  have happart := TypeForm.apart_words hf endsWord_nil trivial
  rw [List.append_nil] at happart
  obtain ⟨q, hline, hq⟩ := takes_line hf _ pre shapes ⟨at_ofLines happart h log, hlog⟩
  have hlines : (lines 1).run (DocParser.ofLines text log span []) = .ok () q := by
    have hnext : q.nextLine? = none := by rw [DocParser.nextLine?, hq.1.last]
    refine (DocM.bind_ok hline).trans ((DocM.bind_ok (m := get) rfl).trans ?_)
    rw [hnext]
    rfl
  have hparse : parseComments text [span] log = q.log := parseComments_cons hlines
  rw [hparse]
  exact hq.2

end Doc

end LuaAnalysis.Syntax
