import LuaAnalysis.Proofs.Syntax.LiteralCuts

/-!
Long brackets, written and read back. The scanner looks for the closer at every character, so it
stops at the first one whatever near misses stand before it, and the decoder finds the same level in
the opener.
-/

namespace LuaAnalysis.Syntax

open Text (IsPiece byteLength)

namespace Lexer

variable {level : Nat} {cs : List Char}

/-- With the closer of a level behind it a text has that closer at its end and nowhere else. -/
def ClosedOnce (level : Nat) (cs : List Char) : Prop :=
  ∀ pre post, cs ++ longCloser level = pre ++ longCloser level ++ post → post = []

theorem closedOnce_iff : ClosedOnce level cs ↔
    ∀ i < cs.length, (longCloser level).isPrefixOf ((cs ++ longCloser level).drop i) = false := by
  constructor
  · intro h i hi
    rw [Bool.eq_false_iff, ne_eq, List.isPrefixOf_iff_prefix]
    rintro ⟨post, hpost⟩
    have hsplit := List.take_append_drop i (cs ++ longCloser level)
    rw [← hpost, ← List.append_assoc] at hsplit
    obtain rfl := h _ post hsplit.symm
    have hlength := congrArg List.length hpost
    simp only [List.length_append, List.length_drop, List.length_nil] at hlength
    omega
  · intro h pre post hcs
    have hlength := congrArg List.length hcs
    simp only [List.length_append] at hlength
    by_contra hpost
    have hpos := List.length_pos_iff.2 hpost
    have hclosed := h pre.length (by omega)
    rw [hcs, List.append_assoc, List.drop_left, Bool.eq_false_iff, ne_eq,
      List.isPrefixOf_iff_prefix] at hclosed
    exact hclosed (List.prefix_append _ _)

instance : Decidable (ClosedOnce level cs) := decidable_of_iff _ closedOnce_iff.symm

theorem ClosedOnce.tail {c : Char} (h : ClosedOnce level (c :: cs)) : ClosedOnce level cs :=
  fun pre post hcs =>
  h (c :: pre) post (by simp [hcs])

theorem ClosedOnce.not_isPrefixOf {c : Char} (h : ClosedOnce level (c :: cs)) (rest : List Char) :
    (longCloser level).isPrefixOf (c :: (cs ++ longCloser level ++ rest)) = false := by
  rw [Bool.eq_false_iff, ne_eq, List.isPrefixOf_iff_prefix]
  intro hprefix
  have hfront : longCloser level <+: c :: cs ++ longCloser level := by
    refine List.prefix_of_prefix_length_le hprefix ⟨rest, by simp⟩ ?_
    rw [List.length_append]
    exact Nat.le_add_left _ _
  obtain ⟨post, hpost⟩ := hfront
  obtain rfl := h [] post (by simp [hpost])
  have hlength := congrArg List.length hpost
  simp only [List.length_append, List.length_cons, List.length_nil] at hlength
  omega

theorem longBody_eq (h : ClosedOnce level cs) (rest : List Char) :
    longBody level (cs ++ longCloser level ++ rest) = (cs ++ longCloser level, rest, true) := by
  induction cs with
  | nil =>
    obtain ⟨r, hr⟩ : ∃ r, longCloser level = ']' :: r := ⟨_, rfl⟩
    have hprefix : (longCloser level).isPrefixOf (longCloser level ++ rest) = true :=
      List.isPrefixOf_iff_prefix.2 (List.prefix_append _ _)
    have hdrop : (longCloser level ++ rest).drop (level + 2) = rest :=
      List.drop_left' (length_longCloser level)
    rw [List.nil_append]
    rw [hr, List.cons_append] at hprefix hdrop ⊢
    rw [longBody, hr, if_pos hprefix, hdrop]
  | cons c cs ih =>
    rw [List.cons_append, List.cons_append, longBody, h.not_isPrefixOf rest,
      if_neg Bool.false_ne_true, ih h.tail]

theorem longBracket_eq (kind : TokenKind) (unfinished : LexFault) (lead : List Char)
    (h : ClosedOnce level cs) (rest : List Char) :
    longBracket kind unfinished lead level (longOpener level ++ (cs ++ longCloser level ++ rest)) =
    ⟨kind, lead ++ (longOpener level ++ (cs ++ longCloser level)), rest, none⟩ := by
  rw [longBracket, List.drop_left' (length_longOpener level), longBody_eq h]
  simp

theorem lexeme_longOpener (h : ClosedOnce level cs) (rest : List Char) {c : Char} {r : List Char}
    (hcons : c :: r = longOpener level ++ (cs ++ longCloser level ++ rest)) :
    lexeme c r = ⟨.longString, longOpener level ++ (cs ++ longCloser level), rest, none⟩ := by
  have hlevel := longLevel?_longOpener level (cs ++ longCloser level ++ rest)
  have hlong := longBracket_eq .longString .unfinishedLongString [] h rest
  rw [← hcons] at hlevel hlong
  obtain ⟨rfl, -⟩ := List.cons.inj hcons
  have hbracket : lexeme '[' r = bracket r := rfl
  rw [hbracket, bracket, hlevel]
  exact hlong

theorem lexeme_dashes (h : ClosedOnce level cs) (rest : List Char) :
    lexeme '-' ('-' :: (longOpener level ++ (cs ++ longCloser level ++ rest))) =
      ⟨.longComment, '-' :: '-' :: (longOpener level ++ (cs ++ longCloser level)), rest, none⟩ := by
  have hcomment : lexeme '-' ('-' :: (longOpener level ++ (cs ++ longCloser level ++ rest))) =
      comment (longOpener level ++ (cs ++ longCloser level ++ rest)) := rfl
  rw [hcomment, comment, longLevel?_longOpener]
  exact longBracket_eq .longComment .unfinishedLongComment ['-', '-'] h rest

theorem tokenize_of_lexeme {text : String} {c : Char} {r : List Char} {kind : TokenKind}
    (htext : text.toList = c :: r) (hc : c ≠ '#')
    (hlexeme : lexeme c r = ⟨kind, c :: r, [], none⟩) :
    tokenize text = ([⟨kind, ⟨0, text.utf8ByteSize⟩⟩, ⟨.eof, .empty text.utf8ByteSize⟩], []) := by
  have hshebang : shebang? (c :: r) = none := by
    unfold shebang?
    split
    · rename_i heq
      exact absurd (List.cons.inj heq).1 hc
    · rfl
  have hrest (fuel start : Nat) : lexFrom fuel start [] = ([⟨.eof, .empty start⟩], []) := by
    cases fuel <;> rfl
  rw [← Text.byteLength_toList, tokenize, htext, hshebang]
  simp [lexFrom, hlexeme, hrest]

theorem tokenize_longBracket {text : String} (h : ClosedOnce level cs)
    (htext : text.toList = longOpener level ++ (cs ++ longCloser level)) :
    tokenize text =
    ([⟨.longString, ⟨0, text.utf8ByteSize⟩⟩, ⟨.eof, .empty text.utf8ByteSize⟩], []) := by
  obtain ⟨c, r, hcons⟩ : ∃ c r, text.toList = c :: r := ⟨_, _, htext⟩
  have hopener : c :: r = longOpener level ++ (cs ++ longCloser level ++ []) := by
    rw [← hcons, htext, List.append_nil]
  refine tokenize_of_lexeme hcons ?_ ?_
  · obtain ⟨rfl, -⟩ := List.cons.inj hopener
    decide
  · rw [lexeme_longOpener h [] hopener, ← htext, hcons]

theorem tokenize_dashes {text : String} (h : ClosedOnce level cs)
    (htext : text.toList = '-' :: '-' :: (longOpener level ++ (cs ++ longCloser level))) :
    tokenize text =
    ([⟨.longComment, ⟨0, text.utf8ByteSize⟩⟩, ⟨.eof, .empty text.utf8ByteSize⟩], []) := by
  have hlexeme := lexeme_dashes h []
  rw [List.append_nil] at hlexeme
  exact tokenize_of_lexeme htext (by decide) hlexeme

end Lexer

namespace Literal

theorem withoutLineBreak_spec (cs : List Char) : ∃ lead, cs = lead ++ withoutLineBreak cs ∧
    (lead = ['\r', '\n'] ∨ lead = ['\n'] ∨ lead = [] ∧ ¬ ['\r', '\n'] <+: cs ∧
      ¬ ['\n'] <+: cs) := by
  unfold withoutLineBreak
  split
  · exact ⟨_, rfl, .inl rfl⟩
  · exact ⟨_, rfl, .inr (.inl rfl)⟩
  · rename_i hcrlf hlf
    refine ⟨[], rfl, .inr (.inr ⟨rfl, ?_, ?_⟩)⟩
    · rintro ⟨r, rfl⟩
      exact hcrlf r rfl
    · rintro ⟨r, rfl⟩
      exact hlf r rfl

theorem stringValue?_longBracket {text : String} {level : Nat} {cs : List Char}
    (htext : text.toList = Lexer.longOpener level ++ (cs ++ Lexer.longCloser level)) :
    stringValue? text = some (String.ofList (withoutLineBreak cs)) := by
  have hlevel : ((text.toList.drop 1).takeWhile (· == '=')).length = level := by
    rw [htext, Lexer.takeWhile_longOpener, List.length_replicate]
  have hsize : text.utf8ByteSize = level + 2 + (byteLength cs + (level + 2)) := by
    rw [← Text.byteLength_toList, htext]
    simp only [Text.byteLength_append, Lexer.byteLength_longOpener, Lexer.byteLength_longCloser]
  have hinner : Text.slice? text ⟨level + 2, text.utf8ByteSize - (level + 2)⟩ =
      some (String.ofList cs) := by
    refine Text.slice?_eq_some_iff.2 ⟨Lexer.longOpener level, Lexer.longCloser level, ?_, ?_, ?_⟩
    · simp [htext]
    · rw [Lexer.byteLength_longOpener]
    · rw [String.toList_ofList, hsize]
      dsimp only
      omega
  have hlong : stringValue? text = longStringValue? text := by
    rw [stringValue?, htext]
    rfl
  rw [hlong, longStringValue?, hlevel, if_neg (by omega), hinner, Option.map_some,
    String.toList_ofList]

/-- A text between long brackets is one token, and its value is the text but for one line break at
its start. Behind two dashes it is one comment. -/
theorem longBracket_reads {level : Nat} {s : String} (h : Lexer.ClosedOnce level s.toList) :
    let text := String.ofList (Lexer.longOpener level ++ s.toList ++ Lexer.longCloser level)
    Lexer.tokenize text =
    ([⟨.longString, ⟨0, text.utf8ByteSize⟩⟩, ⟨.eof, .empty text.utf8ByteSize⟩], []) ∧
      (∃ lead value, s = lead ++ value ∧
        stringValue? (Text.slice text ⟨0, text.utf8ByteSize⟩) = some value ∧
        (lead = "\r\n" ∨ lead = "\n" ∨ lead = "" ∧ ¬ ['\r', '\n'] <+: s.toList ∧
          ¬ ['\n'] <+: s.toList)) ∧
      Lexer.tokenize ("--" ++ text) =
        ([⟨.longComment, ⟨0, ("--" ++ text).utf8ByteSize⟩⟩,
          ⟨.eof, .empty ("--" ++ text).utf8ByteSize⟩], []) := by
  intro text
  have htext : text.toList = Lexer.longOpener level ++ (s.toList ++ Lexer.longCloser level) := by
    rw [String.toList_ofList, List.append_assoc]
  have hwhole : IsPiece text ⟨0, text.utf8ByteSize⟩ text.toList :=
    ⟨[], [], by simp, rfl, by rw [Text.byteLength_toList]; exact (Nat.zero_add _).symm⟩
  have hcomment : ("--" ++ text).toList = '-' :: '-' ::
      (Lexer.longOpener level ++ (s.toList ++ Lexer.longCloser level)) := by
    rw [String.toList_append, htext]
    rfl
  refine ⟨Lexer.tokenize_longBracket h htext, ?_, Lexer.tokenize_dashes h hcomment⟩
  obtain ⟨lead, hlead, hbreak⟩ := withoutLineBreak_spec s.toList
  have hvalue := stringValue?_longBracket (hwhole.slice_eq.trans htext)
  refine ⟨String.ofList lead, String.ofList (withoutLineBreak s.toList), ?_, hvalue, ?_⟩
  · rw [← String.ofList_append, ← hlead, String.ofList_toList]
  · rcases hbreak with rfl | rfl | ⟨rfl, hnone⟩
    · exact .inl rfl
    · exact .inr (.inl rfl)
    · exact .inr (.inr ⟨rfl, hnone⟩)

/-- Near misses in the content: closers of other levels, and a bracket in front of the closer. -/
theorem longBracket_reads_nearMisses : Lexer.ClosedOnce 1 "\n]] ]==] é]".toList ∧
    Lexer.tokenize "[=[\n]] ]==] é]]=]" = ([⟨.longString, ⟨0, 18⟩⟩, ⟨.eof, .empty 18⟩], []) ∧
      Lexer.tokenize "--[=[\n]] ]==] é]]=]" =
      ([⟨.longComment, ⟨0, 20⟩⟩, ⟨.eof, .empty 20⟩], []) := by
  have h : Lexer.ClosedOnce 1 "\n]] ]==] é]".toList := by decide
  obtain ⟨hstring, -, hcomment⟩ := longBracket_reads h
  exact ⟨h, hstring, hcomment⟩

end Literal

end LuaAnalysis.Syntax
