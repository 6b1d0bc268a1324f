import LuaAnalysis.Proofs.Syntax.Tiling
import LuaAnalysis.Syntax.Literal

/-!
Which string tokens have a value. The content of a long bracket is what is left of its token when as
many bytes as the opener has are cut off at both ends; where the closer is missing, that may cut a
character.
-/

namespace LuaAnalysis.Syntax

open Text (IsPiece IsBoundary byteLength)

namespace Lexer

theorem longBody_closed {level : Nat} {cs : List Char} (h : (longBody level cs).2.2 = true) :
    ∃ body, (longBody level cs).1 = body ++ longCloser level := by
  fun_induction longBody level cs with
  | case1 => cases h
  | case2 => exact ⟨[], rfl⟩
  | case3 c r _ taken rest closed hbody ih =>
    rw [hbody] at ih
    obtain ⟨body, hbody⟩ := ih h
    exact ⟨c :: body, congrArg (c :: ·) hbody⟩

theorem longBracket_chars (kind : TokenKind) (unfinished : LexFault) (level : Nat)
    (cs : List Char) :
    let l := longBracket kind unfinished [] level cs
    ∃ taken, l.chars = longOpener level ++ taken ∧
    (l.fault = none → ∃ body, taken = body ++ longCloser level) ∧
      ∀ fault, l.fault = some fault → fault = unfinished := by
  have hclosed := @longBody_closed level (cs.drop (level + 2))
  refine ⟨(longBody level (cs.drop (level + 2))).1, by simp [longBracket], fun hfault => hclosed ?_,
    fun fault hfault => ?_⟩
  · by_contra hopen
    simp [longBracket, hopen] at hfault
  · simp only [longBracket] at hfault
    split at hfault
    · cases hfault
    · exact (Option.some.inj hfault).symm

end Lexer

namespace Literal

theorem stringValue?_quote {text : String} {c : Char} {r : List Char} (htext : text.toList = c :: r)
    (hc : c ≠ '[') : stringValue? text ≠ none := by
  rw [stringValue?, htext]
  split
  · simp
  · rename_i hcons
    exact absurd (List.cons.inj hcons).1 hc
  · simp

theorem stringValue?_longOpener {text : String} {level : Nat} {taken : List Char}
    (htext : text.toList = Lexer.longOpener level ++ taken) :
    stringValue? text = none ↔
      2 * (level + 2) ≤ text.utf8ByteSize ∧
      ¬ IsBoundary text (text.utf8ByteSize - (level + 2)) := by
  have hopener : IsBoundary text (level + 2) :=
    ⟨_, _, htext, (Lexer.byteLength_longOpener level).symm⟩
  have hlevel : ((text.toList.drop 1).takeWhile (· == '=')).length = level := by
    rw [htext, Lexer.takeWhile_longOpener, List.length_replicate]
  have hlong : stringValue? text = longStringValue? text := by
    rw [stringValue?, htext]
    rfl
  rw [hlong, longStringValue?, hlevel]
  split
  · rename_i hshort
    simp only [reduceCtorEq, false_iff, not_and]
    omega
  · rename_i hlong
    rw [Option.map_eq_none_iff, Text.slice?_eq_none_iff]
    constructor
    · intro hcut
      exact ⟨by omega, fun hcloser => hcut ⟨by dsimp only; omega, hopener, hcloser⟩⟩
    · rintro ⟨-, hcut⟩ ⟨-, -, hcloser⟩
      exact hcut hcloser

theorem stringValue?_slice_longOpener {text : String} {span : Span} {level : Nat}
    {taken : List Char} (hpiece : IsPiece text span (Lexer.longOpener level ++ taken)) :
    stringValue? (Text.slice text span) = none ↔
      span.start + 2 * (level + 2) ≤ span.stop ∧ ¬ IsBoundary text (span.stop - (level + 2)) := by
  have hchars := hpiece.slice_eq
  have hsize : span.stop = span.start + (Text.slice text span).utf8ByteSize := by
    rw [← Text.byteLength_toList, hchars, hpiece.stop_eq]
  have hslice : Text.slice text span = String.ofList (Lexer.longOpener level ++ taken) := by
    rw [← hchars, String.ofList_toList]
  rw [stringValue?_longOpener hchars, hsize, Nat.add_le_add_iff_left, and_congr_right_iff]
  intro hle
  rw [← Text.byteLength_toList, hchars] at hle ⊢
  rw [hslice, hpiece.isBoundary_iff (Nat.sub_le _ _), Nat.add_sub_assoc (by omega)]

/-- A string token has no value just if it is a long bracket without its closer, and as many bytes
in front of its end as the closer would have there is no boundary between characters. -/
theorem stringValue?_token_eq_none_iff {text : String} {t : Token}
    (ht : t ∈ (Lexer.tokenize text).1) (hkind : t.kind = .str ∨ t.kind = .longString) :
    stringValue? (Text.slice text t.span) = none ↔
      ⟨.lex .unfinishedLongString, t.span⟩ ∈ (Lexer.tokenize text).2 ∧
        ∃ level, Lexer.longLevel? (Text.slice text t.span).toList = some level ∧
          t.span.start + 2 * (level + 2) ≤ t.span.stop ∧
          ¬ IsBoundary text (t.span.stop - (level + 2)) := by
  have heof : t.kind ≠ .eof := by rcases hkind with h | h <;> simp [h]
  have hshebang : t.kind ≠ .shebang := by rcases hkind with h | h <;> simp [h]
  obtain ⟨c, r, hlexeme, hpiece, hfault⟩ := Lexer.tokenize_lexeme ht heof hshebang
  have hchars := hpiece.slice_eq
  rw [hfault]
  rcases hkind with hstr | hlong
  · obtain ⟨hquote, hquoted⟩ := Lexer.lexeme_str (hlexeme ▸ hstr)
    have hbracket : c ≠ '[' := by rcases hquote with rfl | rfl <;> decide
    refine iff_of_false (stringValue?_quote (hchars.trans (by rw [hquoted]; rfl)) hbracket) ?_
    rintro ⟨hunfinished, -⟩
    simp only [hquoted, Lexer.quoted] at hunfinished
    split at hunfinished <;> cases hunfinished
  · obtain ⟨level, -, hbracket⟩ := Lexer.lexeme_longString (hlexeme ▸ hlong)
    obtain ⟨taken, htaken, hclosed, hopen⟩ :=
      Lexer.longBracket_chars .longString .unfinishedLongString level (c :: r)
    rw [hbracket, htaken] at hpiece hchars
    rw [stringValue?_slice_longOpener hpiece, hbracket, hchars]
    cases hunfinished :
      (Lexer.longBracket .longString .unfinishedLongString [] level (c :: r)).fault with
        | none =>
          -- the closer starts at a boundary
          obtain ⟨body, rfl⟩ := hclosed hunfinished
          rw [← List.append_assoc] at hpiece
          have hcloser := hpiece.split.2.boundaries.1
          have hstop := hpiece.stop_eq
          rw [Text.byteLength_append, Lexer.byteLength_longCloser] at hstop
          refine iff_of_false ?_ (by simp)
          rintro ⟨-, hcut⟩
          exact hcut (by rwa [hstop, ← Nat.add_assoc, Nat.add_sub_cancel])
        | some fault =>
          rw [hopen fault hunfinished, Lexer.longLevel?_longOpener]
          simp

/-- The accented letter of `[[aéb` has the bytes 3 and 4, and two bytes in front of the end is
between them. -/
theorem stringValue?_token_eq_none_accented :
    (⟨.longString, ⟨0, 6⟩⟩ : Token) ∈ (Lexer.tokenize "[[aéb").1 ∧
    stringValue? (Text.slice "[[aéb" ⟨0, 6⟩) = none := by
  have hmem : (⟨.longString, ⟨0, 6⟩⟩ : Token) ∈ (Lexer.tokenize "[[aéb").1 := by decide
  have hfault : (⟨.lex .unfinishedLongString, ⟨0, 6⟩⟩ : SyntaxError) ∈
      (Lexer.tokenize "[[aéb").2 := by decide
  have hcut : ¬ IsBoundary "[[aéb" 4 := by decide
  exact ⟨hmem, (stringValue?_token_eq_none_iff hmem (.inr rfl)).2 ⟨hfault,
    0, by decide, by decide, hcut⟩⟩

/-- Every string token of a text has a value, finished or not. -/
def DecodesStrings (text : String) : Prop := ∀ t ∈ (Lexer.tokenize text).1, t.kind = .str ∨
    t.kind = .longString →
  (stringValue? (Text.slice text t.span)).isSome = true

instance (text : String) : Decidable (DecodesStrings text) :=
  inferInstanceAs (Decidable (∀ t ∈ (Lexer.tokenize text).1, _ → _))

theorem not_decodesStrings_accented : ¬ DecodesStrings "[[aéb" := by decide

end Literal

end LuaAnalysis.Syntax
