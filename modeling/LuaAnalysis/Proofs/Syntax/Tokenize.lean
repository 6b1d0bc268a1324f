import Mathlib.Data.List.TakeDrop
import Mathlib.Data.List.TakeWhile
import LuaAnalysis.Proofs.Text.Spans
import LuaAnalysis.Syntax.Lexer

namespace LuaAnalysis.Syntax.Lexer

theorem run_append (p : Char → Bool) (cs : List Char) : (run p cs).1 ++ (run p cs).2 = cs := by
  rw [run, List.span_eq_takeWhile_dropWhile, List.takeWhile_append_dropWhile]

theorem one_append (p : Char → Bool) (cs : List Char) : (one p cs).1 ++ (one p cs).2 = cs := by
  cases cs with
  | nil => rfl
  | cons c r =>
    rw [one]
    split <;> rfl

theorem length_longCloser (level : Nat) : (longCloser level).length = level + 2 := by
  simp [longCloser]

theorem length_longOpener (level : Nat) : (longOpener level).length = level + 2 := by
  simp [longOpener]

theorem byteLength_replicate_mark (level : Nat) :
    Text.byteLength (List.replicate level '=') = level := by
  induction level with
  | zero => rfl
  | succ level ih =>
    have hmark : '='.utf8Size = 1 := rfl
    rw [List.replicate_succ, Text.byteLength_cons, ih, hmark, Nat.add_comm]

theorem byteLength_longOpener (level : Nat) : Text.byteLength (longOpener level) = level + 2 := by
  have hbracket : '['.utf8Size = 1 := rfl
  simp only [longOpener, Text.byteLength_cons, Text.byteLength_append, byteLength_replicate_mark,
    Text.byteLength_nil, hbracket]
  omega

theorem byteLength_longCloser (level : Nat) : Text.byteLength (longCloser level) = level + 2 := by
  have hbracket : ']'.utf8Size = 1 := rfl
  simp only [longCloser, Text.byteLength_cons, Text.byteLength_append, byteLength_replicate_mark,
    Text.byteLength_nil, hbracket]
  omega

theorem takeWhile_longOpener (level : Nat) (cs : List Char) :
    ((longOpener level ++ cs).drop 1).takeWhile (· == '=') = List.replicate level '=' := by
  simp [longOpener, List.takeWhile_append_of_pos, List.mem_replicate]

theorem longLevel?_longOpener (level : Nat) (cs : List Char) :
    longLevel? (longOpener level ++ cs) = some level := by
  simp [longOpener, longLevel?]

theorem append_drop_of_isPrefixOf {xs ys : List Char} (h : xs.isPrefixOf ys = true) :
    xs ++ ys.drop xs.length = ys := by
  obtain ⟨zs, rfl⟩ := List.isPrefixOf_iff_prefix.1 h
  simp

theorem longBody_append (level : Nat) (cs : List Char) :
    (longBody level cs).1 ++ (longBody level cs).2.1 = cs := by
  induction cs with
  | nil => rfl
  | cons c r ih =>
    rw [longBody]
    split
    · rename_i hcloser
      have happend := append_drop_of_isPrefixOf hcloser
      rwa [length_longCloser] at happend
    · simpa using ih

theorem longOpener_append {cs : List Char} {level : Nat} (h : longLevel? cs = some level) :
    longOpener level ++ cs.drop (level + 2) = cs := by
  cases cs with
  | nil => simp [longLevel?] at h
  | cons c r =>
    by_cases hc : c = '['
    · subst hc
      simp only [longLevel?] at h
      split at h
      · rename_i hsecond
        obtain rfl := Option.some.inj h
        have htake : r.takeWhile (· == '=') = List.replicate (r.takeWhile (· == '=')).length '=' :=
          List.eq_replicate_of_mem fun d hd => by simpa using List.mem_takeWhile_imp hd
        generalize hlevel : (r.takeWhile (· == '=')).length = level at htake hsecond ⊢
        have hfront : r.take level = List.replicate level '=' := by
          rw [← htake, ← hlevel]
          exact (List.prefix_iff_eq_take.1 (List.takeWhile_prefix _)).symm
        have hget : r[level]? = some '[' := by simpa using hsecond
        obtain ⟨hlt, hbracket⟩ := List.getElem?_eq_some_iff.1 hget
        have hsplit : r = r.take level ++ '[' :: r.drop (level + 1) := by
          rw [← hbracket, ← List.drop_eq_getElem_cons hlt, List.take_append_drop]
        simp only [longOpener, List.cons_append, List.append_assoc, List.drop_succ_cons,
          List.nil_append]
        rw [← hfront, ← hsplit]
      · simp at h
    · simp [longLevel?, hc] at h

theorem longBracket_append (kind : TokenKind) (unfinished : LexFault) (lead : List Char)
    {level : Nat} {cs : List Char} (h : longLevel? cs = some level) :
    (longBracket kind unfinished lead level cs).chars ++
    (longBracket kind unfinished lead level cs).rest = lead ++ cs := by
  have hbody := longBody_append level (cs.drop (level + 2))
  simp only [longBracket, List.append_assoc, hbody, longOpener_append h]

theorem quotedBody_append (quote : Char) (skipping : Bool) (cs : List Char) :
    (quotedBody quote skipping cs).1 ++ (quotedBody quote skipping cs).2.1 = cs := by
  fun_induction quotedBody quote skipping cs <;> simp_all

theorem exponent_append (mark : Char → Bool) (cs : List Char) :
    (exponent mark cs).1 ++ (exponent mark cs).2 = cs := by
  have hmark := one_append mark cs
  rw [exponent]
  split
  · rfl
  · rename_i e r _ hone
    rw [hone] at hmark
    have hsign := one_append (fun c => c == '+' || c == '-') r
    have hdigits := run_append Char.isDigit (one (fun c => c == '+' || c == '-') r).2
    simp only [List.append_assoc, hdigits, hsign]
    exact hmark

theorem hexadecimal_append (x : Char) (cs : List Char) :
    (numeral.hexadecimal x cs).1 ++ (numeral.hexadecimal x cs).2.1 = '0' :: x :: cs := by
  have hwhole := run_append Text.isHexDigit cs
  rw [numeral.hexadecimal]
  generalize run Text.isHexDigit cs = whole at hwhole
  obtain ⟨whole, r⟩ := whole
  subst hwhole
  dsimp only
  split <;> simp [exponent_append, run_append]

theorem numeral_append (cs : List Char) : (numeral cs).1 ++ (numeral cs).2.1 = cs := by
  unfold numeral
  split
  · exact hexadecimal_append _ _
  · exact hexadecimal_append _ _
  · have hwhole := run_append Char.isDigit cs
    generalize run Char.isDigit cs = whole at hwhole
    obtain ⟨whole, r⟩ := whole
    subst hwhole
    dsimp only
    split <;> simp [exponent_append, run_append]

theorem number_append (cs : List Char) : (number cs).chars ++ (number cs).rest = cs := by
  have hnumeral := numeral_append cs
  have hsuffix := run_append isSuffixChar (numeral cs).2.1
  have hjunk := run_append isNameChar (run isSuffixChar (numeral cs).2.1).2
  simp only [number, List.append_assoc, hjunk, hsuffix, hnumeral]

theorem comment_append (cs : List Char) : (comment cs).chars ++ (comment cs).rest = '-' ::
    '-' :: cs := by
  rw [comment]
  split
  · rename_i level hlevel
    exact longBracket_append _ _ ['-', '-'] hlevel
  · simpa using run_append (fun c => !isLineBreak c) cs

theorem bracket_append (cs : List Char) : (bracket cs).chars ++ (bracket cs).rest = '[' :: cs := by
  rw [bracket]
  split
  · rename_i level hlevel
    exact longBracket_append _ _ [] hlevel
  · have hmarks := run_append (· == '=') cs
    split
    · rename_i r hrun
      simpa [hrun] using hmarks
    · rename_i marks r _ hrun
      simpa [hrun] using hmarks

theorem ofSingle_append (c : Char) (r : List Char) :
    (mark.ofSingle c r).chars ++ (mark.ofSingle c r).rest = c :: r := by
  rw [mark.ofSingle]
  split <;> rfl

theorem mark_append (c : Char) (r : List Char) : (mark c r).chars ++ (mark c r).rest = c :: r := by
  unfold mark
  split
  · rfl
  · split
    · split
      · rfl
      · exact ofSingle_append _ _
    · exact ofSingle_append _ _

theorem lineBreak_append (c : Char) (r : List Char) :
    (lineBreak c r).chars ++ (lineBreak c r).rest = c :: r := by
  unfold lineBreak
  split <;> rfl

theorem lexeme_append (c : Char) (r : List Char) :
    (lexeme c r).chars ++ (lexeme c r).rest = c :: r := by
  unfold lexeme
  split
  · exact lineBreak_append c r
  split
  · simpa using run_append isSpace r
  split
  · simpa using run_append isNameChar r
  split
  · exact number_append (c :: r)
  split
  · simpa [quoted] using quotedBody_append c false r
  split
  · rename_i hbracket
    have hc : c = '[' := by simpa using hbracket
    subst hc
    exact bracket_append r
  split
  · exact comment_append _
  · exact mark_append _ _

theorem numeral_ne_nil {c : Char} {r : List Char} (h : startsNumber c r = true) :
    (numeral (c :: r)).1 ≠ [] := by
  unfold numeral
  split
  · simp [numeral.hexadecimal]
  · simp [numeral.hexadecimal]
  · by_cases hc : c.isDigit = true
    · simp [run, List.span_eq_takeWhile_dropWhile, hc]
    · obtain ⟨rfl, hr⟩ : c = '.' ∧ (r.head?.map Char.isDigit).getD false = true := by
        simpa [startsNumber, hc] using h
      cases r with
      | nil => simp at hr
      | cons d r =>
        have hd : d ≠ '.' := by
          rintro rfl
          simp at hr
        simp [run, List.span_eq_takeWhile_dropWhile, hd]

theorem lexeme_ne_nil (c : Char) (r : List Char) : (lexeme c r).chars ≠ [] := by
  unfold lexeme
  split
  · unfold lineBreak
    split <;> simp
  split
  · simp
  split
  · simp
  split
  · rename_i hnumber
    simp [number, numeral_ne_nil hnumber]
  split
  · simp [quoted]
  split
  · unfold bracket
    split
    · simp [longBracket, longOpener]
    · split <;> simp
  split
  · unfold comment
    split <;> simp [longBracket]
  · unfold mark
    split
    · simp
    · split
      · split
        · simp
        · unfold mark.ofSingle
          split <;> simp
      · unfold mark.ofSingle
        split <;> simp

/-- The kinds of what is neither a string, nor a comment, nor the end of the text. -/
def IsPlain (kind : TokenKind) : Prop :=
  kind ≠ .eof ∧ kind.isComment = false ∧ kind ≠ .str ∧ kind ≠ .longString

instance (kind : TokenKind) : Decidable (IsPlain kind) := inferInstanceAs (Decidable (_ ∧ _))

theorem isPlain_ofWord (word : String) : IsPlain (.ofWord word) := by
  have hwords : ∀ e ∈ TokenKind.keywords, IsPlain e.2 := by
    simp only [TokenKind.keywords]
    decide
  rw [TokenKind.ofWord]
  cases hword : TokenKind.keywords.lookup word with
  | none => exact (by decide : IsPlain .name)
  | some kind =>
    obtain ⟨before, after, hsplit, -⟩ := List.lookup_eq_some_iff.1 hword
    exact hwords (word, kind) (by simp [hsplit])

theorem isPlain_of_single {c : Char} {kind : TokenKind} (h : single? c = some kind) :
    IsPlain kind := by
  unfold single? at h
  split at h <;> first | (obtain rfl := Option.some.inj h; decide) | cases h

theorem isPlain_of_double {c d : Char} {kind : TokenKind} (h : double? c d = some kind) :
    IsPlain kind := by
  unfold double? at h
  split at h <;> first | (obtain rfl := Option.some.inj h; decide) | cases h

theorem isPlain_ofSingle (c : Char) (r : List Char) : IsPlain (mark.ofSingle c r).kind := by
  unfold mark.ofSingle
  split
  · exact isPlain_of_single ‹_›
  · exact (by decide : IsPlain .unknown)

theorem isPlain_mark (c : Char) (r : List Char) : IsPlain (mark c r).kind := by
  unfold mark
  split
  · exact (by decide : IsPlain .dots)
  · split
    · split
      · exact isPlain_of_double ‹_›
      · exact isPlain_ofSingle _ _
    · exact isPlain_ofSingle _ _

theorem lexeme_cases (c : Char) (r : List Char) :
    IsPlain (lexeme c r).kind ∨ ((c = '\x22' ∨ c = '\x27') ∧ lexeme c r = quoted c r) ∨
      (∃ level, longLevel? (c :: r) = some level ∧
        lexeme c r = longBracket .longString .unfinishedLongString [] level (c :: r)) ∨
      ∃ s, lexeme c r = comment s := by
  unfold lexeme
  split
  · left
    unfold lineBreak
    split <;> exact (by decide : IsPlain .endOfLine)
  split
  · exact .inl (by decide : IsPlain .whitespace)
  split
  · exact .inl (isPlain_ofWord _)
  split
  · left
    simp only [number]
    split <;> decide
  split
  · rename_i hquote
    exact .inr (.inl ⟨by simpa using hquote, rfl⟩)
  split
  · rename_i hbracket
    obtain rfl : c = '[' := by simpa using hbracket
    unfold bracket
    split
    · rename_i level hlevel
      exact .inr (.inr (.inl ⟨level, hlevel, rfl⟩))
    · left
      split
      · exact (by decide : IsPlain .leftBracket)
      · exact (by decide : IsPlain .incompleteLongBracket)
  split
  · exact .inr (.inr (.inr ⟨_, rfl⟩))
  · exact .inl (isPlain_mark _ _)

theorem comment_kind (cs : List Char) : (comment cs).kind ≠ .str ∧ (comment cs).kind ≠ .longString ∧
    (comment cs).kind ≠ .eof ∧ ∃ tail, (comment cs).chars = '-' :: '-' :: tail := by
  unfold comment
  split
  · exact ⟨by simp [longBracket], by simp [longBracket], by simp [longBracket], _, rfl⟩
  · exact ⟨by simp, by simp, by simp, _, rfl⟩

theorem lexeme_kind (c : Char) (r : List Char) : (lexeme c r).kind ≠ .eof ∧
    ((lexeme c r).kind.isComment = true → ∃ tail, (lexeme c r).chars = '-' :: '-' :: tail) := by
  rcases lexeme_cases c r with hplain | ⟨-, hl⟩ | ⟨level, -, hl⟩ | ⟨s, hl⟩
  · exact ⟨hplain.1, fun hcomment => by simp [hplain.2.1] at hcomment⟩
  · exact ⟨by simp [hl, quoted],
      fun hcomment => by simp [hl, quoted, TokenKind.isComment] at hcomment⟩
  · exact ⟨by simp [hl, longBracket],
      fun hcomment => by simp [hl, longBracket, TokenKind.isComment] at hcomment⟩
  · obtain ⟨-, -, heof, htail⟩ := comment_kind s
    exact ⟨hl ▸ heof, fun _ => hl ▸ htail⟩

theorem lexeme_str {c : Char} {r : List Char} (h : (lexeme c r).kind = .str) :
    (c = '\x22' ∨ c = '\x27') ∧ lexeme c r = quoted c r := by
  rcases lexeme_cases c r with hplain | hquoted | ⟨level, -, hl⟩ | ⟨s, hl⟩
  · exact absurd h hplain.2.2.1
  · exact hquoted
  · simp [hl, longBracket] at h
  · exact absurd (hl ▸ h) (comment_kind s).1

theorem lexeme_longString {c : Char} {r : List Char} (h : (lexeme c r).kind = .longString) :
    ∃ level, longLevel? (c :: r) = some level ∧
      lexeme c r = longBracket .longString .unfinishedLongString [] level (c :: r) := by
  rcases lexeme_cases c r with hplain | ⟨-, hl⟩ | hlong | ⟨s, hl⟩
  · exact absurd h hplain.2.2.2
  · simp [hl, quoted] at h
  · exact hlong
  · exact absurd (hl ▸ h) (comment_kind s).2.1

/-- Tokens that cut up characters, the first of which has the offset `start`. -/
inductive Tiles : Nat → List Char → List Token → Prop where
  | nil (start : Nat) : Tiles start [] []
  | cons {start : Nat} {chars rest : List Char} {kind : TokenKind} {tokens : List Token}
      (hne : chars ≠ []) (heof : kind ≠ .eof) (hcomment : kind.isComment = true →
        ∃ tail, chars = '-' :: '-' :: tail)
      (htiles : Tiles (start + Text.byteLength chars) rest tokens) :
      Tiles start (chars ++ rest) (⟨kind, ⟨start, start + Text.byteLength chars⟩⟩ :: tokens)

theorem Tiles.ne_eof {start : Nat} {cs : List Char} {tokens : List Token}
    (h : Tiles start cs tokens) : ∀ t ∈ tokens, t.kind ≠ .eof := by
  induction h with
  | nil => simp
  | cons _ heof _ _ ih => exact List.forall_mem_cons.2 ⟨heof, ih⟩

/-- Characters cut up lexeme by lexeme, the first of which has the offset `start`: their tokens and
their faults. -/
inductive Cuts : Nat → List Char → List Token → List SyntaxError → Prop where
  | nil (start : Nat) : Cuts start [] [] []
  | cons {start stop : Nat} {c : Char} {r : List Char} {l : Lexeme} {tokens : List Token} {errors :
      List SyntaxError} (hl : lexeme c r = l) (hstop : stop = start +
      Text.byteLength l.chars) (h : Cuts stop l.rest tokens errors) : Cuts start (c ::
      r) (⟨l.kind, ⟨start, stop⟩⟩ ::
      tokens) ((l.fault.map fun f => ⟨.lex f, ⟨start, stop⟩⟩).toList ++ errors)

theorem Cuts.tiles {start : Nat} {cs : List Char} {tokens : List Token} {errors : List SyntaxError}
    (h : Cuts start cs tokens errors) : Tiles start cs tokens := by
  induction h with
  | nil start => exact .nil start
  | @cons start stop c r l tokens errors hl hstop _ ih =>
    subst hl hstop
    obtain ⟨heof, hcomment⟩ := lexeme_kind c r
    rw [← lexeme_append c r]
    exact .cons (lexeme_ne_nil c r) heof hcomment ih

theorem lexFrom_cuts {fuel : Nat} {cs : List Char} (hfuel : cs.length ≤ fuel) (start : Nat) :
    ∃ tokens errors, lexFrom fuel start cs =
    (tokens ++ [⟨.eof, .empty (start + Text.byteLength cs)⟩], errors) ∧
      Cuts start cs tokens errors := by
  induction fuel generalizing cs start with
  | zero =>
    obtain rfl := List.length_eq_zero_iff.1 (Nat.le_zero.1 hfuel)
    exact ⟨[], [], rfl, .nil start⟩
  | succ fuel ih =>
    cases cs with
    | nil => exact ⟨[], [], rfl, .nil start⟩
    | cons c r =>
      have happend := lexeme_append c r
      have hpos := List.length_pos_iff.2 (lexeme_ne_nil c r)
      have hrest : (lexeme c r).rest.length ≤ fuel := by
        have hlength := congrArg List.length happend
        simp only [List.length_append, List.length_cons] at hlength hfuel
        omega
      obtain ⟨tokens, errors, hbehind, hcuts⟩ :=
        ih hrest (start + Text.byteLength (lexeme c r).chars)
      have hend : start + Text.byteLength (lexeme c r).chars + Text.byteLength (lexeme c r).rest =
          start + Text.byteLength (c :: r) := by
        rw [Nat.add_assoc, ← Text.byteLength_append, happend]
      refine ⟨_, _, ?_, .cons rfl rfl hcuts⟩
      simp [lexFrom, hbehind, hend]

/-- The tokens and the faults of a whole text, on whose first line no lexeme may stand. -/
inductive CutsText : List Char → List Token → List SyntaxError → Prop where
  | plain {cs : List Char} {tokens : List Token} {errors : List SyntaxError}
      (h : Cuts 0 cs tokens errors) : CutsText cs tokens errors
  | script {line rest : List Char} {tokens : List Token} {errors : List SyntaxError}
      (hline : line ≠ []) (h : Cuts (Text.byteLength line) rest tokens errors) :
      CutsText (line ++ rest) (⟨.shebang, ⟨0, Text.byteLength line⟩⟩ :: tokens) errors

theorem CutsText.tiles {cs : List Char} {tokens : List Token} {errors : List SyntaxError}
    (h : CutsText cs tokens errors) : Tiles 0 cs tokens := by
  cases h with
  | plain h => exact h.tiles
  | @script line rest tokens _ hline h =>
    have hcons : Tiles 0 (line ++ rest) (⟨.shebang, ⟨0, 0 + Text.byteLength line⟩⟩ :: tokens) :=
      .cons hline (by simp) (by simp [TokenKind.isComment]) (by simpa using h.tiles)
    simpa using hcons

theorem tokenize_cuts (text : String) : ∃ tokens errors,
    tokenize text = (tokens ++ [⟨.eof, .empty (Text.byteLength text.toList)⟩], errors) ∧
      CutsText text.toList tokens errors := by
  cases hshebang : shebang? text.toList with
  | none =>
    obtain ⟨tokens, errors, htokens, hcuts⟩ := lexFrom_cuts (Nat.le_refl text.toList.length) 0
    exact ⟨tokens, errors, by simpa only [tokenize, hshebang, Nat.zero_add] using htokens,
      .plain hcuts⟩
  | some split =>
    obtain ⟨line, rest⟩ := split
    obtain ⟨r, htext, hrun⟩ : ∃ r, text.toList = '#' :: '!' :: r ∧
        run (fun c => !isLineBreak c) ('#' :: '!' :: r) = (line, rest) := by
      unfold shebang? at hshebang
      split at hshebang
      · exact ⟨_, ‹_›, Option.some.inj hshebang⟩
      · simp at hshebang
    have happend : line ++ rest = text.toList := by
      simpa [hrun, htext] using run_append (fun c => !isLineBreak c) ('#' :: '!' :: r)
    have hline : line ≠ [] := by
      rintro rfl
      simp [run, List.span_eq_takeWhile_dropWhile, isLineBreak] at hrun
    obtain ⟨tokens, errors, htokens, hcuts⟩ :=
      lexFrom_cuts (Nat.le_refl rest.length) (Text.byteLength line)
    rw [← happend]
    refine ⟨_, _, ?_, .script hline hcuts⟩
    simp [tokenize, hshebang, htokens]

theorem tokenize_tiles (text : String) :
    ∃ tokens stop, (tokenize text).1 = tokens ++ [⟨.eof, .empty stop⟩] ∧
    Tiles 0 text.toList tokens := by
  obtain ⟨tokens, errors, htokens, hcuts⟩ := tokenize_cuts text
  exact ⟨tokens, _, by rw [htokens], hcuts.tiles⟩

end LuaAnalysis.Syntax.Lexer
