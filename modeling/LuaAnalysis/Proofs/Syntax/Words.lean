import LuaAnalysis.Proofs.Syntax.Tokenize

namespace LuaAnalysis.Syntax

/-- A text is read as one token of a kind, without a fault. -/
def IsWord (kind : TokenKind) (text : String) : Prop :=
  Lexer.tokenize text = ([⟨kind, ⟨0, text.utf8ByteSize⟩⟩, ⟨.eof, .empty text.utf8ByteSize⟩], []) ∧
    kind.isTrivia = false

instance (kind : TokenKind) (text : String) : Decidable (IsWord kind text) :=
  inferInstanceAs (Decidable (_ ∧ _))

/-- What a token says, apart from where it stands. -/
structure Word where
  kind : TokenKind
  text : String
  isWord : IsWord kind text := by decide +kernel

/-- A word of one of some kinds. -/
structure WordOf (kinds : List TokenKind) extends Word where
  kind_mem : kind ∈ kinds

theorem WordOf.kind_eq {kind : TokenKind} (w : WordOf [kind]) : w.kind = kind :=
  List.mem_singleton.1 w.kind_mem

def Lexeme.before (l : Lexeme) (more : List Char) : Lexeme := { l with rest := l.rest ++ more }

theorem Lexeme.eq_of_fields {l : Lexeme} {kind : TokenKind} {chars rest : List Char}
    {fault : Option LexFault} (hkind : l.kind = kind) (hchars : l.chars = chars)
    (hrest : l.rest = rest) (hfault : l.fault = fault) :
    l = ⟨kind, chars, rest, fault⟩ := by
  subst hkind hchars hrest hfault
  rfl

namespace Lexer

theorem run_before {p : Char → Bool} (hp : p ' ' = false) (cs s : List Char) :
    run p (cs ++ ' ' :: s) = ((run p cs).1, (run p cs).2 ++ ' ' :: s) := by
  simp only [run, List.span_eq_takeWhile_dropWhile]
  induction cs with
  | nil => simp [hp]
  | cons c cs ih =>
    obtain ⟨htake, hdrop⟩ := Prod.mk.inj ih
    by_cases hc : p c = true
    · simp [hc, htake, hdrop]
    · simp [hc]

theorem one_before {p : Char → Bool} (hp : p ' ' = false) (cs s : List Char) :
    one p (cs ++ ' ' :: s) = ((one p cs).1, (one p cs).2 ++ ' ' :: s) := by
  cases cs with
  | nil => simp [one, hp]
  | cons c cs =>
    simp only [List.cons_append, one]
    split <;> rfl

theorem exponent_before {p : Char → Bool} (hp : p ' ' = false) (cs s : List Char) :
    exponent p (cs ++ ' ' :: s) = ((exponent p cs).1, (exponent p cs).2 ++ ' ' :: s) := by
  rw [exponent, exponent, one_before hp]
  rcases one p cs with ⟨_ | ⟨e, es⟩, r⟩
  · rfl
  · simp (disch := decide) only [one_before, run_before]

theorem hexadecimal_before (x : Char) (cs s : List Char) : numeral.hexadecimal x (cs ++ ' ' :: s) =
    ((numeral.hexadecimal x cs).1, (numeral.hexadecimal x cs).2.1 ++ ' ' :: s,
      (numeral.hexadecimal x cs).2.2) := by
  have hpower (r : List Char) :=
    exponent_before (p := fun c => c == 'p' || c == 'P') (by decide) r s
  have hblank : ' ' ≠ '.' := by decide
  rw [numeral.hexadecimal, numeral.hexadecimal, run_before (by decide)]
  rcases run Text.isHexDigit cs with ⟨whole, _ | ⟨d, r⟩⟩
  · have h := hpower []
    simp_all
  · by_cases hd : d = '.'
    · subst hd
      simp (disch := decide) only [List.cons_append, run_before, hpower]
    · have h := hpower (d :: r)
      simp_all

theorem not_hexadecimal_before {cs s t r : List Char} {x : Char} (hx : x ≠ ' ')
    (hcs : ∀ r, cs ≠ '0' :: x :: r) (ht : t = [] ∨ t = ' ' :: s) : cs ++ t ≠ '0' :: x :: r := by
  intro h
  match cs with
  | [] => rcases ht with rfl | rfl <;> simp at h
  | [c] =>
    rcases ht with rfl | rfl
    · simp at h
    · exact hx (List.cons.inj (List.cons.inj h).2).1.symm
  | c :: d :: cs =>
    obtain ⟨rfl, rfl, -⟩ : c = '0' ∧ d = x ∧ cs ++ t = r := by simpa using h
    exact hcs cs rfl

theorem numeral_before (cs s : List Char) :
    numeral (cs ++ ' ' :: s) = ((numeral cs).1, (numeral cs).2.1 ++ ' ' :: s,
      (numeral cs).2.2) := by
  by_cases hx : ∃ r, cs = '0' :: 'x' :: r
  · obtain ⟨r, rfl⟩ := hx
    exact hexadecimal_before _ r s
  by_cases hX : ∃ r, cs = '0' :: 'X' :: r
  · obtain ⟨r, rfl⟩ := hX
    exact hexadecimal_before _ r s
  rw [not_exists] at hx hX
  have hdecimal : ∀ t, t = [] ∨ t = ' ' :: s → numeral (cs ++ t) = _ :=
    fun t ht => numeral.eq_3 (cs ++ t) (fun _ => not_hexadecimal_before (by decide) hx ht)
      (fun _ => not_hexadecimal_before (by decide) hX ht)
  have hempty := hdecimal [] (.inl rfl)
  rw [List.append_nil] at hempty
  rw [hempty, hdecimal _ (.inr rfl), run_before (by decide)]
  have hpower (r : List Char) :=
    exponent_before (p := fun c => c == 'e' || c == 'E') (by decide) r s
  have hblank : ' ' ≠ '.' := by decide
  rcases run Char.isDigit cs with ⟨whole, _ | ⟨d, r⟩⟩
  · have h := hpower []
    simp_all
  · by_cases hd : d = '.'
    · subst hd
      cases r with
      | nil =>
        have h := hpower []
        have hrun := run_before (p := Char.isDigit) (by decide) [] s
        simp_all
      | cons e r =>
        by_cases he : e = '.'
        · subst he
          have h := hpower ('.' :: '.' :: r)
          simp_all
        · have hrun := run_before (p := Char.isDigit) (by decide) (e :: r) s
          simp_all
    · have h := hpower (d :: r)
      simp_all

theorem number_before (cs s : List Char) :
    number (cs ++ ' ' :: s) = (number cs).before (' ' :: s) := by
  simp (disch := decide) only [number, numeral_before, run_before, Lexeme.before]

theorem quotedBody_before {quote : Char} {skipping : Bool} {cs : List Char}
    (h : (quotedBody quote skipping cs).2.2 = true) (s : List Char) :
    quotedBody quote skipping (cs ++ s) =
    ((quotedBody quote skipping cs).1, (quotedBody quote skipping cs).2.1 ++ s, true) := by
  fun_induction quotedBody quote skipping cs
  case case1 => simp at h
  case case8 r hz hcr hlf _ _ _ _ _ =>
    -- a line break in front of the end of the characters is not closed
    cases r with
    | nil => simp_all [quotedBody]
    | cons e r =>
      rw [List.cons_append, quotedBody.eq_def]
      simp_all
  all_goals
    rw [List.cons_append, quotedBody.eq_def]
    simp_all

theorem length_le_of_longBody {level : Nat} {cs : List Char} (h : (longBody level cs).2.2 = true) :
    level + 2 ≤ cs.length := by
  induction cs with
  | nil => simp [longBody] at h
  | cons c r ih =>
    rw [longBody] at h
    split at h
    · rename_i hcloser
      rw [← length_longCloser]
      exact (List.isPrefixOf_iff_prefix.1 hcloser).length_le
    · exact Nat.le_succ_of_le (ih h)

theorem longBody_before {level : Nat} {cs : List Char} (h : (longBody level cs).2.2 = true)
    (s : List Char) : longBody level (cs ++ s) =
    ((longBody level cs).1, (longBody level cs).2.1 ++ s, true) := by
  induction cs with
  | nil => simp [longBody] at h
  | cons c r ih =>
    have hlength := length_le_of_longBody h
    have hprefix : (longCloser level).isPrefixOf (c :: r ++ s) =
        (longCloser level).isPrefixOf (c :: r) := by
      rw [Bool.eq_iff_iff, List.isPrefixOf_iff_prefix, List.isPrefixOf_iff_prefix]
      refine ⟨fun h => ?_, fun h => h.trans (List.prefix_append _ _)⟩
      exact List.prefix_of_prefix_length_le h (List.prefix_append _ _) (by rwa [length_longCloser])
    rw [longBody] at h
    rw [List.cons_append] at hprefix ⊢
    rw [longBody, longBody, hprefix]
    split at h
    · rename_i hcloser
      rw [if_pos hcloser, if_pos hcloser, ← List.cons_append, List.drop_append_of_le_length hlength]
    · rename_i hcloser
      rw [if_neg hcloser, if_neg hcloser, ih h]

theorem longBracket_before {cs : List Char} {level : Nat} (hlevel : longLevel? cs = some level)
    {kind : TokenKind} {unfinished : LexFault} {lead : List Char}
    (hfault : (longBracket kind unfinished lead level cs).fault = none)
    (s : List Char) : longBracket kind unfinished lead level (cs ++ s) =
      (longBracket kind unfinished lead level cs).before s := by
  have hlength : level + 2 ≤ cs.length := by
    rw [← longOpener_append hlevel, List.length_append, length_longOpener]
    omega
  have hclosed : (longBody level (cs.drop (level + 2))).2.2 = true := by
    simpa [longBracket] using hfault
  simp only [longBracket, List.drop_append_of_le_length hlength, longBody_before hclosed,
    Lexeme.before, hclosed]

theorem bracket_before {r : List Char} (hfault : (bracket r).fault = none) (s : List Char) :
    bracket (r ++ ' ' :: s) = (bracket r).before (' ' :: s) := by
  cases hlevel : longLevel? ('[' :: r) with
  | some level =>
    have hlevel' : longLevel? ('[' :: r ++ ' ' :: s) = some level := by
      rw [← longOpener_append hlevel, List.append_assoc, longLevel?_longOpener]
    simp only [bracket, hlevel] at hfault ⊢
    rw [List.cons_append] at hlevel'
    rw [hlevel', ← List.cons_append]
    exact longBracket_before hlevel hfault _
  | none =>
    have hrun := run_before (p := fun c => c == '=') (by decide) r s
    rcases hmarks : run (fun c => c == '=') r with ⟨_ | ⟨d, marks⟩, rest⟩
    · have hlevel' : longLevel? ('[' :: (r ++ ' ' :: s)) = none := by
        simp only [run, List.span_eq_takeWhile_dropWhile] at hmarks hrun
        obtain ⟨hnil, -⟩ := Prod.mk.inj hmarks
        have hnil' : List.takeWhile (fun c => c == '=') (r ++ ' ' :: s) = [] :=
          (Prod.mk.inj hrun).1.trans hnil
        cases r with
        | nil => rfl
        | cons d r =>
          rw [List.cons_append] at hnil'
          simp only [longLevel?, List.cons_append, hnil, hnil'] at hlevel ⊢
          exact hlevel
      simp only [bracket, hlevel, hlevel', hrun, hmarks]
      rfl
    · simp [bracket, hlevel, hmarks] at hfault

theorem mark_before (c : Char) (r s : List Char) :
    mark c (r ++ ' ' :: s) = (mark c r).before (' ' :: s) := by
  have hsingle : ∀ r, mark.ofSingle c (r ++ ' ' :: s) = (mark.ofSingle c r).before (' ' :: s) :=
    fun r => by
      unfold mark.ofSingle
      split <;> rfl
  have hblank : double? c ' ' = none := by
    unfold double?
    split <;> simp_all
  have hdouble : ∀ d t, ¬ (c = '.' ∧ d = '.' ∧ t.head? = some '.') → mark c (d :: t) =
      (double? c d).elim (mark.ofSingle c (d :: t)) fun kind => ⟨kind, [c, d], t, none⟩ :=
        fun d t h => by
          unfold mark
          split
          · exact absurd ⟨rfl, by simp_all⟩ h
          · dsimp only
            cases double? _ d <;> rfl
  cases r with
  | nil =>
    have hempty : mark c [] = mark.ofSingle c [] := by
      unfold mark
      split <;> first | rfl | contradiction
    rw [hempty, ← hsingle, List.nil_append, hdouble _ _ (by simp), hblank, Option.elim_none]
  | cons d r =>
    by_cases hdots : c = '.' ∧ d = '.' ∧ r.head? = some '.'
    · obtain ⟨rfl, rfl, hr⟩ := hdots
      obtain ⟨r, rfl⟩ := List.head?_eq_some_iff.1 hr
      rfl
    · have hdots' : ¬ (c = '.' ∧ d = '.' ∧ (r ++ ' ' :: s).head? = some '.') := by
        cases r <;> simp_all
      rw [List.cons_append, hdouble _ _ hdots, hdouble _ _ hdots', ← List.cons_append, hsingle]
      cases double? c d <;> rfl

theorem lexeme_before {c : Char} {r : List Char} (hkind : (lexeme c r).kind.isTrivia = false)
    (hfault : (lexeme c r).fault = none) (s : List Char) :
    lexeme c (r ++ ' ' :: s) = (lexeme c r).before (' ' :: s) := by
  have hnumber : startsNumber c (r ++ ' ' :: s) = startsNumber c r := by
    cases r with
    | nil => simp [startsNumber]
    | cons d r => rfl
  unfold lexeme at hkind hfault ⊢
  rw [hnumber]
  by_cases hbreak : isLineBreak c = true
  · rw [if_pos hbreak] at hkind
    unfold lineBreak at hkind
    split at hkind <;> simp [TokenKind.isTrivia] at hkind
  simp only [if_neg hbreak] at hkind hfault ⊢
  by_cases hspace : isSpace c = true
  · simp [hspace, TokenKind.isTrivia] at hkind
  simp only [if_neg hspace] at hkind hfault ⊢
  by_cases hname : isNameStart c = true
  · simp only [if_pos hname, run_before (show isNameChar ' ' = false by decide), Lexeme.before]
  simp only [if_neg hname] at hkind hfault ⊢
  by_cases hdigits : startsNumber c r = true
  · simp only [if_pos hdigits]
    exact number_before (c :: r) s
  simp only [if_neg hdigits] at hkind hfault ⊢
  by_cases hquote : (c == '\x22' || c == '\x27') = true
  · simp only [if_pos hquote] at hfault ⊢
    have hclosed : (quotedBody c false r).2.2 = true := by simpa [quoted] using hfault
    simp [quoted, quotedBody_before hclosed, Lexeme.before, hclosed]
  simp only [if_neg hquote] at hkind hfault ⊢
  by_cases hbracket : (c == '[') = true
  · simp only [if_pos hbracket] at hfault ⊢
    exact bracket_before hfault s
  simp only [if_neg hbracket] at hkind hfault ⊢
  by_cases hcomment : ∃ t, c = '-' ∧ r = '-' :: t
  · obtain ⟨t, rfl, rfl⟩ := hcomment
    simp only [comment] at hkind
    split at hkind <;> simp [longBracket, TokenKind.isTrivia] at hkind
  · have hcomment' : ∀ t, c = '-' → r ++ ' ' :: s = '-' :: t → False := fun t hc ht => by
      cases r with
      | nil => simp at ht
      | cons d r => exact hcomment ⟨r, hc, by rw [(List.cons.inj ht).1]⟩
    split
    · exact (hcomment' _ rfl ‹_›).elim
    · split
      · exact absurd ⟨_, rfl, rfl⟩ hcomment
      · exact mark_before _ _ s

theorem not_isSpace_of_lexeme {c : Char} {r : List Char}
    (hkind : (lexeme c r).kind.isTrivia = false) : isSpace c = false := by
  by_contra hspace
  rw [Bool.not_eq_false] at hspace
  have hbreak : isLineBreak c = false := by
    simp only [isSpace, isLineBreak, Bool.or_eq_true, beq_iff_eq] at hspace ⊢
    rcases hspace with ((rfl | rfl) | rfl) | rfl <;> rfl
  simp [lexeme, hbreak, hspace, TokenKind.isTrivia] at hkind

theorem not_isLineBreak_of_lexeme {c : Char} {r : List Char}
    (hkind : (lexeme c r).kind.isTrivia = false) : isLineBreak c = false := by
  by_contra hbreak
  rw [Bool.not_eq_false] at hbreak
  have hline : (lineBreak c r).kind = .endOfLine := by
    unfold lineBreak
    split <;> rfl
  unfold lexeme at hkind
  rw [if_pos hbreak, hline] at hkind
  cases hkind

theorem lexFrom_cons (fuel start : Nat) (c : Char) (r : List Char) :
    lexFrom (fuel + 1) start (c :: r) =
    let l := lexeme c r
    let behind := lexFrom fuel (start + Text.byteLength l.chars) l.rest
    (⟨l.kind, ⟨start, start + Text.byteLength l.chars⟩⟩ :: behind.1,
      (l.fault.map fun f => ⟨.lex f, ⟨start, start + Text.byteLength l.chars⟩⟩).toList ++
      behind.2) := rfl

theorem lexFrom_nil (fuel start : Nat) : lexFrom fuel start [] = ([⟨.eof, .empty start⟩], []) := by
  cases fuel <;> rfl

end Lexer

namespace Word

theorem isTrivia (w : Word) : w.kind.isTrivia = false := w.isWord.2

theorem isComment (w : Word) : w.kind.isComment = false := by
  have hcode := w.isTrivia
  cases hkind : w.kind <;> simp_all [TokenKind.isTrivia, TokenKind.isComment]

theorem shebang?_eq_none (w : Word) : Lexer.shebang? w.text.toList = none := by
  cases hshebang : Lexer.shebang? w.text.toList with
  | none => rfl
  | some split =>
    have htokenize := w.isWord.1
    simp only [Lexer.tokenize, hshebang] at htokenize
    have hkind : TokenKind.shebang = w.kind :=
      congrArg Token.kind (List.cons.inj (Prod.mk.inj htokenize).1).1
    have hcode := w.isTrivia
    rw [← hkind] at hcode
    cases hcode

theorem lexeme_eq (w : Word) :
    ∃ c r, w.text.toList = c :: r ∧ Lexer.lexeme c r =
    { kind := w.kind, chars := c :: r, rest := [] } := by
  have hlex : Lexer.lexFrom w.text.toList.length 0 w.text.toList =
      ([⟨w.kind, ⟨0, w.text.utf8ByteSize⟩⟩, ⟨.eof, .empty w.text.utf8ByteSize⟩], []) := by
    have htokenize := w.isWord.1
    simpa only [Lexer.tokenize, w.shebang?_eq_none] using htokenize
  cases hcs : w.text.toList with
  | nil => simp [hcs, Lexer.lexFrom_nil] at hlex
  | cons c r =>
    rw [hcs, List.length_cons, Lexer.lexFrom_cons] at hlex
    obtain ⟨htokens, herrors⟩ := Prod.mk.inj hlex
    obtain ⟨htoken, hbehind⟩ := List.cons.inj htokens
    have hfault : (Lexer.lexeme c r).fault = none := by
      simpa using (List.append_eq_nil_iff.1 herrors).1
    have happend := Lexer.lexeme_append c r
    have hrest : (Lexer.lexeme c r).rest = [] := by
      cases hrest : (Lexer.lexeme c r).rest with
      | nil => rfl
      | cons d rest =>
        have hlength := congrArg List.length happend
        have hpos := List.length_pos_iff.2 (Lexer.lexeme_ne_nil c r)
        rw [hrest, List.length_append, List.length_cons, List.length_cons] at hlength
        obtain ⟨n, hn⟩ : ∃ n, r.length = n + 1 := ⟨r.length - 1, by omega⟩
        rw [hrest, hn, Lexer.lexFrom_cons] at hbehind
        exact absurd (congrArg Token.kind (List.cons.inj hbehind).1) (Lexer.lexeme_kind d rest).1
    rw [hrest, List.append_nil] at happend
    have hw : (Lexer.lexeme c r).kind = w.kind := congrArg Token.kind htoken
    exact ⟨c, r, rfl, Lexeme.eq_of_fields hw happend hrest hfault⟩

theorem lexeme_append (w : Word) : ∃ c r, w.text.toList = c :: r ∧ Lexer.isSpace c = false ∧
    ∀ s, s = [] ∨ (∃ t, s = ' ' :: t) → Lexer.lexeme c (r ++ s) =
    { kind := w.kind, chars := c :: r, rest := s } := by
  obtain ⟨c, r, htext, hlexeme⟩ := w.lexeme_eq
  have hkind : (Lexer.lexeme c r).kind.isTrivia = false := by
    rw [hlexeme]
    exact w.isTrivia
  refine ⟨c, r, htext, Lexer.not_isSpace_of_lexeme hkind, ?_⟩
  rintro s (rfl | ⟨t, rfl⟩)
  · rw [List.append_nil, hlexeme]
  · rw [Lexer.lexeme_before hkind (by rw [hlexeme]), hlexeme]
    rfl

theorem kind_ne_eof (w : Word) : w.kind ≠ .eof := by
  obtain ⟨c, r, -, hlexeme⟩ := w.lexeme_eq
  have heof := (Lexer.lexeme_kind c r).1
  rwa [hlexeme] at heof

end Word

/-- Tokens, the last of which is the end of the text, that say words one after the other. -/
inductive Spells (text : String) : List Word → List Token → Prop where
  | nil {e : Token} (heof : e.kind = .eof) : Spells text [] [e]
  | cons {w : Word} {ws : List Word} {t : Token} {ts : List Token} (hkind : t.kind = w.kind)
      (htext : Text.slice text t.span = w.text) (h : Spells text ws ts) :
      Spells text (w :: ws) (t :: ts)

def spaced (ws : List Word) : String := " ".intercalate (ws.map (·.text))

theorem toList_spaced_cons (w w' : Word) (ws : List Word) :
    (spaced (w :: w' :: ws)).toList = w.text.toList ++ ' ' :: (spaced (w' :: ws)).toList := by
  simp [spaced, String.toList_intercalate, String.intercalate_cons_cons]

theorem exists_toList_spaced (w : Word) (ws : List Word) :
    ∃ c s, (spaced (w :: ws)).toList = c :: s ∧ Lexer.isSpace c = false ∧
    Lexer.isLineBreak c = false := by
  obtain ⟨c, r, hw, hlexeme⟩ := w.lexeme_eq
  have hkind : (Lexer.lexeme c r).kind.isTrivia = false := by
    rw [hlexeme]
    exact w.isTrivia
  have hfirst := And.intro (Lexer.not_isSpace_of_lexeme hkind)
    (Lexer.not_isLineBreak_of_lexeme hkind)
  cases ws with
  | nil => exact ⟨c, r, hw, hfirst⟩
  | cons w' ws => exact ⟨c, _, by rw [toList_spaced_cons, hw]; rfl, hfirst⟩

namespace Lexer

theorem lexFrom_word (w : Word) {s : List Char} (hs : s = [] ∨ ∃ t, s = ' ' :: t)
    (fuel start : Nat) : lexFrom (fuel + 1) start (w.text.toList ++ s) =
      let behind := lexFrom fuel (start + Text.byteLength w.text.toList) s
      (⟨w.kind, ⟨start, start + Text.byteLength w.text.toList⟩⟩ :: behind.1, behind.2) := by
  obtain ⟨c, r, hw, -, hlexeme⟩ := w.lexeme_append
  rw [hw, List.cons_append, lexFrom_cons, hlexeme s hs]
  rfl

theorem lexFrom_blank {c : Char} (hc : isSpace c = false) (s : List Char) (fuel start : Nat) :
    lexFrom (fuel + 1) start (' ' :: c :: s) =
      let behind := lexFrom fuel (start + 1) (c :: s)
      (⟨.whitespace, ⟨start, start + 1⟩⟩ :: behind.1, behind.2) := by
  have hlexeme : lexeme ' ' (c :: s) = ⟨.whitespace, [' '], c :: s, none⟩ := by
    simp [lexeme, run, List.span_eq_takeWhile_dropWhile, hc, show isLineBreak ' ' = false by decide,
      show isSpace ' ' = true by decide]
  rw [lexFrom_cons, hlexeme]
  rfl

theorem slice_word {text : String} {pre post : List Char} (w : Word)
    (htext : text.toList = pre ++ (w.text.toList ++ post)) :
    Text.slice text ⟨Text.byteLength pre, Text.byteLength pre + Text.byteLength w.text.toList⟩ =
    w.text :=
  String.toList_inj.1 (Text.IsPiece.slice_eq ⟨pre,
    post, by rw [htext, List.append_assoc], rfl, rfl⟩)

theorem lexFrom_spaced {text : String} {pre : List Char} {w : Word} {ws : List Word} {fuel : Nat}
    (htext : text.toList = pre ++ (spaced (w :: ws)).toList)
    (hfuel : (spaced (w :: ws)).toList.length ≤ fuel) :
    ∃ tokens, lexFrom fuel (Text.byteLength pre) (spaced (w :: ws)).toList = (tokens, []) ∧
      (∀ t ∈ tokens, t.kind.isComment = false) ∧
      Spells text (w :: ws) (tokens.filter fun t => !t.kind.isTrivia) := by
  have hpos (w : Word) : 0 < w.text.toList.length := by
    obtain ⟨c, r, hw, -⟩ := w.lexeme_append
    simp [hw]
  induction ws generalizing pre w fuel with
  | nil =>
    have hsingle : (spaced [w]).toList = w.text.toList ++ [] := by simp [spaced]
    rw [hsingle] at htext hfuel ⊢
    have hw := hpos w
    obtain ⟨fuel, rfl⟩ : ∃ n, fuel = n + 1 := ⟨fuel - 1, by simp at hfuel; omega⟩
    rw [lexFrom_word w (.inl rfl), lexFrom_nil]
    refine ⟨_, rfl, by simp [w.isComment, show TokenKind.eof.isComment = false from rfl], ?_⟩
    simp only [List.filter_cons, w.isTrivia, show TokenKind.eof.isTrivia = false from rfl,
      Bool.not_false, if_true, List.filter_nil]
    exact .cons rfl (slice_word w htext) (.nil rfl)
  | cons w' ws ih =>
    rw [toList_spaced_cons] at htext hfuel ⊢
    have hw := hpos w
    obtain ⟨fuel, rfl⟩ : ∃ n, fuel = n + 2 := ⟨fuel - 2, by simp at hfuel; omega⟩
    have hpre : Text.byteLength (pre ++ w.text.toList ++ [' ']) =
        Text.byteLength pre + Text.byteLength w.text.toList + 1 := by
      simp [show ' '.utf8Size = 1 by decide, Nat.add_assoc]
    obtain ⟨tokens, htokens, hquiet, hspells⟩ :=
      @ih (pre ++ w.text.toList ++ [' ']) w' fuel (by simp [htext]) (by simp at hfuel; omega)
    obtain ⟨c, s, hs, hspace, -⟩ := exists_toList_spaced w' ws
    rw [lexFrom_word w (.inr ⟨_, rfl⟩), hs, lexFrom_blank hspace, ← hs, ← hpre, htokens]
    refine ⟨_, rfl, by simpa [w.isComment, show TokenKind.whitespace.isComment = false from rfl]
      using hquiet, ?_⟩
    simp only [List.filter_cons, w.isTrivia, show TokenKind.whitespace.isTrivia = true from rfl,
      Bool.not_false, Bool.not_true, Bool.false_eq_true, if_true, if_false]
    exact .cons rfl (slice_word w htext) hspells

theorem tokenize_spaced (w : Word) (ws : List Word) :
    ∃ tokens, tokenize (spaced (w :: ws)) = (tokens, []) ∧
    (∀ t ∈ tokens, t.kind.isComment = false) ∧
    Spells (spaced (w :: ws)) (w :: ws) (tokens.filter fun t => !t.kind.isTrivia) := by
  have hshebang : shebang? (spaced (w :: ws)).toList = none := by
    have hnone := w.shebang?_eq_none
    cases ws with
    | nil => simpa [spaced] using hnone
    | cons w' ws =>
      rw [toList_spaced_cons]
      match hcs : w.text.toList with
      | [] => rfl
      | [c] => simp [shebang?]
      | c :: d :: r =>
        rw [hcs] at hnone
        unfold shebang? at hnone ⊢
        split at hnone
        · simp at hnone
        · split <;> simp_all
  rw [tokenize, hshebang]
  exact lexFrom_spaced (List.nil_append _).symm (Nat.le_refl _)

end Lexer

end LuaAnalysis.Syntax
