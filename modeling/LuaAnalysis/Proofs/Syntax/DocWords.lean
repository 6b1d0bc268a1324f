import LuaAnalysis.Proofs.Syntax.DocTokens
import LuaAnalysis.Proofs.Syntax.Shape

/-!
Words of the annotation language, and text that is made of them. The lexer takes up a word where
nothing follows that would go on with it.
-/

namespace LuaAnalysis.Syntax

/-- A token of an annotation with its text. -/
structure DocWord where
  kind : TokenKind
  text : String
deriving DecidableEq

namespace DocWord

def name (text : String) : DocWord := ⟨.name, text⟩

def int (value : Int) : DocWord := ⟨.int, toString value⟩

def str (value : String) : DocWord := ⟨.str, Text.quoted value⟩

def comma : DocWord := ⟨.comma, ","⟩

def bar : DocWord := ⟨.docOr, "|"⟩

def question : DocWord := ⟨.docQuestion, "?"⟩

def lt : DocWord := ⟨.lt, "<"⟩

def gt : DocWord := ⟨.gt, ">"⟩

def leftParen : DocWord := ⟨.leftParen, "("⟩

def rightParen : DocWord := ⟨.rightParen, ")"⟩

def leftBracket : DocWord := ⟨.leftBracket, "["⟩

def rightBracket : DocWord := ⟨.rightBracket, "]"⟩

def shape (w : DocWord) : Shape := .token w.kind w.text

def marks : List DocWord :=
  [comma, bar, question, lt, gt, leftParen, rightParen, leftBracket, rightBracket]

def gap (w : DocWord) : List Char := if w.kind = .comma then [' '] else []

def chars (ws : List DocWord) : List Char := ws.flatMap fun w => w.text.toList ++ w.gap

theorem chars_cons (w : DocWord) (ws : List DocWord) :
    chars (w :: ws) = w.text.toList ++ (w.gap ++ chars ws) := by
  rw [chars, List.flatMap_cons, List.append_assoc, chars]

theorem chars_append (ws ws' : List DocWord) : chars (ws ++ ws') = chars ws ++ chars ws' :=
  List.flatMap_append

end DocWord

/-- A letter or an underscore with letters, digits and underscores behind it. -/
def IsIdentifier (text : String) : Prop :=
  ∃ c r, text.toList = c :: r ∧ Lexer.isNameStart c = true ∧ ∀ d ∈ r, Lexer.isNameChar d = true

def IsShown (value : String) : Prop := ∀ c ∈ value.toList, Text.isHidden c = false

def EndsWord (s : List Char) : Prop := ∀ c r, s = c :: r → Lexer.isNameChar c = false ∧
    c ≠ '.' ∧ c ≠ '-'

namespace DocWord

open DocLexer Cursor

def Lexes (w : DocWord) (s : List Char) : Prop :=
  ∃ d r, w.text.toList = d :: r ∧ Text.isBlank d = false ∧
    ∀ c : Cursor, c.rest = w.text.toList ++ s →
    (normalToken d c).1 = w.kind ∧ Reads c w.text.toList (normalToken d c).2

variable {s : List Char}

theorem takeWhile_append_eq {p : Char → Bool} {cs : List Char} (hcs : ∀ d ∈ cs, p d = true)
    (hs : ∀ c r, s = c :: r → p c = false) : (cs ++ s).takeWhile p = cs := by
  rw [List.takeWhile_append_of_pos hcs]
  cases s with
  | nil => simp
  | cons c r => rw [List.takeWhile_cons_of_neg (by simp [hs c r rfl]), List.append_nil]

theorem isNameChar_of_isNameStart {c : Char} (h : Lexer.isNameStart c = true) :
    Lexer.isNameChar c = true := by
  simp only [Lexer.isNameStart, Lexer.isNameChar, Char.isAlphanum, Bool.or_eq_true] at h ⊢
  exact h.imp_right .inl

theorem isNameChar_of_isDigit {c : Char} (h : c.isDigit = true) : Lexer.isNameChar c = true := by
  simp [Lexer.isNameChar, Char.isAlphanum, h]

theorem toNat_between (lo hi : Char) {c : Char} (h : lo.val ≤ c.val ∧ c.val ≤ hi.val) :
    lo.toNat ≤ c.toNat ∧ c.toNat ≤ hi.toNat :=
  h.imp UInt32.le_iff_toNat_le.1 UInt32.le_iff_toNat_le.1

theorem toNat_of_isDigit {c : Char} (h : c.isDigit = true) : 0x30 ≤ c.toNat ∧ c.toNat ≤ 0x39 :=
  toNat_between '0' '9' ((Bool.and_eq_true_iff.1 h).imp of_decide_eq_true of_decide_eq_true)

theorem toNat_of_isAlpha {c : Char} (h : c.isAlpha = true) :
    0x41 ≤ c.toNat ∧ c.toNat ≤ 0x5a ∨ 0x61 ≤ c.toNat ∧ c.toNat ≤ 0x7a := by
  obtain hupper | hlower := Bool.or_eq_true_iff.1 h
  · exact .inl (toNat_between 'A' 'Z' (of_decide_eq_true hupper))
  · exact .inr (toNat_between 'a' 'z'
      ((Bool.and_eq_true_iff.1 hlower).imp of_decide_eq_true of_decide_eq_true))

theorem toNat_of_isNameChar {c : Char} (h : Lexer.isNameChar c = true) : 0x30 ≤ c.toNat ∧
    c.toNat ≤ 0x7a := by
  simp only [Lexer.isNameChar, Char.isAlphanum, Bool.or_eq_true, beq_iff_eq] at h
  obtain rfl | halpha | hdigit := h
  · decide
  · have := toNat_of_isAlpha halpha
    omega
  · have := toNat_of_isDigit hdigit
    omega

theorem not_isNameStart_of_isDigit {c : Char} (h : c.isDigit = true) :
    Lexer.isNameStart c = false := by
  have hdigit := toNat_of_isDigit h
  by_contra hstart
  simp only [Lexer.isNameStart, Bool.not_eq_false, Bool.or_eq_true, beq_iff_eq] at hstart
  obtain rfl | halpha := hstart
  · exact absurd h (by decide)
  · have := toNat_of_isAlpha halpha
    omega

theorem not_isBlank_of_isNameChar {c : Char} (h : Lexer.isNameChar c = true) :
    Text.isBlank c = false := by
  obtain ⟨hlo, hhi⟩ := toNat_of_isNameChar h
  simp only [Text.isBlank, Text.blankRanges, Text.inRanges, Bool.and_eq_false_iff,
    Bool.or_eq_false_iff, decide_eq_false_iff_not]
  omega

theorem sees_eq_false {c : Cursor} {p : Char → Bool} (h : ∀ x r, c.rest = x :: r → p x = false) :
    c.sees p = false := by
  cases hrest : c.rest with
  | nil => simp [sees, peek?, hrest]
  | cons x r => simpa [sees, peek?, hrest] using h x r hrest

theorem lexes_name {text : String} (h : IsIdentifier text) (hs : EndsWord s) :
    (name text).Lexes s := by
  obtain ⟨d, r, htext, hd, hr⟩ := h
  have hchars : ∀ x ∈ d :: r, Lexer.isNameChar x = true :=
    List.forall_mem_cons.2 ⟨isNameChar_of_isNameStart hd, hr⟩
  refine ⟨d, r, htext, not_isBlank_of_isNameChar (hchars d (.head r)), fun c hrest => ?_⟩
  rw [show (name text).text = text from rfl, htext] at hrest ⊢
  have hreads := reads_skipWhile c Lexer.isNameChar
  rw [hrest, takeWhile_append_eq hchars fun c r hcr => (hs c r hcr).1] at hreads
  have hbehind : (c.skipWhile Lexer.isNameChar).rest = s :=
    List.append_cancel_left (hreads.rest_eq.symm.trans hrest)
  have htail : ∀ fuel, nameTail fuel (c.skipWhile Lexer.isNameChar) =
      c.skipWhile Lexer.isNameChar := by
    intro fuel
    cases fuel with
    | zero => rfl
    | succ fuel =>
      have hdot : (c.skipWhile Lexer.isNameChar).sees (· == '.') = false :=
        sees_eq_false fun x r hxr => by simpa using (hs x r (hbehind.symm.trans hxr)).2.1
      have hdash : (c.skipWhile Lexer.isNameChar).sees (· == '-') = false :=
        sees_eq_false fun x r hxr => by simpa using (hs x r (hbehind.symm.trans hxr)).2.2
      rw [nameTail, hdot, hdash]
      rfl
  rw [normalToken, if_pos hd, htail]
  exact ⟨rfl, hreads⟩

theorem number_digits {c : Cursor} {digits : List Char} (hdigits : ∀ d ∈ digits, d.isDigit = true)
    (hs : EndsWord s) (hrest : c.rest = digits ++ s) : (number c).1 = .int ∧
    Reads c digits (number c).2 := by
  have hreads := reads_skipWhile c Char.isDigit
  have hend : ∀ x r, s = x :: r → x.isDigit = false := fun x r hxr => by
    by_contra hdigit
    have hname := (hs x r hxr).1
    rw [isNameChar_of_isDigit (by simpa using hdigit)] at hname
    cases hname
  rw [hrest, takeWhile_append_eq hdigits hend] at hreads
  have hbehind : (c.skipWhile Char.isDigit).rest = s :=
    List.append_cancel_left (hreads.rest_eq.symm.trans hrest)
  have hdot : (c.skipWhile Char.isDigit).sees (· == '.') = false :=
    sees_eq_false fun x r hxr => by simpa using (hs x r (hbehind.symm.trans hxr)).2.1
  rw [number, hdot]
  exact ⟨rfl, hreads⟩

theorem text_int_ofNat (n : Nat) : (int (.ofNat n)).text.toList = Nat.toDigits 10 n :=
  Nat.toList_repr

theorem text_int_negSucc (n : Nat) : (int (.negSucc n)).text.toList = '-' ::
    Nat.toDigits 10 (n + 1) := by
  show ("-" ++ (n + 1).repr).toList = _
  rw [String.toList_append, Nat.toList_repr]
  rfl

theorem text_str (value : String) :
    (str value).text.toList = '\x22' :: (value.toList.flatMap Text.quotedChar ++ ['\x22']) := by
  rw [str, Text.quoted, String.toList_ofList]

theorem lexes_int (value : Int) (hs : EndsWord s) : (int value).Lexes s := by
  have hdigits : ∀ n, ∀ d ∈ Nat.toDigits 10 n, d.isDigit = true := fun n d hd =>
    Nat.isDigit_of_mem_toDigits (by decide) (by decide) hd
  cases value with
  | ofNat n =>
    have htext := text_int_ofNat n
    obtain ⟨d, r, hdr⟩ := List.exists_cons_of_ne_nil (Nat.toDigits_ne_nil (n := n) (b := 10))
    have hd : d.isDigit = true := hdigits n d (by simp [hdr])
    refine ⟨d, r, htext.trans hdr, not_isBlank_of_isNameChar (isNameChar_of_isDigit hd),
      fun c hrest => ?_⟩
    rw [htext] at hrest ⊢
    rw [normalToken, not_isNameStart_of_isDigit hd, if_neg (by simp), if_pos hd]
    exact number_digits (hdigits n) hs hrest
  | negSucc n =>
    have htext := text_int_negSucc n
    obtain ⟨d, r, hdr⟩ := List.exists_cons_of_ne_nil (Nat.toDigits_ne_nil (n := n + 1) (b := 10))
    have hd : d.isDigit = true := hdigits (n + 1) d (by simp [hdr])
    refine ⟨'-', _, htext, by decide, fun c hrest => ?_⟩
    rw [htext, List.cons_append] at hrest
    have hnext : c.seesNext Char.isDigit = true := by simp [seesNext, peekNext?, hrest, hdr, hd]
    have hbump := reads_bump c
    have hbehind : c.bump.rest = Nat.toDigits 10 (n + 1) ++ s := by simp [bump, hrest]
    obtain ⟨hkind, hreads⟩ := number_digits (hdigits (n + 1)) hs hbehind
    rw [normalToken, if_neg (by decide), if_neg (by decide), hnext,
      if_pos (show ('-' == '-' && true) = true from rfl), htext]
    refine ⟨hkind, ?_⟩
    have hboth := hbump.trans hreads
    rwa [hrest] at hboth

/-- A shown character is written as it is, but for quotes and backslashes, which a backslash
shields. -/
theorem quotedChar_of_shown {c : Char} (h : Text.isHidden c = false) :
    Text.quotedChar c = if c = '\x22' ∨ c = '\x5c' then ['\x5c', c] else [c] := by
  have hhidden : Text.isHidden '\x00' = true ∧ Text.isHidden '\t' = true ∧
      Text.isHidden '\r' = true ∧
      Text.isHidden '\n' = true := by decide
  have hne (d : Char) (hd : Text.isHidden d = true) : (c == d) = false := by
    by_contra hcd
    obtain rfl : c = d := by simpa using hcd
    rw [h] at hd
    cases hd
  rw [Text.quotedChar, hne _ hhidden.1, hne _ hhidden.2.1, hne _ hhidden.2.2.1,
    hne _ hhidden.2.2.2, h]
  simp

theorem quotedLength_quoted {cs : List Char} (h : ∀ c ∈ cs, Text.isHidden c = false)
    (s : List Char) : quotedLength '\x22' (cs.flatMap Text.quotedChar ++ '\x22' :: s) =
    (cs.flatMap Text.quotedChar).length := by
  induction cs with
  | nil =>
    rw [List.flatMap_nil, List.nil_append, quotedLength.eq_def]
    rfl
  | cons c cs ih =>
    obtain ⟨hc, hcs⟩ := List.forall_mem_cons.1 h
    rw [List.flatMap_cons, List.append_assoc, List.length_append, ← ih hcs, quotedChar_of_shown hc]
    split
    · simp [quotedLength, Nat.add_comm]
    · rename_i hne
      obtain ⟨hquote, hslash⟩ := not_or.1 hne
      rw [List.singleton_append, quotedLength.eq_def]
      simp [hquote, hslash, Nat.add_comm]

theorem lexes_str {value : String} (h : IsShown value) (s : List Char) : (str value).Lexes s := by
  have htext := text_str value
  refine ⟨'\x22', _, htext, by decide, fun c hrest => ?_⟩
  rw [htext] at hrest ⊢
  have hopen : c.bump.rest = value.toList.flatMap Text.quotedChar ++ '\x22' :: s := by
    simp [bump, hrest]
  have hlength := quotedLength_quoted h s
  rw [← hopen] at hlength
  have hbody := reads_bumpN (quotedLength '\x22' c.bump.rest) c.bump
  rw [hlength, hopen, List.take_left] at hbody
  have hclose : (c.bump.bumpN (value.toList.flatMap Text.quotedChar).length).rest = '\x22' :: s :=
    List.append_cancel_left (hbody.rest_eq.symm.trans hopen)
  have hreads := (reads_bump c).trans (hbody.trans (reads_bump _))
  rw [hclose, hrest] at hreads
  rw [normalToken, if_neg (by decide), if_neg (by decide), if_neg (by simp), if_pos (by decide)]
  simp only [hlength]
  exact ⟨rfl, hreads⟩

theorem exists_of_mem_marks {w : DocWord} (h : w ∈ marks) : ∃ d, w.text.toList = [d] ∧
    mark? d = some w.kind ∧
    Lexer.isNameChar d = false ∧ Text.isBlank d = false ∧ d ≠ '.' ∧ d ≠ '-' ∧ d ≠ '\x22' ∧
    d ≠ '\x27' := by
  simp only [marks, List.mem_cons, List.not_mem_nil, or_false] at h
  rcases h with rfl | rfl | rfl | rfl | rfl | rfl | rfl | rfl | rfl
  all_goals exact ⟨_, rfl, rfl, by decide, by decide, by decide, by decide, by decide, by decide⟩

theorem lexes_mark {w : DocWord} (h : w ∈ marks) (s : List Char) : w.Lexes s := by
  obtain ⟨d, htext, hkind, hname, hblank, hdot, hdash, hdouble, hsingle⟩ := exists_of_mem_marks h
  have hstart : Lexer.isNameStart d = false := by
    by_contra hstart
    rw [isNameChar_of_isNameStart (by simpa using hstart)] at hname
    cases hname
  have hdigit : d.isDigit = false := by
    by_contra hdigit
    rw [isNameChar_of_isDigit (by simpa using hdigit)] at hname
    cases hname
  refine ⟨d, [], htext, hblank, fun c hrest => ?_⟩
  rw [htext, List.singleton_append] at hrest
  have hdots : c.startsWith "..." = false := by
    rw [startsWith, hrest, show "...".toList = ['.', '.', '.'] from rfl, List.isPrefixOf_cons_cons]
    simp [Ne.symm hdot]
  have hbump := reads_bump c
  rw [hrest] at hbump
  rw [normalToken, if_neg (by simp [hstart]), if_neg (by simp [hdigit]), if_neg (by simp [hdash]),
    if_neg (by simp [hdouble, hsingle]), hdots, hkind, htext]
  exact ⟨rfl, hbump⟩

theorem endsWord_mark {w : DocWord} (h : w ∈ marks) (ws : List DocWord) :
    EndsWord (chars (w :: ws)) := by
  obtain ⟨d, htext, -, hname, -, hdot, hdash, -⟩ := exists_of_mem_marks h
  intro c r hcr
  rw [chars_cons, htext] at hcr
  obtain rfl := (List.cons.inj hcr).1
  exact ⟨hname, hdot, hdash⟩

theorem endsWord_nil : EndsWord (chars []) := fun _ _ h => nomatch h

def OnOneLine (w : DocWord) : Prop := ∀ c ∈ w.text.toList, Lexer.isLineBreak c = false

/-- The lexer takes up each of the words, and none of them goes on in another line. -/
def Apart : List DocWord → Prop
  | [] => True
  | w :: ws => w.OnOneLine ∧ w.Lexes (w.gap ++ chars ws) ∧ Apart ws

variable {ws : List DocWord}

theorem not_isLineBreak_of (p : Char → Bool) {c : Char} (hnewline : p c ≠ p '\n')
    (hreturn : p c ≠ p '\r') : Lexer.isLineBreak c = false := by
  by_contra hbreak
  simp only [Lexer.isLineBreak, Bool.not_eq_false, Bool.or_eq_true, beq_iff_eq] at hbreak
  obtain rfl | rfl := hbreak
  · exact hnewline rfl
  · exact hreturn rfl

theorem not_isLineBreak_of_isNameChar {c : Char} (h : Lexer.isNameChar c = true) :
    Lexer.isLineBreak c = false :=
  not_isLineBreak_of Lexer.isNameChar (by rw [h]; decide) (by rw [h]; decide)

theorem not_isLineBreak_of_shown {c : Char} (h : Text.isHidden c = false) :
    Lexer.isLineBreak c = false :=
  not_isLineBreak_of Text.isHidden (by rw [h]; decide) (by rw [h]; decide)

theorem onOneLine_name {text : String} (h : IsIdentifier text) : (name text).OnOneLine := by
  obtain ⟨d, r, htext, hd, hr⟩ := h
  intro c hc
  rw [name, htext] at hc
  refine not_isLineBreak_of_isNameChar ?_
  rcases List.mem_cons.1 hc with rfl | hc
  · exact isNameChar_of_isNameStart hd
  · exact hr c hc

theorem onOneLine_int (value : Int) : (int value).OnOneLine := by
  have hdigits : ∀ n, ∀ d ∈ Nat.toDigits 10 n, Lexer.isLineBreak d = false := fun n d hd =>
    not_isLineBreak_of_isNameChar
      (isNameChar_of_isDigit (Nat.isDigit_of_mem_toDigits (by decide) (by decide) hd))
  intro c hc
  cases value with
  | ofNat n =>
    rw [text_int_ofNat] at hc
    exact hdigits n c hc
  | negSucc n =>
    rw [text_int_negSucc] at hc
    rcases List.mem_cons.1 hc with rfl | hc
    · decide
    · exact hdigits (n + 1) c hc

theorem onOneLine_str {value : String} (h : IsShown value) : (str value).OnOneLine := by
  intro c hc
  rw [text_str, List.mem_cons, List.mem_append, List.mem_singleton, List.mem_flatMap] at hc
  rcases hc with rfl | ⟨d, hd, hc⟩ | rfl
  · decide
  · have hmem : c = '\x5c' ∨ c = d := by
      rw [quotedChar_of_shown (h d hd)] at hc
      split at hc <;> simp_all
    rcases hmem with rfl | rfl
    · decide
    · exact not_isLineBreak_of_shown (h c hd)
  · decide

theorem onOneLine_mark {w : DocWord} (h : w ∈ marks) : w.OnOneLine := by
  obtain ⟨d, htext, -, -, hblank, -⟩ := exists_of_mem_marks h
  intro c hc
  rw [htext, List.mem_singleton] at hc
  rw [hc]
  exact not_isLineBreak_of Text.isBlank (by rw [hblank]; decide) (by rw [hblank]; decide)

theorem apart_name {text : String} (h : IsIdentifier text) (hend : EndsWord (chars ws))
    (hws : Apart ws) : Apart (name text :: ws) := ⟨onOneLine_name h, lexes_name h hend, hws⟩

theorem apart_int (value : Int) (hend : EndsWord (chars ws)) (hws : Apart ws) :
    Apart (int value :: ws) :=
  ⟨onOneLine_int value, lexes_int value hend, hws⟩

theorem apart_str {value : String} (h : IsShown value) (hws : Apart ws) : Apart (str value :: ws) :=
  ⟨onOneLine_str h, lexes_str h _, hws⟩

theorem apart_mark {w : DocWord} (h : w ∈ marks) (hws : Apart ws) : Apart (w :: ws) :=
  ⟨onOneLine_mark h, lexes_mark h _, hws⟩

theorem not_isLineBreak_of_apart (hws : Apart ws) :
    ∀ c ∈ chars ws, Lexer.isLineBreak c = false := by
  induction ws with
  | nil => exact fun c hc => nomatch hc
  | cons w ws ih =>
    obtain ⟨hline, -, hws⟩ := hws
    intro c hc
    rw [chars_cons, List.mem_append, List.mem_append] at hc
    rcases hc with hc | hc | hc
    · exact hline c hc
    · unfold gap at hc
      split at hc
      · obtain rfl := List.mem_singleton.1 hc
        decide
      · nomatch hc
    · exact ih hws c hc

theorem length_le_of_apart (hws : Apart ws) : ws.length ≤ (chars ws).length := by
  induction ws with
  | nil => simp
  | cons w ws ih =>
    obtain ⟨-, ⟨d, r, htext, -⟩, hws⟩ := hws
    have := ih hws
    simp only [chars_cons, htext, List.length_cons, List.length_append]
    omega

end DocWord

open DocWord

/-- From a token on a lexer finds words, and then the end of the line. -/
inductive DocSpells (text : String) : List DocWord → Token → DocLexer → Prop where
  | nil {t : Token} {l : DocLexer} (hkind : t.kind = .docLineEnd) : DocSpells text [] t l
  | cons {w : DocWord} {ws : List DocWord} {t : Token} {l : DocLexer} (hkind : t.kind = w.kind)
      (hword : w.kind ≠ .docLineEnd) (htext : Text.slice text t.span = w.text)
      (h : DocSpells text ws l.next.1 l.next.2) : DocSpells text (w :: ws) t l

namespace DocLexer

open Cursor

theorem next_normal (c : Cursor) :
    (DocLexer.mk c .normal).next = (⟨(normal c).1, (normal c).2.span⟩,
      ⟨(normal c).2, .normal⟩) := rfl

theorem spells_next {ws : List DocWord} (hws : Apart ws) {c : Cursor} (hc : c.Valid)
    {blanks : List Char} (hblanks : ∀ x ∈ blanks, Text.isBlank x = true)
    (hrest : c.rest = blanks ++ chars ws) :
    DocSpells c.text ws (DocLexer.mk c .normal).next.1 (DocLexer.mk c .normal).next.2 := by
  induction ws generalizing c blanks with
  | nil =>
    refine .nil ?_
    have hend : (c.skipWhile Text.isBlank).mark.peek? = none := by
      have hnone : c.rest.dropWhile Text.isBlank = [] := by
        rw [hrest]
        simpa [chars, List.dropWhile_eq_nil_iff] using hblanks
      simp [peek?, Cursor.mark, skipWhile, eatWhile, hnone]
    rw [next_normal, normal, hend]
  | cons w ws ih =>
    obtain ⟨-, ⟨d, r, htext, hd, hlexes⟩, hws⟩ := hws
    rw [chars_cons] at hrest
    have hreads := reads_skipWhile c Text.isBlank
    rw [hrest, takeWhile_append_eq hblanks fun x s hxs => by
      rw [htext, List.cons_append] at hxs
      exact (List.cons.inj hxs).1 ▸ hd] at hreads
    obtain ⟨b, hb⟩ : ∃ b, b = (c.skipWhile Text.isBlank).mark := ⟨_, rfl⟩
    have hbehind : b.rest = w.text.toList ++ (w.gap ++ chars ws) := by
      rw [hb]
      exact List.append_cancel_left (hreads.rest_eq.symm.trans hrest)
    have hvalid : b.Valid := hb ▸ (hc.reads hreads).mark
    have hpeek : b.peek? = some d := by simp [peek?, hbehind, htext]
    obtain ⟨hkind, hword⟩ := hlexes b hbehind
    have hnormal : normal c = normalToken d b := by
      rw [normal, ← hb]
      simp only [hpeek]
    rw [next_normal, hnormal]
    have htext : b.text = c.text := by rw [hb]; exact hreads.text_eq
    have hstart : b.start = b.pos := by rw [hb]; rfl
    have hpiece : Text.IsPiece b.text ⟨b.pos, b.stop⟩ (w.text.toList ++ (normalToken d b).2.rest) :=
      hword.rest_eq ▸ hvalid
    have hspan : (normalToken d b).2.span = ⟨b.pos, b.pos + Text.byteLength w.text.toList⟩ := by
      rw [Cursor.span, hword.start_eq, hword.pos_eq, hstart]
    have hgap : ∀ x ∈ w.gap, Text.isBlank x = true := by
      unfold gap
      split
      · simp [show Text.isBlank ' ' = true by decide]
      · simp
    have hlater :=
      ih hws (hvalid.reads hword) hgap (List.append_cancel_left (hword.rest_eq.symm.trans hbehind))
    rw [hword.text_eq, htext] at hlater
    refine .cons hkind (hkind ▸ normalToken_ne d b) ?_ hlater
    rw [hspan, ← htext]
    exact String.toList_inj.1 (Text.IsPiece.slice_eq hpiece.split.1)

end DocLexer

end LuaAnalysis.Syntax
