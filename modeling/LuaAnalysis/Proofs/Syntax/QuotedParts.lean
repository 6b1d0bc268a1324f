import Mathlib.Algebra.Order.BigOperators.Group.List
import LuaAnalysis.Proofs.Syntax.LiteralCuts

/-!
What stands between quotes, cut up as the scanner takes it: content, and escapes with the content
behind each. The decoder goes over the same characters on its own. It takes one line feed for a line
break and every blank of Unicode behind `\z`, so the two agree only where no more than that is
there.
-/

namespace LuaAnalysis.Syntax

/-- What is one line break behind a backslash. -/
inductive LineBreak where
  | lf
  | cr
  | crLf
  | lfCr
deriving DecidableEq

def LineBreak.chars : LineBreak → List Char
  | .lf => ['\n']
  | .cr => ['\r']
  | .crLf => ['\r', '\n']
  | .lfCr => ['\n', '\r']

/-- What the scanner takes behind a backslash. -/
inductive QuotedEscape where
  | lineBreak (b : LineBreak)
  /-- The letter `z` with the blanks that the scanner passes over. -/
  | skip (blanks : List Char)
  | letter (c : Char)
deriving DecidableEq

structure QuotedParts where
  /-- The content in front of the first escape. -/
  front : List Char
  /-- The escapes, each with the content behind it. -/
  escapes : List (QuotedEscape × List Char)

namespace QuotedEscape

def chars : QuotedEscape → List Char
  | .lineBreak b => b.chars
  | .skip blanks => 'z' :: blanks
  | .letter c => [c]

/-- The escape of one character other than `z`. -/
def ofChar (c : Char) : QuotedEscape :=
  if c == '\n' then .lineBreak .lf else if c == '\r' then .lineBreak .cr else .letter c

@[simp] theorem chars_ofChar (c : Char) : (ofChar c).chars = [c] := by
  rw [ofChar]
  split
  · simp_all [chars, LineBreak.chars]
  · split <;> simp_all [chars, LineBreak.chars]

/-- What an escape stands for with the content `run` behind it, where the scanner ends it. -/
def meant (run : List Char) : QuotedEscape → List Char
  | .lineBreak _ => '\n' :: run
  | .skip _ => run
  | .letter c => (Literal.escape c run).1.toList ++ (Literal.escape c run).2

/-- What the decoder makes of an escape with the content `run` behind it. -/
def decoded (run : List Char) : QuotedEscape → List Char
  | .lineBreak b => b.chars ++ run
  | .skip _ => run.dropWhile Text.isBlank
  | .letter c => (Literal.escape c run).1.toList ++ (Literal.escape c run).2

/-- What the scanner takes for an escape in front of the content `run`: all blanks behind `z`, and
no line break behind anything else. -/
def WellCut (run : List Char) : QuotedEscape → Prop
  | .lineBreak _ => True
  | .skip blanks => (∀ c ∈ blanks, Text.isAsciiBlank c = true) ∧
      ∀ c ∈ run.head?, Text.isAsciiBlank c = false
  | .letter c => c ≠ 'z' ∧ Lexer.isLineBreak c = false

/-- The digits of an escape are all in the content behind it. -/
def Complete (run : List Char) : QuotedEscape → Prop
  | .letter c => (c = 'x' → 2 ≤ run.length) ∧ (c = 'u' → run.head? = some '\x7b' → '\x7d' ∈ run)
  | _ => True

/-- The decoder takes as much for an escape as the scanner does. -/
def Alike (run : List Char) : QuotedEscape → Prop
  | .lineBreak b => b = .lf
  | .skip _ => ∀ c ∈ run.head?, Text.isBlank c = false
  | .letter _ => True

instance (run : List Char) : (e : QuotedEscape) → Decidable (e.Complete run)
  | .lineBreak _ | .skip _ => isTrue trivial
  | .letter c => inferInstanceAs
      (Decidable ((c = 'x' → 2 ≤ run.length) ∧ (c = 'u' → run.head? = some '\x7b' → '\x7d' ∈ run)))

theorem wellCut_ofChar {c : Char} (h : c ≠ 'z') (run : List Char) : (ofChar c).WellCut run := by
  rw [ofChar]
  split
  · trivial
  · split
    · trivial
    · exact ⟨h, by simp_all [Lexer.isLineBreak]⟩

end QuotedEscape

namespace QuotedParts

def chars (p : QuotedParts) : List Char := p.front ++ p.escapes.flatMap fun e =>
  '\x5c' :: (e.1.chars ++ e.2)

def meant (p : QuotedParts) : List Char := p.front ++ p.escapes.flatMap fun e => e.1.meant e.2

def decoded (p : QuotedParts) : List Char := p.front ++ p.escapes.flatMap fun e => e.1.decoded e.2

def Complete (p : QuotedParts) : Prop := ∀ e ∈ p.escapes, e.1.Complete e.2

instance (p : QuotedParts) : Decidable p.Complete :=
  inferInstanceAs (Decidable (∀ e ∈ p.escapes, e.1.Complete e.2))

/-- Content is neither a line break nor a backslash. -/
structure WellCut (p : QuotedParts) : Prop where
  front : ∀ c ∈ p.front, Lexer.isLineBreak c = false ∧ c ≠ '\x5c'
  run : ∀ e ∈ p.escapes, ∀ c ∈ e.2, Lexer.isLineBreak c = false ∧ c ≠ '\x5c'
  escape : ∀ e ∈ p.escapes, e.1.WellCut e.2

def cons (c : Char) (p : QuotedParts) : QuotedParts := { p with front := c :: p.front }

def behind (e : QuotedEscape) (p : QuotedParts) : QuotedParts := ⟨[], (e, p.front) :: p.escapes⟩

@[simp] theorem chars_empty : chars ⟨[], []⟩ = [] := rfl

@[simp] theorem chars_cons (c : Char) (p : QuotedParts) : (p.cons c).chars = c :: p.chars := rfl

@[simp] theorem chars_behind (e : QuotedEscape) (p : QuotedParts) :
    (p.behind e).chars = '\x5c' :: (e.chars ++ p.chars) := by simp [chars, behind]

theorem WellCut.cons {p : QuotedParts} (h : p.WellCut) {c : Char}
    (hbreak : Lexer.isLineBreak c = false) (hc : c ≠ '\x5c') : (p.cons c).WellCut := by
  refine ⟨fun d hd => ?_, h.run, h.escape⟩
  rcases List.mem_cons.1 hd with rfl | hd
  · exact ⟨hbreak, hc⟩
  · exact h.front d hd

theorem WellCut.behind {p : QuotedParts} (h : p.WellCut) {e : QuotedEscape}
    (he : e.WellCut p.front) : (p.behind e).WellCut := by
  refine ⟨by simp [QuotedParts.behind], fun x hx => ?_, fun x hx => ?_⟩
  all_goals rcases List.mem_cons.1 hx with rfl | hx
  · exact h.front
  · exact h.run x hx
  · exact he
  · exact h.escape x hx

end QuotedParts

namespace Lexer

/-- The parts up to the closing quote. The characters stand behind it, or, while `skipping` holds,
among the blanks behind an escape `\z`. -/
def quotedParts (quote : Char) (skipping : Bool) : List Char → QuotedParts
  | [] => ⟨[], []⟩
  | c :: r =>
    if skipping && Text.isAsciiBlank c then quotedParts quote true r
    else if isLineBreak c then ⟨[], []⟩
    else if c == '\x5c' then
      match r with
      | [] => ⟨[], []⟩
      | 'z' :: r => (quotedParts quote true r).behind (.skip (r.takeWhile Text.isAsciiBlank))
      | '\r' :: '\n' :: r => (quotedParts quote false r).behind (.lineBreak .crLf)
      | '\n' :: '\r' :: r => (quotedParts quote false r).behind (.lineBreak .lfCr)
      | d :: r => (quotedParts quote false r).behind (.ofChar d)
    else if c == quote then ⟨[], []⟩
    else (quotedParts quote false r).cons c

theorem quotedBody_eq_parts {quote : Char} {skipping : Bool} {cs : List Char}
    (h : (quotedBody quote skipping cs).2.2 = true) : (quotedBody quote skipping cs).1 =
      (if skipping then cs.takeWhile Text.isAsciiBlank else []) ++
      ((quotedParts quote skipping cs).chars ++ [quote]) := by
  fun_induction quotedBody quote skipping cs
  case case1 => simp at h
  case case8 =>
    -- `chars_ofChar` is about `chars` as it stands
    rw [quotedParts.eq_def]
    simp only [*, if_true]
    simp_all
  all_goals
    rw [quotedParts.eq_def]
    simp only [*, if_true]
    simp_all [QuotedEscape.chars, LineBreak.chars]

theorem front_quotedParts (quote : Char) (cs : List Char) :
    ∀ c ∈ (quotedParts quote true cs).front.head?, Text.isAsciiBlank c = false := by
  generalize hskipping : true = skipping
  fun_induction quotedParts quote skipping cs with
  | case2 _ _ _ _ ih => exact ih rfl
  | case10 _ c r hblank =>
    subst hskipping
    rintro _ ⟨rfl⟩
    simpa using hblank
  | _ => simp [QuotedParts.behind]

theorem wellCut_quotedParts (quote : Char) (skipping : Bool) (cs : List Char) :
    (quotedParts quote skipping cs).WellCut := by
  have hnone : QuotedParts.WellCut ⟨[], []⟩ := ⟨by simp, by simp, by simp⟩
  fun_induction quotedParts quote skipping cs with
  | case1 | case3 | case4 | case9 => exact hnone
  | case2 _ _ _ _ ih => exact ih
  | case5 _ _ _ _ _ r ih =>
    exact ih.behind ⟨fun c hc => List.mem_takeWhile_imp hc, front_quotedParts quote r⟩
  | case6 _ _ _ _ _ r ih | case7 _ _ _ _ _ r ih => exact ih.behind trivial
  | case8 _ _ _ _ _ d r hz _ _ ih => exact ih.behind (QuotedEscape.wellCut_ofChar hz _)
  | case10 _ c r _ hbreak hslash _ ih =>
    exact ih.cons (by simpa using hbreak) (by simpa using hslash)

theorem quotedBody_of_closed {quote : Char} {skipping : Bool} {cs : List Char}
    (h : (quotedBody quote skipping cs).2.2 = true) :
    quotedBody quote skipping (quotedBody quote skipping cs).1 =
    ((quotedBody quote skipping cs).1, [], true) := by
  fun_induction quotedBody quote skipping cs
  case case1 => simp at h
  case case8 d r hz hcr hlf taken rest closed hbody ih =>
    -- the second half of a line break would be in the rest as well
    obtain rfl : taken ++ rest = r := by simpa [hbody] using quotedBody_append quote false r
    have hcr' (s : List Char) (hd : d = '\r') (htaken : taken = '\n' :: s) : False :=
      hcr (s ++ rest) hd (by rw [htaken]; rfl)
    have hlf' (s : List Char) (hd : d = '\n') (htaken : taken = '\r' :: s) : False :=
      hlf (s ++ rest) hd (by rw [htaken]; rfl)
    clear hcr hlf
    rw [quotedBody.eq_def]
    simp_all
  all_goals
    rw [quotedBody.eq_def]
    simp_all

end Lexer

namespace Literal

theorem escape_suffix (c : Char) (cs : List Char) : (escape c cs).2 <:+ cs := by
  unfold escape
  split
  · exact List.suffix_refl cs
  · split
    · exact List.dropWhile_suffix _
    · split
      · exact List.drop_suffix _ _
      · split
        · unfold codeEscape
          split
          · exact (List.drop_suffix _ _).trans (List.suffix_cons _ _)
          · exact List.suffix_refl cs
        · split
          · exact List.drop_suffix _ _
          · exact List.suffix_refl cs

theorem unescape_cons {c : Char} (hc : c ≠ '\x5c') (fuel : Nat) (cs : List Char) :
    unescape (fuel + 1) (c :: cs) = c :: unescape fuel cs := by
  cases cs <;> simp [unescape, hc]

theorem unescape_escape (c : Char) (fuel : Nat) (cs : List Char) :
    unescape (fuel + 1) ('\x5c' :: c :: cs) = (escape c cs).1.toList ++
    unescape fuel (escape c cs).2 := rfl

theorem unescape_congr {fuel fuel' : Nat} {cs : List Char} (h : cs.length ≤ fuel)
    (h' : cs.length ≤ fuel') : unescape fuel cs = unescape fuel' cs := by
  induction fuel generalizing fuel' cs with
  | zero =>
    obtain rfl := List.length_eq_zero_iff.1 (Nat.le_zero.1 h)
    cases fuel' <;> rfl
  | succ fuel ih =>
    cases cs with
    | nil => cases fuel' <;> rfl
    | cons c r =>
      obtain ⟨fuel', rfl⟩ := Nat.exists_eq_succ_of_ne_zero (Nat.ne_zero_of_lt h')
      rw [List.length_cons, Nat.succ_le_succ_iff] at h h'
      by_cases hc : c = '\x5c'
      · subst hc
        cases r with
        | nil => rfl
        | cons e r =>
          have hrest := (escape_suffix e r).length_le
          rw [List.length_cons] at h h'
          have hfuel : unescape fuel (escape e r).2 = unescape fuel' (escape e r).2 :=
            ih (by omega) (by omega)
          rw [unescape_escape, unescape_escape, hfuel]
      · rw [unescape_cons hc, unescape_cons hc, ih h h']

def decode (cs : List Char) : List Char := unescape cs.length cs

theorem decode_cons {c : Char} (hc : c ≠ '\x5c') (cs : List Char) :
    decode (c :: cs) = c :: decode cs :=
  unescape_cons hc cs.length cs

theorem decode_escape (c : Char) (cs : List Char) :
    decode ('\x5c' :: c :: cs) = (escape c cs).1.toList ++ decode (escape c cs).2 := by
  have hrest := (escape_suffix c cs).length_le
  exact congrArg (_ ++ ·) (unescape_congr (Nat.le_succ_of_le hrest) (Nat.le_refl _))

theorem decode_append {run : List Char} (h : ∀ c ∈ run, c ≠ '\x5c') (cs : List Char) :
    decode (run ++ cs) = run ++ decode cs := by
  induction run with
  | nil => rfl
  | cons c run ih =>
    rw [List.forall_mem_cons] at h
    rw [List.cons_append, decode_cons h.1, ih h.2, List.cons_append]

variable {run behind : List Char}

theorem takeWhile_append {p : Char → Bool} (h : ∀ c ∈ behind.head?, p c = false) :
    (run ++ behind).takeWhile p = run.takeWhile p := by
  have hnone : behind.takeWhile p = [] := by cases behind <;> simp_all
  rw [List.takeWhile_append, hnone, List.append_nil]
  split
  · rename_i hlength
    exact ((List.takeWhile_prefix p).eq_of_length hlength).symm
  · rfl

theorem dropWhile_append {p : Char → Bool} (h : ∀ c ∈ behind.head?, p c = false) :
    (run ++ behind).dropWhile p = run.dropWhile p ++ behind := by
  have hall : behind.dropWhile p = behind := by cases behind <;> simp_all
  rw [List.dropWhile_append, hall]
  split
  · rename_i hempty
    rw [List.isEmpty_iff.1 hempty, List.nil_append]
  · rfl

theorem byteEscape_append (h : 2 ≤ run.length) (cs : List Char) :
    byteEscape (run ++ cs) = ((byteEscape run).1, (byteEscape run).2 ++ cs) := by
  rw [byteEscape, byteEscape, List.take_append_of_le_length h, List.drop_append_of_le_length h]

theorem codeEscape_of_ne {cs : List Char} (h : cs.head? ≠ some '\x7b') :
    codeEscape cs = (none, cs) := by
  unfold codeEscape
  split
  · exact absurd rfl h
  · rfl

theorem codeEscape_append (hclosed : run.head? = some '\x7b' → '\x7d' ∈ run)
    (hopen : behind.head? ≠ some '\x7b') :
    codeEscape (run ++ behind) = ((codeEscape run).1, (codeEscape run).2 ++ behind) := by
  cases run with
  | nil => rw [List.nil_append, codeEscape_of_ne hopen]; rfl
  | cons d run =>
    by_cases hd : d = '\x7b'
    · subst hd
      have hbrace : '\x7d' ∈ run := by simpa using hclosed rfl
      have hlength : (run.takeWhile (· != '\x7d')).length < run.length := by
        refine lt_of_le_of_ne (List.takeWhile_prefix _).length_le fun hall => ?_
        rw [← (List.takeWhile_prefix _).eq_of_length hall] at hbrace
        simpa using List.mem_takeWhile_imp hbrace
      have hcode : (run ++ behind).takeWhile (· != '\x7d') = run.takeWhile (· != '\x7d') := by
        rw [List.takeWhile_append, if_neg hlength.ne]
      simp only [codeEscape, List.cons_append, hcode, List.drop_append_of_le_length hlength]
    · rw [List.cons_append, codeEscape_of_ne (by simpa using hd),
        codeEscape_of_ne (by simpa using hd), List.cons_append]

theorem decimalEscape_append (d : Char) (h : ∀ c ∈ behind.head?, c.isDigit = false) :
    decimalEscape d (run ++ behind) =
    ((decimalEscape d run).1, (decimalEscape d run).2 ++ behind) := by
  have hdigits : ((run ++ behind).take 2).takeWhile Char.isDigit =
      (run.take 2).takeWhile Char.isDigit := by
    rw [List.take_append]
    refine takeWhile_append fun c hc => h c ?_
    rw [List.head?_take] at hc
    split at hc
    · cases hc
    · exact hc
  have hlength : ((run.take 2).takeWhile Char.isDigit).length ≤ run.length :=
    ((List.takeWhile_prefix _).trans (List.take_prefix _ _)).length_le
  rw [decimalEscape, decimalEscape, hdigits, List.drop_append_of_le_length hlength]

theorem escape_append {c : Char} (hcomplete : (QuotedEscape.letter c).Complete run)
    (hbehind : ∀ d ∈ behind.head?, d = '\x5c') :
    escape c (run ++ behind) = ((escape c run).1, (escape c run).2 ++ behind) := by
  have hstop {p : Char → Bool} (hp : p '\x5c' = false) : ∀ d ∈ behind.head?, p d = false :=
    fun d hd => hbehind d hd ▸ hp
  have hbrace : behind.head? ≠ some '\x7b' := fun h => absurd (hbehind _ h) (by decide)
  unfold escape
  split
  · rfl
  · split
    · rw [dropWhile_append (hstop (by decide))]
    · split
      · rename_i hc
        obtain rfl := beq_iff_eq.1 hc
        exact byteEscape_append (hcomplete.1 rfl) behind
      · split
        · rename_i hc
          obtain rfl := beq_iff_eq.1 hc
          exact codeEscape_append (hcomplete.2 rfl) hbrace
        · split
          · exact decimalEscape_append c (hstop (by decide))
          · rfl

theorem decode_lineBreak (b : LineBreak) (cs : List Char) :
    decode ('\x5c' :: (b.chars ++ cs)) = b.chars ++ decode cs := by
  have hfirst (c : Char) (hc : c = '\n' ∨ c = '\r') (cs : List Char) : decode ('\x5c' :: c :: cs) =
      c :: decode cs := by
    rw [decode_escape]
    rcases hc with rfl | rfl <;> rfl
  cases b with
  | lf | cr => exact hfirst _ (by decide) cs
  | crLf | lfCr => exact (hfirst _ (by decide) _).trans (congrArg _ (decode_cons (by decide) cs))

theorem decode_escape_run {e : QuotedEscape} (hrun : ∀ c ∈ run, c ≠ '\x5c') (hcut : e.WellCut run)
    (hcomplete : e.Complete run) (hbehind : ∀ d ∈ behind.head?, d = '\x5c') :
    decode ('\x5c' :: (e.chars ++ run) ++ behind) = e.decoded run ++ decode behind := by
  rw [List.cons_append, List.append_assoc]
  cases e with
  | lineBreak b =>
    rw [QuotedEscape.chars, QuotedEscape.decoded, decode_lineBreak, decode_append hrun,
      List.append_assoc]
  | skip blanks =>
    have hpassed : ∀ c ∈ blanks, Text.isBlank c = true :=
      fun c hc => Text.isBlank_of_isAsciiBlank (hcut.1 c hc)
    have hstop : ∀ d ∈ behind.head?, Text.isBlank d = false := fun d hd => hbehind d hd ▸ by decide
    have hescape : escape 'z' (blanks ++ (run ++ behind)) =
        (none, run.dropWhile Text.isBlank ++ behind) := by
      rw [← dropWhile_append hstop, ← List.dropWhile_append_of_pos hpassed]
      rfl
    simp only [QuotedEscape.chars, QuotedEscape.decoded, List.cons_append]
    rw [decode_escape, hescape, decode_append fun c hc =>
      hrun c ((List.dropWhile_suffix _).subset hc)]
    rfl
  | letter c =>
    simp only [QuotedEscape.chars, QuotedEscape.decoded, List.cons_append, List.nil_append]
    rw [decode_escape, escape_append hcomplete hbehind,
      decode_append fun c hc => hrun c ((escape_suffix _ _).subset hc), List.append_assoc]

theorem decode_parts {p : QuotedParts} (hcut : p.WellCut) (hcomplete : p.Complete) :
    decode p.chars = p.decoded := by
  obtain ⟨front, escapes⟩ := p
  rw [QuotedParts.chars, QuotedParts.decoded, decode_append fun c hc => (hcut.front c hc).2]
  refine congrArg (front ++ ·) ?_
  have hrun := hcut.run
  have hescape := hcut.escape
  dsimp only [QuotedParts.Complete] at hrun hescape hcomplete ⊢
  clear hcut
  induction escapes with
  | nil => rfl
  | cons e escapes ih =>
    rw [List.forall_mem_cons] at hrun hescape hcomplete
    rw [List.flatMap_cons, List.flatMap_cons, ← ih hcomplete.2 hrun.2 hescape.2]
    refine decode_escape_run (fun c hc => (hrun.1 c hc).2) hescape.1 hcomplete.1 ?_
    cases escapes <;> simp

end Literal

namespace QuotedParts

variable {p : QuotedParts}

theorem count_meant_le {e : QuotedEscape} {run : List Char}
    (hrun : ∀ c ∈ run, Lexer.isLineBreak c = false) :
    (e.meant run).count '\r' ≤ (e.decoded run).count '\r' ∧
      ∀ b, e = .lineBreak b → b ≠ .lf → (e.meant run).count '\r' < (e.decoded run).count '\r' := by
  have hnone : run.count '\r' = 0 := List.count_eq_zero.2 fun hmem =>
    absurd (hrun _ hmem) (by decide)
  cases e with
  | lineBreak b =>
    simp only [QuotedEscape.meant, QuotedEscape.decoded, List.count_append, List.count_cons, hnone]
    constructor
    · simp
    · rintro _ ⟨rfl⟩ hb
      cases b <;> simp_all [LineBreak.chars]
  | skip blanks => exact ⟨hnone ▸ Nat.zero_le _, nofun⟩
  | letter c => exact ⟨Nat.le_refl _, nofun⟩

theorem length_decoded_le {e : QuotedEscape} {run : List Char}
    (hbreak : ∀ b, e = .lineBreak b → b = .lf) : (e.decoded run).length ≤ (e.meant run).length ∧
      (¬ e.Alike run → (e.decoded run).length < (e.meant run).length) := by
  cases e with
  | lineBreak b =>
    obtain rfl := hbreak b rfl
    exact ⟨Nat.le_refl _, fun h => absurd rfl h⟩
  | skip blanks =>
    refine ⟨(List.dropWhile_suffix _).length_le, fun h => ?_⟩
    cases run with
    | nil => exact absurd nofun h
    | cons c run =>
      have hc : Text.isBlank c = true := by simpa [QuotedEscape.Alike] using h
      rw [QuotedEscape.decoded, List.dropWhile_cons, if_pos hc]
      exact Nat.lt_succ_of_le (List.dropWhile_suffix _).length_le
  | letter c => exact ⟨Nat.le_refl _, fun h => absurd trivial h⟩

theorem decoded_of_alike {e : QuotedEscape} {run : List Char} (h : e.Alike run) :
    e.decoded run = e.meant run := by
  cases e with
  | lineBreak b =>
    obtain rfl := h
    rfl
  | skip blanks =>
    cases run with
    | nil => rfl
    | cons c run => rw [QuotedEscape.decoded, List.dropWhile_cons, h c rfl]; rfl
  | letter c => rfl

/-- The two readings agree only where they agree on every escape: what one escape adds is not made
up for by another. -/
theorem decoded_eq_meant_iff (hcut : p.WellCut) : p.decoded = p.meant ↔
    ∀ e ∈ p.escapes, e.1.Alike e.2 := by
  rw [decoded, meant, List.append_cancel_left_eq]
  constructor
  · intro heq e he
    -- carriage returns give away a line break, and when there are none lengths give away a blank
    have hbreak : ∀ e ∈ p.escapes, ∀ b, e.1 = .lineBreak b → b = .lf := by
      intro e he b hb
      by_contra hne
      have hcounts := fun e he => @count_meant_le e.1 e.2 fun c hc => (hcut.run e he c hc).1
      have hlt := List.sum_lt_sum _ _ (fun e he => (hcounts e he).1) ⟨e, he,
        (hcounts e he).2 b hb hne⟩
      have hcount := congrArg (List.count '\r') heq
      rw [List.count_flatMap, List.count_flatMap] at hcount
      exact absurd hcount hlt.ne'
    by_contra halike
    have hlengths := fun e he => @length_decoded_le e.1 e.2 (hbreak e he)
    have hlt := List.sum_lt_sum _ _ (fun e he => (hlengths e he).1) ⟨e, he,
      (hlengths e he).2 halike⟩
    have hlength := congrArg List.length heq
    rw [List.length_flatMap, List.length_flatMap] at hlength
    exact absurd hlength hlt.ne
  · intro h
    exact List.flatMap_congr fun e he => decoded_of_alike (h e he)

theorem alike_iff : (∀ e ∈ p.escapes, e.1.Alike e.2) ↔
    (∀ b run, (.lineBreak b, run) ∈ p.escapes → b = .lf) ∧
    ∀ blanks c run, (.skip blanks, c :: run) ∈ p.escapes → Text.isBlank c = false := by
  constructor
  · intro halike
    exact ⟨fun b run hmem => halike _ hmem, fun blanks c run hmem => halike _ hmem c rfl⟩
  · rintro ⟨hbreak, hskip⟩ ⟨e, run⟩ hmem
    cases e with
    | lineBreak b => exact hbreak b run hmem
    | skip blanks =>
      intro c hc
      obtain ⟨run, rfl⟩ := List.head?_eq_some_iff.1 hc
      exact hskip blanks c run hmem
    | letter c => trivial

end QuotedParts

namespace Literal

def parts (text : String) : QuotedParts :=
  match text.toList with
  | [] => ⟨[], []⟩
  | quote :: r => Lexer.quotedParts quote false r

theorem stringValue?_closed {source : String} {quote : Char} {cs : List Char}
    (hsource : source.toList = quote :: (cs ++ [quote])) (hquote : quote ≠ '[') :
    stringValue? source = some (String.ofList (decode cs)) := by
  rw [stringValue?, hsource]
  split
  · cases ‹_ = ([] : List Char)›
  · rename_i hcons
    exact absurd (List.cons.inj hcons).1 hquote
  · rename_i hcons
    obtain ⟨rfl, rfl⟩ := List.cons.inj hcons
    simp [decode]

theorem toList_eq_parts {text : String} {t : Token} (ht : t ∈ (Lexer.tokenize text).1)
    (hkind : t.kind = .str) (hclosed : ⟨.lex .unfinishedString, t.span⟩ ∉ (Lexer.tokenize text).2) :
    (parts (Text.slice text t.span)).WellCut ∧ ∃ quote, quote ≠ '[' ∧
      (Text.slice text t.span).toList = quote ::
      ((parts (Text.slice text t.span)).chars ++ [quote]) := by
  obtain ⟨quote, r, hlexeme, hpiece, hfault⟩ :=
    Lexer.tokenize_lexeme ht (by simp [hkind]) (by simp [hkind])
  obtain ⟨hquote, hquoted⟩ := Lexer.lexeme_str (hlexeme ▸ hkind)
  have hbody : (Lexer.quotedBody quote false r).2.2 = true := by
    by_contra hopen
    exact hclosed ((hfault _).2 (by simp [hquoted, Lexer.quoted, hopen]))
  -- the parts are those of the token, not of all that is behind the quote
  have hagain := Lexer.quotedBody_of_closed hbody
  have htaken := Lexer.quotedBody_eq_parts (congrArg (·.2.2) hagain)
  rw [hagain] at htaken
  have hsource : (Text.slice text t.span).toList = quote :: (Lexer.quotedBody quote false r).1 := by
    rw [hpiece.slice_eq, hquoted]
    rfl
  have hparts : parts (Text.slice text t.span) =
      Lexer.quotedParts quote false (Lexer.quotedBody quote false r).1 := by
    rw [parts, hsource]
  rw [hparts]
  refine ⟨Lexer.wellCut_quotedParts _ _ _, quote, ?_, hsource.trans (congrArg (quote :: ·) htaken)⟩
  rcases hquote with rfl | rfl <;> decide

/-- A string that is closed consists of its quotes and of parts that are cut as the scanner cuts
them. If its escapes are complete then its value is what the decoder makes of the parts, and that is
what the scanner means by them just if every line break behind a backslash is one line feed and no
other blank of Unicode follows the blanks behind `\z`. -/
theorem stringValue?_eq_meant_iff {text : String} {t : Token} (ht : t ∈ (Lexer.tokenize text).1)
    (hkind : t.kind = .str) (hclosed : ⟨.lex .unfinishedString, t.span⟩ ∉ (Lexer.tokenize text).2) :
    let source := Text.slice text t.span
    let p := parts source
    (∃ quote, source.toList = quote :: (p.chars ++ [quote])) ∧ p.WellCut ∧
      (p.Complete → stringValue? source = some (String.ofList p.decoded) ∧
        (stringValue? source = some (String.ofList p.meant) ↔
          (∀ b run, (.lineBreak b, run) ∈ p.escapes → b = .lf) ∧
            ∀ blanks c run, (.skip blanks, c :: run) ∈ p.escapes → Text.isBlank c = false)) := by
  obtain ⟨hcut, quote, hbracket, hsource⟩ := toList_eq_parts ht hkind hclosed
  refine ⟨⟨quote, hsource⟩, hcut, fun hcomplete => ?_⟩
  have hvalue : stringValue? (Text.slice text t.span) =
      some (String.ofList (parts (Text.slice text t.span)).decoded) := by
    rw [stringValue?_closed hsource hbracket, decode_parts hcut hcomplete]
  refine ⟨hvalue, ?_⟩
  rw [hvalue, Option.some_inj, String.ofList_inj, QuotedParts.decoded_eq_meant_iff hcut,
    QuotedParts.alike_iff]

/-- A line feed behind a backslash, a blank behind `\z`, and two digits behind `\x`. -/
theorem stringValue?_eq_meant_lineFeed :
    (⟨.str, ⟨0, 13⟩⟩ : Token) ∈ (Lexer.tokenize "\"a\\\n\\z \\x41b\"").1 ∧
    stringValue? (Text.slice "\"a\\\n\\z \\x41b\"" ⟨0, 13⟩) = some "a\nAb" := by
  have hmem : (⟨.str, ⟨0, 13⟩⟩ : Token) ∈ (Lexer.tokenize "\"a\\\n\\z \\x41b\"").1 := by
    decide +kernel
  obtain ⟨-, -, hvalue⟩ := stringValue?_eq_meant_iff hmem rfl (by decide +kernel)
  exact ⟨hmem, (hvalue (by decide +kernel)).1.trans (by decide +kernel)⟩

/-- The strings of a text have the values that their parts have where the scanner cuts them. -/
def ReadsEscapes (text : String) : Prop := ∀ t ∈ (Lexer.tokenize text).1, t.kind = .str →
  ⟨.lex .unfinishedString, t.span⟩ ∉ (Lexer.tokenize text).2 →
    stringValue? (Text.slice text t.span) =
    some (String.ofList (parts (Text.slice text t.span)).meant)

instance (text : String) : Decidable (ReadsEscapes text) :=
  inferInstanceAs (Decidable (∀ t ∈ (Lexer.tokenize text).1, _ → _ → _))

/-- A carriage return and a line feed behind a backslash stay two characters, and a no-break space
behind `\z` is lost. -/
theorem not_readsEscapes_carriageReturn : ¬ ReadsEscapes "\"a\\\r\nb\"" ∧
    ¬ ReadsEscapes "\"a\\z\u00a0b\"" := by decide +kernel

end Literal

end LuaAnalysis.Syntax
