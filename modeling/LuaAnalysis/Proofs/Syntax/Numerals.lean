import Mathlib.Data.Nat.Digits.Defs
import LuaAnalysis.Syntax.Literal

/-!
Integers written in digits, of any number. Decimal ones are read if they fit into 64 bits with a
sign. Hexadecimal ones are read modulo 2^64, but only if they have no more than 64 bits to begin
with.
-/

namespace LuaAnalysis

namespace Text

def decimalDigits : List Char := ['0', '1', '2', '3', '4', '5', '6', '7', '8', '9']

def hexadecimalDigits : List Char :=
  decimalDigits ++ ['a', 'b', 'c', 'd', 'e', 'f', 'A', 'B', 'C', 'D', 'E', 'F']

/-- What a hexadecimal digit counts, in either case. -/
def digitWeight (c : Char) : Nat := (hexadecimalDigits.take 16).idxOf c.toLower

/-- The number that digits stand for in a base, the last of them for itself. -/
def digitsValue (base : Nat) (cs : List Char) : Nat :=
  Nat.ofDigits base (cs.map digitWeight).reverse

/-- At least one digit, and nothing but digits. -/
structure IsNumeral (digits : List Char) (s : String) : Prop where
  ne_nil : s.toList ≠ []
  subset : s.toList ⊆ digits

theorem digitValue?_of_mem {c : Char} (h : c ∈ hexadecimalDigits) :
    digitValue? c = some (digitWeight c) ∧ digitWeight c < 16 := by
  have hall : (hexadecimalDigits.all fun c => digitValue? c = some (digitWeight c) ∧
      digitWeight c < 16) = true := by decide
  simpa using List.all_eq_true.1 hall c h

theorem digitWeight_lt_of_mem {c : Char} (h : c ∈ decimalDigits) : digitWeight c < 10 := by
  have hall : (decimalDigits.all fun c => digitWeight c < 10) = true := by decide
  simpa using List.all_eq_true.1 hall c h

theorem digitsValue_cons (base : Nat) (c : Char) (cs : List Char) :
    digitsValue base (c :: cs) = digitWeight c * base ^ cs.length + digitsValue base cs := by
  rw [digitsValue, List.map_cons, List.reverse_cons, Nat.ofDigits_append, Nat.ofDigits_singleton,
    List.length_reverse, List.length_map, digitsValue, Nat.add_comm, Nat.mul_comm]

theorem digitsFrom?_eq {base acc : Nat} {cs : List Char}
    (h : ∀ c ∈ cs, digitValue? c = some (digitWeight c) ∧ digitWeight c < base) :
    digitsFrom? base acc cs = some (acc * base ^ cs.length + digitsValue base cs) := by
  induction cs generalizing acc with
  | nil => simp [digitsFrom?, digitsValue]
  | cons c cs ih =>
    obtain ⟨⟨hvalue, hlt⟩, hcs⟩ := List.forall_mem_cons.1 h
    simp only [digitsFrom?, hvalue, hlt, if_true]
    rw [ih hcs, digitsValue_cons, List.length_cons, Nat.pow_succ]
    congr 1
    ring

theorem digits?_eq {base : Nat} {digits : List Char} {s : String} (hs : IsNumeral digits s)
    (hdigits : ∀ c ∈ digits, digitValue? c = some (digitWeight c) ∧ digitWeight c < base) :
    digits? base s.toList = some (digitsValue base s.toList) := by
  rw [digits?, if_neg (by simpa using hs.ne_nil),
    digitsFrom?_eq fun c hc => hdigits c (hs.subset hc)]
  simp

end Text

namespace Syntax.Literal

open Text

variable {s : String}

theorem wrap64_eq_bmod (i : Int) : wrap64 i = i.bmod (2 ^ 64) := rfl

theorem wrap64_natCast (n : Nat) : wrap64 n = (BitVec.ofNat 64 n).toInt := by
  rw [wrap64_eq_bmod, BitVec.toInt_ofNat']

theorem wrap64_neg (x : BitVec 64) : wrap64 (-x.toInt) = (-x).toInt := by
  rw [wrap64_eq_bmod, BitVec.toInt_neg]

theorem not_mem_of_isNumeral {digits : List Char} (hs : IsNumeral digits s) {c : Char}
    (hc : c ∉ digits) (r : List Char) : s.toList ≠ c :: r :=
  fun h => hc (hs.subset (h ▸ List.mem_cons_self))

theorem hexadecimal?_numeral (hs : IsNumeral hexadecimalDigits s) :
    integerValue?.hexadecimal? s.toList =
    if digitsValue 16 s.toList < 2 ^ 64 then some (BitVec.ofNat 64 (digitsValue 16 s.toList)).toInt
    else none := by
  have hplus (r : List Char) : s.toList ≠ '+' :: r := not_mem_of_isNumeral hs (by decide) r
  have hvalue : unsigned? 16 UInt64.size s.toList =
      if digitsValue 16 s.toList < 2 ^ 64 then some (digitsValue 16 s.toList) else none := by
    rw [unsigned?, digits?_eq hs fun c hc => digitValue?_of_mem hc, Option.bind_some]
    · rfl
    · exact hplus
  rw [integerValue?.hexadecimal?, hvalue, ← wrap64_natCast]
  split_ifs <;> rfl

theorem magnitude?_numeral (hs : IsNumeral decimalDigits s) : integerValue?.magnitude? s.toList =
    if digitsValue 10 s.toList < 2 ^ 63 then some (digitsValue 10 s.toList : Int) else none := by
  have hvalue := digits?_eq hs fun c hc =>
    ⟨(digitValue?_of_mem (List.mem_append_left _ hc)).1, digitWeight_lt_of_mem hc⟩
  have hx (c : Char) (hc : c ∉ decimalDigits) (r : List Char) : s.toList ≠ '0' :: c :: r :=
    fun h => hc (hs.subset (h ▸ List.mem_cons_of_mem _ List.mem_cons_self))
  unfold integerValue?.magnitude?
  split
  · exact absurd ‹_› (hx 'x' (by decide) _)
  · exact absurd ‹_› (hx 'X' (by decide) _)
  · unfold signed64?
    split
    · exact absurd ‹_› (not_mem_of_isNumeral hs (by decide) _)
    · exact absurd ‹_› (not_mem_of_isNumeral hs (by decide) _)
    · rw [hvalue, Option.bind_some]
      rfl

/-- A hexadecimal numeral of any number of digits is read as the number of 64 bits with a sign that
has its bits, and with a minus sign as the two's complement of that, if it is below 2^64, and else
not at all. A decimal one is read as it stands if it is below 2^63, and else not at all. -/
theorem integerValue?_numeral (s : String) :
    (IsNumeral hexadecimalDigits s →
      let n := digitsValue 16 s.toList
      integerValue? ("0x" ++ s) = (if n < 2 ^ 64 then some (BitVec.ofNat 64 n).toInt else none) ∧
        integerValue? ("-0x" ++ s) = if n < 2 ^ 64 then some (-BitVec.ofNat 64 n).toInt else none) ∧
      (IsNumeral decimalDigits s →
        let n := digitsValue 10 s.toList
        integerValue? s = if n < 2 ^ 63 then some (n : Int) else none) := by
  refine ⟨fun hs => ?_, fun hs => ?_⟩
  · have hplain : ("0x" ++ s).toList = '0' :: 'x' :: s.toList := by simp
    have hminus : ("-0x" ++ s).toList = '-' :: '0' :: 'x' :: s.toList := by simp
    have hvalue := hexadecimal?_numeral hs
    refine ⟨?_, ?_⟩
    · rw [integerValue?, hplain]
      exact hvalue
    · rw [integerValue?, hminus]
      simp only [integerValue?.magnitude?, hvalue]
      split
      · rw [Option.map_some, wrap64_neg]
      · rfl
  · have hminus := not_mem_of_isNumeral hs (c := '-') (by decide)
    rw [integerValue?]
    split
    · rename_i r hr
      exact absurd hr (hminus r)
    · exact magnitude?_numeral hs

/-- The least number, which is its own complement, and the greatest. -/
theorem integerValue?_numeral_limits :
    integerValue? "0x8000000000000000" = some (-2 ^ 63) ∧
    integerValue? "-0x8000000000000000" = some (-2 ^ 63) ∧
      integerValue? "9223372036854775807" = some (2 ^ 63 - 1) := by
  have hhex : IsNumeral hexadecimalDigits "8000000000000000" := ⟨by decide, by decide⟩
  have hdecimal : IsNumeral decimalDigits "9223372036854775807" := ⟨by decide, by decide⟩
  obtain ⟨hplain, hminus⟩ := (integerValue?_numeral "8000000000000000").1 hhex
  exact ⟨hplain.trans (by decide), hminus.trans (by decide),
    ((integerValue?_numeral _).2 hdecimal).trans (by decide)⟩

/-- A hexadecimal numeral is read modulo 2^64, with either sign. -/
def Wraps (s : String) : Prop :=
  integerValue? ("0x" ++ s) = some (BitVec.ofNat 64 (digitsValue 16 s.toList)).toInt ∧
    integerValue? ("-0x" ++ s) = some (-BitVec.ofNat 64 (digitsValue 16 s.toList)).toInt

instance (s : String) : Decidable (Wraps s) := inferInstanceAs (Decidable (_ ∧ _))

/-- One with a bit more is not read. -/
theorem not_wraps_seventeenDigits : IsNumeral hexadecimalDigits "10000000000000000" ∧
    ¬ Wraps "10000000000000000" :=
  ⟨⟨by decide, by decide⟩, by decide⟩

end Syntax.Literal

end LuaAnalysis
