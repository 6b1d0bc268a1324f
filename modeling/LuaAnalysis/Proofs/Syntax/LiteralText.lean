import Mathlib.Algebra.Group.Int.Defs
import LuaAnalysis.Proofs.Syntax.DocWords
import LuaAnalysis.Syntax.Literal

namespace LuaAnalysis

namespace Text

theorem digitsFrom?_concat (base acc : Nat) (cs : List Char) (c : Char) :
    digitsFrom? base acc (cs ++ [c]) = (digitsFrom? base acc cs).bind fun n =>
      digitsFrom? base n [c] := by
  induction cs generalizing acc with
  | nil => rfl
  | cons d cs ih =>
    rw [List.cons_append, digitsFrom?, digitsFrom?]
    split
    · split
      · exact ih _
      · rfl
    · rfl

theorem digitsFrom?_digitChar {base : Nat} (hbase : base ≤ 16) (acc : Nat) {d : Nat}
    (hd : d < base) : digitsFrom? base acc [d.digitChar] = some (acc * base + d) := by
  have hvalue : ∀ d < 16, digitValue? d.digitChar = some d := by decide
  simp [digitsFrom?, hvalue d (by omega), hd]

theorem digits?_toDigits {base : Nat} (hlow : 1 < base) (hhigh : base ≤ 16) (n : Nat) :
    digits? base (Nat.toDigits base n) = some n := by
  have hne : (Nat.toDigits base n).isEmpty = false := by simp
  rw [digits?, hne]
  simp only [Bool.false_eq_true, if_false]
  induction n using Nat.strongRecOn with
  | ind n ih =>
    by_cases hn : n < base
    · rw [Nat.toDigits_of_lt_base hn, digitsFrom?_digitChar hhigh 0 hn, Nat.zero_mul, Nat.zero_add]
    · have hless : n / base < n := Nat.div_lt_self (by omega) hlow
      rw [Nat.toDigits_of_base_le hlow (by omega), digitsFrom?_concat,
        ih (n / base) hless (by simp), Option.bind_some,
        digitsFrom?_digitChar hhigh _ (Nat.mod_lt n (by omega)), Nat.mul_comm, Nat.div_add_mod]

end Text

namespace Syntax.Literal

open Text

theorem magnitude?_toDigits {n : Nat} (h : n < 2 ^ 63) :
    integerValue?.magnitude? (Nat.toDigits 10 n) = some (n : Int) := by
  have hdigit {c : Char} (hc : c ∈ Nat.toDigits 10 n) : c.isDigit = true :=
    Nat.isDigit_of_mem_toDigits (by decide) (by decide) hc
  have hbound : n < UInt64.size / 2 := h
  have hvalue : digits? 10 (Nat.toDigits 10 n) = some n :=
    digits?_toDigits (by decide) (by decide) n
  generalize Nat.toDigits 10 n = cs at hdigit hvalue
  unfold integerValue?.magnitude?
  split
  · exact absurd (@hdigit 'x' (by simp)) (by decide)
  · exact absurd (@hdigit 'X' (by simp)) (by decide)
  · unfold signed64?
    split
    · exact absurd (@hdigit '-' (by simp)) (by decide)
    · exact absurd (@hdigit '+' (by simp)) (by decide)
    · rw [hvalue, Option.bind_some, if_pos hbound]

theorem wrap64_of_lt {value : Int} (hlow : -2 ^ 63 < value) (hhigh : value < 2 ^ 63) :
    wrap64 value = value := by
  have hsize : (UInt64.size : Int) = 2 ^ 64 := rfl
  exact Int.bmod_eq_of_le (by omega) (by omega)

theorem integerValue?_toString {value : Int} (hlow : -2 ^ 63 < value) (hhigh : value < 2 ^ 63) :
    integerValue? (toString value) = some value := by
  cases value with
  | ofNat n =>
    have htext : (toString (Int.ofNat n)).toList = Nat.toDigits 10 n := DocWord.text_int_ofNat n
    have hbound : n < 2 ^ 63 := by
      have : (n : Int) < 2 ^ 63 := hhigh
      omega
    rw [integerValue?, htext]
    split
    · rename_i hdash
      have hdigit : '-'.isDigit = true :=
        Nat.isDigit_of_mem_toDigits (by decide) (by decide) (hdash ▸ List.mem_cons_self)
      cases hdigit
    · exact magnitude?_toDigits hbound
  | negSucc n =>
    have htext : (toString (Int.negSucc n)).toList = '-' :: Nat.toDigits 10 (n + 1) :=
      DocWord.text_int_negSucc n
    have hbound : n + 1 < 2 ^ 63 := by omega
    rw [integerValue?, htext]
    simp only [magnitude?_toDigits hbound, Option.map_some]
    exact congrArg some (wrap64_of_lt hlow hhigh)

theorem unescape_quotedChar {cs : List Char} (h : ∀ c ∈ cs, isHidden c = false) {fuel : Nat}
    (hfuel : (cs.flatMap quotedChar).length ≤ fuel) :
    unescape fuel (cs.flatMap quotedChar) = cs := by
  induction cs generalizing fuel with
  | nil => cases fuel <;> rfl
  | cons c cs ih =>
    obtain ⟨hc, hcs⟩ := List.forall_mem_cons.1 h
    rw [List.flatMap_cons, List.length_append] at hfuel
    have hpos : 0 < (quotedChar c).length := by
      rw [DocWord.quotedChar_of_shown hc]
      split <;> simp
    obtain ⟨fuel, rfl⟩ : ∃ n, fuel = n + 1 := ⟨fuel - 1, by omega⟩
    have hrest : unescape fuel (cs.flatMap quotedChar) = cs := ih hcs (by omega)
    rw [List.flatMap_cons, DocWord.quotedChar_of_shown hc]
    split
    · rename_i hshielded
      rcases hshielded with rfl | rfl <;> simpa [unescape, escape, escapeLetter?] using hrest
    · rename_i hplain
      simp [unescape, not_or.1 hplain, hrest]

theorem stringValue_quoted {value : String} (h : IsShown value) :
    stringValue (quoted value) = value := by
  have htext : (quoted value).toList = '\x22' :: (value.toList.flatMap quotedChar ++ ['\x22']) :=
    DocWord.text_str value
  rw [stringValue, stringValue?, htext]
  split
  · rename_i hnil
    cases hnil
  · rename_i hbracket
    cases hbracket
  · rename_i quote r _ hcons
    obtain ⟨rfl, rfl⟩ := List.cons.inj hcons
    simp only [List.getLast?_concat, List.dropLast_concat, beq_self_eq_true, if_true]
    rw [unescape_quotedChar h (Nat.le_refl _), String.ofList_toList, Option.getD_some]

end Syntax.Literal

end LuaAnalysis
