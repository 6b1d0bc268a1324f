import LuaAnalysis.Proofs.Sorting
import LuaAnalysis.Report.Suppression

/-!
When comments switch a code off on a line. A comment for that line alone does, wherever it stands in
the list. Otherwise the last switch at or before the line counts, by its line and then by its place
in the list, so that only the order of comments on one line matters.
-/

namespace LuaAnalysis.Report

section Places

variable {α : Type} {xs : List α}

theorem getLast?_filter_eq_some_iff {p : α → Bool} {s : α} : (xs.filter p).getLast? = some s ↔
    ∃ i : Nat, xs[i]? = some s ∧ p s = true ∧ ∀ (j : Nat) t, xs[j]? = some t →
    p t = true → j ≤ i := by
  have hlast {s : α} (h : (xs.filter p).getLast? = some s) :
      ∃ i : Nat, xs[i]? = some s ∧ p s = true ∧ ∀ (j : Nat) t, xs[j]? = some t →
      p t = true → j ≤ i := by
    rw [List.getLast?_filter, List.find?_eq_some_iff_append] at h
    obtain ⟨hs, later, earlier, hreverse, hnone⟩ := h
    have hxs : xs = earlier.reverse ++ s :: later.reverse := by
      rw [← List.reverse_reverse xs, hreverse]
      simp
    subst hxs
    refine ⟨earlier.length, by simp, hs, fun j t hj ht => Nat.le_of_not_lt fun hlt => ?_⟩
    rw [List.getElem?_append_right (by simp; omega), List.getElem?_cons,
      if_neg (by simp; omega)] at hj
    have hlater : t ∈ later := List.mem_reverse.1 (List.mem_of_getElem? hj)
    simpa [ht] using hnone t hlater
  refine ⟨hlast, ?_⟩
  rintro ⟨i, hi, hs, hafter⟩
  cases hcase : (xs.filter p).getLast? with
  | none =>
    have hmem : s ∈ xs.filter p := List.mem_filter.2 ⟨List.mem_of_getElem? hi, hs⟩
    rw [List.getLast?_eq_none_iff.1 hcase] at hmem
    cases hmem
  | some t =>
    obtain ⟨j, hj, ht, hafter'⟩ := hlast hcase
    obtain rfl := Nat.le_antisymm (hafter j t hj ht) (hafter' i s hi hs)
    exact hj.symm.trans hi

end Places

namespace Suppression

variable (code : Code) (line : Nat) (s : Suppression)

/-- Whether a comment switches a code on or off for a line. -/
def Switches : Prop := s.covers code = true ∧ (s.action = .disable ∨ s.action = .enable) ∧
    s.line ≤ line

instance : Decidable (s.Switches code line) := inferInstanceAs (Decidable (_ ∧ _ ∧ _))

def Matters : Prop := s.covers code = true ∧
    (s.action = .disable ∨ s.action = .enable → s.line ≤ line)

instance : Decidable (s.Matters code line) := inferInstanceAs (Decidable (_ ∧ (_ → _)))

variable {code line s}

theorem getD_switches? (h : s.covers code = true) (off : Bool) :
    (s.switches? line).getD off = if s.Switches code line then s.action == .disable else off := by
  rw [switches?]
  cases haction : s.action <;> by_cases hle : s.line ≤ line <;> simp [Switches, h, haction, hle]

theorem Switches.matters (h : s.Switches code line) : s.Matters code line := ⟨h.1, fun _ => h.2.2⟩

theorem Matters.covers (h : s.Matters code line) : s.covers code = true := h.1

theorem matters_of_hitsLine (h : s.covers code = true) (hhits : s.hitsLine line = true) :
    s.Matters code line := by
  refine ⟨h, ?_⟩
  rintro (haction | haction) <;> simp [hitsLine, haction] at hhits

theorem hitsLine_iff : s.hitsLine line = true ↔
    s.action = .disableLine ∧ s.line = line ∨ s.action = .disableNextLine ∧ s.line + 1 = line := by
  rw [hitsLine]
  cases s.action <;> simp

end Suppression

variable {code : Code} {line : Nat} {off : Bool} {xs ys : List Suppression} {s : Suppression}

theorem offAfter_eq (code : Code) (line : Nat) (off : Bool) (xs : List Suppression) :
    offAfter code line off xs = (xs.any (fun s => s.covers code && s.hitsLine line) ||
      (xs.filter (·.Switches code line)).getLast?.elim off (·.action == .disable)) := by
  induction xs generalizing off with
  | nil => rfl
  | cons s xs ih =>
    rw [offAfter, List.any_cons]
    cases hcovers : s.covers code with
    | false =>
      have hswitch : ¬ s.Switches code line := fun h => by simp [h.1] at hcovers
      rw [List.filter_cons_of_neg (by simpa using hswitch), ih]
      rfl
    | true =>
      cases hhits : s.hitsLine line with
      | true => rfl
      | false =>
        rw [if_neg (by decide), if_neg (by decide), Suppression.getD_switches? hcovers, ih]
        by_cases hswitch : s.Switches code line
        · rw [List.filter_cons_of_pos (by simpa using hswitch), List.getLast?_cons, if_pos hswitch]
          cases (xs.filter (·.Switches code line)).getLast? <;> rfl
        · rw [List.filter_cons_of_neg (by simpa using hswitch), if_neg hswitch]
          rfl

theorem offAfter_filter (code : Code) (line : Nat) (off : Bool) (xs : List Suppression) :
    offAfter code line off (xs.filter (·.Matters code line)) = offAfter code line off xs := by
  have hswitches : (xs.filter (·.Matters code line)).filter (·.Switches code line) =
      xs.filter (·.Switches code line) := by
    rw [List.filter_filter]
    refine List.filter_congr fun s _ => ?_
    by_cases h : s.Switches code line <;> simp [h, Suppression.Switches.matters]
  rw [offAfter_eq, offAfter_eq, hswitches, List.any_filter]
  congr 1
  refine congrArg (xs.any ·) (funext fun s => ?_)
  by_cases h : s.Matters code line
  · simp [h]
  · have hhits : s.covers code = true → s.hitsLine line = false := fun hcovers =>
      Bool.not_eq_true _ ▸ fun hhits => h (Suppression.matters_of_hitsLine hcovers hhits)
    simpa [h] using hhits

abbrev byLine (xs : List Suppression) : List Suppression := xs.mergeSort fun a b => a.line ≤ b.line

theorem pairwise_byLine (xs : List Suppression) : (byLine xs).Pairwise fun a b => a.line ≤ b.line :=
  pairwise_mergeSort_key Suppression.line xs

theorem filter_byLine (xs : List Suppression) (n : Nat) :
    (byLine xs).filter (·.line == n) = xs.filter (·.line == n) :=
  filter_mergeSort_key Suppression.line n xs

theorem isSuppressed_eq_of_filter (h : ∀ n, (xs.filter (·.Matters code line)).filter (·.line == n) =
    (ys.filter (·.Matters code line)).filter (·.line == n)) :
    isSuppressed xs code line = isSuppressed ys code line := by
  have hline (zs : List Suppression) (n : Nat) :
      ((byLine zs).filter (·.Matters code line)).filter (·.line == n) =
      (zs.filter (·.Matters code line)).filter (·.line == n) := by
    rw [List.filter_comm, filter_byLine, List.filter_comm]
  have hsame : (byLine xs).filter (·.Matters code line) =
      (byLine ys).filter (·.Matters code line) :=
    eq_of_filter_key ((pairwise_byLine xs).filter _) ((pairwise_byLine ys).filter _) fun n => by
      rw [hline, hline, h n]
  rw [isSuppressed, isSuppressed, ← offAfter_filter, hsame, offAfter_filter]

/-- The last of the comments that switch a code for a line, by line and then by place in the
list. -/
structure LastSwitch (xs : List Suppression) (code : Code) (line i : Nat)
    (s : Suppression) : Prop where
  place : xs[i]? = some s
  switches : s.Switches code line
  last : ∀ (j : Nat) (t : Suppression), xs[j]? = some t → t.Switches code line → t.line < s.line ∨
    t.line = s.line ∧ j ≤ i

theorem LastSwitch.unique {i j : Nat} {t : Suppression} (h : LastSwitch xs code line i s)
    (h' : LastSwitch xs code line j t) : s = t := by
  have hle := h.last j t h'.place h'.switches
  have hle' := h'.last i s h.place h.switches
  obtain rfl : i = j := by omega
  exact Option.some.inj (h.place.symm.trans h'.place)

theorem getLast?_byLine_iff :
    ((byLine xs).filter (·.Switches code line)).getLast? = some s ↔
    ∃ i, LastSwitch xs code line i s := by
  have hlast {s : Suppression} (h : ((byLine xs).filter (·.Switches code line)).getLast? = some s) :
      ∃ i, LastSwitch xs code line i s := by
    obtain ⟨front, hfront⟩ := List.getLast?_eq_some_iff.1 h
    have hle : ∀ t ∈ xs, t.Switches code line → t.line ≤ s.line := by
      intro t ht hswitch
      have hmem : t ∈ (byLine xs).filter (·.Switches code line) := by simpa using ⟨ht, hswitch⟩
      have hsorted := (pairwise_byLine xs).filter (·.Switches code line)
      rw [hfront] at hmem hsorted
      rcases List.mem_append.1 hmem with hmem | hmem
      · exact (List.pairwise_append.1 hsorted).2.2 t hmem s (.head _)
      · exact Nat.le_of_eq (congrArg _ (List.mem_singleton.1 hmem))
    -- of those on its line it is the last in the list too
    have hline : ((xs.filter (·.line == s.line)).filter (·.Switches code line)).getLast? =
        some s := by
      rw [← filter_byLine, List.filter_comm, hfront, List.filter_append]
      simp
    rw [List.filter_filter, getLast?_filter_eq_some_iff] at hline
    obtain ⟨i, hi, hs, hafter⟩ := hline
    rw [Bool.and_eq_true, decide_eq_true_eq] at hs
    refine ⟨i, hi, hs.1, fun j t hj hswitch => ?_⟩
    rcases Nat.lt_or_eq_of_le (hle t (List.mem_of_getElem? hj) hswitch) with hlt | heq
    · exact .inl hlt
    · exact .inr ⟨heq, hafter j t hj (by simpa using ⟨hswitch, heq⟩)⟩
  refine ⟨hlast, ?_⟩
  rintro ⟨i, h⟩
  cases hcase : ((byLine xs).filter (·.Switches code line)).getLast? with
  | none =>
    have hmem : s ∈ (byLine xs).filter (·.Switches code line) := by
      simpa using ⟨List.mem_of_getElem? h.place, h.switches⟩
    rw [List.getLast?_eq_none_iff.1 hcase] at hmem
    cases hmem
  | some t =>
    obtain ⟨j, h'⟩ := hlast hcase
    rw [h.unique h']

/-- A code is switched off on a line by a comment for that line alone, or by the last switch at or
before it. The order of comments on different lines does not matter, nor do comments that are not
about the code or switch it on later lines. -/
theorem isSuppressed_iff (xs : List Suppression) (code : Code) (line : Nat) :
    (isSuppressed xs code line = true ↔
      (∃ s ∈ xs, s.covers code = true ∧ s.action = .disableLine ∧ s.line = line) ∨
      (∃ s ∈ xs, s.covers code = true ∧ s.action = .disableNextLine ∧ s.line + 1 = line) ∨
      ∃ i s, LastSwitch xs code line i s ∧ s.action = .disable) ∧
    (∀ ys : List Suppression, (∀ n, ys.filter (·.line == n) = xs.filter (·.line == n)) →
      isSuppressed ys code line = isSuppressed xs code line) ∧
    ∀ front back added, xs = front ++ back → (∀ s ∈ added, s.covers code = false ∨
        (s.action = .disable ∨ s.action = .enable) ∧ line < s.line) →
      isSuppressed (front ++ added ++ back) code line = isSuppressed xs code line := by
  refine ⟨?_, fun ys h => ?_, ?_⟩
  · have hany : (byLine xs).any (fun s => s.covers code && s.hitsLine line) = true ↔
        (∃ s ∈ xs, s.covers code = true ∧ s.action = .disableLine ∧ s.line = line) ∨
        ∃ s ∈ xs, s.covers code = true ∧ s.action = .disableNextLine ∧ s.line + 1 = line := by
      simp only [List.any_eq_true, List.mem_mergeSort, Bool.and_eq_true, Suppression.hitsLine_iff,
        and_or_left, exists_or]
    have hswitch : ((byLine xs).filter (·.Switches code line)).getLast?.elim false
        (·.action == .disable) = true ↔
        ∃ i s, LastSwitch xs code line i s ∧ s.action = .disable := by
      rw [exists_comm]
      simp only [exists_and_right, ← getLast?_byLine_iff]
      cases ((byLine xs).filter (·.Switches code line)).getLast? <;> simp
    rw [isSuppressed, offAfter_eq, Bool.or_eq_true, hany, hswitch, or_assoc]
  · exact isSuppressed_eq_of_filter fun n => by rw [List.filter_comm, h n, List.filter_comm]
  · rintro front back added rfl hadded
    have hnone : added.filter (·.Matters code line) = [] := by
      refine List.filter_eq_nil_iff.2 fun s hs hmatters => ?_
      have hmatters : s.Matters code line := by simpa using hmatters
      rcases hadded s hs with hcovers | ⟨haction, hlater⟩
      · simp [hmatters.1] at hcovers
      · exact Nat.not_le_of_gt hlater (hmatters.2 haction)
    refine isSuppressed_eq_of_filter fun n => ?_
    simp only [List.filter_append, hnone, List.append_nil]

/-- Two switches on one line, one of them for every code, and one above that is listed behind
them. -/
theorem isSuppressed_iff_one_line :
    let on : Suppression := ⟨.enable, [], 3⟩
    let off : Suppression := ⟨.disable, [.deprecated], 3⟩
    let above : Suppression := ⟨.enable, [.deprecated], 1⟩
    let below : Suppression := ⟨.enable, [], 5⟩
    LastSwitch [on, off, above] .deprecated 4 1 off ∧
    isSuppressed [on, off, above] .deprecated 4 = true ∧
      (∀ n, [on, above, off].filter (·.line == n) = [on, off, above].filter (·.line == n)) ∧
      isSuppressed [on, above, off] .deprecated 4 = isSuppressed [on, off, above] .deprecated 4 ∧
      isSuppressed ([on] ++ [below] ++ [off, above]) .deprecated 4 =
      isSuppressed [on, off, above] .deprecated 4 := by
  intro on off above below
  have hlast : LastSwitch [on, off, above] .deprecated 4 1 off := by
    refine ⟨rfl, by decide, fun j t hj _ => ?_⟩
    rcases j with _ | _ | _ | j
    case succ.succ.succ => cases hj
    all_goals
      obtain rfl := Option.some.inj hj
      decide
  have hlines : ∀ n, [on, above, off].filter (·.line == n) =
      [on, off, above].filter (·.line == n) := by
    intro n
    by_cases hn : 3 = n
    · subst hn
      rfl
    · simp [on, off, above, hn, List.filter_cons]
  obtain ⟨hiff, horder, hadd⟩ := isSuppressed_iff [on, off, above] .deprecated 4
  refine ⟨hlast, hiff.2 (.inr (.inr ⟨1, off, hlast, rfl⟩)), hlines, horder _ hlines,
    hadd [on] [off, above] [below] rfl ?_⟩
  intro s hs
  obtain rfl := List.mem_singleton.1 hs
  exact .inr ⟨.inr rfl, by decide⟩

end LuaAnalysis.Report
