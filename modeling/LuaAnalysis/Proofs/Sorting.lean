import Mathlib.Data.List.Basic

namespace LuaAnalysis

variable {α : Type} {xs ys : List α}

theorem filter_mergeSort {le : α → α → Bool}
    (trans : ∀ a b c, le a b = true → le b c = true → le a c = true)
    (total : ∀ a b, (le a b || le b a) = true) {p : α → Bool}
    (h : ∀ a b, p a = true → p b = true → le a b = true)
    (xs : List α) : (xs.mergeSort le).filter p = xs.filter p := by
  have hsorted : (xs.filter p).Pairwise fun a b => le a b = true :=
    List.pairwise_filter.2 (List.pairwise_of_forall fun a b => h a b)
  have hsub : (xs.filter p).Sublist ((xs.mergeSort le).filter p) := by
    have hboth := (List.sublist_mergeSort trans total hsorted List.filter_sublist).filter p
    simpa only [List.filter_filter, Bool.and_self] using hboth
  exact (hsub.eq_of_length ((List.mergeSort_perm xs le).filter p).length_eq.symm).symm

theorem pairwise_mergeSort_key (key : α → Nat) (xs : List α) :
    (xs.mergeSort fun a b => key a ≤ key b).Pairwise fun a b => key a ≤ key b := by
  have hsorted : (xs.mergeSort fun a b => decide (key a ≤ key b)).Pairwise fun a b =>
      decide (key a ≤ key b) = true :=
    List.pairwise_mergeSort (by simp; omega) (by simp; omega) xs
  simpa using hsorted

theorem filter_mergeSort_key (key : α → Nat) (n : Nat) (xs : List α) :
    (xs.mergeSort fun a b => key a ≤ key b).filter (key · == n) = xs.filter (key · == n) :=
  filter_mergeSort (by simp; omega) (by simp; omega) (by simp; omega) xs

theorem mem_iff_of_filter_key {key : α → Nat}
    (h : ∀ n, xs.filter (key · == n) = ys.filter (key · == n)) (a : α) : a ∈ xs ↔ a ∈ ys := by
  simpa using congrArg (a ∈ ·) (h (key a))

theorem eq_of_filter_key {key : α → Nat} (hxs : xs.Pairwise fun a b => key a ≤ key b)
    (hys : ys.Pairwise fun a b => key a ≤ key b)
    (h : ∀ n, xs.filter (key · == n) = ys.filter (key · == n)) : xs = ys := by
  induction xs generalizing ys with
  | nil => exact (List.eq_nil_iff_forall_not_mem.2
      fun a ha => by simpa using (mem_iff_of_filter_key h a).2 ha).symm
  | cons x xs ih =>
    cases ys with
    | nil => exact absurd ((mem_iff_of_filter_key h x).1 (.head _)) List.not_mem_nil
    | cons y ys =>
      obtain ⟨hx, hxs'⟩ := List.pairwise_cons.1 hxs
      obtain ⟨hy, hys'⟩ := List.pairwise_cons.1 hys
      -- both heads have the least key
      have hle : key x ≤ key y := by
        rcases List.mem_cons.1 ((mem_iff_of_filter_key h y).2 (.head _)) with rfl | hmem
        · exact Nat.le_refl _
        · exact hx y hmem
      have hle' : key y ≤ key x := by
        rcases List.mem_cons.1 ((mem_iff_of_filter_key h x).1 (.head _)) with rfl | hmem
        · exact Nat.le_refl _
        · exact hy x hmem
      have hfirst := h (key y)
      rw [List.filter_cons_of_pos (by simpa using Nat.le_antisymm hle hle'),
        List.filter_cons_of_pos (by simp)] at hfirst
      obtain ⟨rfl, hrest⟩ := List.cons.inj hfirst
      rw [ih hxs' hys' fun n => ?_]
      by_cases hn : key x = n
      · exact hn ▸ hrest
      · simpa [List.filter_cons, hn] using h n

end LuaAnalysis
