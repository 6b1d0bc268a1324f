import Mathlib.Data.String.Basic
import LuaAnalysis.Text.Span

namespace LuaAnalysis.Text

/-- None of the spans is empty, and they follow each other between two offsets. -/
def Ascends : Nat → List Span → Nat → Prop
  | start, [], stop => start ≤ stop
  | start, s :: spans, stop => start ≤ s.start ∧ s.start < s.stop ∧ Ascends s.stop spans stop

namespace Ascends

variable {start start' mid stop stop' : Nat} {s : Span} {xs ys : List Span}

theorem le (h : Ascends start xs stop) : start ≤ stop := by
  induction xs generalizing start with
  | nil => exact h
  | cons s xs ih =>
    have := ih h.2.2
    have := h.1
    have := h.2.1
    omega

theorem mono (h : Ascends start xs stop) (hstart : start' ≤ start) (hstop : stop ≤ stop') :
    Ascends start' xs stop' := by
  induction xs generalizing start start' with
  | nil => exact Nat.le_trans hstart (Nat.le_trans h hstop)
  | cons s xs ih => exact ⟨Nat.le_trans hstart h.1, h.2.1, ih h.2.2 (Nat.le_refl _)⟩

theorem append (h : Ascends start xs mid) (h' : Ascends mid ys stop) :
    Ascends start (xs ++ ys) stop := by
  induction xs generalizing start with
  | nil => exact h'.mono h (Nat.le_refl _)
  | cons s xs ih => exact ⟨h.1, h.2.1, ih h.2.2⟩

theorem split (h : Ascends start (xs ++ ys) stop) : ∃ mid, Ascends start xs mid ∧
    Ascends mid ys stop := by
  induction xs generalizing start with
  | nil => exact ⟨start, Nat.le_refl start, h⟩
  | cons s xs ih =>
    obtain ⟨mid, hxs, hys⟩ := ih h.2.2
    exact ⟨mid, ⟨h.1, h.2.1, hxs⟩, hys⟩

theorem bounds (h : Ascends start xs stop) (hs : s ∈ xs) : start ≤ s.start ∧ s.start < s.stop ∧
    s.stop ≤ stop := by
  induction xs generalizing start with
  | nil => cases hs
  | cons t xs ih =>
    obtain ⟨hstart, hlt, hrest⟩ := h
    rcases List.mem_cons.1 hs with rfl | hs
    · exact ⟨hstart, hlt, hrest.le⟩
    · obtain ⟨hle, hbounds⟩ := ih hrest hs
      exact ⟨by omega, hbounds⟩

theorem sublist (h : Ascends start ys stop) (hxs : xs.Sublist ys) : Ascends start xs stop := by
  induction hxs generalizing start with
  | slnil => exact h
  | cons s _ ih => exact (ih h.2.2).mono (Nat.le_trans h.1 (Nat.le_of_lt h.2.1)) (Nat.le_refl _)
  | cons_cons s _ ih => exact ⟨h.1, h.2.1, ih h.2.2⟩

theorem pairwise (h : Ascends start xs stop) : xs.Pairwise fun a b => a.stop ≤ b.start := by
  induction xs generalizing start with
  | nil => exact .nil
  | cons s xs ih => exact .cons (fun t ht => (h.2.2.bounds ht).1) (ih h.2.2)

end Ascends

@[simp] theorem byteLength_nil : byteLength [] = 0 := rfl

theorem byteLength_eq_utf8Len (cs : List Char) : byteLength cs = String.utf8Len cs := by
  have hfold : ∀ n, cs.foldl (fun n c => n + c.utf8Size) n = n + String.utf8Len cs := by
    induction cs with
    | nil => simp
    | cons c cs ih =>
      intro n
      rw [List.foldl_cons, ih, String.utf8Len_cons]
      omega
  simpa [byteLength] using hfold 0

@[simp] theorem byteLength_cons (c : Char) (cs : List Char) :
    byteLength (c :: cs) = c.utf8Size + byteLength cs := by
  rw [byteLength_eq_utf8Len, byteLength_eq_utf8Len, String.utf8Len_cons, Nat.add_comm]

@[simp] theorem byteLength_append (cs ds : List Char) :
    byteLength (cs ++ ds) = byteLength cs + byteLength ds := by
  rw [byteLength_eq_utf8Len, byteLength_eq_utf8Len, byteLength_eq_utf8Len, String.utf8Len_append]

theorem byteLength_pos {cs : List Char} (h : cs ≠ []) : 0 < byteLength cs := by
  cases cs with
  | nil => exact absurd rfl h
  | cons c cs =>
    have := c.utf8Size_pos
    rw [byteLength_cons]
    omega

theorem byteLength_eq_zero {cs : List Char} : byteLength cs = 0 ↔ cs = [] := by
  rw [byteLength_eq_utf8Len, String.utf8Len_eq_zero]

theorem length_le_byteLength (cs : List Char) : cs.length ≤ byteLength cs := by
  induction cs with
  | nil => simp
  | cons c cs ih =>
    have := c.utf8Size_pos
    rw [byteLength_cons, List.length_cons]
    omega

theorem exists_append_of_byteLength_le {as bs cs ds : List Char} (h : as ++ bs = cs ++ ds)
    (hle : byteLength as ≤ byteLength cs) : ∃ mid, cs = as ++ mid ∧ bs = mid ++ ds := by
  rcases List.append_eq_append_iff.1 h with hmid | ⟨more, rfl, rfl⟩
  · exact hmid
  · rw [byteLength_append] at hle
    obtain rfl : more = [] := byteLength_eq_zero.1 (by omega)
    exact ⟨[], by simp, rfl⟩

theorem split_of_offset {as bs cs pre post : List Char} {c : Char}
    (h : as ++ bs ++ cs = pre ++ c :: post) (hstart : byteLength as ≤ byteLength pre)
    (hstop : byteLength pre < byteLength as + byteLength bs) :
    ∃ mid rest, pre = as ++ mid ∧ bs = mid ++ c :: rest := by
  rw [List.append_assoc] at h
  obtain ⟨mid, rfl, hmid⟩ := exists_append_of_byteLength_le h hstart
  rw [byteLength_append] at hstop
  rcases List.append_eq_append_iff.1 hmid with ⟨more, rfl, -⟩ | ⟨rest, rfl, hrest⟩
  · rw [byteLength_append] at hstop
    omega
  · cases rest with
    | nil =>
      rw [List.append_nil] at hstop
      omega
    | cons d rest =>
      obtain ⟨rfl, -⟩ := List.cons.inj hrest
      exact ⟨mid, rest, rfl, rfl⟩

/-- A span covers whole characters, and these are `cs`. -/
def IsPiece (text : String) (span : Span) (cs : List Char) : Prop :=
  ∃ pre post, text.toList = pre ++ cs ++ post ∧ span.start = byteLength pre ∧
    span.stop = span.start + byteLength cs

theorem IsPiece.slice_eq {text : String} {span : Span} {cs : List Char} (h : IsPiece text span cs) :
    (slice text span).toList = cs := by
  obtain ⟨pre, post, htext, hstart, hstop⟩ := h
  have hofList : text = String.ofList (pre ++ cs ++ post) := by rw [← htext, String.ofList_toList]
  rw [slice, hstop, hstart, byteLength_eq_utf8Len, byteLength_eq_utf8Len, hofList,
    String.extract_of_valid, String.toList_ofList]

theorem IsPiece.stop_eq {text : String} {span : Span} {cs : List Char} (h : IsPiece text span cs) :
    span.stop = span.start + byteLength cs := h.choose_spec.choose_spec.2.2

theorem IsPiece.byteLength_le {text : String} {span : Span} {cs : List Char}
    (h : IsPiece text span cs) : byteLength cs ≤ text.utf8ByteSize := by
  obtain ⟨pre, post, htext, -⟩ := h
  rw [← String.utf8Len_toList, ← byteLength_eq_utf8Len, htext, byteLength_append, byteLength_append]
  omega

theorem IsPiece.stop_le {text : String} {span : Span} {cs : List Char} (h : IsPiece text span cs) :
    span.stop ≤ text.utf8ByteSize := by
  obtain ⟨pre, post, htext, hstart, hstop⟩ := h
  rw [← String.utf8Len_toList, ← byteLength_eq_utf8Len, htext, byteLength_append, byteLength_append]
  omega

theorem IsPiece.split {text : String} {span : Span} {cs ds : List Char}
    (h : IsPiece text span (cs ++ ds)) : IsPiece text ⟨span.start, span.start + byteLength cs⟩ cs ∧
    IsPiece text ⟨span.start + byteLength cs, span.stop⟩ ds := by
  obtain ⟨pre, post, htext, hstart, hstop⟩ := h
  refine ⟨⟨pre, ds ++ post, by simpa using htext, hstart, rfl⟩, pre ++ cs,
    post, by simpa using htext, ?_, ?_⟩
  · simp [hstart]
  · simp [hstop, Nat.add_assoc]

/-- An offset at which no character of a text is cut. -/
def IsBoundary (text : String) (offset : Nat) : Prop :=
  ∃ pre post, text.toList = pre ++ post ∧ offset = byteLength pre

theorem isBoundary_zero (text : String) : IsBoundary text 0 := ⟨[], text.toList, rfl, rfl⟩

theorem IsPiece.boundaries {text : String} {span : Span} {cs : List Char}
    (h : IsPiece text span cs) : IsBoundary text span.start ∧ IsBoundary text span.stop := by
  obtain ⟨pre, post, htext, hstart, hstop⟩ := h
  refine ⟨⟨pre, cs ++ post, by rw [htext, List.append_assoc], hstart⟩, pre ++ cs, post, htext, ?_⟩
  rw [hstop, hstart, byteLength_append]

theorem IsBoundary.exists_isPiece {text : String} {span : Span}
    (hstart : IsBoundary text span.start) (hstop : IsBoundary text span.stop)
    (hle : span.start ≤ span.stop) : ∃ cs, IsPiece text span cs := by
  obtain ⟨pre, post, htext, hpre⟩ := hstart
  obtain ⟨pre', post', htext', hpre'⟩ := hstop
  obtain ⟨cs, rfl, -⟩ := exists_append_of_byteLength_le (htext.symm.trans htext') (by omega)
  exact ⟨cs, pre, post', htext', hpre, by rw [hpre', hpre, byteLength_append]⟩

theorem IsPiece.isBoundary_iff {text : String} {span : Span} {cs : List Char}
    (h : IsPiece text span cs) {offset : Nat} (hle : offset ≤ byteLength cs) :
    IsBoundary (String.ofList cs) offset ↔ IsBoundary text (span.start + offset) := by
  obtain ⟨pre, post, htext, hstart, -⟩ := h
  rw [List.append_assoc] at htext
  constructor
  · rintro ⟨front, back, hcs, hoffset⟩
    rw [String.toList_ofList] at hcs
    subst hcs
    exact ⟨pre ++ front, back ++ post, by simp [htext], by rw [byteLength_append, hstart, hoffset]⟩
  · rintro ⟨front, back, hsplit, hoffset⟩
    obtain ⟨mid, rfl, hmid⟩ := exists_append_of_byteLength_le (htext.symm.trans hsplit) (by omega)
    rw [byteLength_append] at hoffset
    obtain ⟨rest, hcs, -⟩ := exists_append_of_byteLength_le hmid.symm (by omega)
    exact ⟨mid, rest, by rw [String.toList_ofList, hcs], by omega⟩

theorem splitBytes?_eq_some_iff {n : Nat} {cs taken rest : List Char} :
    splitBytes? n cs = some (taken, rest) ↔ cs = taken ++ rest ∧ n = byteLength taken := by
  fun_induction splitBytes? n cs generalizing taken with
  | case1 cs =>
    constructor
    · intro h
      obtain ⟨rfl, rfl⟩ := Prod.mk.inj (Option.some.inj h)
      exact ⟨rfl, rfl⟩
    · rintro ⟨rfl, hlength⟩
      obtain rfl := byteLength_eq_zero.1 hlength.symm
      rfl
  | case2 n hn =>
    simp only [reduceCtorEq, false_iff, not_and]
    intro happend hlength
    obtain ⟨rfl, -⟩ := List.append_eq_nil_iff.1 happend.symm
    exact hn hlength
  | case3 n c r hn hlt =>
    simp only [reduceCtorEq, false_iff, not_and]
    intro happend hlength
    cases taken with
    | nil => exact hn hlength
    | cons d taken =>
      obtain ⟨rfl, -⟩ := List.cons.inj happend
      rw [byteLength_cons] at hlength
      omega
  | case4 n c r hn hle ih =>
    rw [Option.map_eq_some_iff]
    constructor
    · rintro ⟨⟨front, behind⟩, hsplit, heq⟩
      obtain ⟨rfl, rfl⟩ := Prod.mk.inj heq
      obtain ⟨rfl, hlength⟩ := ih.1 hsplit
      refine ⟨rfl, ?_⟩
      rw [byteLength_cons]
      omega
    · rintro ⟨happend, hlength⟩
      cases taken with
      | nil => exact absurd hlength hn
      | cons d taken =>
        obtain ⟨rfl, rfl⟩ := List.cons.inj happend
        rw [byteLength_cons] at hlength
        exact ⟨(taken, rest), ih.2 ⟨rfl, by omega⟩, rfl⟩

theorem isBoundary_iff_splitBytes? {text : String} {offset : Nat} :
    IsBoundary text offset ↔ (splitBytes? offset text.toList).isSome = true := by
  rw [Option.isSome_iff_exists]
  constructor
  · rintro ⟨pre, post, htext, hoffset⟩
    exact ⟨(pre, post), splitBytes?_eq_some_iff.2 ⟨htext, hoffset⟩⟩
  · rintro ⟨⟨pre, post⟩, hsplit⟩
    exact ⟨pre, post, splitBytes?_eq_some_iff.1 hsplit⟩

instance (text : String) (offset : Nat) : Decidable (IsBoundary text offset) :=
  decidable_of_iff _ isBoundary_iff_splitBytes?.symm

theorem slice?_eq_some_iff {text part : String} {span : Span} : slice? text span = some part ↔
    IsPiece text span part.toList := by
  unfold slice?
  constructor
  · intro h
    split at h
    · cases h
    · rename_i hle
      obtain ⟨⟨pre, behind⟩, hpre, h⟩ := Option.bind_eq_some_iff.1 h
      obtain ⟨⟨taken, rest⟩, htaken, h⟩ := Option.bind_eq_some_iff.1 h
      obtain rfl := Option.some.inj h
      obtain ⟨htext, hstart⟩ := splitBytes?_eq_some_iff.1 hpre
      obtain ⟨rfl, hlength⟩ := splitBytes?_eq_some_iff.1 htaken
      refine ⟨pre, rest, by simpa using htext, hstart, ?_⟩
      rw [String.toList_ofList]
      omega
  · rintro ⟨pre, post, htext, hstart, hstop⟩
    have hpre : splitBytes? span.start text.toList = some (pre, part.toList ++ post) :=
      splitBytes?_eq_some_iff.2 ⟨by rw [htext, List.append_assoc], hstart⟩
    have hpart : splitBytes? (span.stop - span.start) (part.toList ++ post) =
        some (part.toList, post) :=
      splitBytes?_eq_some_iff.2 ⟨rfl, by omega⟩
    rw [if_neg (by omega)]
    simp [hpre, hpart]

theorem slice?_eq_none_iff {text : String} {span : Span} : slice? text span = none ↔
    ¬ (span.start ≤ span.stop ∧ IsBoundary text span.start ∧ IsBoundary text span.stop) := by
  rw [Option.eq_none_iff_forall_not_mem, not_iff_not.symm]
  push Not
  constructor
  · rintro ⟨part, hpart⟩
    have hpiece := slice?_eq_some_iff.1 hpart
    exact ⟨by rw [hpiece.stop_eq]; omega, hpiece.boundaries⟩
  · rintro ⟨hle, hstart, hstop⟩
    obtain ⟨cs, hpiece⟩ := hstart.exists_isPiece hstop hle
    exact ⟨String.ofList cs, slice?_eq_some_iff.2 (by rwa [String.toList_ofList])⟩

end LuaAnalysis.Text
