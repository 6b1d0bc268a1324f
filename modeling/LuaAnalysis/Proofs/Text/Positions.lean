import LuaAnalysis.Proofs.Text.Spans
import LuaAnalysis.Text.Lines

/-!
Places in a text by line and column. Line breaks cut a text into lines, a place counts the lines in
front of an offset and the UTF-16 units of what its own line has in front of it, and an offset is
found again from its place unless it cuts a break of two characters. A place behind the end of a
line is found on that line if the break is one of line feeds and carriage returns, and else where
the next line starts.
-/

namespace LuaAnalysis.Text

/-- Line feed, carriage return, both of them, vertical tab, form feed, next line, line separator and
paragraph separator. -/
def lineBreaks : List (List Char) :=
  [['\n'], ['\r'], ['\r', '\n'], ['\x0b'], ['\x0c'], ['\u0085'], ['\u2028'], ['\u2029']]

def Unbroken (cs : List Char) : Prop := ∀ c ∈ cs, [c] ∉ lineBreaks

/-- A text is cut into lines. Each ends with its first break, but the last one, which has none. -/
inductive CutInto : List Char → List (List Char) → Prop
  | last {content : List Char} (h : Unbroken content) : CutInto content [content]
  | next {content ending rest : List Char} {lines : List (List Char)} (hcontent : Unbroken content)
      (hending : ending ∈ lineBreaks) (hwhole : ending = ['\r'] → rest.head? ≠ some '\n')
      (hrest : CutInto rest lines) : CutInto (content ++ ending ++ rest)
      ((content ++ ending) :: lines)

/-- An offset lies on the line with this number, behind `front` and before `back`. The end of a line
is on the next one, if there is one. -/
structure Spot (lines : List (List Char)) (k : Nat) (front back : List Char) : Prop where
  line : lines[k]? = some (front ++ back)
  inside : back = [] → k + 1 = lines.length

def spotOffset (lines : List (List Char)) (k : Nat) (front : List Char) : Nat :=
  byteLength (lines.take k).flatten + byteLength front

def unitLength : List Char → Nat
  | [] => 0
  | c :: cs => units16 c + unitLength cs

/-- An offset between the two characters of one line break. -/
def CutsBreak (text : String) (offset : Nat) : Prop :=
  ∃ pre post, text.toList = pre ++ '\r' :: '\n' :: post ∧ offset = byteLength pre + 1

def Position.Precedes (a b : Position) : Prop :=
  a.line < b.line ∨ a.line = b.line ∧ a.column < b.column

theorem endsLine_iff (c : Char) : endsLine c = true ↔ [c] ∈ lineBreaks := by
  simp only [endsLine, lineBreaks, List.mem_cons, List.cons.injEq, and_true, ← Char.toNat_inj]
  simp
  omega

theorem Unbroken.endsLine {cs : List Char} {c : Char} (h : Unbroken cs) (hc : c ∈ cs) :
    endsLine c = false := by
  rw [← Bool.not_eq_true, endsLine_iff]
  exact h c hc

section Starts

variable {cs rest content ending front back : List Char} {lines : List (List Char)} {k pos : Nat}

theorem laterLineStarts_unbroken (h : Unbroken content) (pos : Nat) (rest : List Char) :
    laterLineStarts pos (content ++ rest) = laterLineStarts (pos + byteLength content) rest := by
  induction content generalizing pos with
  | nil => rfl
  | cons c content ih =>
    have hc : endsLine c = false := h.endsLine (.head _)
    have hreturn : c ≠ '\r' := by
      rintro rfl
      cases hc
    rw [List.cons_append, laterLineStarts, hc, ih fun d hd => h d (.tail c hd), byteLength_cons,
      Nat.add_assoc]
    · rfl
    · intro r hr
      exact absurd hr hreturn

theorem laterLineStarts_break (h : ending ∈ lineBreaks)
    (hwhole : ending = ['\r'] → rest.head? ≠ some '\n') (pos : Nat) :
    laterLineStarts pos (ending ++ rest) = (pos + byteLength ending) ::
    laterLineStarts (pos + byteLength ending) rest := by
  have hreturn : ending = ['\r'] → laterLineStarts pos ('\r' :: rest) = (pos + 1) ::
      laterLineStarts (pos + 1) rest := by
    intro h
    rw [laterLineStarts]
    · rfl
    · rintro r - rfl
      exact hwhole h rfl
  simp only [lineBreaks, List.mem_cons, List.not_mem_nil, or_false] at h
  rcases h with rfl | rfl | rfl | rfl | rfl | rfl | rfl | rfl
  case inr.inl => exact hreturn rfl
  all_goals rfl

def startsFrom : Nat → List (List Char) → List Nat
  | _, [] => []
  | pos, line :: lines => pos :: startsFrom (pos + byteLength line) lines

theorem CutInto.starts (h : CutInto cs lines) (pos : Nat) :
    pos :: laterLineStarts pos cs = startsFrom pos lines := by
  induction h generalizing pos with
  | last h =>
    have := laterLineStarts_unbroken h pos []
    rw [List.append_nil] at this
    rw [this]
    rfl
  | next hcontent hending hwhole _ ih =>
    rw [List.append_assoc, laterLineStarts_unbroken hcontent, laterLineStarts_break hending hwhole,
      ih, startsFrom, byteLength_append, Nat.add_assoc]

theorem CutInto.flatten (h : CutInto cs lines) : lines.flatten = cs := by
  induction h with
  | last => simp
  | next _ _ _ _ ih => rw [List.flatten_cons, ih]

theorem exists_cutInto (cs : List Char) : ∃ lines, CutInto cs lines := by
  have hnil : Unbroken [] := nofun
  induction 0, cs using laterLineStarts.induct with
  | case1 => exact ⟨[[]], .last hnil⟩
  | case2 pos r ih =>
    obtain ⟨lines, h⟩ := ih
    have hbreak : ['\r', '\n'] ∈ lineBreaks := by decide
    exact ⟨_, .next hnil hbreak (fun h => absurd h (by decide)) h⟩
  | case3 pos c r hreturn next hends ih =>
    obtain ⟨lines, h⟩ := ih
    have hbreak : [c] ∈ lineBreaks := (endsLine_iff c).1 hends
    refine ⟨_, .next hnil hbreak (fun hc hhead => ?_) h⟩
    obtain ⟨r, rfl⟩ := List.head?_eq_some_iff.1 hhead
    exact hreturn r (List.singleton_inj.1 hc) rfl
  | case4 pos c r _ next hends ih =>
    have hc : [c] ∉ lineBreaks := fun h => hends ((endsLine_iff c).2 h)
    obtain ⟨lines, h⟩ := ih
    cases h with
    | last h => exact ⟨_, .last (List.forall_mem_cons.2 ⟨hc, h⟩)⟩
    | next hcontent hending hwhole hrest =>
      exact ⟨_, .next (List.forall_mem_cons.2 ⟨hc, hcontent⟩) hending hwhole hrest⟩

theorem length_startsFrom (pos : Nat) (lines : List (List Char)) :
    (startsFrom pos lines).length = lines.length := by
  induction lines generalizing pos with
  | nil => rfl
  | cons line lines ih => rw [startsFrom, List.length_cons, List.length_cons, ih]

theorem getElem?_startsFrom (h : k < lines.length) (pos : Nat) :
    (startsFrom pos lines)[k]? = some (pos + byteLength (lines.take k).flatten) := by
  induction lines generalizing pos k with
  | nil => cases h
  | cons line lines ih =>
    cases k with
    | zero => rfl
    | succ k =>
      rw [startsFrom, List.getElem?_cons_succ, ih (Nat.lt_of_succ_lt_succ h), List.take_succ_cons,
        List.flatten_cons, byteLength_append, Nat.add_assoc]

theorem Spot.lt (h : Spot lines k front back) : k < lines.length :=
  (List.getElem?_eq_some_iff.1 h.line).1

theorem Spot.succ {line : List Char} (h : Spot (line :: lines) (k + 1) front back) :
    Spot lines k front back where
  line := h.line
  inside hback := Nat.succ_inj.1 (h.inside hback)

theorem spotOffset_succ (line : List Char) (lines : List (List Char)) (k : Nat)
    (front : List Char) : spotOffset (line :: lines) (k + 1) front = byteLength line +
    spotOffset lines k front := by
  rw [spotOffset, spotOffset, List.take_succ_cons, List.flatten_cons, byteLength_append,
    Nat.add_assoc]

theorem Spot.length_takeWhile (h : Spot lines k front back) (pos : Nat) :
    ((startsFrom pos lines).takeWhile (· ≤ pos + spotOffset lines k front)).length = k + 1 := by
  induction lines generalizing pos k with
  | nil => cases h.lt
  | cons line lines ih =>
    rw [startsFrom, List.takeWhile_cons_of_pos (by simp), List.length_cons, Nat.succ_inj]
    cases k with
    | succ k =>
      rw [spotOffset_succ, ← Nat.add_assoc]
      exact ih h.succ _
    | zero =>
      cases lines with
      | nil => rfl
      | cons next lines =>
        have hline : line = front ++ back := Option.some.inj h.line
        have hback : back ≠ [] := fun hback => by simpa using h.inside hback
        have := byteLength_pos hback
        rw [startsFrom, List.takeWhile_cons_of_neg, List.length_nil]
        rw [hline, byteLength_append, decide_eq_true_eq, spotOffset, List.take_zero,
          List.flatten_nil, byteLength_nil]
        omega

end Starts

section Spots

variable {cs pre post line front back front' back' : List Char} {lines : List (List Char)}
  {k k' : Nat} {text : String}

theorem CutInto.ne_nil (h : CutInto cs lines) : lines ≠ [] := by
  cases h <;> exact List.cons_ne_nil _ _

theorem exists_spot (h : lines.flatten = pre ++ post) (hne : lines ≠ []) :
    ∃ k front back, Spot lines k front back ∧ pre = (lines.take k).flatten ++ front := by
  induction lines generalizing pre with
  | nil => exact absurd rfl hne
  | cons line lines ih =>
    by_cases hlast : lines = []
    · subst hlast
      rw [List.flatten_cons, List.flatten_nil, List.append_nil] at h
      exact ⟨0, pre, post, ⟨congrArg some h, fun _ => rfl⟩, rfl⟩
    have hlater {more : List Char} (hpre : pre = line ++ more)
        (hmore : lines.flatten = more ++ post) : ∃ k front back, Spot (line :: lines) k front back ∧
        pre = ((line :: lines).take k).flatten ++ front := by
      obtain ⟨k, front, back, hspot, rfl⟩ := ih hmore hlast
      refine ⟨k + 1, front, back,
        ⟨hspot.line, fun hback => congrArg (· + 1) (hspot.inside hback)⟩, ?_⟩
      rw [hpre, List.take_succ_cons, List.flatten_cons, List.append_assoc]
    rw [List.flatten_cons] at h
    rcases List.append_eq_append_iff.1 h with ⟨more, hpre, hmore⟩ | ⟨back, hline, hpost⟩
    · exact hlater hpre hmore
    · by_cases hback : back = []
      · subst hback
        rw [List.append_nil] at hline
        exact hlater (by rw [hline, List.append_nil]) (hpost.symm.trans (List.nil_append _).symm)
      · exact ⟨0, pre, back, ⟨congrArg some hline, fun h => absurd h hback⟩, rfl⟩

theorem flatten_take_succ (h : lines[k]? = some line) :
    (lines.take (k + 1)).flatten = (lines.take k).flatten ++ line := by
  rw [List.take_add_one, h]
  simp

theorem byteLength_take_le (lines : List (List Char)) (h : k ≤ k') :
    byteLength (lines.take k).flatten ≤ byteLength (lines.take k').flatten := by
  obtain ⟨more, hmore⟩ := List.take_prefix_take_left (l := lines) h
  rw [← hmore, List.flatten_append, byteLength_append]
  exact Nat.le_add_right _ _

theorem unitLength_append (as bs : List Char) :
    unitLength (as ++ bs) = unitLength as + unitLength bs := by
  induction as with
  | nil => rw [List.nil_append, unitLength, Nat.zero_add]
  | cons c as ih => rw [List.cons_append, unitLength, unitLength, ih, Nat.add_assoc]

theorem units16_pos (c : Char) : 0 < units16 c := by
  rw [units16]
  split <;> omega

theorem unitLength_pos (h : cs ≠ []) : 0 < unitLength cs := by
  cases cs with
  | nil => exact absurd rfl h
  | cons c cs => exact Nat.lt_of_lt_of_le (units16_pos c) (Nat.le_add_right _ _)

theorem Spot.precedes (h : Spot lines k front back) (h' : Spot lines k' front' back')
    (hlt : spotOffset lines k front < spotOffset lines k' front') :
    Position.Precedes ⟨k, unitLength front⟩ ⟨k', unitLength front'⟩ := by
  rcases Nat.lt_trichotomy k k' with habove | rfl | hbelow
  · exact .inl habove
  · have hlengths : byteLength front < byteLength front' := Nat.lt_of_add_lt_add_left hlt
    have hline : front ++ back = front' ++ back' := Option.some.inj (h.line.symm.trans h'.line)
    obtain ⟨mid, rfl, -⟩ := exists_append_of_byteLength_le hline (Nat.le_of_lt hlengths)
    have hmid : mid ≠ [] := by
      rintro rfl
      simp at hlengths
    refine .inr ⟨rfl, ?_⟩
    rw [unitLength_append]
    exact Nat.lt_add_of_pos_right (unitLength_pos hmid)
  · -- the line of the second spot ends at or before the start of the first one's
    have hends := byteLength_take_le lines hbelow
    rw [Nat.succ_eq_add_one, flatten_take_succ h'.line, byteLength_append,
      byteLength_append] at hends
    rw [spotOffset, spotOffset] at hlt
    omega

theorem CutInto.exists_content (h : CutInto cs lines) (hline : lines[k]? = some line) :
    ∃ content ending, line = content ++ ending ∧ Unbroken content ∧
      (ending ∈ lineBreaks ∧ k + 1 < lines.length ∨ ending = [] ∧ k + 1 = lines.length) := by
  induction h generalizing k with
  | last h =>
    obtain ⟨hk, rfl⟩ := List.getElem?_eq_some_iff.1 hline
    exact ⟨_, [], by simp, h, .inr ⟨rfl, Nat.le_antisymm hk (Nat.le_add_left 1 k)⟩⟩
  | next hcontent hending _ hrest ih =>
    cases k with
    | zero =>
      obtain rfl := Option.some.inj hline
      exact ⟨_, _, rfl, hcontent,
        .inl ⟨hending, Nat.succ_lt_succ (List.length_pos_iff.2 hrest.ne_nil)⟩⟩
    | succ k =>
      obtain ⟨content, ending, rfl, hunbroken, hend⟩ := ih hline
      exact ⟨content, ending, rfl, hunbroken,
        hend.imp (fun h => ⟨h.1, Nat.succ_lt_succ h.2⟩) fun h => ⟨h.1, congrArg _ h.2⟩⟩

theorem eq_of_append_mem_lineBreaks (h : front ++ back ∈ lineBreaks) (hfront : front ≠ [])
    (hback : back ≠ []) : front = ['\r'] ∧ back = ['\n'] := by
  obtain ⟨c, front, rfl⟩ := List.exists_cons_of_ne_nil hfront
  obtain ⟨d, back, rfl⟩ := List.exists_cons_of_ne_nil hback
  cases front with
  | nil => simpa [lineBreaks, and_assoc] using h
  | cons => simp [lineBreaks] at h

theorem CutInto.toList_eq (h : CutInto cs lines) (hline : lines[k]? = some line) :
    cs = (lines.take k).flatten ++ line ++ (lines.drop (k + 1)).flatten := by
  rw [← flatten_take_succ hline, ← List.flatten_append, List.take_append_drop, h.flatten]

theorem Spot.exists_content (h : Spot lines k front back) (hcut : CutInto text.toList lines)
    (hwhole : ¬ CutsBreak text (spotOffset lines k front)) :
    ∃ mid rest, back = mid ++ rest ∧ Unbroken (front ++ mid) := by
  obtain ⟨content, ending, hline, hunbroken, hending⟩ := hcut.exists_content h.line
  rcases List.append_eq_append_iff.1 hline with ⟨mid, rfl, rfl⟩ | ⟨more, rfl, rfl⟩
  · exact ⟨mid, ending, rfl, hunbroken⟩
  · by_cases hmore : more = []
    · subst hmore
      exact ⟨[], back, rfl, by simpa using hunbroken⟩
    · exfalso
      rcases hending with ⟨hending, hlt⟩ | ⟨hending, -⟩
      · obtain ⟨rfl, rfl⟩ := eq_of_append_mem_lineBreaks hending hmore fun hback =>
          Nat.ne_of_lt hlt (h.inside hback)
        refine hwhole ⟨(lines.take k).flatten ++ content, (lines.drop (k + 1)).flatten, ?_, ?_⟩
        · rw [hcut.toList_eq h.line]
          simp
        · rw [spotOffset, byteLength_append, byteLength_append, ← Nat.add_assoc]
          rfl
      · exact hmore (List.append_eq_nil_iff.1 hending).1

end Spots

namespace Lines

section

variable {text : String} {lines : List (List Char)} {line front back : List Char} {k : Nat}

theorem starts_ofText (h : CutInto text.toList lines) :
    (ofText text).starts.toList = startsFrom 0 lines := h.starts 0

theorem count_ofText (h : CutInto text.toList lines) : (ofText text).count = lines.length := by
  rw [count, ← Array.length_toList, starts_ofText h, length_startsFrom]

theorem startOf_ofText (h : CutInto text.toList lines) (hk : k ≤ lines.length) :
    (ofText text).startOf k = byteLength (lines.take k).flatten := by
  rw [startOf, ← Array.getElem?_toList, starts_ofText h]
  rcases Nat.lt_or_eq_of_le hk with hlt | rfl
  · rw [getElem?_startsFrom hlt, Nat.zero_add, Option.getD_some]
  · rw [List.getElem?_eq_none (Nat.le_of_eq (length_startsFrom 0 lines)), List.take_length,
      h.flatten, byteLength_eq_utf8Len, String.utf8Len_toList]
    rfl

theorem lineOf_spot (h : CutInto text.toList lines) (hspot : Spot lines k front back) :
    (ofText text).lineOf (spotOffset lines k front) = k := by
  have hstarts := hspot.length_takeWhile 0
  rw [Nat.zero_add] at hstarts
  rw [lineOf, starts_ofText h, hstarts, Nat.add_sub_cancel]

theorem unitsWithin_byteLength (front rest : List Char) :
    unitsWithin (byteLength front) (front ++ rest) = unitLength front := by
  induction front with
  | nil =>
    cases rest with
    | nil => rfl
    | cons c rest => exact if_neg (Nat.not_le_of_gt c.utf8Size_pos)
  | cons c front ih =>
    rw [List.cons_append, byteLength_cons, unitsWithin, if_pos (Nat.le_add_right _ _),
      Nat.add_sub_cancel_left, ih, unitLength]

theorem bytesWithin_unitLength (front rest : List Char) :
    bytesWithin (unitLength front) (front ++ rest) = byteLength front := by
  induction front with
  | nil =>
    cases rest with
    | nil => rfl
    | cons c rest => exact if_neg (Nat.not_le_of_gt (units16_pos c))
  | cons c front ih =>
    rw [List.cons_append, unitLength, bytesWithin, if_pos (Nat.le_add_right _ _),
      Nat.add_sub_cancel_left, ih, byteLength_cons]

theorem position_spot (h : CutInto text.toList lines) (hspot : Spot lines k front back) :
    (ofText text).position (spotOffset lines k front) = ⟨k, unitLength front⟩ := by
  have hpiece : IsPiece text ⟨byteLength (lines.take k).flatten, text.utf8ByteSize⟩
      (front ++ back ++ (lines.drop (k + 1)).flatten) := by
    refine ⟨(lines.take k).flatten, [], ?_, rfl, ?_⟩
    · rw [h.toList_eq hspot.line]
      simp
    · rw [← String.utf8Len_toList, h.toList_eq hspot.line, byteLength_eq_utf8Len,
        byteLength_eq_utf8Len, List.append_assoc, String.utf8Len_append]
  have hstart := startOf_ofText h (Nat.le_of_lt hspot.lt)
  have hbytes : spotOffset lines k front - byteLength (lines.take k).flatten = byteLength front :=
    Nat.add_sub_cancel_left _ _
  simp only [position, lineOf_spot h hspot, hstart, hbytes]
  rw [show (ofText text).text = text from rfl, hpiece.slice_eq, List.append_assoc,
    unitsWithin_byteLength]

def chars (l : Lines) (line : Nat) : List Char :=
  (slice l.text ⟨l.startOf line, l.startOf (line + 1)⟩).toList

theorem chars_ofText (h : CutInto text.toList lines) (hline : lines[k]? = some line) :
    (ofText text).chars k = line := by
  have hlt : k < lines.length := (List.getElem?_eq_some_iff.1 hline).1
  have hpiece : IsPiece text ⟨byteLength (lines.take k).flatten,
      byteLength (lines.take (k + 1)).flatten⟩ line := by
    refine ⟨(lines.take k).flatten, (lines.drop (k + 1)).flatten, h.toList_eq hline, rfl, ?_⟩
    rw [flatten_take_succ hline, byteLength_append]
  rw [chars, startOf_ofText h (Nat.le_of_lt hlt), startOf_ofText h hlt,
    show (ofText text).text = text from rfl, hpiece.slice_eq]

theorem dropWhile_reverse_of_unbroken (h : Unbroken front) :
    front.reverse.dropWhile (fun c => c == '\n' || c == '\r') = front.reverse := by
  cases hreverse : front.reverse with
  | nil => rfl
  | cons c cs =>
    have hc : [c] ∉ lineBreaks := h c (List.mem_reverse.1 (hreverse ▸ .head _))
    refine List.dropWhile_cons_of_neg fun hbreak => hc ?_
    rw [Bool.or_eq_true, beq_iff_eq, beq_iff_eq] at hbreak
    rcases hbreak with rfl | rfl <;> decide

theorem exists_content_eq (h : CutInto text.toList lines) (hline : lines[k]? = some (front ++ back))
    (hfront : Unbroken front) : ∃ rest, (ofText text).content k = front ++ rest := by
  have hkept := dropWhile_reverse_of_unbroken hfront
  rw [content, show (slice _ _).toList = _ from chars_ofText h hline, List.reverse_append,
    List.dropWhile_append]
  split
  · exact ⟨[], by rw [hkept, List.reverse_reverse, List.append_nil]⟩
  · exact ⟨_, by rw [List.reverse_append, List.reverse_reverse]⟩

theorem offset_spot (h : CutInto text.toList lines) (hspot : Spot lines k front back)
    (hwhole : ¬ CutsBreak text (spotOffset lines k front)) :
    (ofText text).offset ⟨k, unitLength front⟩ = spotOffset lines k front := by
  obtain ⟨mid, rest, rfl, hunbroken⟩ := hspot.exists_content h hwhole
  have hfront : lines[k]? = some (front ++ mid ++ rest) := by rw [hspot.line, List.append_assoc]
  obtain ⟨more, hcontent⟩ := exists_content_eq h hfront hunbroken
  have hline : min k (lines.length - 1) = k := Nat.min_eq_left (Nat.le_sub_one_of_lt hspot.lt)
  simp only [offset, count_ofText h, hline, startOf_ofText h (Nat.le_of_lt hspot.lt), hcontent]
  rw [List.append_assoc, bytesWithin_unitLength]
  rfl

/-- A text is cut into lines. The place of a boundary is the number of lines above it with the units
that its line has in front of it, its offset is found again from its place unless it cuts a break,
and later boundaries have later places. -/
theorem offset_position (text : String) :
    (∃ lines, CutInto text.toList lines) ∧
    (∀ lines, CutInto text.toList lines → ∀ o, IsBoundary text o →
      ∃ k front back, Spot lines k front back ∧
      o = spotOffset lines k front ∧ (ofText text).position o = ⟨k, unitLength front⟩) ∧
    (∀ o, IsBoundary text o → ¬ CutsBreak text o →
      (ofText text).offset ((ofText text).position o) = o) ∧
    ∀ o o', IsBoundary text o → IsBoundary text o' → o < o' →
      ((ofText text).position o).Precedes ((ofText text).position o') := by
  have hspots (lines : List (List Char)) (h : CutInto text.toList lines) (o : Nat)
      (ho : IsBoundary text o) : ∃ k front back, Spot lines k front back ∧
      o = spotOffset lines k front := by
    obtain ⟨pre, post, htext, rfl⟩ := ho
    obtain ⟨k, front, back, hspot, rfl⟩ := exists_spot (h.flatten.trans htext) h.ne_nil
    exact ⟨k, front, back, hspot, byteLength_append _ _⟩
  obtain ⟨lines, h⟩ := exists_cutInto text.toList
  refine ⟨⟨lines, h⟩, fun lines h o ho => ?_, fun o ho hwhole => ?_, fun o o' ho ho' hlt => ?_⟩
  · obtain ⟨k, front, back, hspot, rfl⟩ := hspots lines h o ho
    exact ⟨k, front, back, hspot, rfl, position_spot h hspot⟩
  · obtain ⟨k, front, back, hspot, rfl⟩ := hspots lines h o ho
    rw [position_spot h hspot, offset_spot h hspot hwhole]
  · obtain ⟨k, front, back, hspot, rfl⟩ := hspots lines h o ho
    obtain ⟨k', front', back', hspot', rfl⟩ := hspots lines h o' ho'
    rw [position_spot h hspot, position_spot h hspot']
    exact hspot.precedes hspot' hlt

/-- Behind a character of two units, in front of a break of two characters, and on the line behind
two breaks. -/
theorem offset_position_two_breaks :
    let text := "a😀\r\nb\u2028c"
    IsBoundary text 5 ∧ IsBoundary text 11 ∧ ¬ CutsBreak text 5 ∧
    (ofText text).position 5 = ⟨0, 3⟩ ∧
      (ofText text).position 11 = ⟨2, 0⟩ ∧ (ofText text).offset ((ofText text).position 5) = 5 ∧
      ((ofText text).position 5).Precedes ((ofText text).position 11) := by
  intro text
  have hfront : IsBoundary text 5 := by decide +kernel
  have hlast : IsBoundary text 11 := by decide +kernel
  have hwhole : ¬ CutsBreak text 5 := by
    rintro ⟨pre, post, htext, hoffset⟩
    have hinside : IsBoundary text 4 := ⟨pre, _, htext, Nat.succ_inj.1 hoffset⟩
    exact absurd hinside (by decide +kernel)
  obtain ⟨-, -, hback, hlater⟩ := offset_position text
  exact ⟨hfront, hlast, hwhole, by decide +kernel, by decide +kernel, hback 5 hfront hwhole,
    hlater 5 11 hfront hlast (by decide)⟩

/-- The characters of a line in front of its break. -/
def bare (l : Lines) (line : Nat) : List Char := (l.chars line).takeWhile fun c => !endsLine c

def breakOf (l : Lines) (line : Nat) : List Char := (l.chars line).dropWhile fun c => !endsLine c

/-- What is found for a place is on the line of the place, or on the last line if there are fewer,
and not behind the break of that line. -/
def KeepsLine (l : Lines) (p : Position) : Prop :=
  l.lineOf (l.offset p) = min p.line (l.count - 1) ∧
    l.offset p ≤ l.startOf (min p.line (l.count - 1)) +
    byteLength (l.bare (min p.line (l.count - 1)))

/-- No break, and those breaks that are made of line feeds and carriage returns. -/
def feeds : List (List Char) := [[], ['\n'], ['\r'], ['\r', '\n']]

section Clamping

variable {content ending cs : List Char} {n : Nat}

theorem bare_breakOf (h : CutInto text.toList lines) (hline : lines[k]? = some (content ++ ending))
    (hcontent : Unbroken content) (hending : ending ∈ lineBreaks ∨ ending = []) :
    (ofText text).bare k = content ∧ (ofText text).breakOf k = ending := by
  have hfront : ∀ c ∈ content, (!endsLine c) = true := fun c hc => by rw [hcontent.endsLine hc]; rfl
  have hbreak : ending.takeWhile (fun c => !endsLine c) = [] ∧
      ending.dropWhile (fun c => !endsLine c) = ending := by
    simp only [lineBreaks, List.mem_cons, List.not_mem_nil, or_false] at hending
    rcases hending with (rfl | rfl | rfl | rfl | rfl | rfl | rfl | rfl) | rfl <;> exact ⟨rfl, rfl⟩
  rw [bare, breakOf, chars_ofText h hline, List.takeWhile_append_of_pos hfront,
    List.dropWhile_append_of_pos hfront, hbreak.1, hbreak.2, List.append_nil]
  exact ⟨rfl, rfl⟩

theorem content_eq (h : CutInto text.toList lines) (hline : lines[k]? = some (content ++ ending))
    (hcontent : Unbroken content) (hending : ending ∈ lineBreaks ∨ ending = []) :
    (ofText text).content k = content ++ if ending ∈ feeds then [] else ending := by
  have hkept := dropWhile_reverse_of_unbroken hcontent
  rw [Lines.content, show (slice _ _).toList = _ from chars_ofText h hline, List.reverse_append]
  simp only [lineBreaks, List.mem_cons, List.not_mem_nil, or_false] at hending
  rcases hending with (rfl | rfl | rfl | rfl | rfl | rfl | rfl | rfl) | rfl <;> simp [feeds, hkept]

theorem bytesWithin_of_le (h : unitLength cs ≤ n) : bytesWithin n cs = byteLength cs := by
  induction cs generalizing n with
  | nil => rfl
  | cons c cs ih =>
    rw [unitLength] at h
    rw [bytesWithin, if_pos (by omega), ih (by omega), byteLength_cons]

theorem exists_bytesWithin (n : Nat) (cs : List Char) :
    ∃ front back, cs = front ++ back ∧ bytesWithin n cs = byteLength front ∧
    unitLength front ≤ n := by
  induction cs generalizing n with
  | nil => exact ⟨[], [], rfl, rfl, Nat.zero_le n⟩
  | cons c cs ih =>
    rw [bytesWithin]
    split
    · obtain ⟨front, back, rfl, hbytes, hunits⟩ := ih (n - units16 c)
      refine ⟨c :: front, back, rfl, by rw [hbytes, byteLength_cons], ?_⟩
      rw [unitLength]
      omega
    · exact ⟨[], c :: cs, rfl, rfl, Nat.zero_le n⟩

section

variable {p : Position} (h : CutInto text.toList lines) (hk : min p.line (lines.length - 1) = k)
  (hline : lines[k]? = some (content ++ ending)) (hcontent : Unbroken content)
  (hending : ending ∈ lineBreaks ∧ k + 1 < lines.length ∨ ending = [] ∧ k + 1 = lines.length)
include h hk hline hcontent hending

theorem offset_eq : (ofText text).offset p =
    byteLength (lines.take k).flatten +
    bytesWithin p.column (content ++ if ending ∈ feeds then [] else ending) := by
  have hlt : k < lines.length := (List.getElem?_eq_some_iff.1 hline).1
  simp only [offset, count_ofText h, hk]
  rw [startOf_ofText h (Nat.le_of_lt hlt),
    content_eq h hline hcontent (hending.imp And.left And.left)]

theorem keepsLine_of_front (hfront : content = front ++ back)
    (hoffset : (ofText text).offset p = spotOffset lines k front) : (ofText text).KeepsLine p := by
  have hspot : Spot lines k front (back ++ ending) := by
    refine ⟨by rw [hline, hfront, List.append_assoc], fun hback => ?_⟩
    obtain rfl := (List.append_eq_nil_iff.1 hback).2
    exact (hending.resolve_left fun h => absurd h.1 (by decide)).2
  have hbare := (bare_breakOf h hline hcontent (hending.imp And.left And.left)).1
  rw [KeepsLine, count_ofText h, hk, hoffset, lineOf_spot h hspot, hbare,
    startOf_ofText h (Nat.le_of_lt hspot.lt), hfront, byteLength_append, spotOffset]
  exact ⟨rfl, by omega⟩

theorem keepsLine_of_le (hwithin : ending ∈ feeds ∨ p.column ≤ unitLength content) :
    (ofText text).KeepsLine p := by
  obtain ⟨front, back, hcut, hbytes, hunits⟩ :=
    exists_bytesWithin p.column (content ++ if ending ∈ feeds then [] else ending)
  have hoffset := offset_eq h hk hline hcontent hending
  rw [hbytes] at hoffset
  rcases List.append_eq_append_iff.1 hcut with ⟨more, rfl, hmore⟩ | ⟨more, hmore, -⟩
  · -- the front goes on behind the content only with a break that is counted, and then it has too
    -- many units
    have hnone : more = [] := by
      rcases hwithin with hfeeds | hcolumn
      · rw [if_pos hfeeds] at hmore
        exact (List.append_eq_nil_iff.1 hmore.symm).1
      · by_contra hne
        have := unitLength_pos hne
        rw [unitLength_append] at hunits
        omega
    exact keepsLine_of_front h hk hline hcontent hending
      (by rw [hnone, List.append_nil, List.append_nil]) hoffset
  · exact keepsLine_of_front h hk hline hcontent hending hmore hoffset

theorem offset_behind (hbehind : ¬ (ending ∈ feeds ∨ p.column ≤ unitLength content)) :
    (ofText text).offset p = (ofText text).startOf (k + 1) ∧
    (ofText text).lineOf ((ofText text).offset p) = k + 1 := by
  obtain ⟨hfeeds, hcolumn⟩ := not_or.1 hbehind
  obtain ⟨hbreak, hnext⟩ := hending.resolve_right fun h => hfeeds (h.1 ▸ .head _)
  have hunit : ∀ e ∈ lineBreaks, e ∉ feeds → unitLength e = 1 := by decide
  have hunits : unitLength ending = 1 := hunit ending hbreak hfeeds
  have hwhole : bytesWithin p.column (content ++ ending) = byteLength (content ++ ending) := by
    refine bytesWithin_of_le ?_
    rw [unitLength_append]
    omega
  have hoffset := offset_eq h hk hline hcontent hending
  rw [if_neg hfeeds, hwhole, ← byteLength_append, ← flatten_take_succ hline] at hoffset
  have hspot : Spot lines (k + 1) [] lines[k + 1] := by
    refine ⟨List.getElem?_eq_getElem hnext, fun hempty => ?_⟩
    obtain ⟨content', ending', hparts, -, hending'⟩ :=
      h.exists_content (List.getElem?_eq_getElem hnext)
    obtain rfl := (List.append_eq_nil_iff.1 (hparts.symm.trans hempty)).2
    exact (hending'.resolve_left fun h => absurd h.1 (by decide)).2
  have hstart := startOf_ofText h (Nat.le_of_lt hnext)
  refine ⟨hoffset.trans hstart.symm, ?_⟩
  rw [hoffset, ← Nat.add_zero (byteLength _)]
  exact lineOf_spot h hspot

end

/-- What is found for a place keeps to the line of the place just if the break of the line is one of
line feeds and carriage returns or the place is not behind the break. Else it is where the next line
starts. -/
theorem keepsLine_iff (text : String) (p : Position) :
    let l := ofText text
    let line := min p.line (l.count - 1)
    (l.breakOf line ∈ lineBreaks ∧ line + 1 < l.count ∨ l.breakOf line = [] ∧ line + 1 = l.count) ∧
      (l.KeepsLine p ↔ l.breakOf line ∈ feeds ∨ p.column ≤ unitLength (l.bare line)) ∧
      (l.KeepsLine p ∨ l.offset p = l.startOf (line + 1) ∧ l.lineOf (l.offset p) = line + 1) := by
  intro l line
  obtain ⟨lines, h⟩ := exists_cutInto text.toList
  have hpos : 0 < lines.length := List.length_pos_iff.2 h.ne_nil
  have hcount : l.count = lines.length := count_ofText h
  have hk : min p.line (lines.length - 1) = line := by rw [← hcount]
  have hlt : line < lines.length := by omega
  obtain ⟨content, ending, hparts, hcontent, hending⟩ :=
    h.exists_content (List.getElem?_eq_getElem hlt)
  have hline : lines[line]? = some (content ++ ending) := by
    rw [List.getElem?_eq_getElem hlt, hparts]
  have hbare : l.bare line = content ∧ l.breakOf line = ending :=
    bare_breakOf h hline hcontent (hending.imp And.left And.left)
  rw [hcount, hbare.1, hbare.2]
  by_cases hwithin : ending ∈ feeds ∨ p.column ≤ unitLength content
  · have hkeeps : l.KeepsLine p := keepsLine_of_le h hk hline hcontent hending hwithin
    exact ⟨hending, iff_of_true hkeeps hwithin, .inl hkeeps⟩
  · obtain ⟨hoffset, hnext⟩ := offset_behind h hk hline hcontent hending hwithin
    have hleaves : ¬ l.KeepsLine p := fun hkeeps =>
      Nat.succ_ne_self line (hnext.symm.trans hkeeps.1)
    exact ⟨hending, iff_of_false hleaves hwithin, .inr ⟨hoffset, hnext⟩⟩

/-- A line that a vertical tab ends: what is found for a place behind it is on the next line. -/
theorem not_keepsLine_verticalTab : ¬ (ofText "a\x0bb").KeepsLine ⟨0, 9⟩ := by
  intro h
  exact absurd h.1 (by decide +kernel)

end Clamping

end

end Lines

end LuaAnalysis.Text
