import LuaAnalysis.Proofs.Types.Unions

namespace LuaAnalysis.Types.Ty

def nilLast (ts : List Ty) : List Ty :=
  if ts.length == 2 && ts.any isNil then ts.filter (fun t => !t.isNil) ++ ts.filter isNil else ts

mutual

def readBack (t : Ty) : Ty :=
  match t with
  | .array item => .array (readBack item)
  | .tuple items => .tuple (readBacks items)
  | .generic base params => .generic base (readBacks params)
  | .union members => .union (nilLast (readBacks members))
  | t => t
termination_by structural t

def readBacks (ts : List Ty) : List Ty :=
  match ts with
  | [] => []
  | t :: ts => readBack t :: readBacks ts
termination_by structural ts

end

theorem readBacks_eq (ts : List Ty) : readBacks ts = ts.map readBack := by
  induction ts with
  | nil => rfl
  | cons t ts ih => rw [readBacks, ih, List.map_cons]

theorem nilLast_perm (ts : List Ty) : (nilLast ts).Perm ts := by
  unfold nilLast
  split
  · have hperm := List.filter_append_perm (fun t : Ty => !t.isNil) ts
    simpa using hperm
  · exact .refl ts

mutual

theorem beq_readBack (a b : Ty) : beq (readBack a) (readBack b) = beq a b := by
  cases a with
  | array x =>
    cases b with
    | array y => exact beq_readBack x y
    | _ => rfl
  | tuple xs =>
    cases b with
    | tuple ys => exact beqList_readBacks xs ys
    | _ => rfl
  | generic n xs =>
    cases b with
    | generic m ys => exact congrArg (n == m && ·) (beqList_readBacks xs ys)
    | _ => rfl
  | union xs =>
    cases b with
    | union ys =>
      rw [readBack, readBack, beq_union_perm (nilLast_perm _) (nilLast_perm _), readBacks_eq,
        readBacks_eq, beq, beq, List.length_map, List.length_map, allIn_readBacks]
    | _ => rfl
  | _ => cases b <;> rfl

theorem beqList_readBacks (as bs : List Ty) :
    beqList (readBacks as) (readBacks bs) = beqList as bs := by
  cases as with
  | nil => cases bs <;> rfl
  | cons a as =>
    cases bs with
    | nil => rfl
    | cons b bs => rw [readBacks, readBacks, beqList, beqList, beq_readBack a b,
        beqList_readBacks as bs]

theorem allIn_readBacks (as bs : List Ty) :
    allIn (as.map readBack) (bs.map readBack) = allIn as bs := by
  cases as with
  | nil => rfl
  | cons a as =>
    rw [List.map_cons, allIn, allIn, List.any_map, allIn_readBacks as bs]
    have hany : (beq (readBack a) ∘ readBack) = beq a := funext fun b => beq_readBack a b
    rw [hany]

end

@[simp] theorem isNil_readBack (t : Ty) : (readBack t).isNil = t.isNil := by cases t <;> rfl

@[simp] theorem isUnion_readBack (t : Ty) : (readBack t).isUnion = t.isUnion := by cases t <;> rfl

@[simp] theorem isUnknown_readBack (t : Ty) : (readBack t).isUnknown = t.isUnknown := by
  cases t <;> rfl

@[simp] theorem isNever_readBack (t : Ty) : (readBack t).isNever = t.isNever := by cases t <;> rfl

@[simp] theorem isBoolConst_readBack (t : Ty) : (readBack t).isBoolConst = t.isBoolConst := by
  cases t <;> rfl

theorem normal_readBacks {ts : List Ty} (h : Normal ts) : Normal (readBacks ts) := by
  have hany (a : Ty) (ha : readBack a = a) : (ts.map readBack).any (beq a) = ts.any (beq a) := by
    rw [List.any_map]
    exact congrArg ts.any (funext fun b => by rw [Function.comp, ← beq_readBack a b, ha])
  rw [readBacks_eq]
  refine ⟨by simpa using h.two_le, by simpa using h.single, ?_, ?_⟩
  · exact List.pairwise_map.2 (h.distinct.imp fun hne => by rwa [beq_readBack])
  · rw [mergeBooleans_eq_self_iff, hany _ rfl, hany _ rfl, hany _ rfl]
    simpa using mergeBooleans_eq_self_iff.1 h.merged

theorem nilLast_of_beside_nil {t : Ty} (ht : t.isNil = false) :
    nilLast [t, .nil] = [t, .nil] ∧ nilLast [.nil, t] = [t, .nil] := by
  have hnil : isNil .nil = true := rfl
  simp [nilLast, ht, hnil]

theorem nilLast_readBacks {ts : List Ty} (h : ¬(ts.length == 2 && ts.any isNil) = true) :
    nilLast (readBacks ts) = readBacks ts := by
  have hany : (ts.map readBack).any isNil = ts.any isNil := by
    rw [List.any_map]
    exact congrArg ts.any (funext isNil_readBack)
  rw [nilLast, if_neg]
  rwa [readBacks_eq, List.length_map, hany]

theorem normal_of_perm {ts us : List Ty} (h : Normal ts) (hperm : us.Perm ts)
    (hdistinct : Distinct us) : Normal us := by
  refine ⟨by rw [hperm.length_eq]; exact h.two_le, fun t ht => h.single t (hperm.mem_iff.1 ht),
    hdistinct, ?_⟩
  obtain ⟨hboolean, hboth⟩ := mergeBooleans_eq_self_iff.1 h.merged
  rw [mergeBooleans_eq_self_iff, hperm.any_eq, hperm.any_eq, hperm.any_eq]
  exact ⟨fun hany t ht => hboolean hany t (hperm.mem_iff.1 ht), hboth⟩

theorem normal_nilLast {ts : List Ty} (h : Normal ts) : Normal (nilLast ts) := by
  by_cases hnil : (ts.length == 2 && ts.any isNil) = true
  · obtain ⟨t, ht, rfl | rfl⟩ := h.beside_nil hnil
    · rwa [(nilLast_of_beside_nil ht).1]
    · have hne : beq .nil t = false := by cases t <;> first | rfl | cases ht
      have hdistinct : Distinct [t, .nil] := by simpa [Distinct] using hne
      rw [(nilLast_of_beside_nil ht).2]
      exact normal_of_perm h (.swap _ _ _) hdistinct
  · rwa [nilLast, if_neg hnil]

end LuaAnalysis.Types.Ty
