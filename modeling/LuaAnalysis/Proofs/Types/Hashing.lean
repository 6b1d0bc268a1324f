import LuaAnalysis.Proofs.Types.Alternatives
import LuaAnalysis.Types.Hash

namespace LuaAnalysis.Types.Ty

variable {hash : List HashWord → UInt64}

theorem hashWordsList_eq (ts : List Ty) :
    hashWordsList hash ts = (ts.map (hashWords hash)).flatten := by
  induction ts with
  | nil => rfl
  | cons t ts ih => rw [hashWordsList, ih, List.map_cons, List.flatten_cons]

theorem hashSum_eq (ts : List Ty) : hashSum hash ts =
    ((ts.map (hashWords hash)).map hash).foldr (· + ·) 0 := by
  induction ts with
  | nil => rfl
  | cons t ts ih => rw [hashSum, ih, List.map_cons, List.map_cons, List.foldr_cons]

theorem hashWordsAccess_eq (as : List (Ty × Ty)) :
    hashWordsAccess hash as = ((as.flatMap fun (k, v) => [k, v]).map (hashWords hash)).flatten := by
  induction as with
  | nil => rfl
  | cons a as ih => simp [hashWordsAccess, ih]

theorem hashWordsFields_congr {fs gs : List (MemberKey × Ty)}
    (hkeys : (fs.map fun (key, _) => (key, Ty.unknown)) = gs.map fun (key, _) => (key, Ty.unknown))
    (h : (fs.map (·.2)).map (hashWords hash) = (gs.map (·.2)).map (hashWords hash)) :
    hashWordsFields hash fs = hashWordsFields hash gs := by
  induction fs generalizing gs with
  | nil => rw [List.map_eq_nil_iff.1 hkeys.symm]
  | cons f fs ih =>
    cases gs with
    | nil => cases hkeys
    | cons g gs =>
      obtain ⟨key, t⟩ := f
      obtain ⟨key', t'⟩ := g
      obtain ⟨hkey, hrest⟩ := List.cons.inj hkeys
      obtain ⟨htype, hbelow⟩ := List.cons.inj h
      obtain rfl : key = key' := (Prod.mk.inj hkey).1
      rw [hashWordsFields, hashWordsFields, ih hrest hbelow,
        show hashWords hash t = hashWords hash t' from htype]

theorem hashWordsParams_congr {ps qs : List (String × Option Ty)}
    (hframe : ps.map frameParam = qs.map frameParam)
    (h : (ps.filterMap (·.2)).map (hashWords hash) = (qs.filterMap (·.2)).map (hashWords hash)) :
    hashWordsParams hash ps = hashWordsParams hash qs := by
  induction ps generalizing qs with
  | nil => rw [List.map_eq_nil_iff.1 hframe.symm]
  | cons p ps ih =>
    cases qs with
    | nil => cases hframe
    | cons q qs =>
      obtain ⟨name, type⟩ := p
      obtain ⟨name', type'⟩ := q
      obtain ⟨hparam, hframes⟩ := List.cons.inj hframe
      obtain ⟨hname, htyped⟩ := Prod.mk.inj hparam
      obtain rfl : name = name' := hname
      cases type <;> cases type' <;> simp at h htyped
      · rw [hashWordsParams, hashWordsParams, ih hframes h]
      · rw [hashWordsParams, hashWordsParams, ih hframes h.2, h.1]

theorem hashWords_congr {a b : Ty} (ha : a.isUnion = false) (hframe : a.frame = b.frame)
    (h : a.children.map (hashWords hash) = b.children.map (hashWords hash)) :
    hashWords hash a = hashWords hash b := by
  have hlength : a.children.length = b.children.length := by simpa using congrArg List.length h
  cases a with
  | union members => cases ha
  | object fields access =>
    cases b with
    | object fields' access' =>
      obtain ⟨hkeys, haccess⟩ := Ty.object.inj hframe
      have hfieldsLength : fields.length = fields'.length := by
        simpa using congrArg List.length hkeys
      have haccessLength : access.length = access'.length := by
        simpa using congrArg List.length haccess
      simp only [children, List.map_append] at h
      obtain ⟨hfields, hentries⟩ := List.append_inj h (by simpa using hfieldsLength)
      rw [hashWords, hashWords, hashWordsFields_congr hkeys hfields, hashWordsAccess_eq,
        hashWordsAccess_eq, hentries, hfieldsLength, haccessLength]
    | _ => cases hframe
  | func isAsync isColon params ret =>
    cases b with
    | func isAsync' isColon' params' ret' =>
      obtain ⟨rfl, rfl, hparams, -⟩ := Ty.func.inj hframe
      have hparamsLength : params.length = params'.length := by
        simpa using congrArg List.length hparams
      simp only [children, List.map_append] at h
      obtain ⟨htypes, hret⟩ := List.append_inj h (by simpa using length_paramTypes hparams)
      rw [hashWords, hashWords, hashWordsParams_congr hparams htypes, hparamsLength,
        List.singleton_inj.1 hret]
    | _ => cases hframe
  | tuple items | multi items | generic base params =>
    cases b <;> simp_all [frame, children, hashWords, hashWordsList_eq]
  | _ => cases b <;> simp_all [frame, children, hashWords]

theorem hashWords_of_beq {a b : Ty} (ha : Unrepeated a) (h : beq a b = true) :
    hashWords hash a = hashWords hash b := by
  induction a using induction_children generalizing b with
  | made a ih =>
    have hunion := isUnion_of_beq h
    have hsame : ∀ c ∈ a.children, ∀ d ∈ b.children, beq c d = true →
        hashWords hash c = hashWords hash d :=
      fun c hc d _ => ih c hc (ha.children c hc)
    cases hau : a.isUnion with
    | false =>
      obtain ⟨hframe, hchildren⟩ := (beq_iff hau).1 h
      exact hashWords_congr hau hframe (hchildren.map_eq hsame)
    | true =>
      obtain ⟨as, rfl⟩ := exists_members hau
      obtain ⟨bs, rfl⟩ := exists_members (hunion.trans hau)
      obtain ⟨hlength, hmem⟩ := beq_union_iff.1 h
      have hsymm : ∀ c ∈ as, ∀ d ∈ bs, beq c d = true → beq d c = true :=
        fun c hc d _ => (ha.children c hc).beq_symm
      obtain ⟨paired, hperm, hpaired⟩ := exists_perm_equalEach ha.distinct hsymm hlength hmem
      have hwords : (as.map (hashWords hash)).Perm (bs.map (hashWords hash)) := by
        rw [hpaired.map_eq fun c hc d hd => hsame c hc d (hperm.mem_iff.2 hd)]
        exact (hperm.map _).symm
      have hsum : hashSum hash as = hashSum hash bs := by
        rw [hashSum_eq, hashSum_eq]
        exact (hwords.map hash).foldr_op_eq
      rw [hashWords, hashWords, hlength, hsum]

variable {meets : List Ty → UInt64 → UInt64 → Bool}

theorem any_meets_beq (hmeets : ∀ seen h, meets seen h h = true) {t : Ty} (ht : Unrepeated t)
    (seen : List Ty) :
    (seen.any fun u => meets seen (hash (hashWords hash t)) (hash (hashWords hash u)) && beq t u) =
    seen.any (beq t) := by
  refine Bool.eq_iff_iff.2 ?_
  simp only [List.any_eq_true, Bool.and_eq_true]
  refine exists_congr fun u => and_congr_right fun _ => and_iff_right_of_imp fun hbeq => ?_
  rw [hashWords_of_beq ht hbeq]
  exact hmeets seen _

theorem dedupHashedFrom_eq (hmeets : ∀ seen h, meets seen h h = true) {seen ts : List Ty}
    (h : ∀ t ∈ ts, Unrepeated t) : dedupHashedFrom hash meets seen ts = dedupFrom seen ts := by
  induction ts generalizing seen with
  | nil => rfl
  | cons t ts ih =>
    obtain ⟨ht, hts⟩ := List.forall_mem_cons.1 h
    rw [dedupHashedFrom, dedupFrom, any_meets_beq hmeets ht, ih hts, ih hts]

theorem exists_beq_dedup {t : Ty} {ts : List Ty} (ht : t ∈ ts) :
    ∃ u ∈ dedup ts, beq t u = true := by
  simpa [dedup] using (exists_beq_dedupFrom []).2 ⟨t, by simpa using ht, beq_refl t⟩

/-- Equality is reflexive and transitive, and on its left side a type in which no union has a member
twice makes it symmetric and has the hash of what it is equal to. So a hashed table finds the
repetitions among such types: those left are different, and each is equal to one that is left. -/
theorem beq_coherent (hash : List HashWord → UInt64) :
    (∀ t, beq t t = true) ∧ (∀ t u, Unrepeated t → beq t u = true → beq u t = true) ∧
      (∀ t u v, beq t u = true → beq u v = true → beq t v = true) ∧
      (∀ t u, Unrepeated t → beq t u = true → hashWords hash t = hashWords hash u) ∧
      ∀ meets : List Ty → UInt64 → UInt64 → Bool, (∀ seen h, meets seen h h = true) →
        ∀ ts, (∀ t ∈ ts, Unrepeated t) →
          let kept := dedupHashedFrom hash meets [] ts
          kept = dedup ts ∧ Distinct kept ∧ kept.Sublist ts ∧
          ∀ t ∈ ts, ∃ u ∈ kept, beq t u = true := by
  refine ⟨beq_refl, fun t u ht => ht.beq_symm, fun t u v => beq_trans,
    fun t u ht => hashWords_of_beq ht, ?_⟩
  intro meets hmeets ts hts kept
  have hkept : kept = dedup ts := dedupHashedFrom_eq hmeets hts
  rw [hkept]
  exact ⟨rfl, (distinct_dedupFrom [] ts).1, dedupFrom_sublist [] ts, fun t => exists_beq_dedup⟩

/-- Two unions of which the members stand in the other order, at either depth, by a hasher that
tells lengths only. -/
theorem beq_coherent_mirrored :
    let hash : List HashWord → UInt64 := fun words => .ofNat words.length
    let meets : List Ty → UInt64 → UInt64 → Bool := fun _ h h' => h == h'
    let t : Ty := .union [.array (.union [.integer, .nil]), .string]
    let u : Ty := .union [.string, .array (.union [.nil, .integer])]
    (∀ t' ∈ [t, .nil, u], Unrepeated t') ∧ beq t u = true ∧ beq u t = true ∧
    hashWords hash t = hashWords hash u ∧
      dedupHashedFrom hash meets [] [t, .nil, u] = [t, .nil] := by
  intro hash meets t u
  have hleaf : ∀ t ∈ [Ty.integer, .nil, .string], Unrepeated t := by
    simpa using ⟨Unrepeated.leaf rfl rfl, Unrepeated.leaf rfl rfl, Unrepeated.leaf rfl rfl⟩
  have harray {t : Ty} (h : Unrepeated t) : Unrepeated (.array t) :=
    .made (fun _ ht => by cases ht) (by simpa [Ty.children] using h)
  have hitems : Unrepeated (.union [.integer, .nil]) :=
    .union (by unfold Distinct; decide) (by simp [hleaf])
  have hitems' : Unrepeated (.union [.nil, .integer]) :=
    .union (by unfold Distinct; decide) (by simp [hleaf])
  have ht : Unrepeated t := .union (by unfold Distinct; decide) (by simp [hleaf, harray hitems])
  have hu : Unrepeated u := .union (by unfold Distinct; decide) (by simp [hleaf, harray hitems'])
  have hall : ∀ t' ∈ [t, .nil, u], Unrepeated t' := by simp [hleaf, ht, hu]
  obtain ⟨-, hsymm, -, hhash, hdedup⟩ := beq_coherent hash
  have htu : beq t u = true := rfl
  refine ⟨hall, htu, hsymm t u ht htu, hhash t u ht htu, ?_⟩
  exact (hdedup meets (fun _ h => beq_self_eq_true h) _ hall).1.trans rfl

/-- A union that has a member twice is equal to more than what is equal to it. -/
example : beq (.union [.nil, .nil]) (.union [.nil, .integer]) = true ∧
    beq (.union [.nil, .integer]) (.union [.nil, .nil]) = false :=
  ⟨rfl, rfl⟩

end LuaAnalysis.Types.Ty
