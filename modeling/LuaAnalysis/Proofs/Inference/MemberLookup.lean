import LuaAnalysis.Proofs.Inference.MemberSources

/-!
The two lookups of members. The list of all members of a type has each key once, and under it what
the lookup of that key finds: the member of the first owner that has one, a declared type before
others there, and behind all owners the first field.
-/

namespace LuaAnalysis.Inference

open Document LuaAnalysis.Types Workspace

/-- What a member of a type is defined by, somewhere in the workspace or in the type itself. -/
inductive Definition where
  | member (m : Member)
  | field (key : MemberKey) (type : Ty)

def MemberInfo.definition (info : MemberInfo) : Definition :=
  match info.member? with
  | some m => .member m
  | none => .field info.key info.type

/-- The member of an owner that counts under a key: the first one with a declared type, or the first
one if none has one. -/
def Preferred (members : List Member) (key : MemberKey) (m : Member) : Prop :=
  ∃ before after, members = before ++ m :: after ∧ m.key = key ∧
    if m.type?.isSome = true then ∀ b ∈ before, b.key = key → b.type? = none
    else (∀ b ∈ before, b.key ≠ key) ∧ ∀ a ∈ after, a.key = key → a.type? = none

/-- What counts under a key in the sources of members. -/
inductive Counts (p : Project) (sources : MemberSources) (key : MemberKey) : Definition → Prop
  | member {before after : List (MemberOwner × Substitution)} {o : MemberOwner × Substitution}
      {m : Member} (howners : sources.owners = before ++ o :: after)
      (hbefore : ∀ b ∈ before, ∀ m ∈ p.index.members b.1, m.key ≠ key)
      (hm : Preferred (p.index.members o.1) key m) : Counts p sources key (.member m)
  | field {before after : List (MemberKey × Ty)} {type : Ty}
      (howners : ∀ o ∈ sources.owners, ∀ m ∈ p.index.members o.1, m.key ≠ key)
      (hfields : sources.fields = before ++ (key, type) :: after)
      (hbefore : ∀ f ∈ before, f.1 ≠ key) : Counts p sources key (.field key type)

variable {p : Project} {e : Engine} {t : Ty} {key : MemberKey} {owner : MemberOwner} {m : Member}
  {sources : MemberSources} {d : Definition}

theorem member?_eq (p : Project) (owner : MemberOwner) (key : MemberKey) :
    p.index.member? owner key =
    ((p.index.members owner).find? fun m => decide (m.key = key ∧ m.type?.isSome = true)).or
    ((p.index.members owner).find? fun m => decide (m.key = key)) := by
  simp [Index.member?, List.find?_filter, List.head?_filter, beq_eq_decide]

theorem member?_eq_some_iff : p.index.member? owner key = some m ↔
    Preferred (p.index.members owner) key m := by
  rw [member?_eq, Option.or_eq_some_iff, List.find?_eq_some_iff_append,
    List.find?_eq_some_iff_append, List.find?_eq_none]
  simp only [decide_eq_true_eq, Bool.not_eq_true', decide_eq_false_iff_not, not_and,
    Option.not_isSome_iff_eq_none]
  constructor
  · rintro (⟨⟨hkey, htype⟩, before, after, hsplit, hbefore⟩ |
      ⟨hnone, hkey, before, after, hsplit, hbefore⟩)
    · exact ⟨before, after, hsplit, hkey, by rwa [if_pos htype]⟩
    · have htype := hnone m (by simp [hsplit]) hkey
      refine ⟨before, after, hsplit, hkey, ?_⟩
      rw [if_neg (by simp [htype])]
      exact ⟨hbefore, fun a ha => hnone a (by simp [hsplit, ha])⟩
  · rintro ⟨before, after, hsplit, hkey, hfirst⟩
    split at hfirst
    · next htype => exact .inl ⟨⟨hkey, htype⟩, before, after, hsplit, hfirst⟩
    · next htype =>
      refine .inr ⟨fun x hx hxkey => ?_, hkey, before, after, hsplit, hfirst.1⟩
      rw [hsplit, List.mem_append, List.mem_cons] at hx
      rcases hx with hx | rfl | hx
      · exact absurd hxkey (hfirst.1 x hx)
      · simpa using htype
      · exact hfirst.2 x hx hxkey

theorem member?_eq_none_iff : p.index.member? owner key = none ↔
    ∀ m ∈ p.index.members owner, m.key ≠ key := by
  rw [member?_eq, Option.or_eq_none_iff, List.find?_eq_none, List.find?_eq_none]
  simp only [decide_eq_true_eq]
  exact ⟨fun h => h.2, fun h => ⟨fun m hm hkey => h m hm hkey.1, h⟩⟩

theorem key_of_member? (h : p.index.member? owner key = some m) : m.key = key := by
  obtain ⟨_, _, _, hkey, _⟩ := member?_eq_some_iff.1 h
  exact hkey

def definition? (p : Project) (sources : MemberSources) (key : MemberKey) : Option Definition :=
  (sources.owners.findSome? fun o => (p.index.member? o.1 key).map .member).or
    (sources.fields.findSome? fun f => if key = f.1 then some (.field f.1 f.2) else none)

theorem definition?_eq_some_iff : definition? p sources key = some d ↔ Counts p sources key d := by
  rw [definition?, Option.or_eq_some_iff, List.findSome?_eq_some_iff, List.findSome?_eq_some_iff,
    List.findSome?_eq_none_iff]
  simp only [Option.map_eq_some_iff, Option.map_eq_none_iff, member?_eq_some_iff,
    member?_eq_none_iff]
  constructor
  · rintro (⟨before, o, after, howners, ⟨m, hm, rfl⟩, hbefore⟩ |
      ⟨howners, before, f, after, hfields, hf, hbefore⟩)
    · exact .member howners hbefore hm
    · split at hf
      · next hkey =>
        subst hkey
        obtain rfl := Option.some.inj hf
        refine .field howners hfields fun f hf hkey => ?_
        simpa [hkey] using hbefore f hf
      · cases hf
  · rintro (⟨howners, hbefore, hm⟩ | ⟨howners, hfields, hbefore⟩)
    · exact .inl ⟨_, _, _, howners, ⟨_, hm, rfl⟩, hbefore⟩
    · exact .inr ⟨howners, _, _, _, hfields, if_pos rfl,
        fun f hf => if_neg (Ne.symm (hbefore f hf))⟩

/-- Whether a list of members has each key once, and under it what a lookup finds. -/
structure Lists (infos : List MemberInfo) (f : MemberKey → Option Definition) : Prop where
  nodup : (infos.map (·.key)).Nodup
  finds : ∀ key d, f key = some d ↔ ∃ info ∈ infos, info.key = key ∧ info.definition = d

def orAt (f : MemberKey → Option Definition) (key : MemberKey) (d? : Option Definition)
    (k : MemberKey) : Option Definition :=
  (f k).or (if k = key then d? else none)

section Lists

variable {infos : List MemberInfo} {f g : MemberKey → Option Definition} {d? : Option Definition}
  {info : MemberInfo}

theorem Lists.isSome_iff (h : Lists infos f) : (f key).isSome = true ↔ key ∈ infos.map (·.key) := by
  simp only [Option.isSome_iff_exists, h.finds, List.mem_map]
  constructor
  · rintro ⟨_, info, hinfo, hkey, -⟩
    exact ⟨info, hinfo, hkey⟩
  · rintro ⟨info, hinfo, hkey⟩
    exact ⟨_, info, hinfo, hkey, rfl⟩

theorem Lists.keep (h : Lists infos f) (hkey : key ∈ infos.map (·.key)) :
    Lists infos (orAt f key d?) := by
  have hsame : orAt f key d? = f := by
    funext k
    by_cases hk : k = key
    · obtain ⟨d, hd⟩ := Option.isSome_iff_exists.1 (h.isSome_iff.2 (hk ▸ hkey))
      rw [orAt, hd, Option.some_or]
    · rw [orAt, if_neg hk, Option.or_none]
  rwa [hsame]

theorem Lists.skip (h : Lists infos f) : Lists infos (orAt f key none) := by
  have hsame : orAt f key none = f := by
    funext k
    rw [orAt, ite_self, Option.or_none]
  rwa [hsame]

theorem Lists.snoc (h : Lists infos f) (hkey : info.key ∉ infos.map (·.key)) :
    Lists (infos ++ [info]) (orAt f info.key (some info.definition)) := by
  have hnone : f info.key = none := by simpa using mt h.isSome_iff.1 hkey
  refine ⟨?_, fun key d => ?_⟩
  · rw [List.map_append, List.map_singleton, ← List.concat_eq_append, List.nodup_concat]
    exact ⟨hkey, h.nodup⟩
  · simp only [List.mem_append, List.mem_singleton, or_and_right, exists_or, exists_eq_left]
    rw [← h.finds, orAt]
    by_cases hk : key = info.key
    · subst hk
      simp [hnone]
    · simp [hk, Ne.symm hk]

theorem lists_foldlM {α : Type} {step : List MemberInfo → α → Search (List MemberInfo)}
    {g : α → MemberKey → Option Definition} (xs : List α)
    (hstep : ∀ infos f, ∀ x ∈ xs, Lists infos f →
      Gives (fun _ => True) (step infos x) fun infos => Lists infos fun k => (f k).or (g x k))
    (h : Lists infos f) :
    Gives (fun _ => True) (xs.foldlM step infos) fun infos => Lists infos fun k =>
      (f k).or (xs.findSome? (g · k)) := by
  induction xs generalizing infos f with
  | nil =>
    refine .pure ?_
    simpa using h
  | cons x xs ih =>
    have hlater (f : MemberKey → Option Definition) :
        (fun k => (f k).or ((x :: xs).findSome? (g · k))) = fun k =>
          ((f k).or (g x k)).or (xs.findSome? (g · k)) := by
      funext k
      rw [Option.or_assoc, List.findSome?_cons]
      cases g x k <;> rfl
    rw [List.foldlM_cons, hlater]
    refine .bind (hstep infos f x (.head _) h) fun infos hinfos => ?_
    exact ih (fun infos f y hy => hstep infos f y (.tail _ hy)) hinfos

theorem any_key_iff : (infos.any fun info => info.key == key) = true ↔ key ∈ infos.map (·.key) := by
  simp

theorem findSome?_member? (p : Project) (owner : MemberOwner) (key : MemberKey) :
    ((p.index.members owner).findSome? fun m => if key = m.key then
      (p.index.member? owner m.key).map Definition.member
        else none) = (p.index.member? owner key).map .member := by
  cases hfound : (p.index.members owner).findSome? _ with
  | some d =>
    obtain ⟨m, -, hm⟩ := List.exists_of_findSome?_eq_some hfound
    split at hm
    · next hkey => rw [hkey, hm]
    · cases hm
  | none =>
    rw [List.findSome?_eq_none_iff] at hfound
    refine (Option.map_eq_none_iff.2 (member?_eq_none_iff.2 fun m hm hkey => ?_)).symm
    have hnone := hfound m hm
    rw [if_pos hkey.symm, Option.map_eq_none_iff, member?_eq_none_iff] at hnone
    exact hnone m hm rfl

theorem addMembers_lists (h : Lists infos f) (o : MemberOwner × Substitution) :
    Gives (fun _ => True) (addMembers p e t infos o)
      fun infos => Lists infos fun k => (f k).or ((p.index.member? o.1 k).map .member) := by
  rw [addMembers, ← funext fun k => congrArg (f k).or (findSome?_member? p o.1 k)]
  refine lists_foldlM (p.index.members o.1) (fun infos f m _ h => ?_) h
  refine .ite (fun hlisted => .pure (h.keep (any_key_iff.1 hlisted))) fun hnew => ?_
  rw [any_key_iff] at hnew
  cases hm : p.index.member? o.1 m.key with
  | none => exact .pure h.skip
  | some first =>
    have hkey := key_of_member? hm
    refine .bind (Q := fun _ => True) (fun _ _ => ⟨trivial, trivial⟩) fun type _ => .pure ?_
    have hsnoc :=
      h.snoc (show (⟨first.key, type, some first⟩ : MemberInfo).key ∉ infos.map
        (·.key) by rwa [hkey])
    rwa [show (⟨first.key, type, some first⟩ : MemberInfo).key = m.key from hkey] at hsnoc

theorem Lists.nil : Lists [] fun _ => none := ⟨List.nodup_nil, by simp⟩

theorem findMembers_lists {st st₁ : SearchState} (h : memberSources p e t st = (sources, st₁)) :
    Lists (findMembers p e t st).1 (definition? p sources) := by
  have howners : Gives _ (sources.owners.foldlM (addMembers p e t) []) _ :=
    lists_foldlM sources.owners (fun infos f o _ h => addMembers_lists h o) .nil
  simp only [Option.none_or] at howners
  rw [findMembers, Search.bind_apply h]
  refine (Gives.bind (R := fun infos => Lists infos (definition? p sources)) howners
    (fun found hfound => ?_) st₁ trivial).1
  -- the loop over the fields has no effects, but it is told as the other one is
  simp only [← List.foldlM_pure]
  refine lists_foldlM sources.fields (fun infos f field _ h => ?_) hfound
  obtain ⟨key, type⟩ := field
  simp only
  split
  · next hlisted => exact .pure (h.keep (any_key_iff.1 hlisted))
  · next hnew =>
    have hnew : (⟨key, type, none⟩ : MemberInfo).key ∉ infos.map (·.key) := mt any_key_iff.2 hnew
    exact .pure (h.snoc hnew)

end Lists

theorem findSome?_field (fields : List (MemberKey × Ty)) (key : MemberKey) :
    (fields.findSome? fun f => if key = f.1 then some (Definition.field f.1 f.2) else none) =
      (fields.find? fun f => f.1 == key).map fun f => .field f.1 f.2 := by
  induction fields with
  | nil => rfl
  | cons f fields ih =>
    by_cases hkey : f.1 = key
    · simp [hkey]
    · simpa [List.find?_cons_of_neg, hkey, Ne.symm hkey] using ih

theorem findOwnMember_finds {st st₁ : SearchState} (h : memberSources p e t st = (sources, st₁)) :
    (findOwnMember p e t key st).1.map (·.definition) = definition? p sources key ∧
      ∀ info, (findOwnMember p e t key st).1 = some info → info.key = key := by
  have hfirst : (sources.owners.findSome? fun o => (p.index.member? o.1 key).map (·, o.2)).map
      (Definition.member ·.1) = sources.owners.findSome? fun o =>
        (p.index.member? o.1 key).map .member := by
    rw [List.map_findSome?]
    congr 1
    funext o
    rw [Function.comp_apply, Option.map_map]
    rfl
  rw [findOwnMember, Search.bind_apply h, definition?, ← hfirst]
  cases sources.owners.findSome? fun o => (p.index.member? o.1 key).map (·, o.2) with
  | some found => exact ⟨rfl, fun info hinfo => Option.some.inj hinfo ▸ rfl⟩
  | none =>
    change ((sources.fields.find? fun f => f.1 == key).map fun f => MemberInfo.mk f.1 f.2 none).map
      (·.definition) = _ ∧
      ∀ info, ((sources.fields.find? fun f => f.1 == key).map fun f => MemberInfo.mk f.1 f.2 none) =
      some info → info.key = key
    rw [findSome?_field, Option.map_map]
    refine ⟨rfl, fun info hinfo => ?_⟩
    obtain ⟨f, hf, rfl⟩ := Option.map_eq_some_iff.1 hinfo
    simpa using List.find?_some hf

/-- Where the search for the sources of members comes to an end, the list of all members of a type
and the lookup of one of them agree, whatever was found before either of them. Each key is listed
once, the keys that are found are those that are listed, and what is found and listed under a key is
what counts in the sources, which are in order. -/
theorem lookups_agree (p : Project) (t : Ty) (st : SearchState) (hunion : t.isUnion = false)
    (hends : HasAnswer p st fun e => memberSources p e t) :
    ∃ sources st', Collects p st [(t, {})] {} st' sources ∧ ∃ n, ∀ m, n ≤ m →
      (memberSources p (engine p m) t st).1 = sources ∧ ∀ exprs exprs' decls decls',
        let infos := (findMembers p (engine p m) t { st with exprs := exprs, decls := decls }).1
        (infos.map (·.key)).Nodup ∧ ∀ key,
          let found :=
            (findMember p (engine p m) t key { st with exprs := exprs', decls := decls' }).1
          (found.isSome = true ↔ key ∈ infos.map (·.key)) ∧
            ∀ own, found = some own → own.key = key ∧ Counts p sources key own.definition ∧
              ∀ info ∈ infos, info.key = key → info.definition = own.definition := by
  obtain ⟨n, hfuel, hsame⟩ := hends
  refine ⟨_, _, collects_memberSources hfuel, n, fun m hm => ?_⟩
  have hfirst : (memberSources p (engine p m) t st).1 = (memberSources p (engine p n) t st).1 :=
    congrArg Prod.fst (hsame m hm)
  refine ⟨hfirst, fun exprs exprs' decls decls' => ?_⟩
  obtain ⟨st₁, hall⟩ := hfirst ▸ memberSources_congr p m t st exprs decls
  obtain ⟨st₂, hone⟩ := hfirst ▸ memberSources_congr p m t st exprs' decls'
  have hlists := findMembers_lists hall
  have hown (key : MemberKey) : findMember p (engine p m) t key =
      findOwnMember p (engine p m) t key := by
    cases t <;> first | rfl | cases hunion
  refine ⟨hlists.nodup, fun key => ?_⟩
  obtain ⟨hfinds, hkey⟩ : _ = definition? p _ key ∧ _ := findOwnMember_finds hone
  rw [hown, ← hlists.isSome_iff, ← hfinds, Option.isSome_map]
  refine ⟨Iff.rfl, fun own hfound => ?_⟩
  rw [hfound, Option.map_some] at hfinds
  refine ⟨hkey own hfound, definition?_eq_some_iff.1 hfinds.symm, fun info hinfo hkey => ?_⟩
  have hlisted := (hlists.finds key info.definition).2 ⟨info, hinfo, hkey, rfl⟩
  exact Option.some.inj (hlisted.symm.trans hfinds.symm)

def memberX (name : String) (type? : Option Ty) : Member :=
  { owner := .type name, key := .name "x", doc := 0, span := ⟨0, 1⟩, node := ⟨0, 0⟩,
    source := .assign, type? := type? }

/-- A workspace where `A` extends `B` and both have a member `x`, which `A` has once without and
once with a declared type. -/
def shadows : Project :=
  let members := [memberX "A" none, memberX "A" (some .string), memberX "B" (some .integer)]
  { index := members.foldl (fun i m => i.addMember m) (({} : Index).addSuper 0 "A" (.ref "B")) }

theorem members_shadows (name : String) : shadows.index.members (.type name) =
    if name = "A" then [memberX "A" none, memberX "A" (some .string)]
    else if name = "B" then [memberX "B" (some .integer)]
    else [] := by
  have hmembers : shadows.index.members (.type name) =
      ((((({} : DocMultimap MemberOwner Member).add 0 (.type "A") (memberX "A" none)).add 0
        (.type "A") (memberX "A" (some .string))).add 0 (.type "B") (memberX "B"
        (some .integer))).withDoc
      (.type name)).map (·.2) := rfl
  rw [hmembers]
  simp only [DocMultimap.withDoc_add, DocMultimap.withDoc_empty, beq_iff_eq, MemberOwner.type.injEq]
  by_cases hA : name = "A"
  · simp [hA, insertBehind]
  by_cases hB : name = "B"
  · simp [hB, insertBehind]
  · simp [hA, hB, Ne.symm hA, Ne.symm hB]

theorem supers_shadows (name : String) : shadows.index.supers name = if "A" = name then [.ref "B"]
    else [] := by
  have hsupers : shadows.index.supers name =
      (({} : DocMultimap String Ty).add 0 "A" (.ref "B")).values name := rfl
  rw [hsupers]
  by_cases h : "A" = name <;> simp [DocMultimap.values, DocMultimap.withDoc_add, h, insertBehind]

theorem isOfClass_shadows (name : String) : isOfClass shadows (.ref name) = true := by
  have hdecl : shadows.index.typeDecl? name = ({} : TypeIndex).get? name := rfl
  simp [isOfClass, Project.isAliasName, hdecl, TypeIndex.get?]

theorem classOwners_shadows (name : String) : classOwners shadows name = [.type name] := by
  have hglobals : shadows.index.classGlobals name =
      ({} : DocMultimap String MemberOwner).values name := rfl
  rw [classOwners, hglobals, DocMultimap.values, DocMultimap.withDoc_empty, List.map_nil]

theorem memberSources_shadows (n : Nat) (st : SearchState) :
    memberSources shadows (engine shadows (n + 1)) (.ref "A") st =
      ({ owners := [(.type "A", {}), (.type "B", {})], visited := ["B", "A"] }, st) := by
  have habove (sources : MemberSources) :
      (engine shadows (n + 1)).collectSources (.ref "B") {} sources =
      collectClass shadows (engine shadows n) "B" {} sources :=
    collectSources_of_isOfClass (isOfClass_shadows "B") rfl _ sources
  have hsuper : (Ty.ref "B").instantiate {} = .ref "B" := rfl
  rw [memberSources, collectSources_of_isOfClass (isOfClass_shadows "A") rfl]
  simp only [putIn]
  rw [collectClass_of_new (by simp), supers_shadows, if_pos rfl, List.map_singleton,
    List.foldlM_cons, hsuper, habove, collectClass_of_new (by simp), supers_shadows,
    if_neg (by decide), classOwners_shadows, classOwners_shadows]
  rfl

theorem definition?_shadows {sources : MemberSources}
    (h : sources.owners = [(.type "A", {}), (.type "B", {})]) :
    definition? shadows sources (.name "x") = some (.member (memberX "A" (some .string))) := by
  simp [definition?, h, Index.member?, members_shadows, memberX]

/-- From `A` the member with a declared type is found, not the one before it nor that of `B`. -/
theorem lookups_agree_shadows :
    (Ty.ref "A").isUnion = false ∧
    HasAnswer shadows {} (fun e => memberSources shadows e (.ref "A")) ∧
      ∃ n, ∀ m, n ≤ m →
      ∃ info, (findMember shadows (engine shadows m) (.ref "A") (.name "x") {}).1 = some info ∧
        info.definition = .member (memberX "A" (some .string)) := by
  have hends : HasAnswer shadows {} (fun e => memberSources shadows e (.ref "A")) := by
    refine ⟨1, congrArg (·.2.exhausted) (memberSources_shadows 0 {}), fun m hm => ?_⟩
    obtain ⟨k, rfl⟩ := Nat.exists_eq_add_of_le' hm
    exact (memberSources_shadows k {}).trans (memberSources_shadows 0 {}).symm
  refine ⟨rfl, hends, ?_⟩
  obtain ⟨sources, -, -, n, hagree⟩ := lookups_agree shadows (.ref "A") {} rfl hends
  refine ⟨n + 1, fun m hm => ?_⟩
  obtain ⟨k, rfl⟩ := Nat.exists_eq_add_of_le' (Nat.le_of_add_left_le hm)
  obtain ⟨rfl, hagree⟩ := hagree (k + 1) (by omega)
  have hsources := memberSources_shadows k {}
  have hdefined := definition?_shadows (congrArg (·.1.owners) hsources)
  obtain ⟨hsome, hcounts⟩ := (hagree [] [] [] []).2 (.name "x")
  have hlisted := (findMembers_lists hsources).isSome_iff.1
    (Option.isSome_of_eq_some (definition?_shadows rfl))
  obtain ⟨own, hown⟩ := Option.isSome_iff_exists.1 (hsome.2 hlisted)
  refine ⟨own, hown, Option.some.inj (.trans ?_ hdefined)⟩
  exact (definition?_eq_some_iff.2 (hcounts own hown).2.1).symm

end LuaAnalysis.Inference
