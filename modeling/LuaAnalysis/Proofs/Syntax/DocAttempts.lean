import LuaAnalysis.Proofs.Syntax.DocGrammar
import LuaAnalysis.Proofs.Syntax.DocProgress

/-!
What is tried where annotations are read, and taken back if it fails: a tag, a member of an alias,
and a field behind a word that may be its visibility. Nothing of it remains, neither in the log nor
in the place, the lexer or the depth.
-/

namespace LuaAnalysis.Syntax

open DocParser

def LeavesNoTrace {α : Type} (p : DocParser) (m : DocM α) : Prop :=
  ∀ {e q}, m p = .error e q → q.rollback p.checkpoint = p

def KeepsDepth {α : Type} (m : DocM α) : Prop :=
  ∀ d, Runs (fun p => p.Valid ∧ p.depth = d) m (fun _ q => q.Valid ∧ q.depth = d)
    fun q => q.depth = d

section

variable {α β : Type} {m m' : DocM α} {p q : DocParser} {n : Nat}

theorem leavesNoTrace (hp : p.Valid) (hsound : Sound True m) (hdepth : KeepsDepth m) :
    LeavesNoTrace p m := by
  intro e q hrun
  have hkeeps := hsound p p (.refl hp)
  have hsame := hdepth p.depth p ⟨hp, rfl⟩
  rw [hrun] at hkeeps hsame
  rw [rollback_checkpoint hp hkeeps.2, hsame]

theorem KeepsDepth.bind {f : α → DocM β} (hm : KeepsDepth m) (hf : ∀ a, KeepsDepth (f a)) :
    KeepsDepth (m >>= f) :=
  fun d => (hm d).bind fun a => hf a d

theorem keepsDepth_of_alike (h : ∀ n, ReadsAlike n m m) : KeepsDepth m := by
  rintro d p ⟨hp, rfl⟩
  have hagree := h (p.left + 1) p hp (Nat.lt_succ_self _)
  cases hrun : m p with
  | ok a q => exact ⟨(hagree.ok hrun).1.valid, (hagree.ok hrun).1.depth_eq⟩
  | error e q => exact hagree.error hrun

theorem keepsDepth_pure (a : α) : KeepsDepth (pure a : DocM α) :=
  keepsDepth_of_alike fun _ => alike_pure a

theorem KeepsDepth.discard (h : KeepsDepth m) : KeepsDepth (discard m) := by
  have hbind : Functor.discard m = m >>= fun _ => pure PUnit.unit := rfl
  exact hbind ▸ h.bind fun _ => keepsDepth_pure _

theorem KeepsDepth.nodeOf {body : DocM NodeKind} (h : KeepsDepth body) :
    KeepsDepth (DocM.nodeOf body) := by
  rintro d p ⟨hp, hd⟩
  have hbody := h d p.openNode.1 ⟨valid_openNode hp, hd⟩
  rw [nodeOf_apply]
  cases hrun : body p.openNode.1 with
  | ok kind q =>
    rw [hrun] at hbody
    exact ⟨hbody.1.withLog _, hbody.2⟩
  | error e q =>
    rw [hrun] at hbody
    exact hbody

theorem AgreeAt.of_eq {Q : α → DocParser → Prop} (h : m p = m' p) (hm : AgreeAt p m' m' Q) :
    AgreeAt p m m Q :=
  ⟨rfl, fun hr => hm.ok (h.symm.trans hr), fun hr => hm.error (h.symm.trans hr)⟩

theorem AgreeAt.of_ok {Q : α → DocParser → Prop} {a : α} (h : m p = .ok a q) (hstays : Stays p q)
    (hQ : Q a q) : AgreeAt p m m Q where
  eq := rfl
  ok hr := by
    cases h.symm.trans hr
    exact ⟨hstays, hQ⟩
  error hr := by cases h.symm.trans hr

theorem tryCatch_ok {handler : SyntaxError → DocM α} {a : α} (h : m p = .ok a q) :
    tryCatch m handler p = .ok a q := by
  show EStateM.tryCatch m handler p = _
  unfold EStateM.tryCatch
  rw [h]

theorem tryCatch_error {handler : SyntaxError → DocM α} {e : SyntaxError} (h : m p = .error e q) :
    tryCatch m handler p = handler e q := by
  show EStateM.tryCatch m handler p = _
  unfold EStateM.tryCatch
  rw [h]
  rfl

end

namespace Doc

open DocM DocType

variable {p q : DocParser} {e : SyntaxError} {n : Nat}

def memberAttempt : DocM Unit :=
  node .docAliasMember do
    bump
    DocType.type
    description

theorem alike_memberAttempt : ReadsAlike n memberAttempt memberAttempt :=
  ReadsAlike.node (alike_bump.bind fun _ => alike_type.bind fun _ => alike_description) _

theorem leavesNoTrace_memberAttempt (hp : p.Valid) : LeavesNoTrace p memberAttempt := by
  refine leavesNoTrace hp ?_ (keepsDepth_of_alike fun _ => alike_memberAttempt)
  exact sound_node rfl (sound_bump.bind fun _ => sound_type.bind fun _ => sound_description)

theorem aliasMember_of_ok (h : memberAttempt p = .ok () q) : aliasMember p = .ok () q :=
  tryCatch_ok h

theorem aliasMember_of_error (hp : p.Valid) (h : memberAttempt p = .error e q) :
    aliasMember p = .ok () (p.bump.recover e) := by
  have hcatch : aliasMember p = .ok () ((q.rollback p.checkpoint).bump.recover e) :=
    tryCatch_error h
  rw [hcatch, leavesNoTrace_memberAttempt hp h]

theorem alike_aliasMember : ReadsAlike n aliasMember aliasMember := by
  intro p hp _
  cases hrun : memberAttempt p with
  | ok _ q =>
    have hmember : aliasMember p = memberAttempt p := (aliasMember_of_ok hrun).trans hrun.symm
    exact .of_eq hmember (alike_memberAttempt p hp (Nat.lt_succ_self _))
  | error e q =>
    exact .of_ok (aliasMember_of_error hp hrun) (stays_recover (stays_bump (.refl hp)) e) trivial

def visibleField : DocM Unit := do
  node .docVisibility bump
  fieldRest

/-- Whether a field may start with its visibility here. -/
def seesVisibility (p : DocParser) : Bool := p.sees .name && visibilityWords.contains p.currentText

theorem alike_visibleField : ReadsAlike n visibleField visibleField :=
  (alike_bump.node _).bind fun _ => alike_fieldRest

theorem leavesNoTrace_visibleField (hp : p.Valid) : LeavesNoTrace p visibleField := by
  refine leavesNoTrace hp ?_ (keepsDepth_of_alike fun _ => alike_visibleField)
  exact (sound_node rfl sound_bump).bind fun _ => sound_fieldRest

theorem field_apply (p : DocParser) : field p =
    (if seesVisibility p then
      tryCatch visibleField fun _ => do
        modify fun q => q.rollback p.checkpoint
        fieldRest
    else fieldRest : DocM Unit) p := by
  have hsees : DocM.sees .name p = .ok (p.sees .name) p := rfl
  have htext : DocM.currentText p = .ok p.currentText p := rfl
  rw [field, bind_apply, hsees]
  dsimp only
  rw [bind_apply, htext]
  dsimp only
  rw [seesVisibility]
  split
  · rfl
  · rfl

theorem field_of_ok (hsees : seesVisibility p = true) (h : visibleField p = .ok () q) :
    field p = .ok () q := by
  rw [field_apply, if_pos hsees, tryCatch_ok h]

theorem field_of_error (hp : p.Valid) (hsees : seesVisibility p = true)
    (h : visibleField p = .error e q) : field p = fieldRest p := by
  rw [field_apply, if_pos hsees, tryCatch_error h]
  show fieldRest (q.rollback p.checkpoint) = _
  rw [leavesNoTrace_visibleField hp h]

theorem alike_field : ReadsAlike n field field := by
  intro p hp hn
  by_cases hsees : seesVisibility p = true
  · cases hrun : visibleField p with
    | ok _ q => exact .of_eq ((field_of_ok hsees hrun).trans hrun.symm) (alike_visibleField p hp hn)
    | error e q => exact .of_eq (field_of_error hp hsees hrun) (alike_fieldRest p hp hn)
  · have hplain : field p = fieldRest p := by rw [field_apply, if_neg hsees]
    exact .of_eq hplain (alike_fieldRest p hp hn)

theorem alike_needLineEnd : ReadsAlike n needLineEnd needLineEnd := by
  refine (alike_sees _).bind fun b => ?_
  cases b
  · exact alike_fail _
  · exact alike_pure _

theorem nextLine_getD (hp : p.Valid) : (p.nextLine?.getD p).Valid ∧
    (p.nextLine?.getD p).depth = p.depth := by
  unfold nextLine?
  split
  · rename_i line later hlater
    have hlines : ∀ l ∈ line :: later, IsComment p.text l :=
      fun l hl => hp.lines l (List.mem_cons_of_mem _ (hlater ▸ hl))
    exact ⟨(atLine_spec hlines).1, by simp⟩
  · exact ⟨hp, rfl⟩

theorem keepsDepth_aliasLines (n : Nat) : KeepsDepth (aliasLines n) := by
  induction n with
  | zero => exact keepsDepth_pure _
  | succ n ih =>
    intro d
    refine Runs.read_bind (fun _ => rfl) fun p hp => ?_
    split
    · have hset : Runs (· = p) (set (p.nextLine?.getD p) : DocM Unit) (fun _ q => q.Valid ∧
          q.depth = d)
          fun q => q.depth = d := by
        rintro _ rfl
        exact ⟨(nextLine_getD hp.1).1, (nextLine_getD hp.1).2.trans hp.2⟩
      have hmember : KeepsDepth (aliasMember >>= fun _ => needLineEnd >>= fun _ => aliasLines n) :=
        (keepsDepth_of_alike fun _ => alike_aliasMember).bind fun _ =>
          (keepsDepth_of_alike fun _ => alike_needLineEnd).bind fun _ => ih
      exact hset.bind fun _ => hmember d
    · exact .pure fun _ h => h ▸ hp

theorem alike_aliasHead : ReadsAlike n aliasHead aliasHead :=
  (alike_expect _).bind fun _ => alike_genericDeclList.bind fun _ => alike_aliasType.bind fun _ =>
    alike_description

theorem keepsDepth_aliasBody : KeepsDepth aliasBody := by
  rw [aliasBody_eq]
  refine (keepsDepth_of_alike fun _ => alike_aliasHead).bind fun _ => ?_
  exact (keepsDepth_of_alike fun _ => alike_get).bind fun p => keepsDepth_aliasLines p.later.length

theorem keepsDepth_tagBody (word : TokenKind) : KeepsDepth (tagBody word) := by
  have hthen : ∀ {m : DocM Unit} {kind : NodeKind}, (∀ n, ReadsAlike n m m) →
      KeepsDepth (m >>= fun _ => pure kind) :=
    fun h => (keepsDepth_of_alike h).bind fun _ => keepsDepth_pure _
  have hdescribed : ∀ {m : DocM Unit} {kind : NodeKind}, (∀ n, ReadsAlike n m m) →
      KeepsDepth (m >>= fun _ => description >>= fun _ => pure kind) :=
    fun h => (keepsDepth_of_alike h).bind fun _ => hthen fun _ => alike_description
  unfold tagBody
  split
  · exact hthen fun _ => alike_classLike
  · exact hthen fun _ => alike_classLike
  · exact hthen fun _ => alike_enumeration
  · exact keepsDepth_aliasBody.bind fun _ => keepsDepth_pure _
  · exact hthen fun _ => alike_field
  · exact hthen fun _ => alike_param
  · exact hthen fun _ => alike_results
  · exact hthen fun _ => alike_typeList
  · exact hdescribed fun _ => alike_genericParams
  · exact hdescribed fun _ => alike_type
  · exact hthen fun _ => alike_diagnostic
  · exact hdescribed fun _ => alike_expect _
  · exact hthen fun _ => alike_versions
  · exact hthen fun _ => alike_operator
  · exact hthen fun _ => alike_freeText
  · exact hthen fun _ => alike_freeText
  · exact hthen fun _ => alike_description
  · exact hthen fun _ => alike_description
  · exact hthen fun _ => alike_freeText
  · exact hthen fun _ => alike_description
  · exact hthen fun _ => alike_freeText

def tagAttempt (word : TokenKind) : DocM Unit :=
  discard (nodeOf do
    bump
    tagBody word)

theorem leavesNoTrace_tagAttempt (hp : p.Valid) (word : TokenKind) :
    LeavesNoTrace p (tagAttempt word) := by
  refine leavesNoTrace hp
    (sound_nodeOf (sound_bump.bind_kind fun _ => soundKind_tagBody word)).sound.discard ?_
  exact ((keepsDepth_of_alike fun _ => alike_bump).bind fun _ =>
    keepsDepth_tagBody word).nodeOf.discard

theorem tag_of_error (hp : p.Valid) (h : tagAttempt p.kind p = .error e q) :
    tag p = .ok () ((p.openNode.1.bump.recover e).finish p.openNode.2 .docTagOther) := by
  have hcatch : tag p = .ok () (failedTag p.checkpoint e q) := tryCatch_error h
  rw [hcatch, failedTag, leavesNoTrace_tagAttempt hp _ h]

end Doc

end LuaAnalysis.Syntax
