import LuaAnalysis.Proofs.Syntax.DocRuns

namespace LuaAnalysis.Syntax

open DocParser

namespace DocType

open DocM

variable {single : DocM ClosedNode} {type : DocM Unit}

theorem sound_unionOf (h : SoundNode True single) : SoundNode True (unionOf single) := by
  refine h.bind fun first => (looks_sees _).bind_behind fun b => ?_
  cases b
  · exact soundBehind_pure first
  · refine looks_get.bind_behind fun p => sound_nodeAround rfl (sound_repeatWhile ?_ _)
    refine (sound_eat _).bind fun b => ?_
    cases b
    · exact sound_pure _
    · exact h.sound.discard.bind fun _ => sound_pure _

theorem sound_marks (n : Nat) (c : ClosedNode) : SoundBehind True c (marks n c) := by
  induction n generalizing c with
  | zero => exact soundBehind_pure c
  | succ n ih =>
    refine looks_kind.bind_behind fun kind => ?_
    split
    · exact (sound_nodeAround rfl (sound_bump.bind fun _ => sound_expect _)).bind ih
    · exact (sound_nodeAround rfl sound_bump).bind ih
    · exact soundBehind_pure c

theorem sound_funParam (h : Sound True type) : Sound True (funParam type) := by
  refine sound_node rfl ?_
  refine sound_nameOrDots.bind fun _ => ?_
  refine (sound_eat _).discard.bind fun _ => ?_
  exact sound_whenEaten _ (sound_nested h)

theorem sound_funResults (h : Sound True type) : Sound True (funResults type) := by
  refine sound_get.bind fun p => ?_
  split
  · exact sound_commaSeparated (sound_nested h)
  · exact sound_nested h

theorem sound_funType (h : Sound True type) : Sound True (funType type) := by
  refine sound_bump.bind fun _ => ?_
  refine (sound_unlessSees _ (sound_commaSeparated (sound_funParam h))).bind fun _ => ?_
  exact (sound_expect _).bind fun _ => sound_whenEaten _ (sound_funResults h)

theorem sound_objectKey (h : Sound True type) : Sound True (objectKey type) := by
  refine sound_kind.bind fun kind => ?_
  split
  · exact sound_bump
  · exact sound_bump
  · exact sound_bump
  · exact sound_bump.bind fun _ => h.bind fun _ => sound_expect _
  · exact sound_fail _

theorem sound_objectField (h : Sound True type) : Sound True (objectField type) := by
  refine sound_node rfl ((sound_objectKey h).bind fun _ => ?_)
  exact (sound_eat _).discard.bind fun _ => (sound_expect _).bind fun _ => h

theorem sound_objectFields (h : Sound True type) : Sound True (objectFields type) := by
  refine sound_get.bind fun p => sound_repeatWhile ((sound_sees _).bind fun b => ?_) _
  cases b
  · exact (sound_objectField h).bind fun _ => sound_eat _
  · exact sound_pure _

theorem sound_namedKind (h : Sound True type) : SoundKind True (namedKind type) := by
  refine looks_currentText.sound.bind_kind fun word => sound_bump.bind_kind fun _ => ?_
  split
  · exact soundKind_pure rfl
  split
  · refine (sound_sees _).bind_kind fun b => ?_
    cases b
    · exact soundKind_pure rfl
    · exact (sound_funType h).bind_kind fun _ => soundKind_pure rfl
  · refine (sound_eat _).bind_kind fun b => ?_
    cases b
    · exact soundKind_pure rfl
    · refine (sound_nested (sound_commaSeparated h)).bind_kind fun _ => ?_
      exact (sound_expect _).bind_kind fun _ => soundKind_pure rfl

theorem sound_variadicBase (h : SoundNode True single) : Sound True (variadicBase single) := by
  refine sound_kind.bind fun kind => ?_
  split
  · exact h.sound.discard
  · exact h.sound.discard
  · exact h.sound.discard
  · exact sound_pure _

theorem sound_primaryKind (h : SoundNode True single) : SoundKind True (primaryKind single) := by
  have htype := (sound_unionOf h).sound.discard
  refine sound_kind.bind_kind fun kind => ?_
  split
  · exact sound_namedKind htype
  · exact sound_bump.bind_kind fun _ => soundKind_pure rfl
  · exact sound_bump.bind_kind fun _ => soundKind_pure rfl
  · exact sound_bump.bind_kind fun _ => soundKind_pure rfl
  · refine sound_bump.bind_kind fun _ => (sound_nested htype).bind_kind fun _ => ?_
    exact (sound_expect _).bind_kind fun _ => soundKind_pure rfl
  · refine sound_bump.bind_kind fun _ => ?_
    refine (sound_unlessSees _ (sound_nested (sound_commaSeparated htype))).bind_kind fun _ => ?_
    exact (sound_expect _).bind_kind fun _ => soundKind_pure rfl
  · refine sound_bump.bind_kind fun _ =>
      (sound_nested (sound_objectFields htype)).bind_kind fun _ => ?_
    exact (sound_expect _).bind_kind fun _ => soundKind_pure rfl
  · exact sound_bump.bind_kind fun _ => (sound_variadicBase h).bind_kind fun _ => soundKind_pure rfl
  · exact fun p₀ => runs_fail p₀ _ _

theorem sound_single (n : Nat) : SoundNode True (DocType.single n) := by
  induction n with
  | zero => exact sound_kind.bind_node fun _ p₀ => runs_fail p₀ _ _
  | succ n ih =>
    refine sound_get.bind_node fun p => (sound_nodeOf (sound_primaryKind ih)).bind fun c => ?_
    exact sound_marks _ c

theorem sound_type : Sound True DocType.type :=
  sound_get.bind fun _ => (sound_unionOf (sound_single _)).sound.discard

end DocType

namespace Doc

open DocM DocType

variable {mayFail : Prop} {p q : DocParser}

theorem sound_attributes : Sound True attributes := by
  refine (sound_sees _).bind fun b => ?_
  cases b
  · exact sound_pure _
  · refine sound_node rfl (sound_bump.bind fun _ => ?_)
    exact (sound_commaSeparated (sound_expect _)).bind fun _ => sound_expect _

theorem sound_genericParams : Sound True genericParams := by
  refine sound_commaSeparated (sound_node rfl ((sound_expect _).bind fun _ => ?_))
  exact sound_whenEaten _ (sound_nested sound_type)

theorem sound_genericDeclList : Sound True genericDeclList := by
  refine (sound_sees _).bind fun b => ?_
  cases b
  · exact sound_pure _
  · exact sound_node rfl (sound_bump.bind fun _ => sound_genericParams.bind fun _ => sound_expect _)

theorem sound_classLike : Sound True classLike := by
  refine sound_attributes.bind fun _ => (sound_expect _).bind fun _ =>
    sound_genericDeclList.bind fun _ => ?_
  refine (sound_whenEaten _ (sound_node rfl (sound_commaSeparated sound_type))).bind fun _ => ?_
  exact sound_description

theorem sound_enumeration : Sound True enumeration := by
  refine sound_attributes.bind fun _ => (sound_expect _).bind fun _ => ?_
  exact (sound_whenEaten _ sound_type).bind fun _ => sound_description

theorem adds_rollback (hp : p.Valid) (h : Keeps p q) : Adds p (q.rollback p.checkpoint) := by
  rw [rollback_checkpoint hp h]
  exact adds_withDepth (.refl hp) _

theorem runs_tryCatch {m : DocM Unit} (hm : Sound True m) (hp : p.Valid)
    {handler : SyntaxError → DocParser → DocParser} (h : ∀ e q, Keeps p q → Adds p (handler e q))
    {E : DocParser → Prop} :
    Runs (· = p) (tryCatch m fun e => modify (handler e)) (fun _ => Adds p) E := by
  refine Runs.tryCatch (F := Keeps p) ((hm p).mono ?_ (fun _ _ => id) fun _ => And.right) fun e =>
    .modify (h e)
  rintro _ rfl
  exact .refl hp

theorem adds_failedMember (hp : p.Valid) (h : Keeps p q) (e : SyntaxError) :
    Adds p ((q.rollback p.checkpoint).bump.recover e) := by
  have hback := adds_rollback hp h
  have hbump := hback.trans (adds_bump hback.valid)
  exact hbump.trans (ends_recover hbump.valid e).1

theorem sound_aliasMember : Sound mayFail aliasMember := by
  refine fun p₀ => Runs.read_bind (fun _ => rfl) fun p hp => ?_
  refine (runs_tryCatch ?_ hp.valid fun e q h => adds_failedMember hp.valid h e).mono (fun _ => id)
    (fun _ _ => hp.trans) fun _ => id
  exact sound_node rfl (sound_bump.bind fun _ => sound_type.bind fun _ => sound_description)

theorem runs_needLineEnd (p₀ : DocParser) :
    Runs (Adds p₀) needLineEnd (fun _ => Ends p₀) fun q => True ∧ Keeps p₀ q := by
  refine Runs.read_bind (fun _ => rfl) fun p hp => ?_
  split
  · rename_i hsees
    exact .pure fun _ h => h ▸ ⟨hp, by simpa [DocParser.sees] using hsees⟩
  · exact (runs_fail p₀ _ _).mono (fun _ h => h ▸ hp) (fun _ _ => id) fun _ => id

theorem adds_nextLine_getD (h : Ends p q) : Adds p (q.nextLine?.getD q) := by
  cases hnext : q.nextLine? with
  | none => exact h.1
  | some r => exact h.1.trans (adds_nextLine h.1.valid h.2 hnext)

theorem runs_aliasLines (p₀ : DocParser) (n : Nat) :
    Runs (Ends p₀) (aliasLines n) (fun _ => Adds p₀) fun q => True ∧ Keeps p₀ q := by
  induction n with
  | zero => exact .pure fun _ h => h.1
  | succ n ih =>
    refine Runs.read_bind (fun _ => rfl) fun p hp => ?_
    split
    · have hset : Runs (· = p) (set (p.nextLine?.getD p) : DocM Unit) (fun _ => Adds p₀) fun q =>
          True ∧ Keeps p₀ q :=
        fun _ _ => adds_nextLine_getD hp
      exact hset.bind fun _ => (sound_aliasMember p₀).bind fun _ =>
        (runs_needLineEnd p₀).bind fun _ => ih
    · exact .pure fun _ h => h ▸ hp.1

theorem runs_description (p₀ : DocParser) (E : DocParser → Prop) :
    Runs (Adds p₀) description (fun _ => Ends p₀) E :=
  .modify fun _ hp => .of_adds hp (ends_description hp.valid)

theorem sound_aliasType : Sound True aliasType := by
  refine (sound_sees _).bind fun _ => (sound_sees _).bind fun _ => ?_
  split
  · exact sound_pure _
  · exact sound_type

def aliasHead : DocM Unit := do
  expect .name
  genericDeclList
  aliasType
  description

theorem aliasBody_eq : aliasBody = (do aliasHead; aliasLines (← get).later.length) := by
  simp only [aliasBody, aliasHead, bind_assoc]

theorem runs_aliasHead (p₀ : DocParser) :
    Runs (Adds p₀) aliasHead (fun _ => Ends p₀) fun q => True ∧ Keeps p₀ q := by
  refine (sound_expect _ p₀).bind fun _ => (sound_genericDeclList p₀).bind fun _ =>
    (sound_aliasType p₀).bind fun _ => ?_
  exact runs_description p₀ _

theorem sound_aliasBody : Sound True aliasBody := by
  rw [aliasBody_eq]
  exact fun p₀ => (runs_aliasHead p₀).bind fun _ => (looks_get _ _).bind fun _ =>
    runs_aliasLines p₀ _

theorem sound_fieldKey : Sound True fieldKey := by
  refine (sound_eat _).bind fun b => ?_
  cases b
  · exact sound_expect _
  · exact (sound_nested sound_type).bind fun _ => sound_expect _

theorem sound_fieldRest : Sound True fieldRest := by
  refine sound_fieldKey.bind fun _ => (sound_eat _).discard.bind fun _ => ?_
  exact sound_type.bind fun _ => sound_description

theorem sound_field : Sound True field := by
  refine (sound_sees _).bind fun _ => looks_currentText.sound.bind fun _ => ?_
  split
  · refine fun p₀ => Runs.read_bind (fun _ => rfl) fun p hp => ?_
    have htry : Sound True (node .docVisibility bump >>= fun _ => fieldRest) :=
      (sound_node rfl sound_bump).bind fun _ => sound_fieldRest
    have hfirst : Runs (· = p) (node .docVisibility bump >>= fun _ => fieldRest) (fun _ => Adds p₀)
        (Keeps p) := by
      refine (htry p).mono ?_ (fun _ _ => hp.trans) fun _ => And.right
      rintro _ rfl
      exact .refl hp.valid
    refine hfirst.tryCatch fun _ => ?_
    exact (Runs.modify fun q h => hp.trans (adds_rollback hp.valid h)).bind fun _ =>
      sound_fieldRest p₀
  · exact sound_fieldRest

theorem sound_param : Sound True param := by
  refine sound_nameOrDots.bind fun _ => (sound_eat _).discard.bind fun _ => ?_
  exact sound_type.bind fun _ => sound_description

theorem sound_results : Sound True results := by
  refine (sound_commaSeparated (sound_node rfl ?_)).bind fun _ => sound_description
  exact sound_type.bind fun _ => (sound_eat _).discard

theorem sound_typeList : Sound True typeList :=
  (sound_commaSeparated sound_type).bind fun _ => sound_description

theorem sound_diagnostic : Sound True diagnostic := by
  refine (sound_expect _).bind fun _ => sound_whenEaten _ (sound_node rfl ?_)
  exact sound_commaSeparated (sound_expect _)

theorem sound_versionRange : Sound True versionRange := by
  refine (sound_eat _).bind fun b => ?_
  cases b
  · exact (sound_eat _).discard
  · exact sound_pure _

theorem sound_versionNumber : Sound True versionNumber := by
  refine sound_kind.bind fun kind => ?_
  split
  · exact sound_bump
  · exact sound_bump
  · exact sound_bump
  · exact sound_fail _

theorem sound_versions : Sound True versions := by
  refine (sound_commaSeparated (sound_node rfl ?_)).bind fun _ => sound_description
  exact sound_versionRange.bind fun _ => sound_versionNumber

theorem sound_operator : Sound True operator := by
  refine (sound_expect _).bind fun _ => (sound_whenEaten _ ?_).bind fun _ =>
    (sound_whenEaten _ sound_type).bind fun _ =>
      sound_description
  refine (sound_node rfl (sound_unlessSees _ (sound_commaSeparated (sound_nested sound_type)))).bind
    fun _ => ?_
  exact sound_expect _

theorem soundKind_tagBody (word : TokenKind) : SoundKind True (tagBody word) := by
  have hthen : ∀ {m : DocM Unit} {kind : NodeKind}, Sound True m → kind.isAnnotation = true →
      SoundKind True (m >>= fun _ => pure kind) :=
        fun hm hkind => hm.bind_kind fun _ => soundKind_pure hkind
  unfold tagBody
  split
  · exact hthen sound_classLike rfl
  · exact hthen sound_classLike rfl
  · exact hthen sound_enumeration rfl
  · exact hthen sound_aliasBody rfl
  · exact hthen sound_field rfl
  · exact hthen sound_param rfl
  · exact hthen sound_results rfl
  · exact hthen sound_typeList rfl
  · exact sound_genericParams.bind_kind fun _ => hthen sound_description rfl
  · exact sound_type.bind_kind fun _ => hthen sound_description rfl
  · exact hthen sound_diagnostic rfl
  · exact (sound_expect _).bind_kind fun _ => hthen sound_description rfl
  · exact hthen sound_versions rfl
  · exact hthen sound_operator rfl
  · exact hthen sound_freeText rfl
  · exact hthen sound_freeText rfl
  · exact hthen sound_description rfl
  · exact hthen sound_description rfl
  · exact hthen sound_freeText rfl
  · exact hthen sound_description rfl
  · exact hthen sound_freeText rfl

theorem adds_failedTag (hp : p.Valid) (h : Keeps p q) (e : SyntaxError) :
    Adds p (failedTag p.checkpoint e q) := by
  have hback := adds_rollback hp h
  have hopen := valid_openNode hback.valid
  have hbump := adds_bump hopen
  exact hback.trans (adds_finish (hbump.trans (ends_recover hbump.valid e).1) rfl)

theorem sound_tag : Sound mayFail tag := by
  refine fun p₀ => Runs.read_bind (fun _ => rfl) fun p hp => ?_
  refine Runs.bind (looks_kind _ _) fun word => ?_
  have htag : Sound True (discard (nodeOf (bump >>= fun _ => tagBody word))) :=
    (sound_nodeOf (sound_bump.bind_kind fun _ => soundKind_tagBody word)).sound.discard
  exact (runs_tryCatch htag hp.valid fun e q h => adds_failedTag hp.valid h e).mono (fun _ => id)
    (fun _ _ => hp.trans) fun _ => id

theorem sound_lineStart : Sound mayFail lineStart := by
  refine (sound_sees _).bind fun b => ?_
  cases b
  · exact sound_bump
  · exact sound_aliasMember

theorem sound_lineBody : Sound mayFail lineBody := by
  refine sound_kind.bind fun kind => ?_
  split
  · exact sound_tag
  split
  · exact sound_node rfl sound_bump
  split
  · exact sound_bump
  · exact sound_pure _

theorem runs_lineRest (p₀ : DocParser) :
    Runs (Adds p₀) lineRest (fun _ => Ends p₀) fun _ => False := by
  refine Runs.read_bind (fun _ => rfl) fun p hp => ?_
  split
  · rename_i hsees
    exact .pure fun _ h => h ▸ ⟨hp, by simpa [DocParser.sees] using hsees⟩
  · refine .modify ?_
    rintro p rfl
    have hreport :=
      hp.trans (adds_report hp.valid (.unexpectedInComment p.currentText) p.current.span)
    exact .of_adds hreport (ends_switch_bump hreport.valid)

theorem runs_line (p₀ : DocParser) : Runs (Adds p₀) line (fun _ => Ends p₀) fun _ => False := by
  have hcertain : ∀ {m : DocM Unit}, Sound False m →
      Runs (Adds p₀) m (fun _ => Adds p₀) fun _ => False :=
    fun h => (h p₀).mono (fun _ => id) (fun _ _ => id) fun _ => And.left
  exact (hcertain sound_lineStart).bind fun _ => (hcertain sound_lineBody).bind fun _ =>
    runs_lineRest p₀

theorem runs_lines {n : Nat} (hp : p.Valid) (hn : p.later.length < n) :
    Runs (· = p) (lines n) (fun _ q => Ends p q ∧ q.later = []) fun _ => False := by
  induction n generalizing p with
  | zero => omega
  | succ n ih =>
    refine Runs.bind (Q := fun _ => Ends p)
      ((runs_line p).mono ?_ (fun _ _ => id) fun _ => id) fun _ => ?_
    · rintro _ rfl
      exact .refl hp
    refine Runs.read_bind (fun _ => rfl) fun q hq => ?_
    have hle : q.later.length ≤ p.later.length := by
      obtain ⟨f, -, -, hpasses⟩ := hq.1
      exact hpasses.later_le
    split
    · rename_i r hnext
      obtain ⟨hpasses, -, hlt⟩ := passes_nextLine hq.1.valid hq.2 hnext
      have hset : Runs (· = q) (set r : DocM Unit) (fun _ => (· = r)) fun _ => False :=
        fun _ _ => rfl
      refine hset.bind fun _ =>
        (ih hpasses.valid (by omega)).mono (fun _ => id) (fun _ s hs => ?_) fun _ => id
      exact ⟨.of_adds (hq.1.trans (adds_nextLine hq.1.valid hq.2 hnext)) hs.1, hs.2⟩
    · rename_i hnext
      refine .pure ?_
      rintro _ rfl
      refine ⟨hq, ?_⟩
      unfold nextLine? at hnext
      split at hnext
      · cases hnext
      · assumption

theorem parseComments_cons {text : String} {log : EventLog} {first : Span} {later : List Span}
    {p : DocParser}
    (h : (lines (first :: later).length).run (.ofLines text log first later) = .ok () p) :
    parseComments text (first :: later) log = p.log := by
  unfold parseComments
  dsimp only
  generalize (lines (first :: later).length).run (.ofLines text log first later) = r at h ⊢
  subst h
  rfl

theorem parseComments_spec {text : String} {comments : List Span}
    (hcomments : ∀ c ∈ comments, IsComment text c) (log : EventLog) : ∃ f : Forest, f.Annotates ∧
      (parseComments text comments log).toList = log.toList ++ f.encode ∧
      CoversLines text comments f.leaves := by
  cases comments with
  | nil =>
    have hparse : parseComments text [] log = log := rfl
    exact ⟨.nil, trivial, by simp [hparse, Forest.encode], by simp [CoversLines, Forest.leaves]⟩
  | cons first later =>
    obtain ⟨hvalid, hcompletes⟩ := ofLines_spec hcomments log
    obtain ⟨p, hp, hlog, hlater⟩ : ∃ p, ofLines text log first later = p ∧ p.log = log ∧
        p.later = later :=
      ⟨_, rfl, by simp, by simp⟩
    rw [hp] at hvalid hcompletes
    have hlines := runs_lines (n := (first :: later).length) hvalid (by simp [hlater]) _ rfl
    cases hrun : lines (first :: later).length p with
    | ok _ q =>
      rw [parseComments_cons (hp ▸ hrun)]
      rw [hrun] at hlines
      obtain ⟨⟨⟨f, hf, hadds, hpasses⟩, hkind⟩, hdone⟩ := hlines
      have hrest : q.Completes [] := by
        rw [completes_at_end hpasses.valid hkind, hdone]
        rfl
      refine ⟨f, hf, hlog ▸ hadds, ?_⟩
      exact hcompletes (by simpa using hpasses.completes hrest)
    | error e q =>
      rw [hrun] at hlines
      exact hlines.elim

end Doc

end LuaAnalysis.Syntax
