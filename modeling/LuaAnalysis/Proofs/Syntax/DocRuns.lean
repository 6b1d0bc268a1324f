import LuaAnalysis.Proofs.Syntax.DocPlaces

/-!
What the combinators of the annotation grammar do to the log. A reader that ends adds a balanced
stretch with the tokens it took up; one that fails leaves what stood in the log before it.
-/

namespace LuaAnalysis.Syntax

def NodeKind.isAnnotation (kind : NodeKind) : Bool :=
  kind.isTag || kind.isType || match kind with
    | .docDescription | .docGenericDeclList | .docGenericParam | .docSuperList | .docAttribute
    | .docVisibility
    | .docTypeList | .docNamedReturn | .docAliasMember | .docDiagnosticCodeList | .docVersion
    | .docObjectField
    | .docFuncParam => true
    | _ => false

theorem NodeKind.proper_of_isAnnotation {kind : NodeKind} (h : kind.isAnnotation = true) :
    kind ≠ .absent ∧ kind ≠ .comment := by
  refine ⟨?_, ?_⟩ <;> rintro rfl <;> cases h

mutual

def Forest.Annotates : Forest → Prop
  | .nil => True
  | .token f _ _ => f.Annotates
  | .fault f _ _ => f.Annotates
  | .blank f => f.Annotates
  | .branch f b => f.Annotates ∧ b.Annotates

def Branch.Annotates : Branch → Prop
  | .node kind inside => kind.isAnnotation = true ∧ inside.Annotates
  | .around first kind inside => first.Annotates ∧ kind.isAnnotation = true ∧ inside.Annotates

end

mutual

theorem Forest.proper_of_annotates : ∀ f : Forest, f.Annotates → f.Proper true
  | .nil, _ => trivial
  | .token f _ _, hf => Forest.proper_of_annotates f hf
  | .fault f _ _, hf => Forest.proper_of_annotates f hf
  | .blank f, hf => Forest.proper_of_annotates f hf
  | .branch f b, hf => ⟨Forest.proper_of_annotates f hf.1, Branch.proper_of_annotates b hf.2⟩

theorem Branch.proper_of_annotates : ∀ b : Branch, b.Annotates → b.Proper true
  | .node _ inside, hb =>
    have hkind := NodeKind.proper_of_isAnnotation hb.1
    ⟨hkind.1, fun h => absurd h hkind.2, Forest.proper_of_annotates inside hb.2⟩
  | .around first _ inside, hb =>
    have hkind := NodeKind.proper_of_isAnnotation hb.2.1
    ⟨Branch.proper_of_annotates first hb.1, hkind.1, hkind.2,
      Forest.proper_of_annotates inside hb.2.2⟩

end

theorem Forest.annotates_append {f : Forest} (hf : f.Annotates) : ∀ g : Forest, g.Annotates →
    (f.append g).Annotates
  | .nil, _ => hf
  | .token g _ _, hg => annotates_append hf g hg
  | .fault g _ _, hg => annotates_append hf g hg
  | .blank g, hg => annotates_append hf g hg
  | .branch g _, hg => ⟨annotates_append hf g hg.1, hg.2⟩

namespace DocParser

variable {p q r : DocParser}

def Adds (p q : DocParser) : Prop :=
  ∃ f : Forest, f.Annotates ∧ q.log.toList = p.log.toList ++ f.encode ∧ Passes p f.leaves q

def AddsNode (p : DocParser) (c : ClosedNode) (q : DocParser) : Prop :=
  ∃ (f : Forest) (b : Branch), f.Annotates ∧ b.Annotates ∧
    q.log.toList = p.log.toList ++ f.encode ++ b.encode false ∧
    c.position = (p.log.toList ++ f.encode).length + b.front.length ∧
    Passes p (f.leaves ++ b.leaves) q

def Ends (p q : DocParser) : Prop := Adds p q ∧ q.kind = .docLineEnd

theorem Adds.refl (hp : p.Valid) : Adds p p := ⟨.nil, trivial, by simp [Forest.encode], .refl hp⟩

theorem Adds.valid (h : Adds p q) : q.Valid := by
  obtain ⟨f, -, -, hpasses⟩ := h
  exact hpasses.valid

theorem Adds.trans (h : Adds p q) (h' : Adds q r) : Adds p r := by
  obtain ⟨f, hf, hlog, hpasses⟩ := h
  obtain ⟨g, hg, hlog', hpasses'⟩ := h'
  refine ⟨f.append g, Forest.annotates_append hf g hg, ?_, ?_⟩
  · rw [hlog', hlog, Forest.encode_append, List.append_assoc]
  · rw [Forest.leaves_append]
    exact hpasses.trans hpasses'

theorem Ends.of_adds (h : Adds p q) (h' : Ends q r) : Ends p r := ⟨h.trans h'.1, h'.2⟩

theorem Adds.keeps (h : Adds p q) (h' : Keeps q r) : Keeps p r := by
  obtain ⟨f, -, hlog, hpasses⟩ := h
  obtain ⟨htext, events, hevents⟩ := h'
  exact ⟨htext.trans hpasses.text_eq, f.encode ++ events, by rw [hevents, hlog, List.append_assoc]⟩

theorem Keeps.refl (p : DocParser) : Keeps p p := ⟨rfl, [], by simp⟩

theorem Keeps.openNode (h : Keeps p.openNode.1 q) : Keeps p q := by
  obtain ⟨htext, events, hevents⟩ := h
  refine ⟨htext, .blank :: events, ?_⟩
  rw [hevents, DocParser.openNode, EventLog.toList_openNode, List.append_assoc]
  rfl

theorem AddsNode.adds {c : ClosedNode} (h : AddsNode p c q) : Adds p q := by
  obtain ⟨f, b, hf, hb, hlog, -, hpasses⟩ := h
  refine ⟨.branch f b, ⟨hf, hb⟩, ?_, ?_⟩
  · rw [hlog, Forest.encode, List.append_assoc]
  · rw [Forest.leaves]
    exact hpasses

theorem AddsNode.of_adds {c : ClosedNode} (h : Adds p q) (h' : AddsNode q c r) :
    AddsNode p c r := by
  obtain ⟨f, hf, hlog, hpasses⟩ := h
  obtain ⟨g, b, hg, hb, hlog', hposition, hpasses'⟩ := h'
  refine ⟨f.append g, b, Forest.annotates_append hf g hg, hb, ?_, ?_, ?_⟩
  · rw [hlog', hlog, Forest.encode_append, List.append_assoc p.log.toList]
  · rw [hposition, hlog, Forest.encode_append, List.append_assoc]
  · rw [Forest.leaves_append, List.append_assoc]
    exact hpasses.trans hpasses'

theorem adds_bump (hp : p.Valid) : Adds p p.bump := by
  by_cases hkind : p.kind = .docLineEnd
  · obtain ⟨hpasses, hlog, -⟩ := bump_at_end hp hkind
    exact ⟨.nil, trivial, by simp [hlog, Forest.encode], hpasses⟩
  · refine ⟨.token .nil p.current.kind p.current.span, trivial, ?_, passes_bump hp hkind⟩
    simp [bump, sees, hkind, Forest.encode]

theorem adds_report (hp : p.Valid) (fault : Fault) (span : Span) : Adds p (p.report fault span) :=
  ⟨.fault .nil fault span, trivial, by simp [report, EventLog.toList_report, Forest.encode],
    (Passes.refl hp).withLog _⟩

theorem adds_switch (hp : p.Valid) : Adds p p.switchToDescription := by
  obtain ⟨hpasses, hlog, -⟩ := switchToDescription_spec hp
  exact ⟨.nil, trivial, by simp [hlog, Forest.encode], hpasses⟩

theorem adds_nextLine (hp : p.Valid) (hkind : p.kind = .docLineEnd) (h : p.nextLine? = some q) :
    Adds p q := by
  obtain ⟨hpasses, hlog, -⟩ := passes_nextLine hp hkind h
  exact ⟨.nil, trivial, by simp [hlog, Forest.encode], hpasses⟩

theorem addsNode_close (h : Adds p.openNode.1 q) {kind : NodeKind}
    (hkind : kind.isAnnotation = true) :
    AddsNode p (q.close p.openNode.2 kind).2 (q.close p.openNode.2 kind).1 := by
  obtain ⟨f, hf, hlog, hpasses⟩ := h
  have hblank : q.log.toList = p.log.toList ++ .blank :: f.encode := by
    rw [hlog, DocParser.openNode, EventLog.toList_openNode, List.append_assoc]
    rfl
  have hmarker : p.openNode.2 = ⟨p.log.toList.length⟩ := by
    rw [Marker.mk.injEq, DocParser.openNode, EventLog.position_openNode, Array.length_toList]
  rw [hmarker]
  refine ⟨.nil, .node kind f, trivial, ⟨hkind, hf⟩, ?_, ?_, ?_⟩
  · rw [Forest.encode, List.append_nil]
    exact EventLog.toList_close hblank kind
  · simp [close, EventLog.close, Forest.encode, Branch.front]
  · exact hpasses.ofLog.withLog _

theorem addsNode_close_around {c : ClosedNode} (h : AddsNode p c q) (h' : Adds (q.wrap c).1 r)
    {kind : NodeKind} (hkind : kind.isAnnotation = true) :
    AddsNode p (r.close (q.wrap c).2 kind).2 (r.close (q.wrap c).2 kind).1 := by
  obtain ⟨f, b, hf, hb, hlog, hposition, hpasses⟩ := h
  obtain ⟨g, hg, hlog', hpasses'⟩ := h'
  have hclosed : c = ⟨(p.log.toList ++ f.encode).length + b.front.length⟩ := by rw [← hposition]
  have hwrap := EventLog.toList_wrap hlog
  have hblank : r.log.toList = p.log.toList ++ f.encode ++ b.encode true ++ .blank :: g.encode := by
    rw [hlog', DocParser.wrap, hclosed, hwrap]
    simp
  have hmarker : (q.wrap c).2 = ⟨(p.log.toList ++ f.encode ++ b.encode true).length⟩ := by
    rw [← EventLog.position_wrap hlog c, DocParser.wrap]
  rw [hmarker]
  refine ⟨f, .around b kind g, hf, ⟨hb, hkind, hg⟩,
    EventLog.toList_close_around hblank kind, ?_, ?_⟩
  · simp [close, EventLog.close, Branch.front]
    omega
  · rw [Branch.leaves, ← List.append_assoc]
    exact (hpasses.trans hpasses'.ofLog).withLog _

theorem keeps_wrap {c : ClosedNode} (h : AddsNode p c q) (h' : Keeps (q.wrap c).1 r) :
    Keeps p r := by
  obtain ⟨f, b, -, -, hlog, hposition, hpasses⟩ := h
  obtain ⟨htext, events, hevents⟩ := h'
  have hclosed : c = ⟨(p.log.toList ++ f.encode).length + b.front.length⟩ := by rw [← hposition]
  refine ⟨htext.trans hpasses.text_eq, f.encode ++ b.encode true ++ [.blank] ++ events, ?_⟩
  rw [hevents, DocParser.wrap, hclosed, EventLog.toList_wrap hlog]
  simp

theorem valid_openNode (hp : p.Valid) : p.openNode.1.Valid := hp.withLog _

theorem valid_wrap (hp : p.Valid) (c : ClosedNode) : (p.wrap c).1.Valid := hp.withLog _

theorem adds_finish (h : Adds p.openNode.1 q) {kind : NodeKind} (hkind : kind.isAnnotation = true) :
    Adds p (q.finish p.openNode.2 kind) := (addsNode_close h hkind).adds

theorem ends_switch_bump (hp : p.Valid) : Ends p p.switchToDescription.bump := by
  have hswitch := adds_switch hp
  exact ⟨hswitch.trans (adds_bump hswitch.valid), by rw [kind_bump, kind_next_of_switch hp]⟩

theorem kind_switch (hp : p.Valid) (h : ¬ p.switchToDescription.sees .docDescription = true) :
    p.switchToDescription.kind = .docLineEnd := by
  refine (switchToDescription_spec hp).2.2.resolve_right fun hkind => h ?_
  simp [sees, hkind.1]

theorem kind_finish (p : DocParser) (m : Marker) (kind : NodeKind) :
    (p.finish m kind).kind = p.kind := rfl

theorem ends_freeText (hp : p.Valid) : Ends p p.freeText := by
  have hswitch := adds_switch hp
  unfold freeText
  dsimp only
  split
  · refine .of_adds hswitch ⟨adds_finish (adds_bump (valid_openNode hswitch.valid)) rfl, ?_⟩
    exact (kind_bump p.switchToDescription.openNode.1).trans (kind_next_of_switch hp)
  · rename_i hsees
    exact ⟨hswitch, kind_switch hp hsees⟩

theorem ends_description (hp : p.Valid) : Ends p p.description := by
  unfold description
  split
  · rename_i hkind
    exact ⟨.refl hp, hkind⟩
  · have hopen := valid_openNode hp
    have hbump := adds_bump hopen
    dsimp only
    split
    · obtain ⟨hadds, hkind⟩ := ends_switch_bump hbump.valid
      exact ⟨adds_finish (hbump.trans hadds) rfl, (kind_finish _ _ _).trans hkind⟩
    · rename_i hsees
      have hswitch := hbump.trans (adds_switch hbump.valid)
      exact ⟨adds_finish hswitch rfl, (kind_finish _ _ _).trans (kind_switch hbump.valid hsees)⟩
  · exact ends_freeText hp

theorem ends_recover (hp : p.Valid) (e : SyntaxError) : Ends p (p.recover e) := by
  have hreport := adds_report hp e.fault e.span
  exact .of_adds hreport (ends_freeText hreport.valid)

end DocParser

open DocParser

/-- A reader that starts where `P` holds ends where `Q` holds, or fails where `E` holds. -/
def Runs {α : Type} (P : DocParser → Prop) (m : DocM α) (Q : α → DocParser → Prop)
    (E : DocParser → Prop) : Prop :=
  ∀ p, P p → match m p with
    | .ok a q => Q a q
    | .error _ q => E q

namespace Runs

variable {α β : Type} {P : DocParser → Prop} {m : DocM α} {Q : α → DocParser → Prop}
  {E F : DocParser → Prop}

theorem bind {f : α → DocM β} {R : β → DocParser → Prop} (hm : Runs P m Q E)
    (hf : ∀ a, Runs (Q a) (f a) R E) : Runs P (m >>= f) R E := by
  intro p hp
  have hstep := hm p hp
  show match EStateM.bind m f p with
    | .ok b q => R b q
    | .error _ q => E q
  unfold EStateM.bind
  cases hrun : m p with
  | ok a q =>
    rw [hrun] at hstep
    exact hf a q hstep
  | error e q =>
    rw [hrun] at hstep
    exact hstep

theorem tryCatch {handler : SyntaxError → DocM α} (hm : Runs P m Q F)
    (hh : ∀ e, Runs F (handler e) Q E) : Runs P (tryCatch m handler) Q E := by
  intro p hp
  have hstep := hm p hp
  show match EStateM.tryCatch m handler p with
    | .ok a q => Q a q
    | .error _ q => E q
  unfold EStateM.tryCatch
  cases hrun : m p with
  | ok a q =>
    rw [hrun] at hstep
    exact hstep
  | error e q =>
    rw [hrun] at hstep
    exact hh e q hstep

theorem mono {P' : DocParser → Prop} {Q' : α → DocParser → Prop} (h : Runs P m Q E)
    (hP : ∀ p, P' p → P p) (hQ : ∀ a q, Q a q → Q' a q) (hE : ∀ q, E q → F q) : Runs P' m Q' F := by
  intro p hp
  have hstep := h p (hP p hp)
  cases hrun : m p with
  | ok a q =>
    rw [hrun] at hstep
    exact hQ a q hstep
  | error e q =>
    rw [hrun] at hstep
    exact hE q hstep

theorem modify {f : DocParser → DocParser} {R : DocParser → Prop} (h : ∀ p, P p → R (f p)) :
    Runs P (modify f : DocM Unit) (fun _ => R) E := h

theorem pure {a : α} (h : ∀ p, P p → Q a p) : Runs P (Pure.pure a : DocM α) Q E := h

theorem get {Q : DocParser → DocParser → Prop} (h : ∀ p, P p → Q p p) :
    Runs P (MonadState.get : DocM DocParser) Q E := h

theorem read_bind {m : DocM α} {g : DocParser → α} {f : α → DocM β} {R : β → DocParser → Prop}
    (hm : ∀ p, m p = .ok (g p) p) (h : ∀ p, P p → Runs (· = p) (f (g p)) R E) :
    Runs P (m >>= f) R E := by
  intro p hp
  have hstep := h p hp p rfl
  show match EStateM.bind m f p with
    | .ok b q => R b q
    | .error _ q => E q
  unfold EStateM.bind
  rw [hm]
  exact hstep

theorem throw {e : SyntaxError} (h : ∀ p, P p → E p) :
    Runs P (MonadExcept.throw e : DocM α) Q E := h

end Runs

/-- A reader that adds balanced stretches to the log, and keeps what stood there if it fails. -/
def Sound {α : Type} (mayFail : Prop) (m : DocM α) : Prop :=
  ∀ p₀, Runs (Adds p₀) m (fun _ => Adds p₀) fun q => mayFail ∧ Keeps p₀ q

def SoundNode (mayFail : Prop) (m : DocM ClosedNode) : Prop :=
  ∀ p₀, Runs (Adds p₀) m (AddsNode p₀) fun q => mayFail ∧ Keeps p₀ q

def SoundBehind (mayFail : Prop) (c : ClosedNode) (m : DocM ClosedNode) : Prop :=
  ∀ p₀, Runs (AddsNode p₀ c) m (AddsNode p₀) fun q => mayFail ∧ Keeps p₀ q

section

variable {α β : Type} {mayFail : Prop} {m : DocM α} {single : DocM ClosedNode} {body : DocM Unit}

theorem Sound.bind {f : α → DocM β} (hm : Sound mayFail m) (hf : ∀ a, Sound mayFail (f a)) :
    Sound mayFail (m >>= f) :=
  fun p₀ => (hm p₀).bind fun a => hf a p₀

theorem Sound.bind_node {f : α → DocM ClosedNode} (hm : Sound mayFail m)
    (hf : ∀ a, SoundNode mayFail (f a)) : SoundNode mayFail (m >>= f) :=
  fun p₀ => (hm p₀).bind fun a => hf a p₀

theorem SoundNode.bind {f : ClosedNode → DocM ClosedNode} (hm : SoundNode mayFail single)
    (hf : ∀ c, SoundBehind mayFail c (f c)) : SoundNode mayFail (single >>= f) :=
  fun p₀ => (hm p₀).bind fun c => hf c p₀

theorem SoundBehind.bind {f : ClosedNode → DocM ClosedNode} {c : ClosedNode}
    (hm : SoundBehind mayFail c single) (hf : ∀ c, SoundBehind mayFail c (f c)) :
    SoundBehind mayFail c (single >>= f) :=
  fun p₀ => (hm p₀).bind fun c => hf c p₀

def Looks (m : DocM α) : Prop := ∀ P E, Runs P m (fun _ => P) E

theorem looks_get : Looks (get : DocM DocParser) := fun _ _ => .get fun _ => id

theorem looks_kind : Looks DocM.kind := fun _ _ => (looks_get _ _).bind fun _ => .pure fun _ => id

theorem looks_sees (kind : TokenKind) : Looks (DocM.sees kind) :=
  fun _ _ => (looks_get _ _).bind fun _ => .pure fun _ => id

theorem looks_currentText : Looks DocM.currentText :=
  fun _ _ => (looks_get _ _).bind fun _ => .pure fun _ => id

theorem Looks.sound (h : Looks m) : Sound mayFail m := fun _ => h _ _

theorem Looks.bind_behind {f : α → DocM ClosedNode} {c : ClosedNode} (hm : Looks m)
    (hf : ∀ a, SoundBehind mayFail c (f a)) : SoundBehind mayFail c (m >>= f) :=
  fun p₀ => (hm _ _).bind fun a => hf a p₀

theorem SoundNode.sound (h : SoundNode mayFail single) : Sound mayFail single :=
  fun p₀ => (h p₀).mono (fun _ => id) (fun _ _ hq => hq.adds) fun _ => id

theorem sound_pure (a : α) : Sound mayFail (pure a : DocM α) := fun _ => .pure fun _ => id

theorem soundBehind_pure (c : ClosedNode) : SoundBehind mayFail c (pure c) :=
  fun _ => .pure fun _ => id

theorem sound_modify {f : DocParser → DocParser} (h : ∀ p, p.Valid → Adds p (f p)) :
    Sound mayFail (modify f : DocM Unit) :=
  fun _ => .modify fun p hp => hp.trans (h p hp.valid)

theorem Sound.discard (h : Sound mayFail m) : Sound mayFail (discard m) := by
  have hbind : Functor.discard m = m >>= fun _ => pure PUnit.unit := rfl
  exact hbind ▸ h.bind fun _ => sound_pure _

theorem sound_get : Sound mayFail (get : DocM DocParser) := looks_get.sound

theorem sound_kind : Sound mayFail DocM.kind := looks_kind.sound

theorem sound_sees (kind : TokenKind) : Sound mayFail (DocM.sees kind) := (looks_sees kind).sound

theorem sound_bump : Sound mayFail DocM.bump := sound_modify fun _ => adds_bump

theorem sound_description : Sound mayFail DocM.description :=
  sound_modify fun _ hp => (ends_description hp).1

theorem sound_freeText : Sound mayFail DocM.freeText :=
  sound_modify fun _ hp => (ends_freeText hp).1

theorem runs_fail (p₀ : DocParser) (fault : Fault) (Q : α → DocParser → Prop) :
    Runs (Adds p₀) (DocM.fail fault) Q fun q => True ∧ Keeps p₀ q :=
  (looks_get _ _).bind fun _ => .throw fun p hp => ⟨trivial, hp.keeps (.refl p)⟩

theorem sound_fail (fault : Fault) : Sound True (DocM.fail fault : DocM α) :=
  fun p₀ => runs_fail p₀ fault _

theorem sound_eat (kind : TokenKind) : Sound mayFail (DocM.eat kind) := by
  refine (sound_sees kind).bind fun b => ?_
  cases b
  · exact sound_pure _
  · exact sound_bump.bind fun _ => sound_pure _

theorem sound_expect (kind : TokenKind) : Sound True (DocM.expect kind) := by
  refine (sound_eat kind).bind fun b => ?_
  cases b
  · exact sound_get.bind fun _ => sound_fail _
  · exact sound_pure _

theorem sound_whenEaten (kind : TokenKind) (h : Sound mayFail body) :
    Sound mayFail (DocM.whenEaten kind body) := by
  refine (sound_eat kind).bind fun b => ?_
  cases b
  · exact sound_pure _
  · exact h

theorem sound_unlessSees (kind : TokenKind) (h : Sound mayFail body) :
    Sound mayFail (DocM.unlessSees kind body) := by
  refine (sound_sees kind).bind fun b => ?_
  cases b
  · exact h
  · exact sound_pure _

theorem sound_nameOrDots : Sound True DocM.nameOrDots := by
  refine (sound_eat .dots).bind fun b => ?_
  cases b
  · exact sound_expect .name
  · exact sound_pure _

theorem nodeOf_apply (body : DocM NodeKind) (p : DocParser) : DocM.nodeOf body p =
    match body p.openNode.1 with
    | .ok kind q => .ok (q.close p.openNode.2 kind).2 (q.close p.openNode.2 kind).1
    | .error e q => .error e q := by
  show EStateM.bind body _ p.openNode.1 = _
  unfold EStateM.bind
  cases body p.openNode.1 <;> rfl

theorem nodeAround_apply (c : ClosedNode) (kind : NodeKind) (body : DocM Unit) (p : DocParser) :
    DocM.nodeAround c kind body p =
      match body (p.wrap c).1 with
      | .ok _ q => .ok (q.close (p.wrap c).2 kind).2 (q.close (p.wrap c).2 kind).1
      | .error e q => .error e q := by
  show EStateM.bind body _ (p.wrap c).1 = _
  unfold EStateM.bind
  cases body (p.wrap c).1 <;> rfl

theorem node_eq (kind : NodeKind) (body : DocM Unit) :
    DocM.node kind body = discard (DocM.nodeOf (body >>= fun _ => pure kind)) := by
  funext p
  show EStateM.bind body _ p.openNode.1 = EStateM.map _ (DocM.nodeOf (EStateM.bind body _)) p
  unfold EStateM.map
  rw [nodeOf_apply]
  unfold EStateM.bind
  cases body p.openNode.1 <;> rfl

def SoundKind (mayFail : Prop) (body : DocM NodeKind) : Prop :=
  ∀ p₀, Runs (Adds p₀) body (fun kind q => Adds p₀ q ∧ kind.isAnnotation = true) fun q =>
    mayFail ∧ Keeps p₀ q

theorem soundKind_pure {kind : NodeKind} (hkind : kind.isAnnotation = true) :
    SoundKind mayFail (pure kind) := fun _ => .pure fun _ hp => ⟨hp, hkind⟩

theorem Sound.bind_kind {f : α → DocM NodeKind} (hm : Sound mayFail m)
    (hf : ∀ a, SoundKind mayFail (f a)) : SoundKind mayFail (m >>= f) :=
  fun p₀ => (hm p₀).bind fun a => hf a p₀

theorem sound_nodeOf {body : DocM NodeKind} (h : SoundKind mayFail body) :
    SoundNode mayFail (DocM.nodeOf body) := by
  intro p₀ p hp
  have hbody := h p.openNode.1 p.openNode.1 (.refl (valid_openNode hp.valid))
  rw [nodeOf_apply]
  cases hrun : body p.openNode.1 with
  | ok kind q =>
    rw [hrun] at hbody
    exact .of_adds hp (addsNode_close hbody.1 hbody.2)
  | error e q =>
    rw [hrun] at hbody
    exact ⟨hbody.1, hp.keeps hbody.2.openNode⟩

theorem sound_node {kind : NodeKind} (hkind : kind.isAnnotation = true) (h : Sound mayFail body) :
    Sound mayFail (DocM.node kind body) := by
  rw [node_eq]
  exact (sound_nodeOf (h.bind_kind fun _ => soundKind_pure hkind)).sound.discard

theorem sound_nodeAround {c : ClosedNode} {kind : NodeKind} (hkind : kind.isAnnotation = true)
    (h : Sound mayFail body) : SoundBehind mayFail c (DocM.nodeAround c kind body) := by
  intro p₀ p hp
  have hbody := h (p.wrap c).1 (p.wrap c).1 (.refl (valid_wrap hp.adds.valid c))
  rw [nodeAround_apply]
  cases hrun : body (p.wrap c).1 with
  | ok _ q =>
    rw [hrun] at hbody
    exact addsNode_close_around hp hbody hkind
  | error e q =>
    rw [hrun] at hbody
    exact ⟨hbody.1, keeps_wrap hp hbody.2⟩

theorem adds_withDepth {p q : DocParser} (h : Adds p q) (depth : Nat) :
    Adds p { q with depth := depth } := by
  obtain ⟨f, hf, hlog, hpasses⟩ := h
  exact ⟨f, hf, hlog, hpasses.withDepth depth⟩

theorem sound_nested (h : Sound mayFail body) : Sound mayFail (DocM.nested body) := by
  have hdeeper : ∀ p, p.Valid → Adds p (DocM.deeper p) := fun p hp => adds_withDepth (.refl hp) _
  have hhigher : ∀ p, p.Valid → Adds p (DocM.higher p) := fun p hp => adds_withDepth (.refl hp) _
  refine (sound_modify hdeeper).bind fun _ =>
    Sound.bind (fun p₀ => (h p₀).tryCatch fun e => ?_) fun _ =>
      sound_modify hhigher
  -- what failed inside fails outside, with the depth restored
  exact (Runs.modify fun p hp => ⟨hp.1, hp.2.text_eq, hp.2.log_eq⟩).bind fun _ => .throw fun _ => id

theorem sound_repeatWhile {step : DocM Bool} (h : Sound mayFail step) (n : Nat) :
    Sound mayFail (DocM.repeatWhile step n) := by
  induction n with
  | zero => exact sound_pure _
  | succ n ih =>
    refine h.bind fun b => ?_
    cases b
    · exact sound_pure _
    · exact ih

theorem sound_commaSeparated (h : Sound mayFail body) : Sound mayFail (DocM.commaSeparated body) :=
  sound_get.bind fun _ => sound_repeatWhile (h.bind fun _ => sound_eat _) _

end

end LuaAnalysis.Syntax
