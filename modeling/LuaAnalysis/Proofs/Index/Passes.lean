import LuaAnalysis.Proofs.Index.Readings
import LuaAnalysis.Proofs.Index.Writes
import LuaAnalysis.Proofs.Scope.NameBinding
import LuaAnalysis.Workspace.Analysis

namespace LuaAnalysis.Workspace

open Document LuaAnalysis.Types Scope Syntax Settings Report Index

theorem redescribes_typeParams (t : Tree) (a : Attachment) (closure : ElementId)
    (decls : DeclTree) : decls.Redescribes (typeParams t a closure decls) := by
  unfold typeParams
  refine DeclTree.redescribes_foldl (fun decls param => ?_) _ decls
  refine decls.redescribes_modifyDecl _ fun d => ?_
  exact ⟨rfl, rfl, rfl, rfl, rfl, rfl⟩

theorem redescribes_describeDecls (t : Tree) (a : Attachment) (owner : ElementId)
    (decls : DeclTree) : decls.Redescribes (describeDecls t a owner decls) := by
  unfold describeDecls
  refine DeclTree.redescribes_foldl (fun decls position => ?_) _ decls
  refine decls.redescribes_modifyDecl _ fun d => ?_
  exact ⟨rfl, rfl, rfl, rfl, rfl, rfl⟩

theorem isNode_of_mem_assignedValues {t : Tree} {node value : ElementId}
    (h : value ∈ assignedValues t node) : t.isNode value = true := by
  unfold assignedValues at h
  split at h
  · exact Tree.isNode_of_mem_exprs h
  · split at h
    · exact Tree.isNode_of_mem_exprs (List.mem_filter.1 h).1
    · exact absurd h (by simp)
  · exact Tree.isNode_of_mem_exprs (List.mem_of_getLast? (Option.mem_toList.1 h))
  · exact absurd h (by simp)

theorem isNode_of_mem_assignTargets {t : Tree} {node target : ElementId}
    (h : target ∈ assignTargets t node) : t.isNode target = true := by
  unfold assignTargets at h
  split at h
  · exact Tree.isNode_of_mem_exprs (List.mem_filter.1 h).1
  · exact absurd h (by simp)

section Comments

variable {t : Tree} {doc : DocId} {bound : DeclTree} {Owned : MemberOwner → Prop}

theorem emits_describeFunction (owner : ElementId) (a : Attachment) :
    Emits t doc bound Owned [] (describeFunction t doc owner a) := by
  unfold describeFunction
  cases definedClosure? t owner with
  | none => exact .id
  | some closure =>
    have hsignature : Emits t doc bound Owned [] fun i =>
        i.modifySignature ⟨doc, closure⟩ (describe a) :=
      .of_write fun _ => .describe closure _
    have hparams : Emits t doc bound Owned [] fun i =>
        i.modifyDeclTree doc (typeParams t a closure) :=
      .of_write fun _ => .redescribe (redescribes_typeParams t a closure)
    exact .ite (hparams.comp hsignature) .id

theorem classGlobal?_owner {a : Attachment} {decls : DeclTree} {position : Nat} {name : String}
    {owner : MemberOwner} (h : classGlobal? a decls position = some (name, owner)) :
    ∃ path, owner = .global path := by
  simp only [classGlobal?, Option.bind_eq_bind, Option.bind_eq_some_iff] at h
  obtain ⟨decl, -, className, -, hglobal⟩ := h
  split at hglobal
  · simp only [Option.some.injEq, Prod.mk.injEq] at hglobal
    exact ⟨decl.name, hglobal.2.symm⟩
  · exact absurd hglobal (by simp)

variable (howns : Admits t doc bound Owned)
include howns

theorem emits_writeClassGlobal (owner : ElementId) (a : Attachment) :
    Emits t doc bound Owned [] (writeClassGlobal t doc owner a) := by
  intro i _
  unfold writeClassGlobal
  split
  · split
    · rename_i hglobal
      obtain ⟨path, rfl⟩ := classGlobal?_owner hglobal
      exact .single (.classGlobal _ (howns.ofGlobal path))
    · exact .refl
  · exact .refl

theorem emits_applyAttachment (owner : ElementId) (a : Attachment) :
    Emits t doc bound Owned [] (applyAttachment t doc owner a) := by
  have hdecls : Emits t doc bound Owned [] fun i =>
      i.modifyDeclTree doc (describeDecls t a owner) :=
    .of_write fun _ => .redescribe (redescribes_describeDecls t a owner)
  exact (emits_writeClassGlobal howns owner a).comp (hdecls.comp (emits_describeFunction owner a))

omit howns in
theorem emits_writeReading {r : CommentReading} (hfields : ∀ m ∈ r.fields, m.Within t doc Owned) :
    Emits t doc bound Owned r.suppressions fun i => writeReading doc i r := by
  have htypes : Emits t doc bound Owned [] fun i =>
      r.typeParts.foldl (fun i e => i.addTypePart doc e.1 e.2) i :=
    .foldl_nil fun e _ => .of_write fun _ => .typePart e.1 e.2
  have hsupers : Emits t doc bound Owned [] fun i =>
      r.supers.foldl (fun i e => i.addSuper doc e.1 e.2) i :=
    .foldl_nil fun e _ => .of_write fun _ => .super e.1 e.2
  have hmembers : Emits t doc bound Owned [] fun i => r.fields.foldl Index.addMember i :=
    .foldl_nil fun m hm => .of_write fun _ => .member (hfields m hm)
  have hoperators : Emits t doc bound Owned [] fun i =>
      r.operators.foldl (fun i o => i.addOperator doc o) i :=
    .foldl_nil fun o _ => .of_write fun _ => .operator o
  have hsuppressions : Emits t doc bound Owned (r.suppressions.flatMap fun s => [s]) fun i =>
      r.suppressions.foldl (fun i s => i.addSuppression doc s) i :=
    .foldl fun s _ => .of_write fun _ => .suppression s
  have hmeta : Emits t doc bound Owned [] fun i => if r.isMeta then i.setMeta doc else i :=
    .ite (.of_write fun _ => .markMeta) .id
  have hall :=
    hmeta.comp (hsuppressions.comp (hoperators.comp (hmembers.comp (hsupers.comp htypes))))
  rw [List.flatMap_singleton'] at hall
  simp only [List.nil_append, List.append_nil] at hall
  exact hall

end Comments

namespace CommentContext

variable {c : CommentContext} {bound : DeclTree} {Owned : MemberOwner → Prop}

theorem emits_writeSignatures : Emits c.tree c.doc bound Owned [] c.writeSignatures := by
  refine .foldl_nil fun n hn => .of_write fun _ => .signature _ ?_
  exact Tree.nodeKind?_of_kind (beq_iff_eq.1 (List.mem_filter.1 hn).2) (by decide)

variable (howns : Admits c.tree c.doc bound Owned)
include howns

theorem within_readComment_fields (comment : ElementId) :
    ∀ m ∈ (c.readComment comment).fields, m.Within c.tree c.doc Owned := by
  intro m hm
  obtain ⟨tag, htag, owner, generics, hfield⟩ := c.mem_readComment_fields hm
  obtain ⟨hdoc, hnode, hvalue, howner⟩ := c.field?_eq_some hfield
  refine ⟨hdoc, ?_, by simp [hvalue], ?_⟩
  · rw [hnode]
    exact Tree.has_mk (Tree.isNode_of_mem_childNodes htag)
  · rw [howner]
    exact howns.ofType owner

theorem emits_writeComment (comment : ElementId) (known : List (ElementId × Attachment)) :
    Emits c.tree c.doc bound Owned (c.readComment comment).suppressions fun i =>
      (c.writeComment (i, known) comment).1 := by
  have hreading : Emits c.tree c.doc bound Owned (c.readComment comment).suppressions fun i =>
      writeReading c.doc i (c.readComment comment) :=
    emits_writeReading (within_readComment_fields howns comment)
  unfold writeComment
  cases c.attachedTo? comment with
  | none => exact hreading
  | some owner =>
    have hboth :=
      (emits_applyAttachment howns owner (c.readComment comment).attachment).comp hreading
    rwa [List.append_nil] at hboth

theorem writes_writeComments (comments : List ElementId)
    (state : Index × List (ElementId × Attachment)) (h : state.1.Readable c.doc bound Owned) :
    Writes c.tree c.doc bound Owned state.1
    (comments.flatMap fun n => (c.readComment n).suppressions)
    (comments.foldl c.writeComment state).1 := by
  induction comments generalizing state with
  | nil => exact .refl
  | cons comment comments ih =>
    have hfirst := emits_writeComment howns comment state.2 state.1 h
    exact hfirst.trans (ih _ (hfirst.readable h))

end CommentContext

namespace DocContext

variable {c : DocContext} {bound : DeclTree} {Owned : MemberOwner → Prop}

theorem fst_mem_of_mem_keyedFields {count : Int} {fields : List ElementId}
    {field : ElementId × MemberKey × Span} (h : field ∈ c.keyedFields count fields) :
    field.1 ∈ fields := by
  induction fields generalizing count with
  | nil => exact absurd h (by simp [keyedFields])
  | cons first rest ih =>
    rw [keyedFields] at h
    split at h
    · rcases List.mem_cons.1 h with rfl | h
      · exact .head _
      · exact .tail _ (ih h)
    · split at h
      · exact .tail _ (ih h)
      · rcases List.mem_cons.1 h with rfl | h
        · exact .head _
        · exact .tail _ (ih h)

theorem has_moduleReturn? {expr : NodeRef} (h : c.moduleReturn? = some expr) :
    c.tree.Has c.doc expr := by
  simp only [moduleReturn?, Option.bind_eq_bind, Option.bind_eq_some_iff, Option.pure_def,
    Option.some.injEq] at h
  obtain ⟨block, -, stat, -, e, he, rfl⟩ := h
  exact Tree.has_mk (Tree.isNode_of_mem_exprs (List.mem_of_head? he))

variable (hdecls : bound.Redescribes c.decls)
include hdecls

theorem emits_writeGlobals : Emits c.tree c.doc bound Owned [] c.writeGlobals := by
  refine .foldl_nil fun global hglobal => ?_
  obtain ⟨d', hd', rfl⟩ := List.mem_map.1 hglobal
  obtain ⟨hd', hkept⟩ := List.mem_filter.1 hd'
  obtain ⟨d, hd, hmore⟩ := hdecls.exists_mem (Array.mem_def.2 hd')
  have hisGlobal : d.isGlobal = true := by
    rw [Decl.isGlobal, ← hmore.kind_eq]
    exact (Bool.and_eq_true_iff.1 hkept).1
  simp only [hmore.name_eq, hmore.id_eq]
  exact .of_write fun _ => .global hd hisGlobal

variable (howns : Admits c.tree c.doc bound Owned)
include howns

theorem owned_localOwner? {ownerOf : ElementId → Option MemberOwner}
    (hownerOf : ∀ e o, ownerOf e = some o → Owned o) {decl : Decl} (hdecl : decl ∈ c.decls.decls)
    {owner : MemberOwner} (h : c.localOwner? ownerOf decl = some owner) :
    Owned owner := by
  unfold localOwner? at h
  split at h
  · obtain rfl := Option.some.inj h
    exact howns.ofType _
  · simp only [Option.bind_eq_bind, Option.bind_eq_some_iff] at h
    obtain ⟨stat, -, name, -, expr, -, hexpr⟩ := h
    exact hownerOf expr owner hexpr
  · obtain rfl := Option.some.inj h
    exact howns.ofLocal _ _
      ((hdecls.isSome_decl?_iff _).1 (DeclTree.isSome_decl?_iff.2 ⟨decl, hdecl, rfl⟩))

theorem owned_ownerDeep (fuel : Nat) (expr : ElementId) (owner : MemberOwner)
    (h : c.ownerDeep fuel expr = some owner) : Owned owner := by
  induction fuel generalizing expr owner with
  | zero => exact absurd h (by simp [ownerDeep])
  | succ fuel ih =>
    rw [ownerDeep] at h
    split at h
    · simp only [Option.bind_eq_bind, Option.bind_eq_some_iff] at h
      obtain ⟨token, -, h⟩ := h
      split at h
      · rename_i hfound
        exact owned_localOwner? hdecls howns ih (DeclTree.mem_of_findLocal? hfound) h
      · obtain rfl := Option.some.inj h
        exact howns.ofGlobal _
    · simp only [Option.bind_eq_bind, Option.bind_eq_some_iff] at h
      obtain ⟨front, -, key, -, outer, houter, hchild⟩ := h
      exact howns.child outer _ owner (ih front outer houter) hchild
    · simp only [Option.bind_eq_bind, Option.bind_eq_some_iff] at h
      obtain ⟨inner, -, hinner⟩ := h
      exact ih inner owner hinner
    · exact absurd h (by simp)

theorem owned_localOwnerOf? {decl : Decl} (hdecl : decl ∈ c.decls.decls) {owner : MemberOwner}
    (h : c.localOwnerOf? decl = some owner) : Owned owner :=
  owned_localOwner? hdecls howns (owned_ownerDeep hdecls howns c.tree.size) hdecl h

theorem owned_targetOwner? {target : ElementId} {owner : MemberOwner}
    (h : c.targetOwner? target = some owner) : Owned owner := by
  unfold targetOwner? at h
  split at h
  · simp only [Option.bind_eq_bind, Option.bind_eq_some_iff] at h
    obtain ⟨token, -, h⟩ := h
    split at h
    · obtain rfl := Option.some.inj h
      exact howns.ofGlobal _
    · obtain ⟨decl, hfound, hdecl⟩ := Option.bind_eq_some_iff.1 h
      exact owned_localOwnerOf? hdecls howns (DeclTree.mem_of_findLocal? hfound) hdecl
  · simp only [Option.bind_eq_bind, Option.bind_eq_some_iff] at h
    obtain ⟨front, -, key, -, outer, houter, hchild⟩ := h
    exact howns.child outer _ owner (owned_ownerDeep hdecls howns _ front outer houter) hchild
  · exact absurd h (by simp)

theorem within_indexMember? {target : ElementId} {value? : Option ElementId}
    {a? : Option Attachment} {m : Member} (htarget : c.tree.isNode target = true)
    (hvalue : ∀ v, value? = some v → c.tree.isNode v = true)
    (h : c.indexMember? target value? a? = some m) : m.Within c.tree c.doc Owned := by
  simp only [indexMember?, Option.bind_eq_bind, Option.bind_eq_some_iff, Option.pure_def,
    Option.some.injEq] at h
  obtain ⟨front, -, key, -, owner, howner, rfl⟩ := h
  refine ⟨rfl, Tree.has_mk htarget, fun v hv => ?_,
    owned_ownerDeep hdecls howns _ front owner howner⟩
  obtain ⟨value, hsome, rfl⟩ := Option.map_eq_some_iff.1 hv
  exact Tree.has_mk (hvalue value hsome)

omit hdecls howns

theorem emits_setOwner (value? : Option ElementId) {owner? : Option MemberOwner}
    (howner : ∀ owner, owner? = some owner → Owned owner) :
    Emits c.tree c.doc bound Owned [] (c.setOwner value? owner?) := by
  unfold setOwner
  cases value? with
  | none => exact .id
  | some value =>
    cases owner? with
    | none => exact .id
    | some owner =>
      dsimp only
      split
      · rename_i hkind
        have htable := Tree.nodeKind?_of_kind (beq_iff_eq.1 hkind) (by decide)
        exact .of_write fun _ => .tableOwner htable (howner owner rfl)
      · exact .id

theorem emits_addMember (m? : Option Member) : (∀ m, m? = some m → m.Within c.tree c.doc Owned) →
    Emits c.tree c.doc bound Owned [] fun i => match m? with
      | some m => i.addMember m
      | none => i := by
  intro h
  cases m? with
  | none => exact .id
  | some m => exact .of_write fun _ => .member (h m rfl)

include hdecls howns

theorem emits_writeLocalTable (values : List ElementId) (name : ElementId × Nat) :
    Emits c.tree c.doc bound Owned [] fun i => c.writeLocalTable values i name := by
  refine emits_setOwner _ fun owner howner => ?_
  simp only [Option.bind_eq_bind, Option.bind_eq_some_iff] at howner
  obtain ⟨token, -, decl, hdecl, howner⟩ := howner
  exact owned_localOwnerOf? hdecls howns (Array.mem_of_find?_eq_some hdecl) howner

theorem emits_writeTarget (a? : Option Attachment) {values : List ElementId}
    (hvalues : ∀ v ∈ values, c.tree.isNode v = true) {target : ElementId × Nat}
    (htarget : c.tree.isNode target.1 = true) :
    Emits c.tree c.doc bound Owned [] fun i => c.writeTarget a? values i target := by
  have howner : Emits c.tree c.doc bound Owned []
      (c.setOwner values[target.2]? (c.targetOwner? target.1)) :=
    emits_setOwner _ fun _ => owned_targetOwner? hdecls howns
  have hmember : ∀ m, c.indexMember? target.1 values[target.2]? a? = some m →
      m.Within c.tree c.doc Owned := fun _ =>
    within_indexMember? hdecls howns htarget fun v hv => hvalues v (List.mem_of_getElem? hv)
  exact (Emits.ite (emits_addMember _ hmember) .id).comp howner

theorem emits_writeMethod (stat : ElementId) :
    Emits c.tree c.doc bound Owned [] (c.writeMethod stat) := by
  refine emits_addMember _ fun m hm => ?_
  obtain ⟨name, hname, hmember⟩ := Option.bind_eq_some_iff.1 hm
  refine within_indexMember? hdecls howns
    (Tree.isNode_of_nodeKind? (Tree.nodeKind?_of_child? hname)) (fun v hv => ?_) hmember
  exact Tree.isNode_of_nodeKind? (Tree.nodeKind?_of_child? hv)

omit hdecls

theorem emits_writeField {owner : MemberOwner} (howner : Owned owner)
    {field : ElementId × MemberKey × Span} (hfield : c.tree.isNode field.1 = true) :
    Emits c.tree c.doc bound Owned [] fun i => c.writeField owner i field := by
  have hvalue : ∀ v, (c.tree.exprs field.1).getLast? = some v →
      c.tree.isNode v = true := fun v hv =>
    Tree.isNode_of_mem_exprs (List.mem_of_getLast? hv)
  have hset : Emits c.tree c.doc bound Owned []
      (c.setOwner (c.tree.exprs field.1).getLast? (owner.child? field.2.1)) :=
    emits_setOwner _ fun below hbelow => howns.child owner _ below howner hbelow
  have hmember :
      (c.member owner field.2.1 field.2.2 field.1 .tableField (c.tree.exprs field.1).getLast?
        (c.attachment? field.1)).Within c.tree c.doc Owned := by
    refine ⟨rfl, Tree.has_mk hfield, fun v hv => ?_, howner⟩
    obtain ⟨value, hsome, rfl⟩ := Option.map_eq_some_iff.1 hv
    exact Tree.has_mk (hvalue value hsome)
  exact (Emits.of_write fun _ => .member hmember).comp hset

theorem emits_writeTable {table : ElementId} (htable : c.tree.nodeKind? table = some .tableExpr) :
    Emits c.tree c.doc bound Owned [] (c.writeTable table) := by
  have hfields {owner : MemberOwner} (howner : Owned owner) :
      Emits c.tree c.doc bound Owned [] fun i =>
        (c.fieldsOf table).foldl (c.writeField owner) i := by
    refine .foldl_nil fun field hfield => emits_writeField howns howner ?_
    exact Tree.isNode_of_mem_childrenOf (fst_mem_of_mem_keyedFields hfield)
  intro i hi
  unfold writeTable
  split
  · rename_i owner hfound
    exact hfields (owned_of_tableOwner? hi hfound) i hi
  · have howner := howns.ofTable table htable
    have hset : Emits c.tree c.doc bound Owned [] fun i =>
        i.setTableOwner ⟨c.doc, table⟩ (.element ⟨c.doc, table⟩) :=
      .of_write fun _ => .tableOwner htable howner
    exact (hfields howner).comp hset i hi

omit howns

theorem emits_writeReference (node : ElementId) :
    Emits c.tree c.doc bound Owned [] (c.writeReference node) := by
  unfold writeReference
  cases c.referenceAt? node with
  | none => exact .id
  | some found => exact .of_write fun _ => .reference found.1 found.2

theorem emits_writeModuleReturn : Emits c.tree c.doc bound Owned [] c.writeModuleReturn := by
  unfold writeModuleReturn
  cases hreturn : c.moduleReturn? with
  | none => exact .id
  | some expr => exact .of_write fun _ => .moduleReturn (has_moduleReturn? hreturn)

include hdecls howns

theorem emits_writeNode (node : ElementId) : Emits c.tree c.doc bound Owned [] fun i =>
      c.writeNode i node := by
  unfold writeNode
  cases hkind : c.tree.kind node
  case localStat => exact .foldl_nil fun name _ => emits_writeLocalTable hdecls howns _ name
  case assignStat =>
    refine .ite .id (.foldl_nil fun target htarget => ?_)
    have hnode := isNode_of_mem_assignTargets (List.fst_mem_of_mem_zipIdx htarget)
    exact emits_writeTarget hdecls howns _ (fun _ => isNode_of_mem_assignedValues) hnode
  case funcStat => exact .ite .id (emits_writeMethod hdecls howns node)
  case tableExpr => exact emits_writeTable howns (Tree.nodeKind?_of_kind hkind (by decide))
  case nameExpr | indexExpr | typeName => exact emits_writeReference node
  all_goals exact .id

theorem emits_writeNodes : Emits c.tree c.doc bound Owned [] c.writeNodes := by
  have hnodes : Emits c.tree c.doc bound Owned [] fun i =>
      (c.tree.descendants Tree.root).foldl c.writeNode i :=
    .foldl_nil fun node _ => emits_writeNode hdecls howns node
  exact emits_writeModuleReturn.comp (hnodes.comp (emits_writeGlobals hdecls))

end DocContext

variable {s : Source} {bound : DeclTree} {Owned : MemberOwner → Prop}

theorem emits_writeTree (howns : Admits s.tree s.id bound Owned)
    (attachments : List (ElementId × Attachment)) :
    Emits s.tree s.id bound Owned [] (writeTree s attachments) := by
  intro i hi
  obtain ⟨decls, hdecls, hmore⟩ := hi.holds
  simp only [writeTree, hdecls]
  exact DocContext.emits_writeNodes (c := ⟨s.id, s.tree, decls, attachments⟩) hmore howns i hi

/-- What is at hand when the comments of a document are read. -/
def commentContext (settings : Settings) (s : Source) : CommentContext :=
  ⟨s.id, s.tree, s.lines, settings.runtime.version⟩

def recordedSuppressions (settings : Settings) (s : Source) : List Suppression :=
  ((s.tree.descendants Tree.root).filter fun n => s.tree.kind n == .comment).flatMap fun n =>
    ((commentContext settings s).readComment n).suppressions

theorem writes_analyze (settings : Settings) (howns : Admits s.tree s.id bound Owned) {i : Index}
    (h : (writeDecls s i).Readable s.id bound Owned) :
    Writes s.tree s.id bound Owned (writeDecls s i) (recordedSuppressions settings s)
    (analyze settings s i) := by
  let c := commentContext settings s
  have hsignatures := CommentContext.emits_writeSignatures (c := c) _ h
  have hready := hsignatures.readable h
  have hcomments := CommentContext.writes_writeComments (c := c) howns
    ((s.tree.descendants Tree.root).filter fun n => s.tree.kind n == .comment) (_, []) hready
  have htree := emits_writeTree howns (c.writeComments (c.writeSignatures (writeDecls s i))).2 _
    (hcomments.readable hready)
  have hall := hsignatures.trans (hcomments.trans htree)
  rwa [List.append_nil] at hall

theorem suppressions_writeDecls (s : Source) (i : Index) (doc : DocId) :
    (writeDecls s i).suppressions doc = i.suppressions doc := by
  unfold writeDecls
  dsimp only
  split <;> rfl

theorem declTree?_writeDecls (s : Source) (i : Index) :
    (writeDecls s i).declTree? s.id = some (bindDocument s.tree s.id) := by
  have hset : (i.setDeclTree (bindDocument s.tree s.id)).declTree? s.id =
      some (bindDocument s.tree s.id) := by
    rw [declTree?, setDeclTree, (bindDocument_belongsTo s.tree s.id).doc_eq,
      DocMap.get?_insert, if_pos rfl]
  unfold writeDecls
  split <;> exact hset

theorem holds_writeDecls (s : Source) (i : Index) :
    (writeDecls s i).Holds s.id (bindDocument s.tree s.id) :=
  ⟨bindDocument s.tree s.id, declTree?_writeDecls s i, .refl _⟩

theorem readable_writeDecls (s : Source) (i : Index) :
    (writeDecls s i).Readable s.id (bindDocument s.tree s.id) fun _ => True :=
  ⟨holds_writeDecls s i, fun _ _ _ _ => trivial⟩

theorem holds_analyze (settings : Settings) (s : Source) (i : Index) :
    (analyze settings s i).Holds s.id (bindDocument s.tree s.id) := by
  have hready := readable_writeDecls s i
  exact ((writes_analyze settings (admits_any s.tree s.id _) hready).readable hready).holds

theorem suppressions_analyze (settings : Settings) (s : Source) (i : Index) :
    (analyze settings s i).suppressions s.id = i.suppressions s.id ++
    recordedSuppressions settings s := by
  rw [(writes_analyze settings (admits_any s.tree s.id _) (readable_writeDecls s i)).suppressions,
    suppressions_writeDecls]

def usedNames (t : Tree) : List ElementId :=
  ((t.descendants Tree.root).filter fun n => t.kind n == .nameExpr).filterMap fun n =>
    t.childToken? n .name

/-- What a name means when it is asked for after the binding is what it was found to be a use of. -/
def ResolvesAsBound (t : Tree) (decls : DeclTree) : Prop :=
  ∀ token ∈ usedNames t, ∀ id, (decls.findLocal? (t.textOf token) (t.span token).start).map
    (·.id) = some id ↔
    (id, t.span token) ∈ decls.references.toList

/-- As `ResolvesAsBound`, but for the names alone that are outside the scopes in what a loop runs
over. -/
def ResolvesWhereSettled (t : Tree) (decls : DeclTree) : Prop :=
  ∀ token ∈ usedNames t, Settled t (t.span token).start → ∀ id,
    (decls.findLocal? (t.textOf token) (t.span token).start).map (·.id) = some id ↔
      (id, t.span token) ∈ decls.references.toList

theorem resolvesWhereSettled_bindDocument {t : Tree} (ht : t.Orderly) (doc : DocId) :
    ResolvesWhereSettled t (bindDocument t doc) := by
  intro token htoken hsettled id
  obtain ⟨n, hn, hk⟩ := List.mem_filterMap.1 htoken
  have hkind : t.kind n = .nameExpr := beq_iff_eq.1 (List.mem_filter.1 hn).2
  rw [findLocal?_bindDocument ht doc hkind hk hsettled, Array.mem_toList_iff]

/-- What names mean is settled with the binding. The later passes say more about the declarations
that were found, but they find no other declaration for a name and no other use of one. So a name is
found to be what it is recorded as a use of, except in a scope in what a loop runs over. -/
theorem resolution_analyze (settings : Settings) (s : Source) (i : Index) :
    ∃ decls, (analyze settings s i).declTree? s.id = some decls ∧
      decls.references = (bindDocument s.tree s.id).references ∧
      (∀ name offset, (decls.findLocal? name offset).map (·.id) =
        ((bindDocument s.tree s.id).findLocal? name offset).map (·.id)) ∧
      (s.tree = parse s.text → ResolvesWhereSettled s.tree decls) := by
  obtain ⟨decls, hdecls, hmore⟩ := holds_analyze settings s i
  refine ⟨decls, hdecls, hmore.references_eq, hmore.findLocal_id,
    fun htree token htoken hsettled id => ?_⟩
  have ht : s.tree.Orderly := htree ▸ parse_orderly s.text
  rw [hmore.findLocal_id, hmore.references_eq]
  exact resolvesWhereSettled_bindDocument ht s.id token htoken hsettled id

def besideFunction : Source :=
  .ofText 0 default "local x for k = x, (function(p) return p end)() do end"

/-- All later passes too take the name beside the function for the local before the loop. -/
theorem resolution_analyze_besideFunction : 12 ∈ usedNames besideFunction.tree ∧
    Settled besideFunction.tree (besideFunction.tree.span 12).start ∧
      ∃ decls, (analyze {} besideFunction {}).declTree? 0 = some decls ∧
        (decls.findLocal? (besideFunction.tree.textOf 12) (besideFunction.tree.span 12).start).map
        (·.id) = some ⟨0, 6⟩ := by
  obtain ⟨decls, hdecls, hreferences, -, hresolves⟩ := resolution_analyze {} besideFunction {}
  obtain ⟨htoken, hrecorded⟩ : 12 ∈ usedNames besideFunction.tree ∧
      (⟨0, 6⟩, besideFunction.tree.span 12) ∈
        (bindDocument besideFunction.tree besideFunction.id).references.toList := by decide +kernel
  have htree : besideFunction.tree.Orderly := parse_orderly besideFunction.text
  have hsettled : Settled besideFunction.tree (besideFunction.tree.span 12).start :=
    settled_of_covers htree.toWellNested (by decide +kernel) (by decide +kernel)
  rw [← hreferences] at hrecorded
  exact ⟨htoken, hsettled, decls, hdecls, (hresolves rfl 12 htoken hsettled ⟨0, 6⟩).2 hrecorded⟩

/-- A loop over what a function in its header returns. The scope of the loop is opened after that of
the function and covers it. -/
def functionInHeader : Tree := parse "for k = (function(p) return p end)(), 2 do end"

def declsInHeader : DeclTree := bindDocument functionInHeader 0

theorem not_resolvesAsBound_functionInHeader :
    ¬ ResolvesAsBound functionInHeader declsInHeader := by
  intro h
  -- together, so that the document is read only once
  obtain ⟨hused, hnoted, hlost⟩ : 21 ∈ usedNames functionInHeader ∧
      (⟨0, 18⟩, functionInHeader.span 21) ∈ declsInHeader.references.toList ∧
      (declsInHeader.findLocal? (functionInHeader.textOf 21) (functionInHeader.span 21).start).map
      (·.id) ≠ some ⟨0, 18⟩ := by decide +kernel
  exact hlost ((h 21 hused _).mpr hnoted)

end LuaAnalysis.Workspace
