import LuaAnalysis.Proofs.Index.Part
import LuaAnalysis.Proofs.Index.Readings
import LuaAnalysis.Workspace.Analysis

namespace LuaAnalysis.Workspace

open Document LuaAnalysis.Types Scope Syntax Settings Report Index

variable {doc : DocId}

theorem local_writeDecls (s : Source) : Local s.id (writeDecls s) := by
  have htree : Local s.id fun i => i.setDeclTree (bindDocument s.tree s.id) :=
    local_setDeclTree (bindDocument_belongsTo s.tree s.id)
  unfold writeDecls
  cases s.path? with
  | none => exact htree
  | some path => exact (local_addModule s.id path).comp htree

theorem local_writeReading {r : CommentReading} (hfields : ∀ m ∈ r.fields, m.doc = doc) :
    Local doc fun i => writeReading doc i r := by
  have htypes : Local doc fun i => r.typeParts.foldl (fun i e => i.addTypePart doc e.1 e.2) i :=
    .foldl fun _ _ => local_addTypePart _ _ _
  have hsupers : Local doc fun i => r.supers.foldl (fun i e => i.addSuper doc e.1 e.2) i :=
    .foldl fun _ _ => local_addSuper _ _ _
  have hmembers : Local doc fun i => r.fields.foldl Index.addMember i :=
    .foldl fun m hm => hfields m hm ▸ local_addMember m
  have hoperators : Local doc fun i => r.operators.foldl (fun i o => i.addOperator doc o) i :=
    .foldl fun _ _ => local_addOperator _ _
  have hsuppressions : Local doc fun i =>
      r.suppressions.foldl (fun i s => i.addSuppression doc s) i :=
    .foldl fun _ _ => local_addSuppression _ _
  have hmeta : Local doc fun i => if r.isMeta then i.setMeta doc else i :=
    .ite (local_setMeta doc) .id
  exact hmeta.comp (hsuppressions.comp (hoperators.comp (hmembers.comp (hsupers.comp htypes))))

theorem typeParams_belongsTo {t : Tree} {a : Attachment} {closure : ElementId} {decls : DeclTree}
    (h : decls.BelongsTo doc) : (typeParams t a closure decls).BelongsTo doc := by
  unfold typeParams
  induction paramTypes t a closure generalizing decls with
  | nil => exact h
  | cons p ps ih => exact ih (h.modifyDecl _ fun _ => rfl)

theorem describeDecls_belongsTo {t : Tree} {a : Attachment} {owner : ElementId} {decls : DeclTree}
    (h : decls.BelongsTo doc) : (describeDecls t a owner decls).BelongsTo doc := by
  unfold describeDecls
  induction (declaredPositions t owner).zipIdx generalizing decls with
  | nil => exact h
  | cons p ps ih => exact ih (h.modifyDecl _ fun _ => rfl)

theorem local_describeFunction (t : Tree) (owner : ElementId) (a : Attachment) :
    Local doc (describeFunction t doc owner a) := by
  unfold describeFunction
  cases definedClosure? t owner with
  | none => exact .id
  | some closure =>
    have hparams : Local doc fun i => i.modifyDeclTree doc (typeParams t a closure) :=
      local_modifyDeclTree fun _ => typeParams_belongsTo
    exact .ite (hparams.comp (local_modifySignature ⟨doc, closure⟩ (describe a))) .id

theorem local_writeClassGlobal (t : Tree) (owner : ElementId) (a : Attachment) :
    Local doc (writeClassGlobal t doc owner a) := by
  unfold writeClassGlobal
  cases (declaredPositions t owner).head? with
  | none => exact .id
  | some position =>
    refine .of_agree fun i _ => ?_
    cases hdecls : i.declTree? doc with
    | none => exact ⟨_, .id, fun j hij => by simp only [← declTree?_congr hij, hdecls]⟩
    | some decls =>
      cases hglobal : classGlobal? a decls position with
      | none => exact ⟨_, .id, fun j hij => by simp only [← declTree?_congr hij, hdecls, hglobal]⟩
      | some found =>
        refine ⟨_, local_addClassGlobal doc found.1 found.2, fun j hij => ?_⟩
        simp only [← declTree?_congr hij, hdecls, hglobal]

theorem local_applyAttachment (t : Tree) (owner : ElementId) (a : Attachment) :
    Local doc (applyAttachment t doc owner a) := by
  have hdecls : Local doc fun i => i.modifyDeclTree doc (describeDecls t a owner) :=
    local_modifyDeclTree fun _ => describeDecls_belongsTo
  exact (local_writeClassGlobal t owner a).comp (hdecls.comp (local_describeFunction t owner a))

namespace CommentContext

variable (c : CommentContext)

theorem readComment_fields_doc (comment : ElementId) :
    ∀ m ∈ (c.readComment comment).fields, m.doc = c.doc := by
  intro m hm
  obtain ⟨tag, -, owner, generics, hfield⟩ := c.mem_readComment_fields hm
  exact (c.field?_eq_some hfield).1

theorem local_writeSignatures : Local c.doc c.writeSignatures :=
  .foldl fun n _ => local_addSignature ⟨c.doc, n⟩ (bareSignature c.tree n)

theorem writeComment_attachments (comment : ElementId) (i j : Index)
    (known : List (ElementId × Attachment)) :
    (c.writeComment (i, known) comment).2 = (c.writeComment (j, known) comment).2 := by
  unfold writeComment
  cases c.attachedTo? comment <;> rfl

theorem local_writeComment (comment : ElementId) (known : List (ElementId × Attachment)) :
    Local c.doc fun i => (c.writeComment (i, known) comment).1 := by
  have hreading : Local c.doc fun i => writeReading c.doc i (c.readComment comment) :=
    local_writeReading (c.readComment_fields_doc comment)
  unfold writeComment
  cases c.attachedTo? comment with
  | none => exact hreading
  | some owner => exact (local_applyAttachment c.tree owner _).comp hreading

theorem foldl_writeComment (comments : List ElementId) (known : List (ElementId × Attachment)) :
    (Local c.doc fun i => (comments.foldl c.writeComment (i, known)).1) ∧
      ∀ i j, (comments.foldl c.writeComment (i, known)).2 =
      (comments.foldl c.writeComment (j, known)).2 := by
  induction comments generalizing known with
  | nil => exact ⟨.id, fun _ _ => rfl⟩
  | cons comment comments ih =>
    -- what is known after the first comment is the same for every index, so the rest is one step
    obtain ⟨later, hlater⟩ : ∃ later, ∀ i, (c.writeComment (i, known) comment).2 = later :=
      ⟨_, fun i => c.writeComment_attachments comment i {} known⟩
    have hsplit : ∀ i, (comment :: comments).foldl c.writeComment (i, known) =
        comments.foldl c.writeComment ((c.writeComment (i, known) comment).1, later) := fun i => by
      rw [List.foldl_cons, ← hlater i]
    obtain ⟨hlocal, hsame⟩ := ih later
    simp only [hsplit]
    exact ⟨hlocal.comp (c.local_writeComment comment known), fun i j => hsame _ _⟩

theorem local_writeComments : Local c.doc fun i => (c.writeComments i).1 :=
  (c.foldl_writeComment _ []).1

theorem writeComments_attachments (i j : Index) : (c.writeComments i).2 = (c.writeComments j).2 :=
  (c.foldl_writeComment _ []).2 i j

end CommentContext

namespace DocContext

variable (c : DocContext)

theorem local_writeGlobals (h : c.decls.BelongsTo c.doc) : Local c.doc c.writeGlobals := by
  refine .foldl fun global hglobal => ?_
  obtain ⟨d, hd, rfl⟩ := List.mem_map.1 hglobal
  exact h.id_doc d (List.mem_filter.1 hd).1 ▸ local_addGlobal d.name d.id

theorem local_setOwner (value? : Option ElementId) (owner? : Option MemberOwner) :
    Local c.doc (c.setOwner value? owner?) := by
  unfold setOwner
  cases value? with
  | none => exact .id
  | some value =>
    cases owner? with
    | none => exact .id
    | some owner => exact .ite (local_setTableOwner ⟨c.doc, value⟩ owner) .id

theorem indexMember?_doc {target : ElementId} {value? : Option ElementId} {a? : Option Attachment}
    {m : Member} (h : c.indexMember? target value? a? = some m) : m.doc = c.doc := by
  simp only [indexMember?, Option.bind_eq_bind, Option.bind_eq_some_iff, Option.pure_def,
    Option.some.injEq] at h
  obtain ⟨front, -, key, -, owner, -, rfl⟩ := h
  rfl

theorem local_addIndexMember (m? : Option Member) : (∀ m, m? = some m → m.doc = doc) →
    Local doc fun i => match m? with
      | some m => i.addMember m
      | none => i := by
  intro h
  cases m? with
  | none => exact .id
  | some m => exact h m rfl ▸ local_addMember m

theorem local_writeTarget (a? : Option Attachment) (values : List ElementId)
    (target : ElementId × Nat) : Local c.doc fun i => c.writeTarget a? values i target := by
  have howner := c.local_setOwner values[target.2]? (c.targetOwner? target.1)
  have hmember := local_addIndexMember (c.indexMember? target.1 values[target.2]? a?) fun _ =>
    c.indexMember?_doc
  exact (Local.ite hmember .id).comp howner

theorem local_writeMethod (stat : ElementId) : Local c.doc (c.writeMethod stat) := by
  refine local_addIndexMember _ fun m hm => ?_
  obtain ⟨name, -, hname⟩ := Option.bind_eq_some_iff.1 hm
  exact c.indexMember?_doc hname

theorem local_writeField (owner : MemberOwner) (field : ElementId × MemberKey × Span) :
    Local c.doc fun i => c.writeField owner i field := by
  unfold writeField
  exact (local_addMember (c.member owner _ _ _ _ _ _)).comp (c.local_setOwner _ _)

theorem local_writeTable (table : ElementId) : Local c.doc (c.writeTable table) := by
  have hfields (owner : MemberOwner) : Local c.doc fun i =>
      (c.fieldsOf table).foldl (c.writeField owner) i :=
    .foldl fun field _ => c.local_writeField owner field
  unfold writeTable
  refine .of_agree fun i _ => ?_
  cases howner : i.tableOwner? ⟨c.doc, table⟩ with
  | some owner => exact ⟨_, hfields owner,
      fun j hij => by simp only [← tableOwner?_congr hij, howner]⟩
  | none =>
    let owner := MemberOwner.element ⟨c.doc, table⟩
    refine ⟨_, (hfields owner).comp (local_setTableOwner ⟨c.doc, table⟩ owner), fun j hij => ?_⟩
    simp only [← tableOwner?_congr hij, howner, owner]

theorem local_writeReference (node : ElementId) : Local c.doc (c.writeReference node) := by
  unfold writeReference
  cases c.referenceAt? node with
  | none => exact .id
  | some found => exact local_addReference c.doc found.1 found.2

theorem local_writeNode (node : ElementId) : Local c.doc fun i => c.writeNode i node := by
  unfold writeNode
  cases c.tree.kind node
  case localStat => exact .foldl fun name _ => c.local_setOwner _ _
  case assignStat => exact .ite .id (.foldl fun target _ => c.local_writeTarget _ _ target)
  case funcStat => exact .ite .id (c.local_writeMethod node)
  case tableExpr => exact c.local_writeTable node
  case nameExpr | indexExpr | typeName => exact c.local_writeReference node
  all_goals exact .id

theorem local_writeModuleReturn : Local c.doc c.writeModuleReturn := by
  unfold writeModuleReturn
  cases c.moduleReturn? with
  | none => exact .id
  | some expr => exact local_setModuleReturn c.doc expr

theorem local_writeNodes (h : c.decls.BelongsTo c.doc) : Local c.doc c.writeNodes := by
  have hnodes : Local c.doc fun i => (c.tree.descendants Tree.root).foldl c.writeNode i :=
    .foldl fun node _ => c.local_writeNode node
  exact c.local_writeModuleReturn.comp (hnodes.comp (c.local_writeGlobals h))

end DocContext

theorem local_writeTree (s : Source) (attachments : List (ElementId × Attachment)) :
    Local s.id (writeTree s attachments) := by
  unfold writeTree
  refine .of_agree fun i hi => ?_
  cases hdecls : i.declTree? s.id with
  | none => exact ⟨_, .id, fun j hij => by simp only [← declTree?_congr hij, hdecls]⟩
  | some decls =>
    refine ⟨_, DocContext.local_writeNodes ⟨s.id, s.tree, decls, attachments⟩ (hi decls hdecls),
      fun j hij => ?_⟩
    simp only [← declTree?_congr hij, hdecls]

theorem local_analyze (settings : Settings) (s : Source) : Local s.id (analyze settings s) := by
  let comments : CommentContext := ⟨s.id, s.tree, s.lines, settings.runtime.version⟩
  have hcomments : Local s.id fun i =>
      (comments.writeComments (comments.writeSignatures (writeDecls s i))).1 :=
    comments.local_writeComments.comp (comments.local_writeSignatures.comp (local_writeDecls s))
  let attachments := (comments.writeComments {}).2
  have heq : analyze settings s = fun i =>
      writeTree s attachments
        (comments.writeComments (comments.writeSignatures (writeDecls s i))).1 := by
    funext i
    have hsame := comments.writeComments_attachments (comments.writeSignatures (writeDecls s i)) {}
    simp only [analyze, attachments, ← hsame]
    rfl
  rw [heq]
  exact (local_writeTree s attachments).comp hcomments

end LuaAnalysis.Workspace
