import Mathlib.Data.List.Induction
import LuaAnalysis.Proofs.Index.Locality
import LuaAnalysis.Proofs.Index.Passes

/-!
What the comments at a statement or field do to the index. What is declared about a member is taken
from the last comment alone. A plain one may stay unread unless it stands behind other comments
there, whose word it takes.
-/

namespace LuaAnalysis.Workspace

open Document LuaAnalysis.Types Scope Settings Syntax Index

theorem Index.Local.parts_eq {doc : DocId} {f : Index → Index} {i j : Index} (hf : Local doc f)
    (hi : (i.part doc).OwnsDecls doc) (h : ∀ d, i.part d = j.part d) (d : DocId) :
    (f i).part d = (f j).part d := by
  by_cases hd : d = doc
  · subst hd
    exact hf.determined i j hi (h d)
  · rw [hf.frame i hi d hd, hf.frame j (h doc ▸ hi) d hd, h d]

theorem foldl_keeps {α β : Type} (store : Index → β) {step : Index → α → Index} {as : List α}
    (h : ∀ a ∈ as, ∀ i : Index, store (step i a) = store i) (i : Index) :
    store (as.foldl step i) = store i := by
  induction as generalizing i with
  | nil => rfl
  | cons a as ih =>
    obtain ⟨ha, has⟩ := List.forall_mem_cons.1 h
    exact (ih has (step i a)).trans (ha i)

theorem modifyDecl_id (decls : DeclTree) (id : DeclId) {f : Decl → Decl} (hf : ∀ d, f d = d) :
    decls.modifyDecl id f = decls := by
  simp [DeclTree.modifyDecl, hf]

theorem describeDecl_nothing (index : Nat) (decl : Decl) : describeDecl {} index decl = decl := by
  cases decl
  simp [describeDecl]

theorem describeDecls_nothing (t : Tree) (owner : ElementId) (decls : DeclTree) :
    describeDecls t {} owner decls = decls := by
  unfold describeDecls
  induction (declaredPositions t owner).zipIdx with
  | nil => rfl
  | cons position rest ih =>
    rw [List.foldl_cons]
    dsimp only
    rwa [modifyDecl_id decls _ (describeDecl_nothing position.2)]

theorem part_modifyDeclTree_id {i : Index} (doc : DocId) {f : DeclTree → DeclTree}
    (hf : ∀ decls, f decls = decls) (d : DocId) : (i.modifyDeclTree doc f).part d = i.part d := by
  cases htree : i.declTrees.get? doc with
  | none => simp [modifyDeclTree, htree]
  | some decls => by_cases hd : d = doc <;>
      simp [part, modifyDeclTree, htree, DocMap.get?_insert, hd, hf]

theorem part_applyAttachment_nothing (t : Tree) (doc : DocId) (owner : ElementId) (i : Index)
    (d : DocId) : (applyAttachment t doc owner {} i).part d = i.part d := by
  have hfunction : describeFunction t doc owner {} i = i := by
    unfold describeFunction
    split <;> rfl
  have hglobal (j : Index) : writeClassGlobal t doc owner {} j = j := by
    unfold writeClassGlobal
    split
    · rename_i position decls _ _
      cases hdecl : decls.declAt? position <;> simp [classGlobal?, hdecl]
    · rfl
  rw [applyAttachment, hfunction, hglobal]
  exact part_modifyDeclTree_id doc (describeDecls_nothing t owner) d

namespace CommentContext

variable (c : CommentContext)

def comments : List ElementId := (c.tree.descendants Tree.root).filter fun n =>
  c.tree.kind n == .comment

/-- The comments that stand at a statement or field. -/
def commentsOf (owner : ElementId) : List ElementId :=
  (c.tree.descendants Tree.root).filter fun n =>
    c.tree.kind n == .comment && c.attachedTo? n == some owner

def commentsBut (comment : ElementId) : List ElementId := c.comments.filter fun n => n != comment

/-- A comment in which nothing but plain words stands. -/
def IsPlain (comment : ElementId) : Prop := c.tree.childNodes comment = []

/-- A comment that has the last word at a statement or field where others stand before it. -/
def Overrides (comment : ElementId) : Prop :=
  ∃ owner, c.attachedTo? comment = some owner ∧ (c.commentsOf owner).getLast? = some comment ∧
    c.commentsOf owner ≠ [comment]

theorem find_foldl_writeComment (comments : List ElementId) (i : Index) (owner : ElementId) :
    ((comments.foldl c.writeComment (i, [])).2.find? fun a => a.1 == owner).map (·.2) =
      (comments.filter fun n => c.attachedTo? n == some owner).getLast?.map fun n =>
        (c.readComment n).attachment := by
  induction comments using List.reverseRecOn with
  | nil => rfl
  | append_singleton comments comment ih =>
    rw [List.foldl_append, List.foldl_cons, List.foldl_nil, List.filter_append, writeComment]
    cases hattached : c.attachedTo? comment with
    | none => simpa [hattached] using ih
    | some other =>
      by_cases hother : other = owner
      · simp [hattached, hother]
      · simpa [hattached, hother] using ih

theorem filter_comments (owner : ElementId) :
    (c.comments.filter fun n => c.attachedTo? n == some owner) = c.commentsOf owner := by
  rw [comments, List.filter_filter]
  exact List.filter_congr fun n _ => Bool.and_comm _ _

theorem attachment_eq_getLast (decls : DeclTree) (i : Index) (owner : ElementId) :
    (⟨c.doc, c.tree, decls, (c.writeComments i).2⟩ : DocContext).attachment? owner =
      (c.commentsOf owner).getLast?.map fun n => (c.readComment n).attachment := by
  rw [← filter_comments]
  exact c.find_foldl_writeComment _ i owner

variable {c} {plain : ElementId}

theorem readComment_plain (hplain : c.IsPlain plain) : c.readComment plain = {} := by
  have hgeneric : c.tree.childrenOf plain .docTagGeneric = [] := by
    refine List.filter_eq_nil_iff.2 fun n hn hkind => ?_
    have hnode : c.tree.isNode n = true := Tree.isNode_of_nodeKind? (beq_iff_eq.1 hkind)
    have hmem : n ∈ c.tree.childNodes plain := List.mem_filter.2 ⟨hn, hnode⟩
    simp [show c.tree.childNodes plain = [] from hplain] at hmem
  rw [readComment, hgeneric, hplain]
  rfl

theorem part_writeComment_plain (hplain : c.IsPlain plain)
    (state : Index × List (ElementId × Attachment)) (d : DocId) :
    (c.writeComment state plain).1.part d = state.1.part d := by
  rw [writeComment, readComment_plain hplain]
  cases c.attachedTo? plain with
  | none => rfl
  | some owner => exact part_applyAttachment_nothing c.tree c.doc owner state.1 d

theorem fst_writeComment (state : Index × List (ElementId × Attachment)) (comment : ElementId) :
    (c.writeComment state comment).1 = (c.writeComment (state.1, []) comment).1 := by
  rw [writeComment, writeComment]
  cases c.attachedTo? comment <;> rfl

theorem parts_foldl_unread (hplain : c.IsPlain plain) (comments : List ElementId)
    (unread read : Index × List (ElementId × Attachment))
    (howns : (unread.1.part c.doc).OwnsDecls c.doc)
    (h : ∀ d, unread.1.part d = read.1.part d) (d : DocId) :
    ((comments.filter fun n => n != plain).foldl c.writeComment unread).1.part d =
      (comments.foldl c.writeComment read).1.part d := by
  induction comments generalizing unread read with
  | nil => exact h d
  | cons comment comments ih =>
    rw [List.foldl_cons]
    by_cases hcomment : comment = plain
    · subst hcomment
      rw [List.filter_cons_of_neg (by simp)]
      exact ih unread _ howns fun d => (h d).trans (part_writeComment_plain hplain read d).symm
    · rw [List.filter_cons_of_pos (by simpa using hcomment), List.foldl_cons]
      have hstep := c.local_writeComment comment []
      refine ih _ _ ?_ fun d => ?_
      · rw [fst_writeComment]
        exact hstep.ownsDecls _ howns
      · rw [fst_writeComment, fst_writeComment read]
        exact hstep.parts_eq howns h d

theorem getLast?_filter_ne {xs : List ElementId} (h : xs.getLast? ≠ some plain) :
    (xs.filter fun n => n != plain).getLast? = xs.getLast? := by
  induction xs using List.reverseRecOn with
  | nil => rfl
  | append_singleton xs last ih =>
    have hlast : last ≠ plain := by simpa using h
    simp [List.filter_append, hlast]

theorem attachment_unread (hplain : c.IsPlain plain) (hlast : ¬ c.Overrides plain)
    (owner : ElementId) : (((c.commentsOf owner).filter fun n => n != plain).getLast?.map fun n =>
        (c.readComment n).attachment).getD {} =
      ((c.commentsOf owner).getLast?.map fun n => (c.readComment n).attachment).getD {} := by
  by_cases hat : c.attachedTo? plain = some owner
  · by_cases halone : c.commentsOf owner = [plain]
    · simp [halone, readComment_plain hplain]
    · rw [getLast?_filter_ne fun hbehind => hlast ⟨owner, hat, hbehind, halone⟩]
  · have hnone : ∀ n ∈ c.commentsOf owner, n ≠ plain := by
      rintro n hn rfl
      simp [commentsOf, hat] at hn
    rw [List.filter_eq_self.2 fun n hn => by simpa using hnone n hn]

end CommentContext

namespace DocContext

def saying (c : DocContext) (attachments : List (ElementId × Attachment)) : DocContext :=
  { c with attachments := attachments }

variable {c : DocContext} {attachments : List (ElementId × Attachment)}

theorem ownerDeep_saying (fuel : Nat) :
    (c.saying attachments).ownerDeep fuel = c.ownerDeep fuel := by
  induction fuel with
  | zero => rfl
  | succ fuel ih =>
    funext expr
    rw [ownerDeep, ownerDeep, ih]
    rfl

theorem ownerOf?_saying : (c.saying attachments).ownerOf? = c.ownerOf? := ownerDeep_saying _

theorem localOwnerOf?_saying : (c.saying attachments).localOwnerOf? = c.localOwnerOf? := by
  funext decl
  rw [localOwnerOf?, localOwnerOf?, ownerOf?_saying]
  rfl

theorem targetOwner?_saying (target : ElementId) :
    (c.saying attachments).targetOwner? target = c.targetOwner? target := by
  rw [targetOwner?, targetOwner?, ownerOf?_saying, localOwnerOf?_saying]
  rfl

theorem fieldsOf_saying (table : ElementId) :
    (c.saying attachments).fieldsOf table = c.fieldsOf table := by
  have hkeyed (fields : List ElementId) (count : Int) :
      (c.saying attachments).keyedFields count fields = c.keyedFields count fields := by
    induction fields generalizing count with
    | nil => rfl
    | cons field rest ih =>
      rw [keyedFields, keyedFields, ih, ih]
      rfl
  exact hkeyed _ 0

theorem isExcluded_eq (node : ElementId) :
    c.isExcluded node = ((c.attachment? node).getD {}).excluded := by
  unfold isExcluded
  cases c.attachment? node <;> rfl

variable (h : ∀ node, ((c.saying attachments).attachment? node).getD {} =
  (c.attachment? node).getD {})
include h

theorem isExcluded_saying (node : ElementId) :
    (c.saying attachments).isExcluded node = c.isExcluded node := by
  rw [isExcluded_eq, isExcluded_eq, h]

theorem member_saying (owner : MemberOwner) (key : MemberKey) (span : Span) (node : ElementId)
    (source : MemberSource) (value? : Option ElementId) (stat : ElementId) :
    (c.saying attachments).member owner key span node source value?
    ((c.saying attachments).attachment? stat) =
    c.member owner key span node source value? (c.attachment? stat) := by
  unfold member
  simp only [h]
  rfl

theorem indexMember?_saying (target : ElementId) (value? : Option ElementId) (stat : ElementId) :
    (c.saying attachments).indexMember? target value? ((c.saying attachments).attachment? stat) =
      c.indexMember? target value? (c.attachment? stat) := by
  simp only [indexMember?, member_saying h, ownerOf?_saying]
  rfl

theorem globals_saying : (c.saying attachments).globals = c.globals := by
  simp only [globals, funext (isExcluded_saying h)]
  rfl

theorem writeTarget_saying (stat : ElementId) :
    (c.saying attachments).writeTarget ((c.saying attachments).attachment? stat) =
      c.writeTarget (c.attachment? stat) := by
  funext values i target
  simp only [writeTarget, indexMember?_saying h, targetOwner?_saying]
  rfl

theorem writeField_saying : (c.saying attachments).writeField = c.writeField := by
  funext owner i field
  simp only [writeField, member_saying h]
  rfl

theorem writeTable_saying : (c.saying attachments).writeTable = c.writeTable := by
  funext table i
  simp only [writeTable, fieldsOf_saying, writeField_saying h]
  rfl

theorem writeMethod_saying : (c.saying attachments).writeMethod = c.writeMethod := by
  funext stat i
  simp only [writeMethod, indexMember?_saying h]
  rfl

theorem writeNode_saying : (c.saying attachments).writeNode = c.writeNode := by
  have hlocal : (c.saying attachments).writeLocalTable = c.writeLocalTable := by
    funext values i name
    simp only [writeLocalTable, localOwnerOf?_saying]
    rfl
  funext i node
  simp only [writeNode, hlocal, isExcluded_saying h, writeTarget_saying h, writeMethod_saying h,
    writeTable_saying h]
  rfl

theorem writeNodes_saying (i : Index) : (c.saying attachments).writeNodes i = c.writeNodes i := by
  simp only [writeNodes, writeGlobals, globals_saying h, writeNode_saying h]
  rfl

omit h

theorem declTrees_addMember (m : Member) (i : Index) : (i.addMember m).declTrees = i.declTrees := by
  unfold addMember
  split <;> rfl

theorem declTrees_setOwner (value? : Option ElementId) (owner? : Option MemberOwner) (i : Index) :
    (c.setOwner value? owner? i).declTrees = i.declTrees := by
  unfold setOwner
  split
  · split <;> rfl
  · rfl

theorem declTrees_writeTarget (a? : Option Attachment) (values : List ElementId)
    (target : ElementId × Nat) (i : Index) :
    (c.writeTarget a? values i target).declTrees = i.declTrees := by
  unfold writeTarget
  dsimp only
  split
  · split
    · exact (declTrees_addMember _ _).trans (declTrees_setOwner _ _ i)
    · exact declTrees_setOwner _ _ i
  · exact declTrees_setOwner _ _ i

theorem declTrees_writeTable (table : ElementId) (i : Index) :
    (c.writeTable table i).declTrees = i.declTrees := by
  have hfields (owner : MemberOwner) (j : Index) :
      ((c.fieldsOf table).foldl (c.writeField owner) j).declTrees = j.declTrees :=
    foldl_keeps (·.declTrees) (fun field _ k =>
      (declTrees_addMember _ _).trans (declTrees_setOwner _ _ k)) j
  unfold writeTable
  split <;> exact hfields _ _

theorem declTrees_writeNode (node : ElementId) (i : Index) :
    (c.writeNode i node).declTrees = i.declTrees := by
  unfold writeNode
  split
  case h_1 => exact foldl_keeps (·.declTrees) (fun _ _ => declTrees_setOwner _ _) i
  case h_2 =>
    split
    · rfl
    · exact foldl_keeps (·.declTrees) (fun target _ => declTrees_writeTarget _ _ target) i
  case h_3 =>
    unfold writeMethod
    split
    · rfl
    · split
      · exact declTrees_addMember _ i
      · rfl
  case h_4 => exact declTrees_writeTable node i
  case h_8 => rfl
  all_goals
    unfold writeReference
    split <;> rfl

theorem declTrees_writeNodes (i : Index) : (c.writeNodes i).declTrees = i.declTrees := by
  have hglobals : (c.writeGlobals i).declTrees = i.declTrees := by
    unfold writeGlobals
    exact foldl_keeps (·.declTrees) (by intros; rfl) i
  have hreturn (j : Index) : (c.writeModuleReturn j).declTrees = j.declTrees := by
    unfold writeModuleReturn
    split <;> rfl
  rw [writeNodes, hreturn]
  exact (foldl_keeps (·.declTrees) (fun node _ => declTrees_writeNode node) _).trans hglobals

end DocContext

/-- The passes over a document of which only some comments are read. -/
def analyzeReading (settings : Settings) (s : Source) (read : List ElementId) (i : Index) : Index :=
  let c := commentContext settings s
  let written := read.foldl c.writeComment (c.writeSignatures (writeDecls s i), [])
  writeTree s written.2 written.1

/-- How the passes over a document take its comments. -/
structure ReadsComments (settings : Settings) (s : Source) : Prop where
  /-- What a statement or field gets from comments is what the last comment at it says. -/
  last : ∀ (decls : DeclTree) (i : Index) (owner : ElementId),
    (⟨s.id, s.tree, decls, ((commentContext settings s).writeComments i).2⟩ :
      DocContext).attachment? owner =
      ((commentContext settings s).commentsOf owner).getLast?.map fun n =>
        ((commentContext settings s).readComment n).attachment
  /-- Whether a plain comment is read makes no difference to what is declared of the
  declarations. -/
  decls : ∀ (i : Index) (comment : ElementId), (commentContext settings s).IsPlain comment →
    ∀ doc, (analyzeReading settings s ((commentContext settings s).commentsBut comment) i).declTree?
      doc = (analyze settings s i).declTree? doc
  /-- A plain comment may stay unread, unless it is the last of several at its statement or
  field. -/
  plain : ∀ (i : Index) (comment : ElementId), (commentContext settings s).IsPlain comment →
    ¬ (commentContext settings s).Overrides comment →
      SameAnswers (analyzeReading settings s ((commentContext settings s).commentsBut comment) i)
        (analyze settings s i)

theorem ownsDecls_writeDecls (s : Source) (i : Index) :
    ((writeDecls s i).part s.id).OwnsDecls s.id := by
  intro decls hdecls
  obtain rfl := Option.some.inj ((declTree?_writeDecls s i).symm.trans hdecls)
  exact bindDocument_belongsTo s.tree s.id

theorem writeTree_saying (s : Source) {attachments attachments' : List (ElementId × Attachment)}
    (h : ∀ node, ((attachments'.find? fun a => a.1 == node).map (·.2)).getD {} =
      ((attachments.find? fun a => a.1 == node).map (·.2)).getD {}) :
    writeTree s attachments' = writeTree s attachments := by
  funext i
  unfold writeTree
  split
  · rename_i decls _
    exact DocContext.writeNodes_saying (c := ⟨s.id, s.tree, decls, attachments⟩) h i
  · rfl

theorem declTree?_writeTree (s : Source) (attachments : List (ElementId × Attachment)) (i : Index)
    (doc : DocId) : (writeTree s attachments i).declTree? doc = i.declTree? doc := by
  unfold writeTree
  split
  · rw [declTree?, DocContext.declTrees_writeNodes]
    rfl
  · rfl

section

variable {settings : Settings} {s : Source} {comment : ElementId}
  (hplain : (commentContext settings s).IsPlain comment)
include hplain

theorem parts_unread (i : Index) (d : DocId) :
    let c := commentContext settings s
    let signed := c.writeSignatures (writeDecls s i)
    (((c.commentsBut comment).foldl c.writeComment (signed, [])).1.part s.id).OwnsDecls s.id ∧
      ((c.commentsBut comment).foldl c.writeComment (signed, [])).1.part d =
        (c.writeComments signed).1.part d := by
  intro c signed
  have howns : (signed.part s.id).OwnsDecls s.id :=
    c.local_writeSignatures.ownsDecls _ (ownsDecls_writeDecls s i)
  refine ⟨(c.foldl_writeComment _ []).1.ownsDecls signed howns, ?_⟩
  exact CommentContext.parts_foldl_unread hplain c.comments (signed, []) (signed, []) howns
    (fun _ => rfl) d

theorem writeTree_unread (hlast : ¬ (commentContext settings s).Overrides comment) (i : Index) :
    let c := commentContext settings s
    writeTree s ((c.commentsBut comment).foldl c.writeComment (i, [])).2 =
      writeTree s (c.writeComments i).2 := by
  intro c
  refine writeTree_saying s fun owner => ?_
  have hcomm : ((c.commentsBut comment).filter fun n => c.attachedTo? n == some owner) =
      (c.commentsOf owner).filter fun n => n != comment := by
    rw [← c.filter_comments, List.filter_comm]
    rfl
  have hread := c.find_foldl_writeComment c.comments i owner
  rw [c.filter_comments] at hread
  rw [c.find_foldl_writeComment, hcomm]
  exact (CommentContext.attachment_unread hplain hlast owner).trans
    (congrArg (·.getD {}) hread.symm)

end

theorem analyze_readsComments (settings : Settings) (s : Source) : ReadsComments settings s where
  last := (commentContext settings s).attachment_eq_getLast
  decls i comment hplain doc := by
    have hparts := (parts_unread hplain i doc).2
    exact (declTree?_writeTree s _ _ doc).trans
      ((declTree?_congr hparts).trans (declTree?_writeTree s _ _ doc).symm)
  plain i comment hplain hlast := by
    refine sameAnswers_of_parts fun d => ?_
    obtain ⟨howns, -⟩ := parts_unread hplain i d
    have hsaid :=
      writeTree_unread hplain hlast ((commentContext settings s).writeSignatures (writeDecls s i))
    refine (congrArg (fun f : Index → Index => (f _).part d) hsaid).trans ?_
    exact (local_writeTree s _).parts_eq howns (fun d => (parts_unread hplain i d).2) d

def definesMembers : NodeKind → Bool
  | .assignStat | .funcStat | .tableExpr => true
  | _ => false

theorem memberStore_writeDecls (s : Source) (i : Index) :
    (writeDecls s i).memberStore = i.memberStore := by
  unfold writeDecls
  split <;> rfl

theorem memberStore_modifyDeclTree (i : Index) (doc : DocId) (f : DeclTree → DeclTree) :
    (i.modifyDeclTree doc f).memberStore = i.memberStore := by
  unfold modifyDeclTree
  split <;> rfl

theorem memberStore_applyAttachment (t : Tree) (doc : DocId) (owner : ElementId) (a : Attachment)
    (i : Index) : (applyAttachment t doc owner a i).memberStore = i.memberStore := by
  have hglobal (j : Index) : (writeClassGlobal t doc owner a j).memberStore = j.memberStore := by
    unfold writeClassGlobal
    split
    · split <;> rfl
    · rfl
  rw [applyAttachment, hglobal, memberStore_modifyDeclTree]
  unfold describeFunction
  split
  · split
    · rw [memberStore_modifyDeclTree]
      unfold modifySignature
      split <;> rfl
    · rfl
  · rfl

theorem memberStore_writeReading {r : CommentReading} (h : r.fields = []) (doc : DocId)
    (i : Index) : (writeReading doc i r).memberStore = i.memberStore := by
  have htypes (j : Index) :
      (r.typeParts.foldl (fun i e => i.addTypePart doc e.1 e.2) j).memberStore = j.memberStore :=
    foldl_keeps (·.memberStore) (by intros; rfl) j
  have hsuper (super : Ty) (name : String) (j : Index) : (j.addSuper doc name super).memberStore =
      j.memberStore := by
    cases super <;> rfl
  have hsupers (j : Index) : (r.supers.foldl (fun i e => i.addSuper doc e.1 e.2) j).memberStore =
      j.memberStore :=
    foldl_keeps (·.memberStore) (fun e _ => hsuper e.2 e.1) j
  have hoperators (j : Index) : (r.operators.foldl (fun i o => i.addOperator doc o) j).memberStore =
      j.memberStore :=
    foldl_keeps (·.memberStore) (by intros; rfl) j
  have hsuppressions (j : Index) :
      (r.suppressions.foldl (fun i s => i.addSuppression doc s) j).memberStore = j.memberStore :=
    foldl_keeps (·.memberStore) (by intros; rfl) j
  have hmeta (j : Index) : (if r.isMeta then j.setMeta doc else j).memberStore = j.memberStore := by
    split <;> rfl
  rw [writeReading, hmeta, hsuppressions, hoperators, h, List.foldl_nil]
  exact (hsupers _).trans (htypes i)

namespace CommentContext

variable {c : CommentContext}

theorem memberStore_foldl_writeComment {comments : List ElementId}
    (h : ∀ n ∈ comments, (c.readComment n).fields = [])
    (state : Index × List (ElementId × Attachment)) :
    (comments.foldl c.writeComment state).1.memberStore = state.1.memberStore := by
  induction comments generalizing state with
  | nil => rfl
  | cons comment comments ih =>
    obtain ⟨hfirst, hrest⟩ := List.forall_mem_cons.1 h
    refine (ih hrest (c.writeComment state comment)).trans ?_
    have hread := memberStore_writeReading hfirst c.doc state.1
    unfold writeComment
    cases c.attachedTo? comment with
    | none => exact hread
    | some owner => exact (memberStore_applyAttachment _ _ _ _ _).trans hread

end CommentContext

namespace DocContext

variable {c : DocContext}

theorem memberStore_setOwner (value? : Option ElementId) (owner? : Option MemberOwner) (i : Index) :
    (c.setOwner value? owner? i).memberStore = i.memberStore := by
  unfold setOwner
  split
  · split <;> rfl
  · rfl

theorem memberStore_writeNode {node : ElementId} (h : definesMembers (c.tree.kind node) = false)
    (i : Index) : (c.writeNode i node).memberStore = i.memberStore := by
  have hreference : (c.writeReference node i).memberStore = i.memberStore := by
    unfold writeReference
    split <;> rfl
  unfold writeNode
  split
  all_goals first
    | exact hreference
    | exact foldl_keeps (·.memberStore) (fun name _ => memberStore_setOwner _ _) i
    | simp_all [definesMembers]

theorem memberStore_writeNodes {before after : List ElementId} {stat target : ElementId}
    {m : Member} (hnodes : c.tree.descendants Tree.root = before ++ stat :: after)
    (hothers : ∀ n ∈ before ++ after, definesMembers (c.tree.kind n) = false)
    (hstat : c.tree.kind stat = .assignStat) (hincluded : c.isExcluded stat = false)
    (htargets : assignTargets c.tree stat = [target]) (htarget : c.tree.kind target = .indexExpr)
    (hm : c.indexMember? target (assignedValues c.tree stat)[0]? (c.attachment? stat) = some m)
    (i : Index) :
    (c.writeNodes i).memberStore = (i.addMember m).memberStore := by
  have hset (j : Index) : (c.writeNode j stat).memberStore = (j.addMember m).memberStore := by
    have howner := memberStore_setOwner (c := c) (assignedValues c.tree stat)[0]?
      (c.targetOwner? target) j
    simp only [writeNode, hstat, hincluded, htargets, Bool.false_eq_true, if_false,
      List.zipIdx_cons, List.zipIdx_nil, List.foldl_cons, List.foldl_nil, writeTarget, htarget,
      beq_self_eq_true, if_true, hm]
    simp only [addMember, howner, apply_ite Index.memberStore]
  have hquiet (nodes : List ElementId) (hnodes : ∀ n ∈ nodes, n ∈ before ++ after) (j : Index) :
      (nodes.foldl c.writeNode j).memberStore = j.memberStore :=
    foldl_keeps (·.memberStore) (fun n hn => memberStore_writeNode (hothers n (hnodes n hn))) j
  have hglobals : (c.writeGlobals i).memberStore = i.memberStore := by
    unfold writeGlobals
    exact foldl_keeps (·.memberStore) (by intros; rfl) i
  have hreturn (j : Index) : (c.writeModuleReturn j).memberStore = j.memberStore := by
    unfold writeModuleReturn
    split <;> rfl
  have hbefore :=
    (hquiet before (fun n hn => List.mem_append_left _ hn) (c.writeGlobals i)).trans hglobals
  rw [writeNodes, hreturn, hnodes, List.foldl_append, List.foldl_cons,
    hquiet after (fun n hn => List.mem_append_right _ hn), hset]
  simp only [addMember, hbefore, apply_ite Index.memberStore]

end DocContext

def nodeContext (settings : Settings) (s : Source) : DocContext :=
  ⟨s.id, s.tree, bindDocument s.tree s.id, ((commentContext settings s).writeComments {}).2⟩

theorem redescribes_of_empty {bound decls : DeclTree} (h : bound.decls = #[])
    (hmore : bound.Redescribes decls) : decls = bound := by
  obtain ⟨hdoc, hblocks, hreferences, f, -, hmap⟩ := hmore
  rw [h, Array.map_empty, ← h] at hmap
  obtain ⟨doc, found, blocks, references⟩ := decls
  obtain rfl : doc = bound.doc := hdoc
  obtain rfl : found = bound.decls := hmap
  obtain rfl : blocks = bound.blocks := hblocks
  obtain rfl : references = bound.references := hreferences
  rfl

/-- A document in which nothing is declared and no member set but by one assignment to one
target. -/
structure SetsOne (settings : Settings) (s : Source) (stat target : ElementId) : Prop where
  nodes : ∃ before after, s.tree.descendants Tree.root = before ++ stat :: after ∧
    ∀ n ∈ before ++ after, definesMembers (s.tree.kind n) = false
  kind_stat : s.tree.kind stat = .assignStat
  targets : assignTargets s.tree stat = [target]
  kind_target : s.tree.kind target = .indexExpr
  decls : (bindDocument s.tree s.id).decls = #[]
  fields : ∀ n ∈ (commentContext settings s).comments,
    ((commentContext settings s).readComment n).fields = []
  included : (nodeContext settings s).isExcluded stat = false

theorem members_analyze {settings : Settings} {s : Source} {stat target : ElementId} {m : Member}
    (h : SetsOne settings s stat target)
    (hm : (nodeContext settings s).indexMember? target (assignedValues s.tree stat)[0]?
      ((nodeContext settings s).attachment? stat) =
      some m) (hreserved : isReservedOwner m.owner = false) :
    (analyze settings s (.ofSettings settings)).members m.owner = [m] := by
  obtain ⟨before, after, hnodes, hothers⟩ := h.nodes
  let c := commentContext settings s
  let signed := c.writeSignatures (writeDecls s (.ofSettings settings))
  have hready : signed.Readable s.id (bindDocument s.tree s.id) fun _ => True :=
    (CommentContext.emits_writeSignatures (c := c) _ (readable_writeDecls s _)).readable
      (readable_writeDecls s _)
  have hwrites := CommentContext.writes_writeComments (c := c)
    (admits_any s.tree s.id (bindDocument s.tree s.id)) c.comments (signed, []) hready
  obtain ⟨decls, htree, hmore⟩ := (hwrites.readable hready).holds
  obtain rfl := redescribes_of_empty h.decls hmore
  have hsaid : (c.writeComments signed).2 = (c.writeComments {}).2 :=
    c.writeComments_attachments signed {}
  have hstore : (c.writeComments signed).1.memberStore = .empty := by
    refine (CommentContext.memberStore_foldl_writeComment h.fields (signed, [])).trans ?_
    refine (foldl_keeps (·.memberStore) (by intros; rfl) _).trans ?_
    exact memberStore_writeDecls s _
  have hanalyze : (analyze settings s (.ofSettings settings)).memberStore =
      ((c.writeComments signed).1.addMember m).memberStore := by
    change (writeTree s (c.writeComments signed).2 (c.writeComments signed).1).memberStore = _
    rw [hsaid]
    have hcontext : (c.writeComments signed).1.declTree? s.id =
        some (bindDocument s.tree s.id) := htree
    simp only [writeTree, hcontext]
    exact DocContext.memberStore_writeNodes
      (c := nodeContext settings s) hnodes hothers h.kind_stat h.included h.targets
      h.kind_target hm _
  rw [members, hanalyze, addMember, hreserved, if_neg Bool.false_ne_true, hstore,
    DocMultimap.values, DocMultimap.withDoc_add]
  simp [insertBehind]

/-- Whether a member has a declared type changes with a plain comment behind the statement that sets
it. -/
theorem declared_type_lost_behind_plain_comment :
    ((analyze {} (.ofText 0 ⟨"file:///t.lua", "/t.lua"⟩ "---@type string\nM.x = nil        \n")
        (.ofSettings {})).member? (.global "M") (.name "x")).map (·.type?.isSome) = some true ∧
      ((analyze {} (.ofText 0 ⟨"file:///t.lua", "/t.lua"⟩ "---@type string\nM.x = nil -- note\n")
        (.ofSettings {})).member? (.global "M") (.name "x")).map (·.type?.isSome) = some false := by
  -- together, so that each document is read only once
  have hmember {s : Source} {declared : Bool} (after : List ElementId)
      (h : s.tree.descendants Tree.root = [0, 1] ++ 2 :: after ∧
        (∀ n ∈ [0, 1] ++ after, definesMembers (s.tree.kind n) = false) ∧
        s.tree.kind 2 = .assignStat ∧ assignTargets s.tree 2 = [9] ∧ s.tree.kind 9 = .indexExpr ∧
        (bindDocument s.tree s.id).decls.size = 0 ∧
        (∀ n ∈ (commentContext {} s).comments,
          ((commentContext {} s).readComment n).fields.length = 0) ∧
        (nodeContext {} s).isExcluded 2 = false ∧
        ((nodeContext {} s).indexMember? 9 (assignedValues s.tree 2)[0]?
          ((nodeContext {} s).attachment? 2)).map (fun m =>
            (m.owner, m.key, m.type?.isSome)) = some (.global "M", .name "x", declared)) :
      ((analyze {} s (.ofSettings {})).member? (.global "M") (.name "x")).map (·.type?.isSome) =
      some declared := by
    obtain ⟨hnodes, hothers, hstat, htargets, htarget, hdecls, hfields, hincluded, hm⟩ := h
    obtain ⟨m, hm, heq⟩ := Option.map_eq_some_iff.1 hm
    obtain ⟨howner, hkey, hdeclared⟩ : m.owner = .global "M" ∧ m.key = .name "x" ∧
        m.type?.isSome = declared := by
      simpa using heq
    have hset : SetsOne {} s 2 9 := ⟨⟨[0, 1], after, hnodes, hothers⟩, hstat, htargets, htarget,
      Array.eq_empty_of_size_eq_zero hdecls, fun n hn =>
        List.eq_nil_of_length_eq_zero (hfields n hn), hincluded⟩
    have hmembers := members_analyze hset hm (by rw [howner]; rfl)
    rw [howner] at hmembers
    rw [member?, hmembers]
    cases declared <;> simp [hkey, hdeclared]
  exact ⟨hmember [3, 5, 7, 9, 10, 15] (by decide +kernel),
    hmember [3, 5, 7, 9, 10, 15, 17] (by decide +kernel)⟩

end LuaAnalysis.Workspace
