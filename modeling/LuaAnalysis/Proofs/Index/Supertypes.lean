import LuaAnalysis.Inference.Names
import LuaAnalysis.Proofs.Index.Grounded

/-!
What types extend is kept twice, under the names of both sides. The two agree on types that are
extended without parameters; one that is extended with parameters does not learn of it.
-/

namespace LuaAnalysis.Workspace

open Document LuaAnalysis.Types Scope Syntax Settings Inference Index Text

namespace Index.Part

def Mutual (q : Part) : Prop := ∀ name super, name ∈ q.subTypes super ↔ Ty.ref super ∈ q.supers name

theorem mutual_blank (roots patterns : List String) : (blank roots patterns).Mutual := by
  intro name super
  simp [blank]

variable {q : Part}

theorem Mutual.push (h : q.Mutual) (name super : String) :
    Mutual { q with
      supers := DocMultimap.pushAt name (.ref super) q.supers
      subTypes := DocMultimap.pushAt super name q.subTypes } := by
  intro n s
  have hold := h n s
  by_cases hn : name = n <;> by_cases hs : super = s <;>
    simp [DocMultimap.pushAt, hn, hs, Ne.symm, hold]

theorem Mutual.push_super (h : q.Mutual) (name : String) {super : Ty}
    (hsuper : ∀ s, super ≠ .ref s) :
    Mutual { q with supers := DocMultimap.pushAt name super q.supers } := by
  intro n s
  have hold := h n s
  by_cases hn : name = n
  · simpa [DocMultimap.pushAt, hn, (hsuper s).symm] using hold
  · simpa [DocMultimap.pushAt, hn] using hold

end Index.Part

variable {t : Tree} {doc : DocId} {bound : DeclTree} {Owned : MemberOwner → Prop} {i j : Index}
  {recorded : List Report.Suppression}

theorem Write.mutual (h : Write t doc bound Owned i recorded j) (hi : (i.part doc).Mutual) :
    (j.part doc).Mutual := by
  cases h with
  | super name super =>
    cases super with
    | ref s => simpa [part, addSuper, DocMultimap.valuesOf_add] using hi.push name s
    | _ => simpa [part, addSuper, DocMultimap.valuesOf_add] using hi.push_super name (by simp)
  | redescribe hf =>
    unfold modifyDeclTree
    split <;> exact hi
  | describe closure f =>
    unfold modifySignature
    split <;> exact hi
  | member hm =>
    unfold addMember
    split <;> exact hi
  | _ => exact hi

theorem Writes.mutual (h : Writes t doc bound Owned i recorded j) (hi : (i.part doc).Mutual) :
    (j.part doc).Mutual := by
  induction h with
  | refl => exact hi
  | tail _ hlast ih => exact hlast.mutual ih

theorem mutual_part (settings : Settings) (s : Source) : (Source.part settings s).Mutual := by
  have hblank : ((ofSettings settings).part s.id).Mutual := by
    rw [part_ofSettings]
    exact Part.mutual_blank _ _
  have hdecls : ((writeDecls s (ofSettings settings)).part s.id).Mutual := by
    unfold writeDecls
    dsimp only
    split <;> exact hblank
  exact (writes_analyze settings (admits_any s.tree s.id _) (readable_writeDecls s _)).mutual hdecls

def KeepsSupers (f : Index → Index) : Prop := ∀ i, (f i).superStore = i.superStore

namespace KeepsSupers

variable {f g : Index → Index}

theorem comp (hg : KeepsSupers g) (hf : KeepsSupers f) : KeepsSupers fun i => g (f i) :=
  fun i => (hg (f i)).trans (hf i)

theorem foldl {α : Type} {step : Index → α → Index} (h : ∀ a, KeepsSupers fun i => step i a)
    (as : List α) : KeepsSupers fun i => as.foldl step i := by
  intro i
  induction as generalizing i with
  | nil => rfl
  | cons a as ih => exact (ih _).trans (h a i)

theorem modifyDeclTree (f : DeclTree → DeclTree) : KeepsSupers fun i => i.modifyDeclTree doc f := by
  intro i
  unfold Index.modifyDeclTree
  dsimp only
  split <;> rfl

theorem modifySignature (closure : NodeRef) (f : Signature → Signature) :
    KeepsSupers fun i => i.modifySignature closure f := by
  intro i
  unfold Index.modifySignature
  dsimp only
  split <;> rfl

theorem addMember (m : Member) : KeepsSupers fun i => i.addMember m := by
  intro i
  unfold Index.addMember
  dsimp only
  split <;> rfl

theorem writeDecls (s : Source) : KeepsSupers (writeDecls s) := by
  intro i
  unfold Workspace.writeDecls
  dsimp only
  split <;> rfl

theorem applyAttachment (owner : ElementId) (a : Attachment) :
    KeepsSupers (applyAttachment t doc owner a) := by
  have hfunction : KeepsSupers (describeFunction t doc owner a) := by
    intro i
    unfold describeFunction
    split
    · split
      · exact ((modifyDeclTree _).comp (modifySignature _ _)) i
      · rfl
    · rfl
  have hglobal : KeepsSupers (writeClassGlobal t doc owner a) := by
    intro i
    unfold writeClassGlobal
    split
    · split <;> rfl
    · rfl
  exact hglobal.comp ((modifyDeclTree _).comp hfunction)

variable {c : DocContext}

theorem setOwner (value? : Option ElementId) (owner? : Option MemberOwner) :
    KeepsSupers (c.setOwner value? owner?) := by
  intro i
  unfold DocContext.setOwner
  split
  · split <;> rfl
  · rfl

theorem writeNode (node : ElementId) : KeepsSupers fun i => c.writeNode i node := by
  intro i
  unfold DocContext.writeNode
  dsimp only
  split
  · exact foldl (fun name => setOwner _ _) _ i
  · split
    · rfl
    · refine foldl (fun target i => ?_) _ i
      unfold DocContext.writeTarget
      dsimp only
      split
      · split
        · exact (addMember _ _).trans (setOwner _ _ i)
        · exact setOwner _ _ i
      · exact setOwner _ _ i
  · split
    · rfl
    · unfold DocContext.writeMethod
      split
      · exact addMember _ i
      · rfl
  · have hfields (owner : MemberOwner) (fields : List (ElementId × MemberKey × Span)) :
        KeepsSupers fun i => fields.foldl (c.writeField owner) i :=
      foldl (fun _ => (addMember _).comp (setOwner _ _)) fields
    unfold DocContext.writeTable
    split
    · exact hfields _ _ i
    · exact hfields _ _ _
  all_goals
    first
    | rfl
    | unfold DocContext.writeReference
      split <;> rfl

theorem writeTree (s : Source) (attachments : List (ElementId × Attachment)) :
    KeepsSupers (writeTree s attachments) := by
  intro i
  unfold Workspace.writeTree
  split
  · rename_i decls _
    let c : DocContext := ⟨s.id, s.tree, decls, attachments⟩
    have hglobal (global : String × DeclId) : KeepsSupers fun i => i.addGlobal global.1 global.2 :=
      fun _ => rfl
    have hglobals : KeepsSupers c.writeGlobals := foldl hglobal _
    have hnodes : KeepsSupers fun i => (c.tree.descendants Tree.root).foldl c.writeNode i :=
      foldl writeNode _
    have hreturn : KeepsSupers c.writeModuleReturn := by
      intro i
      unfold DocContext.writeModuleReturn
      split <;> rfl
    exact (hreturn.comp (hnodes.comp hglobals)) i
  · rfl

end KeepsSupers

def addSupers (doc : DocId) (entries : List (String × Ty)) (store : DocMultimap String Ty) :
    DocMultimap String Ty :=
  entries.foldl (fun store e => store.add doc e.1 e.2) store

theorem valuesOf_addSupers (doc : DocId) (entries : List (String × Ty))
    (store : DocMultimap String Ty) (name : String) :
    (addSupers doc entries store).valuesOf doc name = store.valuesOf doc name ++
    DocMultimap.valuesIn name entries := by
  induction entries generalizing store with
  | nil => simp [addSupers, DocMultimap.valuesIn]
  | cons e entries ih =>
    refine (ih (store.add doc e.1 e.2)).trans ?_
    rw [DocMultimap.valuesOf_add, if_pos rfl]
    by_cases he : e.1 = name <;> simp [DocMultimap.pushAt, DocMultimap.valuesIn, he]

/-- What the comments of a document say that types extend, in the order of the text. -/
def recordedSupers (settings : Settings) (s : Source) : List (String × Ty) :=
  ((s.tree.descendants Tree.root).filter fun n => s.tree.kind n == .comment).flatMap fun n =>
    ((commentContext settings s).readComment n).supers

theorem superStore_writeReading (doc : DocId) (i : Index) (r : CommentReading) :
    (writeReading doc i r).superStore = addSupers doc r.supers i.superStore := by
  have hsupers (i : Index) : (r.supers.foldl (fun i e => i.addSuper doc e.1 e.2) i).superStore =
      addSupers doc r.supers i.superStore := by
    induction r.supers generalizing i with
    | nil => rfl
    | cons e entries ih =>
      refine (ih _).trans ?_
      cases hsuper : e.2 <;> simp [addSupers, addSuper, hsuper]
  have htype (e : String × TypePart) : KeepsSupers fun i => i.addTypePart doc e.1 e.2 :=
    fun _ => rfl
  have htypes : KeepsSupers fun i => r.typeParts.foldl (fun i e => i.addTypePart doc e.1 e.2) i :=
    .foldl htype _
  have hmembers : KeepsSupers fun i => r.fields.foldl Index.addMember i := .foldl .addMember _
  have hoperator (o : Operator) : KeepsSupers fun i => i.addOperator doc o := fun _ => rfl
  have hoperators : KeepsSupers fun i => r.operators.foldl (fun i o => i.addOperator doc o) i :=
    .foldl hoperator _
  have hsuppression (s : Report.Suppression) : KeepsSupers fun i => i.addSuppression doc s :=
    fun _ => rfl
  have hsuppressions : KeepsSupers fun i =>
      r.suppressions.foldl (fun i s => i.addSuppression doc s) i :=
    .foldl hsuppression _
  have hmeta : KeepsSupers fun i => if r.isMeta then i.setMeta doc else i := by
    intro i
    dsimp only
    split <;> rfl
  have hbehind := hmeta.comp (hsuppressions.comp (hoperators.comp hmembers))
  refine (hbehind _).trans ((hsupers _).trans ?_)
  rw [htypes i]

theorem superStore_writeComment (c : CommentContext) (comment : ElementId)
    (state : Index × List (ElementId × Attachment)) :
    (c.writeComment state comment).1.superStore =
    addSupers c.doc (c.readComment comment).supers state.1.superStore := by
  have hreading := superStore_writeReading c.doc state.1 (c.readComment comment)
  unfold CommentContext.writeComment
  dsimp only
  split
  · exact (KeepsSupers.applyAttachment _ _ _).trans hreading
  · exact hreading

theorem superStore_foldl_writeComment (c : CommentContext) (comments : List ElementId)
    (state : Index × List (ElementId × Attachment)) :
    (comments.foldl c.writeComment state).1.superStore =
      addSupers c.doc (comments.flatMap fun n => (c.readComment n).supers) state.1.superStore := by
  induction comments generalizing state with
  | nil => rfl
  | cons comment comments ih =>
    rw [List.foldl_cons, ih, superStore_writeComment, List.flatMap_cons, addSupers,
      addSupers, addSupers, List.foldl_append]

theorem superStore_analyze (settings : Settings) (s : Source) (i : Index) :
    (analyze settings s i).superStore =
    addSupers s.id (recordedSupers settings s) i.superStore := by
  let c := commentContext settings s
  have hsignature (n : ElementId) : KeepsSupers fun i =>
      i.addSignature ⟨c.doc, n⟩ (bareSignature c.tree n) :=
    fun _ => rfl
  have hsignatures : KeepsSupers c.writeSignatures := .foldl hsignature _
  have hcomments := superStore_foldl_writeComment c
    ((s.tree.descendants Tree.root).filter fun n => s.tree.kind n == .comment)
    (c.writeSignatures (writeDecls s i), [])
  refine (KeepsSupers.writeTree s _ _).trans (hcomments.trans ?_)
  rw [hsignatures, KeepsSupers.writeDecls]
  rfl

namespace Project

variable {p : Project} {doc : DocId} {s : Source}

theorem Faithful.mem_superStore_iff (h : p.Faithful) (doc : DocId) (name : String) (super : Ty) :
    (doc, super) ∈ p.index.superStore.withDoc name ↔
      ∃ s, p.source? doc = some s ∧ (name, super) ∈ recordedSupers p.settings s := by
  rw [DocMultimap.mem_withDoc_iff]
  cases hs : p.source? doc with
  | none =>
    have hpart : p.index.superStore.valuesOf doc = _ := congrArg Part.supers (h.closed hs)
    simp [hpart, Part.blank]
  | some s =>
    obtain ⟨rfl, hpart⟩ := h.part_eq hs
    have hsupers : p.index.superStore.valuesOf s.id = _ := congrArg Part.supers hpart
    rw [hsupers]
    have hfresh : (Source.part p.settings s).supers name =
        DocMultimap.valuesIn name (recordedSupers p.settings s) := by
      rw [Source.part, Index.part, superStore_analyze]
      simp [valuesOf_addSupers, Index.ofSettings]
    rw [hfresh]
    simp [DocMultimap.valuesIn]

theorem Faithful.mutual (h : p.Faithful) (doc : DocId) : (p.index.part doc).Mutual := by
  rw [(h.index_eq doc).2]
  cases p.store.get? doc with
  | none => exact Part.mutual_blank _ _
  | some s => exact mutual_part p.settings s

theorem Faithful.mem_subTypeStore_iff (h : p.Faithful) (doc : DocId) (name super : String) :
    (doc, name) ∈ p.index.subTypeStore.withDoc super ↔
    (doc, .ref super) ∈ p.index.superStore.withDoc name := by
  rw [DocMultimap.mem_withDoc_iff, DocMultimap.mem_withDoc_iff]
  exact h.mutual doc name super

theorem Faithful.mem_subTypes_iff (h : p.Faithful) (name super : String) :
    name ∈ p.index.subTypes super ↔ Ty.ref super ∈ p.index.supers name := by
  simp only [subTypes, supers, DocMultimap.values, List.mem_map, Prod.exists, exists_eq_right]
  exact exists_congr fun doc => h.mem_subTypeStore_iff doc name super

/-- After any edits, a type is listed below another one just if it lists that one, without
parameters, as extended. Each document answers for itself: both are noted of it just if its comments
say so. -/
theorem run_mem_subTypes_iff (settings : Settings) (edits : List Edit) (name super : String) :
    let p := (ofSettings settings).run edits
    (name ∈ p.index.subTypes super ↔ Ty.ref super ∈ p.index.supers name) ∧
      ∀ doc, ((doc, name) ∈ p.index.subTypeStore.withDoc super ↔
        (doc, .ref super) ∈ p.index.superStore.withDoc name) ∧
        ((doc, name) ∈ p.index.subTypeStore.withDoc super ↔
          ∃ s, p.source? doc = some s ∧ (name, .ref super) ∈ recordedSupers settings s) := by
  have hrun := (faithful_ofSettings settings).run edits
  refine ⟨hrun.mem_subTypes_iff name super, fun doc => ?_⟩
  have hsame := hrun.mem_subTypeStore_iff doc name super
  have hsaid := hrun.mem_superStore_iff doc name (.ref super)
  rw [settings_run] at hsaid
  exact ⟨hsame, hsame.trans hsaid⟩

theorem run_mem_supers_iff (settings : Settings) (edits : List Edit) (name : String) (super : Ty) :
    let p := (ofSettings settings).run edits
    super ∈ p.index.supers name ↔ ∃ doc s, p.source? doc = some s ∧
    (name, super) ∈ recordedSupers settings s := by
  have hsaid := ((faithful_ofSettings settings).run edits).mem_superStore_iff
  rw [settings_run] at hsaid
  simp only [supers, DocMultimap.values, List.mem_map, Prod.exists, exists_eq_right]
  exact exists_congr fun doc => hsaid doc name super

/-- The two sides of extension agree on the names of all types that are extended. -/
def NamesSubTypes (p : Project) : Prop :=
  ∀ name super, name ∈ p.index.subTypes super ↔ super ∈ superNames p name

/-- A class that extends another one with a parameter. -/
def extendsWithParameter : Source :=
  .ofText 0 ⟨"file:///t.lua", "/t.lua"⟩ "---@class B: A<string>\n"

theorem not_namesSubTypes_extendsWithParameter :
    ¬ ((ofSettings {}).run
      [.add extendsWithParameter.uri extendsWithParameter.text]).NamesSubTypes := by
  intro h
  generalize hp : (ofSettings {}).run [.add extendsWithParameter.uri extendsWithParameter.text] =
    p at h
  have hfaithful : p.Faithful := hp ▸ (faithful_ofSettings {}).run _
  have hsettings : p.settings = {} := hp ▸ settings_run _
  have hsource (doc : DocId) : p.source? doc = if doc = 0 then some extendsWithParameter
      else none :=
    hp ▸ source?_single {} _ _ doc
  obtain ⟨⟨⟨_, super⟩, hmem, rfl, hname⟩, hparameter⟩ :
      (∃ super ∈ recordedSupers {} extendsWithParameter, super.1 = "B" ∧
        className? super.2 = some "A") ∧
        ∀ super ∈ recordedSupers {} extendsWithParameter, (super.2 == .ref "A") = false := by
          decide +kernel
  have hextends : "A" ∈ superNames p "B" := by
    have hsuper : super ∈ p.index.supers "B" :=
      hp ▸ (run_mem_supers_iff {} _ "B" super).2 ⟨0, _,
        (source?_single {} _ _ 0).trans (if_pos rfl), hmem⟩
    exact List.mem_filterMap.2 ⟨super, hsuper, hname⟩
  have hlisted := (hfaithful.mem_subTypes_iff "B" "A").1 ((h "B" "A").2 hextends)
  obtain ⟨⟨doc, _⟩, hentry, rfl⟩ := List.mem_map.1 hlisted
  obtain ⟨s, hs, hmem⟩ := (hfaithful.mem_superStore_iff doc "B" (.ref "A")).1 hentry
  rw [hsource] at hs
  split at hs
  · obtain rfl := Option.some.inj hs
    exact absurd (hparameter _ (hsettings ▸ hmem)) (by decide +kernel)
  · exact absurd hs (by simp)

end Project

end LuaAnalysis.Workspace
