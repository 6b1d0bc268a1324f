import Mathlib.Data.List.Perm.Basic
import Mathlib.Data.String.Basic
import LuaAnalysis.Proofs.Document.Multimaps
import LuaAnalysis.Proofs.Scope.BoundTree
import LuaAnalysis.Workspace.Index

/-!
The part of an index that one document wrote. Steps that go by this part and touch nothing else are
local, and all answers of an index follow from the parts of its documents.
-/

namespace LuaAnalysis.Workspace

open Document LuaAnalysis.Types Scope Settings Report

/-- All that one document wrote to an index, and the settings of module names, which all documents
share. -/
@[ext] structure Index.Part where
  declTree? : Option DeclTree
  members : MemberOwner → List Member
  globals : String → List DeclId
  typeParts? : String → Option (List TypePart)
  supers : String → List Ty
  subTypes : String → List String
  operators : String → List Operator
  signatures? : Option (List (NodeRef × Signature))
  references : String → List Reference
  tableOwners? : Option (List (NodeRef × MemberOwner))
  classGlobals : String → List MemberOwner
  moduleNames? : Option (List String)
  moduleReturn? : Option NodeRef
  suppressions? : Option (List Suppression)
  meta? : Option Unit
  roots : List String
  patterns : List String

namespace Index

def part (i : Index) (doc : DocId) : Part where
  declTree? := i.declTrees.get? doc
  members := i.memberStore.valuesOf doc
  globals := i.globalStore.valuesOf doc
  typeParts? := i.types.partsOf? doc
  supers := i.superStore.valuesOf doc
  subTypes := i.subTypeStore.valuesOf doc
  operators := i.operatorStore.valuesOf doc
  signatures? := i.signatures.get? doc
  references := i.referenceStore.valuesOf doc
  tableOwners? := i.tableOwners.get? doc
  classGlobals := i.classGlobalStore.valuesOf doc
  moduleNames? := i.modules.names.get? doc
  moduleReturn? := i.moduleReturns.get? doc
  suppressions? := i.suppressionStore.get? doc
  meta? := i.metaDocs.get? doc
  roots := i.modules.roots
  patterns := i.modules.patterns

def Part.blank (roots patterns : List String) : Part where
  declTree? := none
  members _ := []
  globals _ := []
  typeParts? _ := none
  supers _ := []
  subTypes _ := []
  operators _ := []
  signatures? := none
  references _ := []
  tableOwners? := none
  classGlobals _ := []
  moduleNames? := none
  moduleReturn? := none
  suppressions? := none
  meta? := none
  roots := roots
  patterns := patterns

def Part.OwnsDecls (q : Part) (doc : DocId) : Prop := ∀ t, q.declTree? = some t → t.BelongsTo doc

theorem Part.ownsDecls_blank (roots patterns : List String) (doc : DocId) :
    (Part.blank roots patterns).OwnsDecls doc := by
  intro t ht
  simp [blank] at ht

/-- A step that touches the part of one document only, and goes by nothing but that part. -/
structure Local (doc : DocId) (f : Index → Index) : Prop where
  frame : ∀ i, (i.part doc).OwnsDecls doc → ∀ d, d ≠ doc → (f i).part d = i.part d
  determined : ∀ i j, (i.part doc).OwnsDecls doc → i.part doc = j.part doc →
    (f i).part doc = (f j).part doc
  ownsDecls : ∀ i, (i.part doc).OwnsDecls doc → ((f i).part doc).OwnsDecls doc

variable {doc : DocId} {f g : Index → Index}

theorem Local.of_step (step : Part → Part) (howns : ∀ q, q.OwnsDecls doc → (step q).OwnsDecls doc)
    (h : ∀ i d, (f i).part d = if d = doc then step (i.part d) else i.part d) : Local doc f where
  frame i _ d hd := by rw [h, if_neg hd]
  determined i j _ hij := by rw [h, h, if_pos rfl, if_pos rfl, hij]
  ownsDecls i hi := by
    rw [h, if_pos rfl]
    exact howns _ hi

theorem Local.id : Local doc (fun i => i) := ⟨fun _ _ _ _ => rfl, fun _ _ _ h => h, fun _ h => h⟩

theorem Local.comp (hg : Local doc g) (hf : Local doc f) : Local doc (fun i => g (f i)) where
  frame i hi d hd := (hg.frame _ (hf.ownsDecls i hi) d hd).trans (hf.frame i hi d hd)
  determined i j hi hij := hg.determined _ _ (hf.ownsDecls i hi) (hf.determined i j hi hij)
  ownsDecls i hi := hg.ownsDecls _ (hf.ownsDecls i hi)

theorem Local.foldl {β : Type} {step : Index → β → Index} {bs : List β}
    (h : ∀ b ∈ bs, Local doc fun i => step i b) : Local doc fun i => bs.foldl step i := by
  induction bs with
  | nil => exact Local.id
  | cons b bs ih =>
    obtain ⟨hb, hbs⟩ := List.forall_mem_cons.1 h
    exact (ih hbs).comp hb

theorem Local.ite {p : Prop} [Decidable p] (hf : Local doc f) (hg : Local doc g) :
    Local doc fun i => if p then f i else g i := by
  by_cases hp : p
  · simpa only [hp, if_true] using hf
  · simpa only [hp, if_false] using hg

theorem Local.of_agree (h : ∀ i : Index, (i.part doc).OwnsDecls doc →
    ∃ g, Local doc g ∧ ∀ j, i.part doc = j.part doc → f j = g j) : Local doc f where
  frame i hi d hd := by
    obtain ⟨g, hg, hfg⟩ := h i hi
    rw [hfg i rfl]
    exact hg.frame i hi d hd
  determined i j hi hij := by
    obtain ⟨g, hg, hfg⟩ := h i hi
    rw [hfg i rfl, hfg j hij]
    exact hg.determined i j hi hij
  ownsDecls i hi := by
    obtain ⟨g, hg, hfg⟩ := h i hi
    rw [hfg i rfl]
    exact hg.ownsDecls i hi

theorem declTree?_congr {i j : Index} (h : i.part doc = j.part doc) :
    i.declTree? doc = j.declTree? doc :=
  congrArg Part.declTree? h

theorem tableOwner?_congr {i j : Index} (h : i.part doc = j.part doc) (table : Nat) :
    i.tableOwner? ⟨doc, table⟩ = j.tableOwner? ⟨doc, table⟩ := by
  have howners : i.tableOwners.get? doc = j.tableOwners.get? doc := congrArg Part.tableOwners? h
  rw [tableOwner?, tableOwner?, howners]

theorem part_remove (i : Index) (doc d : DocId) :
    (i.remove doc).part d = if d = doc then .blank i.modules.roots i.modules.patterns
    else i.part d := by
  by_cases hd : d = doc
  · ext <;> simp [part, remove, Part.blank, hd, DocMap.get?_erase, DocMultimap.valuesOf_erase,
      TypeIndex.partsOf?_erase, Modules.remove]
  · ext <;> simp [part, remove, hd, DocMap.get?_erase, DocMultimap.valuesOf_erase,
      TypeIndex.partsOf?_erase, Modules.remove]

theorem part_ofSettings (s : Settings) (doc : DocId) :
    (ofSettings s).part doc = .blank s.workspace.roots s.runtime.requirePatterns := by
  ext <;> simp [part, ofSettings, Part.blank]

theorem local_setDeclTree {t : DeclTree} (ht : t.BelongsTo doc) :
    Local doc fun i => i.setDeclTree t := by
  obtain rfl := ht.doc_eq
  refine .of_step (fun q => { q with declTree? := some t }) (fun q _ u hu => ?_) fun i d => ?_
  · obtain rfl : t = u := by simpa using hu
    exact ht
  · by_cases hd : d = t.doc <;> simp [part, setDeclTree, DocMap.get?_insert, hd]

theorem local_modifyDeclTree {f : DeclTree → DeclTree}
    (hf : ∀ t, t.BelongsTo doc → (f t).BelongsTo doc) :
    Local doc fun i => i.modifyDeclTree doc f := by
  refine .of_step (fun q => { q with declTree? := q.declTree?.map f }) (fun q hq u hu => ?_)
    fun i d => ?_
  · obtain ⟨t, ht, rfl⟩ : ∃ t, q.declTree? = some t ∧ f t = u := by simpa using hu
    exact hf t (hq t ht)
  · cases htree : i.declTrees.get? doc with
    | none => by_cases hd : d = doc <;> simp [part, modifyDeclTree, htree, hd]
    | some t => by_cases hd : d = doc <;> simp [part, modifyDeclTree, htree, DocMap.get?_insert, hd]

theorem local_addMember (m : Member) : Local m.doc fun i => i.addMember m := by
  by_cases hreserved : isReservedOwner m.owner
  · simpa only [addMember, hreserved, if_true] using Local.id
  · refine .of_step (fun q => { q with members := DocMultimap.pushAt m.owner m q.members })
      (fun _ h => h) fun i d => ?_
    by_cases hd : d = m.doc <;> simp [part, addMember, hreserved, DocMultimap.valuesOf_add, hd]

theorem local_addGlobal (name : String) (id : DeclId) : Local id.doc fun i => i.addGlobal name id :=
  .of_step (fun q => { q with globals := DocMultimap.pushAt name id q.globals }) (fun _ h => h)
    fun i d => by
      by_cases hd : d = id.doc <;> simp [part, addGlobal, DocMultimap.valuesOf_add, hd]

theorem local_addTypePart (doc : DocId) (name : String) (p : TypePart) :
    Local doc fun i => i.addTypePart doc name p :=
  .of_step (fun q => { q with typeParts? := TypeIndex.pushPart name p q.typeParts? }) (fun _ h => h)
    fun i d => by
      by_cases hd : d = doc <;> simp [part, addTypePart, TypeIndex.partsOf?_add, hd]

theorem local_addSuper (doc : DocId) (name : String) (super : Ty) :
    Local doc fun i => i.addSuper doc name super := by
  have hsuper : Local doc fun i => { i with superStore := i.superStore.add doc name super } :=
    .of_step (fun q => { q with supers := DocMultimap.pushAt name super q.supers }) (fun _ h => h)
      fun i d => by
        by_cases hd : d = doc <;> simp [part, DocMultimap.valuesOf_add, hd]
  have hsub (superName : String) : Local doc fun i =>
      { i with subTypeStore := i.subTypeStore.add doc superName name } :=
    .of_step (fun q => { q with subTypes := DocMultimap.pushAt superName name q.subTypes })
      (fun _ h => h) fun i d => by
        by_cases hd : d = doc <;> simp [part, DocMultimap.valuesOf_add, hd]
  cases super with
  | ref superName => exact hsuper.comp (hsub superName)
  | _ => exact hsuper

theorem local_addOperator (doc : DocId) (o : Operator) : Local doc fun i => i.addOperator doc o :=
  .of_step (fun q => { q with operators := DocMultimap.pushAt o.owner o q.operators })
    (fun _ h => h) fun i d => by
      by_cases hd : d = doc <;> simp [part, addOperator, DocMultimap.valuesOf_add, hd]

theorem local_addSignature (closure : NodeRef) (s : Signature) :
    Local closure.doc fun i => i.addSignature closure s :=
  .of_step (fun q => { q with signatures? := some ((closure, s) :: q.signatures?.getD []) })
    (fun _ h => h) fun i d => by
      by_cases hd : d = closure.doc <;> simp [part, addSignature, DocMap.get?_insert, hd]

theorem local_modifySignature (closure : NodeRef) (f : Signature → Signature) :
    Local closure.doc fun i => i.modifySignature closure f := by
  let step (signatures : List (NodeRef × Signature)) : List (NodeRef × Signature) :=
    signatures.map fun e => if e.1 == closure then (e.1, f e.2) else e
  refine .of_step (fun q => { q with signatures? := q.signatures?.map step }) (fun _ h => h)
    fun i d => ?_
  cases hsignatures : i.signatures.get? closure.doc with
  | none => by_cases hd : d = closure.doc <;> simp [part, modifySignature, hsignatures, hd]
  | some signatures =>
    by_cases hd : d = closure.doc <;>
      simp [part, modifySignature, hsignatures, DocMap.get?_insert, hd, step]

theorem local_addReference (doc : DocId) (name : String) (r : Reference) :
    Local doc fun i => i.addReference doc name r :=
  .of_step (fun q => { q with references := DocMultimap.pushAt name r q.references }) (fun _ h => h)
    fun i d => by
      by_cases hd : d = doc <;> simp [part, addReference, DocMultimap.valuesOf_add, hd]

theorem local_setTableOwner (table : NodeRef) (owner : MemberOwner) :
    Local table.doc fun i => i.setTableOwner table owner :=
  .of_step (fun q => { q with tableOwners? := some ((table, owner) :: q.tableOwners?.getD []) })
    (fun _ h => h) fun i d => by
      by_cases hd : d = table.doc <;> simp [part, setTableOwner, DocMap.get?_insert, hd]

theorem local_addClassGlobal (doc : DocId) (name : String) (owner : MemberOwner) :
    Local doc fun i => i.addClassGlobal doc name owner :=
  .of_step (fun q => { q with classGlobals := DocMultimap.pushAt name owner q.classGlobals })
    (fun _ h => h) fun i d => by
      by_cases hd : d = doc <;> simp [part, addClassGlobal, DocMultimap.valuesOf_add, hd]

theorem local_addModule (doc : DocId) (path : String) : Local doc fun i => i.addModule doc path :=
  .of_step (fun q => { q with moduleNames? := some (Modules.namesFrom q.roots q.patterns path) })
    (fun _ h => h) fun i d => by
      by_cases hd : d = doc <;> simp [part, addModule, Modules.get?_names_add, hd]

theorem local_setModuleReturn (doc : DocId) (expr : NodeRef) :
    Local doc fun i => i.setModuleReturn doc expr :=
  .of_step (fun q => { q with moduleReturn? := some expr }) (fun _ h => h) fun i d => by
    by_cases hd : d = doc <;> simp [part, setModuleReturn, DocMap.get?_insert, hd]

theorem local_addSuppression (doc : DocId) (s : Suppression) :
    Local doc fun i => i.addSuppression doc s :=
  .of_step (fun q => { q with suppressions? := some (q.suppressions?.getD [] ++ [s]) })
    (fun _ h => h) fun i d => by
      by_cases hd : d = doc <;> simp [part, addSuppression, DocMap.get?_insert, hd]

theorem local_setMeta (doc : DocId) : Local doc fun i => i.setMeta doc :=
  .of_step (fun q => { q with meta? := some () }) (fun _ h => h) fun i d => by
    by_cases hd : d = doc <;> simp [part, setMeta, DocMap.get?_insert, hd]

/-- Two indexes that no question can tell apart. -/
structure SameAnswers (i j : Index) : Prop where
  declTree? : ∀ doc, i.declTree? doc = j.declTree? doc
  decl? : ∀ id, i.decl? id = j.decl? id
  members : ∀ owner, i.members owner = j.members owner
  member? : ∀ owner key, i.member? owner key = j.member? owner key
  membersOf : ∀ doc, (i.membersOf doc).Perm (j.membersOf doc)
  globals : ∀ name, i.globals name = j.globals name
  hasGlobal : ∀ name, i.hasGlobal name = j.hasGlobal name
  allGlobals : i.allGlobals = j.allGlobals
  typeDecl? : ∀ name, i.typeDecl? name = j.typeDecl? name
  typeNames : i.typeNames.Perm j.typeNames
  typeNamesOf : ∀ doc, (i.typeNamesOf doc).Perm (j.typeNamesOf doc)
  supers : ∀ name, i.supers name = j.supers name
  subTypes : ∀ name, i.subTypes name = j.subTypes name
  operators : ∀ name, i.operators name = j.operators name
  references : ∀ name, i.references name = j.references name
  signature? : ∀ closure, i.signature? closure = j.signature? closure
  tableOwner? : ∀ table, i.tableOwner? table = j.tableOwner? table
  classGlobals : ∀ name, i.classGlobals name = j.classGlobals name
  module? : ∀ name, i.modules.find? name = j.modules.find? name
  moduleNames : ∀ doc, i.modules.of doc = j.modules.of doc
  moduleReturn? : ∀ doc, i.moduleReturn? doc = j.moduleReturn? doc
  suppressions : ∀ doc, i.suppressions doc = j.suppressions doc
  isMeta : ∀ doc, i.isMeta doc = j.isMeta doc

variable {i j : Index}

theorem mergeSort_eq_of_perm {xs ys : List String} (h : xs.Perm ys) :
    (xs.mergeSort fun a b => a ≤ b) = ys.mergeSort fun a b => a ≤ b := by
  have hsorted (zs : List String) : (zs.mergeSort fun a b => a ≤ b).Pairwise (· ≤ ·) := by
    have hpair : (zs.mergeSort fun a b => decide (a ≤ b)).Pairwise fun a b =>
        decide (a ≤ b) = true :=
      List.pairwise_mergeSort (by simpa using fun a b c => le_trans)
        (by simpa using fun a b => le_total a b) zs
    simpa using hpair
  refine List.Perm.eq_of_pairwise (fun a b _ _ => le_antisymm) (hsorted xs) (hsorted ys) ?_
  exact (List.mergeSort_perm _ _).trans (h.trans (List.mergeSort_perm _ _).symm)

theorem typeNames_perm (h : ∀ doc, i.part doc = j.part doc) : i.typeNames.Perm j.typeNames := by
  refine (List.perm_ext_iff_of_nodup i.types.nodup_names j.types.nodup_names).2 fun name => ?_
  have hparts : i.types.get? name = j.types.get? name :=
    i.types.get?_congr fun doc => congrFun (congrArg Part.typeParts? (h doc)) name
  rw [TypeIndex.mem_names_iff, TypeIndex.mem_names_iff, hparts]

theorem typeNamesOf_perm {doc : DocId} (h : i.part doc = j.part doc) :
    (i.typeNamesOf doc).Perm (j.typeNamesOf doc) := by
  refine (List.perm_ext_iff_of_nodup (i.types.nodup_namesOf doc) (j.types.nodup_namesOf doc)).2
    fun name => ?_
  have hparts : i.types.partsOf? doc = j.types.partsOf? doc := congrArg Part.typeParts? h
  rw [TypeIndex.mem_namesOf_iff, TypeIndex.mem_namesOf_iff, hparts]

theorem sameAnswers_of_parts (h : ∀ doc, i.part doc = j.part doc) : SameAnswers i j := by
  have hdeclTree doc : i.declTree? doc = j.declTree? doc := declTree?_congr (h doc)
  have hdecl id : i.decl? id = j.decl? id := by rw [decl?, decl?, hdeclTree]
  have hmembers owner : i.members owner = j.members owner :=
    DocMultimap.values_congr (fun doc => congrArg Part.members (h doc)) owner
  have hglobalStore doc : i.globalStore.valuesOf doc = j.globalStore.valuesOf doc :=
    congrArg Part.globals (h doc)
  have hglobals name : i.globals name = j.globals name := by
    rw [globals, globals, DocMultimap.values_congr hglobalStore, funext hdecl]
  have hnames doc : i.modules.names.get? doc = j.modules.names.get? doc :=
    congrArg Part.moduleNames? (h doc)
  have hsignatures doc : i.signatures.get? doc = j.signatures.get? doc :=
    congrArg Part.signatures? (h doc)
  have hsuppressions doc : i.suppressionStore.get? doc = j.suppressionStore.get? doc :=
    congrArg Part.suppressions? (h doc)
  have hmeta doc : i.metaDocs.get? doc = j.metaDocs.get? doc := congrArg Part.meta? (h doc)
  exact {
    declTree? := hdeclTree
    decl? := hdecl
    members := hmembers
    member? := fun owner key => by rw [member?, member?, hmembers]
    membersOf := fun doc => (DocMultimap.entriesOf_perm (congrArg Part.members (h doc))).map _
    globals := hglobals
    hasGlobal := DocMultimap.hasKey_congr hglobalStore
    allGlobals := by rw [allGlobals, allGlobals,
      mergeSort_eq_of_perm (DocMultimap.keys_perm hglobalStore), funext hglobals]
    typeDecl? := fun name => i.types.get?_congr fun doc =>
      congrFun (congrArg Part.typeParts? (h doc)) name
    typeNames := typeNames_perm h
    typeNamesOf := fun doc => typeNamesOf_perm (h doc)
    supers := DocMultimap.values_congr fun doc => congrArg Part.supers (h doc)
    subTypes := DocMultimap.values_congr fun doc => congrArg Part.subTypes (h doc)
    operators := DocMultimap.values_congr fun doc => congrArg Part.operators (h doc)
    references := fun name =>
      i.referenceStore.withDoc_congr fun doc => congrFun (congrArg Part.references (h doc)) name
    signature? := fun closure => by rw [signature?, signature?, hsignatures]
    tableOwner? := fun table => tableOwner?_congr (h table.doc) table.element
    classGlobals := DocMultimap.values_congr fun doc => congrArg Part.classGlobals (h doc)
    module? := i.modules.find?_congr hnames
    moduleNames := fun doc => by rw [Modules.of, Modules.of, hnames]
    moduleReturn? := fun doc => congrArg Part.moduleReturn? (h doc)
    suppressions := fun doc => by rw [suppressions, suppressions, hsuppressions]
    isMeta := fun doc => by rw [isMeta, isMeta, DocMap.contains, DocMap.contains, hmeta] }

end Index

end LuaAnalysis.Workspace
