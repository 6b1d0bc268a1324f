import LuaAnalysis.Proofs.Scope.Redescription
import LuaAnalysis.Workspace.Index

/-!
The writes that the passes over a document consist of. What an index keeps while a document is
analyzed is what each of these keeps.
-/

namespace LuaAnalysis.Workspace

open Document LuaAnalysis.Types Scope Syntax Report

/-- Owners that a document may give to its tables and members: named ones, its own locals and its
own tables, with all that lies below them. -/
structure Admits (t : Tree) (doc : DocId) (bound : DeclTree)
    (Owned : MemberOwner → Prop) : Prop where
  ofType : ∀ name, Owned (.type name)
  ofGlobal : ∀ path, Owned (.global path)
  ofLocal : ∀ id path, (bound.decl? id).isSome = true → Owned (.local id path)
  ofTable : ∀ table, t.nodeKind? table = some .tableExpr → Owned (.element ⟨doc, table⟩)
  child : ∀ owner key below, Owned owner → owner.child? key = some below → Owned below

theorem admits_any (t : Tree) (doc : DocId) (bound : DeclTree) : Admits t doc bound fun _ => True :=
  ⟨fun _ => trivial, fun _ => trivial, fun _ _ _ => trivial, fun _ _ => trivial,
    fun _ _ _ _ _ => trivial⟩

/-- A member that a document defines at one of its nodes. -/
structure Member.Within (m : Member) (t : Tree) (doc : DocId)
    (Owned : MemberOwner → Prop) : Prop where
  doc_eq : m.doc = doc
  node : t.Has doc m.node
  value : ∀ v, m.value? = some v → t.Has doc v
  owner : Owned m.owner

section

variable (t : Tree) (doc : DocId) (bound : DeclTree) (Owned : MemberOwner → Prop)

/-- One write to an index, with the suppressions that it records. -/
inductive Write (i : Index) : List Suppression → Index → Prop where
  | redescribe {f : DeclTree → DeclTree} (hf : ∀ decls : DeclTree, decls.Redescribes (f decls)) :
      Write i [] (i.modifyDeclTree doc f)
  | typePart (name : String) (part : TypePart) : Write i [] (i.addTypePart doc name part)
  | super (name : String) (super : Ty) : Write i [] (i.addSuper doc name super)
  | operator (o : Operator) : Write i [] (i.addOperator doc o)
  | suppression (s : Suppression) : Write i [s] (i.addSuppression doc s)
  | markMeta : Write i [] (i.setMeta doc)
  | reference (name : String) (r : Reference) : Write i [] (i.addReference doc name r)
  | signature {closure : ElementId} (s : Signature) (h : t.nodeKind? closure = some .closureExpr) :
      Write i [] (i.addSignature ⟨doc, closure⟩ s)
  | describe (closure : ElementId) (f : Signature → Signature) :
      Write i [] (i.modifySignature ⟨doc, closure⟩ f)
  | global {d : Decl} (hd : d ∈ bound.decls) (hglobal : d.isGlobal = true) :
      Write i [] (i.addGlobal d.name d.id)
  | classGlobal (name : String) {owner : MemberOwner} (h : Owned owner) :
      Write i [] (i.addClassGlobal doc name owner)
  | member {m : Member} (h : m.Within t doc Owned) : Write i [] (i.addMember m)
  | tableOwner {table : ElementId} {owner : MemberOwner}
      (htable : t.nodeKind? table = some .tableExpr) (howner : Owned owner) :
      Write i [] (i.setTableOwner ⟨doc, table⟩ owner)
  | moduleReturn {expr : NodeRef} (h : t.Has doc expr) : Write i [] (i.setModuleReturn doc expr)

/-- Any number of writes, with the suppressions that they record in their order. -/
inductive Writes (i : Index) : List Suppression → Index → Prop where
  | refl : Writes i [] i
  | tail {j k : Index} {before after : List Suppression} (h : Writes i before j)
      (hlast : Write t doc bound Owned j after k) : Writes i (before ++ after) k

end

variable {t : Tree} {doc : DocId} {bound : DeclTree} {Owned : MemberOwner → Prop}
  {i j k : Index} {before after recorded : List Suppression}

namespace Writes

theorem single (h : Write t doc bound Owned i recorded j) : Writes t doc bound Owned i recorded j :=
  Writes.refl.tail h

theorem trans (h : Writes t doc bound Owned i before j) (h' : Writes t doc bound Owned j after k) :
    Writes t doc bound Owned i (before ++ after) k := by
  induction h' with
  | refl => simpa using h
  | tail _ hlast ih =>
    rw [← List.append_assoc]
    exact ih.tail hlast

end Writes

namespace Index

/-- The declarations of a document are those that were found in it, with more said about them. -/
def Holds (i : Index) (doc : DocId) (bound : DeclTree) : Prop :=
  ∃ decls, i.declTree? doc = some decls ∧ bound.Redescribes decls

/-- What the passes over a document read back: its declarations, and owners that it gave to its
tables. -/
structure Readable (i : Index) (doc : DocId) (bound : DeclTree)
    (Owned : MemberOwner → Prop) : Prop where
  holds : i.Holds doc bound
  owned : ∀ owners, i.tableOwners.get? doc = some owners → ∀ e ∈ owners, Owned e.2

theorem Holds.modifyDeclTree (h : i.Holds doc bound) {f : DeclTree → DeclTree}
    (hf : ∀ t : DeclTree, t.Redescribes (f t)) : (i.modifyDeclTree doc f).Holds doc bound := by
  obtain ⟨decls, hdecls, hmore⟩ := h
  refine ⟨f decls, ?_, hmore.trans (hf decls)⟩
  rw [declTree?] at hdecls ⊢
  rw [Index.modifyDeclTree, hdecls, DocMap.get?_insert, if_pos rfl]

theorem tableOwners_modifyDeclTree (i : Index) (doc : DocId) (f : DeclTree → DeclTree) :
    (i.modifyDeclTree doc f).tableOwners = i.tableOwners := by
  unfold modifyDeclTree
  split <;> rfl

theorem owned_of_tableOwner? (h : i.Readable doc bound Owned) {table : ElementId}
    {owner : MemberOwner} (howner : i.tableOwner? ⟨doc, table⟩ = some owner) : Owned owner := by
  simp only [tableOwner?, Option.bind_eq_bind, Option.bind_eq_some_iff,
    Option.map_eq_some_iff] at howner
  obtain ⟨owners, howners, e, he, rfl⟩ := howner
  exact h.owned owners howners e (List.mem_of_find?_eq_some he)

end Index

open Index

theorem Write.readable (h : Write t doc bound Owned i recorded j)
    (hi : i.Readable doc bound Owned) : j.Readable doc bound Owned := by
  obtain ⟨hholds, howned⟩ := hi
  cases h with
  | redescribe hf => exact ⟨hholds.modifyDeclTree hf, by rwa [tableOwners_modifyDeclTree]⟩
  | tableOwner htable howner =>
    refine ⟨hholds, fun owners howners e he => ?_⟩
    rw [setTableOwner, DocMap.get?_insert, if_pos rfl, Option.some.injEq] at howners
    subst howners
    rcases List.mem_cons.1 he with rfl | he
    · exact howner
    · cases hold : i.tableOwners.get? doc with
      | none => simp [hold] at he
      | some old => exact howned old hold e (by simpa [hold] using he)
  | super name super => cases super <;> exact ⟨hholds, howned⟩
  | describe closure f =>
    unfold modifySignature
    split <;> exact ⟨hholds, howned⟩
  | member hm =>
    unfold addMember
    split <;> exact ⟨hholds, howned⟩
  | _ => exact ⟨hholds, howned⟩

theorem Writes.readable (h : Writes t doc bound Owned i recorded j)
    (hi : i.Readable doc bound Owned) : j.Readable doc bound Owned := by
  induction h with
  | refl => exact hi
  | tail _ hlast ih => exact hlast.readable ih

theorem Write.suppressions (h : Write t doc bound Owned i recorded j) :
    j.suppressions doc = i.suppressions doc ++ recorded := by
  cases h with
  | suppression s => simp [Index.suppressions, addSuppression, DocMap.get?_insert]
  | redescribe hf =>
    unfold modifyDeclTree
    split <;> simp [Index.suppressions]
  | super name super => cases super <;> simp [Index.suppressions, addSuper]
  | describe closure f =>
    unfold modifySignature
    split <;> simp [Index.suppressions]
  | member hm =>
    unfold addMember
    split <;> simp [Index.suppressions]
  | _ => exact (List.append_nil _).symm

theorem Writes.suppressions (h : Writes t doc bound Owned i recorded j) :
    j.suppressions doc = i.suppressions doc ++ recorded := by
  induction h with
  | refl => simp
  | tail _ hlast ih => rw [hlast.suppressions, ih, List.append_assoc]

/-- A pass that only writes, whatever it may read back. -/
def Emits (t : Tree) (doc : DocId) (bound : DeclTree) (Owned : MemberOwner → Prop)
    (recorded : List Suppression) (f : Index → Index) : Prop :=
  ∀ i : Index, i.Readable doc bound Owned → Writes t doc bound Owned i recorded (f i)

namespace Emits

variable {f g : Index → Index}

theorem of_write (h : ∀ i, Write t doc bound Owned i recorded (f i)) :
    Emits t doc bound Owned recorded f :=
  fun i _ => .single (h i)

theorem id : Emits t doc bound Owned [] fun i => i := fun _ _ => .refl

theorem comp (hg : Emits t doc bound Owned after g) (hf : Emits t doc bound Owned before f) :
    Emits t doc bound Owned (before ++ after) fun i => g (f i) := by
  intro i hi
  have hfi := hf i hi
  exact hfi.trans (hg _ (hfi.readable hi))

theorem foldl {α : Type} {step : Index → α → Index} {as : List α} {recorded : α → List Suppression}
    (h : ∀ a ∈ as, Emits t doc bound Owned (recorded a) fun i => step i a) :
    Emits t doc bound Owned (as.flatMap recorded) fun i => as.foldl step i := by
  induction as with
  | nil => exact .id
  | cons a as ih =>
    obtain ⟨ha, has⟩ := List.forall_mem_cons.1 h
    exact (ih has).comp ha

theorem foldl_nil {α : Type} {step : Index → α → Index} {as : List α}
    (h : ∀ a ∈ as, Emits t doc bound Owned [] fun i => step i a) :
    Emits t doc bound Owned [] fun i => as.foldl step i := by
  have hnone : as.flatMap (fun _ => ([] : List Suppression)) = [] :=
    List.flatMap_eq_nil_iff.2 fun _ _ => rfl
  exact hnone ▸ foldl h

theorem ite {p : Prop} [Decidable p] (hf : Emits t doc bound Owned recorded f)
    (hg : Emits t doc bound Owned recorded g) : Emits t doc bound Owned recorded fun i =>
      if p then f i else g i := by
  by_cases hp : p
  · simpa only [hp, if_true] using hf
  · simpa only [hp, if_false] using hg

end Emits

end LuaAnalysis.Workspace
