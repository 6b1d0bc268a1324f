import LuaAnalysis.Proofs.Index.History
import LuaAnalysis.Proofs.Index.Passes

/-!
Nothing in an index dangles: after any edits, what it refers to are nodes of the trees of open
documents and names that these declare.
-/

namespace LuaAnalysis.Workspace

open Document LuaAnalysis.Types Scope Syntax Settings Report Index

/-- What one document wrote leads to nodes of its tree and to names that it declares. -/
structure Index.Part.Grounded (q : Part) (t : Tree) (doc : DocId) (bound : DeclTree)
    (Owned : MemberOwner → Prop) : Prop where
  decls : ∀ decls, q.declTree? = some decls → bound.Redescribes decls
  members : ∀ owner, ∀ m ∈ q.members owner, m.owner = owner ∧ m.Within t doc Owned
  globals : ∀ name, ∀ id ∈ q.globals name, ∃ d ∈ bound.decls, d.id = id ∧ d.name = name ∧
    d.isGlobal = true
  signatures : ∀ signatures, q.signatures? = some signatures →
    ∀ e ∈ signatures, t.HasKind doc .closureExpr e.1
  tableOwners : ∀ owners, q.tableOwners? = some owners →
    ∀ e ∈ owners, t.HasKind doc .tableExpr e.1 ∧ Owned e.2
  classGlobals : ∀ name, ∀ owner ∈ q.classGlobals name, Owned owner
  moduleReturn : ∀ expr, q.moduleReturn? = some expr → t.Has doc expr

variable {t : Tree} {doc : DocId} {bound : DeclTree} {Owned : MemberOwner → Prop} {i j : Index}
  {recorded : List Suppression}

theorem Write.grounded (h : Write t doc bound Owned i recorded j)
    (hi : (i.part doc).Grounded t doc bound Owned) : (j.part doc).Grounded t doc bound Owned := by
  cases h with
  | redescribe hf =>
    unfold modifyDeclTree
    split
    · rename_i decls hdecls
      refine { hi with decls := fun u hu => ?_ }
      obtain rfl : _ = u := by simpa [part, DocMap.get?_insert] using hu
      exact (hi.decls decls hdecls).trans (hf decls)
    · exact hi
  | super name super => cases super <;> exact { hi with }
  | signature s hclosure =>
    refine { hi with signatures := fun signatures hs e he => ?_ }
    obtain rfl : _ = signatures := by simpa [part, addSignature, DocMap.get?_insert] using hs
    rcases List.mem_cons.1 he with rfl | he
    · exact Tree.hasKind_mk hclosure
    · cases hold : i.signatures.get? doc with
      | none => simp [hold] at he
      | some old => exact hi.signatures old hold e (by simpa [hold] using he)
  | describe closure f =>
    unfold modifySignature
    split
    · rename_i old hold
      refine { hi with signatures := fun signatures hs e he => ?_ }
      obtain rfl : _ = signatures := by simpa [part, DocMap.get?_insert] using hs
      obtain ⟨e', he', rfl⟩ := List.mem_map.1 he
      have hkept := hi.signatures old hold e' he'
      split <;> exact hkept
    · exact hi
  | global hd hglobal =>
    refine { hi with globals := fun name id hid => ?_ }
    rcases DocMultimap.mem_valuesOf_add hid with ⟨-, rfl, rfl⟩ | hold
    · exact ⟨_, hd, rfl, rfl, hglobal⟩
    · exact hi.globals name id hold
  | classGlobal name howner =>
    refine { hi with classGlobals := fun name owner hmem => ?_ }
    rcases DocMultimap.mem_valuesOf_add hmem with ⟨-, -, rfl⟩ | hold
    · exact howner
    · exact hi.classGlobals name owner hold
  | member hm =>
    unfold addMember
    split
    · exact hi
    · refine { hi with members := fun owner m hmem => ?_ }
      rcases DocMultimap.mem_valuesOf_add hmem with ⟨-, rfl, rfl⟩ | hold
      · exact ⟨rfl, hm⟩
      · exact hi.members owner m hold
  | tableOwner htable howner =>
    refine { hi with tableOwners := fun owners hs e he => ?_ }
    obtain rfl : _ = owners := by simpa [part, setTableOwner, DocMap.get?_insert] using hs
    rcases List.mem_cons.1 he with rfl | he
    · exact ⟨Tree.hasKind_mk htable, howner⟩
    · cases hold : i.tableOwners.get? doc with
      | none => simp [hold] at he
      | some old => exact hi.tableOwners old hold e (by simpa [hold] using he)
  | moduleReturn hexpr =>
    refine { hi with moduleReturn := fun expr he => ?_ }
    obtain rfl : _ = expr := by simpa [part, setModuleReturn, DocMap.get?_insert] using he
    exact hexpr
  | _ => exact { hi with }

theorem Writes.grounded (h : Writes t doc bound Owned i recorded j)
    (hi : (i.part doc).Grounded t doc bound Owned) : (j.part doc).Grounded t doc bound Owned := by
  induction h with
  | refl => exact hi
  | tail _ hlast ih => exact hlast.grounded ih

theorem Index.Part.grounded_blank (roots patterns : List String) :
    (Part.blank roots patterns).Grounded t doc bound Owned := by
  constructor <;> simp [Part.blank]

def OwnedWithin (t : Tree) (doc : DocId) (bound : DeclTree) : MemberOwner → Prop
  | .local id _ => (bound.decl? id).isSome = true
  | .element n => t.HasKind doc .tableExpr n
  | .type _ | .global _ => True

theorem admits_ownedWithin (t : Tree) (doc : DocId) (bound : DeclTree) :
    Admits t doc bound (OwnedWithin t doc bound) where
  ofType _ := trivial
  ofGlobal _ := trivial
  ofLocal _ _ h := h
  ofTable _ h := Tree.hasKind_mk h
  child owner key below howner hchild := by
    cases owner <;> cases key <;> simp only [MemberOwner.child?, Option.some.injEq,
      reduceCtorEq] at hchild
    · subst hchild
      trivial
    · subst hchild
      exact howner

section Source

variable (settings : Settings) (s : Source)

theorem grounded_writeDecls
    (hi : (i.part s.id).Grounded s.tree s.id (bindDocument s.tree s.id) Owned) :
    ((writeDecls s i).part s.id).Grounded s.tree s.id (bindDocument s.tree s.id) Owned := by
  have hset : ((i.setDeclTree (bindDocument s.tree s.id)).part s.id).Grounded s.tree s.id
      (bindDocument s.tree s.id) Owned := by
    refine { hi with decls := fun u hu => ?_ }
    have hdoc : (bindDocument s.tree s.id).doc = s.id := (bindDocument_belongsTo s.tree s.id).doc_eq
    obtain rfl : bindDocument s.tree s.id = u := by
      simpa [part, setDeclTree, DocMap.get?_insert, hdoc] using hu
    exact .refl _
  unfold writeDecls
  dsimp only
  split
  · exact { hset with }
  · exact hset

theorem grounded_part : (Source.part settings s).Grounded s.tree s.id (bindDocument s.tree s.id)
    (OwnedWithin s.tree s.id (bindDocument s.tree s.id)) := by
  have hblank : ((ofSettings settings).part s.id).Grounded s.tree s.id (bindDocument s.tree s.id)
      (OwnedWithin s.tree s.id (bindDocument s.tree s.id)) := by
    rw [part_ofSettings]
    exact Part.grounded_blank _ _
  have hdecls := grounded_writeDecls s hblank
  refine (writes_analyze settings (admits_ownedWithin s.tree s.id _)
    ⟨holds_writeDecls s _, ?_⟩).grounded hdecls
  exact fun owners howners e he => (hdecls.tableOwners owners howners e he).2

theorem exists_declTree_part : ∃ decls, (Source.part settings s).declTree? = some decls ∧
    (bindDocument s.tree s.id).Redescribes decls :=
  holds_analyze settings s (ofSettings settings)

end Source

namespace Project

/-- A reference leads to a node of the tree of an open document. -/
def Resolves (p : Project) (n : NodeRef) : Prop := ∃ t, p.treeOf? n = some t

def ResolvesTo (p : Project) (kind : NodeKind) (n : NodeRef) : Prop :=
  ∃ t, p.treeOf? n = some t ∧ t.nodeKind? n.element = some kind

/-- An owner that is a local is declared, and one that is a table is there. -/
def OwnerExists (p : Project) : MemberOwner → Prop
  | .local id _ => (p.index.decl? id).isSome = true
  | .element n => p.ResolvesTo .tableExpr n
  | .type _ | .global _ => True

/-- All references of an index lead somewhere. A document that is not open wrote nothing, and the
tree of one that is open is that of its text. -/
structure NoDangling (p : Project) : Prop where
  current : ∀ doc s, p.source? doc = some s → s.id = doc ∧ s.tree = parse s.text
  closed : ∀ doc, p.source? doc = none →
    p.index.part doc = .blank p.index.modules.roots p.index.modules.patterns
  declTree : ∀ doc decls, p.index.declTree? doc = some decls → decls.doc = doc ∧
    (∀ b ∈ decls.blocks, ∀ id ∈ b.decls, (decls.decl? id).isSome = true) ∧
    ∀ r ∈ decls.references, (decls.decl? r.1).isSome = true
  decl : ∀ doc decls, p.index.declTree? doc = some decls → ∀ d ∈ decls.decls, d.id.doc = doc ∧
    p.Resolves d.node ∧
    (∀ v, d.value? = some v → p.Resolves v.expr) ∧ ∀ c, d.kind.closure? = some c →
    p.ResolvesTo .closureExpr c
  global : ∀ name doc id, (doc, id) ∈ p.index.globalStore.withDoc name → id.doc = doc ∧
    ∃ d, p.index.decl? id = some d ∧ d.name = name ∧ d.isGlobal = true
  member : ∀ owner doc m, (doc, m) ∈ p.index.memberStore.withDoc owner → m.doc = doc ∧
    m.owner = owner ∧
    p.OwnerExists owner ∧ p.Resolves m.node ∧ ∀ v, m.value? = some v → p.Resolves v
  signature : ∀ doc signatures, p.index.signatures.get? doc = some signatures →
    ∀ e ∈ signatures, p.ResolvesTo .closureExpr e.1
  tableOwner : ∀ doc owners, p.index.tableOwners.get? doc = some owners →
    ∀ e ∈ owners, p.ResolvesTo .tableExpr e.1 ∧ p.OwnerExists e.2
  classGlobal : ∀ name, ∀ owner ∈ p.index.classGlobals name, p.OwnerExists owner
  moduleReturn : ∀ doc expr, p.index.moduleReturn? doc = some expr → expr.doc = doc ∧
    p.Resolves expr

variable {settings : Settings} {p : Project} {s : Source} {n : NodeRef} {kind : NodeKind}

theorem resolves_of_has (hs : p.source? doc = some s) (h : s.tree.Has doc n) : p.Resolves n := by
  obtain ⟨rfl, hnode⟩ := h
  rw [source?] at hs
  exact ⟨s.tree, by simp [treeOf?, tree?, hs, hnode]⟩

theorem resolvesTo_of_hasKind (hs : p.source? doc = some s) (h : s.tree.HasKind doc kind n) :
    p.ResolvesTo kind n := by
  obtain ⟨rfl, hkind⟩ := h
  rw [source?] at hs
  exact ⟨s.tree, by simp [treeOf?, tree?, hs, Tree.isNode_of_nodeKind? hkind], hkind⟩

namespace Faithful

theorem closed (h : p.Faithful) (hs : p.source? doc = none) :
    p.index.part doc = .blank p.index.modules.roots p.index.modules.patterns := by
  obtain ⟨hroots, hpatterns⟩ := h.index_eq.modules_eq
  rw [source?] at hs
  rw [(h.index_eq doc).2, hs, hroots, hpatterns]
  rfl

theorem grounded (h : p.Faithful) (hs : p.source? doc = some s) :
    (p.index.part doc).Grounded s.tree doc (bindDocument s.tree doc)
    (OwnedWithin s.tree doc (bindDocument s.tree doc)) := by
  obtain ⟨rfl, hpart⟩ := h.part_eq hs
  rw [hpart]
  exact grounded_part p.settings s

theorem exists_declTree (h : p.Faithful) (hs : p.source? doc = some s) :
    ∃ decls, p.index.declTree? doc = some decls ∧ (bindDocument s.tree doc).Redescribes decls := by
  obtain ⟨rfl, hpart⟩ := h.part_eq hs
  obtain ⟨decls, hdecls, hmore⟩ := exists_declTree_part p.settings s
  exact ⟨decls, (congrArg Part.declTree? hpart).trans hdecls, hmore⟩

theorem exists_source {α : Type} (h : p.Faithful) (get : Part → α)
    (hne : get (p.index.part doc) ≠ get (.blank p.index.modules.roots p.index.modules.patterns)) :
    ∃ s, p.source? doc = some s := by
  cases hs : p.source? doc with
  | none => exact absurd (congrArg get (h.closed hs)) hne
  | some s => exact ⟨s, rfl⟩

theorem finished (h : p.Faithful) {decls : DeclTree} (hdecls : p.index.declTree? doc = some decls) :
    decls.Finished := by
  obtain ⟨s, hs⟩ := h.exists_source (·.declTree?) (hdecls ▸ Option.some_ne_none _)
  exact ⟨s.tree, doc, (h.grounded hs).decls decls hdecls⟩

theorem ownerExists (h : p.Faithful) (hs : p.source? doc = some s) {owner : MemberOwner}
    (howner : OwnedWithin s.tree doc (bindDocument s.tree doc) owner) : p.OwnerExists owner := by
  cases owner with
  | type name => trivial
  | global path => trivial
  | «local» id path =>
    obtain ⟨decls, hdecls, hmore⟩ := h.exists_declTree hs
    obtain ⟨d, hd, rfl⟩ := DeclTree.isSome_decl?_iff.1 howner
    have hdoc : d.id.doc = doc := ((bindDocument_within s.tree doc).decl d hd).id_doc
    rw [OwnerExists, Index.decl?, hdoc, hdecls, Option.bind_some]
    exact (hmore.isSome_decl?_iff _).2 howner
  | element n => exact resolvesTo_of_hasKind hs howner

theorem noDangling (h : p.Faithful) : p.NoDangling where
  current doc s hs := ⟨(h.part_eq hs).1, congrArg Source.tree (h.source_eq doc s hs)⟩
  closed _ := h.closed
  declTree doc decls hdecls := by
    obtain ⟨s, hs⟩ := h.exists_source (·.declTree?) (hdecls ▸ Option.some_ne_none _)
    have hwithin := ((h.grounded hs).decls decls hdecls).within (bindDocument_within s.tree doc)
    exact ⟨hwithin.doc_eq, hwithin.listed, hwithin.used⟩
  decl doc decls hdecls d hd := by
    obtain ⟨s, hs⟩ := h.exists_source (·.declTree?) (hdecls ▸ Option.some_ne_none _)
    have hwithin := ((h.grounded hs).decls decls hdecls).within (bindDocument_within s.tree doc)
    obtain ⟨hid, hnode, hvalue, hclosure⟩ := hwithin.decl d hd
    refine ⟨hid, resolves_of_has hs hnode, fun v hv => ?_, fun c hc => ?_⟩
    · exact resolves_of_has hs (hvalue v hv)
    · exact resolvesTo_of_hasKind hs (hclosure c hc)
  global name doc id hid := by
    rw [DocMultimap.mem_withDoc_iff] at hid
    obtain ⟨s, hs⟩ := h.exists_source (·.globals name) (List.ne_nil_of_mem hid)
    obtain ⟨d, hd, rfl, hname, hglobal⟩ := (h.grounded hs).globals name id hid
    have hbound := bindDocument_within s.tree doc
    have hdoc : d.id.doc = doc := (hbound.decl d hd).id_doc
    obtain ⟨decls, hdecls, hmore⟩ := h.exists_declTree hs
    obtain ⟨d', hd', hsame⟩ := hmore.exists_decl? hbound.nodup hd
    refine ⟨hdoc, d', ?_, hsame.name_eq.trans hname, ?_⟩
    · rw [Index.decl?, hdoc, hdecls, Option.bind_some, hd']
    · rwa [Decl.isGlobal, hsame.kind_eq]
  member owner doc m hm := by
    rw [DocMultimap.mem_withDoc_iff] at hm
    obtain ⟨s, hs⟩ := h.exists_source (·.members owner) (List.ne_nil_of_mem hm)
    obtain ⟨howner, hwithin⟩ := (h.grounded hs).members owner m hm
    refine ⟨hwithin.doc_eq, howner, ?_, resolves_of_has hs hwithin.node, fun v hv => ?_⟩
    · exact howner ▸ h.ownerExists hs hwithin.owner
    · exact resolves_of_has hs (hwithin.value v hv)
  signature doc signatures hsignatures e he := by
    obtain ⟨s, hs⟩ := h.exists_source (·.signatures?) (hsignatures ▸ Option.some_ne_none _)
    exact resolvesTo_of_hasKind hs ((h.grounded hs).signatures signatures hsignatures e he)
  tableOwner doc owners howners e he := by
    obtain ⟨s, hs⟩ := h.exists_source (·.tableOwners?) (howners ▸ Option.some_ne_none _)
    obtain ⟨htable, howner⟩ := (h.grounded hs).tableOwners owners howners e he
    exact ⟨resolvesTo_of_hasKind hs htable, h.ownerExists hs howner⟩
  classGlobal name owner howner := by
    obtain ⟨⟨doc, _⟩, hentry, rfl⟩ := List.mem_map.1 howner
    rw [DocMultimap.mem_withDoc_iff] at hentry
    obtain ⟨s, hs⟩ := h.exists_source (·.classGlobals name) (List.ne_nil_of_mem hentry)
    exact h.ownerExists hs ((h.grounded hs).classGlobals name _ hentry)
  moduleReturn doc expr hexpr := by
    obtain ⟨s, hs⟩ := h.exists_source (·.moduleReturn?) (hexpr ▸ Option.some_ne_none _)
    have hhas := (h.grounded hs).moduleReturn expr hexpr
    exact ⟨hhas.1, resolves_of_has hs hhas⟩

end Faithful

/-- After any edits, nothing in the index dangles. -/
theorem run_noDangling (settings : Settings) (edits : List Edit) :
    ((ofSettings settings).run edits).NoDangling :=
  ((faithful_ofSettings settings).run edits).noDangling

end Project

end LuaAnalysis.Workspace
