import Mathlib.Data.List.Nodup
import LuaAnalysis.Proofs.Syntax.Nodes
import LuaAnalysis.Scope.Binding

namespace LuaAnalysis.Scope

open Document LuaAnalysis.Types Syntax

def DeclKind.closure? : DeclKind → Option NodeRef
  | .param _ closure | .implicitSelf closure => some closure
  | .local _ | .loopVar | .global => none

/-- A declaration of a document, all of whose references lead to nodes of a tree. -/
structure Decl.Within (d : Decl) (tree : Tree) (doc : DocId) : Prop where
  id_doc : d.id.doc = doc
  node : tree.Has doc d.node
  value : ∀ v, d.value? = some v → tree.Has doc v.expr
  closure : ∀ c, d.kind.closure? = some c → tree.HasKind doc .closureExpr c

/-- A property of declarations that opening a scope, declaring a name of the document and using a
declared name keep. -/
structure DeclTree.Inductive (tree : Tree) (doc : DocId) (P : DeclTree → Prop) : Prop where
  pushBlock : ∀ t parent kind span, P t → P (t.pushBlock parent kind span)
  addDecl : ∀ t block (d : Decl), d.Within tree doc → P t → P (t.addDecl block d)
  addReference : ∀ t (d : Decl) span, d ∈ t.decls → P t → P (t.addReference d.id span)

theorem DeclTree.mem_of_findLocal? {t : DeclTree} {name : String} {offset : Nat} {d : Decl}
    (h : t.findLocal? name offset = some d) : d ∈ t.decls := by
  obtain ⟨block, -, hblock⟩ := List.exists_of_findSome?_eq_some h
  obtain ⟨id, -, hid⟩ := List.exists_of_findSome?_eq_some hblock
  exact (Array.mem_filter.1 (Array.mem_of_find?_eq_some hid)).1

def Binder.enter (b : Binder) (kind : BlockKind) (span : Span) : Binder :=
  { found := b.found.pushBlock b.opened.head? kind span, opened := b.found.blocks.size :: b.opened }

/-- A relation between where a part of the walk starts and where it stands, that every further step
carries on: a scope with steps of its own inside, a name of the document that is declared, and a use
of a declared name. -/
structure Binder.Stepwise (tree : Tree) (doc : DocId) (R : Binder → Binder → Prop) : Prop where
  refl : ∀ b, R b b
  inBlock : ∀ {b₀ b : Binder} kind span step, R b₀ b →
    R (b.enter kind span) (step (b.enter kind span)) →
    R b₀ (b.inBlock kind span step)
  declare : ∀ {b₀ b : Binder} (d : Decl), d.Within tree doc → R b₀ b → R b₀ (b.declare d)
  refer : ∀ {b₀ b : Binder} (d : Decl) span, d ∈ b.found.decls → R b₀ b →
    R b₀ { b with found := b.found.addReference d.id span }

def Binder.Keeps (R : Binder → Binder → Prop) (step : Binder → Binder) : Prop :=
  ∀ ⦃b₀⦄ b, R b₀ b → R b₀ (step b)

section Within

variable {t : Tree} {doc : DocId} {token node : ElementId} {kind : DeclKind}
  {value? : Option DeclValue} {visibleFrom : Nat}

theorem within_declOf (hnode : t.isNode node = true)
    (hvalue : ∀ v, value? = some v → t.Has doc v.expr)
    (hclosure : ∀ c, kind.closure? = some c → t.HasKind doc .closureExpr c) :
    (declOf t doc token node kind value? visibleFrom).Within t doc :=
  ⟨rfl, Tree.has_mk hnode, hvalue, hclosure⟩

theorem has_valueFor? {values : List ElementId} (h : ∀ e ∈ values, t.isNode e = true) (index : Nat)
    (v : DeclValue) (hv : valueFor? t doc values index = some v) : t.Has doc v.expr := by
  unfold valueFor? at hv
  split at hv
  · rename_i expr hexpr
    obtain rfl : ⟨⟨doc, expr⟩, 0⟩ = v := by simpa using hv
    exact Tree.has_mk (h expr (List.mem_of_getElem? hexpr))
  · split at hv
    · rename_i last hlast
      split at hv
      · obtain rfl : ⟨⟨doc, last⟩, index + 1 - values.length⟩ = v := by simpa using hv
        exact Tree.has_mk (h last (List.mem_of_getLast? hlast))
      · exact absurd hv (by simp)
    · exact absurd hv (by simp)

theorem has_closureValue (stat : ElementId) (v : DeclValue)
    (hv : (t.child? stat .closureExpr).map (fun c => (⟨⟨doc, c⟩, 0⟩ : DeclValue)) = some v) :
    t.Has doc v.expr := by
  obtain ⟨c, hc, rfl⟩ := Option.map_eq_some_iff.1 hv
  exact Tree.has_mk (Tree.isNode_of_nodeKind? (Tree.nodeKind?_of_child? hc))

end Within

namespace Binder

variable {t : Tree} {doc : DocId} {R : Binder → Binder → Prop} {visit : ElementId → Binder → Binder}

theorem keeps_foldl {α : Type} {step : Binder → α → Binder} {as : List α}
    (h : ∀ a ∈ as, Keeps R fun b => step b a) : Keeps R fun b => as.foldl step b := by
  intro b₀ b hb
  exact List.foldlRecOn as step hb fun b hb a ha => h a ha b hb

theorem keeps_visitAll (hvisit : ∀ n, Keeps R (visit n)) (nodes : List ElementId) :
    Keeps R (visitAll visit nodes) :=
  keeps_foldl fun n _ => hvisit n

variable (hR : Stepwise t doc R)
include hR

theorem keeps_inBlock {step : Binder → Binder} (hstep : Keeps R step) (kind : BlockKind)
    (span : Span) : Keeps R fun b => b.inBlock kind span step := by
  intro b₀ b hb
  exact hR.inBlock _ _ _ hb (hstep _ (hR.refl _))

theorem keeps_declare {d : Decl} (hd : d.Within t doc) : Keeps R fun b => b.declare d := by
  intro b₀ b hb
  exact hR.declare _ hd hb

theorem keeps_bindNameUse (node : ElementId) : Keeps R (bindNameUse t node) := by
  intro b₀ b hb
  rw [bindNameUse]
  split
  · rw [refer]
    split
    · rename_i hfound
      exact hR.refer _ _ (DeclTree.mem_of_findLocal? hfound) hb
    · exact hb
  · exact hb

theorem keeps_bindTarget {target : ElementId} {value? : Option DeclValue}
    (htarget : t.isNode target = true) (hvalue : ∀ v, value? = some v → t.Has doc v.expr) :
    Keeps R (bindTarget t doc target value?) := by
  intro b₀ b hb
  rw [bindTarget]
  split
  · exact hb
  · dsimp only
    split
    · rename_i hfound
      exact hR.refer _ _ (DeclTree.mem_of_findLocal? hfound) hb
    · exact keeps_declare hR (within_declOf htarget hvalue (by simp [DeclKind.closure?])) b hb

theorem keeps_bindLocalName {values : List ElementId} (hvalues : ∀ e ∈ values, t.isNode e = true)
    (visibleFrom : Nat) {name : ElementId × Nat} (hname : t.isNode name.1 = true) :
    Keeps R fun b => bindLocalName t doc values visibleFrom b name := by
  intro b₀ b hb
  dsimp only [bindLocalName]
  split
  · exact hb
  · exact keeps_declare hR (within_declOf hname (has_valueFor? hvalues name.2)
      (by simp [DeclKind.closure?])) b hb

theorem keeps_bindLoopVar (visibleFrom : Nat) {name : ElementId} (hname : t.isNode name = true) :
    Keeps R fun b => bindLoopVar t doc visibleFrom b name := by
  intro b₀ b hb
  dsimp only [bindLoopVar]
  split
  · exact keeps_declare hR (within_declOf hname (by simp) (by simp [DeclKind.closure?])) b hb
  · exact hb

section Closure

variable {closure : ElementId} (hclosure : t.nodeKind? closure = some .closureExpr)
include hclosure

theorem keeps_bindParam {param : ElementId × Nat} (hparam : t.isNode param.1 = true) :
    Keeps R fun b => bindParam t doc closure b param := by
  intro b₀ b hb
  dsimp only [bindParam]
  split
  · exact keeps_declare hR (within_declOf hparam (by simp)
      fun c hc => by cases hc; exact Tree.hasKind_mk hclosure) b hb
  · exact hb

theorem keeps_bindSelf {params : ElementId} (hparams : t.isNode params = true) :
    Keeps R (bindSelf t doc closure params) := by
  intro b₀ b hb
  rw [bindSelf]
  split
  · exact hb
  · refine keeps_declare hR ⟨rfl, Tree.has_mk hparams, fun v hv => ?_, fun c hc => ?_⟩ b hb
    · cases hv
    · cases hc
      exact Tree.hasKind_mk hclosure

theorem keeps_bindParams (isMethod : Bool) : Keeps R (bindParams t doc closure isMethod) := by
  intro b₀ b hb
  rw [bindParams]
  split
  · exact hb
  · rename_i params hparams
    have hself :=
      keeps_bindSelf hR hclosure (Tree.isNode_of_nodeKind? (Tree.nodeKind?_of_child? hparams))
    refine keeps_foldl (fun param hparam => ?_) _ ?_
    · exact keeps_bindParam hR hclosure
        (Tree.isNode_of_mem_childrenOf (List.fst_mem_of_mem_zipIdx hparam))
    · split
      · exact hself b hb
      · exact hb

end Closure

theorem keeps_bindLocalFuncName (stat : ElementId) {value? : Option DeclValue}
    (hvalue : ∀ v, value? = some v → t.Has doc v.expr) :
    Keeps R (bindLocalFuncName t doc stat value?) := by
  intro b₀ b hb
  rw [bindLocalFuncName]
  split
  · rename_i name token hfound
    obtain ⟨n, hn, hname⟩ := Option.bind_eq_some_iff.1 hfound
    obtain ⟨t', ht', hpair⟩ := Option.map_eq_some_iff.1 hname
    obtain rfl : n = name := congrArg Prod.fst hpair
    have hnode := Tree.isNode_of_nodeKind? (Tree.nodeKind?_of_child? hn)
    exact keeps_declare hR (within_declOf hnode hvalue (by simp [DeclKind.closure?])) b hb
  · exact hb

variable (hvisit : ∀ n, Keeps R (visit n))
include hvisit

theorem keeps_bindFuncName (stat : ElementId) {value? : Option DeclValue}
    (hvalue : ∀ v, value? = some v → t.Has doc v.expr) :
    Keeps R fun b => (bindFuncName t doc visit stat value? b).2 := by
  intro b₀ b hb
  dsimp only [bindFuncName]
  split
  · exact hb
  · rename_i name hname
    split
    · exact keeps_bindTarget hR
        (Tree.isNode_of_mem_exprs (List.mem_of_find?_eq_some hname)) hvalue b hb
    · exact hvisit _ b hb

theorem keeps_bindClosure {closure : ElementId} (hclosure : t.nodeKind? closure = some .closureExpr)
    (isMethod : Bool) : Keeps R (bindClosure t doc visit closure isMethod) := by
  refine keeps_inBlock hR (fun b₀ b hb => ?_) _ _
  dsimp only
  split
  · exact hvisit _ _ (keeps_bindParams hR hclosure _ b hb)
  · exact keeps_bindParams hR hclosure _ b hb

theorem keeps_bindLocalStat (stat : ElementId) : Keeps R (bindLocalStat t doc visit stat) := by
  intro b₀ b hb
  refine keeps_foldl (fun name hname => ?_) _ (keeps_visitAll hvisit _ b hb)
  exact keeps_bindLocalName hR (fun _ => Tree.isNode_of_mem_exprs) _
    (Tree.isNode_of_mem_childrenOf (List.fst_mem_of_mem_zipIdx hname))

theorem keeps_bindLocalFuncStat (stat : ElementId) :
    Keeps R (bindLocalFuncStat t doc visit stat) := by
  intro b₀ b hb
  have hname := keeps_bindLocalFuncName hR stat (has_closureValue stat)
  dsimp only [bindLocalFuncStat]
  split
  · rename_i closure hclosure
    exact keeps_bindClosure hR hvisit (Tree.nodeKind?_of_child? hclosure) _ _ (hname b hb)
  · exact hname b hb

theorem keeps_bindFuncStat (stat : ElementId) : Keeps R (bindFuncStat t doc visit stat) := by
  intro b₀ b hb
  have hname := keeps_bindFuncName hR hvisit stat (has_closureValue stat)
  dsimp only [bindFuncStat]
  split
  · rename_i closure hclosure
    exact keeps_bindClosure hR hvisit (Tree.nodeKind?_of_child? hclosure) _ _ (hname b hb)
  · exact hname b hb

theorem keeps_bindAssignStat (stat : ElementId) : Keeps R (bindAssignStat t doc visit stat) := by
  intro b₀ b hb
  rw [bindAssignStat]
  split
  · exact keeps_visitAll hvisit _ b hb
  · simp only [List.partition_eq_filter_filter]
    refine keeps_foldl (fun target htarget b₀ b hb => ?_) _ (keeps_visitAll hvisit _ b hb)
    have hnode :=
      Tree.isNode_of_mem_exprs (List.mem_filter.1 (List.fst_mem_of_mem_zipIdx htarget)).1
    dsimp only
    split
    · exact keeps_bindTarget hR hnode
        (has_valueFor? (fun _ he => Tree.isNode_of_mem_exprs (List.mem_filter.1 he).1) _) b hb
    · exact hvisit _ b hb

theorem keeps_bindForStat (stat : ElementId) : Keeps R (bindForStat t doc visit stat) := by
  intro b₀ b hb
  rw [bindForStat]
  refine keeps_inBlock hR (fun b₀ b hb => ?_) _ _ _ (keeps_visitAll hvisit _ b hb)
  have hvars : Keeps R fun b => (t.childrenOf stat .paramName).foldl (bindLoopVar t doc
      (((t.child? stat .block).map fun n => (t.span n).start).getD (t.span stat).stop)) b :=
    keeps_foldl fun _ hname => keeps_bindLoopVar hR _ (Tree.isNode_of_mem_childrenOf hname)
  dsimp only
  split
  · exact hvisit _ _ (hvars b hb)
  · exact hvars b hb

theorem keeps_bindRepeatStat (stat : ElementId) : Keeps R (bindRepeatStat t visit stat) := by
  refine keeps_inBlock hR (keeps_foldl fun n _ b₀ b hb => ?_) _ _
  dsimp only
  split
  · exact keeps_visitAll hvisit _ b hb
  · exact hvisit _ b hb

theorem keeps_bindNode (node : ElementId) : Keeps R (bindNode t doc visit node) := by
  intro b₀ b hb
  rw [bindNode]
  split
  · exact keeps_inBlock hR (keeps_visitAll hvisit _) _ _ b hb
  · exact keeps_bindLocalStat hR hvisit node b hb
  · exact keeps_bindLocalFuncStat hR hvisit node b hb
  · exact keeps_bindFuncStat hR hvisit node b hb
  · exact keeps_bindAssignStat hR hvisit node b hb
  · exact keeps_bindForStat hR hvisit node b hb
  · exact keeps_bindForStat hR hvisit node b hb
  · exact keeps_bindRepeatStat hR hvisit node b hb
  · rename_i hkind
    exact keeps_bindClosure hR hvisit (Tree.nodeKind?_of_kind hkind (by decide)) false b hb
  · exact keeps_bindNameUse hR node b hb
  · exact hb
  · exact keeps_visitAll hvisit _ b hb

omit hvisit

theorem keeps_bindDeep (fuel : Nat) (node : ElementId) : Keeps R (bindDeep t doc fuel node) := by
  induction fuel generalizing node with
  | zero => exact fun b₀ b hb => hb
  | succ fuel ih => exact keeps_bindNode hR ih node

end Binder

theorem exists_bindDocument {t : Tree} {doc : DocId} {R : Binder → Binder → Prop}
    (hR : Binder.Stepwise t doc R) : ∃ b, R { found := { doc := doc } } b ∧
    b.found = bindDocument t doc :=
  ⟨_, Binder.keeps_inBlock hR (Binder.keeps_visitAll (Binder.keeps_bindDeep hR t.size) _) _ _ _
    (hR.refl _), rfl⟩

theorem DeclTree.Inductive.stepwise {t : Tree} {doc : DocId} {P : DeclTree → Prop}
    (hP : DeclTree.Inductive t doc P) : Binder.Stepwise t doc fun b₀ b => P b₀.found →
    P b.found where
  refl _ h := h
  inBlock _ _ _ h hinner h₀ := hinner (hP.pushBlock _ _ _ _ (h h₀))
  declare _ hd h h₀ := hP.addDecl _ _ _ hd (h h₀)
  refer _ _ hd h h₀ := hP.addReference _ _ _ hd (h h₀)

theorem bindDocument_induction {t : Tree} {doc : DocId} {P : DeclTree → Prop}
    (hP : DeclTree.Inductive t doc P) (hempty : P { doc := doc }) : P (bindDocument t doc) := by
  obtain ⟨b, hb, hfound⟩ := exists_bindDocument hP.stepwise
  exact hfound ▸ hb hempty

/-- All declarations are of one document. -/
structure DeclTree.BelongsTo (t : DeclTree) (doc : DocId) : Prop where
  doc_eq : t.doc = doc
  id_doc : ∀ d ∈ t.decls.toList, d.id.doc = doc

/-- The declarations of a document lead to nodes of a tree, no two of them stand at the same place,
and what is in a scope or used is declared. -/
structure DeclTree.Within (t : DeclTree) (tree : Tree) (doc : DocId) : Prop where
  doc_eq : t.doc = doc
  nodup : (t.decls.toList.map (·.id)).Nodup
  decl : ∀ d ∈ t.decls, d.Within tree doc
  listed : ∀ b ∈ t.blocks, ∀ id ∈ b.decls, (t.decl? id).isSome = true
  used : ∀ r ∈ t.references, (t.decl? r.1).isSome = true

namespace DeclTree

variable {t : DeclTree} {tree : Tree} {doc : DocId} {d e : Decl} {id : DeclId}

theorem isSome_decl?_iff : (t.decl? id).isSome = true ↔ ∃ d ∈ t.decls, d.id = id := by
  simp [decl?]

theorem mem_addDecl {block : Option Nat} (h : e ∈ (t.addDecl block d).decls) :
    e ∈ t.decls ∨ e = d := by
  simp only [addDecl] at h
  split at h
  · exact Array.mem_or_eq_of_mem_setIfInBounds h
  · exact Array.mem_push.1 h

theorem id_eq_of_decl? (h : t.decl? id = some d) : d.id = id := by
  rw [decl?] at h
  have hid := Array.find?_some h
  exact beq_iff_eq.1 hid

theorem decl?_of_mem (h : (t.decls.toList.map (·.id)).Nodup) (hd : d ∈ t.decls) :
    t.decl? d.id = some d := by
  obtain ⟨e, he⟩ := Option.isSome_iff_exists.1 (isSome_decl?_iff.2 ⟨d, hd, rfl⟩)
  have hid : e.id = d.id := id_eq_of_decl? he
  have hmem : e ∈ t.decls := Array.mem_of_find?_eq_some he
  rw [he, List.inj_on_of_nodup_map h (Array.mem_def.1 hmem) (Array.mem_def.1 hd) hid]

theorem nodup_addDecl (h : (t.decls.toList.map (·.id)).Nodup) (block : Option Nat) (d : Decl) :
    ((t.addDecl block d).decls.toList.map (·.id)).Nodup := by
  simp only [addDecl]
  split
  · rename_i i hi
    obtain ⟨hlt, hat, -⟩ := Array.findIdx?_eq_some_iff_getElem.1 hi
    have hsame : (t.decls.toList.map (·.id)).set i d.id = t.decls.toList.map (·.id) := by
      refine List.ext_getElem (by simp) fun j hj hj' => ?_
      rw [List.getElem_set]
      split
      · rename_i hij
        subst hij
        simpa using (beq_iff_eq.1 hat).symm
      · rfl
    rwa [Array.toList_setIfInBounds, List.map_set, hsame]
  · rename_i hnone
    rw [Array.toList_push, List.map_append, List.map_singleton]
    refine List.nodup_append.2 ⟨h, List.nodup_singleton _, fun id hid last hlast heq => ?_⟩
    obtain rfl := List.mem_singleton.1 hlast
    obtain ⟨e, he, rfl⟩ := List.mem_map.1 hid
    simpa [heq] using Array.findIdx?_eq_none_iff.1 hnone e (Array.mem_def.2 he)

theorem isSome_decl?_addDecl {block : Option Nat} (h : id = d.id ∨ (t.decl? id).isSome = true) :
    ((t.addDecl block d).decl? id).isSome = true := by
  simp only [isSome_decl?_iff, addDecl] at h ⊢
  split
  · rename_i i hi
    obtain ⟨hlt, hat, -⟩ := Array.findIdx?_eq_some_iff_getElem.1 hi
    rcases h with rfl | ⟨e, he, rfl⟩
    · exact ⟨d, Array.mem_setIfInBounds hlt, rfl⟩
    · obtain ⟨j, hj, rfl⟩ := Array.mem_iff_getElem.1 he
      by_cases hij : i = j
      · subst hij
        exact ⟨d, Array.mem_setIfInBounds hlt, (beq_iff_eq.1 hat).symm⟩
      · refine ⟨t.decls[j], ?_, rfl⟩
        exact Array.mem_iff_getElem.2 ⟨j, by rwa [Array.size_setIfInBounds],
          Array.getElem_setIfInBounds_ne hj hij⟩
  · rcases h with rfl | ⟨e, he, rfl⟩
    · exact ⟨d, Array.mem_push_self, rfl⟩
    · exact ⟨e, Array.mem_push_of_mem d he, rfl⟩

theorem mem_blocks_addDecl {block : Option Nat} {b : Block} (hb : b ∈ (t.addDecl block d).blocks)
    (hid : id ∈ b.decls) : id = d.id ∨ ∃ b' ∈ t.blocks, id ∈ b'.decls := by
  simp only [addDecl] at hb
  cases block with
  | none => exact .inr ⟨b, hb, hid⟩
  | some i =>
    obtain ⟨j, hj, rfl⟩ := Array.mem_iff_getElem.1 hb
    rw [Array.size_modify] at hj
    rw [Array.getElem_modify] at hid
    split at hid
    · rcases Array.mem_push.1 hid with hid | rfl
      · exact .inr ⟨t.blocks[j], Array.getElem_mem hj, hid⟩
      · exact .inl rfl
    · exact .inr ⟨t.blocks[j], Array.getElem_mem hj, hid⟩

theorem within_inductive (tree : Tree) (doc : DocId) :
    DeclTree.Inductive tree doc (·.Within tree doc) where
  pushBlock t parent kind span h := by
    refine ⟨h.doc_eq, h.nodup, h.decl, fun b hb id hid => ?_, h.used⟩
    rcases Array.mem_push.1 hb with hb | rfl
    · exact h.listed b hb id hid
    · exact absurd hid (by simp)
  addDecl t block d hd h := by
    refine ⟨h.doc_eq, nodup_addDecl h.nodup block d, fun e he => ?_, fun b hb id hid => ?_,
      fun r hr => ?_⟩
    · rcases mem_addDecl he with he | rfl
      · exact h.decl e he
      · exact hd
    · refine isSome_decl?_addDecl ((mem_blocks_addDecl hb hid).imp_right ?_)
      rintro ⟨b', hb', hid'⟩
      exact h.listed b' hb' id hid'
    · exact isSome_decl?_addDecl (.inr (h.used r hr))
  addReference t d span hd h := by
    refine ⟨h.doc_eq, h.nodup, h.decl, h.listed, fun r hr => ?_⟩
    rcases Array.mem_push.1 hr with hr | rfl
    · exact h.used r hr
    · exact isSome_decl?_iff.2 ⟨d, hd, rfl⟩

theorem Within.belongsTo (h : t.Within tree doc) : t.BelongsTo doc :=
  ⟨h.doc_eq, fun d hd => (h.decl d (Array.mem_def.2 hd)).id_doc⟩

theorem BelongsTo.modifyDecl (h : t.BelongsTo doc) (id : DeclId) {f : Decl → Decl}
    (hf : ∀ d, (f d).id = d.id) : (t.modifyDecl id f).BelongsTo doc := by
  refine ⟨h.doc_eq, fun e he => ?_⟩
  simp only [DeclTree.modifyDecl, Array.toList_map, List.mem_map] at he
  obtain ⟨d, hd, rfl⟩ := he
  split
  · rw [hf]
    exact h.id_doc d hd
  · exact h.id_doc d hd

end DeclTree

theorem bindDocument_within (t : Tree) (doc : DocId) : (bindDocument t doc).Within t doc :=
  bindDocument_induction (DeclTree.within_inductive t doc) ⟨rfl, by simp, by simp, by simp, by simp⟩

theorem bindDocument_belongsTo (t : Tree) (doc : DocId) : (bindDocument t doc).BelongsTo doc :=
  (bindDocument_within t doc).belongsTo

end LuaAnalysis.Scope
