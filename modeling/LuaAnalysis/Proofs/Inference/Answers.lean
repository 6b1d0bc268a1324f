import LuaAnalysis.Proofs.Inference.Chains

namespace LuaAnalysis.Inference

open Document LuaAnalysis.Types Scope Syntax Workspace

/-- A search comes to a declaration by a local name, by the place of a name or by the name of a
global. -/
inductive ComesTo (p : Project) : Decl → Prop
  | local {doc : DocId} {name : String} {offset : Nat} {d : Decl} :
    p.findLocal? doc name offset = some d → ComesTo p d
  | declared {doc : DocId} {decls : DeclTree} {position : Nat} {d : Decl} :
    p.index.declTree? doc = some decls → decls.declAt? position = some d → ComesTo p d
  | global {name : String} {d : Decl} : d ∈ p.index.globals name → ComesTo p d

/-- A property of searches that the questions have for which a search goes one level deeper. -/
structure Answers (p : Project) (P : ∀ ⦃α : Type⦄, (Engine → Search α) → Prop) :
    Prop extends Chains P where
  inferExpr : ∀ doc expr, P fun e => e.inferExpr doc expr
  declType : ∀ decl, ComesTo p decl → P fun e => e.declType decl
  isSubtype : ∀ sub sup, P fun e => e.isSubtype sub sup

/-- Types that a lookup goes on in: the alternatives of a union, and what the expansion of an alias
comes to if that is neither the type itself nor unknown. -/
structure Descends (p : Project) (P : ∀ ⦃α : Type⦄, (Engine → Search α) → Prop)
    (Into : Ty → Ty → Prop) : Prop where
  alternative : ∀ {m members}, m ∈ members → m.isNil = false → Into m (.union members)
  expansion : ∀ {α : Type} {t : Ty} {f : Ty → Engine → Search α},
    (∀ r, r = .unknown ∨ r = t ∨ Into r t → P (f r)) →
    P fun e => resolveAlias p t >>= fun r => f r e

namespace Answers

variable {p : Project} {P : ∀ ⦃α : Type⦄, (Engine → Search α) → Prop} (g : Answers p P)

include g

theorem inferFirst (doc : DocId) (expr : ElementId) : P fun e => inferFirst e doc expr :=
  g.bind (g.inferExpr doc expr) fun type => g.pure type.firstValue

theorem inferElement (node : NodeRef) : P fun e => inferElement p e node := by
  simp only [Inference.inferElement]
  cases p.treeOf? node with
  | none => exact g.pure _
  | some t =>
    refine Chains.ite (fun _ => g.inferExpr node.doc node.element) fun _ => ?_
    have hdecl {d : Decl} (h : ((paramToken? t node.element).bind fun token =>
        (p.index.declTree? node.doc).bind fun decls =>
          decls.declAt? (t.span token).start) = some d) : ComesTo p d := by
      obtain ⟨token, -, h⟩ := Option.bind_eq_some_iff.1 h
      obtain ⟨decls, hdecls, hd⟩ := Option.bind_eq_some_iff.1 h
      exact .declared hdecls hd
    split
    · split
      · exact g.declType _ (hdecl ‹_›)
      · exact g.pure _
    · split
      · exact g.declType _ (hdecl ‹_›)
      · exact g.pure _
    · split
      · exact g.inferFirst node.doc _
      · exact g.pure _
    · exact g.pure _

theorem exprListTypes (doc : DocId) (exprs : List ElementId) :
    P fun e => exprListTypes e doc exprs := by
  simp only [Inference.exprListTypes]
  refine g.bind (g.mapM _ fun x _ => ?_) fun types => g.pure _
  exact g.bind (g.inferExpr doc x.1) fun type => g.pure _

theorem inferBodyReturns (closure : NodeRef) : P fun e => inferBodyReturns p e closure := by
  simp only [Inference.inferBodyReturns]
  split
  · exact g.pure _
  · split
    · exact g.pure _
    · exact g.bind (g.mapM _ fun stat _ => g.exprListTypes closure.doc _) fun returns => g.pure _

theorem signatureFunc (closure : NodeRef) : P fun e => signatureFunc p e closure := by
  simp only [Inference.signatureFunc]
  split
  · exact g.pure _
  · refine Chains.ite (fun _ => g.pure _) fun _ => ?_
    exact g.bind (g.inferBodyReturns closure) fun ret => g.pure _

theorem findCallables {Into : Ty → Ty → Prop} (d : Descends p P Into) {t : Ty}
    (hinto : ∀ u, Into u t → P fun e => e.findCallables u) : P fun e => findCallables p e t := by
  cases t with
  | signature closure => exact g.bind (g.signatureFunc closure) fun main => g.pure _
  | ref name =>
    simp only [Inference.findCallables]
    refine Chains.ite (fun _ => g.pure _) fun _ => d.expansion fun r hr => ?_
    rcases hr with rfl | rfl | hr
    · exact g.pure _
    · exact g.pure _
    · cases r with
      | ref _ => exact g.pure _
      | unknown => exact g.pure _
      | _ => exact hinto _ hr
  | generic base params =>
    simp only [Inference.findCallables]
    refine d.expansion fun r hr => ?_
    rcases hr with rfl | rfl | hr
    · exact g.pure _
    · exact g.pure _
    · cases r with
      | generic _ _ => exact g.pure _
      | unknown => exact g.pure _
      | _ => exact hinto _ hr
  | union members =>
    refine g.bind (g.mapM _ fun m hm => ?_) fun found => g.pure _
    rw [List.mem_filter] at hm
    exact hinto m (d.alternative hm.1 (by simpa using hm.2))
  | _ => exact g.pure _

theorem memberType (m : Member) (s : Substitution) (receiver : Ty) :
    P fun e => memberType p e m s receiver := by
  simp only [Inference.memberType]
  split
  · exact g.pure _
  · exact g.bind (g.inferElement _) fun type => g.pure _
  · exact g.pure _

theorem addMembers (receiver : Ty) (found : List MemberInfo) (source : MemberOwner × Substitution) :
    P fun e => addMembers p e receiver found source := by
  refine g.foldlM _ (fun found m _ => ?_) found
  refine Chains.ite (fun _ => g.pure _) fun _ => ?_
  split
  · exact g.pure _
  · exact g.bind (g.memberType _ source.2 receiver) fun type => g.pure _

theorem findMembers {t : Ty} (hsources : P fun e => memberSources p e t) :
    P fun e => findMembers p e t := by
  refine g.bind hsources fun sources => ?_
  refine g.bind (g.foldlM _ (fun found source _ => g.addMembers t found source) [])
    fun found => g.pure _

theorem findOwnMember {t : Ty} (hsources : P fun e => memberSources p e t) (key : MemberKey) :
    P fun e => findOwnMember p e t key := by
  refine g.bind hsources fun sources => ?_
  split
  · exact g.bind (g.memberType _ _ t) fun type => g.pure _
  · exact g.pure _

theorem findMember {Into : Ty → Ty → Prop} (d : Descends p P Into) {t : Ty}
    (hsources : P fun e => memberSources p e t) {key : MemberKey}
    (hinto : ∀ u, Into u t → P fun e => e.findMember u key) : P fun e => findMember p e t key := by
  cases t with
  | union members =>
    refine g.bind (g.filterMapM _ fun m hm => ?_) fun infos =>
      Chains.ite (fun _ => g.pure _) fun _ => g.pure _
    rw [List.mem_filter] at hm
    exact hinto m (d.alternative hm.1 (by simpa using hm.2))
  | _ => exact g.findOwnMember hsources key

theorem indexOperator? (name : String) (key : Ty) : P fun e => indexOperator? p e name key := by
  refine g.findSomeM? _ fun o _ => ?_
  split
  · exact g.bind (g.isSubtype key _) fun accepts => g.pure _
  · exact g.bind (g.pure true) fun accepts => g.pure _

theorem indexAccess {Into : Ty → Ty → Prop} (d : Descends p P Into) {t key : Ty}
    (hinto : ∀ u, Into u t → P fun e => e.indexAccess u key) :
    P fun e => indexAccess p e t key := by
  cases t with
  | object fields access =>
    exact g.bind (g.findM? _ fun x _ => g.isSubtype key x.1) fun found => g.pure _
  | union members =>
    refine g.bind (g.mapM _ fun m hm => ?_) fun types => g.pure _
    rw [List.mem_filter] at hm
    exact hinto m (d.alternative hm.1 (by simpa using hm.2))
  | ref name =>
    simp only [Inference.indexAccess]
    refine g.bind (g.indexOperator? name key) fun found => ?_
    cases found with
    | some result => exact g.pure _
    | none =>
      refine d.expansion fun r hr => ?_
      rcases hr with rfl | rfl | hr
      · exact g.pure _
      · exact g.pure _
      · cases r with
        | ref _ => exact g.pure _
        | unknown => exact g.pure _
        | _ => exact hinto _ hr
  | tuple items => cases key <;> exact g.pure _
  | _ => exact g.pure _

end Answers

end LuaAnalysis.Inference
