import LuaAnalysis.Proofs.Inference.Unification

namespace LuaAnalysis.Inference

open Document LuaAnalysis.Types Scope Syntax Workspace

/-- A property of searches that lookups, the expansion of names and the binding of templates
have. -/
structure Bindings (p : Project) (P : ∀ ⦃α : Type⦄, (Engine → Search α) → Prop) :
    Prop extends Lookups p P where
  unify : ∀ expected, Binds P expected

variable {p : Project} {P : ∀ ⦃α : Type⦄, (Engine → Search α) → Prop}

namespace Bindings

variable (g : Bindings p P)

include g

theorem matchScore (f : FuncType) (index : Nat) (args : List Ty) :
    P fun e => matchScore e f index args := by
  induction args generalizing index with
  | nil => exact g.pure 0
  | cons arg rest ih =>
    simp only [Inference.matchScore]
    split
    · refine g.bind (g.isSubtype arg _) fun accepts => Chains.ite (fun _ => ?_) fun _ => g.pure _
      exact g.bind (ih (index + 1)) fun score => g.pure _
    · exact g.bind (ih (index + 1)) fun score => g.pure _
    · exact g.pure _

theorem unifyArgs (f : FuncType) (index : Nat) (args : List Ty) (s : Substitution) :
    P fun e => unifyArgs e f index args s := by
  induction args generalizing index s with
  | nil => exact g.pure s
  | cons arg rest ih =>
    simp only [Inference.unifyArgs]
    split
    · split
      · exact g.pure _
      · exact g.bind (g.unify _ arg s) fun s => ih (index + 1) s
    · exact ih (index + 1) s

theorem instantiateCall (f : FuncType) (args : List Ty) (self? : Option Ty) :
    P fun e => instantiateCall e f args self? :=
  Chains.ite (fun _ => g.pure _) fun _ => g.bind (g.unifyArgs f 0 args _) fun _ => g.pure _

theorem bestMatch (callee : Ty) (args : List Ty) (colonCall : Bool) (self? : Option Ty) :
    P fun e => bestMatch p e callee args colonCall self? := by
  refine g.bind (g.findCallables callee) fun candidates => ?_
  refine g.bind (g.mapM _ fun f _ => g.bind (g.matchScore _ 0 args) fun score => g.pure _)
    fun scored => ?_
  split
  · exact g.pure _
  · exact g.bind (g.instantiateCall _ args self?) fun f => g.pure _

theorem resolveCall (doc : DocId) (call : ElementId) : P fun e => resolveCall p e doc call := by
  have hrest (args : List ElementId) (callee : Ty) (colonCall : Bool) (self? : Option Ty) :
      P fun e => (args.mapM (Inference.inferFirst e doc)).bind fun args =>
        Inference.bestMatch p e callee args colonCall self? :=
    g.bind (g.mapM _ fun arg _ => g.inferFirst doc arg) fun args =>
      g.bestMatch callee args colonCall self?
  simp only [Inference.resolveCall]
  split
  · exact g.pure _
  · split
    · exact g.pure _
    · refine g.bind (g.inferFirst doc _) fun callee => ?_
      split
      · exact g.bind (g.map some (g.inferFirst doc _)) fun self? => hrest _ callee _ self?
      · exact g.bind (g.pure none) fun self? => hrest _ callee _ self?

theorem enumValues (name : String) : P fun e => enumValues p e name :=
  g.bind (g.findMembers _) fun _ => g.pure _

theorem enumAccepts (name : String) (value : Ty) : P fun e => enumAccepts p e name value := by
  refine Chains.ite (fun _ => g.pure _) fun _ => g.bind (g.enumValues name) fun values => ?_
  refine Chains.ite (fun _ => g.pure _) fun _ => ?_
  split
  · exact g.isSubtype value _
  · exact Chains.ite (fun _ => g.pure _) fun _ => g.anyM _ fun member _ => g.isSubtype member value

theorem enumFits (name : String) (sup : Ty) : P fun e => enumFits p e name sup :=
  g.bind (g.enumValues name) fun _ => Chains.ite (fun _ => g.pure _) fun _ =>
    g.allM _ fun value _ => g.isSubtype value sup

theorem allSubtypes (pairs : List (Ty × Ty)) : P fun e => allSubtypes e pairs :=
  g.allM _ fun pair _ => g.isSubtype pair.1 pair.2

theorem tableFitsObject (sub : Ty) (fields : List (MemberKey × Ty)) :
    P fun e => tableFitsObject p e sub fields := by
  refine g.allM _ fun field _ => g.bind (g.findMember sub field.1) fun found => ?_
  cases found with
  | some info => exact g.isSubtype info.type field.2
  | none => exact g.pure _

theorem tableFitsArray (sub item : Ty) : P fun e => tableFitsArray p e sub item :=
  g.bind (g.findMembers sub) fun _ => g.allM _ fun info _ =>
    Chains.ite (fun _ => g.isSubtype info.type item) fun _ => g.pure _

theorem arrayFitsTable (item : Ty) (params : List Ty) :
    P fun e => arrayFitsTable e item params := by
  simp only [Inference.arrayFitsTable]
  split
  case' h_1 key _ =>
    refine g.bind (g.isSubtype .integer key) fun keyFits =>
      Chains.ite (fun _ => g.pure _) fun _ => ?_
  case' h_2 => refine g.bind (g.pure true) fun keyFits => Chains.ite (fun _ => g.pure _) fun _ => ?_
  all_goals
    split
    · exact g.isSubtype item _
    · exact g.pure _

theorem shapeFits (sub sup : Ty) : P fun e => shapeFits p e sub sup := by
  simp only [Inference.shapeFits]
  split
  case h_1 => exact g.inherits _ _
  case h_2 => exact g.inherits _ _
  case h_3 => exact Chains.ite (fun _ => g.allSubtypes _) fun _ => g.inherits _ _
  case h_11 => exact g.tableFitsObject _ _
  case h_12 => exact g.tableFitsArray _ _
  case h_13 => exact g.isSubtype _ _
  case h_14 => exact g.allSubtypes _
  case h_15 => exact Chains.ite (fun _ => g.allSubtypes _) fun _ => g.pure _
  case h_16 => exact Chains.ite (fun _ => g.arrayFitsTable _ _) fun _ => g.pure _
  case h_19 | h_20 =>
    split
    case h_4 name => exact g.bind (g.findCallables (.ref name)) fun _ => g.pure _
    all_goals exact g.pure _
  all_goals exact g.pure _

theorem resolvedFits (sub sup : Ty) : P fun e => resolvedFits p e sub sup := by
  refine Chains.ite (fun _ => g.pure _) fun _ => ?_
  split
  · exact g.isSubtype _ _
  · exact g.anyM _ fun m _ => g.isSubtype _ m
  · refine Chains.ite (fun _ => g.pure _) fun _ => ?_
    dsimp only
    split
    · refine Chains.ite (fun _ => g.enumAccepts _ sub) fun _ => ?_
      split
      · exact Chains.ite (fun _ => g.enumFits _ _) fun _ => g.shapeFits _ _
      · exact g.shapeFits sub _
    · split
      · exact Chains.ite (fun _ => g.enumFits _ sup) fun _ => g.shapeFits _ sup
      · exact g.shapeFits sub sup

theorem expandAlias (t : Ty) : P fun _ => expandAlias p t :=
  Chains.ite (fun _ => g.resolveAlias t) fun _ => g.pure _

theorem fits (sub sup : Ty) : P fun e => fits p e sub sup := by
  refine Chains.ite (fun _ => g.pure _) fun _ => Chains.ite (fun _ => g.isSubtype _ _) fun _ =>
    Chains.ite (fun _ => g.isSubtype _ _) fun _ => ?_
  split
  · exact g.allM _ fun m _ => g.isSubtype m sup
  · exact g.bind (g.expandAlias sup) fun sup => g.bind (g.expandAlias _) fun sub =>
      g.resolvedFits sub sup

theorem globalType (name : String) : P fun e => globalType p e name := by
  simp only [Inference.globalType]
  split
  · exact g.declType _ (.global (List.mem_of_find?_eq_some ‹_›))
  · refine g.bind (g.findSomeM? _ fun decl hdecl => g.bind (g.declType decl (.global hdecl))
      fun type => ?_) fun found => ?_
    · exact g.pure _
    · cases found <;> exact g.pure _

theorem inferLiteral (t : Tree) (doc : DocId) (expr : ElementId) :
    P fun e => inferLiteral p e t doc expr := by
  simp only [Inference.inferLiteral]
  split
  · exact g.pure _
  · split
    case h_8 =>
      split
      · exact g.declType _ (.local ‹_›)
      · exact g.pure _
    all_goals exact g.pure _

theorem inferName (t : Tree) (doc : DocId) (expr : ElementId) :
    P fun e => inferName p e t doc expr := by
  simp only [Inference.inferName]
  split
  · exact g.pure _
  · split
    · exact g.bind (g.declType _ (.local ‹_›)) fun type => g.pure _
    · exact g.bind (g.globalType _) fun type => g.pure _

theorem inferIndex (t : Tree) (doc : DocId) (expr : ElementId) :
    P fun e => inferIndex p e t doc expr := by
  have haccess (source key : Ty) : P fun e => Inference.indexAccess p e source key :=
    g.indexAccess source key
  simp only [Inference.inferIndex]
  split
  · exact g.pure _
  · refine g.bind (g.inferFirst doc _) fun source => ?_
    split
    · refine g.bind (g.findMember source _) fun found => ?_
      cases found with
      | some info => exact g.pure _
      | none => exact haccess source _
    · split
      · exact g.pure _
      · exact g.bind (g.inferFirst doc _) fun key => haccess source key

theorem firstAccepting (other? : Option Ty) (operators : List Operator) (fallback : Option Ty) :
    P fun e => firstAccepting e other? operators fallback := by
  induction operators generalizing fallback with
  | nil => exact g.pure _
  | cons o rest ih =>
    simp only [Inference.firstAccepting]
    split
    · exact g.pure _
    · exact g.bind (g.isSubtype _ _) fun accepts => Chains.ite (fun _ => g.pure _) fun _ => ih _
    · exact ih _

theorem operatorResult (operand : Ty) (name? : Option String) (other? : Option Ty) :
    P fun e => operatorResult p e operand name? other? := by
  simp only [Inference.operatorResult]
  split
  · exact g.firstAccepting other? _ none
  · exact g.pure _

theorem inferUnary (t : Tree) (doc : DocId) (expr : ElementId) :
    P fun e => inferUnary p e t doc expr := by
  simp only [Inference.inferUnary]
  split
  case h_1 => exact g.pure _
  case h_2 op _ =>
    split
    case' h_1 operand _ => refine g.bind (g.inferFirst doc operand) fun operand => ?_
    case' h_2 => refine g.bind (g.pure Ty.unknown) fun operand => ?_
    all_goals
      refine g.bind (g.operatorResult operand _ none) fun found => ?_
      cases found with
      | some result => exact g.pure _
      | none => cases op <;> exact g.pure _

theorem inferBinary (t : Tree) (doc : DocId) (expr : ElementId) :
    P fun e => inferBinary p e t doc expr := by
  simp only [Inference.inferBinary]
  split
  · exact g.pure _
  · split
    · exact g.pure _
    · refine g.bind (g.inferFirst doc _) fun left => g.bind (g.inferFirst doc _) fun right => ?_
      split
      case h_2 => split <;> exact g.pure _
      case h_9 =>
        refine g.bind (g.operatorResult left _ _) fun found => ?_
        cases found with
        | some result => exact g.pure _
        | none =>
          refine g.bind (g.operatorResult right _ _) fun found => ?_
          cases found <;> exact g.pure _
      all_goals exact g.pure _

theorem inferModule (name : String) : P fun e => inferModule p e name := by
  simp only [Inference.inferModule]
  split
  · exact g.pure _
  · split
    · exact g.pure _
    · exact g.bind (g.inferElement _) fun type => g.pure _

theorem inferSpecialCall (t : Tree) (doc : DocId) (call : ElementId) :
    P fun e => inferSpecialCall p e t doc call := by
  simp only [Inference.inferSpecialCall]
  split
  · refine g.bind (g.inferFirst doc _) fun type => Chains.ite (fun _ => ?_) fun _ => g.pure _
    split
    · exact g.bind (g.inferModule _) fun found => g.pure _
    · exact g.pure _
  · exact g.pure _

theorem inferCall (t : Tree) (doc : DocId) (call : ElementId) :
    P fun e => inferCall p e t doc call := by
  refine g.bind (g.inferSpecialCall t doc call) fun found => ?_
  cases found with
  | some type => exact g.pure _
  | none =>
    refine g.bind (g.resolveCall doc call) fun found => ?_
    cases found <;> exact g.pure _

theorem inferNode (t : Tree) (doc : DocId) (expr : ElementId) :
    P fun e => inferNode p e t doc expr := by
  simp only [Inference.inferNode]
  split
  · exact g.inferLiteral t doc expr
  · exact g.inferName t doc expr
  · exact g.inferIndex t doc expr
  · exact g.inferCall t doc expr
  · split
    · exact g.inferFirst doc _
    · exact g.pure _
  · exact g.pure _
  · exact g.pure _
  · exact g.inferUnary t doc expr
  · exact g.inferBinary t doc expr
  · exact g.pure _

theorem selfType (closure : NodeRef) : P fun e => selfType p e closure := by
  simp only [Inference.selfType]
  split
  · exact g.inferFirst closure.doc _
  · exact g.pure _

theorem countVarType (doc : DocId) (bounds : List ElementId) :
    P fun e => countVarType e doc bounds :=
  g.bind (g.mapM _ fun bound _ => g.inferFirst doc bound) fun _ => g.pure _

theorem iteratorVarType (doc : DocId) (iterator : ElementId) (position : Nat) :
    P fun e => iteratorVarType p e doc iterator position :=
  g.bind (g.inferFirst doc iterator) fun callee => g.bind (g.findCallables callee) fun _ => g.pure _

theorem loopVarType (decl : Decl) : P fun e => loopVarType p e decl := by
  simp only [Inference.loopVarType]
  split
  · exact g.pure _
  · split
    · exact g.countVarType _ _
    · split
      · exact g.iteratorVarType _ _ _
      · exact g.pure _
    · exact g.pure _

theorem callbackParamType (closure : NodeRef) (index : Nat) :
    P fun e => callbackParamType p e closure index := by
  simp only [Inference.callbackParamType]
  split
  · exact g.pure _
  · refine g.bind (g.resolveCall closure.doc _) fun found => ?_
    split
    · refine g.bind (g.findCallables _) fun callbacks => ?_
      cases callbacks.head? <;> exact g.pure _
    · exact g.pure _

theorem paramDeclType (decl : Decl) (index : Nat) (closure : NodeRef) :
    P fun e => paramDeclType p e decl index closure := by
  simp only [Inference.paramDeclType]
  split
  · exact g.pure _
  · exact g.resolveAlias _
  · exact g.pure _
  · exact g.callbackParamType closure index

theorem valueDeclType (value? : Option DeclValue) : P fun e => valueDeclType p e value? := by
  simp only [Inference.valueDeclType]
  split
  · exact g.pure _
  · exact Chains.ite (fun _ => g.pure _) fun _ => g.bind (g.inferExpr _ _) fun type => g.pure _

theorem declTypeOf (decl : Decl) : P fun e => declTypeOf p e decl := by
  simp only [Inference.declTypeOf]
  split
  · exact g.resolveAlias _
  · exact g.paramDeclType decl _ _
  · exact g.selfType _
  · exact g.loopVarType decl
  · exact g.valueDeclType _
  · exact g.valueDeclType _

end Bindings

/-- A property of searches that the questions of an engine and the expansion of names have. -/
structure Questions (p : Project) (P : ∀ ⦃α : Type⦄, (Engine → Search α) → Prop) :
    Prop extends Answers p P where
  findMember : ∀ t key, P fun e => e.findMember t key
  findCallables : ∀ t, P fun e => e.findCallables t
  indexAccess : ∀ t key, P fun e => e.indexAccess t key
  collectSources : ∀ t s sources, P fun e => e.collectSources t s sources
  unify : ∀ expected, Binds P expected
  resolveAlias : ∀ t, P fun _ => resolveAlias p t
  inherits : ∀ sub sup, P fun _ => inherits p sub sup
  genericParamsAs : ∀ actual base, P fun _ => genericParamsAs p actual base

namespace Questions

variable (g : Questions p P)

include g

theorem descends : Descends p P fun _ _ => True where
  alternative _ _ := trivial
  expansion hf := g.bind (g.resolveAlias _) fun r => hf r (.inr (.inr trivial))

theorem collectSourcesBelow (t : Ty) (s : Substitution) (sources : MemberSources) :
    P fun e => Inference.collectSources p e t s sources :=
  g.toChains.collectSources g.resolveAlias g.collectSources t s sources

theorem lookups : Lookups p P :=
  { g.toAnswers with
    resolveAlias := g.resolveAlias
    inherits := g.inherits
    genericParamsAs := g.genericParamsAs
    memberSources := fun t => g.collectSourcesBelow t {} {}
    askCallables := g.findCallables
    findCallables := fun _ => g.toAnswers.findCallables g.descends fun u _ => g.findCallables u
    findMember := fun t key => g.toAnswers.findMember g.descends (g.collectSourcesBelow t {} {})
      fun u _ => g.findMember u key
    indexAccess := fun _ key => g.toAnswers.indexAccess g.descends fun u _ => g.indexAccess u key }

theorem bindings : Bindings p P := { g.lookups with unify := g.unify }

theorem unifyBelow (expected actual : Ty) (s : Substitution) :
    P fun e => Inference.unify p e expected actual s :=
  g.lookups.unify (fun t _ => g.unify t) actual s

end Questions

end LuaAnalysis.Inference
