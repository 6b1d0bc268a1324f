import Mathlib.Data.Finset.Card
import LuaAnalysis.Proofs.Inference.Aliases
import LuaAnalysis.Proofs.Inference.Expressions

/-!
Lookups in named types. A lookup goes on in what an alias comes to and in the alternatives of a
union, and where that is well founded it settles. Classes add nothing to this, since each of them is
visited once.
-/

namespace LuaAnalysis.Inference

open Document LuaAnalysis.Types Scope Syntax Workspace

variable {p : Project} {depth : Nat}

/-- A lookup in the second type goes on in the first one. -/
inductive LooksInto (p : Project) : Ty → Ty → Prop
  | alternative {m : Ty} {members : List Ty} : m ∈ members → m.isNil = false →
      LooksInto p m (.union members)
  | expansion {t : Ty} : isAlias p t = true → LooksInto p (run (resolveAlias p t)) t

theorem resolveAlias_looksInto (t : Ty) :
    SettlesWith p depth (fun _ => resolveAlias p t) fun r => r = .unknown ∨ r = t ∨
    LooksInto p r t := by
  refine (resolveAlias_settles t).mono fun r hr => hr.imp_right ?_
  rintro rfl
  by_cases halias : isAlias p t = true
  · exact .inr (.expansion halias)
  · exact .inl (resolveAlias_of_not_isAlias (by simpa using halias))

def unvisited (p : Project) (visited : List String) : Nat :=
  (p.index.superStore.keys.toFinset \ visited.toFinset).card

theorem unvisited_le {visited visited' : List String} (h : visited ⊆ visited') :
    unvisited p visited' ≤ unvisited p visited := by
  apply Finset.card_le_card
  intro name hname
  simp only [Finset.mem_sdiff, List.mem_toFinset] at hname ⊢
  exact ⟨hname.1, fun hv => hname.2 (h hv)⟩

theorem unvisited_cons_lt {name : String} {visited : List String}
    (hsupers : p.index.supers name ≠ []) (h : name ∉ visited) :
    unvisited p (name :: visited) < unvisited p visited := by
  have hkey : name ∈ p.index.superStore.keys := by
    rw [DocMultimap.mem_keys_iff]
    intro hnil
    exact hsupers (by simp [Index.supers, DocMultimap.values, hnil])
  apply Finset.card_lt_card
  refine ⟨fun n hn => ?_, fun hsub => ?_⟩
  · simp only [Finset.mem_sdiff, List.mem_toFinset, List.mem_cons, not_or] at hn ⊢
    exact ⟨hn.1, hn.2.2⟩
  · have hname := hsub (Finset.mem_sdiff.2 ⟨List.mem_toFinset.2 hkey, by simpa using h⟩)
    simp at hname

theorem collectClass_settles {name : String} {s : Substitution} {sources : MemberSources}
    (hrec : ∀ super sources', unvisited p sources'.visited < unvisited p sources.visited →
      SettlesWith p depth (fun e => e.collectSources super s sources') fun r =>
        sources'.visited ⊆ r.visited) :
    SettlesWith p depth (fun e => collectClass p e name s sources) fun r =>
      sources.visited ⊆ r.visited := by
  simp only [collectClass]
  by_cases hname : name ∈ sources.visited
  · simp only [List.contains_iff_mem, hname, if_true]
    exact .pure (List.Subset.refl _)
  simp only [List.contains_iff_mem, hname, if_false]
  refine SettlesWith.mono (Q := fun r => name :: sources.visited ⊆ r.visited) ?_ fun r hr =>
    fun n hn => hr (List.mem_cons_of_mem _ hn)
  refine .foldlM _ (fun sources' super hsuper hsub => ?_) (List.Subset.refl _)
  have hsupers : p.index.supers name ≠ [] := by
    intro hnil
    simp [hnil] at hsuper
  refine (hrec super sources' ?_).mono fun r hr => List.Subset.trans hsub hr
  exact lt_of_le_of_lt (unvisited_le hsub) (unvisited_cons_lt hsupers hname)

theorem collectSources_settles_of_le (h : WellFounded (LooksInto p)) (k : Nat) (t : Ty)
    (s : Substitution) (sources : MemberSources) (hk : unvisited p sources.visited ≤ k) :
    SettlesWith p depth (fun e => e.collectSources t s sources) fun r =>
      sources.visited ⊆ r.visited := by
  induction k using Nat.strongRecOn generalizing t s sources with
  | _ k ihk =>
    induction t using h.induction generalizing s sources with
    | _ t iht =>
      refine SettlesWith.next (f := fun e => collectSources p e t s sources) ?_ fun _ => rfl
      have hsame : sources.visited ⊆ sources.visited := List.Subset.refl _
      have hclass (name : String) (s : Substitution) :
          SettlesWith p depth (fun e => collectClass p e name s sources) fun r =>
            sources.visited ⊆ r.visited :=
        collectClass_settles fun super sources' hlt =>
          ihk _ (lt_of_lt_of_le hlt hk) super s sources' (le_refl _)
      cases t with
      | ref name =>
        simp only [collectSources]
        by_cases hname : p.isAliasName name = true
        · simp only [hname, if_true]
          refine .bind (resolveAlias_looksInto _) fun r hr => ?_
          rcases hr with rfl | rfl | hr
          · exact .pure hsame
          · exact .pure hsame
          · cases r with
            | ref _ => exact .pure hsame
            | unknown => exact .pure hsame
            | _ => exact iht _ hr s sources hk
        · simp only [hname]
          exact hclass name s
      | generic base params =>
        simp only [collectSources]
        cases hdecl : p.index.typeDecl? base with
        | none => exact .pure hsame
        | some decl =>
          by_cases halias : decl.isAlias = true
          · simp only [halias, if_true]
            refine .bind (resolveAlias_looksInto _) fun r hr => ?_
            rcases hr with rfl | rfl | hr
            · exact .pure hsame
            · exact .pure hsame
            · cases r with
              | generic _ _ => exact .pure hsame
              | unknown => exact .pure hsame
              | _ => exact iht _ hr s sources hk
          · simp only [halias]
            exact hclass base _
      | union members =>
        simp only [collectSources]
        refine .foldlM _ (fun sources' m hm hsub => ?_) hsame
        rw [List.mem_filter] at hm
        have hnil : m.isNil = false := by simpa using hm.2
        refine (iht m (.alternative hm.1 hnil) s sources' ((unvisited_le hsub).trans hk)).mono
          fun r hr => ?_
        exact List.Subset.trans hsub hr
      | string => exact SettlesWith.ite (fun _ => .pure hsame) fun _ => .pure hsame
      | strConst _ => exact SettlesWith.ite (fun _ => .pure hsame) fun _ => .pure hsame
      | _ => exact .pure hsame

theorem collectSources_settles (h : WellFounded (LooksInto p)) (t : Ty) (s : Substitution)
    (sources : MemberSources) : Settles p depth fun e => e.collectSources t s sources :=
  .of_with (collectSources_settles_of_le h _ t s sources (le_refl _))

theorem memberSources_settles (h : WellFounded (LooksInto p)) (t : Ty) :
    Settles p depth fun e => memberSources p e t :=
  .back (collectSources_settles h t {} {}) fun _ => rfl

theorem descends_looksInto : Descends p (fun _ => Settles p depth) (LooksInto p) where
  alternative := .alternative
  expansion h := .bind_with (resolveAlias_looksInto _) h

/-- What a search can ask at any depth, since it goes one level deeper for the answer. -/
structure Guarded (p : Project) (depth : Nat) : Prop where
  inferExpr : ∀ doc expr, Settles p depth fun e => e.inferExpr doc expr
  declType : ∀ decl, Settles p depth fun e => e.declType decl
  isSubtype : ∀ sub sup, Settles p depth fun e => e.isSubtype sub sup

namespace Guarded

variable (g : Guarded p depth)

include g

theorem answers : Answers p fun _ => Settles p depth :=
  { Settles.chains p depth with
    inferExpr := g.inferExpr
    declType := fun decl _ => g.declType decl
    isSubtype := g.isSubtype }

variable (h : WellFounded (LooksInto p))

include h

theorem findCallables (t : Ty) : Settles p depth fun e => e.findCallables t := by
  induction t using h.induction with
  | _ t ih =>
    exact .next (f := fun e => Inference.findCallables p e t)
      (g.answers.findCallables descends_looksInto ih) fun _ => rfl

theorem findMembers (t : Ty) : Settles p depth fun e => findMembers p e t :=
  g.answers.findMembers (memberSources_settles h t)

theorem findMember (t : Ty) (key : MemberKey) : Settles p depth fun e => e.findMember t key := by
  induction t using h.induction with
  | _ t ih =>
    have hstep := g.answers.findMember descends_looksInto (memberSources_settles h t) ih
    exact .next (f := fun e => Inference.findMember p e t key) hstep fun _ => rfl

theorem indexAccess (t key : Ty) : Settles p depth fun e => e.indexAccess t key := by
  induction t using h.induction with
  | _ t ih =>
    exact .next (f := fun e => Inference.indexAccess p e t key)
      (g.answers.indexAccess descends_looksInto ih) fun _ => rfl

theorem lookups : Lookups p fun _ => Settles p depth :=
  { g.answers with
    resolveAlias := fun t => .of_with (resolveAlias_settles t)
    inherits := inherits_settles
    genericParamsAs := genericParamsAs_settles
    memberSources := memberSources_settles h
    askCallables := g.findCallables h
    findCallables := fun t => .back (g.findCallables h t) fun _ => rfl
    findMember := fun t key => .back (g.findMember h t key) fun _ => rfl
    indexAccess := fun t key => .back (g.indexAccess h t key) fun _ => rfl }

theorem unify (expected : Ty) : Binds (fun _ => Settles p depth) expected := by
  induction hsize : sizeOf expected using Nat.strongRecOn generalizing expected with
  | _ size ih =>
    intro actual s
    have hstep := (g.lookups h).unify (fun t ht => ih _ (hsize ▸ ht) t rfl) actual s
    exact .next (f := fun e => Inference.unify p e expected actual s) hstep fun _ => rfl

theorem bindings : Bindings p fun _ => Settles p depth := { g.lookups h with unify := g.unify h }

end Guarded

end LuaAnalysis.Inference
