import LuaAnalysis.Proofs.Syntax.Nodes
import LuaAnalysis.Workspace.Analysis

namespace LuaAnalysis.Workspace.CommentContext

open Document Scope Syntax Report

variable (c : CommentContext) {tag : ElementId} {owner : String} {generics : List String}
  {m : Member}

theorem field?_eq_some (h : c.field? tag owner generics = some m) :
    m.doc = c.doc ∧ m.node = ⟨c.doc, tag⟩ ∧ m.value? = none ∧ m.owner = .type owner := by
  simp only [field?, Option.bind_eq_bind, Option.bind_eq_some_iff, Option.pure_def,
    Option.some.injEq] at h
  obtain ⟨key, -, rfl⟩ := h
  exact ⟨rfl, rfl, rfl, rfl⟩

theorem readTypeDecl_keeps (r : CommentReading) (tag : ElementId) (kind : TypeKind) :
    (c.readTypeDecl r tag kind).fields = r.fields ∧
    (c.readTypeDecl r tag kind).suppressions = r.suppressions := by
  unfold readTypeDecl
  split
  · exact ⟨rfl, rfl⟩
  · dsimp only
    split <;> exact ⟨rfl, rfl⟩

theorem mem_readTag_fields {r : CommentReading} (h : m ∈ (c.readTag generics r tag).fields) :
    m ∈ r.fields ∨ ∃ owner generics, c.field? tag owner generics = some m := by
  have hdecl : ∀ kind, m ∈ (c.readTypeDecl r tag kind).fields → m ∈ r.fields := fun kind hm =>
    (c.readTypeDecl_keeps r tag kind).1 ▸ hm
  unfold readTag at h
  split at h
  case h_5 =>
    split at h
    · rcases List.mem_append.1 h with h | h
      · exact .inl h
      · exact .inr ⟨_, _, Option.mem_toList.1 h⟩
    · exact .inl h
  all_goals first
    | exact .inl (hdecl _ h)
    | exact .inl h
    | (split at h <;> exact .inl h)

theorem mem_readComment_fields {comment : ElementId} (h : m ∈ (c.readComment comment).fields) :
    ∃ tag ∈ c.tree.childNodes comment, ∃ owner generics, c.field? tag owner generics = some m := by
  refine List.foldlRecOn (c.tree.childNodes comment) _
    (motive := fun r : CommentReading => m ∈ r.fields →
      ∃ tag ∈ c.tree.childNodes comment, ∃ owner generics, c.field? tag owner generics = some m)
    (fun h => absurd h (by simp)) (fun r hr tag htag hm => ?_) h
  rcases c.mem_readTag_fields hm with hold | ⟨owner, generics, hfield⟩
  · exact hr hold
  · exact ⟨tag, htag, owner, generics, hfield⟩

theorem readTag_suppressions_of_ne (h : c.tree.kind tag ≠ .docTagDiagnostic) (r : CommentReading) :
    (c.readTag generics r tag).suppressions = r.suppressions := by
  unfold readTag
  split
  case h_19 hkind => exact absurd hkind h
  all_goals first
    | exact (c.readTypeDecl_keeps r tag _).2
    | rfl
    | (split <;> rfl)

theorem readTag_suppressions (h : c.tree.kind tag = .docTagDiagnostic) (r : CommentReading) :
    (c.readTag generics r tag).suppressions = r.suppressions ++ (c.suppression? tag).toList := by
  rw [readTag, h]

theorem foldl_readTag_suppressions (tags : List ElementId) (r : CommentReading) :
    (tags.foldl (c.readTag generics) r).suppressions =
      r.suppressions ++ (tags.filter fun n => c.tree.kind n ==
        .docTagDiagnostic).filterMap c.suppression? := by
  induction tags generalizing r with
  | nil => simp
  | cons tag tags ih =>
    rw [List.foldl_cons, ih]
    by_cases hkind : c.tree.kind tag = .docTagDiagnostic
    · cases hsuppression : c.suppression? tag <;>
        simp [hkind, c.readTag_suppressions hkind, hsuppression]
    · simp [hkind, c.readTag_suppressions_of_ne hkind]

theorem readComment_suppressions (comment : ElementId) : (c.readComment comment).suppressions =
    ((c.tree.childNodes comment).filter fun n => c.tree.kind n ==
      .docTagDiagnostic).filterMap c.suppression? := by
  rw [readComment, foldl_readTag_suppressions]
  rfl

end LuaAnalysis.Workspace.CommentContext
