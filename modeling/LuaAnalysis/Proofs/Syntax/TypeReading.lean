import LuaAnalysis.Proofs.Syntax.DocWordRuns
import LuaAnalysis.Proofs.Syntax.TypeForms
import LuaAnalysis.Syntax.Grammar.Doc

namespace LuaAnalysis.Syntax

open DocWord

def endsSingle : TokenKind → Bool
  | .leftBracket | .docQuestion | .lt => false
  | _ => true

def endsType (kind : TokenKind) : Bool := endsSingle kind && kind != .docOr

theorem endsSingle_of_endsType {kind : TokenKind} (h : endsType kind = true) :
    endsSingle kind = true :=
  (Bool.and_eq_true_iff.1 h).1

theorem ne_docOr_of_endsType {kind : TokenKind} (h : endsType kind = true) : kind ≠ .docOr := by
  simpa using (Bool.and_eq_true_iff.1 h).2

namespace TypeForm

theorem exists_intercalate (separator : DocWord) (f : TypeForm) (fs : List TypeForm) :
    ∃ ws, [separator].intercalate ((f :: fs).map words) = f.words ++ ws := by
  cases fs with
  | nil => exact ⟨[], by rw [List.map_singleton, List.intercalate_singleton, List.append_nil]⟩
  | cons g fs =>
    exact ⟨_, by rw [List.map_cons, List.map_cons, List.intercalate_cons_cons, List.append_assoc]⟩

theorem words_pos {f : TypeForm} (h : f.WellFormed) : 0 < f.words.length := by
  induction h with
  | @union members hlength _ _ ih =>
    rw [words, wordLists_eq]
    cases members with
    | nil => simp at hlength
    | cons f fs =>
      obtain ⟨us, hus⟩ := exists_intercalate .bar f fs
      rw [hus, List.length_append]
      exact Nat.lt_add_right _ (ih f (.head _))
  | _ => simp [words]

theorem length_intercalate (separator : DocWord) {fs : List TypeForm} (h : ∀ f ∈ fs, f.WellFormed) :
    fs.length ≤ ([separator].intercalate (fs.map words)).length ∧
      ∀ f ∈ fs, f.words.length ≤ ([separator].intercalate (fs.map words)).length := by
  induction fs with
  | nil => simp
  | cons f fs ih =>
    obtain ⟨hf, hfs⟩ := List.forall_mem_cons.1 h
    obtain ⟨hlength, hall⟩ := ih hfs
    have hpos := words_pos hf
    cases fs with
    | nil =>
      rw [List.map_singleton, List.intercalate_singleton]
      exact ⟨hpos, by simp⟩
    | cons g fs =>
      rw [List.map_cons, List.map_cons, List.intercalate_cons_cons, ← List.map_cons]
      simp only [List.length_append, List.length_cons, List.length_nil] at hlength ⊢
      refine ⟨by omega, List.forall_mem_cons.2 ⟨by omega, fun u hu => ?_⟩⟩
      have := hall u hu
      omega

theorem headKind_words {f : TypeForm} (h : f.WellFormed) (ws : List DocWord) :
    headKind (f.words ++ ws) ≠ .rightBracket := by
  induction h generalizing ws with
  | array _ _ ih | optional _ _ ih =>
    rw [words, List.append_assoc]
    exact ih _
  | @union members hlength _ _ ih =>
    rw [words, wordLists_eq]
    cases members with
    | nil => simp at hlength
    | cons f fs =>
      obtain ⟨us, hus⟩ := exists_intercalate .bar f fs
      rw [hus, List.append_assoc]
      exact ih f (.head _) _
  | _ => simp [words, headKind, DocWord.name, DocWord.int, DocWord.str, DocWord.leftBracket,
      DocWord.leftParen]

end TypeForm

namespace DocType

open DocM

variable {text : String} {single : DocM ClosedNode} {type : DocM Unit} {n : Nat} {f : TypeForm}
  {fs : List TypeForm} {ws ws' : List DocWord} {shape shape' : Shape}

def ReadsSingles (text : String) (single : DocM ClosedNode) (n : Nat) : Prop :=
  ∀ (f : TypeForm) (ws : List DocWord), f.WellFormed → f.isSingle = true → f.words.length ≤ n →
    endsSingle (headKind ws) = true → TakesNode text (f.words ++ ws) single f.shape ws

def ReadsTypes (text : String) (type : DocM Unit) (n : Nat) : Prop :=
  ∀ (f : TypeForm) (ws : List DocWord), f.WellFormed → f.words.length ≤ n →
    endsType (headKind ws) = true →
    Takes text (f.words ++ ws) type () [f.shape] ws

theorem takes_repeatWhile_commas (htype : ReadsTypes text type n)
    (hfs : ∀ f ∈ fs, f.WellFormed ∧ f.words.length ≤ n) (hne : fs ≠ [])
    (hend : endsType (headKind ws) = true) (hcomma : headKind ws ≠ .comma) {k : Nat}
    (hk : fs.length ≤ k) :
    Takes text ([DocWord.comma].intercalate (fs.map TypeForm.words) ++ ws)
      (repeatWhile (do type; eat .comma) k) ()
      ((fs.map TypeForm.shape).intersperse DocWord.comma.shape) ws := by
  induction fs generalizing k with
  | nil => exact absurd rfl hne
  | cons f fs ih =>
    obtain ⟨k, rfl⟩ : ∃ m, k = m + 1 := ⟨k - 1, by simp at hk; omega⟩
    obtain ⟨⟨hf, hlength⟩, hfs⟩ := List.forall_mem_cons.1 hfs
    cases fs with
    | nil =>
      rw [List.map_singleton, List.intercalate_singleton]
      exact takes_repeatWhile_last ((htype f ws hf hlength hend).bind (takes_eat_of_ne hcomma))
    | cons g fs =>
      have hrest := ih hfs (by simp) (Nat.le_of_succ_le_succ hk)
      rw [List.map_cons, List.map_cons, List.intercalate_cons_cons, ← List.map_cons,
        List.append_assoc, List.append_assoc]
      exact takes_repeatWhile ((htype f (.comma :: _) hf hlength rfl).bind (takes_eat rfl)) hrest

theorem takes_commaSeparated (htype : ReadsTypes text type n)
    (hfs : ∀ f ∈ fs, f.WellFormed ∧ f.words.length ≤ n) (hne : fs ≠ [])
    (hend : endsType (headKind ws) = true) (hcomma : headKind ws ≠ .comma) :
    Takes text ([DocWord.comma].intercalate (fs.map TypeForm.words) ++ ws) (commaSeparated type) ()
      ((fs.map TypeForm.shape).intersperse DocWord.comma.shape) ws := by
  refine takes_bound fun k hk => takes_repeatWhile_commas htype hfs hne hend hcomma ?_
  have hlength := (TypeForm.length_intercalate .comma fun f hf => (hfs f hf).1).1
  rw [List.length_append] at hk
  omega

theorem takes_member (h : TakesNode text ws single shape ws') :
    Takes text (.bar :: ws) (do
      if ← eat .docOr then
        discard single
        return true
      return false) true ([DocWord.bar.shape] ++ [shape]) ws' := by
  have hread := h.discard.bind (f := fun _ => pure true) (takes_pure true)
  exact (takes_eat rfl).bind hread

theorem takes_repeatWhile_bars (hsingle : ReadsSingles text single n)
    (hfs : ∀ f ∈ fs, f.WellFormed ∧ f.isSingle = true ∧ f.words.length ≤ n) (hne : fs ≠ [])
    (hend : endsType (headKind ws) = true) {k : Nat} (hk : fs.length ≤ k) :
    Takes text (.bar :: ([DocWord.bar].intercalate (fs.map TypeForm.words) ++ ws))
      (repeatWhile (do
        if ← eat .docOr then
          discard single
          return true
        return false) k) () (DocWord.bar.shape ::
          (fs.map TypeForm.shape).intersperse DocWord.bar.shape) ws := by
  induction fs generalizing k with
  | nil => exact absurd rfl hne
  | cons f fs ih =>
    obtain ⟨k, rfl⟩ : ∃ m, k = m + 1 := ⟨k - 1, by simp at hk; omega⟩
    obtain ⟨⟨hf, hform, hlength⟩, hfs⟩ := List.forall_mem_cons.1 hfs
    cases fs with
    | nil =>
      rw [List.map_singleton, List.intercalate_singleton]
      refine takes_repeatWhile
        (takes_member (hsingle f ws hf hform hlength (endsSingle_of_endsType hend))) ?_
      cases k with
      | zero => exact takes_pure ()
      | succ k =>
        exact takes_repeatWhile_last
          ((takes_eat_of_ne (ne_docOr_of_endsType hend)).bind (takes_pure false))
    | cons g fs =>
      have hrest := ih hfs (by simp) (Nat.le_of_succ_le_succ hk)
      rw [List.map_cons, List.map_cons, List.intercalate_cons_cons, ← List.map_cons,
        List.append_assoc, List.append_assoc]
      exact takes_repeatWhile (takes_member (hsingle f (.bar :: _) hf hform hlength rfl)) hrest

theorem readsTypes_unionOf (hsingle : ReadsSingles text single n) :
    ReadsTypes text (discard (unionOf single)) n := by
  intro f ws hf hlength hend
  refine TakesNode.discard ?_
  by_cases hform : f.isSingle = true
  · refine TakesNode.bind (hsingle f ws hf hform hlength (endsSingle_of_endsType hend))
      (takesBehind_sees ?_)
    rw [beq_false_of_ne (ne_docOr_of_endsType hend)]
    exact takesBehind_pure
  · cases hf with
    | @union members htwo hsingles hmembers =>
      rw [TypeForm.words, TypeForm.wordLists_eq] at hlength ⊢
      rw [TypeForm.shape, TypeForm.shapes_eq]
      have hlengths := TypeForm.length_intercalate .bar hmembers
      have hall : ∀ f ∈ members, f.WellFormed ∧ f.isSingle = true ∧
          f.words.length ≤ n := fun f hf =>
        ⟨hmembers f hf, hsingles f hf, Nat.le_trans (hlengths.2 f hf) hlength⟩
      obtain ⟨f, rest, rfl⟩ := List.exists_cons_of_length_pos (Nat.zero_lt_of_lt htwo)
      obtain ⟨g, fs, rfl⟩ := List.exists_cons_of_length_pos (Nat.lt_of_succ_lt_succ htwo)
      obtain ⟨⟨hf, hform, hfirst⟩, hrest⟩ := List.forall_mem_cons.1 hall
      have hcount := (TypeForm.length_intercalate .bar fun f hf => (hrest f hf).1).1
      rw [List.map_cons, List.map_cons, List.intercalate_cons_cons, ← List.map_cons,
        List.append_assoc, List.append_assoc, List.singleton_append]
      refine TakesNode.bind (hsingle f (.bar :: _) hf hform hfirst rfl) (takesBehind_sees ?_)
      refine takesBehind_nodeAround
        (takes_bound fun k hk => takes_repeatWhile_bars hsingle hrest (by simp) hend ?_) (by decide)
      simp only [List.length_cons, List.length_append] at hk hcount ⊢
      omega
    | _ => exact absurd rfl hform

theorem takesBehind_marks_nil (hend : endsSingle (headKind ws) = true) (m : Nat) :
    TakesBehind text shape ws (marks m) shape ws := by
  cases m with
  | zero => exact takesBehind_pure
  | succ m =>
    refine takesBehind_kind ?_
    split
    · simp_all [endsSingle]
    · simp_all [endsSingle]
    · exact takesBehind_pure

theorem takesBehind_marks_array {m : Nat}
    (h : TakesBehind text (.node .typeArray [shape, DocWord.leftBracket.shape,
    DocWord.rightBracket.shape]) ws (marks m) shape' ws') :
    TakesBehind text shape (.leftBracket :: .rightBracket :: ws) (marks (m + 1)) shape' ws' := by
  refine takesBehind_kind ?_
  exact (takesBehind_nodeAround (takes_bump.bind (takes_expect rfl)) (by decide)).bind h

theorem takesBehind_marks_optional {m : Nat}
    (h : TakesBehind text (.node .typeNullable [shape, DocWord.question.shape]) ws
      (marks m) shape' ws') : TakesBehind text shape (.question ::
      ws) (marks (m + 1)) shape' ws' := by
  refine takesBehind_kind ?_
  exact (takesBehind_nodeAround takes_bump (by decide)).bind h

theorem takes_namedKind_const (value : Bool) :
    Takes text (.name (toString value) :: ws) (namedKind type) .typeLiteral
    [(DocWord.name (toString value)).shape] ws := by
  refine takes_currentText.bind (takes_bump.bind ?_)
  cases value
  · exact takes_pure _
  · exact takes_pure _

theorem takes_namedKind_name {name : String} (hfree : name ∉ reservedWords)
    (hlt : headKind ws ≠ .lt) :
    Takes text (.name name :: ws) (namedKind type) .typeName [(DocWord.name name).shape] ws := by
  simp only [reservedWords, List.mem_cons, List.not_mem_nil, or_false, not_or] at hfree
  refine takes_currentText.bind (takes_bump.bind ?_)
  simp only [DocWord.name, beq_iff_eq, Bool.or_eq_true, hfree, or_self, if_false]
  exact (takes_eat_of_ne hlt).bind (takes_pure _)

theorem takes_namedKind_generic {base : String} (hfree : base ∉ reservedWords)
    (htype : ReadsTypes text type n) (hfs : ∀ f ∈ fs, f.WellFormed ∧ f.words.length ≤ n)
    (hne : fs ≠ []) :
    Takes text (.name base :: .lt ::
      ([DocWord.comma].intercalate (fs.map TypeForm.words) ++ .gt :: ws))
      (namedKind type) .typeGeneric ((DocWord.name base).shape :: DocWord.lt.shape ::
        ((fs.map TypeForm.shape).intersperse DocWord.comma.shape ++ [DocWord.gt.shape])) ws := by
  simp only [reservedWords, List.mem_cons, List.not_mem_nil, or_false, not_or] at hfree
  refine takes_currentText.bind (takes_bump.bind ?_)
  simp only [DocWord.name, beq_iff_eq, Bool.or_eq_true, hfree, or_self, if_false]
  have hend : endsType (headKind (.gt :: ws)) = true := rfl
  have hparams := takes_commaSeparated htype hfs hne hend (show TokenKind.gt ≠ .comma by decide)
  exact (takes_eat rfl).bind ((takes_nested hparams).bind ((takes_expect rfl).bind (takes_pure _)))

theorem takes_primaryKind_name {name : String} {kind : NodeKind} {inner : List Shape}
    (h : Takes text (.name name :: ws) (namedKind (discard (unionOf single))) kind inner ws') :
    Takes text (.name name :: ws) (primaryKind single) kind inner ws' :=
  takes_kind.bind h

theorem takes_primaryKind_literal {w : DocWord} (hkind : w.kind = .int ∨ w.kind = .str) :
    Takes text (w :: ws) (primaryKind single) .typeLiteral [w.shape] ws := by
  refine takes_kind.bind ?_
  rw [headKind]
  rcases hkind with hkind | hkind
  · rw [hkind]
    exact takes_bump.bind (f := fun _ => pure NodeKind.typeLiteral) (takes_pure _)
  · rw [hkind]
    exact takes_bump.bind (f := fun _ => pure NodeKind.typeLiteral) (takes_pure _)

theorem takes_primaryKind_paren (hsingle : ReadsSingles text single n) (hf : f.WellFormed)
    (hlength : f.words.length ≤ n) :
    Takes text (.leftParen :: (f.words ++ .rightParen :: ws)) (primaryKind single) .typeParen
    [DocWord.leftParen.shape, f.shape, DocWord.rightParen.shape] ws := by
  refine takes_kind.bind ?_
  have hinner := takes_nested (readsTypes_unionOf hsingle f (.rightParen :: ws) hf hlength rfl)
  exact takes_bump.bind (hinner.bind ((takes_expect rfl).bind (takes_pure _)))

theorem takes_primaryKind_tuple (hsingle : ReadsSingles text single n)
    (hfs : ∀ f ∈ fs, f.WellFormed ∧ f.words.length ≤ n) :
    Takes text (.leftBracket ::
      ([DocWord.comma].intercalate (fs.map TypeForm.words) ++ .rightBracket :: ws))
      (primaryKind single) .typeTuple (DocWord.leftBracket.shape ::
        ((fs.map TypeForm.shape).intersperse DocWord.comma.shape ++
          [DocWord.rightBracket.shape])) ws := by
  refine takes_kind.bind ?_
  have hend : endsType (headKind (.rightBracket :: ws)) = true := rfl
  have hitems : Takes text ([DocWord.comma].intercalate (fs.map TypeForm.words) ++
      .rightBracket :: ws) (unlessSees .rightBracket
        (nested (commaSeparated (discard (unionOf single))))) ()
      ((fs.map TypeForm.shape).intersperse DocWord.comma.shape) (.rightBracket :: ws) := by
    cases fs with
    | nil => exact takes_unlessSees_of_eq rfl
    | cons f fs =>
      obtain ⟨us, hus⟩ := TypeForm.exists_intercalate .comma f fs
      have hitems := takes_commaSeparated (readsTypes_unionOf hsingle) hfs (by simp) hend
        (show TokenKind.rightBracket ≠ .comma by decide)
      refine takes_unlessSees ?_ (takes_nested hitems)
      rw [hus, List.append_assoc]
      exact TypeForm.headKind_words (hfs f (.head _)).1 _
  exact takes_bump.bind (hitems.bind ((takes_expect rfl).bind (takes_pure _)))

theorem takes_primary_of {kind : NodeKind} {inner : List Shape} {ws'' : List DocWord} {m : Nat}
    (hbehind : TakesBehind text (.node kind inner) ws' (marks m) shape' ws'')
    (h : Takes text ws (primaryKind single) kind inner ws')
    (hkind : kind ≠ .absent ∧ kind ≠ .comment) :
    TakesNode text ws (primary single >>= marks m) shape' ws'' :=
  (takesNode_nodeOf h hkind).bind hbehind

theorem takes_primary (hsingle : ReadsSingles text (DocType.single n) n) (hf : f.WellFormed)
    (hform : f.isSingle = true) (hlength : f.words.length ≤ n + 1) (hlt : headKind ws ≠ .lt)
    (hmarks : ∀ m, ws.length ≤ m → TakesBehind text f.shape ws (marks m) shape' ws') {m : Nat}
    (hm : (f.words ++ ws).length ≤ m) :
    TakesNode text (f.words ++ ws) (primary (DocType.single n) >>= marks m) shape' ws' := by
  have htype := readsTypes_unionOf hsingle
  have hbehind := hmarks m (by rw [List.length_append] at hm; omega)
  induction hf generalizing ws m with
  | name _ hfree =>
    exact takes_primary_of hbehind
      (takes_primaryKind_name (takes_namedKind_name hfree hlt)) (by decide)
  | bool value =>
    exact takes_primary_of hbehind
      (takes_primaryKind_name (takes_namedKind_const value)) (by decide)
  | int _ _ => exact takes_primary_of hbehind (takes_primaryKind_literal (.inl rfl)) (by decide)
  | str _ => exact takes_primary_of hbehind (takes_primaryKind_literal (.inr rfl)) (by decide)
  | @generic base params _ hfree hne hparams =>
    rw [TypeForm.words, TypeForm.wordLists_eq] at hlength ⊢
    rw [TypeForm.shape, TypeForm.shapes_eq] at hbehind
    have hlengths := (TypeForm.length_intercalate .comma hparams).2
    have hall : ∀ f ∈ params, f.WellFormed ∧ f.words.length ≤ n := fun f hf =>
      ⟨hparams f hf, by have := hlengths f hf; simp only [List.length_cons,
        List.length_append] at hlength; omega⟩
    have hread := takes_primary_of hbehind
      (takes_primaryKind_name (takes_namedKind_generic hfree htype hall hne)) (by decide)
    simpa using hread
  | @tuple items hitems =>
    rw [TypeForm.words, TypeForm.wordLists_eq] at hlength ⊢
    rw [TypeForm.shape, TypeForm.shapes_eq] at hbehind
    have hlengths := (TypeForm.length_intercalate .comma hitems).2
    have hall : ∀ f ∈ items, f.WellFormed ∧ f.words.length ≤ n := fun f hf =>
      ⟨hitems f hf, by have := hlengths f hf; simp only [List.length_cons,
        List.length_append] at hlength; omega⟩
    have hread := takes_primary_of hbehind (takes_primaryKind_tuple hsingle hall) (by decide)
    simpa using hread
  | paren h =>
    rw [TypeForm.words] at hlength ⊢
    simp only [List.length_cons, List.length_append] at hlength
    have hread :=
      takes_primary_of hbehind (takes_primaryKind_paren hsingle h (by omega)) (by decide)
    simpa using hread
  | @array item hitem _ ih =>
    rw [TypeForm.words, List.append_assoc] at hm ⊢
    rw [TypeForm.words, List.length_append] at hlength
    have hrest : ∀ k, (DocWord.leftBracket :: .rightBracket :: ws).length ≤ k →
        TakesBehind text item.shape (.leftBracket :: .rightBracket :: ws) (marks k) shape' ws' := by
      intro k hk
      obtain ⟨k, rfl⟩ : ∃ j, k = j + 1 := ⟨k - 1, by simp at hk; omega⟩
      simp only [List.length_cons] at hk
      exact takesBehind_marks_array (hmarks k (by omega))
    exact ih hitem (by omega) (by simp [headKind, DocWord.leftBracket]) hrest hm
      (hrest m (by simp at hm ⊢; omega))
  | @optional item hitem _ ih =>
    rw [TypeForm.words, List.append_assoc] at hm ⊢
    rw [TypeForm.words, List.length_append] at hlength
    have hrest : ∀ k, (DocWord.question :: ws).length ≤ k →
        TakesBehind text item.shape (.question :: ws) (marks k) shape' ws' := by
      intro k hk
      obtain ⟨k, rfl⟩ : ∃ j, k = j + 1 := ⟨k - 1, by simp at hk; omega⟩
      exact takesBehind_marks_optional (hmarks k (Nat.le_of_succ_le_succ hk))
    exact ih hitem (by omega) (by simp [headKind, DocWord.question]) hrest hm
      (hrest m (by simp at hm ⊢; omega))
  | union => exact absurd hform (by simp [TypeForm.isSingle])

theorem readsSingles_single (text : String) (n : Nat) : ReadsSingles text (DocType.single n) n := by
  induction n with
  | zero =>
    intro f ws hf _ hlength _
    have := TypeForm.words_pos hf
    omega
  | succ n ih =>
    intro f ws hf hform hlength hend
    have hlt : headKind ws ≠ .lt := by
      intro hlt
      rw [hlt] at hend
      cases hend
    refine takesNode_bound (f := fun m => primary (DocType.single n) >>= marks m) fun m hm => ?_
    exact takes_primary ih hf hform hlength hlt (fun k _ => takesBehind_marks_nil hend k) hm

theorem takes_type (hf : f.WellFormed) (hend : endsType (headKind ws) = true) :
    Takes text (f.words ++ ws) DocType.type () [f.shape] ws := by
  refine takes_bound (f := fun n => discard (unionOf (DocType.single n))) fun n hn => ?_
  rw [List.length_append] at hn
  exact readsTypes_unionOf (readsSingles_single text n) f ws hf (by omega) hend

end DocType

end LuaAnalysis.Syntax
