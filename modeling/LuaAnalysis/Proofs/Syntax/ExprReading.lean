import LuaAnalysis.Proofs.Syntax.ExprText
import LuaAnalysis.Proofs.Syntax.WordRuns

/-!
The words of a well parenthesised expression are read as that expression. Binary operators and
suffixes are read in loops that come around what has been read already, so what is proved about them
is where the loop stands once the words of the expression are taken up.
-/

namespace LuaAnalysis.Syntax

def startsSuffix : TokenKind → Bool
  | .dot | .leftBracket | .colon | .leftParen | .str | .longString | .leftBrace => true
  | _ => false

def startsExpr : TokenKind → Bool
  | .name | .int | .float | .str | .longString | .kwNil | .kwTrue | .kwFalse | .dots | .leftParen
  | .leftBrace | .kwNot
  | .minus | .len | .bitXor => true
  | _ => false

/-- A token that leaves an expression in front of it alone: no suffix, and no operator that binds
tighter than what holds the end of the expression. -/
structure Stops (held : List Nat) (kind : TokenKind) : Prop where
  noSuffix : startsSuffix kind = false
  loose : ∀ op, BinaryOperator.ofToken? kind = some op → ∀ h ∈ held, op.leftPriority ≤ h

def Closes (kind : TokenKind) : Prop := startsSuffix kind = false ∧
    BinaryOperator.ofToken? kind = none

instance (kind : TokenKind) : Decidable (Closes kind) := inferInstanceAs (Decidable (_ ∧ _))

theorem Closes.stops {kind : TokenKind} (h : Closes kind) (held : List Nat) : Stops held kind := by
  refine ⟨h.1, fun op hop => ?_⟩
  rw [h.2] at hop
  cases hop

theorem BinaryOperator.ofToken?_word (op : BinaryOperator) : ofToken? op.word.kind = some op := by
  cases op <;> rfl

theorem BinaryOperator.startsSuffix_word (op : BinaryOperator) :
    startsSuffix op.word.kind = false := by
  cases op <;> rfl

theorem BinaryOperator.word_ne_assign (op : BinaryOperator) : op.word.kind ≠ .assign := by
  cases op <;> decide

theorem BinaryOperator.rightPriority_le (op : BinaryOperator) :
    op.rightPriority ≤ op.leftPriority := by
  cases op <;> decide

theorem BinaryOperator.leftPriority_pos (op : BinaryOperator) : 0 < op.leftPriority := by
  cases op <;> decide

theorem UnaryOperator.ofToken?_word (op : UnaryOperator) : ofToken? op.word.kind = some op := by
  cases op <;> rfl

theorem UnaryOperator.startsExpr_word (op : UnaryOperator) : startsExpr op.word.kind = true := by
  cases op <;> rfl

theorem Separator.closes_word (separator : Separator) : Closes separator.word.kind := by
  cases separator <;> decide

theorem Separator.word_ne_assign (separator : Separator) : separator.word.kind ≠ .assign := by
  cases separator <;> decide

theorem startsExpr_of_mem : ∀ kind ∈ literalKinds, startsExpr kind = true := by decide

namespace Expr

theorem exists_words : ∀ e : Expr, ∃ w ws, e.words = w :: ws ∧ startsExpr w.kind = true
  | .name n => ⟨n.toWord, [], rfl, by rw [n.kind_eq]; rfl⟩
  | .literal l => ⟨l.toWord, [], rfl, startsExpr_of_mem _ l.kind_mem⟩
  | .paren _ => ⟨_, _, rfl, rfl⟩
  | .unary op _ => ⟨_, _, rfl, op.startsExpr_word⟩
  | .binary _ l _ => by
    obtain ⟨w, ws, hwords, hstart⟩ := exists_words l
    exact ⟨w, _, by rw [words, hwords]; rfl, hstart⟩
  | .field e _ => by
    obtain ⟨w, ws, hwords, hstart⟩ := exists_words e
    exact ⟨w, _, by rw [words, hwords]; rfl, hstart⟩
  | .index e _ => by
    obtain ⟨w, ws, hwords, hstart⟩ := exists_words e
    exact ⟨w, _, by rw [words, hwords]; rfl, hstart⟩
  | .call e _ => by
    obtain ⟨w, ws, hwords, hstart⟩ := exists_words e
    exact ⟨w, _, by rw [words, hwords]; rfl, hstart⟩
  | .method e _ _ => by
    obtain ⟨w, ws, hwords, hstart⟩ := exists_words e
    exact ⟨w, _, by rw [words, hwords]; rfl, hstart⟩
  | .table _ => ⟨_, _, rfl, rfl⟩

theorem words_pos (e : Expr) : 0 < e.words.length := by
  obtain ⟨w, ws, hwords, -⟩ := e.exists_words
  simp [hwords]

theorem startsExpr_headKind (e : Expr) (ws : List Word) :
    startsExpr (headKind (e.words ++ ws)) = true := by
  obtain ⟨w, ws', hwords, hstart⟩ := e.exists_words
  rw [hwords]
  exact hstart

theorem headKind_tail_ne_assign : ∀ (e : Expr) {ws : List Word}, headKind ws ≠ .assign →
    headKind (e.words ++ ws) = .name → headKind (e.words ++ ws).tail ≠ .assign
  | .name _, _, hws, _ => hws
  | .literal l, _, hws, _ => hws
  | .paren _, _, _, hname => nomatch hname
  | .unary op _, _, _, hname => by cases op <;> cases hname
  | .binary op l _, _, _, hname => by
    rw [words, List.append_assoc] at hname ⊢
    exact headKind_tail_ne_assign l op.word_ne_assign hname
  | .field e _, _, _, hname => by
    rw [words, List.append_assoc] at hname ⊢
    exact headKind_tail_ne_assign e (nomatch ·) hname
  | .index e _, _, _, hname => by
    rw [words, List.append_assoc] at hname ⊢
    exact headKind_tail_ne_assign e (nomatch ·) hname
  | .call e args, ws, _, hname => by
    rw [words, List.append_assoc] at hname ⊢
    refine headKind_tail_ne_assign e ?_ hname
    cases args with
    | string s =>
      intro h
      have hmem := s.kind_mem
      rw [show s.kind = .assign from h] at hmem
      exact absurd hmem (by decide)
    | _ => exact (nomatch ·)
  | .method e _ _, _, _, hname => by
    rw [words, List.append_assoc] at hname ⊢
    exact headKind_tail_ne_assign e (nomatch ·) hname
  | .table _, _, _, hname => nomatch hname

theorem headKind_front : ∀ {e : Expr} (ws : List Word), e.IsFront → e.WellParenthesised →
    headKind (e.words ++ ws) = .name ∨ headKind (e.words ++ ws) = .leftParen
  | .name m, _, _, _ => .inl m.kind_eq
  | .paren _, _, _, _ => .inr rfl
  | .field e _, ws, _, he => by
    rw [words, List.append_assoc]
    exact headKind_front _ he.1 he.2
  | .index e _, ws, _, he => by
    rw [words, List.append_assoc]
    exact headKind_front _ he.1 he.2.1
  | .call e _, ws, _, he => by
    rw [words, List.append_assoc]
    exact headKind_front _ he.1 he.2.1
  | .method e _ _, ws, _, he => by
    rw [words, List.append_assoc]
    exact headKind_front _ he.1 he.2.1
  | .literal _, _, hfront, _ => hfront.elim
  | .unary _ _, _, hfront, _ => hfront.elim
  | .binary _ _ _, _, hfront, _ => hfront.elim
  | .table _, _, hfront, _ => hfront.elim

end Expr

theorem Args.words_pos (args : Args) : 0 < args.words.length := by
  cases args <;> simp [Args.words]

def Rules.Reads (text : String) (g : Rules) (n : Nat) : Prop :=
  ∀ (e : Expr) (limit : Nat) (p : Parser) (pre : List Event) (shapes : List Shape) (ws : List Word),
    e.WellParenthesised → e.words.length ≤ n → e.Above limit →
    Stops (limit :: e.rightHolds) (headKind ws) →
      p.Wrote text pre shapes (e.words ++ ws) →
        ∃ (q : Parser) (c : ClosedNode), g.expr limit p = (q, some c) ∧
        q.WroteNode text c pre shapes e.shape ws

namespace Grammar

open Syntax.Parser

variable {text : String} {g : Rules} {n : Nat} {p q : Parser} {c : ClosedNode} {pre : List Event}
  {shapes : List Shape} {ws : List Word}

/-- After some steps behind what is read first, a loop stands here, with room for at least `left`
steps more. -/
def Extends (first : Parser × Option ClosedNode)
    (step : Parser × ClosedNode → (Parser × ClosedNode) × Bool) (left : Nat)
    (s : Parser × ClosedNode) : Prop :=
  ∃ p c m, first = (p, some c) ∧ m + left ≤ p.bound ∧
    ∀ k, repeatWhile step (m + k) (p, c) = repeatWhile step k s

section

variable {first : Parser × Option ClosedNode}
  {step : Parser × ClosedNode → (Parser × ClosedNode) × Bool} {left left' : Nat} {s s' :
    Parser × ClosedNode}

theorem Extends.refl (h : first = (p, some c)) (hleft : left ≤ p.bound) :
    Extends first step left (p, c) :=
  ⟨p, c, 0, h, by omega, fun k => by rw [Nat.zero_add]⟩

theorem Extends.next (h : Extends first step left s) (hs : step s = (s', true))
    (hleft : left' < left) : Extends first step left' s' := by
  obtain ⟨p, c, m, hfirst, hroom, hloop⟩ := h
  refine ⟨p, c, m + 1, hfirst, by omega, fun k => ?_⟩
  rw [Nat.add_assoc, Nat.add_comm 1, hloop, repeatWhile, hs]

theorem Extends.last (h : Extends first step left s) (hs : step s = (s', false)) :
    ∃ p c, first = (p, some c) ∧ repeatWhile step (p.bound + 1) (p, c) = s' := by
  obtain ⟨p, c, m, hfirst, hroom, hloop⟩ := h
  obtain ⟨k, hk⟩ : ∃ k, p.bound + 1 = m + (k + 1) := ⟨p.bound - m, by omega⟩
  refine ⟨p, c, hfirst, ?_⟩
  rw [hk, hloop, repeatWhile, hs]

end

def separated (p : Parser) : Parser × Bool :=
  match p.eat .comma with
  | (p, true) => (p, true)
  | (p, false) => p.eat .semicolon

theorem separated_of_word {separator : Separator}
    (h : p.Wrote text pre shapes (separator.word :: ws)) : ∃ q : Parser, separated p = (q, true) ∧
    q.Wrote text pre (shapes ++ [separator.word.shape]) ws := by
  cases separator with
  | comma =>
    obtain ⟨q, heat, hq⟩ := h.eat .comma rfl
    exact ⟨q, by rw [separated, heat], hq⟩
  | semicolon =>
    obtain ⟨q, heat, hq⟩ := h.eat .semicolon rfl
    refine ⟨q, ?_, hq⟩
    rw [separated, h.eat_of_ne (show TokenKind.semicolon ≠ .comma by decide)]
    exact heat

theorem separated_of_rightBrace (h : p.Wrote text pre shapes (.rightBrace :: ws)) :
    separated p = (p, false) := by
  rw [separated, h.eat_of_ne (show TokenKind.rightBrace ≠ .comma by decide)]
  exact h.eat_of_ne (show TokenKind.rightBrace ≠ .semicolon by decide)

theorem startsEntry (entry : Entry) (ws : List Word) :
    headKind (entry.words ++ ws) ≠ .rightBrace ∧ headKind (entry.words ++ ws) ≠ .eof := by
  cases entry with
  | value e =>
    have hstart := e.startsExpr_headKind ws
    rw [Entry.words]
    constructor
    · intro h
      rw [h] at hstart
      cases hstart
    · intro h
      rw [h] at hstart
      cases hstart
  | named m e =>
    rw [Entry.words, List.cons_append, headKind, m.kind_eq]
    decide
  | keyed k e => exact ⟨by simp [Entry.words, headKind, Word.leftBracket], by simp [Entry.words,
      headKind, Word.leftBracket]⟩

theorem wrote_tableItem {entry : Entry} {more : Bool} {inner : List Shape} {ws' : List Word}
    (h : p.Wrote text pre shapes (entry.words ++ ws))
    (hstep : ∀ (r : Parser) (pre' : List Event), r.Wrote text pre' [] (entry.words ++ ws) →
      ∃ q : Parser, separated (tableField g r) = (q, more) ∧ q.Wrote text pre' inner ws') :
    ∃ q : Parser, tableItem g p = (q, more) ∧
    q.Wrote text pre (shapes ++ [.node .tableField inner]) ws' := by
  obtain ⟨hbrace, heof⟩ := startsEntry entry ws
  obtain ⟨q, hq, hopen⟩ := h.openDocumented
  have hend : (p.sees .rightBrace || p.sees .eof) = false := by
    rw [h.sees_eq, h.sees_eq]
    simp [hbrace, heof]
  have hitem : tableItem g p =
      ((separated (tableField g q.openNode.1)).1.trailingComment.finish q.openNode.2 .tableField,
        (separated (tableField g q.openNode.1)).2) := by
    rw [tableItem, hend, hopen]
    rfl
  obtain ⟨pre', hopened⟩ := hq.openNode
  obtain ⟨r, hseparated, -⟩ := hstep _ _ hopened
  have hnode := hq.node (show NodeKind.tableField ≠ .absent ∧
    NodeKind.tableField ≠ .comment by decide) (fun r =>
      (separated (tableField g r)).1.trailingComment) fun r pre' hr => by
        obtain ⟨q, hq, hwrote⟩ := hstep r pre' hr
        rw [hq, hwrote.trailingComment]
        exact hwrote
  rw [hitem]
  refine ⟨_, ?_, hnode.wrote⟩
  rw [hseparated]
  rfl

section

variable (hg : g.Reads text n)
include hg

theorem wrote_needExpr {e : Expr} (he : e.WellParenthesised) (hlength : e.words.length ≤ n)
    (h : p.Wrote text pre shapes (e.words ++ ws)) (hend : Closes (headKind ws)) :
    (needExpr g p).Wrote text pre (shapes ++ [e.shape]) ws := by
  have habove : e.Above 0 := fun op _ => op.leftPriority_pos
  obtain ⟨q, c, hread, hnode⟩ := hg e 0 p pre shapes ws he hlength habove (hend.stops _) h
  rw [needExpr, hread]
  exact hnode.wrote

theorem wrote_commaSeparated (hend : Closes (headKind ws)) (hcomma : headKind ws ≠ .comma) :
    ∀ (others : Others) {e : Expr} {k : Nat} {p : Parser} {shapes : List Shape},
    e.WellParenthesised →
      others.WellParenthesised → e.words.length + others.words.length ≤ n →
      others.words.length < k →
      p.Wrote text pre shapes (e.words ++ (others.words ++ ws)) →
        (repeatWhile (fun p => (needExpr g p).eat .comma) k p).Wrote text pre
        (shapes ++ e.shape :: others.shapes) ws
  | .nil, e, k, p, shapes, he, _, hlength, hk, h => by
    obtain ⟨k, rfl⟩ : ∃ m, k = m + 1 := ⟨k - 1, by omega⟩
    have hfirst := wrote_needExpr hg he hlength h hend
    rw [repeatWhile, hfirst.eat_of_ne hcomma]
    exact hfirst
  | .cons e' others, e, k, p, shapes, he, hothers, hlength, hk, h => by
    obtain ⟨k, rfl⟩ : ∃ m, k = m + 1 := ⟨k - 1, by omega⟩
    simp only [Others.words, List.length_cons, List.length_append] at hlength hk
    rw [Others.words, List.cons_append, List.append_assoc] at h
    have hfirst := wrote_needExpr hg he (by omega) h (show Closes .comma by decide)
    obtain ⟨q, heat, hq⟩ := hfirst.eat .comma rfl
    have hrest := wrote_commaSeparated hend hcomma others hothers.1 hothers.2 (by omega)
      (show others.words.length < k by omega) hq
    rw [repeatWhile, heat]
    simpa [Others.shapes] using hrest

theorem wrote_tableField {entry : Entry} (hentry : entry.WellParenthesised)
    (hlength : entry.words.length ≤ n) (h : p.Wrote text pre shapes (entry.words ++ ws))
    (hend : Closes (headKind ws)) (hassign : headKind ws ≠ .assign) :
    (tableField g p).Wrote text pre (shapes ++ entry.shapes) ws := by
  rw [tableField]
  cases entry with
  | value e =>
    rw [Entry.words] at h
    have hstart := e.startsExpr_headKind ws
    have hbracket : p.sees .leftBracket = false := by
      rw [h.sees_eq]
      by_contra hkind
      rw [Bool.not_eq_false, beq_iff_eq] at hkind
      rw [hkind] at hstart
      cases hstart
    have hname : (p.sees .name && p.nextKind == .assign) = false := by
      rw [h.sees_eq]
      by_contra hkind
      rw [Bool.not_eq_false, Bool.and_eq_true, beq_iff_eq, beq_iff_eq] at hkind
      obtain ⟨w, ws', hwords, -⟩ := e.exists_words
      have hnext := e.headKind_tail_ne_assign hassign hkind.1
      rw [hwords] at hnext h
      exact hnext (h.1.nextKind_eq.symm.trans hkind.2)
    rw [hbracket, hname]
    exact wrote_needExpr hg hentry hlength h hend
  | named m e =>
    rw [Entry.words] at h
    have hbracket : p.sees .leftBracket = false := by
      rw [h.sees_eq, List.cons_append, headKind, m.kind_eq]
      rfl
    have hname : (p.sees .name && p.nextKind == .assign) = true := by
      rw [h.sees_eq, h.1.nextKind_eq, List.cons_append, headKind, m.kind_eq]
      rfl
    rw [hbracket, hname]
    simp only [Entry.words, List.length_cons] at hlength
    have hread := wrote_needExpr hg hentry (show e.words.length ≤ n by omega) h.bump.bump hend
    simpa [Entry.shapes] using hread
  | keyed k e =>
    simp only [Entry.words, List.length_cons, List.length_append] at hlength
    rw [Entry.words, List.cons_append, List.append_assoc] at h
    have hbracket : p.sees .leftBracket = true := h.sees_eq _
    have hkey := wrote_needExpr hg hentry.1 (show k.words.length ≤ n by omega) h.bump
      (show Closes .rightBracket by decide)
    have hread := wrote_needExpr hg hentry.2 (show e.words.length ≤ n by omega)
      ((hkey.need .rightBracket rfl).need .assign rfl) hend
    rw [hbracket, if_pos rfl]
    simpa [Entry.shapes] using hread

theorem wrote_tableItems : ∀ (entries : Entries) {k : Nat} {p : Parser} {shapes : List Shape},
    entries.WellParenthesised → entries.words.length ≤ n → entries.words.length < k →
      p.Wrote text pre shapes (entries.words ++ .rightBrace :: ws) →
        (repeatWhile (tableItem g) k p).Wrote text pre (shapes ++ entries.shapes)
        (.rightBrace :: ws)
  | .nil, k, p, shapes, _, _, hk, h => by
    obtain ⟨k, rfl⟩ : ∃ m, k = m + 1 := ⟨k - 1, by omega⟩
    have hend : p.sees .rightBrace = true := h.sees_eq _
    have hitem : tableItem g p = (p.flushComments, false) := by
      rw [tableItem, hend]
      rfl
    rw [repeatWhile, hitem, Entries.shapes, List.append_nil]
    exact h.flushComments
  | .last entry, k, p, shapes, hentries, hlength, hk, h => by
    obtain ⟨k, rfl⟩ : ∃ m, k = m + 1 := ⟨k - 1, by omega⟩
    obtain ⟨q, hitem, hq⟩ := wrote_tableItem h fun r pre' hr => by
      have hfield := wrote_tableField hg hentries hlength hr (show Closes .rightBrace by decide)
        (show TokenKind.rightBrace ≠ .assign by decide)
      exact ⟨_, separated_of_rightBrace hfield, hfield⟩
    rw [repeatWhile, hitem]
    exact hq
  | .cons entry separator entries, k, p, shapes, hentries, hlength, hk, h => by
    obtain ⟨k, rfl⟩ : ∃ m, k = m + 1 := ⟨k - 1, by omega⟩
    simp only [Entries.words, List.length_cons, List.length_append] at hlength hk
    rw [Entries.words, List.append_assoc, List.cons_append] at h
    obtain ⟨q, hitem, hq⟩ := wrote_tableItem h fun r pre' hr =>
      separated_of_word (wrote_tableField hg hentries.1
        (by omega) hr separator.closes_word separator.word_ne_assign)
    have hrest := wrote_tableItems entries hentries.2 (by omega)
      (show entries.words.length < k by omega) hq
    rw [repeatWhile, hitem]
    simpa [Entries.shapes] using hrest

theorem wroteNode_table {entries : Entries} (hentries : entries.WellParenthesised)
    (hlength : entries.words.length ≤ n)
    (h : p.Wrote text pre shapes (.leftBrace :: (entries.words ++ .rightBrace :: ws))) :
    (table g p).1.WroteNode text (table g p).2 pre shapes
      (.node .tableExpr (Word.leftBrace.shape :: (entries.shapes ++ [Word.rightBrace.shape])))
      ws := by
  have hroom : entries.words.length < p.bound := by
    have hroom := h.1.room
    simp only [List.length_cons, List.length_append] at hroom
    omega
  -- the number of tokens does not change while a table is read
  have hstep : ∀ r pre', Wrote text r pre' [] (.leftBrace :: (entries.words ++ .rightBrace :: ws)) →
      ((repeatWhile (tableItem g) (p.bound + 1) r.bump).need .rightBrace).Wrote text pre'
        (Word.leftBrace.shape :: (entries.shapes ++ [Word.rightBrace.shape])) ws := by
    intro r pre' hr
    have hitems := wrote_tableItems hg entries hentries hlength
      (show entries.words.length < p.bound + 1 by omega) hr.bump
    simpa using hitems.need .rightBrace rfl
  exact h.node (by decide)
    (fun r => (repeatWhile (tableItem g) (p.bound + 1) r.bump).need .rightBrace) hstep

end

theorem wroteNode_literal {w : Word} (h : p.Wrote text pre shapes (w :: ws)) :
    (literal p).1.WroteNode text (literal p).2 pre shapes (.node .literalExpr [w.shape]) ws :=
  h.node (by decide) bump fun _ _ hq => hq.bump

section

variable (hg : g.Reads text n)
include hg

theorem wrote_exprList {e : Expr} {others : Others} (he : e.WellParenthesised)
    (hothers : others.WellParenthesised) (hlength : e.words.length + others.words.length ≤ n)
    (h : p.Wrote text pre shapes (e.words ++ (others.words ++ ws)))
    (hend : Closes (headKind ws)) (hcomma : headKind ws ≠ .comma) :
    (exprList g p).Wrote text pre (shapes ++ e.shape :: others.shapes) ws := by
  have hroom := h.1.room
  simp only [List.length_append] at hroom
  exact wrote_commaSeparated hg hend hcomma others he hothers hlength (by omega) h

theorem wrote_callArgs {args : Args} (hargs : args.WellParenthesised)
    (hlength : args.words.length ≤ n + 1) (h : p.Wrote text pre shapes (args.words ++ ws)) :
    (callArgs g p).Wrote text pre (shapes ++ [.node .callArgList args.shapes]) ws := by
  refine (h.node (by decide) (argList g) fun r pre' hr => ?_).wrote
  rw [argList]
  cases args with
  | empty =>
    have hkind : r.kind = .leftParen := hr.kind_eq
    have hclosed : r.bump.sees .rightParen = true := hr.bump.sees_eq _
    simp only [hkind, hclosed, if_true]
    exact hr.bump.need .rightParen rfl
  | list e others =>
    simp only [Args.words, List.length_cons, List.length_append] at hlength
    rw [Args.words, List.cons_append, List.append_assoc, List.append_assoc] at hr
    have hkind : r.kind = .leftParen := hr.kind_eq
    have hopen : r.bump.sees .rightParen = false := by
      have hstart := e.startsExpr_headKind (others.words ++ ([Word.rightParen] ++ ws))
      rw [hr.bump.sees_eq]
      by_contra hclosed
      rw [Bool.not_eq_false, beq_iff_eq] at hclosed
      rw [hclosed] at hstart
      cases hstart
    have hlist := wrote_exprList hg hargs.1 hargs.2 (by omega) hr.bump
      (show Closes .rightParen by decide) (show TokenKind.rightParen ≠ .comma by decide)
    simp only [hkind, hopen, Bool.false_eq_true, if_false]
    simpa [Args.shapes] using hlist.need .rightParen rfl
  | string s =>
    have hread := (wroteNode_literal hr).wrote
    have hkind : r.kind = .str ∨ r.kind = .longString := by
      rw [show r.kind = s.kind from hr.kind_eq]
      simpa [stringKinds] using s.kind_mem
    rcases hkind with hkind | hkind
    · simp only [hkind]
      exact hread
    · simp only [hkind]
      exact hread
  | table entries =>
    simp only [Args.words, List.length_cons, List.length_append] at hlength
    rw [Args.words, List.cons_append, List.append_assoc] at hr
    have hkind : r.kind = .leftBrace := hr.kind_eq
    simp only [hkind]
    exact (wroteNode_table hg hargs (by omega) hr).wrote

omit hg in
theorem primaryExpr_name {m : Name} (h : p.Wrote text pre shapes (m.toWord :: ws)) :
    ∃ q c, primaryExpr g p = (q, some c) ∧
    WroteNode text q c pre shapes (.node .nameExpr [m.shape]) ws := by
  have hkind : p.kind = .name := h.kind_eq.trans m.kind_eq
  rw [primaryExpr, hkind]
  exact ⟨_, _, rfl, h.node (by decide) bump fun _ _ hr => hr.bump⟩

theorem primaryExpr_paren {e : Expr} (he : e.WellParenthesised) (hlength : e.words.length ≤ n)
    (h : p.Wrote text pre shapes (.leftParen :: (e.words ++ .rightParen :: ws))) :
    ∃ q c, primaryExpr g p = (q, some c) ∧ WroteNode text q c pre shapes
      (.node .parenExpr [Word.leftParen.shape, e.shape, Word.rightParen.shape]) ws := by
  have hkind : p.kind = .leftParen := h.kind_eq
  rw [primaryExpr, hkind]
  refine ⟨_, _, rfl, h.node (by decide) (fun r => (needExpr g r.bump).need .rightParen)
    fun _ _ hr => ?_⟩
  exact (wrote_needExpr hg he hlength hr.bump (show Closes .rightParen by decide)).need
    .rightParen rfl

omit hg in
theorem suffix_dot {shape : Shape} {m : Name}
    (h : q.WroteNode text c pre shapes shape (.dot :: m.toWord :: ws)) :
    ∃ r c', suffix g (q, c) = ((r, c'), true) ∧
      WroteNode text r c' pre shapes (.node .indexExpr [shape, Word.dot.shape, m.shape]) ws := by
  have hkind : q.kind = .dot := h.kind_eq
  rw [suffix, hkind]
  exact ⟨_, _, rfl, h.around (by decide) (fun r => r.bump.need .name) fun _ _ hr =>
    hr.bump.need .name m.kind_eq⟩

theorem suffix_bracket {shape : Shape} {k : Expr} (hk : k.WellParenthesised)
    (hlength : k.words.length ≤ n)
    (h : q.WroteNode text c pre shapes shape (.leftBracket :: (k.words ++ .rightBracket :: ws))) :
    ∃ r c', suffix g (q, c) = ((r, c'), true) ∧ WroteNode text r c' pre shapes
      (.node .indexExpr [shape, Word.leftBracket.shape, k.shape, Word.rightBracket.shape]) ws := by
  have hkind : q.kind = .leftBracket := h.kind_eq
  rw [suffix, hkind]
  refine ⟨_, _, rfl, h.around (by decide) (fun r => (needExpr g r.bump).need .rightBracket)
    fun _ _ hr => ?_⟩
  exact (wrote_needExpr hg hk hlength hr.bump (show Closes .rightBracket by decide)).need
    .rightBracket rfl

theorem suffix_args {shape : Shape} {args : Args} (hargs : args.WellParenthesised)
    (hlength : args.words.length ≤ n + 1)
    (h : q.WroteNode text c pre shapes shape (args.words ++ ws)) :
    ∃ r c', suffix g (q, c) = ((r, c'), true) ∧
      WroteNode text r c' pre shapes
        (.node .callExpr [shape, .node .callArgList args.shapes]) ws := by
  have hcall := h.around (show NodeKind.callExpr ≠ .absent ∧ NodeKind.callExpr ≠ .comment by decide)
    (callArgs g)
    fun _ _ hr => wrote_callArgs hg hargs hlength hr
  refine ⟨_, _, ?_, hcall⟩
  rw [suffix]
  cases args with
  | empty =>
    have hkind : q.kind = .leftParen := h.kind_eq
    rw [hkind]
  | list e others =>
    have hkind : q.kind = .leftParen := h.kind_eq
    rw [hkind]
  | string s =>
    have hkind : q.kind = .str ∨ q.kind = .longString := by
      rw [show q.kind = s.kind from h.kind_eq]
      simpa [stringKinds] using s.kind_mem
    rcases hkind with hkind | hkind
    · rw [hkind]
    · rw [hkind]
  | table entries =>
    have hkind : q.kind = .leftBrace := h.kind_eq
    rw [hkind]

theorem suffix_colon {shape : Shape} {m : Name} {args : Args} (hargs : args.WellParenthesised)
    (hlength : args.words.length ≤ n + 1)
    (h : q.WroteNode text c pre shapes shape (.colon :: m.toWord :: (args.words ++ ws))) :
    ∃ r c', suffix g (q, c) = ((r, c'), true) ∧ WroteNode text r c' pre shapes
      (.node .callExpr [.node .indexExpr [shape, Word.colon.shape, m.shape],
        .node .callArgList args.shapes]) ws := by
  have hkind : q.kind = .colon := h.kind_eq
  have hindex := h.around (show NodeKind.indexExpr ≠ .absent ∧
    NodeKind.indexExpr ≠ .comment by decide) (fun r => r.bump.need .name) fun _ _ hr =>
      hr.bump.need .name m.kind_eq
  rw [suffix, hkind]
  exact ⟨_, _, rfl, hindex.around (by decide) (callArgs g) fun _ _ hr =>
    wrote_callArgs hg hargs hlength hr⟩

theorem extends_front : ∀ (e : Expr) {p : Parser} {shapes : List Shape} {ws : List Word},
    e.IsFront → e.WellParenthesised →
    e.words.length ≤ n + 1 → p.Wrote text pre shapes (e.words ++ ws) →
      ∃ q c, Extends (primaryExpr g p) (suffix g) ws.length (q, c) ∧
      WroteNode text q c pre shapes e.shape ws
  | .name m, p, shapes, ws, _, _, _, h => by
    obtain ⟨q, c, hread, hnode⟩ := primaryExpr_name (g := g) h
    exact ⟨q, c, .refl hread hnode.1.room, hnode⟩
  | .paren e, p, shapes, ws, _, he, hlength, h => by
    simp only [Expr.words, List.length_cons, List.length_append, List.length_nil] at hlength
    rw [Expr.words, List.cons_append, List.append_assoc] at h
    obtain ⟨q, c, hread, hnode⟩ :=
      primaryExpr_paren hg (show e.WellParenthesised from he) (by omega) h
    exact ⟨q, c, .refl hread hnode.1.room, hnode⟩
  | .field e m, p, shapes, ws, _, he, hlength, h => by
    simp only [Expr.words, List.length_append] at hlength
    rw [Expr.words, List.append_assoc] at h
    obtain ⟨q, c, hloop, hfront⟩ := extends_front e he.1 he.2 (by omega) h
    obtain ⟨r, c', hstep, hnode⟩ := suffix_dot (g := g) hfront
    exact ⟨r, c', hloop.next hstep (by simp only [List.length_append, List.length_cons]; omega),
      hnode⟩
  | .index e k, p, shapes, ws, _, he, hlength, h => by
    simp only [Expr.words, List.length_cons, List.length_append, List.length_nil] at hlength
    rw [Expr.words, List.append_assoc, List.cons_append, List.append_assoc] at h
    obtain ⟨q, c, hloop, hfront⟩ := extends_front e he.1 he.2.1 (by omega) h
    obtain ⟨r, c', hstep, hnode⟩ := suffix_bracket hg he.2.2 (by omega) hfront
    exact ⟨r, c', hloop.next hstep (by simp only [List.length_append, List.length_cons]; omega),
      hnode⟩
  | .call e args, p, shapes, ws, _, he, hlength, h => by
    simp only [Expr.words, List.length_append] at hlength
    rw [Expr.words, List.append_assoc] at h
    obtain ⟨q, c, hloop, hfront⟩ := extends_front e he.1 he.2.1 (by omega) h
    obtain ⟨r, c', hstep, hnode⟩ := suffix_args hg he.2.2 (by omega) hfront
    have hpos := args.words_pos
    exact ⟨r, c', hloop.next hstep (by rw [List.length_append]; omega), hnode⟩
  | .method e m args, p, shapes, ws, _, he, hlength, h => by
    simp only [Expr.words, List.length_cons, List.length_append] at hlength
    rw [Expr.words, List.append_assoc] at h
    obtain ⟨q, c, hloop, hfront⟩ := extends_front e he.1 he.2.1 (by omega) h
    obtain ⟨r, c', hstep, hnode⟩ := suffix_colon hg he.2.2 (by omega) hfront
    exact ⟨r, c', hloop.next hstep (by simp only [List.length_append, List.length_cons]; omega),
      hnode⟩
  | .literal _, _, _, _, hfront, _, _, _ => hfront.elim
  | .unary _ _, _, _, _, hfront, _, _, _ => hfront.elim
  | .binary _ _ _, _, _, _, hfront, _, _, _ => hfront.elim
  | .table _, _, _, _, hfront, _, _, _ => hfront.elim

theorem reads_front {e : Expr} (hfront : e.IsFront) (he : e.WellParenthesised)
    (hlength : e.words.length ≤ n + 1) (h : p.Wrote text pre shapes (e.words ++ ws))
    (hend : startsSuffix (headKind ws) = false) :
    ∃ q c, suffixedExpr g p = (q, some c) ∧ WroteNode text q c pre shapes e.shape ws := by
  obtain ⟨q, c, hloop, hnode⟩ := extends_front hg e hfront he hlength h
  have hstop : suffix g (q, c) = ((q, c), false) := by
    rw [← hnode.kind_eq] at hend
    rw [suffix]
    split <;> simp_all [startsSuffix]
  obtain ⟨p₀, c₀, hfirst, hread⟩ := hloop.last hstop
  refine ⟨q, c, ?_, hnode⟩
  rw [suffixedExpr, hfirst]
  simp only [hread]

theorem wrote_operand {e : Expr} {limit : Nat} {missing : Fault} (he : e.WellParenthesised)
    (habove : e.Above limit) (hlength : e.words.length ≤ n)
    (h : p.Wrote text pre shapes (e.words ++ ws))
    (hend : Stops (limit :: e.rightHolds) (headKind ws)) :
    (operand g limit missing p).Wrote text pre (shapes ++ [e.shape]) ws := by
  obtain ⟨q, c, hread, hnode⟩ := hg e limit p pre shapes ws he hlength habove hend h
  rw [operand, hread]
  exact hnode.wrote

theorem unaryExpr_front {e : Expr} (hfront : e.IsFront) (he : e.WellParenthesised)
    (hlength : e.words.length ≤ n + 1) (h : p.Wrote text pre shapes (e.words ++ ws))
    (hend : startsSuffix (headKind ws) = false) :
    ∃ q c, unaryExpr g p = (q, some c) ∧ WroteNode text q c pre shapes e.shape ws := by
  obtain ⟨q, c, hread, hnode⟩ := reads_front hg hfront he hlength h hend
  refine ⟨q, c, ?_, hnode⟩
  have hkind := Expr.headKind_front ws hfront he
  rw [← h.kind_eq] at hkind
  rcases hkind with hkind | hkind
  · rw [unaryExpr, simpleExpr, hkind]
    exact hread
  · rw [unaryExpr, simpleExpr, hkind]
    exact hread

omit hg in
theorem unaryExpr_literal {l : Literal} (h : p.Wrote text pre shapes (l.toWord :: ws)) :
    ∃ q c, unaryExpr g p = (q, some c) ∧
    WroteNode text q c pre shapes (.node .literalExpr [l.shape]) ws := by
  refine ⟨_, _, ?_, wroteNode_literal h⟩
  have hkind : p.kind ∈ literalKinds := by
    rw [h.kind_eq]
    exact l.kind_mem
  simp only [literalKinds, List.mem_cons, List.not_mem_nil, or_false] at hkind
  rcases hkind with hkind | hkind | hkind | hkind | hkind | hkind | hkind | hkind
  all_goals
    rw [unaryExpr, simpleExpr, hkind]
    rfl

theorem reads_operand {e : Expr} (hroot : e.root? = none) (he : e.WellParenthesised)
    (hlength : e.words.length ≤ n + 1) (h : p.Wrote text pre shapes (e.words ++ ws))
    (hend : Stops e.rightHolds (headKind ws)) :
    ∃ q c, unaryExpr g p = (q, some c) ∧ WroteNode text q c pre shapes e.shape ws := by
  cases e with
  | name _ => exact unaryExpr_front hg trivial he hlength h hend.noSuffix
  | paren _ => exact unaryExpr_front hg trivial he hlength h hend.noSuffix
  | field _ _ => exact unaryExpr_front hg trivial he hlength h hend.noSuffix
  | index _ _ => exact unaryExpr_front hg trivial he hlength h hend.noSuffix
  | call _ _ => exact unaryExpr_front hg trivial he hlength h hend.noSuffix
  | method _ _ _ => exact unaryExpr_front hg trivial he hlength h hend.noSuffix
  | literal l => exact unaryExpr_literal h
  | binary _ _ _ => cases hroot
  | unary op e =>
    simp only [Expr.words, List.length_cons] at hlength
    have hop : UnaryOperator.ofToken? p.kind = some op := by
      rw [h.kind_eq]
      exact op.ofToken?_word
    rw [unaryExpr, hop]
    refine ⟨_, _, rfl,
      h.node (by decide) (fun r => operand g UnaryOperator.priority .expectedUnaryOperand r.bump)
      fun _ _ hr => ?_⟩
    exact wrote_operand hg he.1 he.2 (by omega) hr.bump hend
  | table entries =>
    simp only [Expr.words, List.length_cons, List.length_append, List.length_nil] at hlength
    rw [Expr.words, List.cons_append, List.append_assoc] at h
    have hkind : p.kind = .leftBrace := h.kind_eq
    rw [unaryExpr, simpleExpr, hkind]
    exact ⟨_, _, rfl, wroteNode_table hg he (by omega) h⟩

theorem binaryStep_word {shape : Shape} {limit : Nat} {op : BinaryOperator} {e : Expr}
    (hlimit : limit < op.leftPriority) (he : e.WellParenthesised)
    (habove : e.Above op.rightPriority) (hlength : e.words.length ≤ n)
    (h : q.WroteNode text c pre shapes shape (op.word :: (e.words ++ ws)))
    (hend : Stops (op.rightPriority :: e.rightHolds) (headKind ws)) :
    ∃ r c', binaryStep g limit (q, c) = ((r, c'), true) ∧
      WroteNode text r c' pre shapes (.node .binaryExpr [shape, op.word.shape, e.shape]) ws := by
  have hop : BinaryOperator.ofToken? q.kind = some op := by
    rw [h.kind_eq]
    exact op.ofToken?_word
  simp only [binaryStep, hop, if_neg (Nat.not_le.2 hlimit)]
  refine ⟨_, _, rfl,
    h.around (by decide) (fun r => operand g op.rightPriority .expectedBinaryOperand r.bump)
    fun _ _ hr => ?_⟩
  exact wrote_operand hg he habove hlength hr.bump hend

theorem extends_expr {limit : Nat} (e : Expr) {p : Parser} {shapes : List Shape} {ws : List Word}
    (he : e.WellParenthesised) (habove : e.Above limit) (hlength : e.words.length ≤ n + 1)
    (h : p.Wrote text pre shapes (e.words ++ ws))
    (hend : Stops e.rightHolds (headKind ws)) :
    ∃ q c, Extends (unaryExpr g p) (binaryStep g limit) ws.length (q, c) ∧
      WroteNode text q c pre shapes e.shape ws := by
  cases e with
  | binary op l r =>
    obtain ⟨hl, hr, hleft, hright⟩ := he
    have hpos := l.words_pos
    simp only [Expr.words, List.length_append, List.length_cons] at hlength
    rw [Expr.words, List.append_assoc, List.cons_append] at h
    have hlimit : limit < op.leftPriority := habove op rfl
    -- an operator that makes the left operand binds at least as tightly as it holds, and it holds
    -- this one
    have haboveLeft : l.Above limit := by
      intro op' hop'
      cases l with
      | binary op'' _ _ =>
        obtain rfl := Option.some.inj hop'
        have hheld := hleft _ List.mem_cons_self
        have hle := op''.rightPriority_le
        omega
      | _ => cases hop'
    have hop : Stops l.rightHolds op.word.kind := by
      refine ⟨op.startsSuffix_word, fun op' hop' => ?_⟩
      rw [op.ofToken?_word] at hop'
      obtain rfl := Option.some.inj hop'
      exact hleft
    obtain ⟨q, c, hloop, hoperand⟩ := extends_expr l hl haboveLeft (by omega) h hop
    obtain ⟨q', c', hstep, hnode⟩ := binaryStep_word hg hlimit hr hright (by omega) hoperand hend
    exact ⟨q', c', hloop.next hstep (by simp only [List.length_append, List.length_cons]; omega),
      hnode⟩
  | _ =>
    obtain ⟨q, c, hread, hnode⟩ := reads_operand hg rfl he hlength h hend
    exact ⟨q, c, .refl hread hnode.1.room, hnode⟩

theorem reads_exprAbove {e : Expr} {limit : Nat} (he : e.WellParenthesised) (habove : e.Above limit)
    (hlength : e.words.length ≤ n + 1) (hend : Stops (limit :: e.rightHolds) (headKind ws))
    (h : p.Wrote text pre shapes (e.words ++ ws)) :
    ∃ q c, exprAbove g limit p = (q, some c) ∧ WroteNode text q c pre shapes e.shape ws := by
  have hbehind : Stops e.rightHolds (headKind ws) :=
    ⟨hend.noSuffix, fun op hop held hheld => hend.loose op hop held (List.mem_cons_of_mem _ hheld)⟩
  obtain ⟨q, c, hloop, hnode⟩ := extends_expr hg e he habove hlength h hbehind
  have hstop : binaryStep g limit (q, c) = ((q, c), false) := by
    rw [binaryStep]
    split
    · rename_i op hop
      rw [hnode.kind_eq] at hop
      rw [if_pos (hend.loose op hop limit List.mem_cons_self)]
    · rfl
  obtain ⟨p₀, c₀, hfirst, hread⟩ := hloop.last hstop
  refine ⟨q, c, ?_, hnode⟩
  rw [exprAbove, hfirst]
  simp only [hread]

end

theorem rules_reads (text : String) (n : Nat) : (rules n).Reads text n := by
  induction n with
  | zero =>
    intro e limit p pre shapes ws he hlength
    have hpos := e.words_pos
    omega
  | succ n ih =>
    intro e limit p pre shapes ws he hlength habove hend h
    exact reads_exprAbove ih he habove hlength hend h

theorem wrote_returnStat {e : Expr} (he : e.WellParenthesised) (hg : g.Reads text n)
    (hlength : e.words.length ≤ n) (h : p.Wrote text pre shapes (.kwReturn :: e.words)) :
    (returnStat g p).Wrote text pre (shapes ++ [Word.kwReturn.shape, e.shape]) [] := by
  have hreturn := h.bump
  have hstart := e.startsExpr_headKind []
  rw [List.append_nil, ← hreturn.kind_eq] at hstart
  have hopen : (endsBlock p.bump.kind || p.bump.sees .semicolon) = false := by
    rw [sees]
    cases hkind : p.bump.kind <;> simp_all [startsExpr, endsBlock]
  have hlist : (exprList g p.bump).Wrote text pre
      (shapes ++ [Word.kwReturn.shape, e.shape]) [] := by
    have hwords : p.bump.Wrote text pre (shapes ++ [Word.kwReturn.shape])
        (e.words ++ (Others.nil.words ++ [])) := by
      simpa [Others.words] using hreturn
    have hread := wrote_exprList hg he
      (show Others.nil.WellParenthesised from trivial) hlength hwords (show Closes .eof by decide)
      (show TokenKind.eof ≠ .comma by decide)
    simpa [Others.shapes] using hread
  rw [returnStat, hopen]
  simp only [Bool.false_eq_true, if_false]
  rw [hlist.eat_of_ne (show TokenKind.eof ≠ .semicolon by decide)]
  exact hlist

theorem wrote_documentedStat {e : Expr} (he : e.WellParenthesised) (hg : g.Reads text n)
    (hlength : e.words.length ≤ n) (h : p.Wrote text pre shapes (.kwReturn :: e.words)) :
    (documentedStat g p).Wrote text pre
    (shapes ++ [.node .returnStat [Word.kwReturn.shape, e.shape]]) [] := by
  obtain ⟨q, hq, hopen⟩ := h.openDocumented
  obtain ⟨pre', hopened⟩ := hq.openNode
  have hkind : q.openNode.1.kind = .kwReturn := hopened.kind_eq
  have hnode := hq.node (show NodeKind.returnStat ≠ .absent ∧
    NodeKind.returnStat ≠ .comment by decide) (fun r =>
      (returnStat g r).trailingComment) fun r pre' hr => by
        have hstat := wrote_returnStat he hg hlength hr
        rw [hstat.trailingComment]
        exact hstat
  rw [documentedStat, hopen]
  simp only [statement?, hkind]
  exact hnode.wrote

end Grammar

theorem exists_branch_returned {e : Expr} (he : e.WellParenthesised) {text : String}
    {tokens : List Token} (hat : (Parser.ofTokens text tokens).At text (.kwReturn :: e.words)) :
    ∃ b : Branch, (Grammar.chunk (Parser.ofTokens text tokens)).log.toList = b.encode false ∧
      b.Draws false text
        (.node .chunk [.node .block [.node .returnStat [Word.kwReturn.shape, e.shape]]]) := by
  have hkind : (Parser.ofTokens text tokens).kind = .kwReturn := hat.kind_eq
  have hroom : e.words.length + 1 ≤ tokens.length := hat.room
  refine exists_branch_chunk (by rw [hkind]; rfl) fun log pre hlog => ?_
  exact Grammar.wrote_documentedStat he (Grammar.rules_reads text (tokens.length + 1)) (by omega)
    ⟨hat.withLog log, hlog⟩

/-- A text that returns an expression is read without an error as a chunk that returns the
expression, if that is well parenthesised. -/
theorem parse_returned (e : Expr) (he : e.WellParenthesised) : (parse e.returned).errors = [] ∧
    (parse e.returned).shape Tree.root =
      .node .chunk [.node .block [.node .returnStat [Word.kwReturn.shape, e.shape]]] := by
  obtain ⟨tokens, htokens, hquiet, hspells⟩ := Lexer.tokenize_spaced .kwReturn e.words
  obtain ⟨b, hlog, hdraws⟩ := exists_branch_returned he (Parser.At.ofTokens hquiet hspells)
  have hparse : parse e.returned =
      Tree.ofLog e.returned (Grammar.chunk (Parser.ofTokens e.returned tokens)).log [] := by
    rw [parse, Expr.returned, htokens]
  rw [hparse]
  refine ⟨Tree.errors_ofLog hdraws.proper hdraws.faultless hlog _, ?_⟩
  exact (Tree.shape_ofLog hdraws.proper hlog _ _).trans hdraws.shape_eq

def Expr.ofName (text : String) (h : IsWord .name text := by decide +kernel) : Expr :=
  .name { kind := .name, text := text, isWord := h, kind_mem := List.mem_singleton_self _ }

def powerTimes : Expr :=
  .binary .mul (.binary .pow (.ofName "a") (.unary .neg (.ofName "b"))) (.ofName "c")

theorem parse_returned_powerTimes : powerTimes.WellParenthesised ∧
    powerTimes.returned = "return a ^ - b * c" ∧
    (parse powerTimes.returned).errors = [] ∧ (parse powerTimes.returned).shape Tree.root =
      .node .chunk [.node .block [.node .returnStat [Word.kwReturn.shape, powerTimes.shape]]] := by
  have hpower : powerTimes.WellParenthesised :=
    ⟨⟨trivial, ⟨trivial, nofun⟩, nofun, nofun⟩, trivial, by decide, nofun⟩
  exact ⟨hpower, by decide +kernel, parse_returned powerTimes hpower⟩

end LuaAnalysis.Syntax
