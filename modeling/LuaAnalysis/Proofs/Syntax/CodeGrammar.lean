import LuaAnalysis.Proofs.Syntax.CodeRuns
import LuaAnalysis.Syntax.Grammar.Stat

/-!
Every rule of the code grammar adds balanced stretches to the log, no piece is lost or doubled
between them, and what stands in the nodes that it closes follows the productions.
-/

namespace LuaAnalysis.Syntax

open Computability
open LuaAnalysis.Syntax.Parser
open NodeKind (expr maybe one oneOf)

section

variable {p q : Parser} {row : Language NodeKind} {c : ClosedNode} {r : Parser × Option ClosedNode}

def AddsExpr (p : Parser) (row : Language NodeKind) : Parser × Option ClosedNode → Prop
  | (q, some c) => AddsNode p row expr c q
  | (q, none) => Adds p row q

theorem AddsExpr.adds (h : AddsExpr p row r) : Adds p (row * maybe expr) r.1 := by
  obtain ⟨q, c | c⟩ := r
  · exact Adds.skip h
  · exact (AddsNode.adds h).mono (mul_le_mul_right NodeKind.le_maybe row)

theorem AddsExpr.none (h : AddsExpr p row r) (hr : r = (q, .none)) : Adds p row q := by
  rwa [hr] at h

theorem AddsExpr.some (h : AddsExpr p row r) (hr : r = (q, .some c)) : AddsNode p row expr c q := by
  rwa [hr] at h

end

/-- The two parts of the grammar that everything else is built around. -/
structure Rules.Sound (g : Rules) : Prop where
  expr : ∀ {p q : Parser} {row : Language NodeKind}, Adds p row q →
    ∀ limit, AddsExpr p row (g.expr limit q)
  block : ∀ {p q : Parser} {row : Language NodeKind}, Adds p row q →
    Adds p (row * maybe (one .block)) (g.block q)

namespace Grammar

variable {g : Rules} {p q : Parser} {row : Language NodeKind}

theorem adds_operand (hg : g.Sound) (limit : Nat) (missing : Fault) (h : Adds p row q) :
    Adds p (row * maybe expr) (operand g limit missing q) := by
  have hexpr := hg.expr h limit
  unfold operand
  split
  · next r c heq => exact hexpr.adds.of_eq heq
  · next r heq => exact adds_report (hexpr.adds.of_eq heq) _

theorem adds_needExpr (hg : g.Sound) (h : Adds p row q) :
    Adds p (row * maybe expr) (needExpr g q) :=
  adds_operand hg 0 .expectedExpression h

theorem adds_nextExpr (hg : g.Sound) (h : Adds p (row * expr∗) q) :
    Adds p (row * expr∗) (needExpr g q) :=
  (adds_needExpr hg h).join NodeKind.maybe_le_kstar

theorem adds_exprList (hg : g.Sound) (h : Adds p row q) : Adds p (row * expr∗) (exprList g q) :=
  adds_commaSeparated (fun _ => adds_nextExpr hg) h

theorem adds_paramName (h : Adds p row q) : Adds p (row * one .paramName) (paramName q) := by
  have hm := opened_openNode h
  unfold paramName
  dsimp only
  split
  · exact (hm.more (adds_bump hm.inside)).finish _ (by decide) le_rfl
  · exact (hm.more (adds_report hm.inside _)).finish _ (by decide) le_rfl

theorem adds_paramNames (h : Adds p row q) :
    Adds p (row * (one .paramName)∗) (commaSeparated paramName q) :=
  adds_commaSeparated (fun _ h => (adds_paramName h).join le_kstar) h

theorem adds_closureRest (hg : g.Sound) (h : Adds p row q) :
    Adds p (row * one .paramList * maybe (one .block)) (closureRest g q) := by
  have hm := opened_openNode h
  have hparen := adds_expect hm.inside .leftParen
  have hparams : Adds q.openNode.1 (1 * (one .paramName)∗)
    (if (q.openNode.1.expect .leftParen).2 then
      (if (q.openNode.1.expect .leftParen).1.sees .rightParen then
        (q.openNode.1.expect .leftParen).1
        else commaSeparated paramName (q.openNode.1.expect .leftParen).1).need .rightParen
      else (q.openNode.1.expect .leftParen).1) := by
    split
    · refine adds_need ?_ _
      split
      · exact hparen.none
      · exact adds_paramNames hparen
    · exact hparen.none
  rw [one_mul] at hparams
  exact adds_need (hg.block ((hm.fill hparams).finish _ (by decide) le_rfl)) _

theorem adds_tableField (hg : g.Sound) (h : Adds p row q) :
    Adds p (row * expr∗) (tableField g q) := by
  unfold tableField
  split
  · exact adds_nextExpr hg (adds_need (adds_need (adds_nextExpr hg (adds_bump h.none)) _) _)
  split
  · exact adds_nextExpr hg (adds_bump (adds_bump h.none))
  · exact adds_nextExpr hg h.none

theorem tableItem_finish (hg : g.Sound) (hp : p.Valid) (hbrace : p.kind ≠ .rightBrace)
    (heof : p.kind ≠ .eof) : ∃ q, (tableItem g p).1 = q.finish p.openDocumented.2 .tableField ∧
    Adds p.openDocumented.1 expr∗ q := by
  obtain ⟨hm, -⟩ := opened_openDocumented hp
  have hcomma := adds_eat (adds_tableField hg hm.inside) .comma
  rw [one_mul] at hcomma
  unfold tableItem
  rw [if_neg (by simp [sees, hbrace, heof])]
  refine ⟨_, rfl, adds_trailingComment ?_⟩
  split
  · next r heq => exact hcomma.of_eq heq
  · next r heq => exact adds_eat (hcomma.of_eq heq) _

theorem adds_tableItem (hg : g.Sound) (h : Adds p (row * (one .tableField)∗) q) :
    Adds p (row * (one .tableField)∗) (tableItem g q).1 := by
  by_cases hends : (q.sees .rightBrace || q.sees .eof) = true
  · rw [tableItem, if_pos hends]
    exact adds_flushComments h
  · obtain ⟨hbrace, heof⟩ : q.kind ≠ .rightBrace ∧ q.kind ≠ .eof := by simpa [sees] using hends
    obtain ⟨r, hr, hfield⟩ := tableItem_finish hg h.valid hbrace heof
    have hitem := ((opened_openDocumented h.valid).1.fill hfield).finish .tableField
      (by decide) le_rfl
    rw [one_mul] at hitem
    rw [hr]
    exact (h.trans hitem).join le_kstar

theorem addsNode_table (hg : g.Sound) (h : Adds p row q) :
    AddsNode p row expr (table g q).2 (table g q).1 := by
  have hm := opened_openNode h
  have hitems := repeatWhile_keeps (I := Adds q.openNode.1 (1 * (one .tableField)∗))
    (fun _ => adds_tableItem hg) (q.openNode.1.bound + 1) (adds_bump hm.inside).none
  rw [one_mul] at hitems
  exact (hm.fill (adds_need hitems _)).close_expr rfl le_rfl

theorem addsNode_literal (h : Adds p row q) : AddsNode p row expr (literal q).2 (literal q).1 := by
  have hm := opened_openNode h
  exact (hm.more (adds_bump hm.inside)).close_expr rfl le_rfl

theorem adds_argList (hg : g.Sound) (h : Adds p row q) : Adds p (row * expr∗) (argList g q) := by
  have hone {r : Parser} (h : Adds p (row * expr) r) : Adds p (row * expr∗) r :=
    h.mono (mul_le_mul_right le_kstar row)
  unfold argList
  split
  · refine adds_need ?_ _
    split
    · exact (adds_bump h).none
    · exact adds_exprList hg (adds_bump h)
  · exact hone (addsNode_literal h).adds
  · exact hone (addsNode_literal h).adds
  · exact hone (addsNode_table hg h).adds
  · exact (adds_report h _).none

theorem adds_callArgs (hg : g.Sound) (h : Adds p row q) :
    Adds p (row * one .callArgList) (callArgs g q) := by
  have hm := opened_openNode h
  have hargs := adds_argList hg hm.inside
  rw [one_mul] at hargs
  exact (hm.fill hargs).finish _ (by decide) le_rfl

theorem addsExpr_primaryExpr (hg : g.Sound) (h : Adds p row q) :
    AddsExpr p row (primaryExpr g q) := by
  have hm := opened_openNode h
  unfold primaryExpr
  split
  · exact (hm.more (adds_bump hm.inside)).close_expr rfl le_rfl
  · have hinside := adds_need (adds_needExpr hg (adds_bump hm.inside)) .rightParen
    rw [one_mul] at hinside
    exact (hm.fill hinside).close_expr rfl NodeKind.maybe_le_kstar
  · exact h

theorem addsNode_suffix (hg : g.Sound) {c : ClosedNode} (h : AddsNode p row expr c q) :
    AddsNode p row expr (suffix g (q, c)).1.2 (suffix g (q, c)).1.1 := by
  have hm := opened_wrap h
  have hcall {c : ClosedNode} {q : Parser} (h : AddsNode p row expr c q) :
      AddsNode p row expr ((callArgs g (q.wrap c).1).close (q.wrap c).2 .callExpr).2
        ((callArgs g (q.wrap c).1).close (q.wrap c).2 .callExpr).1 := by
    have hm := opened_wrap h
    have hargs := adds_callArgs hg hm.inside
    rw [one_mul] at hargs
    exact (hm.adds hargs).close_expr rfl le_rfl
  unfold suffix
  dsimp only
  split
  · exact (hm.more (adds_need (adds_bump hm.inside) _)).close_expr rfl le_kstar
  · have hkey := adds_need (adds_needExpr hg (adds_bump hm.inside)) .rightBracket
    rw [one_mul] at hkey
    exact (hm.adds hkey).close_expr rfl (NodeKind.mul_le_kstar le_kstar NodeKind.maybe_le_kstar)
  · have hindex : AddsNode p row expr
        (((q.wrap c).1.bump.need .name).close (q.wrap c).2 .indexExpr).2
        (((q.wrap c).1.bump.need .name).close (q.wrap c).2 .indexExpr).1 :=
      (hm.more (adds_need (adds_bump hm.inside) _)).close_expr rfl le_kstar
    exact hcall hindex
  · exact hcall h
  · exact hcall h
  · exact hcall h
  · exact hcall h
  · exact h

theorem addsNode_repeatWhile {step : Parser × ClosedNode → (Parser × ClosedNode) × Bool}
    {last : Language NodeKind} (hstep : ∀ {q c}, AddsNode p row last c q →
      AddsNode p row last (step (q, c)).1.2 (step (q, c)).1.1) (n : Nat)
    {c : ClosedNode} (h : AddsNode p row last c q) :
    AddsNode p row last (repeatWhile step n (q, c)).2 (repeatWhile step n (q, c)).1 :=
  repeatWhile_keeps (I := fun s : Parser × ClosedNode => AddsNode p row last s.2 s.1)
    (fun _ hs => hstep hs) n h

theorem addsExpr_suffixedExpr (hg : g.Sound) (h : Adds p row q) :
    AddsExpr p row (suffixedExpr g q) := by
  have hfirst := addsExpr_primaryExpr hg h
  unfold suffixedExpr
  split
  · next r heq => exact hfirst.none heq
  · next r c heq =>
    dsimp only
    exact addsNode_repeatWhile (addsNode_suffix hg) _ (hfirst.some heq)

theorem addsExpr_simpleExpr (hg : g.Sound) (h : Adds p row q) :
    AddsExpr p row (simpleExpr g q) := by
  have hm := opened_openNode h
  unfold simpleExpr
  split
  · exact addsNode_literal h
  · exact addsNode_literal h
  · exact addsNode_literal h
  · exact addsNode_literal h
  · exact addsNode_literal h
  · exact addsNode_literal h
  · exact addsNode_literal h
  · exact addsNode_literal h
  · exact addsNode_table hg h
  · have hrest := adds_closureRest hg (adds_bump hm.inside)
    rw [one_mul] at hrest
    exact (hm.fill hrest).close_expr rfl le_rfl
  · exact addsExpr_suffixedExpr hg h

theorem addsExpr_unaryExpr (hg : g.Sound) (h : Adds p row q) : AddsExpr p row (unaryExpr g q) := by
  have hm := opened_openNode h
  unfold unaryExpr
  split
  · have hinside := adds_operand hg UnaryOperator.priority .expectedUnaryOperand
      (adds_bump hm.inside)
    rw [one_mul] at hinside
    exact (hm.fill hinside).close_expr rfl NodeKind.maybe_le_kstar
  · exact addsExpr_simpleExpr hg h

theorem addsNode_binaryStep (hg : g.Sound) (limit : Nat) {c : ClosedNode}
    (h : AddsNode p row expr c q) :
    AddsNode p row expr (binaryStep g limit (q, c)).1.2 (binaryStep g limit (q, c)).1.1 := by
  have hm := opened_wrap h
  unfold binaryStep
  dsimp only
  split
  · next op _ =>
    split
    · exact h
    · have hright := adds_operand hg op.rightPriority .expectedBinaryOperand (adds_bump hm.inside)
      rw [one_mul] at hright
      exact (hm.adds hright).close_expr rfl (NodeKind.mul_le_kstar le_kstar NodeKind.maybe_le_kstar)
  · exact h

theorem addsExpr_exprAbove (hg : g.Sound) (limit : Nat) (h : Adds p row q) :
    AddsExpr p row (exprAbove g limit q) := by
  have hfirst := addsExpr_unaryExpr hg h
  unfold exprAbove
  split
  · next r heq => exact hfirst.none heq
  · next r c heq =>
    dsimp only
    exact addsNode_repeatWhile (addsNode_binaryStep hg limit) _ (hfirst.some heq)

theorem adds_closure (hg : g.Sound) (h : Adds p row q) :
    Adds p (row * one .closureExpr) (closure g q) := by
  have hm := opened_openNode h
  have hrest := adds_closureRest hg hm.inside
  rw [one_mul] at hrest
  exact (hm.fill hrest).finish _ (by decide) le_rfl

theorem adds_ifPart (hg : g.Sound) (h : Adds p (row * (oneOf NodeKind.isPart)∗) q) :
    Adds p (row * (oneOf NodeKind.isPart)∗) (ifPart g q).1 := by
  have hm := opened_openNode h
  unfold ifPart
  split
  · have hclause := hg.block (adds_need (adds_needExpr hg (adds_bump hm.inside)) .kwThen)
    rw [one_mul] at hclause
    exact ((hm.fill hclause).finish .elseIfClause (by decide) le_rfl).join
      ((NodeKind.one_le_oneOf rfl).trans le_kstar)
  · have hclause := hg.block (adds_bump hm.inside)
    rw [one_mul] at hclause
    exact ((hm.fill hclause).finish .elseClause (by decide) le_rfl).join
      ((NodeKind.one_le_oneOf rfl).trans le_kstar)
  · exact h

theorem adds_ifStat (hg : g.Sound) (h : Adds p 1 q.bump) :
    Adds p (NodeKind.production .ifStat) (ifStat g q) := by
  have hthen := hg.block (adds_need (adds_needExpr hg h) .kwThen)
  rw [one_mul] at hthen
  exact adds_need
    (repeatWhile_keeps (I := Adds p (maybe expr * maybe (one .block) * (oneOf NodeKind.isPart)∗))
      (fun _ => adds_ifPart hg) _ hthen.none) _

theorem adds_loopBody (hg : g.Sound) (h : Adds p row q) :
    Adds p (row * maybe (one .block)) (loopBody g q) :=
  adds_need (hg.block (adds_need h _)) _

theorem adds_forStat (hg : g.Sound) (h : Adds p 1 q.bump) :
    Adds p (forStat g q).2.production (forStat g q).1 := by
  have hname := adds_paramName h
  rw [one_mul] at hname
  have hassign := adds_eat hname .assign
  unfold forStat
  dsimp only
  split
  · next r heq =>
    have hstop := adds_nextExpr hg (adds_need (adds_nextExpr hg (hassign.of_eq heq).none) .comma)
    have hcomma := adds_eat hstop .comma
    refine adds_loopBody hg ?_
    split
    · next s heq => exact adds_nextExpr hg (hcomma.of_eq heq)
    · next s heq => exact hcomma.of_eq heq
  · next r heq =>
    have hfirst : Adds p (1 * (one .paramName)∗) r :=
      (hassign.of_eq heq).mono (by rw [one_mul]; exact le_kstar)
    have hcomma := adds_eat hfirst .comma
    rw [one_mul] at hcomma
    refine adds_loopBody hg (adds_exprList hg (adds_need ?_ _))
    split
    · next s heq => exact (adds_paramNames (hcomma.of_eq heq)).mono (kstar_mul_kstar _).le
    · next s heq => exact hcomma.of_eq heq

theorem addsNode_funcNameStep {c : ClosedNode}
    (h : AddsNode p row (oneOf NodeKind.isFuncName) c q) :
    AddsNode p row (oneOf NodeKind.isFuncName) (funcNameStep (q, c)).1.2
    (funcNameStep (q, c)).1.1 := by
  have hm := opened_wrap h
  unfold funcNameStep
  dsimp only
  split
  · refine ((hm.more (adds_need (adds_bump hm.inside) _)).close _ (by decide) ?_).mono
      (NodeKind.one_le_oneOf rfl)
    exact NodeKind.funcName_le_expr.trans le_kstar
  · exact h

theorem adds_funcStat (hg : g.Sound) (h : Adds p 1 q.bump) :
    Adds p (NodeKind.production .funcStat) (funcStat g q) := by
  have hm := opened_openNode h
  have hname := adds_expect hm.inside .name
  unfold funcStat
  dsimp only
  split
  · next r heq =>
    have hone : one .nameExpr ≤ oneOf NodeKind.isFuncName := NodeKind.one_le_oneOf rfl
    have hfirst := ((hm.more (hname.of_eq heq)).close .nameExpr (by decide) le_rfl).mono hone
    have hlast := (addsNode_repeatWhile addsNode_funcNameStep (r.bound + 1) hfirst).adds
    rw [one_mul] at hlast
    exact adds_closure hg (hlast.mono NodeKind.le_maybe)
  · next r heq =>
    exact adds_closure hg ((h.more (adds_abandon (hname.of_eq heq))).mono NodeKind.one_le_maybe)

theorem adds_localName (h : Adds p row q) : Adds p (row * one .localName) (localName q) := by
  have hm := opened_openNode h
  have hname := adds_need hm.inside .name
  unfold localName
  dsimp only
  refine Opened.finish (hm.fill ?_) _ (by decide) (le_refl (maybe (one .attribute)))
  split
  · have ha := opened_openNode hname
    have hattribute :=
      (ha.more (adds_need (adds_need (adds_bump ha.inside) .name) .gt)).finish .attribute
        (by decide) le_rfl
    rw [one_mul] at hattribute
    exact hattribute.mono NodeKind.le_maybe
  · exact hname.mono NodeKind.one_le_maybe

theorem adds_localNames (h : Adds p row q) :
    Adds p (row * (one .localName)∗) (commaSeparated localName q) :=
  adds_commaSeparated (fun _ h => (adds_localName h).join le_kstar) h

theorem adds_localStat (hg : g.Sound) (h : Adds p 1 q.bump) :
    Adds p (localStat g q).2.production (localStat g q).1 := by
  have hfunction := adds_eat h .kwFunction
  unfold localStat
  split
  · next r heq =>
    have hm := opened_openNode (hfunction.of_eq heq)
    have hname := (hm.more (adds_need hm.inside .name)).finish .localName
      (by decide) NodeKind.one_le_maybe
    rw [one_mul] at hname
    exact adds_closure hg hname
  · next r heq =>
    have hnames := adds_localNames (hfunction.of_eq heq)
    rw [one_mul] at hnames
    have hassign := adds_eat hnames .assign
    split
    · next s heq => exact adds_exprList hg (hassign.of_eq heq)
    · next s heq => exact (hassign.of_eq heq).none

theorem adds_assignTarget (hg : g.Sound) (h : Adds p (row * expr∗) q) :
    Adds p (row * expr∗) (assignTarget g q).1 := by
  have hcomma := adds_eat h .comma
  unfold assignTarget
  split
  · next r heq =>
      exact (addsExpr_suffixedExpr hg (hcomma.of_eq heq)).adds.join NodeKind.maybe_le_kstar
  · next r heq => exact hcomma.of_eq heq

theorem valid_close (hq : q.Valid) (m : Marker) (kind : NodeKind) : (q.close m kind).1.Valid :=
  hq.withLog _

theorem codes_close (q : Parser) (m : Marker) (kind : NodeKind) :
    (q.close m kind).1.codes = q.codes := rfl

theorem valid_wrap (hq : q.Valid) (c : ClosedNode) : (q.wrap c).1.Valid := hq.withLog _

theorem codes_wrap (q : Parser) (c : ClosedNode) : (q.wrap c).1.codes = q.codes := rfl

theorem codes_call (hg : g.Sound) (hq : q.Valid) (c : ClosedNode) (m : Marker) (kind : NodeKind) :
    ((callArgs g (q.wrap c).1).close m kind).1.Valid ∧
    ((callArgs g (q.wrap c).1).close m kind).1.codes ≤ q.codes := by
  have hargs := adds_callArgs hg (.refl (valid_wrap hq c))
  have hle := hargs.codes_le
  rw [codes_wrap] at hle
  rw [codes_close]
  exact ⟨valid_close hargs.valid m kind, hle⟩

theorem codes_suffix (hg : g.Sound) (hq : q.Valid) (c : ClosedNode) :
    (suffix g (q, c)).1.1.Valid ∧ (suffix g (q, c)).1.1.codes ≤ q.codes := by
  have hwrap : Adds (q.wrap c).1 1 (q.wrap c).1 := .refl (valid_wrap hq c)
  have hdone : ∀ {r : Parser} {row : Language NodeKind} (m : Marker) (kind : NodeKind),
      Adds (q.wrap c).1 row r →
      (r.close m kind).1.Valid ∧ (r.close m kind).1.codes ≤ q.codes := by
    intro r row m kind h
    rw [codes_close, ← codes_wrap q c]
    exact ⟨valid_close h.valid m kind, h.codes_le⟩
  unfold suffix
  dsimp only
  split
  · exact hdone _ _ (adds_need (adds_bump hwrap) _)
  · exact hdone _ _ (adds_need (adds_needExpr hg (adds_bump hwrap)) _)
  · obtain ⟨hindex, hle⟩ := hdone (q.wrap c).2 .indexExpr (adds_need (adds_bump hwrap) .name)
    have hcall := fun c m => codes_call hg hindex c m .callExpr
    exact ⟨(hcall _ _).1, Nat.le_trans (hcall _ _).2 hle⟩
  · exact codes_call hg hq c _ _
  · exact codes_call hg hq c _ _
  · exact codes_call hg hq c _ _
  · exact codes_call hg hq c _ _
  · exact ⟨hq, Nat.le_refl _⟩

theorem primaryExpr_some (hg : g.Sound) (hp : p.Valid)
    (hkind : p.kind = .name ∨ p.kind = .leftParen) : ∃ r c, primaryExpr g p = (r, some c) ∧
    r.Valid ∧ r.codes < p.codes := by
  have hopen : p.openNode.1.Valid := hp.withLog _
  have heof : p.openNode.1.kind ≠ .eof := by
    show p.kind ≠ .eof
    rcases hkind with h | h <;> simp [h]
  obtain ⟨hbump, hlt⟩ := bump_spec hopen heof
  have hinside : Adds p.openNode.1.bump 1 p.openNode.1.bump := .refl hbump.valid
  rcases hkind with h | h
  · have hname : primaryExpr g p = ((p.openNode.1.bump.close p.openNode.2 .nameExpr).1,
        some (p.openNode.1.bump.close p.openNode.2 .nameExpr).2) := by
      simp only [primaryExpr, h]
    exact ⟨_, _, hname, valid_close hbump.valid _ _, hlt⟩
  · have hrest := adds_need (adds_needExpr hg hinside) .rightParen
    have hparen : primaryExpr g p =
        ((((needExpr g p.openNode.1.bump).need .rightParen).close p.openNode.2 .parenExpr).1,
        some (((needExpr g p.openNode.1.bump).need .rightParen).close p.openNode.2
          .parenExpr).2) := by
      simp only [primaryExpr, h]
    exact ⟨_, _, hparen, valid_close hrest.valid _ _, Nat.lt_of_le_of_lt hrest.codes_le hlt⟩

theorem suffixedExpr_some (hg : g.Sound) (hp : p.Valid)
    (hkind : p.kind = .name ∨ p.kind = .leftParen) : ∃ r c, suffixedExpr g p = (r, some c) ∧
    r.codes < p.codes := by
  obtain ⟨r, c, hfirst, hr, hlt⟩ := primaryExpr_some hg hp hkind
  have hstep : ∀ s : Parser × ClosedNode, s.1.Valid ∧ s.1.codes < p.codes →
      (suffix g s).1.1.Valid ∧ (suffix g s).1.1.codes < p.codes := by
    rintro ⟨q, c⟩ ⟨hq, hlt⟩
    obtain ⟨hvalid, hle⟩ := codes_suffix hg hq c
    exact ⟨hvalid, Nat.lt_of_le_of_lt hle hlt⟩
  have hrest := repeatWhile_keeps hstep (r.bound + 1) (s := (r, c)) ⟨hr, hlt⟩
  have heq : suffixedExpr g p = ((repeatWhile (suffix g) (r.bound + 1) (r, c)).1,
      some (repeatWhile (suffix g) (r.bound + 1) (r, c)).2) := by
    simp only [suffixedExpr, hfirst]
  exact ⟨_, _, heq, hrest.2⟩

theorem adds_exprStat (hg : g.Sound) (hp : p.Valid) (hkind : p.kind = .name ∨ p.kind = .leftParen) :
    (exprStat g p).2.isStat = true ∧ Adds p (exprStat g p).2.production (exprStat g p).1 ∧
    (exprStat g p).1.codes < p.codes := by
  obtain ⟨r, c, hfirst, hlt⟩ := suffixedExpr_some hg hp hkind
  have hr := (addsExpr_suffixedExpr hg (.refl hp)).adds.of_eq hfirst
  rw [one_mul] at hr
  have hlast : Adds r 1 r := .refl hr.valid
  have hdone : ∀ {q : Parser} {row : Language NodeKind}, Adds r row q → row ≤ expr∗ →
      Adds p expr∗ q ∧ q.codes < p.codes := by
    intro q row h hrow
    exact ⟨(hr.trans h).mono (NodeKind.mul_le_kstar NodeKind.maybe_le_kstar hrow),
      Nat.lt_of_le_of_lt h.codes_le hlt⟩
  simp only [exprStat, hfirst]
  split
  · have htargets := repeatWhile_keeps (I := Adds r (1 * expr∗)) (fun _ => adds_assignTarget hg)
      (r.bound + 1) hlast.none
    rw [one_mul] at htargets
    exact ⟨rfl, hdone (adds_exprList hg (adds_need htargets _)) (kstar_mul_kstar _).le⟩
  split
  · exact ⟨rfl, hdone hlast one_le_kstar⟩
  · exact ⟨rfl, hdone (adds_report hlast _) one_le_kstar⟩

theorem adds_returnStat (hg : g.Sound) (h : Adds p row q.bump) :
    Adds p (row * expr∗) (returnStat g q) := by
  unfold returnStat
  refine adds_eat ?_ _
  split
  · exact h.none
  · exact adds_exprList hg h

theorem isStat_forStat (g : Rules) (p : Parser) : (forStat g p).2.isStat = true := by
  unfold forStat
  dsimp only
  split <;> rfl

theorem isStat_localStat (g : Rules) (p : Parser) : (localStat g p).2.isStat = true := by
  unfold localStat
  split
  · rfl
  · split <;> rfl

theorem statement?_spec (hg : g.Sound) (hp : p.Valid) {kind : NodeKind}
    (h : statement? g p = some (q, kind)) : kind.isStat = true ∧ Adds p kind.production q ∧
    q.codes < p.codes := by
  have hdone : ∀ {r : Parser} {row : Language NodeKind} {k : TokenKind}, p.kind = k → k ≠ .eof →
      (Adds p.bump 1 p.bump → Adds p.bump row r) → Adds p row r ∧ r.codes < p.codes := by
    rintro r row _ rfl heof hr
    obtain ⟨hbump, hlt⟩ := bump_spec hp heof
    have hrest := hr (.refl hbump.valid)
    exact ⟨by simpa using hbump.trans hrest, Nat.lt_of_le_of_lt hrest.codes_le hlt⟩
  have hexpr (hkind : p.kind = .name ∨ p.kind = .leftParen) (h : exprStat g p = (q, kind)) :
      kind.isStat = true ∧ Adds p kind.production q ∧ q.codes < p.codes := by
    have hstat := adds_exprStat hg hp hkind
    rwa [h] at hstat
  unfold statement? at h
  split at h
  · cases h
    exact ⟨rfl, hdone ‹_› (by simp) fun hb => hb.mono one_le_kstar⟩
  · cases h
    exact ⟨rfl, hdone ‹_› (by simp) (adds_ifStat hg)⟩
  · cases h
    refine ⟨rfl, hdone ‹_› (by simp) fun hb => ?_⟩
    have hloop := adds_loopBody hg (adds_needExpr hg hb)
    rwa [one_mul] at hloop
  · cases h
    refine ⟨rfl, hdone ‹_› (by simp) fun hb => ?_⟩
    have hblock := adds_need (hg.block hb) .kwEnd
    rwa [one_mul] at hblock
  · have hnode := isStat_forStat g p
    have hstat := hdone ‹_› (by simp) fun hb => adds_forStat hg hb
    rw [Option.some.inj h] at hnode hstat
    exact ⟨hnode, hstat⟩
  · cases h
    refine ⟨rfl, hdone ‹_› (by simp) fun hb => ?_⟩
    have hloop := adds_needExpr hg (adds_need (hg.block hb) .kwUntil)
    rwa [one_mul] at hloop
  · cases h
    exact ⟨rfl, hdone ‹_› (by simp) (adds_funcStat hg)⟩
  · have hnode := isStat_localStat g p
    have hstat := hdone ‹_› (by simp) fun hb => adds_localStat hg hb
    rw [Option.some.inj h] at hnode hstat
    exact ⟨hnode, hstat⟩
  · cases h
    exact ⟨rfl, hdone ‹_› (by simp) fun hb => adds_need (adds_need hb _) _⟩
  · cases h
    refine ⟨rfl, hdone ‹_› (by simp) fun hb => ?_⟩
    have hreturn := adds_returnStat hg hb
    rwa [one_mul] at hreturn
  · cases h
    exact ⟨rfl, hdone ‹_› (by simp) id⟩
  · cases h
    exact ⟨rfl, hdone ‹_› (by simp) fun hb => adds_need hb _⟩
  · exact hexpr (.inl ‹_›) (Option.some.inj h)
  · exact hexpr (.inr ‹_›) (Option.some.inj h)
  · cases h

/-- A statement is read in the node that was opened for it, and takes up something unless the text
ends here. -/
theorem documentedStat_finish (hg : g.Sound) (hp : p.Valid) (hkind : p.kind ≠ .eof) :
    ∃ q kind, documentedStat g p = q.finish p.openDocumented.2 kind ∧ kind.isStat = true ∧
      Adds p.openDocumented.1 kind.production q ∧ q.codes < p.openDocumented.1.codes := by
  obtain ⟨hm, hcurrent⟩ := opened_openDocumented hp
  unfold documentedStat
  dsimp only
  split
  · next q kind heq =>
    obtain ⟨hnode, hstat, hlt⟩ := statement?_spec hg hm.valid heq
    have htrailing := adds_trailingComment (.refl hstat.valid)
    exact ⟨_, kind, rfl, hnode, hstat.more htrailing, Nat.lt_of_le_of_lt htrailing.codes_le hlt⟩
  · have hopened : p.openDocumented.1.kind ≠ .eof := by
      rw [Parser.kind, hcurrent]
      exact hkind
    obtain ⟨hbump, hlt⟩ := bump_spec hm.valid hopened
    have hrest := adds_report (adds_trailingComment (.refl hbump.valid))
      (.unexpected p.openDocumented.1.kind)
    exact ⟨_, .emptyStat, rfl, rfl, (hbump.more hrest).mono one_le_kstar,
      Nat.lt_of_le_of_lt hrest.codes_le hlt⟩

theorem documentedStat_spec (hg : g.Sound) (hp : p.Valid) (hkind : p.kind ≠ .eof) :
    Adds p (oneOf NodeKind.isStat) (documentedStat g p) ∧ (documentedStat g p).codes < p.codes := by
  obtain ⟨hm, -⟩ := opened_openDocumented hp
  obtain ⟨q, kind, hq, hnode, hstat, hlt⟩ := documentedStat_finish hg hp hkind
  have hadds := (hm.fill hstat).finish kind (NodeKind.proper_of_isStat hnode) le_rfl
  rw [one_mul] at hadds
  rw [hq]
  exact ⟨hadds.mono (NodeKind.one_le_oneOf hnode), Nat.lt_of_lt_of_le hlt hm.codes_le⟩

abbrev AddsStats (p q : Parser) : Prop := Adds p (1 * (oneOf NodeKind.isStat)∗) q

theorem adds_blockStep (hg : g.Sound) (h : AddsStats p q) : AddsStats p (blockStep g q).1 := by
  unfold blockStep
  split
  · exact adds_flushComments h
  · next hends =>
    obtain ⟨hstat, -⟩ := documentedStat_spec hg h.valid fun hkind => hends (by rw [hkind]; rfl)
    exact (h.trans hstat).join le_kstar

theorem adds_blockOf {step : Parser → Parser × Bool} (h : Adds p row q)
    (hstep : ∀ {r}, AddsStats q.openNode.1 r → AddsStats q.openNode.1 (step r).1) :
    Adds p (row * one .block) (blockOf step q) := by
  have hm := opened_openNode h
  have hstats := repeatWhile_keeps (fun _ => hstep) (q.openNode.1.bound + 1) hm.inside.none
  rw [one_mul] at hstats
  exact (hm.fill hstats).finish _ (by decide) le_rfl

theorem sound_rules (n : Nat) : (rules n).Sound := by
  induction n with
  | zero => exact ⟨fun h _ => h, Adds.skip⟩
  | succ n ih =>
    refine ⟨fun h limit => addsExpr_exprAbove ih limit h, fun {p q row} h => ?_⟩
    exact (adds_blockOf h (adds_blockStep ih)).mono (mul_le_mul_right NodeKind.le_maybe row)

theorem chunkStep_spec (hg : g.Sound) (h : AddsStats p q) : AddsStats p (chunkStep g q).1 ∧
    ((chunkStep g q).2 = true → (chunkStep g q).1.codes < q.codes) ∧
    ((chunkStep g q).2 = false → (chunkStep g q).1.ahead = []) := by
  unfold chunkStep
  split
  · next heof =>
    refine ⟨adds_flushComments h, by simp, fun _ => ?_⟩
    exact ahead_flushComments h.valid (by simpa [sees] using heof)
  next heof =>
  have hkind : q.kind ≠ .eof := by simpa [sees] using heof
  split
  · have hm := opened_openNode h
    obtain ⟨hbump, hlt⟩ := bump_spec hm.valid hkind
    have hrest := adds_report (.refl hbump.valid) (.unexpected q.kind)
    have hstat := (hm.more (hbump.more hrest)).finish .emptyStat (by decide) one_le_kstar
    refine ⟨hstat.join ((NodeKind.one_le_oneOf rfl).trans le_kstar), fun _ => ?_, by simp⟩
    exact Nat.lt_of_le_of_lt hrest.codes_le hlt
  · obtain ⟨hadds, hlt⟩ := documentedStat_spec hg h.valid hkind
    exact ⟨(h.trans hadds).join le_kstar, fun _ => hlt, by simp⟩

theorem repeatWhile_chunkStep (hg : g.Sound) {n : Nat} (h : AddsStats p q) (hn : q.codes < n) :
    AddsStats p (repeatWhile (chunkStep g) n q) ∧ (repeatWhile (chunkStep g) n q).ahead = [] := by
  induction n generalizing q with
  | zero => omega
  | succ n ih =>
    obtain ⟨hadds, hmore, hdone⟩ := chunkStep_spec hg h
    rw [repeatWhile]
    split
    · next r heq =>
      rw [heq] at hadds hmore
      have hlt : r.codes < q.codes := hmore rfl
      exact ih hadds (by omega)
    · next r heq =>
      rw [heq] at hadds hdone
      exact ⟨hadds, hdone rfl⟩

/-- The log of a whole text is one chunk, with an item for every piece of the text, and all nodes in
it stand where they may. -/
theorem chunk_spec (hp : p.Valid) (hbound : p.codes ≤ p.bound) (hlog : p.log = #[]) :
    ∃ f : Forest, f.Places (NodeKind.production .chunk) ∧
      (chunk p).log.toList = (Branch.node .chunk f).encode false ∧
      Matches p.text f.items p.ahead := by
  have hchunk := opened_openNode (.refl hp)
  have hblock := opened_openNode hchunk.inside
  obtain ⟨hsteps, hnil⟩ :=
    repeatWhile_chunkStep (sound_rules (p.openNode.1.bound + 1)) hblock.inside.none
      (n := p.openNode.1.openNode.1.bound + 1) (Nat.lt_succ_of_le hbound)
  rw [AddsStats, one_mul] at hsteps
  have hinside : Adds p.openNode.1 (1 * one .block)
      (blockOf (chunkStep (rules (p.bound + 1))) p.openNode.1) :=
    (hblock.fill hsteps).finish _ (by decide) le_rfl
  rw [one_mul] at hinside
  obtain ⟨f, hf, hadds, hpasses⟩ := hinside
  obtain ⟨taken, hahead, hmatches⟩ := hpasses.ahead_eq
  have hend : (blockOf (chunkStep (rules (p.bound + 1))) p.openNode.1).ahead = [] := hnil
  have hblank : (blockOf (chunkStep (rules (p.bound + 1))) p.openNode.1).log.toList = [] ++
      .blank :: f.encode := by
    rw [hadds, openNode, EventLog.toList_openNode, hlog]
    rfl
  have hmarker : p.openNode.2 = ⟨([] : List Event).length⟩ := by
    rw [Marker.mk.injEq, openNode, EventLog.position_openNode, hlog]
    rfl
  have hitems : p.ahead = taken := by
    rw [hend, List.append_nil] at hahead
    exact hahead
  refine ⟨f, hf.mono NodeKind.le_maybe, ?_, ?_⟩
  · rw [chunk]
    show ((blockOf (chunkStep (rules (p.bound + 1))) p.openNode.1).log.close p.openNode.2
      .chunk).1.toList = _
    rw [hmarker, EventLog.toList_close hblank, List.nil_append]
  · rw [hitems]
    exact hmatches

end Grammar

end LuaAnalysis.Syntax
