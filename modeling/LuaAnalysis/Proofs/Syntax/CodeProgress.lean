import LuaAnalysis.Proofs.Syntax.TokensLeft
import LuaAnalysis.Syntax.Grammar.Stat

namespace LuaAnalysis.Syntax

open LuaAnalysis.Syntax.Parser

/-- Rules that read alike wherever fewer than `n` tokens are left. -/
structure Rules.Agrees (n : Nat) (g g' : Rules) : Prop where
  expr : ∀ {k : Nat} {p q : Parser}, k < n → Alike k p q →
    ∀ limit, AlikeWith k (g.expr limit p) (g'.expr limit q)
  block : ∀ {k : Nat} {p q : Parser}, k < n → Alike k p q → Alike k (g.block p) (g'.block q)

theorem Rules.Agrees.mono {m n : Nat} {g g' : Rules} (h : Rules.Agrees n g g') (hle : m ≤ n) :
    Rules.Agrees m g g' :=
  ⟨fun hk => h.expr (Nat.lt_of_lt_of_le hk hle), fun hk => h.block (Nat.lt_of_lt_of_le hk hle)⟩

namespace Grammar

variable {g g' : Rules} {n k : Nat} {p q : Parser}

theorem alike_operand (hg : Rules.Agrees n g g') (hk : k < n) (limit : Nat) (missing : Fault)
    (h : Alike k p q) : Alike k (operand g limit missing p) (operand g' limit missing q) := by
  obtain ⟨r, s, c, hr, hs, hrs⟩ := hg.expr hk h limit
  unfold operand
  rw [hr, hs]
  cases c with
  | none => exact hrs.report missing
  | some c => exact hrs

theorem alike_needExpr (hg : Rules.Agrees n g g') (hk : k < n) (h : Alike k p q) :
    Alike k (needExpr g p) (needExpr g' q) :=
  alike_operand hg hk 0 .expectedExpression h

theorem alike_exprList (hg : Rules.Agrees n g g') (hk : k < n) (h : Alike k p q) :
    Alike k (exprList g p) (exprList g' q) :=
  h.commaSeparated fun hle => alike_needExpr hg (Nat.lt_of_le_of_lt hle hk)

theorem alike_paramName (h : Alike n p q) : Alike n (paramName p) (paramName q) := by
  obtain ⟨hm, hmarker⟩ := h.openNode
  unfold paramName
  dsimp only
  rw [hmarker, hm.sees, hm.sees]
  split
  · exact hm.bump.finish _ _
  · exact hm.fail _ _ _

theorem alike_params (h : Alike n p q) :
    Alike n (commaSeparated paramName p) (commaSeparated paramName q) :=
  h.commaSeparated fun _ => alike_paramName

theorem alike_closureRest (hg : Rules.Agrees n g g') (hk : k < n) (h : Alike k p q) :
    Alike k (closureRest g p) (closureRest g' q) := by
  obtain ⟨hm, hmarker⟩ := h.openNode
  obtain ⟨r, s, opened, hr, hs, hrs⟩ := hm.expect .leftParen
  unfold closureRest
  dsimp only
  rw [hmarker, hr, hs]
  refine (hg.block hk (Alike.finish ?_ _ _)).need _
  cases opened with
  | false => exact hrs
  | true =>
    dsimp only
    rw [if_pos rfl, if_pos rfl, hrs.sees]
    split
    · exact hrs.need _
    · exact (alike_params hrs).need _

theorem alike_tableField (hg : Rules.Agrees n g g') (hk : k < n) (h : Alike k p q) :
    Alike k (tableField g p) (tableField g' q) := by
  unfold tableField
  rw [h.sees, h.sees, h.nextKind]
  split
  · exact alike_needExpr hg hk (((alike_needExpr hg hk h.bump).need _).need _)
  split
  · exact alike_needExpr hg hk h.bump.bump
  · exact alike_needExpr hg hk h

theorem alike_tableItem (hg : Rules.Agrees n g g') (hk : k < n) (h : Alike k p q) :
    AlikeStep Alike k (tableItem g p) (tableItem g' q) := by
  unfold tableItem
  rw [h.sees, h.sees]
  split
  · exact .last (h.idle .flushComments)
  · obtain ⟨p', q', m, hp, hq, hm⟩ := h.idleWith .openDocumented
    rw [hp, hq]
    dsimp only
    have hfield := alike_tableField hg hk hm
    obtain ⟨r, s, comma, hr, hs, hrs, hmore⟩ := hfield.eat .comma (by decide)
    rw [hr, hs]
    cases comma with
    | true =>
      obtain ⟨l, hl, hrs⟩ := hmore rfl
      exact .more hl ((hrs.idle .trailingComment).finish _ _)
    | false =>
      dsimp only
      obtain ⟨r, s, semicolon, hr, hs, hrs, hmore⟩ := hrs.eat .semicolon (by decide)
      rw [hr, hs]
      cases semicolon with
      | true =>
        obtain ⟨l, hl, hrs⟩ := hmore rfl
        exact .more hl ((hrs.idle .trailingComment).finish _ _)
      | false => exact .last ((hrs.idle .trailingComment).finish _ _)

theorem alike_closure (hg : Rules.Agrees n g g') (hk : k < n) (h : Alike k p q) :
    Alike k (closure g p) (closure g' q) := by
  obtain ⟨hm, hmarker⟩ := h.openNode
  unfold closure
  dsimp only
  rw [hmarker]
  exact (alike_closureRest hg hk hm).finish _ _

theorem alike_loopBody (hg : Rules.Agrees n g g') (hk : k < n) (h : Alike k p q) :
    Alike k (loopBody g p) (loopBody g' q) :=
  (hg.block hk (h.need _)).need _

theorem alike_table (hg : Rules.Agrees n g g') (h : Alike n p q) (hkind : p.kind ≠ .eof) :
    ∃ k < n, AlikeWith k (table g p) (table g' q) := by
  obtain ⟨hm, hmarker⟩ := h.openNode
  obtain ⟨k, hk, hbump⟩ := hm.bump_lt hkind
  refine ⟨k, hk, ?_⟩
  unfold table
  dsimp only
  rw [hmarker]
  refine ((hbump.repeatWhile ?_ fun hle => alike_tableItem hg (Nat.lt_of_le_of_lt hle hk)).need
    _).close _ _
  rw [← bound_bump q.openNode.1, ← bound_bump p.openNode.1]
  exact hbump.fuel

theorem alike_literal (h : Alike n p q) (hkind : p.kind ≠ .eof) :
    ∃ k < n, AlikeWith k (literal p) (literal q) := by
  obtain ⟨hm, hmarker⟩ := h.openNode
  obtain ⟨k, hk, hbump⟩ := hm.bump_lt hkind
  unfold literal
  dsimp only
  rw [hmarker]
  exact ⟨k, hk, hbump.close _ _⟩

def startsArgs (kind : TokenKind) : Bool :=
  match kind with
  | .leftParen | .str | .longString | .leftBrace => true
  | _ => false

theorem alike_argList_lt (hg : Rules.Agrees n g g') (h : Alike n p q)
    (hkind : startsArgs p.kind = true) : ∃ k < n, Alike k (argList g p) (argList g' q) := by
  unfold argList
  rw [h.kind]
  split
  · rename_i hparen
    obtain ⟨k, hk, hbump⟩ := h.bump_lt (by simp [hparen])
    refine ⟨k, hk, ?_⟩
    dsimp only
    rw [hbump.sees]
    split
    · exact hbump.need _
    · exact (alike_exprList hg hk hbump).need _
  · rename_i hstr
    obtain ⟨k, hk, r, s, c, hr, hs, hrs⟩ := alike_literal h (by simp [hstr])
    exact ⟨k, hk, by rwa [hr, hs]⟩
  · rename_i hstr
    obtain ⟨k, hk, r, s, c, hr, hs, hrs⟩ := alike_literal h (by simp [hstr])
    exact ⟨k, hk, by rwa [hr, hs]⟩
  · rename_i hbrace
    obtain ⟨k, hk, r, s, c, hr, hs, hrs⟩ := alike_table hg h (by simp [hbrace])
    exact ⟨k, hk, by rwa [hr, hs]⟩
  · rename_i hparen hstr hlong hbrace
    unfold startsArgs at hkind
    split at hkind <;> simp_all

theorem alike_argList (hg : Rules.Agrees n g g') (h : Alike n p q) :
    Alike n (argList g p) (argList g' q) := by
  by_cases hkind : startsArgs p.kind = true
  · obtain ⟨k, hk, hargs⟩ := alike_argList_lt hg h hkind
    exact hargs.mono (Nat.le_of_lt hk)
  · unfold argList
    rw [h.kind]
    unfold startsArgs at hkind
    split
    · simp_all
    · simp_all
    · simp_all
    · simp_all
    · exact h.report _

theorem alike_callArgs (hg : Rules.Agrees n g g') (h : Alike n p q) :
    Alike n (callArgs g p) (callArgs g' q) := by
  obtain ⟨hm, hmarker⟩ := h.openNode
  unfold callArgs
  dsimp only
  rw [hmarker]
  exact (alike_argList hg hm).finish _ _

theorem alike_callArgs_lt (hg : Rules.Agrees n g g') (h : Alike n p q)
    (hkind : startsArgs p.kind = true) : ∃ k < n, Alike k (callArgs g p) (callArgs g' q) := by
  obtain ⟨hm, hmarker⟩ := h.openNode
  obtain ⟨k, hk, hargs⟩ := alike_argList_lt hg hm hkind
  unfold callArgs
  dsimp only
  rw [hmarker]
  exact ⟨k, hk, hargs.finish _ _⟩

theorem alike_primaryExpr (hg : Rules.Agrees n g g') (h : Alike n p q) :
    AlikeExpr n (primaryExpr g p) (primaryExpr g' q) := by
  obtain ⟨hm, hmarker⟩ := h.openNode
  unfold primaryExpr
  rw [h.kind]
  dsimp only
  rw [hmarker]
  split
  · rename_i hname
    obtain ⟨k, hk, hbump⟩ := hm.bump_lt (show p.kind ≠ .eof by simp [hname])
    exact .of_node hk (hbump.close _ _)
  · rename_i hparen
    obtain ⟨k, hk, hbump⟩ := hm.bump_lt (show p.kind ≠ .eof by simp [hparen])
    exact .of_node hk (((alike_needExpr hg hk hbump).need _).close _ _)
  · exact .of_none h

theorem alike_suffix (hg : Rules.Agrees n g g') (c : ClosedNode) (h : Alike n p q) :
    AlikeStep AlikeWith n (suffix g (p, c)) (suffix g' (q, c)) := by
  obtain ⟨hm, hmarker⟩ := h.wrap c
  have hcall (hkind : startsArgs p.kind = true) : AlikeStep AlikeWith n
      ((callArgs g (p.wrap c).1).close (p.wrap c).2 .callExpr, true)
      ((callArgs g' (q.wrap c).1).close (p.wrap c).2 .callExpr, true) := by
    obtain ⟨k, hk, hargs⟩ := alike_callArgs_lt hg hm hkind
    exact .moreWith hk (hargs.close _ _)
  unfold suffix
  dsimp only
  rw [h.kind, hmarker]
  split
  · rename_i hdot
    obtain ⟨k, hk, hbump⟩ := hm.bump_lt (show p.kind ≠ .eof by simp [hdot])
    exact .moreWith hk ((hbump.need _).close _ _)
  · rename_i hbracket
    obtain ⟨k, hk, hbump⟩ := hm.bump_lt (show p.kind ≠ .eof by simp [hbracket])
    exact .moreWith hk (((alike_needExpr hg hk hbump).need _).close _ _)
  · rename_i hcolon
    obtain ⟨k, hk, hbump⟩ := hm.bump_lt (show p.kind ≠ .eof by simp [hcolon])
    obtain ⟨r, s, d, hr, hs, hrs⟩ := (hbump.need .name).close (p.wrap c).2 .indexExpr
    obtain ⟨hcallee, hmarker⟩ := hrs.wrap d
    rw [hr, hs]
    dsimp only
    rw [hmarker]
    exact .moreWith hk ((alike_callArgs (hg.mono (Nat.le_of_lt hk)) hcallee).close _ _)
  · exact hcall (by simp [*, startsArgs])
  · exact hcall (by simp [*, startsArgs])
  · exact hcall (by simp [*, startsArgs])
  · exact hcall (by simp [*, startsArgs])
  · exact .last ⟨p, q, c, rfl, rfl, h⟩

theorem alike_suffixedExpr (hg : Rules.Agrees n g g') (h : Alike n p q) :
    AlikeExpr n (suffixedExpr g p) (suffixedExpr g' q) := by
  obtain ⟨r, s, c, hr, hs, hrs, hlt⟩ := alike_primaryExpr hg h
  unfold suffixedExpr
  rw [hr, hs]
  cases c with
  | none => exact .of_none hrs
  | some c =>
    have hle := Nat.le_of_lt (hlt rfl)
    exact .of_node (hlt rfl) (hrs.tight.repeatWhile_node c hrs.fuel fun d hk =>
      alike_suffix (hg.mono (Nat.le_trans hk hle)) d)

theorem alike_simpleExpr (hg : Rules.Agrees n g g') (h : Alike n p q) :
    AlikeExpr n (simpleExpr g p) (simpleExpr g' q) := by
  obtain ⟨hm, hmarker⟩ := h.openNode
  have hliteral (hkind : p.kind ≠ .eof) : AlikeExpr n ((literal p).1, some (literal p).2)
      ((literal q).1, some (literal q).2) := by
    obtain ⟨k, hk, hnode⟩ := alike_literal h hkind
    exact .of_node hk hnode
  unfold simpleExpr
  rw [h.kind]
  dsimp only
  rw [hmarker]
  split
  · exact hliteral (by simp [*])
  · exact hliteral (by simp [*])
  · exact hliteral (by simp [*])
  · exact hliteral (by simp [*])
  · exact hliteral (by simp [*])
  · exact hliteral (by simp [*])
  · exact hliteral (by simp [*])
  · exact hliteral (by simp [*])
  · rename_i hbrace
    obtain ⟨k, hk, hnode⟩ := alike_table hg h (by simp [hbrace])
    exact .of_node hk hnode
  · rename_i hfunction
    obtain ⟨k, hk, hbump⟩ := hm.bump_lt (show p.kind ≠ .eof by simp [hfunction])
    exact .of_node hk ((alike_closureRest hg hk hbump).close _ _)
  · exact alike_suffixedExpr hg h

theorem unaryOperator_ne_eof {kind : TokenKind} (h : (UnaryOperator.ofToken? kind).isSome = true) :
    kind ≠ .eof := by
  rintro rfl
  exact absurd h (by decide)

theorem binaryOperator_ne_eof {kind : TokenKind} {op : BinaryOperator}
    (h : BinaryOperator.ofToken? kind = some op) : kind ≠ .eof := by
  rintro rfl
  cases h

theorem alike_unaryExpr (hg : Rules.Agrees n g g') (h : Alike n p q) :
    AlikeExpr n (unaryExpr g p) (unaryExpr g' q) := by
  obtain ⟨hm, hmarker⟩ := h.openNode
  unfold unaryExpr
  rw [h.kind]
  dsimp only
  rw [hmarker]
  split
  · rename_i hoperator
    obtain ⟨k, hk, hbump⟩ := hm.bump_lt (unaryOperator_ne_eof hoperator)
    exact .of_node hk ((alike_operand hg hk _ _ hbump).close _ _)
  · exact alike_simpleExpr hg h

theorem alike_binaryStep (hg : Rules.Agrees n g g') (limit : Nat) (c : ClosedNode)
    (h : Alike n p q) : AlikeStep AlikeWith n (binaryStep g limit (p, c))
    (binaryStep g' limit (q, c)) := by
  obtain ⟨hm, hmarker⟩ := h.wrap c
  unfold binaryStep
  dsimp only
  rw [h.kind, hmarker]
  split
  · rename_i op hoperator
    split
    · exact .last ⟨p, q, c, rfl, rfl, h⟩
    · obtain ⟨k, hk, hbump⟩ := hm.bump_lt (binaryOperator_ne_eof hoperator)
      exact .moreWith hk ((alike_operand hg hk _ _ hbump).close _ _)
  · exact .last ⟨p, q, c, rfl, rfl, h⟩

theorem alike_exprAbove (hg : Rules.Agrees n g g') (limit : Nat) (h : Alike n p q) :
    AlikeExpr n (exprAbove g limit p) (exprAbove g' limit q) := by
  obtain ⟨r, s, c, hr, hs, hrs, hlt⟩ := alike_unaryExpr hg h
  unfold exprAbove
  rw [hr, hs]
  cases c with
  | none => exact .of_none hrs
  | some c =>
    have hle := Nat.le_of_lt (hlt rfl)
    exact .of_node (hlt rfl)
      (hrs.tight.repeatWhile_node c hrs.fuel fun d hk =>
        alike_binaryStep (hg.mono (Nat.le_trans hk hle)) limit d)

theorem alike_ifPart (hg : Rules.Agrees n g g') (h : Alike n p q) :
    AlikeStep Alike n (ifPart g p) (ifPart g' q) := by
  obtain ⟨hm, hmarker⟩ := h.openNode
  unfold ifPart
  rw [h.kind]
  dsimp only
  rw [hmarker]
  split
  · rename_i helseif
    obtain ⟨k, hk, hbump⟩ := hm.bump_lt (show p.kind ≠ .eof by simp [helseif])
    exact .more hk ((hg.block hk ((alike_needExpr hg hk hbump).need _)).finish _ _)
  · rename_i helse
    obtain ⟨k, hk, hbump⟩ := hm.bump_lt (show p.kind ≠ .eof by simp [helse])
    exact .more hk ((hg.block hk hbump).finish _ _)
  · exact .last h

theorem alike_ifStat (hg : Rules.Agrees n g g') (hk : k < n) (h : Alike k p.bump q.bump) :
    Alike k (ifStat g p) (ifStat g' q) := by
  have hthen := hg.block hk ((alike_needExpr hg hk h).need .kwThen)
  exact (hthen.repeatWhile hthen.fuel fun hle =>
    alike_ifPart (hg.mono (Nat.le_trans hle (Nat.le_of_lt hk)))).need _

theorem alike_forStat (hg : Rules.Agrees n g g') (hk : k < n) (h : Alike k p.bump q.bump) :
    AlikeWith k (forStat g p) (forStat g' q) := by
  obtain ⟨r, s, assign, hr, hs, hrs, -⟩ := (alike_paramName h).eat .assign (by decide)
  unfold forStat
  dsimp only
  rw [hr, hs]
  cases assign with
  | true =>
    dsimp only
    have hstop := alike_needExpr hg hk ((alike_needExpr hg hk hrs).need .comma)
    obtain ⟨r', s', comma, hr', hs', hrs', -⟩ := hstop.eat .comma (by decide)
    rw [hr', hs']
    cases comma with
    | true => exact ⟨_, _, _, rfl, rfl, alike_loopBody hg hk (alike_needExpr hg hk hrs')⟩
    | false => exact ⟨_, _, _, rfl, rfl, alike_loopBody hg hk hrs'⟩
  | false =>
    dsimp only
    obtain ⟨r', s', comma, hr', hs', hrs', -⟩ := hrs.eat .comma (by decide)
    rw [hr', hs']
    have hrest {a b : Parser} (hab : Alike k a b) : AlikeWith k
        (loopBody g (exprList g (a.need .kwIn)), NodeKind.forRangeStat)
        (loopBody g' (exprList g' (b.need .kwIn)), NodeKind.forRangeStat) :=
      ⟨_, _, _, rfl, rfl, alike_loopBody hg hk (alike_exprList hg hk (hab.need _))⟩
    cases comma with
    | true => exact hrest (alike_params hrs')
    | false => exact hrest hrs'

theorem alike_funcNameStep (c : ClosedNode) (h : Alike n p q) :
    AlikeStep AlikeWith n (funcNameStep (p, c)) (funcNameStep (q, c)) := by
  obtain ⟨hm, hmarker⟩ := h.wrap c
  unfold funcNameStep
  dsimp only
  rw [h.sees, h.sees, hmarker]
  split
  · rename_i hsees
    have hkind : p.kind ≠ .eof := fun heof => by simp [Parser.sees, heof] at hsees
    obtain ⟨k, hk, hbump⟩ := hm.bump_lt hkind
    have hnode := (hbump.need .name).close (p.wrap c).2 .indexExpr
    cases p.sees .colon with
    | true => exact .last (hnode.mono (Nat.le_of_lt hk))
    | false => exact .moreWith hk hnode
  · exact .last ⟨p, q, c, rfl, rfl, h⟩

theorem alike_funcStat (hg : Rules.Agrees n g g') (hk : k < n) (h : Alike k p.bump q.bump) :
    Alike k (funcStat g p) (funcStat g' q) := by
  obtain ⟨hm, hmarker⟩ := h.openNode
  obtain ⟨r, s, named, hr, hs, hrs⟩ := hm.expect .name
  unfold funcStat
  dsimp only
  rw [hmarker, hr, hs]
  cases named with
  | true =>
    dsimp only
    obtain ⟨r, s, c, hr, hs, hrs⟩ := hrs.close p.bump.openNode.2 .nameExpr
    rw [hr, hs]
    dsimp only
    obtain ⟨r', s', d, hr', hs', hrs'⟩ := hrs.repeatWhile_node c hrs.fuel fun d _ =>
      alike_funcNameStep d
    rw [hr', hs']
    exact alike_closure hg hk hrs'
  | false => exact alike_closure hg hk (hrs.idle (.abandon _))

theorem alike_localName (h : Alike n p q) : Alike n (localName p) (localName q) := by
  obtain ⟨hm, hmarker⟩ := h.openNode
  have hname := hm.need .name
  obtain ⟨ha, hattribute⟩ := hname.openNode
  unfold localName
  dsimp only
  rw [hmarker, hname.sees, hattribute]
  split
  · exact Alike.finish (((ha.bump.need _).need _).finish _ _) _ _
  · exact hname.finish _ _

theorem alike_localStat (hg : Rules.Agrees n g g') (hk : k < n) (h : Alike k p.bump q.bump) :
    AlikeWith k (localStat g p) (localStat g' q) := by
  obtain ⟨r, s, function, hr, hs, hrs, -⟩ := h.eat .kwFunction (by decide)
  unfold localStat
  rw [hr, hs]
  cases function with
  | true =>
    obtain ⟨hm, hmarker⟩ := hrs.openNode
    dsimp only
    rw [hmarker]
    exact ⟨_, _, _, rfl, rfl, alike_closure hg hk ((hm.need _).finish _ _)⟩
  | false =>
    have hnames := hrs.commaSeparated fun _ => alike_localName
    obtain ⟨r, s, assign, hr, hs, hrs, -⟩ := hnames.eat .assign (by decide)
    dsimp only
    rw [hr, hs]
    cases assign with
    | true => exact ⟨_, _, _, rfl, rfl, alike_exprList hg hk hrs⟩
    | false => exact ⟨_, _, _, rfl, rfl, hrs⟩

theorem alike_assignTarget (hg : Rules.Agrees n g g') (h : Alike n p q) :
    AlikeStep Alike n (assignTarget g p) (assignTarget g' q) := by
  obtain ⟨r, s, comma, hr, hs, hrs, hmore⟩ := h.eat .comma (by decide)
  unfold assignTarget
  rw [hr, hs]
  cases comma with
  | true =>
    obtain ⟨k, hk, hrs⟩ := hmore rfl
    obtain ⟨r, s, c, hr, hs, hrs, -⟩ := alike_suffixedExpr (hg.mono (Nat.le_of_lt hk)) hrs
    dsimp only
    rw [hr, hs]
    cases c with
    | some c => exact .more hk hrs
    | none => exact .last (hrs.mono (Nat.le_of_lt hk))
  | false => exact .last hrs

theorem isSome_primaryExpr (g : Rules) (hkind : p.kind = .name ∨ p.kind = .leftParen) :
    (primaryExpr g p).2.isSome = true := by
  unfold primaryExpr
  rcases hkind with hkind | hkind <;> simp [hkind]

theorem isSome_suffixedExpr (g : Rules) (hkind : p.kind = .name ∨ p.kind = .leftParen) :
    (suffixedExpr g p).2.isSome = true := by
  have hfirst := isSome_primaryExpr g hkind
  unfold suffixedExpr
  split
  · rename_i hnone
    rw [hnone] at hfirst
    cases hfirst
  · rfl

theorem alike_exprStat (hg : Rules.Agrees n g g') (h : Alike n p q)
    (hkind : p.kind = .name ∨ p.kind = .leftParen) :
    ∃ k < n, AlikeWith k (exprStat g p) (exprStat g' q) := by
  obtain ⟨r, s, c, hr, hs, hrs, hlt⟩ := alike_suffixedExpr hg h
  have hsome := isSome_suffixedExpr g hkind
  rw [hr] at hsome
  have hk := hlt hsome
  obtain ⟨c, rfl⟩ := Option.isSome_iff_exists.1 hsome
  refine ⟨r.left, hk, ?_⟩
  unfold exprStat
  rw [hr, hs]
  dsimp only
  rw [hrs.sees, hrs.sees, hrs.log]
  split
  · have htargets := hrs.tight.repeatWhile hrs.fuel fun hle =>
      alike_assignTarget (hg.mono (Nat.le_trans hle (Nat.le_of_lt hk)))
    exact ⟨_, _, _, rfl, rfl, alike_exprList hg hk (htargets.need _)⟩
  split
  · exact ⟨_, _, _, rfl, rfl, hrs.tight⟩
  · exact ⟨_, _, _, rfl, rfl, hrs.tight.report _⟩

theorem alike_returnStat (hg : Rules.Agrees n g g') (hk : k < n) (h : Alike k p.bump q.bump) :
    Alike k (returnStat g p) (returnStat g' q) := by
  have hsemicolon {a b : Parser} (hab : Alike k a b) :
      Alike k (a.eat .semicolon).1 (b.eat .semicolon).1 := by
    obtain ⟨r, s, more, hr, hs, hrs, -⟩ := hab.eat .semicolon (by decide)
    rw [hr, hs]
    exact hrs
  unfold returnStat
  dsimp only
  rw [h.kind, h.sees]
  split
  · exact hsemicolon h
  · exact hsemicolon (alike_exprList hg hk h)

theorem alike_statement? (hg : Rules.Agrees n g g') (h : Alike n p q) :
    (statement? g p = none ∧ statement? g' q = none) ∨ ∃ r s, statement? g p = some r ∧
    statement? g' q = some s ∧
      ∃ k < n, AlikeWith k r s := by
  have hstat {P : Nat → Prop} (hkind : p.kind ≠ .eof) (hP : ∀ k < n, Alike k p.bump q.bump → P k) :
      ∃ k < n, P k := by
    obtain ⟨k, hk, hbump⟩ := h.bump_lt hkind
    exact ⟨k, hk, hP k hk hbump⟩
  unfold statement?
  rw [h.kind]
  split
  · exact .inr ⟨_, _, rfl, rfl, hstat (by simp [*]) fun k _ hb => ⟨_, _, _, rfl, rfl, hb⟩⟩
  · exact .inr ⟨_, _, rfl, rfl, hstat (by simp [*]) fun k hk hb =>
      ⟨_, _, _, rfl, rfl, alike_ifStat hg hk hb⟩⟩
  · exact .inr ⟨_, _, rfl, rfl, hstat (by simp [*]) fun k hk hb =>
      ⟨_, _, _, rfl, rfl, alike_loopBody hg hk (alike_needExpr hg hk hb)⟩⟩
  · exact .inr ⟨_, _, rfl, rfl, hstat (by simp [*]) fun k hk hb =>
      ⟨_, _, _, rfl, rfl, (hg.block hk hb).need _⟩⟩
  · exact .inr ⟨_, _, rfl, rfl, hstat (by simp [*]) fun k hk hb => alike_forStat hg hk hb⟩
  · exact .inr ⟨_, _, rfl, rfl, hstat (by simp [*]) fun k hk hb =>
      ⟨_, _, _, rfl, rfl, alike_needExpr hg hk ((hg.block hk hb).need _)⟩⟩
  · exact .inr ⟨_, _, rfl, rfl, hstat (by simp [*]) fun k hk hb =>
      ⟨_, _, _, rfl, rfl, alike_funcStat hg hk hb⟩⟩
  · exact .inr ⟨_, _, rfl, rfl, hstat (by simp [*]) fun k hk hb => alike_localStat hg hk hb⟩
  · exact .inr ⟨_, _, rfl, rfl, hstat (by simp [*]) fun k _ hb =>
      ⟨_, _, _, rfl, rfl, (hb.need _).need _⟩⟩
  · exact .inr ⟨_, _, rfl, rfl, hstat (by simp [*]) fun k hk hb =>
      ⟨_, _, _, rfl, rfl, alike_returnStat hg hk hb⟩⟩
  · exact .inr ⟨_, _, rfl, rfl, hstat (by simp [*]) fun k _ hb => ⟨_, _, _, rfl, rfl, hb⟩⟩
  · exact .inr ⟨_, _, rfl, rfl, hstat (by simp [*]) fun k _ hb => ⟨_, _, _, rfl, rfl, hb.need _⟩⟩
  · exact .inr ⟨_, _, rfl, rfl, alike_exprStat hg h (.inl (by assumption))⟩
  · exact .inr ⟨_, _, rfl, rfl, alike_exprStat hg h (.inr (by assumption))⟩
  · exact .inl ⟨rfl, rfl⟩

theorem alike_documentedStat (hg : Rules.Agrees n g g') (h : Alike n p q) (hkind : p.kind ≠ .eof) :
    ∃ k < n, Alike k (documentedStat g p) (documentedStat g' q) := by
  have hplace := (IdleWith.openDocumented.place p).1
  obtain ⟨r, s, m, hr, hs, hrs⟩ := h.idleWith .openDocumented
  rw [hr] at hplace
  have hopened : r.kind ≠ .eof := by rwa [Parser.kind, hplace]
  unfold documentedStat
  rw [hr, hs]
  dsimp only
  rcases alike_statement? hg hrs with ⟨hp, hq⟩ | ⟨_, _, hp, hq, k, hk, r', s', kind, rfl, rfl, hrs'⟩
  · obtain ⟨k, hk, hbump⟩ := hrs.bump_lt hopened
    rw [hp, hq, hrs.kind]
    exact ⟨k, hk, (hbump.idle .trailingComment).fail _ _ _⟩
  · rw [hp, hq]
    exact ⟨k, hk, (hrs'.idle .trailingComment).finish _ _⟩

theorem not_endsBlock_eof {kind : TokenKind} (h : ¬ endsBlock kind = true) : kind ≠ .eof := by
  rintro rfl
  exact h rfl

theorem alike_blockStep (hg : Rules.Agrees n g g') (h : Alike n p q) :
    AlikeStep Alike n (blockStep g p) (blockStep g' q) := by
  unfold blockStep
  rw [h.kind]
  split
  · exact .last (h.idle .flushComments)
  · rename_i hends
    obtain ⟨k, hk, hstat⟩ := alike_documentedStat hg h (not_endsBlock_eof hends)
    exact .more hk hstat

theorem alike_chunkStep (hg : Rules.Agrees n g g') (h : Alike n p q) :
    AlikeStep Alike n (chunkStep g p) (chunkStep g' q) := by
  unfold chunkStep
  rw [h.sees, h.kind]
  split
  · exact .last (h.idle .flushComments)
  · rename_i hsees
    have hkind : p.kind ≠ .eof := by simpa [Parser.sees] using hsees
    split
    · obtain ⟨hm, hmarker⟩ := h.openNode
      obtain ⟨k, hk, hbump⟩ := hm.bump_lt (show p.kind ≠ .eof from hkind)
      dsimp only
      rw [hmarker]
      exact .more hk (hbump.fail _ _ _)
    · obtain ⟨k, hk, hstat⟩ := alike_documentedStat hg h hkind
      exact .more hk hstat

theorem alike_blockOf {step step' : Parser → Parser × Bool} (h : Alike n p q)
    (hstep : ∀ {k r s}, k ≤ n → Alike k r s → AlikeStep Alike k (step r) (step' s)) :
    Alike n (blockOf step p) (blockOf step' q) := by
  obtain ⟨hm, hmarker⟩ := h.openNode
  unfold blockOf
  dsimp only
  rw [hmarker]
  exact (hm.repeatWhile hm.fuel hstep).finish _ _

def outward (g : Rules) : Rules := ⟨exprAbove g, blockOf (blockStep g)⟩

theorem agrees_outward (hg : Rules.Agrees n g g') :
    Rules.Agrees (n + 1) (outward g) (outward g') where
  expr hk h limit := by
    obtain ⟨r, s, c, hr, hs, hrs, -⟩ := alike_exprAbove (hg.mono (Nat.le_of_lt_succ hk)) limit h
    exact ⟨r, s, c, hr, hs, hrs⟩
  block hk h := alike_blockOf h fun hle =>
    alike_blockStep (hg.mono (Nat.le_trans hle (Nat.le_of_lt_succ hk)))

theorem agrees_rules {a b : Nat} (h : a = b ∨ n ≤ a ∧ n ≤ b) :
    Rules.Agrees n (rules a) (rules b) := by
  -- On the levels of one side. The next one is entered only with fewer tokens left, so neither side
  -- runs out of them first.
  induction a generalizing n b with
  | zero =>
    rcases h with rfl | ⟨hn, -⟩
    · exact ⟨fun _ h _ => ⟨_, _, none, rfl, rfl, h⟩, fun _ h => h⟩
    · exact ⟨fun hk => by omega, fun hk => by omega⟩
  | succ a ih =>
    cases n with
    | zero => exact ⟨fun hk => by omega, fun hk => by omega⟩
    | succ n =>
      obtain ⟨b, rfl⟩ : ∃ m, b = m + 1 := ⟨b - 1, by omega⟩
      exact agrees_outward (ih (by omega))

theorem alike_chunk (h : Alike n p q) : Alike n (chunk p) (chunk q) := by
  obtain ⟨hm, hmarker⟩ := h.openNode
  have hrules : Rules.Agrees p.left (rules (p.bound + 1)) (rules (q.bound + 1)) :=
    agrees_rules (h.fuel.imp Eq.symm fun h => ⟨Nat.le_of_lt h.1, Nat.le_of_lt h.2⟩)
  unfold chunk
  dsimp only
  rw [hmarker]
  refine Alike.finish ?_ _ _
  refine (alike_blockOf (n := p.left) hm.tight fun hle =>
    alike_chunkStep (hrules.mono hle)).mono h.left_le

end Grammar

end LuaAnalysis.Syntax
