import LuaAnalysis.Proofs.Syntax.Shape
import LuaAnalysis.Proofs.Syntax.Words
import LuaAnalysis.Syntax.Grammar.Stat

/-!
What the operations of the code reader do to the log where no comments stand, in terms of the words
taken up and of what has been built from them, and so what comes of a text that is one statement.
-/

namespace LuaAnalysis.Syntax

def Word.shape (w : Word) : Shape := .token w.kind w.text

def headKind : List Word → TokenKind
  | [] => .eof
  | w :: _ => w.kind

theorem Spells.kind_head {text : String} {ws : List Word} {t : Token} {ts : List Token}
    (h : Spells text ws (t :: ts)) : t.kind = headKind ws := by
  cases h with
  | nil heof => exact heof
  | cons hkind => exact hkind

theorem Spells.exists_cons {text : String} {ws : List Word} {ts : List Token}
    (h : Spells text ws ts) : ∃ t rest, ts = t :: rest := by
  cases h with
  | nil _ => exact ⟨_, _, rfl⟩
  | cons _ _ _ => exact ⟨_, _, rfl⟩

theorem Spells.length_lt {text : String} {ws : List Word} {ts : List Token}
    (h : Spells text ws ts) : ws.length < ts.length := by
  induction h with
  | nil _ => exact Nat.zero_lt_one
  | cons _ _ _ ih => exact Nat.succ_lt_succ ih

namespace Parser

/-- The reader stands in front of words, and no comment is ahead. -/
structure At (text : String) (p : Parser) (ws : List Word) : Prop where
  quiet : ∀ t ∈ p.pending ++ p.rest, t.kind.isComment = false
  spells : Spells text ws (p.current :: p.rest.filter fun t => !t.kind.isTrivia)
  room : ws.length ≤ p.bound

/-- The reader stands in front of words and has written what looks like this behind the events
`pre`. -/
def Wrote (text : String) (p : Parser) (pre : List Event) (shapes : List Shape)
    (ws : List Word) : Prop :=
  p.At text ws ∧ p.log.Holds false text pre shapes

def WroteNode (text : String) (p : Parser) (c : ClosedNode) (pre : List Event) (shapes : List Shape)
    (shape : Shape) (ws : List Word) : Prop :=
  p.At text ws ∧ p.log.HoldsNode false text c pre shapes shape

variable {text : String} {p q : Parser} {c : ClosedNode} {pre : List Event}
  {shapes inner : List Shape} {shape : Shape} {w : Word} {ws ws' : List Word} {kind : NodeKind}

theorem At.withLog (h : p.At text ws) (log : EventLog) : At text { p with log := log } ws :=
  ⟨h.quiet, h.spells, h.room⟩

theorem At.kind_eq (h : p.At text ws) : p.kind = headKind ws := h.spells.kind_head

theorem At.nextKind_eq (h : p.At text (w :: ws)) : p.nextKind = headKind ws := by
  have hspells := h.spells
  rw [nextKind, ← List.head?_filter]
  generalize p.rest.filter (fun t => !t.kind.isTrivia) = codes at hspells ⊢
  cases hspells with
  | cons _ _ hbehind =>
    cases hbehind with
    | nil heof => exact heof
    | cons hkind => exact hkind

theorem Wrote.kind_eq (h : p.Wrote text pre shapes ws) : p.kind = headKind ws := h.1.kind_eq

theorem Wrote.sees_eq (h : p.Wrote text pre shapes ws) (wanted : TokenKind) :
    p.sees wanted = (headKind ws == wanted) := by
  rw [sees, h.kind_eq]

theorem WroteNode.kind_eq (h : p.WroteNode text c pre shapes shape ws) :
    p.kind = headKind ws := h.1.kind_eq

theorem WroteNode.wrote (h : p.WroteNode text c pre shapes shape ws) :
    p.Wrote text pre (shapes ++ [shape]) ws :=
  ⟨h.1, h.2.holds⟩

theorem split_eq_nil {trivia : List Token} (h : ∀ t ∈ trivia, t.kind.isComment = false)
    (breaks : Nat) : CommentGroup.split [] breaks trivia = [] := by
  induction trivia generalizing breaks with
  | nil => rfl
  | cons t trivia ih =>
    rw [List.forall_mem_cons] at h
    simp only [CommentGroup.split, h.1, Bool.false_eq_true, if_false]
    split
    · exact ih h.2 _
    · exact ih h.2 _

theorem At.ofTrivia_pending (h : p.At text ws) : CommentGroup.ofTrivia p.pending = [] :=
  split_eq_nil (fun t ht => h.quiet t (List.mem_append_left _ ht)) 0

theorem At.flushComments (h : p.At text ws) : p.flushComments = { p with pending := [] } := by
  rw [Parser.flushComments, h.ofTrivia_pending]
  rfl

theorem At.leadingComments (h : p.At text ws) :
    p.leadingComments = ({ p with pending := [] }, none) := by
  rw [Parser.leadingComments, h.ofTrivia_pending]
  rfl

theorem At.trailingComment (h : p.At text ws) : p.trailingComment = p := by
  rw [Parser.trailingComment]
  split
  · rename_i t pending hpending
    have ht : t ∈ p.pending := (List.dropWhile_sublist _).subset (hpending ▸ List.mem_cons_self)
    rw [h.quiet t (List.mem_append_left _ ht)]
    rfl
  · rfl

theorem At.forget (h : p.At text ws) : At text { p with pending := [] } ws :=
  ⟨fun t ht => h.quiet t (List.mem_append_right _ (by simpa using ht)), h.spells, h.room⟩

theorem advance_append (e : Token) {trivia rest : List Token} {t : Token}
    (htrivia : ∀ x ∈ trivia, x.kind.isTrivia = true) (ht : t.kind.isTrivia = false) :
    advance e (trivia ++ t :: rest) = (trivia, t, rest) := by
  rw [advance, List.span_eq_takeWhile_dropWhile, List.takeWhile_append_of_pos htrivia,
    List.dropWhile_append_of_pos htrivia, List.takeWhile_cons_of_neg (by simp [ht]),
    List.dropWhile_cons_of_neg (by simp [ht]), List.append_nil]

theorem At.ofTokens {tokens : List Token} (hquiet : ∀ t ∈ tokens, t.kind.isComment = false)
    (hspells : Spells text ws (tokens.filter fun t => !t.kind.isTrivia)) :
    (ofTokens text tokens).At text ws := by
  have hroom : ws.length ≤ tokens.length :=
    Nat.le_trans (Nat.le_of_lt hspells.length_lt) (List.length_filter_le _ _)
  generalize hcodes : tokens.filter (fun t => !t.kind.isTrivia) = codes at hspells
  obtain ⟨t, codes, rfl⟩ := hspells.exists_cons
  obtain ⟨trivia, rest, rfl, htrivia, ht, hbehind⟩ := List.filter_eq_cons_iff.1 hcodes
  rw [Parser.ofTokens, advance_append _ (by simpa using htrivia) (by simpa using ht)]
  refine ⟨fun x hx => hquiet x ?_, by rwa [← hbehind] at hspells, hroom⟩
  simp only [List.mem_append, List.mem_cons] at hx ⊢
  tauto

theorem At.bump (h : p.At text (w :: ws)) : p.bump.At text ws ∧
    p.bump.log = p.log.push (.token w.kind p.current.span) ∧
    Text.slice text p.current.span = w.text := by
  have hquiet := h.quiet
  have hroom := h.room
  generalize hcodes : p.rest.filter (fun t => !t.kind.isTrivia) = codes at *
  obtain ⟨hkind, htext, hspells⟩ : p.current.kind = w.kind ∧
      Text.slice text p.current.span = w.text ∧
      Spells text ws codes := by
    have hspells := h.spells
    rw [hcodes] at hspells
    cases hspells with
    | cons hkind htext h => exact ⟨hkind, htext, h⟩
  -- behind a word there is another one or the end of the text
  obtain ⟨t, codes, rfl⟩ := hspells.exists_cons
  obtain ⟨trivia, rest, hrest, htrivia, ht, hbehind⟩ := List.filter_eq_cons_iff.1 hcodes
  have heof : p.sees .eof = false := by
    have hne := w.kind_ne_eof
    simpa [sees, kind, hkind] using hne
  have hadvance : ∀ e, advance e p.rest = (trivia, t, rest) := fun e => by
    rw [hrest]
    exact advance_append e (by simpa using htrivia) (by simpa using ht)
  have hbump : p.bump = { p with
      log := p.log.push (.token w.kind p.current.span)
      pending := trivia
      current := t
      rest := rest } := by
    rw [Parser.bump, heof, h.flushComments]
    simp [hadvance, hkind]
  rw [hbump]
  refine ⟨⟨fun x hx => hquiet x ?_, by rwa [← hbehind] at hspells, ?_⟩, rfl, htext⟩
  · rw [hrest]
    simp only [List.mem_append, List.mem_cons] at hx ⊢
    tauto
  · rw [List.length_cons] at hroom
    exact Nat.le_of_succ_le hroom

theorem Wrote.bump (h : p.Wrote text pre shapes (w :: ws)) :
    p.bump.Wrote text pre (shapes ++ [w.shape]) ws := by
  obtain ⟨hbehind, hbump, htext⟩ := h.1.bump
  refine ⟨hbehind, ?_⟩
  rw [hbump, Word.shape, ← htext]
  exact h.2.token w.kind p.current.span

theorem Wrote.eat (h : p.Wrote text pre shapes (w :: ws)) (wanted : TokenKind)
    (hkind : w.kind = wanted) : ∃ q, p.eat wanted = (q, true) ∧
    q.Wrote text pre (shapes ++ [w.shape]) ws := by
  refine ⟨p.bump, ?_, h.bump⟩
  rw [Parser.eat, h.sees_eq, headKind, hkind, beq_self_eq_true, if_pos rfl]

theorem Wrote.eat_of_ne (h : p.Wrote text pre shapes ws) {wanted : TokenKind}
    (hne : headKind ws ≠ wanted) : p.eat wanted = (p, false) := by
  rw [Parser.eat, h.sees_eq, if_neg (by simpa using hne)]

theorem Wrote.need (h : p.Wrote text pre shapes (w :: ws)) (wanted : TokenKind)
    (hkind : w.kind = wanted) : (p.need wanted).Wrote text pre (shapes ++ [w.shape]) ws := by
  have hsees : p.sees wanted = true := by rw [h.sees_eq, headKind, hkind, beq_self_eq_true]
  rw [Parser.need, expect, if_pos hsees]
  exact h.bump

theorem Wrote.openNode (h : p.Wrote text pre shapes ws) :
    ∃ pre', p.openNode.1.Wrote text pre' [] ws :=
  ⟨_, h.1.withLog _, EventLog.holds_openNode false text p.log⟩

theorem Wrote.node (h : p.Wrote text pre shapes ws) (hkind : kind ≠ .absent ∧ kind ≠ .comment)
    (step : Parser → Parser)
    (hstep : ∀ q pre', Wrote text q pre' [] ws → (step q).Wrote text pre' inner ws') :
    ((step p.openNode.1).close p.openNode.2 kind).1.WroteNode text
    ((step p.openNode.1).close p.openNode.2 kind).2 pre shapes (.node kind inner) ws' := by
  obtain ⟨hbehind, hinner⟩ :=
    hstep p.openNode.1 _ ⟨h.1.withLog _, EventLog.holds_openNode false text p.log⟩
  exact ⟨hbehind.withLog _, h.2.close hinner hkind⟩

theorem WroteNode.around (h : q.WroteNode text c pre shapes shape ws)
    (hkind : kind ≠ .absent ∧ kind ≠ .comment) (step : Parser → Parser)
    (hstep : ∀ r pre', Wrote text r pre' [] ws → (step r).Wrote text pre' inner ws') :
    ((step (q.wrap c).1).close (q.wrap c).2 kind).1.WroteNode text
    ((step (q.wrap c).1).close (q.wrap c).2 kind).2 pre shapes
    (.node kind (shape :: inner)) ws' := by
  obtain ⟨hbehind, hinner⟩ :=
    hstep (q.wrap c).1 _ ⟨h.1.withLog _, EventLog.holds_wrap false text q.log c⟩
  exact ⟨hbehind.withLog _, h.2.close hinner hkind⟩

theorem Wrote.flushComments (h : p.Wrote text pre shapes ws) :
    p.flushComments.Wrote text pre shapes ws := by
  obtain ⟨hat, hwritten⟩ := h
  rw [hat.flushComments]
  exact ⟨hat.forget, hwritten⟩

theorem Wrote.trailingComment (h : p.Wrote text pre shapes ws) : p.trailingComment = p :=
  h.1.trailingComment

theorem Wrote.openDocumented (h : p.Wrote text pre shapes ws) :
    ∃ q : Parser, q.Wrote text pre shapes ws ∧
    p.openDocumented = q.openNode := by
  refine ⟨{ p with pending := [] }, ⟨h.1.forget, h.2⟩, ?_⟩
  rw [Parser.openDocumented, h.1.leadingComments]

end Parser

namespace Grammar

variable {g : Rules} {text : String} {p : Parser} {log : EventLog} {pre : List Event}
  {shapes : List Shape} {stat : Shape}

def ReadsStat (g : Rules) (text : String) (p : Parser) (stat : Shape) : Prop :=
  ∀ (log : EventLog) (pre : List Event), log.Holds false text pre [] →
    (documentedStat g { p with log := log }).Wrote text pre [stat] []

theorem holds_block (hkind : endsBlock p.kind = false) (hbound : 0 < p.bound)
    (hstat : ReadsStat g text p stat) (h : p.log.Holds false text pre shapes) :
    (blockOf (chunkStep g) p).log.Holds false text pre (shapes ++ [.node .block [stat]]) := by
  obtain ⟨k, hk⟩ : ∃ k, p.bound + 1 = k + 2 := ⟨p.bound - 1, by omega⟩
  have hread : (documentedStat g p.openNode.1).Wrote text (p.log.toList ++ [.blank]) [stat] [] :=
    hstat p.log.openNode.1 _ (EventLog.holds_openNode false text p.log)
  have heof : p.sees .eof = false := by
    rw [Parser.sees]
    cases hfound : p.kind <;> simp_all [endsBlock]
  have hfirst : chunkStep g p.openNode.1 = (documentedStat g p.openNode.1, true) := by
    have heof' : p.openNode.1.sees .eof = false := heof
    have hkind' : endsBlock p.openNode.1.kind = false := hkind
    simp [chunkStep, heof', hkind']
  have hlast : chunkStep g (documentedStat g p.openNode.1) =
      ((documentedStat g p.openNode.1).flushComments, false) := by
    rw [chunkStep, hread.sees_eq]
    rfl
  have hloop : Parser.repeatWhile (chunkStep g) (p.bound + 1) p.openNode.1 =
      (documentedStat g p.openNode.1).flushComments := by
    rw [hk, Parser.repeatWhile, hfirst]
    simp only
    rw [Parser.repeatWhile, hlast]
  have hblock : blockOf (chunkStep g) p =
      (documentedStat g p.openNode.1).flushComments.finish p.openNode.2 .block := by
    rw [← hloop]
    rfl
  rw [hblock]
  exact (h.close hread.flushComments.2 (show NodeKind.block ≠ .absent ∧
    NodeKind.block ≠ .comment by decide)).holds

end Grammar

theorem exists_branch_chunk {text : String} {tokens : List Token} {stat : Shape}
    (hkind : Grammar.endsBlock (Parser.ofTokens text tokens).kind = false)
    (hstat : Grammar.ReadsStat (Grammar.rules (tokens.length + 1)) text
      (Parser.ofTokens text tokens) stat) :
    ∃ b : Branch, (Grammar.chunk (Parser.ofTokens text tokens)).log.toList = b.encode false ∧
      b.Draws false text (.node .chunk [.node .block [stat]]) := by
  have hbound : (Parser.ofTokens text tokens).bound = tokens.length := rfl
  have hempty : (Parser.ofTokens text tokens).log = #[] := rfl
  have hpos : 0 < tokens.length := by
    cases tokens with
    | nil => cases hkind
    | cons t tokens => exact Nat.zero_lt_succ _
  generalize Parser.ofTokens text tokens = p at hkind hstat hbound hempty
  have hopened : p.openNode.1.log.Holds false text [.blank] [] := by
    rw [Parser.openNode, hempty]
    exact EventLog.holds_openNode false text #[]
  have hrules : p.openNode.1.bound + 1 = tokens.length + 1 := by rw [← hbound]; rfl
  obtain ⟨f, hf, hinside⟩ := Grammar.holds_block (p := p.openNode.1) hkind (by omega) hstat hopened
  refine ⟨.node .chunk f, ?_, Branch.draws_node hf (by decide)⟩
  have hmarker : p.openNode.2 = ⟨([] : List Event).length⟩ := by
    rw [Parser.openNode, hempty]
    rfl
  have hclosed := @EventLog.toList_close _ [] f hinside .chunk
  rw [← hmarker, ← hrules] at hclosed
  exact hclosed

theorem parse_of_readsStat {text : String} {tokens : List Token} {stat : Shape}
    (htokens : Lexer.tokenize text = (tokens, []))
    (hkind : Grammar.endsBlock (Parser.ofTokens text tokens).kind = false)
    (hstat : Grammar.ReadsStat (Grammar.rules (tokens.length + 1)) text
      (Parser.ofTokens text tokens) stat) :
    (parse text).errors = [] ∧ (parse text).shape Tree.root =
    .node .chunk [.node .block [stat]] := by
  obtain ⟨b, hlog, hdraws⟩ := exists_branch_chunk hkind hstat
  have hparse : parse text = Tree.ofLog text
      (Grammar.chunk (Parser.ofTokens text tokens)).log [] := by
    rw [parse, htokens]
  rw [hparse]
  refine ⟨Tree.errors_ofLog hdraws.proper hdraws.faultless hlog _, ?_⟩
  exact (Tree.shape_ofLog hdraws.proper hlog _ _).trans hdraws.shape_eq

end LuaAnalysis.Syntax
