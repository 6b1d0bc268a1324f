import LuaAnalysis.Proofs.Syntax.Places

/-!
What the operations of the code reader do to the log and to the pieces it has before it. A stretch
of the log is known by the rows that the nodes side by side in it may make up.
-/

namespace LuaAnalysis.Syntax

open Computability

def Forest.Follows (f : Forest) : Option Branch → Language NodeKind → Prop
  | none, row => f.Places row
  | some b, row => ∃ rest, b.Places b.kind.production ∧ f.Places rest ∧ b.kind.one * rest ≤ row

namespace Forest.Follows

variable {f g : Forest} {first : Option Branch} {l m : Language NodeKind}

theorem append (h : f.Follows first l) (hg : g.Places m) : (f.append g).Follows first (l * m) := by
  cases first with
  | none => exact Places.append h hg
  | some b =>
    obtain ⟨rest, hb, hf, hrow⟩ := h
    refine ⟨rest * m, hb, hf.append hg, ?_⟩
    rw [← mul_assoc]
    exact mul_le_mul_left hrow m

end Forest.Follows

namespace Parser

def ahead (p : Parser) : List Piece := Piece.ofTokens (p.pending ++ p.current :: p.rest)

def EndsText (tokens : List Token) : Prop := ∃ ts e, tokens = ts ++ [e] ∧ e.kind = .eof ∧
    ∀ t ∈ ts, t.kind ≠ .eof

structure Valid (p : Parser) : Prop where
  pending : ∀ t ∈ p.pending, t.kind.isTrivia = true
  current : p.current.kind.isTrivia = false
  ends : EndsText (p.current :: p.rest)
  comments : ∀ span, .comment span ∈ p.ahead → IsComment p.text span

/-- From one place to a later one, with items for the pieces between them. -/
structure Passes (p : Parser) (items : List Item) (q : Parser) : Prop where
  valid : q.Valid
  text_eq : q.text = p.text
  bound_eq : q.bound = p.bound
  ahead_eq : ∃ taken, p.ahead = taken ++ q.ahead ∧ Matches p.text items taken

variable {p q r : Parser}

theorem Passes.refl (hp : p.Valid) : Passes p [] p := ⟨hp, rfl, rfl, [], rfl, .nil⟩

theorem Passes.trans {xs ys : List Item} (h : Passes p xs q) (h' : Passes q ys r) :
    Passes p (xs ++ ys) r := by
  obtain ⟨taken, hahead, hmatches⟩ := h.ahead_eq
  obtain ⟨taken', hahead', hmatches'⟩ := h'.ahead_eq
  refine ⟨h'.valid, h'.text_eq.trans h.text_eq, h'.bound_eq.trans h.bound_eq,
    taken ++ taken', ?_, ?_⟩
  · rw [hahead, hahead', List.append_assoc]
  · exact hmatches.append (h.text_eq ▸ hmatches')

theorem Valid.withLog (hp : p.Valid) (log : EventLog) : Valid { p with log := log } :=
  ⟨hp.pending, hp.current, hp.ends, hp.comments⟩

theorem Passes.withLog {items : List Item} (h : Passes p items q) (log : EventLog) :
    Passes p items { q with log := log } :=
  ⟨h.valid.withLog log, h.text_eq, h.bound_eq, h.ahead_eq⟩

theorem Passes.ofLog {items : List Item} {log : EventLog}
    (h : Passes { p with log := log } items q) : Passes p items q :=
  ⟨h.valid, h.text_eq, h.bound_eq, h.ahead_eq⟩

/-- A balanced stretch of the log with nodes that stand where they may, and with items for the
pieces between two places. -/
def Adds (p : Parser) (row : Language NodeKind) (q : Parser) : Prop :=
  ∃ f : Forest, f.Places row ∧ q.log.toList = p.log.toList ++ f.encode ∧ Passes p f.items q

def AddsNode (p : Parser) (row last : Language NodeKind) (c : ClosedNode) (q : Parser) : Prop :=
  ∃ (f : Forest) (b : Branch), f.Places row ∧ b.Places b.kind.production ∧ [b.kind] ∈ last ∧
    q.log.toList = p.log.toList ++ f.encode ++ b.encode false ∧
    c.position = (p.log.toList ++ f.encode).length + b.front.length ∧
    Passes p (f.items ++ b.items) q

def leadEvents (first : Option Branch) : List Event := (first.map (·.encode true)).getD []

def leadItems (first : Option Branch) : List Item := (first.map (·.items)).getD []

/-- A balanced stretch with an open node behind it, alone or around a closed one, and with the rows
`inner` in it. -/
def Opened (p : Parser) (row : Language NodeKind) (m : Marker) (inner : Language NodeKind)
    (q : Parser) : Prop :=
  ∃ (f : Forest) (first : Option Branch) (g : Forest), f.Places row ∧ g.Follows first inner ∧
    q.log.toList = p.log.toList ++ f.encode ++ leadEvents first ++ .blank :: g.encode ∧
    m = ⟨(p.log.toList ++ f.encode ++ leadEvents first).length⟩ ∧
    Passes p (f.items ++ leadItems first ++ g.items) q

variable {m : Marker} {c : ClosedNode} {row row' last inner inner' : Language NodeKind}
  {kind : NodeKind}

theorem Adds.refl (hp : p.Valid) : Adds p 1 p :=
  ⟨.nil, Forest.places_nil, by simp [Forest.encode], .refl hp⟩

theorem Adds.passes (h : Adds p row q) : ∃ items, Passes p items q := by
  obtain ⟨f, -, -, hpasses⟩ := h
  exact ⟨_, hpasses⟩

theorem Adds.valid (h : Adds p row q) : q.Valid := h.passes.choose_spec.valid

theorem Adds.mono (h : Adds p row q) (hle : row ≤ row') : Adds p row' q := by
  obtain ⟨f, hf, hlog, hpasses⟩ := h
  exact ⟨f, hf.mono hle, hlog, hpasses⟩

theorem Adds.trans (h : Adds p row q) (h' : Adds q inner r) : Adds p (row * inner) r := by
  obtain ⟨f, hf, hlog, hpasses⟩ := h
  obtain ⟨g, hg, hlog', hpasses'⟩ := h'
  refine ⟨f.append g, hf.append hg, ?_, ?_⟩
  · rw [hlog', hlog, Forest.encode_append, List.append_assoc]
  · rw [Forest.items_append]
    exact hpasses.trans hpasses'

theorem Adds.more (h : Adds p row q) (h' : Adds q 1 r) : Adds p row r := by
  simpa using h.trans h'

theorem Adds.skip (h : Adds p row q) : Adds p (row * NodeKind.maybe inner) q :=
  h.mono ((mul_one row).ge.trans (mul_le_mul_right NodeKind.one_le_maybe row))

theorem Adds.none (h : Adds p row q) : Adds p (row * inner∗) q :=
  h.mono ((mul_one row).ge.trans (mul_le_mul_right one_le_kstar row))

theorem Adds.join (h : Adds p (row * inner∗ * row') q) (hle : row' ≤ inner∗) :
    Adds p (row * inner∗) q := by
  rw [mul_assoc] at h
  exact h.mono (mul_le_mul_right (NodeKind.mul_le_kstar le_rfl hle) row)

theorem Adds.of_eq {α : Type} {x : Parser × α} {a : α} (h : Adds p row x.1) (hx : x = (q, a)) :
    Adds p row q := by
  rwa [hx] at h

theorem AddsNode.adds (h : AddsNode p row last c q) : Adds p (row * last) q := by
  obtain ⟨f, b, hf, hb, hlast, hlog, -, hpasses⟩ := h
  refine ⟨.branch f b, hf.branch hb hlast, ?_, ?_⟩
  · rw [hlog, Forest.encode, List.append_assoc]
  · rw [Forest.items]
    exact hpasses

theorem AddsNode.mono (h : AddsNode p row last c q) {last' : Language NodeKind}
    (hle : last ≤ last') : AddsNode p row last' c q := by
  obtain ⟨f, b, hf, hb, hlast, hrest⟩ := h
  exact ⟨f, b, hf, hb, hle hlast, hrest⟩

theorem Opened.adds (h : Opened p row m inner q) (h' : Adds q inner' r) :
    Opened p row m (inner * inner') r := by
  obtain ⟨f, first, g, hf, hg, hlog, hm, hpasses⟩ := h
  obtain ⟨g', hg', hlog', hpasses'⟩ := h'
  refine ⟨f, first, g.append g', hf, hg.append hg', ?_, hm, ?_⟩
  · rw [hlog', hlog, Forest.encode_append]
    simp
  · rw [Forest.items_append, ← List.append_assoc]
    exact hpasses.trans hpasses'

theorem Opened.more (h : Opened p row m inner q) (h' : Adds q 1 r) : Opened p row m inner r := by
  simpa using h.adds h'

theorem Opened.fill (h : Opened p row m 1 q) (h' : Adds q inner r) : Opened p row m inner r := by
  simpa using h.adds h'

theorem Opened.valid (h : Opened p row m inner q) : q.Valid := by
  obtain ⟨f, first, g, -, -, -, -, hpasses⟩ := h
  exact hpasses.valid

theorem Opened.inside (h : Opened p row m inner q) : Adds q 1 q := .refl h.valid

theorem opened_openNode (h : Adds p row q) : Opened p row q.openNode.2 1 q.openNode.1 := by
  obtain ⟨f, hf, hlog, hpasses⟩ := h
  refine ⟨f, none, .nil, hf, Forest.places_nil, ?_, ?_, ?_⟩
  · simp [openNode, EventLog.toList_openNode, hlog, leadEvents, Forest.encode]
  · rw [Marker.mk.injEq, openNode, EventLog.position_openNode, ← Array.length_toList, hlog]
    simp [leadEvents]
  · have hnode : Passes p f.items q.openNode.1 := hpasses.withLog _
    simpa [leadItems, Forest.items] using hnode

theorem opened_wrap (h : AddsNode p row last c q) :
    Opened p row (q.wrap c).2 last (q.wrap c).1 := by
  obtain ⟨f, b, hf, hb, hlast, hlog, hposition, hpasses⟩ := h
  have hclosed : c = ⟨(p.log.toList ++ f.encode).length + b.front.length⟩ := by rw [← hposition]
  have hone : b.kind.one ≤ last := by
    rintro _ ⟨kind, hkind, rfl⟩
    rwa [beq_iff_eq.1 hkind]
  refine ⟨f, some b, .nil, hf, ⟨1, hb, Forest.places_nil, by rwa [mul_one]⟩, ?_, ?_, ?_⟩
  · rw [wrap, hclosed, EventLog.toList_wrap hlog]
    simp [leadEvents, Forest.encode]
  · rw [Marker.mk.injEq, wrap, EventLog.position_wrap hlog c]
    rfl
  · have hnode : Passes p (f.items ++ b.items) (q.wrap c).1 := hpasses.withLog _
    simpa [leadItems, Forest.items] using hnode

theorem Opened.close (h : Opened p row m inner q) (kind : NodeKind)
    (hkind : kind ≠ .absent ∧ kind ≠ .comment) (hinner : inner ≤ kind.production) :
    AddsNode p row kind.one (q.close m kind).2 (q.close m kind).1 := by
  obtain ⟨f, first, g, hf, hg, hlog, rfl, hpasses⟩ := h
  cases first with
  | none =>
    simp only [leadEvents, leadItems, Option.map_none, Option.getD_none,
      List.append_nil] at hlog hpasses ⊢
    refine ⟨f, .node kind g, hf, (Forest.Places.mono hg hinner).node hkind, kind.mem_one,
      EventLog.toList_close hlog kind, rfl, ?_⟩
    rw [Branch.items, if_neg hkind.2]
    exact hpasses.withLog _
  | some b =>
    simp only [leadEvents, leadItems, Option.map_some, Option.getD_some] at hlog hpasses ⊢
    obtain ⟨rest, hb, hrest, hrow⟩ := hg
    have hnode := (Forest.Places.around hb b.kind.mem_one hrest hkind).mono (hrow.trans hinner)
    refine ⟨f, .around b kind g, hf, hnode, kind.mem_one,
      EventLog.toList_close_around hlog kind, ?_, ?_⟩
    · simp only [Parser.close, EventLog.close, Branch.front, List.length_append]
    · rw [Branch.items, ← List.append_assoc]
      exact hpasses.withLog _

theorem Opened.finish (h : Opened p row m inner q) (kind : NodeKind)
    (hkind : kind ≠ .absent ∧ kind ≠ .comment) (hinner : inner ≤ kind.production) :
    Adds p (row * kind.one) (q.finish m kind) := (h.close kind hkind hinner).adds

theorem Opened.close_expr (h : Opened p row m inner q) (hkind : kind.isExpr = true)
    (hinner : inner ≤ kind.production) :
    AddsNode p row NodeKind.expr (q.close m kind).2 (q.close m kind).1 := by
  refine (h.close kind ⟨?_, ?_⟩ hinner).mono (NodeKind.one_le_oneOf hkind)
  · rintro rfl
    cases hkind
  · rintro rfl
    cases hkind

theorem adds_abandon (h : Adds p.openNode.1 row q) : Adds p row (q.abandon p.openNode.2) := by
  obtain ⟨f, hf, hlog, hpasses⟩ := h
  have hblank : q.log.toList = p.log.toList ++ .blank :: f.encode := by
    rw [hlog, openNode, EventLog.toList_openNode, List.append_assoc]
    rfl
  have hmarker : p.openNode.2 = ⟨p.log.toList.length⟩ := by
    rw [Marker.mk.injEq, openNode, EventLog.position_openNode, Array.length_toList]
  by_cases hempty : f.encode = []
  · refine ⟨f, hf, ?_, hpasses.ofLog.withLog _⟩
    have hsize : q.log.size = p.log.toList.length + 1 := by
      rw [← Array.length_toList, hblank, hempty, List.length_append]; rfl
    simp [abandon, EventLog.abandon, hmarker, hsize, hblank, hempty]
  · obtain ⟨events, e, he⟩ : ∃ events e, f.encode = events ++ [e] :=
      ⟨_, _, (List.dropLast_append_getLast hempty).symm⟩
    have hkept := EventLog.toList_abandon (he ▸ hblank)
    refine ⟨(Forest.blank .nil).append f, ?_, ?_, ?_⟩
    · simpa using Forest.places_blank.append hf
    · rw [abandon, hmarker, hkept, hblank, Forest.encode_append]
      rfl
    · rw [Forest.items_append]
      exact hpasses.ofLog.withLog _

def Writes (p : Parser) (pieces : List Piece) (q : Parser) : Prop :=
  ∃ f : Forest, f.Comments ∧ q = { p with log := q.log } ∧ q.log.toList = p.log.toList ++ f.encode ∧
    Matches p.text f.items pieces

/-- The events of a comment node with the comments `spans` in it. -/
def CommentNode (text : String) (spans : List Span) (events : List Event) : Prop :=
  ∃ f : Forest, f.Proper true ∧ CoversLines text spans f.leaves ∧
    events = (Branch.node .comment f).encode false

theorem comment_forest {spans : List Span} (hspans : ∀ s ∈ spans, IsComment p.text s) :
    p.comment spans = { p with log := (p.comment spans).log } ∧
      ∃ f : Forest, f.Annotates ∧ CoversLines p.text spans f.leaves ∧
        (p.comment spans).log.toList = p.log.toList ++ (Branch.node .comment f).encode false := by
  obtain ⟨f, hf, hlog, hcovers⟩ := Doc.parseComments_spec hspans p.openNode.1.log
  have hblank : (Doc.parseComments p.text spans p.openNode.1.log).toList = p.log.toList ++ .blank ::
      f.encode := by
    rw [hlog, openNode, EventLog.toList_openNode, List.append_assoc]
    rfl
  have hmarker : p.openNode.2 = ⟨p.log.toList.length⟩ := by
    rw [Marker.mk.injEq, openNode, EventLog.position_openNode, Array.length_toList]
  have hcomment : p.comment spans =
      { p with log :=
        (EventLog.close (Doc.parseComments p.text spans p.openNode.1.log) p.openNode.2 .comment).1
          } := rfl
  rw [hcomment, hmarker]
  exact ⟨rfl, f, hf, hcovers, EventLog.toList_close hblank .comment⟩

theorem comment_spec {spans : List Span} (hspans : ∀ s ∈ spans, IsComment p.text s) :
    p.comment spans = { p with log := (p.comment spans).log } ∧
      ∃ events, CommentNode p.text spans events ∧
      (p.comment spans).log.toList = p.log.toList ++ events := by
  obtain ⟨hq, f, hf, hcovers, hlog⟩ := comment_forest hspans
  exact ⟨hq, _, ⟨f, Forest.proper_of_annotates f hf, hcovers, rfl⟩, hlog⟩

theorem writes_comment {spans : List Span} (hspans : ∀ s ∈ spans, IsComment p.text s) :
    Writes p (spans.map .comment) (p.comment spans) := by
  obtain ⟨hq, f, hf, hcovers, hlog⟩ := comment_forest hspans
  refine ⟨.branch .nil (.node .comment f), .comment .nil hf, hq, ?_, ?_⟩
  · simpa [Forest.encode] using hlog
  · simpa [Forest.items, Branch.items] using Matches.comment hcovers .nil

theorem Writes.trans {ps qs : List Piece} (h : Writes p ps q) (h' : Writes q qs r) :
    Writes p (ps ++ qs) r := by
  obtain ⟨f, hf, hq, hlog, hmatches⟩ := h
  obtain ⟨g, hg, hr, hlog', hmatches'⟩ := h'
  refine ⟨f.append g, hf.append hg, ?_, ?_, ?_⟩
  · rw [hr, hq]
  · rw [hlog', hlog, Forest.encode_append, List.append_assoc]
  · rw [Forest.items_append]
    rw [hq] at hmatches'
    exact hmatches.append hmatches'

theorem Writes.refl (p : Parser) : Writes p [] p :=
  ⟨.nil, .nil, rfl, by simp [Forest.encode], by simpa [Forest.items] using .nil⟩

theorem writes_comments {groups : List CommentGroup}
    (hgroups : ∀ s ∈ groups.flatMap (·.spans), IsComment p.text s) :
    Writes p ((groups.flatMap (·.spans)).map .comment) (p.comments groups) := by
  induction groups generalizing p with
  | nil => exact .refl p
  | cons g groups ih =>
    rw [List.flatMap_cons, List.forall_mem_append] at hgroups
    have hfirst := writes_comment hgroups.1
    have htext : (p.comment g.spans).text = p.text := rfl
    rw [List.flatMap_cons, List.map_append]
    exact hfirst.trans (ih (htext ▸ hgroups.2))

theorem adds_report (h : Adds p row q) (fault : Fault) : Adds p row (q.report fault) := by
  refine h.more ⟨.fault .nil fault q.current.span, Forest.places_fault _ _, ?_,
    (Passes.refl h.valid).withLog _⟩
  simp [report, EventLog.toList_report, Forest.encode]

theorem passes_comments {items : List Item} {pieces : List Piece} {pending : List Token}
    (hp : p.Valid) (hpending : ∀ t ∈ pending, t.kind.isTrivia = true)
    (hpieces : Piece.ofTokens p.pending = pieces ++ Piece.ofTokens pending)
    (hq : q = { p with pending := pending, log := q.log }) (h : Matches p.text items pieces) :
    Passes p items q := by
  have hahead : p.ahead = pieces ++ q.ahead := by
    rw [hq, ahead, ahead, Piece.ofTokens_append, Piece.ofTokens_append, hpieces, List.append_assoc]
  refine ⟨⟨?_, ?_, ?_, fun span hspan => ?_⟩, ?_, ?_, pieces, hahead, h⟩
  · rw [hq]
    exact hpending
  · rw [hq]
    exact hp.current
  · rw [hq]
    exact hp.ends
  · have hcomment := hp.comments span (by rw [hahead]; exact List.mem_append_right _ hspan)
    rw [hq]
    exact hcomment
  · rw [hq]
  · rw [hq]

theorem Writes.adds {pieces : List Piece} {pending : List Token} (hp : p.Valid)
    (hpending : ∀ t ∈ pending, t.kind.isTrivia = true)
    (hpieces : Piece.ofTokens p.pending = pieces ++ Piece.ofTokens pending)
    (h : Writes { p with pending := pending } pieces q) : Adds p 1 q := by
  obtain ⟨f, hf, hq, hlog, hmatches⟩ := h
  exact ⟨f, hf.places, hlog, passes_comments hp hpending hpieces hq hmatches⟩

theorem comments_pending (hp : p.Valid) {span : Span}
    (h : Piece.comment span ∈ Piece.ofTokens p.pending) : IsComment p.text span := by
  refine hp.comments span ?_
  rw [ahead, Piece.ofTokens_append]
  exact List.mem_append_left _ h

theorem isComment_group (hp : p.Valid) {g : CommentGroup}
    (hg : g ∈ CommentGroup.ofTrivia p.pending) : ∀ s ∈ g.spans, IsComment p.text s := by
  intro s hs
  refine comments_pending hp ?_
  rw [← CommentGroup.spans_ofTrivia hp.pending]
  exact List.mem_map_of_mem (List.mem_flatMap.2 ⟨g, hg, hs⟩)

theorem writes_groups (hp : p.Valid) {groups : List CommentGroup}
    (hgroups : ∀ g ∈ groups, g ∈ CommentGroup.ofTrivia p.pending) :
    Writes { p with pending := [] } ((groups.flatMap (·.spans)).map .comment)
    (comments { p with pending := [] } groups) := by
  refine writes_comments fun s hs => ?_
  obtain ⟨g, hg, hs⟩ := List.mem_flatMap.1 hs
  exact isComment_group hp (hgroups g hg) s hs

theorem flushComments_spec (hp : p.Valid) : Adds p 1 p.flushComments ∧
    p.flushComments.pending = [] ∧
    p.flushComments.current = p.current ∧ p.flushComments.rest = p.rest := by
  have hspans := CommentGroup.spans_ofTrivia hp.pending
  have hwrites := writes_groups hp fun _ => id
  have hnone : ∀ t ∈ ([] : List Token), t.kind.isTrivia = true := by simp
  refine ⟨Writes.adds hp hnone ?_ hwrites, ?_⟩
  · rw [Piece.ofTokens_nil, List.append_nil, hspans]
  · obtain ⟨-, -, hq, -⟩ := hwrites
    have hflush : p.flushComments = { p with pending := [], log := p.flushComments.log } := hq
    rw [hflush]
    exact ⟨rfl, rfl, rfl⟩

theorem EndsText.eq_nil {t : Token} {ts : List Token} (h : EndsText (t :: ts))
    (ht : t.kind = .eof) : ts = [] := by
  obtain ⟨front, e, htokens, -, hfront⟩ := h
  cases front with
  | nil => exact (List.cons.inj htokens).2
  | cons y ys =>
    obtain ⟨rfl, -⟩ := List.cons.inj htokens
    exact absurd ht (hfront _ (by simp))

theorem ahead_flushComments (hp : p.Valid) (heof : p.kind = .eof) : p.flushComments.ahead = [] := by
  obtain ⟨-, hpending, hcurrent, hrest⟩ := flushComments_spec hp
  have hkind : p.current.kind = .eof := heof
  rw [ahead, hpending, hcurrent, hrest, hp.ends.eq_nil heof]
  simp [Piece.ofTokens, Piece.ofToken?, hkind, TokenKind.isComment]

theorem EndsText.of_append {xs ys : List Token} {y : Token} (h : EndsText (xs ++ y :: ys)) :
    EndsText (y :: ys) := by
  obtain ⟨ts, e, htokens, he, hts⟩ := h
  have hlast := List.dropLast_append_getLast (List.cons_ne_nil y ys)
  rw [← hlast, ← List.append_assoc] at htokens
  obtain ⟨hfront, hend⟩ := List.append_inj' htokens rfl
  refine ⟨(y :: ys).dropLast, e, ?_, he, fun t ht => hts t ?_⟩
  · rw [← List.singleton_inj.1 hend, hlast]
  · rw [← hfront]
    exact List.mem_append_right _ ht

theorem EndsText.behind {t : Token} {ts : List Token} (h : EndsText (t :: ts))
    (ht : t.kind ≠ .eof) : EndsText ts := by
  cases ts with
  | nil =>
    obtain ⟨ts, e, htokens, he, -⟩ := h
    cases ts with
    | nil => exact absurd (List.singleton_inj.1 htokens ▸ he) ht
    | cons => simp at htokens
  | cons y ys =>
    have hsplit : EndsText ([t] ++ y :: ys) := h
    exact hsplit.of_append

theorem EndsText.exists_code {tokens : List Token} (h : EndsText tokens) :
    ∃ t ∈ tokens, t.kind.isTrivia = false := by
  obtain ⟨ts, e, rfl, he, -⟩ := h
  exact ⟨e, by simp, by rw [he]; rfl⟩

theorem advance_spec (e : Token) {tokens : List Token} (h : EndsText tokens) :
    (advance e tokens).1 ++ (advance e tokens).2.1 :: (advance e tokens).2.2 = tokens ∧
      (∀ t ∈ (advance e tokens).1, t.kind.isTrivia = true) ∧
      (advance e tokens).2.1.kind.isTrivia = false := by
  have hsplit := List.takeWhile_append_dropWhile (p := fun t : Token => t.kind.isTrivia)
    (l := tokens)
  have htrivia : ∀ t ∈ tokens.takeWhile fun t => t.kind.isTrivia, t.kind.isTrivia = true :=
    fun t ht => List.mem_takeWhile_imp (p := fun t : Token => t.kind.isTrivia) ht
  unfold advance
  rw [List.span_eq_takeWhile_dropWhile]
  cases hrest : tokens.dropWhile fun t => t.kind.isTrivia with
  | nil =>
    obtain ⟨t, ht, hcode⟩ := h.exists_code
    rw [List.dropWhile_eq_nil_iff] at hrest
    simp [hrest t ht] at hcode
  | cons t rest =>
    rw [hrest] at hsplit
    have hcode := List.head?_dropWhile_not (fun t : Token => t.kind.isTrivia) tokens
    rw [hrest] at hcode
    exact ⟨hsplit, htrivia, by simpa using hcode⟩

def codes (p : Parser) : Nat := p.ahead.countP Piece.isCode

theorem Passes.codes_le {items : List Item} (h : Passes p items q) : q.codes ≤ p.codes := by
  obtain ⟨taken, hahead, -⟩ := h.ahead_eq
  rw [codes, codes, hahead, List.countP_append]
  omega

theorem Adds.codes_le (h : Adds p row q) : q.codes ≤ p.codes := h.passes.choose_spec.codes_le

theorem Opened.codes_le (h : Opened p row m inner q) : q.codes ≤ p.codes := by
  obtain ⟨f, first, g, -, -, -, -, hpasses⟩ := h
  exact hpasses.codes_le

theorem bump_spec (hp : p.Valid) (hkind : p.kind ≠ .eof) : Adds p 1 p.bump ∧
    p.bump.codes < p.codes := by
  obtain ⟨hflush, hpending, hcurrent, hrest⟩ := flushComments_spec hp
  have hbehind := hp.ends.behind hkind
  obtain ⟨hsplit, htrivia, hcode⟩ :=
    advance_spec ⟨.eof, .empty p.flushComments.text.utf8ByteSize⟩ hbehind
  generalize hnext : advance ⟨.eof, .empty p.flushComments.text.utf8ByteSize⟩ p.rest =
    next at hsplit htrivia hcode
  have hbump : p.bump = { p.flushComments with
      log := p.flushComments.log.push (.token p.current.kind p.current.span)
      pending := next.1
      current := next.2.1
      rest := next.2.2 } := by
    simp [bump, sees, hkind, hcurrent, hrest, hnext]
  have hflushed : p.flushComments.ahead = .code p.current :: p.bump.ahead := by
    rw [hbump, ahead, ahead, hpending, hcurrent, hrest, hsplit, List.nil_append,
      Piece.ofTokens_cons_code hp.current hkind]
  refine ⟨hflush.more ⟨.token .nil p.current.kind p.current.span,
    Forest.places_token _ _, ?_, ?_⟩, ?_⟩
  · simp [hbump, Forest.encode]
  · refine ⟨⟨?_, ?_, ?_, fun span hspan => ?_⟩, ?_, ?_, [.code p.current], hflushed, .code _ .nil⟩
    · rw [hbump]
      exact htrivia
    · rw [hbump]
      exact hcode
    · rw [hbump]
      exact (hsplit ▸ hbehind).of_append
    · have hcomment :=
        hflush.valid.comments span (by rw [hflushed]; exact List.mem_cons_of_mem _ hspan)
      rw [hbump]
      exact hcomment
    · rw [hbump]
    · rw [hbump]
  · have hle := hflush.codes_le
    rw [codes, hflushed, List.countP_cons_of_pos rfl] at hle
    exact hle

theorem adds_bump (h : Adds p row q) : Adds p row q.bump := by
  by_cases hkind : q.kind = .eof
  · have hbump : q.bump = q := by simp [bump, sees, hkind]
    rwa [hbump]
  · exact h.more (bump_spec h.valid hkind).1

theorem adds_eat (h : Adds p row q) (kind : TokenKind) : Adds p row (q.eat kind).1 := by
  unfold eat
  split
  · exact adds_bump h
  · exact h

theorem adds_expect (h : Adds p row q) (kind : TokenKind) : Adds p row (q.expect kind).1 := by
  unfold expect
  split
  · exact adds_bump h
  · exact adds_report h _

theorem adds_need (h : Adds p row q) (kind : TokenKind) : Adds p row (q.need kind) :=
  adds_expect h kind

theorem adds_flushComments (h : Adds p row q) : Adds p row q.flushComments :=
  h.more (flushComments_spec h.valid).1

theorem trailingComment_writes (hq : q.Valid) : ∃ r pieces pending, Writes q pieces r ∧
    q.trailingComment = { r with pending := pending } ∧ (∀ t ∈ pending, t.kind.isTrivia = true) ∧
    Piece.ofTokens q.pending = pieces ++ Piece.ofTokens pending := by
  have hsplit := List.takeWhile_append_dropWhile (p := fun t : Token => t.kind == .whitespace)
    (l := q.pending)
  have hblanks : Piece.ofTokens (q.pending.takeWhile fun t => t.kind == .whitespace) = [] := by
    refine List.filterMap_eq_nil_iff.2 fun t ht => ?_
    have hkind : t.kind = .whitespace := by
      simpa using List.mem_takeWhile_imp (p := fun t : Token => t.kind == .whitespace) ht
    simp [Piece.ofToken?, hkind, TokenKind.isComment, TokenKind.isTrivia]
  unfold trailingComment
  split
  · rename_i t pending hdrop
    rw [hdrop] at hsplit
    split
    · rename_i hcomment
      have hpieces : Piece.ofTokens q.pending = [t.span].map .comment ++
          Piece.ofTokens pending := by
        rw [← hsplit, Piece.ofTokens_append, hblanks, Piece.ofTokens_cons_comment hcomment]
        rfl
      have hpending : ∀ t ∈ pending, t.kind.isTrivia = true := fun u hu =>
        hq.pending u (by rw [← hsplit]; simp [hu])
      have hspan : ∀ s ∈ [t.span], IsComment q.text s := by
        intro s hs
        refine comments_pending hq ?_
        rw [hpieces, List.mem_singleton.1 hs]
        simp
      exact ⟨_, _, pending, writes_comment hspan, rfl, hpending, hpieces⟩
    · exact ⟨q, [], q.pending, .refl q, rfl, hq.pending, rfl⟩
  · exact ⟨q, [], q.pending, .refl q, rfl, hq.pending, rfl⟩

theorem adds_trailingComment (h : Adds p row q) : Adds p row q.trailingComment := by
  obtain ⟨r, pieces, pending, ⟨f, hf, hr, hlog, hmatches⟩, htrailing, hpending, hpieces⟩ :=
    trailingComment_writes h.valid
  have hall : q.trailingComment = { q with pending := pending, log := q.trailingComment.log } := by
    rw [htrailing, hr]
  refine h.more ⟨f, hf.places, ?_, passes_comments h.valid hpending hpieces hall hmatches⟩
  rw [htrailing]
  exact hlog

theorem leadingComments_spec (hp : p.Valid) :
    ∃ pieces spans, Writes { p with pending := [] } pieces p.leadingComments.1 ∧
    p.leadingComments.2.getD [] = spans ∧ Piece.ofTokens p.pending = pieces ++
    spans.map .comment := by
  have hspans := CommentGroup.spans_ofTrivia hp.pending
  unfold leadingComments
  dsimp only
  cases hlast : (CommentGroup.ofTrivia p.pending).getLast? with
  | none =>
    rw [List.getLast?_eq_none_iff.1 hlast] at hspans
    exact ⟨[], [], .refl _, rfl, by simpa using hspans.symm⟩
  | some last =>
    obtain ⟨front, hgroups⟩ := List.getLast?_eq_some_iff.1 hlast
    dsimp only
    split
    · refine ⟨_, last.spans, writes_groups hp fun _ hg => List.dropLast_subset _ hg, rfl, ?_⟩
      rw [← hspans, hgroups]
      simp
    · exact ⟨_, [], writes_groups hp fun _ => id, rfl, by rw [hspans]; simp⟩

theorem openDocumented_writes (hp : p.Valid) : ∃ (pieces : List Piece) (spans : List Span),
    Writes { p with pending := [] } pieces p.leadingComments.1 ∧
    Writes p.leadingComments.1.openNode.1 (spans.map .comment) p.openDocumented.1 ∧
    p.openDocumented.2 = p.leadingComments.1.openNode.2 ∧
    Piece.ofTokens p.pending = pieces ++ spans.map .comment := by
  obtain ⟨pieces, spans, hbefore, hdoc, hpieces⟩ := leadingComments_spec hp
  have hbeside : p.leadingComments.1 =
      { p with pending := [], log := p.leadingComments.1.log } := by
    obtain ⟨-, -, hq, -⟩ := hbefore
    exact hq
  have hspans : ∀ s ∈ spans, IsComment p.leadingComments.1.openNode.1.text s := by
    intro s hs
    rw [openNode, hbeside]
    refine comments_pending hp ?_
    rw [hpieces]
    exact List.mem_append_right _ (List.mem_map_of_mem hs)
  refine ⟨pieces, spans, hbefore, ?_⟩
  unfold openDocumented
  dsimp only
  split
  · rename_i doc hsome
    rw [hsome] at hdoc
    subst hdoc
    exact ⟨writes_comment hspans, rfl, hpieces⟩
  · rename_i hnone
    rw [hnone] at hdoc
    subst hdoc
    exact ⟨.refl _, rfl, hpieces⟩

theorem opened_openDocumented (hp : p.Valid) : Opened p 1 p.openDocumented.2 1 p.openDocumented.1 ∧
    p.openDocumented.1.current = p.current := by
  obtain ⟨pieces, spans, ⟨f, hf, hbeside, hlog, hmatches⟩, ⟨g, hg, hdocumented, hlog', hmatches'⟩,
      hmarker, hpieces⟩ :=
    openDocumented_writes hp
  have hq : p.openDocumented.1 = { p with pending := [], log := p.openDocumented.1.log } := by
    rw [hdocumented, openNode, hbeside]
  refine ⟨⟨f, none, g, hf.places, hg.places, ?_, ?_, ?_⟩, by rw [hq]⟩
  · rw [hlog', openNode, EventLog.toList_openNode, hlog]
    simp [leadEvents]
  · rw [hmarker, Marker.mk.injEq, openNode, EventLog.position_openNode, ← Array.length_toList, hlog]
    simp [leadEvents]
  · have hnone : ∀ t ∈ ([] : List Token), t.kind.isTrivia = true := by simp
    have htext : p.leadingComments.1.openNode.1.text = p.text := by rw [openNode, hbeside]
    rw [htext] at hmatches'
    have hall : Piece.ofTokens p.pending = (pieces ++ spans.map .comment) ++ Piece.ofTokens [] := by
      rw [hpieces]
      simp
    exact passes_comments hp hnone hall hq (by simpa [leadItems] using hmatches.append hmatches')

theorem repeatWhile_keeps {σ : Type} {step : σ → σ × Bool} {I : σ → Prop}
    (hstep : ∀ s, I s → I (step s).1) (n : Nat) {s : σ} (hs : I s) : I (repeatWhile step n s) := by
  induction n generalizing s with
  | zero => exact hs
  | succ n ih =>
    have hnext := hstep s hs
    rw [repeatWhile]
    split
    · rename_i t heq
      rw [heq] at hnext
      exact ih hnext
    · rename_i t heq
      rw [heq] at hnext
      exact hnext

theorem adds_commaSeparated {item : Parser → Parser}
    (hitem : ∀ q, Adds p (row * inner∗) q → Adds p (row * inner∗) (item q)) (h : Adds p row q) :
    Adds p (row * inner∗) (commaSeparated item q) :=
  repeatWhile_keeps (fun s hs => adds_eat (hitem s hs) _) _ h.none

end Parser

end LuaAnalysis.Syntax
