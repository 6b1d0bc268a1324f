import Mathlib.Data.List.DropRight
import Mathlib.Data.List.SplitBy
import LuaAnalysis.Proofs.Syntax.Lossless

/-!
Which comments document the statement or the table field behind them. The reader collects groups of
comments in one pass; told without it, the comments are cut wherever more than one blank line stands
between two of them, and the last run documents what follows unless such a gap is behind it.
-/

namespace LuaAnalysis.Syntax

namespace CommentGroup

/-- The line breaks in front of the first comment. -/
def lineBreaks (trivia : List Token) : Nat :=
  (trivia.takeWhile fun t => !t.kind.isComment).countP fun t => t.kind == .endOfLine

/-- The comments among trivia, each with the number of line breaks between it and the next one or
the end. -/
def spaced : List Token → List (Span × Nat)
  | [] => []
  | t :: ts => if t.kind.isComment then (t.span, lineBreaks ts) :: spaced ts else spaced ts

/-- At most one blank line stands behind a comment. -/
def isNear (c : Span × Nat) : Bool := c.2 ≤ 2

/-- The longest runs of comments that are near each other. -/
def runs (comments : List (Span × Nat)) : List (List (Span × Nat)) :=
  comments.splitBy fun c _ => isNear c

def ofRun (run : List (Span × Nat)) : CommentGroup :=
  ⟨run.map (·.1), (run.getLast?.map (·.2)).getD 0⟩

/-- The comments that document what follows: as many at the end as have at most one blank line
behind them. -/
def documenting (trivia : List Token) : List Span := ((spaced trivia).rtakeWhile isNear).map (·.1)

/-- The comments in front of those, cut where more than one blank line stands. -/
def alone (trivia : List Token) : List CommentGroup :=
  (runs ((spaced trivia).rdropWhile isNear)).map ofRun

@[simp] theorem lineBreaks_nil : lineBreaks [] = 0 := rfl

theorem lineBreaks_cons (t : Token) (ts : List Token) : lineBreaks (t :: ts) =
    if t.kind.isComment then 0 else if t.kind = .endOfLine then lineBreaks ts + 1
    else lineBreaks ts := by
  by_cases hcomment : t.kind.isComment
  · simp [lineBreaks, hcomment]
  · simp only [lineBreaks, List.takeWhile_cons, hcomment, Bool.not_false, if_true,
      List.countP_cons, beq_iff_eq]
    split <;> simp

theorem runs_near {front : List (Span × Nat)} (hfront : ∀ c ∈ front, isNear c = true)
    (c : Span × Nat) : runs (front ++ [c]) = [front ++ [c]] := by
  refine List.splitBy_of_isChain (by simp) ?_
  induction front with
  | nil => exact List.isChain_singleton c
  | cons d front ih =>
    rw [List.forall_mem_cons] at hfront
    exact List.isChain_cons.2 ⟨fun _ _ => hfront.1, ih hfront.2⟩

theorem runs_append {front : List (Span × Nat)} (hfront : ∀ c ∈ front.getLast?, isNear c = false)
    (back : List (Span × Nat)) : runs (front ++ back) = runs front ++ runs back :=
  List.splitBy_append fun c hc _ _ => hfront c hc

/-- With the comments `front` and `s` collected, of which all but the last are near, the pass goes
on to the runs. -/
theorem split_eq {front : List (Span × Nat)} (hfront : ∀ c ∈ front, isNear c = true) (s : Span)
    (breaks : Nat) (ts : List Token) : split (s :: (front.map (·.1)).reverse) breaks ts =
      (runs (front ++ (s, breaks + lineBreaks ts) :: spaced ts)).map ofRun := by
  induction ts generalizing front s breaks with
  | nil =>
    rw [spaced, runs_near hfront]
    simp [split, ofRun]
  | cons t ts ih =>
    rw [split_cons, lineBreaks_cons, spaced]
    split
    · rename_i hkind
      have hcomment : t.kind.isComment = false := by rw [hkind]; rfl
      rw [ih hfront, if_neg (by simp [hcomment]), if_neg (by simp [hcomment]), Nat.add_right_comm,
        Nat.add_assoc]
    · split
      · rename_i hcomment
        simp only [List.isEmpty_cons, Bool.not_false, Bool.true_and, decide_eq_true_eq]
        split
        · -- a run ends here, and the next one starts with nothing collected
          rename_i hfar
          have hlast : isNear (s, breaks) = false := decide_eq_false (Nat.not_le_of_lt hfar)
          have hcut : ∀ c ∈ (front ++ [(s, breaks)]).getLast?, isNear c = false := by
            simpa using hlast
          have hnext := @ih [] (by simp) t.span 0
          rw [List.map_nil, List.reverse_nil, List.nil_append, Nat.zero_add] at hnext
          rw [Nat.add_zero, List.append_cons, runs_append hcut, runs_near hfront,
            List.map_append, ← hnext]
          simp [ofRun]
        · rename_i hle
          have hnear : ∀ c ∈ front ++ [(s, breaks)], isNear c = true := by
            have hlast : isNear (s, breaks) = true := decide_eq_true (Nat.le_of_not_lt hle)
            simpa [or_imp, forall_and, hlast] using hfront
          have hnext := ih hnear t.span 0
          rw [Nat.zero_add, List.append_assoc, List.map_append, List.reverse_append] at hnext
          exact hnext
      · rename_i hcomment
        rw [ih hfront]

theorem ofTrivia_eq (trivia : List Token) : ofTrivia trivia = (runs (spaced trivia)).map ofRun := by
  have hsplit (breaks : Nat) : split [] breaks trivia = (runs (spaced trivia)).map ofRun := by
    induction trivia generalizing breaks with
    | nil => rfl
    | cons t ts ih =>
      rw [split_cons, spaced]
      split
      · rename_i hkind
        rw [ih, if_neg (by rw [hkind]; decide)]
      · split
        · have hfirst := @split_eq [] (by simp) t.span 0 ts
          rw [Nat.zero_add] at hfirst
          exact hfirst
        · exact ih breaks
  exact hsplit 0

theorem ofTrivia_split (trivia : List Token) :
    (documenting trivia = [] ∧ ofTrivia trivia = alone trivia) ∨
    documenting trivia ≠ [] ∧ ∃ breaks ≤ maxAttachedBreaks, ofTrivia trivia = alone trivia ++
    [⟨documenting trivia, breaks⟩] := by
  have hsplit := @List.rdropWhile_append_rtakeWhile _ isNear (spaced trivia)
  have hfar : ∀ c ∈ ((spaced trivia).rdropWhile isNear).getLast?, isNear c = false := by
    intro c hc
    obtain ⟨hne, rfl⟩ := List.mem_getLast?_eq_getLast hc
    exact Bool.eq_false_iff.2 (List.rdropWhile_last_not isNear _ hne)
  have hnear : ∀ c ∈ (spaced trivia).rtakeWhile isNear, isNear c = true :=
    fun c hc => List.mem_rtakeWhile_imp hc
  have hruns : ofTrivia trivia = alone trivia ++
      (runs ((spaced trivia).rtakeWhile isNear)).map ofRun := by
    rw [ofTrivia_eq, alone, ← List.map_append, ← runs_append hfar, hsplit]
  rw [hruns, documenting]
  rcases List.eq_nil_or_concat ((spaced trivia).rtakeWhile isNear) with hnil | ⟨front, c, hlast⟩
  · rw [hnil]
    exact .inl ⟨rfl, List.append_nil _⟩
  · rw [List.concat_eq_append] at hlast
    rw [hlast] at hnear ⊢
    rw [runs_near fun d hd => hnear d (List.mem_append_left _ hd)]
    have hc := hnear c (by simp)
    exact .inr ⟨by simp, c.2, of_decide_eq_true hc, by simp [ofRun]⟩

theorem mem_ofTrivia_of_alone {trivia : List Token} {g : CommentGroup} (h : g ∈ alone trivia) :
    g ∈ ofTrivia trivia := by
  rcases ofTrivia_split trivia with ⟨-, hgroups⟩ | ⟨-, _, -, hgroups⟩
  · rwa [hgroups]
  · rw [hgroups]
    exact List.mem_append_left _ h

theorem mem_ofTrivia_of_documenting {trivia : List Token} (h : documenting trivia ≠ []) :
    ∃ g ∈ ofTrivia trivia, g.spans = documenting trivia := by
  rcases ofTrivia_split trivia with ⟨hnone, -⟩ | ⟨-, breaks, -, hgroups⟩
  · exact absurd hnone h
  · rw [hgroups]
    exact ⟨_, List.mem_concat_self, rfl⟩

theorem breaksAfter_alone (trivia : List Token) :
    ∀ g ∈ (alone trivia).getLast?, maxAttachedBreaks < g.breaksAfter := by
  intro g hg
  rw [alone, List.getLast?_map, Option.mem_def, Option.map_eq_some_iff] at hg
  obtain ⟨run, hrun, rfl⟩ := hg
  obtain ⟨hruns, rfl⟩ := List.mem_getLast?_eq_getLast hrun
  have hbeside := List.splitBy_ne_nil.1 hruns
  have hlast := List.getLast_getLast_splitBy (fun c _ => isNear c) hbeside
  have hfar := Bool.eq_false_iff.2 (List.rdropWhile_last_not isNear _ hbeside)
  rw [← hlast] at hfar
  rw [ofRun, List.getLast?_eq_some_getLast (List.ne_nil_of_mem_splitBy (List.getLast_mem hruns))]
  exact Nat.lt_of_not_le (of_decide_eq_false hfar)

end CommentGroup

namespace Parser

variable {p q : Parser}

theorem leadingComments_eq (heof : p.kind ≠ .eof) :
    p.leadingComments.1 = Parser.comments { p with pending := [] } (CommentGroup.alone p.pending) ∧
      p.leadingComments.2 =
        if CommentGroup.documenting p.pending = [] then none
          else some (CommentGroup.documenting p.pending) := by
  have hcode : sees { p with pending := [] } .eof = false := by simpa [sees, kind] using heof
  unfold leadingComments
  rcases CommentGroup.ofTrivia_split p.pending with ⟨hnone, hgroups⟩ | ⟨hsome, breaks,
    hbreaks, hgroups⟩
  · have hfar := CommentGroup.breaksAfter_alone p.pending
    rw [hgroups, if_pos hnone]
    dsimp only
    split
    · rename_i last hlast
      rw [if_neg (by simp [hfar last hlast])]
      exact ⟨rfl, rfl⟩
    · rename_i hempty
      rw [List.getLast?_eq_none_iff.1 hempty]
      exact ⟨rfl, rfl⟩
  · rw [hgroups, if_neg hsome]
    simp [hcode, hbreaks]

theorem comments_spec {groups : List CommentGroup}
    (hgroups : ∀ s ∈ groups.flatMap (·.spans), IsComment p.text s) :
    p.comments groups = { p with log := (p.comments groups).log } ∧
      ∃ nodes, List.Forall₂ (CommentNode p.text) (groups.map (·.spans)) nodes ∧
        (p.comments groups).log.toList = p.log.toList ++ nodes.flatten := by
  induction groups generalizing p with
  | nil => exact ⟨rfl, [], .nil, by simp [comments]⟩
  | cons g groups ih =>
    rw [List.flatMap_cons, List.forall_mem_append] at hgroups
    obtain ⟨-, events, hnode, hlog⟩ := comment_spec hgroups.1
    obtain ⟨hrest, nodes, hnodes, hlog'⟩ := @ih (p.comment g.spans) hgroups.2
    refine ⟨hrest, events :: nodes, .cons hnode hnodes, ?_⟩
    rw [List.flatten_cons, ← List.append_assoc, ← hlog]
    exact hlog'

/-- The inside of a node starts with the comment node of the comments `spans`, if there are any. -/
def StartsWith (text : String) (spans : List Span) (f : Forest) : Prop :=
  ∃ events rest, f.encode = events ++ rest ∧ if spans = [] then events = []
    else CommentNode text spans events

/-- What is written for a statement or a table field, with the comments in front of it: a comment
node for each group that stands alone, and behind them the node, in which the documenting comments
come first. -/
def Documents (p q : Parser) (kind : NodeKind) : Prop :=
  ∃ nodes f, List.Forall₂ (CommentNode p.text)
    ((CommentGroup.alone p.pending).map (·.spans)) nodes ∧
    StartsWith p.text (CommentGroup.documenting p.pending) f ∧
    q.log.toList = p.log.toList ++ nodes.flatten ++ (Branch.node kind f).encode false

theorem openDocumented_log (htext : p.leadingComments.1.text = p.text) (heof : p.kind ≠ .eof)
    (hdocumenting : ∀ s ∈ CommentGroup.documenting p.pending, IsComment p.text s) :
    p.openDocumented.2 = ⟨p.leadingComments.1.log.toList.length⟩ ∧
      ∃ f, StartsWith p.text (CommentGroup.documenting p.pending) f ∧
        p.openDocumented.1.log.toList = p.leadingComments.1.log.toList ++ .blank :: f.encode := by
  obtain ⟨-, hdoc⟩ := leadingComments_eq heof
  have hopen : p.leadingComments.1.openNode.1.log.toList =
      p.leadingComments.1.log.toList ++ [.blank] :=
    EventLog.toList_openNode _
  have hmarker : p.leadingComments.1.openNode.2 = ⟨p.leadingComments.1.log.toList.length⟩ :=
    congrArg Marker.mk (EventLog.position_openNode _)
  unfold openDocumented
  dsimp only
  rw [hdoc]
  by_cases hnone : CommentGroup.documenting p.pending = []
  · rw [if_pos hnone]
    exact ⟨hmarker, .nil, ⟨[], [], rfl, by rw [if_pos hnone]⟩, hopen⟩
  · rw [if_neg hnone]
    obtain ⟨-, events, ⟨f, hf, hcovers, hevents⟩, hlog⟩ :=
      @comment_spec p.leadingComments.1.openNode.1 _ fun s hs => htext ▸ hdocumenting s hs
    rw [hopen, List.append_assoc] at hlog
    have hnode : CommentNode p.text (CommentGroup.documenting p.pending) events :=
      ⟨f, hf, htext ▸ hcovers, hevents⟩
    refine ⟨hmarker, .branch .nil (.node .comment f), ⟨events, [], ?_, by rwa [if_neg hnone]⟩, ?_⟩
    · rw [Forest.encode, Forest.encode, hevents, List.nil_append, List.append_nil]
    · rw [Forest.encode, Forest.encode, List.nil_append, ← hevents]
      exact hlog

theorem StartsWith.append {text : String} {spans : List Span} {f : Forest}
    (h : StartsWith text spans f) (g : Forest) : StartsWith text spans (f.append g) := by
  obtain ⟨events, rest, hf, hevents⟩ := h
  exact ⟨events, rest ++ g.encode, by rw [Forest.encode_append, hf, List.append_assoc], hevents⟩

theorem documents_finish {row : Language NodeKind} (hp : p.Valid) (heof : p.kind ≠ .eof)
    (h : Adds p.openDocumented.1 row q) (kind : NodeKind) :
    Documents p (q.finish p.openDocumented.2 kind) kind := by
  have halone : ∀ s ∈ (CommentGroup.alone p.pending).flatMap (·.spans), IsComment p.text s := by
    intro s hs
    obtain ⟨g, hg, hs⟩ := List.mem_flatMap.1 hs
    exact isComment_group hp (CommentGroup.mem_ofTrivia_of_alone hg) s hs
  obtain ⟨hbeside, -⟩ := leadingComments_eq heof
  obtain ⟨hq, nodes, hnodes, hnodesLog⟩ := @comments_spec { p with pending := [] } _ halone
  rw [← hbeside] at hq hnodesLog
  have htext : p.leadingComments.1.text = p.text := (congrArg (·.text) hq :)
  have hdocumenting : ∀ s ∈ CommentGroup.documenting p.pending, IsComment p.text s := by
    intro s hs
    obtain ⟨g, hg, hspans⟩ := CommentGroup.mem_ofTrivia_of_documenting (List.ne_nil_of_mem hs)
    exact isComment_group hp hg s (hspans ▸ hs)
  obtain ⟨hmarker, f, hf, hopened⟩ := openDocumented_log htext heof hdocumenting
  obtain ⟨g, -, hlog, -⟩ := h
  refine ⟨nodes, f.append g, hnodes, hf.append g, ?_⟩
  have hinside : q.log.toList = p.leadingComments.1.log.toList ++ .blank ::
      (f.append g).encode := by
    rw [hlog, hopened, Forest.encode_append, List.append_assoc, List.cons_append]
  rw [finish, close, hmarker, ← hnodesLog]
  exact EventLog.toList_close hinside kind

/-- Of the comments in front of a statement or of a table field, the longest run at the end with at
most one blank line behind each comment documents it, and comes first in its node. The others are
written as comment nodes in front of it, cut just where more than one blank line stands between two
of them. -/
theorem leadingComments_document (n : Nat) (hp : p.Valid) (heof : p.kind ≠ .eof) :
    p.leadingComments.2 = (if CommentGroup.documenting p.pending = [] then none
      else some (CommentGroup.documenting p.pending)) ∧
      (∃ kind, kind ≠ .comment ∧ Documents p (Grammar.documentedStat (Grammar.rules n) p) kind) ∧
      (p.kind ≠ .rightBrace →
        Documents p (Grammar.tableItem (Grammar.rules n) p).1 .tableField) := by
  have hrules := Grammar.sound_rules n
  refine ⟨(leadingComments_eq heof).2, ?_, fun hbrace => ?_⟩
  · obtain ⟨q, kind, hq, hkind, hadds, -⟩ := Grammar.documentedStat_finish hrules hp heof
    exact ⟨kind, (NodeKind.proper_of_isStat hkind).2, hq ▸ documents_finish hp heof hadds kind⟩
  · obtain ⟨q, hq, hadds⟩ := Grammar.tableItem_finish hrules hp hbrace heof
    exact hq ▸ documents_finish hp heof hadds .tableField

/-- The first comment has three blank lines behind it and stands alone, the other two document the
statement. -/
theorem leadingComments_document_twoRuns :
    let text := "-- a\n\n\n\n-- b\n\n-- c\n\nx = 1"
    let p := ofTokens text (Lexer.tokenize text).1
    p.leadingComments.2 = some [⟨8, 12⟩, ⟨14, 18⟩] ∧
    (CommentGroup.alone p.pending).map (·.spans) = [[⟨0, 4⟩]] ∧
      (∃ kind, kind ≠ .comment ∧ Documents p (Grammar.documentedStat (Grammar.rules 1) p) kind) ∧
      Documents p (Grammar.tableItem (Grammar.rules 1) p).1 .tableField := by
  intro text p
  have hp : p.Valid :=
    (ofTokens_spec text (Lexer.endsText_tokenize text) (Lexer.isComment_tokenize text)).1
  have hkind : p.kind = .name := by decide +kernel
  obtain ⟨hleading, hstat, hfield⟩ := leadingComments_document 1 hp (by rw [hkind]; decide)
  exact ⟨hleading.trans (by decide +kernel), by decide +kernel, hstat,
    hfield (by rw [hkind]; decide)⟩

end Parser

end LuaAnalysis.Syntax
