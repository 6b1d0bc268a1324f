import LuaAnalysis.Proofs.Syntax.DocGrammar
import LuaAnalysis.Proofs.Syntax.Outline
import LuaAnalysis.Syntax.Parser

namespace LuaAnalysis.Syntax

inductive Piece where
  | code (token : Token)
  | comment (span : Span)

namespace Piece

/-- Blanks and the end of the text leave nothing in the tree. -/
def ofToken? (t : Token) : Option Piece :=
  if t.kind.isComment then some (.comment t.span)
  else if t.kind.isTrivia || t.kind == .eof then none
  else some (.code t)

def ofTokens (tokens : List Token) : List Piece := tokens.filterMap ofToken?

def isCode : Piece → Bool
  | .code _ => true
  | .comment _ => false

@[simp] theorem ofTokens_nil : ofTokens [] = [] := rfl

@[simp] theorem ofTokens_append (xs ys : List Token) :
    ofTokens (xs ++ ys) = ofTokens xs ++ ofTokens ys :=
  List.filterMap_append

theorem ofTokens_cons_code {t : Token} (htrivia : t.kind.isTrivia = false) (heof : t.kind ≠ .eof)
    (ts : List Token) : ofTokens (t :: ts) = .code t :: ofTokens ts := by
  have hcomment : t.kind.isComment = false := by
    cases hkind : t.kind <;> simp_all [TokenKind.isTrivia, TokenKind.isComment]
  simp [ofTokens, ofToken?, htrivia, heof, hcomment]

theorem ofTokens_cons_comment {t : Token} (hcomment : t.kind.isComment = true) (ts : List Token) :
    ofTokens (t :: ts) = .comment t.span :: ofTokens ts := by
  simp [ofTokens, ofToken?, hcomment]

theorem ofTokens_cons_blank {t : Token} (htrivia : t.kind.isTrivia = true)
    (hcomment : t.kind.isComment = false) (ts : List Token) : ofTokens (t :: ts) = ofTokens ts := by
  simp [ofTokens, ofToken?, hcomment, htrivia]

end Piece

/-- What a tree has at one place outside of the comments: a token, or the tokens of a comment
node. -/
inductive Item where
  | code (token : Token)
  | comment (docs : List Token)

mutual

def Forest.items : Forest → List Item
  | .nil => []
  | .token f kind span => f.items ++ [.code ⟨kind, span⟩]
  | .fault f _ _ => f.items
  | .blank f => f.items
  | .branch f b => f.items ++ b.items

def Branch.items : Branch → List Item
  | .node kind inside => if kind = .comment then [.comment inside.leaves] else inside.items
  | .around first _ inside => first.items ++ inside.items

end

theorem Forest.items_append (f : Forest) : ∀ g : Forest, (f.append g).items = f.items ++ g.items
  | .nil => by simp [append, items]
  | .token g _ _ => by simp [append, items, items_append f g]
  | .fault g _ _ => by simpa [append, items] using items_append f g
  | .blank g => by simpa [append, items] using items_append f g
  | .branch g _ => by simp [append, items, items_append f g]

/-- Every piece has its item: a token itself, comments that stand together a comment node that
covers them. -/
inductive Matches (text : String) : List Item → List Piece → Prop where
  | nil : Matches text [] []
  | code (token : Token) {items : List Item} {pieces : List Piece} (h : Matches text items pieces) :
      Matches text (.code token :: items) (.code token :: pieces)
  | comment {docs : List Token} {spans : List Span} {items : List Item} {pieces : List Piece}
      (hdocs : CoversLines text spans docs) (h : Matches text items pieces) :
      Matches text (.comment docs :: items) (spans.map .comment ++ pieces)

theorem Matches.append {text : String} {xs ys : List Item} {ps qs : List Piece}
    (h : Matches text xs ps) (h' : Matches text ys qs) : Matches text (xs ++ ys) (ps ++ qs) := by
  induction h with
  | nil => exact h'
  | code token _ ih => exact .code token ih
  | comment hdocs _ ih =>
    rw [List.append_assoc]
    exact .comment hdocs ih

namespace CommentGroup

theorem split_cons (acc : List Span) (breaks : Nat) (t : Token) (ts : List Token) :
    split acc breaks (t :: ts) =
    if t.kind = .endOfLine then split acc (breaks + 1) ts
    else if t.kind.isComment then
      if !acc.isEmpty && breaks > maxAttachedBreaks then ⟨acc.reverse, breaks⟩ ::
        split [t.span] 0 ts
      else split (t.span :: acc) 0 ts
    else split acc breaks ts := by cases acc <;> rfl

theorem spans_split (acc : List Span) (breaks : Nat) {ts : List Token}
    (hts : ∀ t ∈ ts, t.kind.isTrivia = true) :
    ((split acc breaks ts).flatMap (·.spans)).map Piece.comment = acc.reverse.map .comment ++
    Piece.ofTokens ts := by
  induction ts generalizing acc breaks with
  | nil => cases acc <;> simp [split]
  | cons t ts ih =>
    obtain ⟨htrivia, hrest⟩ := List.forall_mem_cons.1 hts
    rw [split_cons]
    split
    · rename_i hkind
      rw [ih _ _ hrest, Piece.ofTokens_cons_blank htrivia (by rw [hkind]; rfl)]
    split
    · rename_i hcomment
      rw [Piece.ofTokens_cons_comment hcomment]
      split
      · simp [ih _ _ hrest]
      · simp [ih _ _ hrest]
    · rename_i hcomment
      rw [ih _ _ hrest, Piece.ofTokens_cons_blank htrivia (by simpa using hcomment)]

theorem spans_ofTrivia {ts : List Token} (hts : ∀ t ∈ ts, t.kind.isTrivia = true) :
    ((ofTrivia ts).flatMap (·.spans)).map Piece.comment = Piece.ofTokens ts := spans_split [] 0 hts

end CommentGroup

/-- What stands side by side below a node, the last outermost. -/
inductive Layout where
  | nil
  | token (before : Layout) (kind : TokenKind) (span : Span)
  | node (before : Layout) (kind : NodeKind) (inside : Layout)

namespace Layout

def append (l : Layout) : Layout → Layout
  | .nil => l
  | .token g kind span => .token (append l g) kind span
  | .node g kind inside => .node (append l g) kind inside

def size : Layout → Nat
  | .nil => 0
  | .token l _ _ => l.size + 1
  | .node l _ inside => l.size + 1 + inside.size

def outline (parent : Option ElementId) (start : ElementId) : Layout → List Row
  | .nil => []
  | .token l kind span => l.outline parent start ++ [.token kind span parent]
  | .node l kind inside =>
    let id := start + l.size
    l.outline parent start ++ .node kind parent :: inside.outline (some id) (id + 1)

def leaves : Layout → List Token
  | .nil => []
  | .token l kind span => l.leaves ++ [⟨kind, span⟩]
  | .node l _ inside => l.leaves ++ inside.leaves

def items : Layout → List Item
  | .nil => []
  | .token l kind span => l.items ++ [.code ⟨kind, span⟩]
  | .node l kind inside => l.items ++ if kind = .comment then [.comment inside.leaves]
      else inside.items

/-- Comments do not stand in each other. The flag says whether one is around. -/
def Proper (commented : Bool) : Layout → Prop
  | .nil => True
  | .token l _ _ => l.Proper commented
  | .node l kind inside =>
    l.Proper commented ∧ (kind = .comment → commented = false) ∧
      inside.Proper (commented || kind == .comment)

attribute [local simp] append size outline leaves items

theorem length_outline (parent : Option ElementId) (start : ElementId) (l : Layout) :
    (l.outline parent start).length = l.size := by
  induction l generalizing parent start with
  | nil => rfl
  | token l _ _ ih => simp [ih]
  | node l _ inside ih ihInside =>
    simp only [outline, size, List.length_append, List.length_cons, ih, ihInside]
    omega

theorem size_append (l g : Layout) : (l.append g).size = l.size + g.size := by
  induction g with
  | nil => rfl
  | token g _ _ ih => simp [ih, Nat.add_assoc]
  | node g _ _ ih _ => simp [ih, Nat.add_assoc]

theorem outline_append (parent : Option ElementId) (start : ElementId) (l g : Layout) :
    (l.append g).outline parent start = l.outline parent start ++
    g.outline parent (start + l.size) := by
  induction g with
  | nil => simp
  | token g _ _ ih => simp [ih]
  | node g _ _ ih _ => simp [ih, size_append, Nat.add_assoc]

theorem leaves_append (l g : Layout) : (l.append g).leaves = l.leaves ++ g.leaves := by
  induction g with
  | nil => simp
  | token g _ _ ih => simp [ih]
  | node g _ _ ih _ => simp [ih]

theorem items_append (l g : Layout) : (l.append g).items = l.items ++ g.items := by
  induction g with
  | nil => simp
  | token g _ _ ih => simp [ih]
  | node g _ _ ih _ => simp [ih]

theorem proper_append {commented : Bool} {l g : Layout} (hl : l.Proper commented)
    (hg : g.Proper commented) : (l.append g).Proper commented := by
  induction g with
  | nil => exact hl
  | token g _ _ ih => exact ih hg
  | node g _ _ ih _ => exact ⟨ih hg.1, hg.2⟩

end Layout

mutual

def Forest.layout : Forest → Layout
  | .nil => .nil
  | .token f kind span => .token f.layout kind span
  | .fault f _ _ => f.layout
  | .blank f => f.layout
  | .branch f b => .node f.layout b.kind b.contents

def Branch.contents : Branch → Layout
  | .node _ inside => inside.layout
  | .around first _ inside => (Layout.node .nil first.kind first.contents).append inside.layout

end

theorem spine_concat (kinds : List NodeKind) (kind last : NodeKind) (parent : Option ElementId)
    (start : ElementId) : spine (kinds ++ [kind] ++ [last]) parent start =
      spine (kinds ++ [kind]) parent start ++ [.node last (some (start + kinds.length))] := by
  induction kinds generalizing parent start with
  | nil => rfl
  | cons first kinds ih =>
    rw [List.cons_append, List.cons_append, spine, spine, ih, List.length_cons, Nat.add_right_comm,
      Nat.add_assoc]
    rfl

mutual

theorem Forest.outline_layout (parent : Option ElementId) (start : ElementId) :
    ∀ f : Forest, f.outline parent start = f.layout.outline parent start
  | .nil => rfl
  | .token f _ _ => by rw [Forest.outline, Forest.outline_layout parent start f]; rfl
  | .fault f _ _ => Forest.outline_layout parent start f
  | .blank f => Forest.outline_layout parent start f
  | .branch f b => by
    rw [Forest.outline, Forest.outline_layout parent start f, Branch.outline_contents [] parent _ b,
      Layout.length_outline]
    simp [Forest.layout, Layout.outline, spine]

theorem Branch.outline_contents (outer : List NodeKind) (parent : Option ElementId)
    (start : ElementId) : ∀ b : Branch, b.outline outer parent start =
      spine (outer ++ [b.kind]) parent start ++
        b.contents.outline (some (start + outer.length)) (start + outer.length + 1)
  | .node _ inside => by
    rw [Branch.outline, Forest.outline_layout _ _ inside]
    rfl
  | .around first kind inside => by
    rw [Branch.outline, Branch.outline_contents (outer ++ [kind]) parent start first,
      Forest.outline_layout _ _ inside, spine_concat, Branch.contents, Layout.outline_append]
    simp [Layout.outline, Layout.size, Layout.length_outline, length_spine, Branch.kind,
      Nat.add_assoc, Nat.add_comm 1]

end

mutual

theorem Forest.leaves_layout : ∀ f : Forest, f.layout.leaves = f.leaves
  | .nil => rfl
  | .token f _ _ => by simp [Forest.layout, Layout.leaves, Forest.leaves, Forest.leaves_layout f]
  | .fault f _ _ => Forest.leaves_layout f
  | .blank f => Forest.leaves_layout f
  | .branch f b => by
    simp [Forest.layout, Layout.leaves, Forest.leaves, Forest.leaves_layout f,
      Branch.leaves_contents b]

theorem Branch.leaves_contents : ∀ b : Branch, b.contents.leaves = b.leaves
  | .node _ inside => Forest.leaves_layout inside
  | .around first _ inside => by
    simp [Branch.contents, Layout.leaves_append, Layout.leaves, Branch.leaves,
      Branch.leaves_contents first, Forest.leaves_layout inside]

end

mutual

theorem Forest.proper_layout {commented : Bool} : ∀ f : Forest, f.Proper commented →
    f.layout.Proper commented
  | .nil, _ => trivial
  | .token f _ _, hf => Forest.proper_layout f hf
  | .fault f _ _, hf => Forest.proper_layout f hf
  | .blank f, hf => Forest.proper_layout f hf
  | .branch f b, hf => ⟨Forest.proper_layout f hf.1, Branch.proper_contents b hf.2⟩

theorem Branch.proper_contents {commented : Bool} : ∀ b : Branch, b.Proper commented →
    (b.kind = .comment → commented = false) ∧ b.contents.Proper (commented || b.kind == .comment)
  | .node _ inside, hb => ⟨hb.2.1, Forest.proper_layout inside hb.2.2⟩
  | .around first kind inside, hb => by
    have hcode : (kind == .comment) = false := by simpa using hb.2.2.1
    refine ⟨fun h => absurd h hb.2.2.1, Layout.proper_append ⟨trivial, ?_⟩ ?_⟩
    · simpa [Branch.kind, hcode] using Branch.proper_contents first hb.1
    · simpa [Branch.kind, hcode] using Forest.proper_layout inside hb.2.2.2

end

mutual

theorem Forest.items_layout {commented : Bool} : ∀ f : Forest, f.Proper commented →
    f.layout.items = f.items
  | .nil, _ => rfl
  | .token f _ _, hf => by
    simp [Forest.layout, Layout.items, Forest.items, Forest.items_layout f hf]
  | .fault f _ _, hf => Forest.items_layout f hf
  | .blank f, hf => Forest.items_layout f hf
  | .branch f b, hf => by
    rw [Forest.layout, Layout.items, Forest.items, Forest.items_layout f hf.1,
      Branch.items_contents b hf.2]

theorem Branch.items_contents {commented : Bool} : ∀ b : Branch, b.Proper commented →
    (if b.kind = .comment then [Item.comment b.contents.leaves] else b.contents.items) = b.items
  | .node kind inside, hb => by
    rw [Branch.items, Branch.contents, Forest.leaves_layout, Forest.items_layout inside hb.2.2]
    rfl
  | .around first kind inside, hb => by
    have hfirst := Branch.items_contents first hb.1
    rw [if_neg (show (Branch.around first kind inside).kind ≠ .comment from hb.2.2.1),
      Branch.contents, Layout.items_append, Forest.items_layout inside hb.2.2.2,
      Branch.items, ← hfirst]
    simp [Layout.items]

end

end LuaAnalysis.Syntax
