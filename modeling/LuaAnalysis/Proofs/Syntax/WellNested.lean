import Mathlib.Logic.Relation
import LuaAnalysis.Proofs.Syntax.Lossless
import LuaAnalysis.Proofs.Syntax.Nesting
import LuaAnalysis.Proofs.Syntax.Nodes
import LuaAnalysis.Proofs.Syntax.Shape

/-!
The tree of a text, whatever is wrong with the text: its elements stand in preorder, each in the
node that lists it, and the text that a node covers is cut up by what is in the node.
-/

namespace LuaAnalysis.Syntax

open LuaAnalysis.Text (Ascends IsBoundary IsPiece)

theorem Covers.isPiece {text : String} {start : Nat} {cs : List Char} {tokens : List Token}
    (h : Covers start cs tokens) {pre post : List Char} (htext : text.toList = pre ++ cs ++ post)
    (hpre : start = Text.byteLength pre) :
    ∀ t ∈ tokens, ∃ chars, IsPiece text t.span chars := by
  induction h generalizing pre with
  | nil => simp
  | @blank start c cs tokens hc _ ih =>
    have hcut : text.toList = (pre ++ [c]) ++ cs ++ post := by simpa using htext
    exact ih hcut (by simp [hpre])
  | @token start chars cs kind tokens hne _ ih =>
    have hcut : text.toList = (pre ++ chars) ++ cs ++ post := by simpa using htext
    refine List.forall_mem_cons.2 ⟨⟨chars, pre, cs ++ post, ?_, hpre, rfl⟩,
      ih hcut (by simp [hpre])⟩
    rw [hcut, List.append_assoc]

theorem CoversLines.isPiece {text : String} {spans : List Span} {docs : List Token}
    (h : CoversLines text spans docs) (hspans : ∀ s ∈ spans, IsComment text s) :
    ∀ t ∈ docs, ∃ chars, IsPiece text t.span chars := by
  induction spans generalizing docs with
  | nil =>
    obtain rfl : docs = [] := h
    simp
  | cons line lines ih =>
    obtain ⟨here, behind, rfl, hhere, hbehind⟩ := h
    obtain ⟨⟨r, hline⟩, hlines⟩ := List.forall_mem_cons.1 hspans
    obtain ⟨body, closer, hcontains, -, -, -, hrest⟩ := DocLexer.ofComment_spec hline
    obtain ⟨pre, post, htext, hpre, -⟩ := hline
    rw [commentBody, hrest] at hhere
    have hcut : text.toList = pre ++ body ++ (closer ++ post) := by
      rw [htext, ← hcontains.append_eq]
      simp
    intro t ht
    rcases List.mem_append.1 ht with ht | ht
    · exact hhere.isPiece hcut hpre t ht
    · exact ih hbehind hlines t ht

def Item.tokens : Item → List Token
  | .code token => [token]
  | .comment docs => docs

mutual

theorem Forest.tokens_items : ∀ f : Forest, f.items.flatMap Item.tokens = f.leaves
  | .nil => rfl
  | .token f _ _ => by simp [Forest.items, Forest.leaves, Forest.tokens_items f, Item.tokens]
  | .fault f _ _ => Forest.tokens_items f
  | .blank f => Forest.tokens_items f
  | .branch f b => by simp [Forest.items, Forest.leaves, Forest.tokens_items f,
      Branch.tokens_items b]

theorem Branch.tokens_items : ∀ b : Branch, b.items.flatMap Item.tokens = b.leaves
  | .node kind inside => by
    rw [Branch.items, Branch.leaves]
    split
    · simp [Item.tokens]
    · exact Forest.tokens_items inside
  | .around first _ inside => by
    simp [Branch.items, Branch.leaves, Branch.tokens_items first, Forest.tokens_items inside]

end

theorem exists_renders (items : List Item) :
    ∃ tokens, Renders items tokens ∧ tokens.map (·.1) = items.flatMap Item.tokens := by
  induction items with
  | nil => exact ⟨[], .nil, rfl⟩
  | cons item items ih =>
    obtain ⟨tokens, hrenders, htokens⟩ := ih
    cases item with
    | code token => exact ⟨_, .code token hrenders, by simp [htokens, Item.tokens]⟩
    | comment docs =>
      exact ⟨_, .comment docs Tree.root hrenders, by simp [htokens, Item.tokens, Function.comp_def]⟩

theorem Matches.isPiece {text : String} {items : List Item} {pieces : List Piece}
    (h : Matches text items pieces) (hpieces : ∀ p ∈ pieces, ∃ chars, IsPiece text p.span chars)
    (hcomments : ∀ s, .comment s ∈ pieces → IsComment text s) :
    ∀ t ∈ items.flatMap Item.tokens, ∃ chars, IsPiece text t.span chars := by
  induction h with
  | nil => simp
  | code token _ ih =>
    obtain ⟨htoken, hrest⟩ := List.forall_mem_cons.1 hpieces
    refine List.forall_mem_cons.2 ⟨htoken, ih hrest fun s hs => hcomments s (.tail _ hs)⟩
  | @comment docs spans items pieces hdocs _ ih =>
    intro t ht
    rw [List.flatMap_cons, List.mem_append] at ht
    rcases ht with ht | ht
    · exact hdocs.isPiece (fun s hs => hcomments s (by simp [hs])) t ht
    · exact ih (fun p hp => hpieces p (List.mem_append_right _ hp))
        (fun s hs => hcomments s (List.mem_append_right _ hs)) t ht

theorem Lexer.isPiece_tokenize (text : String) :
    ∀ p ∈ Piece.ofTokens (tokenize text).1, ∃ chars, IsPiece text p.span chars := by
  obtain ⟨tokens, hpieces, htiles⟩ := pieces_tokenize text
  intro p hp
  have hspan : p.span ∈ tokens.map (·.span) :=
    (Piece.span_ofTokens tokens).subset (List.mem_map_of_mem (hpieces ▸ hp))
  obtain ⟨t, ht, heq⟩ := List.mem_map.1 hspan
  have hcut : text.toList = [] ++ text.toList ++ [] := by simp
  exact heq ▸ htiles.covers.isPiece hcut rfl t ht

theorem Forest.leaves_spec {text : String} {f : Forest}
    (hmatches : Matches text f.items (Piece.ofTokens (Lexer.tokenize text).1)) :
    Ascends 0 (f.leaves.map (·.span)) (Text.byteLength text.toList) ∧
      ∀ t ∈ f.leaves, IsBoundary text t.span.start ∧ IsBoundary text t.span.stop := by
  have hcomments := Piece.isComment_of_mem (Lexer.isComment_tokenize text)
  obtain ⟨tokens, hrenders, htokens⟩ := exists_renders f.items
  obtain ⟨hascends, -⟩ := hmatches.split hrenders hcomments (Lexer.ascends_tokenize text)
  rw [f.tokens_items] at htokens
  rw [Nat.zero_add] at hascends
  refine ⟨?_, fun t ht => ?_⟩
  · rw [← htokens, List.map_map]
    exact hascends
  · obtain ⟨chars, hpiece⟩ :=
      hmatches.isPiece (Lexer.isPiece_tokenize text) hcomments t (f.tokens_items ▸ ht)
    exact hpiece.boundaries

theorem Layout.parent_of_mem {l : Layout} {parent : Option ElementId} {start : Nat} {r : Row}
    (h : r ∈ l.outline parent start) : r.parent = parent ∨ ∃ i kind above,
      r.parent = some (start + i) ∧ (l.outline parent start)[i]? = some (.node kind above) := by
  induction l generalizing parent start with
  | nil => cases h
  | token l kind span ih =>
    rw [outline, List.mem_append, List.mem_singleton] at h
    rcases h with h | rfl
    · refine (ih h).imp_right fun ⟨i, kind, above, hparent, hget⟩ => ⟨i, kind, above, hparent, ?_⟩
      rw [outline, List.getElem?_append_left (List.getElem?_eq_some_iff.1 hget).1, hget]
    · exact .inl rfl
  | node l kind inside ih ihInside =>
    rw [outline, List.mem_append, List.mem_cons] at h
    have hnode : ∀ i, (Layout.outline parent start (.node l kind inside))[l.size + i]? =
        (.node kind parent :: inside.outline (some (start + l.size)) (start + l.size + 1))[i]? :=
          fun i => by
            rw [outline, ← length_outline parent start l,
              List.getElem?_append_right (Nat.le_add_right _ _), Nat.add_sub_cancel_left]
    rcases h with h | rfl | h
    · refine (ih h).imp_right fun ⟨i, kind', above, hparent, hget⟩ => ⟨i, kind', above, hparent, ?_⟩
      rw [outline, List.getElem?_append_left (List.getElem?_eq_some_iff.1 hget).1, hget]
    · exact .inl rfl
    · rcases ihInside h with hparent | ⟨i, kind', above, hparent, hget⟩
      · exact .inr ⟨l.size, kind, parent, hparent, hnode 0⟩
      · refine .inr ⟨l.size + (i + 1), kind', above, ?_, (hnode (i + 1)).trans hget⟩
        rw [hparent]
        simp only [Option.some.injEq]
        omega

namespace Tree

variable {t : Tree} {id : ElementId}

/-- What holds of the tree of a text whatever the text is. -/
structure WellNested (t : Tree) : Prop where
  root_chunk : t.nodeKind? root = some .chunk
  parent_eq_none : ∀ id : Nat, id < t.size → (t.parent? id = none ↔ id = root)
  parent_node : ∀ id p : Nat, t.parent? id = some p → t.isNode p = true ∧ p < id
  /-- An element is listed once by its parent and by no other element. -/
  listed : ∀ id p : Nat, (t.children p).count id = if t.parent? id = some p then 1 else 0
  preorder : t.preorder = List.range t.size
  /-- A node covers all that is in it, however deep. -/
  covers : ∀ p id : ElementId, Relation.TransGen (fun p id => t.parent? id = some p) p id →
    (t.span p).covers (t.span id) = true
  siblings : ∀ p : ElementId, (t.children p).Pairwise fun x y => (t.span x).stop ≤ (t.span y).start
  /-- What an element spans are whole characters of the text. -/
  piece : ∀ id : Nat, id < t.size → ∃ cs, IsPiece t.text (t.span id) cs

theorem parents_of_rows {kind : NodeKind} {l : Layout}
    (hrows : t.elements.toList.map Row.ofElement = .node kind none :: l.outline (some root) 1) :
    t.nodeKind? root = some kind ∧ (∀ id : Nat, id < t.size → (t.parent? id = none ↔ id = root)) ∧
      ∀ id p : Nat, t.parent? id = some p → t.isNode p = true := by
  have hroot : (t.elements.toList.map Row.ofElement)[root]? = some (.node kind none) := by
    rw [hrows]
    rfl
  have hkind := (nodeKind?_of_row hroot).1
  have hrow : ∀ i, (t.elements.toList.map Row.ofElement)[i + 1]? =
      (l.outline (some root) 1)[i]? := fun i => by
    rw [hrows, List.getElem?_cons_succ]
  have hbelow : ∀ i : Nat, i + 1 < t.size → ∃ p, t.parent? (i + 1) = some p ∧
      t.isNode p = true := by
    intro i hi
    obtain ⟨r, hr⟩ : ∃ r, (l.outline (some root) 1)[i]? = some r := by
      rw [← hrow, List.getElem?_map, Array.getElem?_toList, Array.getElem?_eq_getElem hi]
      exact ⟨_, rfl⟩
    have hparent := parent?_of_row ((hrow i).trans hr)
    rcases Layout.parent_of_mem (List.mem_of_getElem? hr) with habove | ⟨j, kind', above,
      habove, hget⟩
    · exact ⟨root, hparent.trans habove, isNode_of_nodeKind? hkind⟩
    · have hget' := (hrow j).trans hget
      rw [Nat.add_comm] at hget'
      exact ⟨1 + j, hparent.trans habove, isNode_of_nodeKind? (nodeKind?_of_row hget').1⟩
  refine ⟨hkind, fun id hid => ?_, fun id p hp => ?_⟩
  · cases id with
    | zero => exact iff_of_true (parent?_of_row hroot) rfl
    | succ i =>
      obtain ⟨p, hp, -⟩ := hbelow i hid
      exact iff_of_false (by simp [hp]) (Nat.succ_ne_zero i)
  · cases id with
    | zero =>
      have hnone : t.parent? root = none := parent?_of_row hroot
      exact absurd (hnone.symm.trans hp) (by simp)
    | succ i =>
      obtain ⟨e, he, -⟩ := Option.bind_eq_some_iff.1 hp
      obtain ⟨p', hp', hnode⟩ := hbelow i (Array.getElem?_eq_some_iff.1 he).1
      exact Option.some.inj (hp'.symm.trans hp) ▸ hnode

section

variable {text : String} {log : EventLog} {errors : List SyntaxError}

theorem pairwise_children_ofLog (id : ElementId) :
    ((Tree.ofLog text log errors).children id).Pairwise (· < ·) :=
  children_ofLog text log errors id ▸ pairwise_childIds id 0 _

theorem mem_children_ofLog {id p : ElementId} :
    id ∈ (Tree.ofLog text log errors).children p ↔
    (Tree.ofLog text log errors).parent? id = some p := by
  have hget : (Tree.ofLog text log errors).parent? id = some p ↔
      ((Tree.ofLog text log errors).elements.toList.map (·.parent))[id]? = some (some p) :=
    (TreeBuilder.getElem?_parents (TreeBuilder.replayFrom log.size 0 log {} []).1 id p).symm
  rw [children_ofLog, mem_childIds, hget]
  simp

theorem count_children_ofLog (id p : ElementId) :
    ((Tree.ofLog text log errors).children p).count id =
    if (Tree.ofLog text log errors).parent? id = some p then 1 else 0 := by
  have hnodup : ((Tree.ofLog text log errors).children p).Nodup :=
    (pairwise_children_ofLog p).imp Nat.ne_of_lt
  rw [hnodup.count, if_congr mem_children_ofLog rfl rfl]

variable {Good : Nat → Prop} (hnested : (TreeBuilder.replayFrom log.size 0 log {} []).1.Nested Good)

include hnested

theorem siblings_ofLog (p : ElementId) :
    ((Tree.ofLog text log errors).children p).Pairwise fun x y =>
    ((Tree.ofLog text log errors).span x).stop ≤ ((Tree.ofLog text log errors).span y).start := by
  refine (pairwise_children_ofLog p).imp_of_mem fun {x y} hx hy hlt => ?_
  have hx' := mem_children_ofLog.1 hx
  have hy' := mem_children_ofLog.1 hy
  exact hnested.siblings x y hlt (TreeBuilder.Nested.lt_size hy') (hx'.trans hy'.symm)

theorem covers_ofLog (hclosed : (TreeBuilder.replayFrom log.size 0 log {} []).1.opened = [])
    {p id : ElementId}
    (h : Relation.TransGen (fun p id => (Tree.ofLog text log errors).parent? id = some p) p id) :
    ((Tree.ofLog text log errors).span p).covers ((Tree.ofLog text log errors).span id) = true := by
  have hstep : ∀ p id : ElementId, (Tree.ofLog text log errors).parent? id = some p →
      ((Tree.ofLog text log errors).span p).start ≤ ((Tree.ofLog text log errors).span id).start ∧
        ((Tree.ofLog text log errors).span id).stop ≤ ((Tree.ofLog text log errors).span p).stop :=
          fun p id hp =>
            ⟨hnested.starts id p hp, hnested.stops id p hp (by simp [hclosed])⟩
  suffices hall : ((Tree.ofLog text log errors).span p).start ≤
      ((Tree.ofLog text log errors).span id).start ∧
      ((Tree.ofLog text log errors).span id).stop ≤ ((Tree.ofLog text log errors).span p).stop by
    simpa [Span.covers] using hall
  induction h with
  | single hp => exact hstep _ _ hp
  | tail _ hp ih =>
    obtain ⟨hstart, hstop⟩ := hstep _ _ hp
    exact ⟨ih.1.trans hstart, hstop.trans ih.2⟩

end

end Tree

/-- Every node that a log opens is closed, and every finish event of it closes one. -/
def EventLog.Balanced (log : EventLog) : Prop :=
  (TreeBuilder.replayFrom log.size 0 log {} []).1.opened = [] ∧
    TreeBuilder.unmatchedFrom log.size 0 log {} = 0

theorem Tree.wellNested_ofLog {text : String} {f : Forest} (hf : f.Proper false) {log : EventLog}
    (hlog : log.toList = (Branch.node .chunk f).encode false) {stop : Nat}
    (hascends : Ascends 0 (f.leaves.map (·.span)) stop)
    (hgood : ∀ t ∈ f.leaves, IsBoundary text t.span.start ∧ IsBoundary text t.span.stop)
    (errors : List SyntaxError) :
    (Tree.ofLog text log errors).WellNested ∧ log.Balanced := by
  have hb : (Branch.node .chunk f).Proper false := ⟨by simp, by simp, hf⟩
  have hforest : (Forest.branch .nil (.node .chunk f)).Proper false := ⟨trivial, hb⟩
  have hencode : log.toList = (Forest.branch .nil (.node .chunk f)).encode := by
    simpa [Forest.encode] using hlog
  have hbalanced : log.Balanced := TreeBuilder.balanced hforest hencode
  have hnested := TreeBuilder.nested_ofLog (Text.isBoundary_zero text) hencode hascends hgood
  have hrows := Tree.rows_ofLog hforest hencode text errors
  rw [Forest.outline_layout] at hrows
  obtain ⟨hroot, hnone, hnode⟩ := parents_of_rows hrows
  refine ⟨⟨hroot, hnone, fun id p hp => ⟨hnode id p hp, hnested.parent_before id p hp⟩,
    count_children_ofLog, Tree.preorder_ofLog hb hlog, fun p id => covers_ofLog hnested hbalanced.1,
    siblings_ofLog hnested,
    fun id hid => ?_⟩, hbalanced⟩
  obtain ⟨hstart, hstop⟩ := hnested.good id hid
  exact hstart.exists_isPiece hstop (hnested.le id hid).1

/-- Whatever a text is, its tree is well nested, and it is built from a log in which every node is
closed. -/
theorem parse_wellNested (text : String) : (parse text).WellNested ∧
    (Grammar.chunk (Parser.ofTokens text (Lexer.tokenize text).1)).log.Balanced := by
  obtain ⟨f, hf, hlog, hmatches⟩ := exists_chunk text
  obtain ⟨hascends, hgood⟩ := Forest.leaves_spec hmatches
  rw [parse_eq]
  exact Tree.wellNested_ofLog hf.proper hlog hascends hgood _

end LuaAnalysis.Syntax
