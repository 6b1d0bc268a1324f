import LuaAnalysis.Proofs.Syntax.Preorder

/-!
What a tree is put together to from its leaves up, told from its rows, and what it looks like, apart
from where things stand in the text, told from the log it was built from. So are stretches of a log;
the flag of what is said of them tells whether they stand in a comment.
-/

namespace LuaAnalysis.Syntax

section Fold

variable {α : Type} (token : TokenKind → Span → α) (node : NodeKind → List α → α)

/-- What an element is put together to, at most `fuel` levels deep. -/
def Tree.foldFrom (t : Tree) : Nat → ElementId → α
  | 0, _ => node .absent []
  | fuel + 1, id =>
    match t.tokenKind? id with
    | some kind => token kind (t.span id)
    | none => node (t.kind id) ((t.children id).map (foldFrom t fuel))

def Layout.folds : Layout → List α
  | .nil => []
  | .token l kind span => l.folds ++ [token kind span]
  | .node l kind inside => l.folds ++ [node kind inside.folds]

theorem Layout.map_foldFrom (l : Layout) {t : Tree} {pre post : List Row}
    {parent : Option ElementId} {start fuel : Nat}
    (hchildren : ∀ id, t.children id =
      childIds id 0 ((t.elements.toList.map Row.ofElement).map (·.parent)))
    (hrows : t.elements.toList.map Row.ofElement = pre ++ l.outline parent start ++ post)
    (h : l.Among parent start (pre.map (·.parent)) (post.map (·.parent))) (hfuel : l.size ≤ fuel) :
    (l.roots start).map (t.foldFrom token node fuel) = l.folds token node := by
  induction l generalizing pre post parent start fuel with
  | nil => rfl
  | token l kind span ih =>
    rw [size] at hfuel
    have hlength : pre.length = start := by simpa using h.length_eq
    have hsplit : t.elements.toList.map Row.ofElement =
        pre ++ l.outline parent start ++ (.token kind span parent :: post) := by
      rw [hrows, outline]
      simp
    have hrow : (t.elements.toList.map Row.ofElement)[start + l.size]? =
        some (.token kind span parent) := by
      rw [hsplit, List.getElem?_append_right (by simp [hlength, length_outline])]
      simp [hlength, length_outline]
    have hfront := ih hsplit h.of_token (show l.size ≤ fuel by omega)
    obtain ⟨hkind, hspan⟩ := Tree.tokenKind?_of_row hrow
    obtain ⟨fuel, rfl⟩ : ∃ n, fuel = n + 1 := ⟨fuel - 1, by omega⟩
    rw [roots, List.map_append, hfront, folds, List.map_singleton, Tree.foldFrom]
    simp only [hkind, hspan]
  | node l kind inside ih ihInside =>
    rw [size] at hfuel
    have hlength : pre.length = start := by simpa using h.length_eq
    obtain ⟨x, hx⟩ : ∃ x : Nat, x = start + l.size := ⟨_, rfl⟩
    have hsplit : t.elements.toList.map Row.ofElement =
        pre ++ l.outline parent start ++
        (.node kind parent :: (inside.outline (some x) (x + 1) ++ post)) := by
      rw [hrows, outline, ← hx]
      simp
    have hsplitInside : t.elements.toList.map Row.ofElement =
        pre ++ l.outline parent start ++ [.node kind parent] ++
        inside.outline (some x) (x + 1) ++ post := by
      rw [hsplit]
      simp
    have hrow : (t.elements.toList.map Row.ofElement)[x]? = some (.node kind parent) := by
      rw [hsplit, List.getElem?_append_right (by simp [hlength, length_outline, hx])]
      simp [hlength, length_outline, hx]
    have hbelow : t.children x = inside.roots (x + 1) := by
      rw [hchildren, hrows, List.map_append, List.map_append, hx]
      exact h.childIds_node
    have hfront := ih hsplit (by simpa [parents, hx, Row.node] using h.of_node)
      (show l.size ≤ fuel by omega)
    obtain ⟨hkind, hnone⟩ := Tree.nodeKind?_of_row hrow
    obtain ⟨fuel, rfl⟩ : ∃ n, fuel = n + 1 := ⟨fuel - 1, by omega⟩
    have hinside := ihInside hsplitInside (by simpa [parents, hx, Row.node] using h.inside)
      (show inside.size ≤ fuel by omega)
    rw [roots, List.map_append, hfront, folds, List.map_singleton, ← hx, Tree.foldFrom]
    simp only [hnone, Tree.kind, hkind, Option.getD_some, hbelow, hinside]

theorem Tree.map_foldFrom_of_rows {text : String} {log : EventLog} {errors : List SyntaxError}
    {l : Layout} (hrows : (Tree.ofLog text log errors).elements.toList.map Row.ofElement =
      l.outline none 0) :
    (l.roots 0).map ((Tree.ofLog text log errors).foldFrom token node
      (Tree.ofLog text log errors).size) = l.folds token node := by
  have hsize : l.size ≤ (Tree.ofLog text log errors).size := by
    rw [← Layout.length_outline none 0, ← hrows, List.length_map, Array.length_toList]
    exact Nat.le_refl _
  have hchildren : ∀ id, (Tree.ofLog text log errors).children id =
      childIds id 0 (((Tree.ofLog text log errors).elements.toList.map Row.ofElement).map
        (·.parent)) := fun id => by
    rw [Row.map_parent_ofElement, Tree.children_ofLog]
  have hsplit : (Tree.ofLog text log errors).elements.toList.map Row.ofElement = [] ++
      l.outline none 0 ++ [] := by
    rw [hrows, List.nil_append, List.append_nil]
  exact l.map_foldFrom token node hchildren hsplit ⟨rfl, by simp, by simp, by simp⟩ hsize

end Fold

/-- A piece of a syntax tree: a token with its text, or a node with what is in it. -/
inductive Shape where
  | token (kind : TokenKind) (text : String)
  | node (kind : NodeKind) (children : List Shape)

namespace Tree

/-- What an element looks like, at most `fuel` levels deep. -/
def shapeFrom (t : Tree) : Nat → ElementId → Shape
  | 0, _ => .node .absent []
  | fuel + 1, id =>
    match t.tokenKind? id with
    | some kind => .token kind (t.textOf id)
    | none => .node (t.kind id) ((t.children id).map (t.shapeFrom fuel))

def shape (t : Tree) (id : ElementId) : Shape := t.shapeFrom t.size id

end Tree

def Layout.shapes (text : String) : Layout → List Shape
  | .nil => []
  | .token l kind span => l.shapes text ++ [.token kind (Text.slice text span)]
  | .node l kind inside => l.shapes text ++ [.node kind (inside.shapes text)]

theorem Layout.shapes_append (text : String) (l g : Layout) :
    (l.append g).shapes text = l.shapes text ++ g.shapes text := by
  induction g with
  | nil => simp [append, shapes]
  | token g _ _ ih => simp [append, shapes, ih]
  | node g _ _ ih _ => simp [append, shapes, ih]

def Forest.shapes (text : String) (f : Forest) : List Shape := f.layout.shapes text

def Branch.shape (text : String) (b : Branch) : Shape := .node b.kind (b.contents.shapes text)

theorem Tree.shapeFrom_eq_foldFrom (t : Tree) (fuel : Nat) :
    t.shapeFrom fuel = t.foldFrom (fun kind span => .token kind (Text.slice t.text span))
    .node fuel := by
  induction fuel with
  | zero => rfl
  | succ fuel ih =>
    funext id
    rw [shapeFrom, foldFrom, ih]
    rfl

theorem Layout.shapes_eq_folds (text : String) (l : Layout) :
    l.shapes text = l.folds (fun kind span => .token kind (Text.slice text span)) .node := by
  induction l with
  | nil => rfl
  | token l _ _ ih => rw [shapes, folds, ih]
  | node l _ inside ih ihInside => rw [shapes, folds, ih, ihInside]

theorem Tree.shape_ofLog {b : Branch} (hb : b.Proper false) {log : EventLog}
    (hlog : log.toList = b.encode false) (text : String) (errors : List SyntaxError) :
    (Tree.ofLog text log errors).shape root = b.shape text := by
  have hrows := Tree.rows_ofLog (f := .branch .nil b) ⟨trivial, hb⟩
    (by simpa [Forest.encode] using hlog) text errors
  rw [Forest.outline_layout] at hrows
  have hfold :=
    Tree.map_foldFrom_of_rows (fun kind span => Shape.token kind (Text.slice text span)) .node hrows
  rw [← Layout.shapes_eq_folds, Forest.layout, Layout.roots, List.map_append,
    List.map_singleton] at hfold
  rw [shape, shapeFrom_eq_foldFrom]
  exact (List.cons.inj hfold).1

mutual

def Forest.Faultless : Forest → Prop
  | .nil => True
  | .token f _ _ => f.Faultless
  | .fault _ _ _ => False
  | .blank f => f.Faultless
  | .branch f b => f.Faultless ∧ b.Faultless

def Branch.Faultless : Branch → Prop
  | .node _ inside => inside.Faultless
  | .around first _ inside => first.Faultless ∧ inside.Faultless

end

mutual

theorem Forest.play_faultless : ∀ f : Forest, f.Faultless → ∀ s : Replayed, (f.play s).2 = s.2
  | .nil, _, s => by rw [Forest.play]
  | .token f _ _, hf, s => by
    rw [Forest.Faultless] at hf
    rw [Forest.play, Forest.play_faultless f hf s]
  | .fault _ _ _, hf, s => by
    rw [Forest.Faultless] at hf
    exact hf.elim
  | .blank f, hf, s => by
    rw [Forest.Faultless] at hf
    rw [Forest.play, Forest.play_faultless f hf s]
  | .branch f b, hf, s => by
    rw [Forest.Faultless] at hf
    rw [Forest.play, Branch.play_faultless b hf.2, Forest.play_faultless f hf.1 s]

theorem Branch.play_faultless : ∀ b : Branch, b.Faultless →
    ∀ (outer : List NodeKind) (s : Replayed),
    (b.play outer s).2 = s.2
  | .node _ inside, hb, outer, s => by
    rw [Branch.Faultless] at hb
    rw [Branch.play, Forest.play_faultless inside hb]
  | .around first kind inside, hb, outer, s => by
    rw [Branch.Faultless] at hb
    rw [Branch.play, Forest.play_faultless inside hb.2, Branch.play_faultless first hb.1]

end

theorem Tree.errors_ofLog {b : Branch} (hb : b.Proper false) (hfaultless : b.Faultless)
    {log : EventLog} (hlog : log.toList = b.encode false) (text : String) :
    (Tree.ofLog text log []).errors = [] := by
  have hreplay := TreeBuilder.replayFrom_encode (f := .branch .nil b) ⟨trivial, hb⟩
    (by simpa [Forest.encode] using hlog)
  have hplay := Forest.play_faultless (.branch .nil b) ⟨trivial, hfaultless⟩ ({}, [])
  simp [Tree.ofLog, hreplay, hplay]

/-- A forest without faults that looks like this. -/
structure Forest.Draws (commented : Bool) (text : String) (f : Forest)
    (shapes : List Shape) : Prop where
  proper : f.Proper commented
  faultless : f.Faultless
  shapes_eq : f.shapes text = shapes

structure Branch.Draws (commented : Bool) (text : String) (b : Branch) (shape : Shape) : Prop where
  proper : b.Proper commented
  faultless : b.Faultless
  shape_eq : b.shape text = shape

section

variable {commented : Bool} {text : String} {f : Forest} {b : Branch} {shapes : List Shape}
  {shape : Shape} {kind : NodeKind}

theorem Forest.draws_nil : Forest.nil.Draws commented text [] := ⟨trivial, trivial, rfl⟩

theorem Forest.Draws.token (h : f.Draws commented text shapes) (kind : TokenKind) (span : Span) :
    (Forest.token f kind span).Draws commented text
    (shapes ++ [.token kind (Text.slice text span)]) :=
  ⟨h.proper, h.faultless, by rw [← h.shapes_eq]; rfl⟩

theorem Forest.Draws.branch (h : f.Draws commented text shapes)
    (hb : b.Draws commented text shape) :
    (Forest.branch f b).Draws commented text (shapes ++ [shape]) :=
  ⟨⟨h.proper, hb.proper⟩, ⟨h.faultless, hb.faultless⟩, by rw [← h.shapes_eq, ← hb.shape_eq]; rfl⟩

theorem Branch.draws_node (h : f.Draws commented text shapes)
    (hkind : kind ≠ .absent ∧ kind ≠ .comment) :
    (Branch.node kind f).Draws commented text (.node kind shapes) := by
  have hcomment : (kind == .comment) = false := by simpa using hkind.2
  refine ⟨⟨hkind.1, fun h => absurd h hkind.2, ?_⟩, h.faultless, by rw [← h.shapes_eq]; rfl⟩
  rw [hcomment, Bool.or_false]
  exact h.proper

theorem Branch.draws_comment (h : f.Draws true text shapes) :
    (Branch.node .comment f).Draws false text (.node .comment shapes) :=
  ⟨⟨by decide, fun _ => rfl, h.proper⟩, h.faultless, by rw [← h.shapes_eq]; rfl⟩

theorem Branch.draws_around (hb : b.Draws commented text shape) (h : f.Draws commented text shapes)
    (hkind : kind ≠ .absent ∧ kind ≠ .comment) :
    (Branch.around b kind f).Draws commented text (.node kind (shape :: shapes)) := by
  refine ⟨⟨hb.proper, hkind.1, hkind.2, h.proper⟩, ⟨hb.faultless, h.faultless⟩, ?_⟩
  rw [← h.shapes_eq, ← hb.shape_eq, Branch.shape, Branch.contents, Layout.shapes_append]
  rfl

end

namespace EventLog

/-- Behind the events `pre` a log holds what looks like this. -/
def Holds (commented : Bool) (text : String) (log : EventLog) (pre : List Event)
    (shapes : List Shape) : Prop :=
  ∃ f : Forest, f.Draws commented text shapes ∧ log.toList = pre ++ f.encode

def HoldsNode (commented : Bool) (text : String) (log : EventLog) (c : ClosedNode)
    (pre : List Event) (shapes : List Shape) (shape : Shape) : Prop :=
  ∃ (f : Forest) (b : Branch), f.Draws commented text shapes ∧ b.Draws commented text shape ∧
    log.toList = pre ++ f.encode ++ b.encode false ∧ c = ⟨(pre ++ f.encode).length + b.front.length⟩

variable {commented : Bool} {text : String} {log log' : EventLog} {c : ClosedNode}
  {pre : List Event} {shapes inner : List Shape} {shape : Shape} {kind : NodeKind}

theorem HoldsNode.holds (h : log.HoldsNode commented text c pre shapes shape) :
    log.Holds commented text pre (shapes ++ [shape]) := by
  obtain ⟨f, b, hf, hb, hlog, -⟩ := h
  refine ⟨.branch f b, hf.branch hb, ?_⟩
  rw [hlog, Forest.encode, List.append_assoc]

theorem Holds.token (h : log.Holds commented text pre shapes) (kind : TokenKind) (span : Span) :
    Holds commented text (log.push (.token kind span)) pre
    (shapes ++ [.token kind (Text.slice text span)]) := by
  obtain ⟨f, hf, hlog⟩ := h
  refine ⟨.token f kind span, hf.token kind span, ?_⟩
  rw [Array.toList_push, hlog, Forest.encode, List.append_assoc]

theorem holds_openNode (commented : Bool) (text : String) (log : EventLog) :
    log.openNode.1.Holds commented text (log.toList ++ [.blank]) [] :=
  ⟨.nil, Forest.draws_nil, by simp [toList_openNode, Forest.encode]⟩

theorem holds_wrap (commented : Bool) (text : String) (log : EventLog) (c : ClosedNode) :
    (log.wrap c).1.Holds commented text (log.wrap c).1.toList [] :=
  ⟨.nil, Forest.draws_nil, by simp [Forest.encode]⟩

/-- A node takes in what was written since it was opened, if it looks like a node of its kind
then. -/
theorem Holds.close_of (h : log.Holds commented text pre shapes) {inside : Bool}
    (hinner : log'.Holds inside text (log.toList ++ [.blank]) inner)
    (hnode : ∀ f : Forest, f.Draws inside text inner →
      (Branch.node kind f).Draws commented text shape) :
    (log'.close log.openNode.2 kind).1.HoldsNode commented text
    (log'.close log.openNode.2 kind).2 pre shapes shape := by
  obtain ⟨f, hf, hlog⟩ := h
  obtain ⟨g, hg, hlog'⟩ := hinner
  have hmarker : log.openNode.2 = ⟨(pre ++ f.encode).length⟩ := by
    rw [← hlog, Array.length_toList]
    exact congrArg Marker.mk (position_openNode log)
  have hinside : log'.toList = pre ++ f.encode ++ .blank :: g.encode := by
    rw [hlog', hlog]
    simp
  rw [hmarker]
  exact ⟨f, .node kind g, hf, hnode g hg, toList_close hinside kind, rfl⟩

theorem Holds.close (h : log.Holds commented text pre shapes)
    (hinner : log'.Holds commented text (log.toList ++ [.blank]) inner)
    (hkind : kind ≠ .absent ∧ kind ≠ .comment) :
    (log'.close log.openNode.2 kind).1.HoldsNode commented text
    (log'.close log.openNode.2 kind).2 pre shapes (.node kind inner) :=
  h.close_of hinner fun _ hf => Branch.draws_node hf hkind

theorem HoldsNode.close (h : log.HoldsNode commented text c pre shapes shape)
    (hinner : log'.Holds commented text (log.wrap c).1.toList inner)
    (hkind : kind ≠ .absent ∧ kind ≠ .comment) :
    (log'.close (log.wrap c).2 kind).1.HoldsNode commented text
    (log'.close (log.wrap c).2 kind).2 pre shapes (.node kind (shape :: inner)) := by
  obtain ⟨f, b, hf, hb, hlog, hc⟩ := h
  obtain ⟨g, hg, hlog'⟩ := hinner
  have hmarker : (log.wrap c).2 = ⟨(pre ++ f.encode ++ b.encode true).length⟩ :=
    congrArg Marker.mk (position_wrap hlog c)
  have hinside : log'.toList = pre ++ f.encode ++ b.encode true ++ .blank :: g.encode := by
    rw [hlog', hc, toList_wrap hlog]
    simp
  refine ⟨f, .around b kind g, hf, Branch.draws_around hb hg hkind, ?_, ?_⟩
  · rw [hmarker]
    exact toList_close_around hinside kind
  · rw [hmarker, Branch.front]
    exact congrArg ClosedNode.mk List.length_append

end EventLog

end LuaAnalysis.Syntax
