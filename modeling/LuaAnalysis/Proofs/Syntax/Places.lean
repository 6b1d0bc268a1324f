import Mathlib.Computability.Language
import Mathlib.Order.CompletePartialOrder
import LuaAnalysis.Proofs.Syntax.Layout

namespace LuaAnalysis.Syntax

open Computability

namespace NodeKind

def isPlaced : NodeKind → Bool
  | .chunk | .block | .elseIfClause | .elseClause => true
  | kind => kind.isStat

def hasBody : NodeKind → Bool
  | .chunk | .closureExpr | .ifStat | .elseIfClause | .elseClause | .whileStat | .doStat | .forStat
  | .forRangeStat
  | .repeatStat => true
  | _ => false

def mayHold (outer : NodeKind) : NodeKind → Bool
  | .chunk => false
  | .block => outer.hasBody
  | .elseIfClause | .elseClause => outer == .ifStat
  | inner => !inner.isStat || outer == .block

/-- Whether nodes of these kinds may stand together in one of another. -/
def Holds (outer : NodeKind) (inner : List NodeKind) : Prop :=
  (∀ kind ∈ inner, outer.mayHold kind = true) ∧ inner.count .block ≤ 1

instance (outer : NodeKind) (inner : List NodeKind) : Decidable (outer.Holds inner) :=
  inferInstanceAs (Decidable (_ ∧ _))

variable {kind outer : NodeKind} {inner kinds : List NodeKind}

theorem isPlaced_of_isAnnotation (h : kind.isAnnotation = true) : kind.isPlaced = false := by
  cases kind <;> first | rfl | cases h

theorem proper_of_isStat (h : kind.isStat = true) : kind ≠ .absent ∧ kind ≠ .comment := by
  refine ⟨?_, ?_⟩ <;> rintro rfl <;> cases h

/-- What does not stand just anywhere is the body of a function, or is in something that is neither
a function nor a `return` and does not stand just anywhere either. -/
theorem of_mayHold (h : outer.mayHold kind = true) (hkind : kind.isPlaced = true) :
    outer = .closureExpr ∧ kind = .block ∨ outer ≠ .closureExpr ∧ outer ≠ .returnStat ∧
    outer.isPlaced = true := by
  have hblock (h : outer.hasBody = true) : outer = .closureExpr ∨
      outer ≠ .closureExpr ∧ outer ≠ .returnStat ∧ outer.isPlaced = true := by
    cases outer <;> first | exact .inl rfl | exact .inr (by decide) | cases h
  unfold mayHold at h
  split at h
  · cases h
  · exact (hblock h).imp_left fun hclosure => ⟨hclosure, rfl⟩
  · rw [beq_iff_eq.1 h]
    exact .inr (by decide)
  · rw [beq_iff_eq.1 h]
    exact .inr (by decide)
  · have hstat : kind.isStat = true := by
      cases kind <;> first | exact hkind | contradiction
    have hin : outer = .block := by simpa [hstat] using h
    rw [hin]
    exact .inr (by decide)

def oneOf (among : NodeKind → Bool) : Language NodeKind :=
  {kinds | ∃ kind, among kind = true ∧ kinds = [kind]}

def one (kind : NodeKind) : Language NodeKind := oneOf (· == kind)

def maybe (l : Language NodeKind) : Language NodeKind := 1 + l

abbrev expr : Language NodeKind := oneOf isExpr

def isFuncName : NodeKind → Bool
  | .nameExpr | .indexExpr => true
  | _ => false

def isPart : NodeKind → Bool
  | .elseIfClause | .elseClause => true
  | _ => false

def production : NodeKind → Language NodeKind
  | .absent => 0
  | .chunk | .elseClause | .doStat => maybe (one .block)
  | .block => (oneOf isStat)∗
  | .localStat => (one .localName)∗ * expr∗
  | .localFuncStat => one .localName * one .closureExpr
  | .funcStat => maybe (oneOf isFuncName) * one .closureExpr
  | .closureExpr => one .paramList * maybe (one .block)
  | .paramList => (one .paramName)∗
  | .localName => maybe (one .attribute)
  | .ifStat => maybe expr * maybe (one .block) * (oneOf isPart)∗
  | .elseIfClause | .whileStat => maybe expr * maybe (one .block)
  | .repeatStat => maybe (one .block) * maybe expr
  | .forStat => one .paramName * expr∗ * maybe (one .block)
  | .forRangeStat => (one .paramName)∗ * expr∗ * maybe (one .block)
  | .tableExpr => (one .tableField)∗
  | .callExpr => expr * one .callArgList
  | .emptyStat | .callExprStat | .assignStat | .returnStat | .indexExpr | .parenExpr | .unaryExpr
  | .binaryExpr
  | .callArgList | .tableField => expr∗
  | .breakStat | .gotoStat | .labelStat | .nameExpr | .literalExpr | .paramName | .attribute => 1
  | _ => (oneOf isAnnotation)∗

section

variable {l m : Language NodeKind} {among : NodeKind → Bool}

theorem mem_one (kind : NodeKind) : [kind] ∈ one kind := ⟨kind, beq_self_eq_true kind, rfl⟩

theorem mem_oneOf (h : among kind = true) : [kind] ∈ oneOf among := ⟨kind, h, rfl⟩

theorem one_le_oneOf (h : among kind = true) : one kind ≤ oneOf among := by
  rintro _ ⟨kind, hkind, rfl⟩
  rw [beq_iff_eq.1 hkind]
  exact mem_oneOf h

theorem oneOf_mono {among' : NodeKind → Bool} (h : ∀ kind, among kind = true → among' kind = true) :
    oneOf among ≤ oneOf among' := by
  rintro _ ⟨kind, hkind, rfl⟩
  exact mem_oneOf (h kind hkind)

theorem isExpr_of_isFuncName (h : kind.isFuncName = true) : kind.isExpr = true := by
  cases kind <;> first | rfl | cases h

theorem funcName_le_expr : oneOf isFuncName ≤ expr := oneOf_mono fun _ => isExpr_of_isFuncName

theorem one_le_maybe : 1 ≤ maybe l := fun _ => .inl

theorem le_maybe : l ≤ maybe l := fun _ => .inr

theorem maybe_le_kstar : maybe l ≤ l∗ := add_le one_le_kstar le_kstar

theorem mul_le_kstar {k : Language NodeKind} (hl : l ≤ k∗) (hm : m ≤ k∗) : l * m ≤ k∗ :=
  (mul_le_mul' hl hm).trans (kstar_mul_kstar k).le

theorem mem_kstar_oneOf : kinds ∈ (oneOf among)∗ ↔ ∀ kind ∈ kinds, among kind = true := by
  constructor
  · rintro ⟨rows, rfl, hrows⟩ kind hkind
    obtain ⟨row, hrow, hkind⟩ := List.mem_flatten.1 hkind
    obtain ⟨kind', hamong, rfl⟩ := hrows row hrow
    rwa [List.mem_singleton.1 hkind]
  · intro h
    refine ⟨kinds.map fun kind => [kind], (List.flatMap_singleton' kinds).symm, ?_⟩
    rw [List.forall_mem_map]
    exact fun kind hkind => mem_oneOf (h kind hkind)

variable {α : Type} {as : List α} {kindOf : α → NodeKind}

theorem exists_of_map_mem_mul (h : as.map kindOf ∈ l * m) :
    ∃ front rest, as = front ++ rest ∧ front.map kindOf ∈ l ∧ rest.map kindOf ∈ m := by
  obtain ⟨kinds, hkinds, kinds', hkinds', happend⟩ := h
  obtain ⟨front, rest, rfl, rfl, rfl⟩ := List.map_eq_append_iff.1 happend.symm
  exact ⟨front, rest, rfl, hkinds, hkinds'⟩

theorem exists_of_map_mem_oneOf (h : as.map kindOf ∈ oneOf among) : ∃ a, as = [a] ∧
    among (kindOf a) = true := by
  obtain ⟨kind, hkind, hmap⟩ := h
  obtain ⟨a, rfl, rfl⟩ := List.map_eq_singleton_iff.1 hmap
  exact ⟨a, rfl, hkind⟩

theorem exists_of_map_mem_one {kind : NodeKind} (h : as.map kindOf ∈ one kind) : ∃ a, as = [a] ∧
    kindOf a = kind := by
  obtain ⟨a, ha, hkind⟩ := exists_of_map_mem_oneOf h
  exact ⟨a, ha, beq_iff_eq.1 hkind⟩

theorem of_map_mem_maybe (h : as.map kindOf ∈ maybe l) : as = [] ∨ as.map kindOf ∈ l := by
  rcases h with h | h
  · exact .inl (List.map_eq_nil_iff.1 h)
  · exact .inr h

theorem forall_of_map_mem_kstar (h : as.map kindOf ∈ (oneOf among)∗) :
    ∀ a ∈ as, among (kindOf a) = true :=
  List.forall_mem_map.1 (mem_kstar_oneOf.1 h)

end

/-- The nodes of a row may stand in a node of a kind, with at most `n` blocks among them. -/
def Admits (outer : NodeKind) (n : Nat) (l : Language NodeKind) : Prop :=
  ∀ kinds ∈ l, (∀ kind ∈ kinds, outer.mayHold kind = true) ∧ kinds.count .block ≤ n

section

variable {l m : Language NodeKind} {among : NodeKind → Bool} {n k : Nat}

theorem admits_one : outer.Admits 0 1 := by
  rintro kinds rfl
  exact ⟨by simp, by simp⟩

theorem admits_oneOf (h : ∀ kind, among kind = true → outer.mayHold kind = true ∧ kind ≠ .block) :
    outer.Admits 0 (oneOf among) := by
  rintro kinds ⟨kind, hkind, rfl⟩
  obtain ⟨hmay, hblock⟩ := h kind hkind
  refine ⟨by simpa using hmay, ?_⟩
  rw [List.count_singleton, if_neg (by simpa using hblock)]

theorem admits_block (h : outer.hasBody = true) : outer.Admits 1 (one .block) := by
  rintro kinds ⟨kind, hkind, rfl⟩
  obtain rfl := beq_iff_eq.1 hkind
  exact ⟨by simpa [mayHold] using h, by simp⟩

theorem Admits.mul (hl : outer.Admits n l) (hm : outer.Admits k m) :
    outer.Admits (n + k) (l * m) := by
  rintro kinds ⟨front, hfront, rest, hrest, rfl⟩
  obtain ⟨hmay, hcount⟩ := hl front hfront
  obtain ⟨hmay', hcount'⟩ := hm rest hrest
  refine ⟨List.forall_mem_append.2 ⟨hmay, hmay'⟩, ?_⟩
  have hboth : (front ++ rest).count .block = front.count .block + rest.count .block :=
    List.count_append
  exact hboth ▸ Nat.add_le_add hcount hcount'

theorem Admits.le (h : outer.Admits 0 l) : outer.Admits 1 l := fun kinds hkinds =>
  (h kinds hkinds).imp_right fun hcount => Nat.le_trans hcount (Nat.zero_le 1)

theorem Admits.maybe (h : outer.Admits n l) : outer.Admits n (maybe l) := by
  rintro kinds (rfl | hkinds)
  · exact ⟨by simp, by simp⟩
  · exact h kinds hkinds

theorem Admits.kstar (h : outer.Admits 0 l) : outer.Admits 0 l∗ := by
  rintro kinds ⟨rows, rfl, hrows⟩
  refine ⟨fun kind hkind => ?_, ?_⟩
  · obtain ⟨row, hrow, hkind⟩ := List.mem_flatten.1 hkind
    exact (h row (hrows row hrow)).1 kind hkind
  · refine Nat.le_of_eq (List.count_eq_zero.2 fun hblock => ?_)
    obtain ⟨row, hrow, hblock⟩ := List.mem_flatten.1 hblock
    have hcount := (h row (hrows row hrow)).2
    have hpos := List.count_pos_iff.2 hblock
    omega

end

theorem mayHold_of_not_isPlaced (h : kind.isPlaced = false) : outer.mayHold kind = true ∧
    kind ≠ .block := by
  cases kind <;> first | exact ⟨rfl, by simp⟩ | cases h

theorem isPlaced_of_isExpr (h : kind.isExpr = true) : kind.isPlaced = false := by
  cases kind <;> first | rfl | cases h

theorem admits_loose {among : NodeKind → Bool}
    (h : ∀ kind, among kind = true → kind.isPlaced = false) : outer.Admits 0 (oneOf among) :=
  admits_oneOf fun kind hkind => mayHold_of_not_isPlaced (h kind hkind)

theorem admits_kind (h : kind.isPlaced = false) : outer.Admits 0 (one kind) :=
  admits_loose fun _ hkind => by rwa [beq_iff_eq.1 hkind]

theorem holds_of_mem_production (h : kinds ∈ outer.production) : outer.Holds kinds := by
  have hexpr : outer.Admits 0 expr := admits_loose fun _ => isPlaced_of_isExpr
  have hlocal : outer.Admits 0 (one .localName) := admits_kind rfl
  have hparam : outer.Admits 0 (one .paramName) := admits_kind rfl
  have hclosure : outer.Admits 0 (one .closureExpr) := admits_kind rfl
  suffices hall : outer.Admits 1 outer.production from hall kinds h
  cases outer
  case absent => exact fun kinds hkinds => absurd hkinds (Language.notMem_zero kinds)
  case chunk | elseClause | doStat => exact (admits_block rfl).maybe
  case block =>
    refine (admits_oneOf fun kind hstat => ?_).kstar.le
    cases kind <;> first | exact absurd hstat (by decide) | exact ⟨rfl, by decide⟩
  case localStat => exact (hlocal.kstar.mul hexpr.kstar).le
  case localFuncStat => exact (hlocal.mul hclosure).le
  case funcStat =>
    refine (Admits.mul (admits_loose fun kind hname => ?_).maybe hclosure).le
    cases kind <;> first | rfl | cases hname
  case closureExpr => exact (admits_kind rfl).mul (admits_block rfl).maybe
  case paramList => exact hparam.kstar.le
  case localName => exact (admits_kind rfl).maybe.le
  case ifStat =>
    refine (hexpr.maybe.mul (admits_block rfl).maybe).mul (admits_oneOf fun kind hpart => ?_).kstar
    cases kind <;> first | exact absurd hpart (by decide) | exact ⟨rfl, by decide⟩
  case elseIfClause | whileStat => exact hexpr.maybe.mul (admits_block rfl).maybe
  case repeatStat => exact (admits_block rfl).maybe.mul hexpr.maybe
  case forStat => exact (hparam.mul hexpr.kstar).mul (admits_block rfl).maybe
  case forRangeStat => exact (hparam.kstar.mul hexpr.kstar).mul (admits_block rfl).maybe
  case tableExpr => exact (admits_kind rfl).kstar.le
  case callExpr => exact (hexpr.mul (admits_kind rfl)).le
  case
      emptyStat | callExprStat | assignStat | returnStat | indexExpr | parenExpr | unaryExpr |
        binaryExpr | callArgList | tableField => exact hexpr.kstar.le
  case breakStat | gotoStat | labelStat | nameExpr | literalExpr | paramName | «attribute» =>
    exact admits_one.le
  all_goals exact (admits_loose fun _ => isPlaced_of_isAnnotation).kstar.le

theorem present_of_mem_production (h : kinds ∈ kind.production) : kind ≠ .absent := by
  rintro rfl
  exact Language.notMem_zero _ h

theorem mem_production_of_isAnnotation (hkind : kind.isAnnotation = true)
    (h : ∀ kind ∈ kinds, kind.isAnnotation = true) : kinds ∈ kind.production := by
  have hrow := mem_kstar_oneOf.2 h
  cases kind <;> first | exact hrow | cases hkind

end NodeKind

namespace Layout

def kinds : Layout → List NodeKind
  | .nil => []
  | .token l _ _ => l.kinds
  | .node l kind _ => l.kinds ++ [kind].filter (· != .comment)

def Placed : Layout → Prop
  | .nil => True
  | .token l _ _ => l.Placed
  | .node l kind inside => l.Placed ∧ inside.kinds ∈ kind.production ∧ inside.Placed

theorem kinds_append (l g : Layout) : (l.append g).kinds = l.kinds ++ g.kinds := by
  induction g with
  | nil => exact (List.append_nil _).symm
  | token g _ _ ih => exact ih
  | node g _ _ ih _ => rw [append, kinds, kinds, ih, List.append_assoc]

theorem placed_append {l g : Layout} (hl : l.Placed) (hg : g.Placed) : (l.append g).Placed := by
  induction g with
  | nil => exact hl
  | token g _ _ ih => exact ih hg
  | node g _ _ ih _ => exact ⟨ih hg.1, hg.2⟩

end Layout

/-- The nodes side by side make up one of these rows, comments apart. -/
structure Forest.Places (f : Forest) (row : Language NodeKind) : Prop where
  proper : f.Proper false
  placed : f.layout.Placed
  kinds_mem : f.layout.kinds ∈ row

/-- A node of the code with one of these rows in it. -/
structure Branch.Places (b : Branch) (row : Language NodeKind) : Prop where
  proper : b.Proper false
  code : b.kind ≠ .comment
  placed : b.contents.Placed
  kinds_mem : b.contents.kinds ∈ row

theorem Branch.Places.mono {b : Branch} {l m : Language NodeKind} (h : b.Places l) (hle : l ≤ m) :
    b.Places m :=
  ⟨h.proper, h.code, h.placed, hle h.kinds_mem⟩

theorem Forest.layout_append (f g : Forest) : (f.append g).layout = f.layout.append g.layout := by
  fun_induction append f g with
  | case1 => rfl
  | case2 g kind span ih => rw [layout, ih]; rfl
  | case3 g e span ih => exact ih
  | case4 g ih => exact ih
  | case5 g b ih => rw [layout, ih]; rfl

namespace Forest

variable {f g : Forest} {b : Branch} {l m row : Language NodeKind} {kind : NodeKind}

theorem places_nil : Forest.nil.Places 1 := ⟨trivial, trivial, rfl⟩

theorem places_blank : (Forest.blank .nil).Places 1 := ⟨trivial, trivial, rfl⟩

theorem places_token (kind : TokenKind) (span : Span) : (Forest.token .nil kind span).Places 1 :=
  ⟨trivial, trivial, rfl⟩

theorem places_fault (fault : Fault) (span : Span) : (Forest.fault .nil fault span).Places 1 :=
  ⟨trivial, trivial, rfl⟩

theorem Places.mono (h : f.Places l) (hle : l ≤ m) : f.Places m :=
  ⟨h.proper, h.placed, hle h.kinds_mem⟩

theorem Places.append (hf : f.Places l) (hg : g.Places m) : (f.append g).Places (l * m) := by
  refine ⟨proper_append hf.proper g hg.proper, ?_, ?_⟩
  · rw [layout_append]
    exact Layout.placed_append hf.placed hg.placed
  · rw [layout_append, Layout.kinds_append]
    exact Language.append_mem_mul hf.kinds_mem hg.kinds_mem

theorem Places.branch (hf : f.Places l) (hb : b.Places b.kind.production) (hm : [b.kind] ∈ m) :
    (Forest.branch f b).Places (l * m) := by
  refine ⟨⟨hf.proper, hb.proper⟩, ⟨hf.placed, hb.kinds_mem, hb.placed⟩, ?_⟩
  rw [layout, Layout.kinds, List.filter_cons_of_pos (by simpa using hb.code)]
  exact Language.append_mem_mul hf.kinds_mem hm

theorem Places.comment (hf : f.Places l) (hproper : g.Proper true) (hplaced : g.layout.Placed)
    (hkinds : g.layout.kinds ∈ NodeKind.comment.production) :
    (Forest.branch f (.node .comment g)).Places l := by
  refine ⟨⟨hf.proper, by simp, by simp, hproper⟩, ⟨hf.placed, hkinds, hplaced⟩, ?_⟩
  have hnone : (Forest.branch f (.node .comment g)).layout.kinds = f.layout.kinds :=
    List.append_nil _
  rw [hnone]
  exact hf.kinds_mem

theorem Places.node (hf : f.Places row) (hkind : kind ≠ .absent ∧ kind ≠ .comment) :
    (Branch.node kind f).Places row := by
  have hcode : (kind == .comment) = false := by simpa using hkind.2
  refine ⟨⟨hkind.1, fun h => absurd h hkind.2, ?_⟩, hkind.2, hf.placed, hf.kinds_mem⟩
  rw [hcode, Bool.or_false]
  exact hf.proper

theorem Places.around (hb : b.Places b.kind.production) (hl : [b.kind] ∈ l) (hf : f.Places m)
    (hkind : kind ≠ .absent ∧ kind ≠ .comment) : (Branch.around b kind f).Places (l * m) := by
  have hfirst := (places_nil.branch hb hl).append hf
  have hplaced := hfirst.placed
  have hkinds := hfirst.kinds_mem
  rw [layout_append] at hplaced hkinds
  rw [one_mul] at hkinds
  exact ⟨⟨hb.proper, hkind.1, hkind.2, hf.proper⟩, hkind.2, hplaced, hkinds⟩

end Forest

mutual

theorem Forest.placed_of_annotates :
    ∀ f : Forest, f.Annotates → f.layout.Placed ∧ ∀ kind ∈ f.layout.kinds, kind.isAnnotation = true
  | .nil, _ => ⟨trivial, by simp [Forest.layout, Layout.kinds]⟩
  | .token f _ _, hf => Forest.placed_of_annotates f hf
  | .fault f _ _, hf => Forest.placed_of_annotates f hf
  | .blank f, hf => Forest.placed_of_annotates f hf
  | .branch f b, hf => by
    obtain ⟨hplaced, hkinds⟩ := Forest.placed_of_annotates f hf.1
    obtain ⟨hkind, hinside, hannotates⟩ := Branch.placed_of_annotates b hf.2
    refine ⟨⟨hplaced, NodeKind.mem_production_of_isAnnotation hkind hannotates, hinside⟩,
      fun kind hmem => ?_⟩
    rw [Forest.layout, Layout.kinds, List.mem_append] at hmem
    rcases hmem with hmem | hmem
    · exact hkinds kind hmem
    · rwa [List.mem_singleton.1 (List.mem_filter.1 hmem).1]

theorem Branch.placed_of_annotates : ∀ b : Branch, b.Annotates →
    b.kind.isAnnotation = true ∧ b.contents.Placed ∧
    ∀ kind ∈ b.contents.kinds, kind.isAnnotation = true
  | .node _ inside, hb => ⟨hb.1, Forest.placed_of_annotates inside hb.2⟩
  | .around first _ inside, hb => by
    obtain ⟨hkind, hfirst, hannotates⟩ := Branch.placed_of_annotates first hb.1
    obtain ⟨hplaced, hkinds⟩ := Forest.placed_of_annotates inside hb.2.2
    have hnode := NodeKind.mem_production_of_isAnnotation hkind hannotates
    refine ⟨hb.2.1, Layout.placed_append ⟨trivial, hnode, hfirst⟩ hplaced, fun kind hmem => ?_⟩
    rw [Branch.contents, Layout.kinds_append, List.mem_append] at hmem
    rcases hmem with hmem | hmem
    · rwa [List.mem_singleton.1 (List.mem_filter.1 hmem).1]
    · exact hkinds kind hmem

end

/-- Comment nodes side by side, with nothing but annotations in them. -/
inductive Forest.Comments : Forest → Prop
  | nil : Forest.Comments .nil
  | comment {f inside : Forest} : f.Comments → inside.Annotates →
      Forest.Comments (.branch f (.node .comment inside))

namespace Forest.Comments

variable {f g : Forest}

theorem append (hf : f.Comments) (hg : g.Comments) : (f.append g).Comments := by
  induction hg with
  | nil => exact hf
  | comment _ hinside ih => exact .comment ih hinside

theorem places (h : f.Comments) : f.Places 1 := by
  induction h with
  | nil => exact places_nil
  | @comment f inside _ hinside ih =>
    obtain ⟨hplaced, hkinds⟩ := Forest.placed_of_annotates inside hinside
    exact ih.comment (Forest.proper_of_annotates inside hinside) hplaced
      (NodeKind.mem_kstar_oneOf.2 hkinds)

end Forest.Comments

end LuaAnalysis.Syntax
