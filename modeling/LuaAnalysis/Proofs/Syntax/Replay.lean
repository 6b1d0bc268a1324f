import LuaAnalysis.Proofs.Syntax.Forest
import LuaAnalysis.Syntax.Tree

namespace LuaAnalysis.Syntax

abbrev Replayed := TreeBuilder × List SyntaxError

mutual

/-- Nodes have kinds, and comments do not stand in each other. The flag says whether a comment is
around. -/
def Forest.Proper (commented : Bool) : Forest → Prop
  | .nil => True
  | .token f _ _ => f.Proper commented
  | .fault f _ _ => f.Proper commented
  | .blank f => f.Proper commented
  | .branch f b => f.Proper commented ∧ b.Proper commented

def Branch.Proper (commented : Bool) : Branch → Prop
  | .node kind inside =>
    kind ≠ .absent ∧ (kind = .comment → commented = false) ∧
      inside.Proper (commented || kind == .comment)
  | .around first kind inside =>
    first.Proper commented ∧ kind ≠ .absent ∧ kind ≠ .comment ∧ inside.Proper commented

end

mutual

def Forest.play : Forest → Replayed → Replayed
  | .nil, s => s
  | .token f kind span, s => ((f.play s).1.token kind span, (f.play s).2)
  | .fault f e span, s => ((f.play s).1, ⟨e, span⟩ :: (f.play s).2)
  | .blank f, s => f.play s
  | .branch f b, s => b.play [] (f.play s)

def Branch.play : Branch → List NodeKind → Replayed → Replayed
  | .node kind inside, outer, s =>
    let s := inside.play ((outer ++ [kind]).foldl TreeBuilder.openNode s.1, s.2)
    (s.1.finishNode, s.2)
  | .around first kind inside, outer, s =>
    let s := inside.play (first.play (outer ++ [kind]) s)
    (s.1.finishNode, s.2)

end

namespace Forest

theorem proper_append {commented : Bool} {f : Forest} (hf : f.Proper commented) :
    ∀ g : Forest, g.Proper commented → (f.append g).Proper commented
  | .nil, _ => hf
  | .token g _ _, hg => proper_append hf g hg
  | .fault g _ _, hg => proper_append hf g hg
  | .blank g, hg => proper_append hf g hg
  | .branch g _, hg => ⟨proper_append hf g hg.1, hg.2⟩

end Forest

namespace Replay

abbrev Link := NodeKind × List Event

def encodeLinks : List Link → List Event
  | [] => []
  | (kind, body) :: links => .start kind (wrapperOf (!links.isEmpty) (body.length + 1)) :: body ++
      encodeLinks links

def blankLinks : List Link → List Event
  | [] => []
  | (_, body) :: links => .blank :: body ++ blankLinks links

theorem takeWrappers_links (links : List Link) (front post : List Event) (kinds : List NodeKind)
    {fuel position distance : Nat} (hposition : position + distance = front.length)
    (hfuel : links.length ≤ fuel) :
    TreeBuilder.takeWrappers fuel (front ++ encodeLinks links ++ post).toArray position
        (wrapperOf (!links.isEmpty) distance) kinds =
      ((front ++ blankLinks links ++ post).toArray, (links.map (·.1)).reverse ++ kinds) := by
  induction links generalizing front position distance kinds fuel with
  | nil => cases fuel <;> simp [TreeBuilder.takeWrappers, wrapperOf, encodeLinks, blankLinks]
  | cons link links ih =>
    obtain ⟨kind, body⟩ := link
    obtain ⟨fuel, rfl⟩ : ∃ n, fuel = n + 1 := ⟨fuel - 1, by simp at hfuel; omega⟩
    have hposition' : front.length + (body.length + 1) = (front ++ .blank :: body).length := by simp
    have hnext := ih (front ++ .blank :: body) (kind :: kinds) hposition'
      (Nat.le_of_succ_le_succ hfuel)
    have hget : (front ++ encodeLinks ((kind, body) :: links) ++ post).toArray[front.length]? =
        some (.start kind (wrapperOf (!links.isEmpty) (body.length + 1))) := by
      simp [encodeLinks]
    have hset : (front ++ encodeLinks ((kind, body) :: links) ++
        post).toArray.setIfInBounds front.length .blank = (front ++ .blank :: body ++
        encodeLinks links ++ post).toArray := by
      simp [encodeLinks]
    simp only [List.isEmpty_cons, Bool.not_false, wrapperOf, if_true, TreeBuilder.takeWrappers,
      hposition, hget, hset]
    rw [← wrapperOf, hnext]
    simp [blankLinks]

theorem length_blankLinks (links : List Link) :
    (blankLinks links).length = (encodeLinks links).length := by
  induction links with
  | nil => rfl
  | cons link links ih => simp [encodeLinks, blankLinks, ih]

theorem length_le_encodeLinks (links : List Link) : links.length ≤ (encodeLinks links).length := by
  induction links with
  | nil => exact Nat.le_refl _
  | cons link links ih =>
    simp only [encodeLinks, List.length_append, List.length_cons]
    omega

def replay (past todo : List Event) (s : Replayed) : Replayed :=
  TreeBuilder.replayFrom todo.length past.length (past ++ todo).toArray s.1 s.2

variable {past todo : List Event} {s : Replayed}

theorem replay_nil : replay past [] s = s := rfl

theorem replay_cons {e : Event} {s' : Replayed}
    (h : ∀ log : EventLog, log[past.length]? = some e →
      TreeBuilder.replay log past.length s.1 s.2 = (log, s'.1, s'.2)) :
    replay past (e :: todo) s = replay (past ++ [e]) todo s' := by
  have hstep := h (past ++ e :: todo).toArray (by simp)
  rw [replay, List.length_cons, TreeBuilder.replayFrom, hstep]
  simp [replay]

theorem replay_token (kind : TokenKind) (span : Span) : replay past (.token kind span :: todo) s =
    replay (past ++ [.token kind span]) todo (s.1.token kind span, s.2) :=
  replay_cons fun log h => by simp only [TreeBuilder.replay, h]

theorem replay_fault (fault : Fault) (span : Span) : replay past (.fault fault span :: todo) s =
    replay (past ++ [.fault fault span]) todo (s.1, ⟨fault, span⟩ :: s.2) :=
  replay_cons fun log h => by simp only [TreeBuilder.replay, h]

theorem replay_finish : replay past (.finish :: todo) s =
    replay (past ++ [.finish]) todo (s.1.finishNode, s.2) :=
  replay_cons fun log h => by simp only [TreeBuilder.replay, h]

theorem replay_blank : replay past (.blank :: todo) s = replay (past ++ [.blank]) todo s :=
  replay_cons fun log h => by
    have hnone : ∀ fuel, TreeBuilder.takeWrappers fuel log past.length none [.absent] =
        (log, [.absent]) :=
      fun fuel => by cases fuel <;> rfl
    simp [TreeBuilder.replay, h, Event.blank, hnone]

theorem replay_links (past body post : List Event) (s : Replayed) {kind : NodeKind}
    {links : List Link} (hkinds : ∀ k ∈ kind :: links.map (·.1), k ≠ .absent) :
    ∃ past', replay past (encodeLinks ((kind, body) :: links) ++ post) s =
    replay past' (body ++ blankLinks links ++ post)
    (((links.map (·.1)).reverse ++ [kind]).foldl TreeBuilder.openNode s.1, s.2) := by
  let first := Event.start kind (wrapperOf (!links.isEmpty) (body.length + 1))
  have htodo : encodeLinks ((kind, body) :: links) ++ post = first ::
      (body ++ encodeLinks links ++ post) := by
    simp [encodeLinks, first]
  have hlog : past ++ first :: (body ++ encodeLinks links ++ post) =
      (past ++ first :: body) ++ encodeLinks links ++ post := by simp
  have hget : (past ++ first :: (body ++ encodeLinks links ++ post)).toArray[past.length]? =
      some first := by simp
  have hsize : links.length ≤
      (past ++ first :: (body ++ encodeLinks links ++ post)).toArray.size := by
    have hlength := length_le_encodeLinks links
    simp only [List.size_toArray, List.length_append, List.length_cons]
    omega
  have hposition : past.length + (body.length + 1) = (past ++ first :: body).length := by simp
  have htake := takeWrappers_links links (past ++ first :: body) post [kind] hposition hsize
  have hfilter : ((links.map (·.1)).reverse ++ [kind]).filter (· != .absent) =
      (links.map (·.1)).reverse ++ [kind] :=
    List.filter_eq_self.2 fun k hk => by
      have hne := hkinds k (by simpa [or_comm] using hk)
      simpa using hne
  refine ⟨past ++ [first], ?_⟩
  rw [htodo, replay, List.length_cons, TreeBuilder.replayFrom, TreeBuilder.replay, hget]
  simp only [first]
  rw [← hlog] at htake
  simp only [first] at htake
  rw [htake]
  simp only [hfilter]
  simp [replay, length_blankLinks]

mutual

theorem replay_forest {commented : Bool} : ∀ (f : Forest), f.Proper commented →
    ∀ (past post : List Event) (s : Replayed),
    ∃ past', replay past (f.encode ++ post) s = replay past' post (f.play s)
  | .nil, _, past, post, s => ⟨past, rfl⟩
  | .token f kind span, hf, past, post, s => by
    obtain ⟨past', h⟩ := replay_forest f hf past (.token kind span :: post) s
    rw [Forest.encode, List.append_assoc, List.singleton_append, h, replay_token]
    exact ⟨_, rfl⟩
  | .fault f e span, hf, past, post, s => by
    obtain ⟨past', h⟩ := replay_forest f hf past (.fault e span :: post) s
    rw [Forest.encode, List.append_assoc, List.singleton_append, h, replay_fault]
    exact ⟨_, rfl⟩
  | .blank f, hf, past, post, s => by
    obtain ⟨past', h⟩ := replay_forest f hf past (.blank :: post) s
    rw [Forest.encode, List.append_assoc, List.singleton_append, h, replay_blank]
    exact ⟨_, rfl⟩
  | .branch f b, hf, past, post, s => by
    obtain ⟨past', h⟩ := replay_forest f hf.1 past (b.encode false ++ post) s
    obtain ⟨past'', h'⟩ := replay_branch b hf.2 [] (by simp) past' post (f.play s)
    rw [Forest.encode, List.append_assoc, h]
    exact ⟨past'', by simpa [encodeLinks, blankLinks, Forest.play] using h'⟩

theorem replay_branch {commented : Bool} : ∀ (b : Branch), b.Proper commented →
    ∀ (links : List Link),
    (∀ k ∈ links.map (·.1), k ≠ .absent) → ∀ (past post : List Event) (s : Replayed),
    ∃ past', replay past (b.encode (!links.isEmpty) ++ encodeLinks links ++ post) s =
      replay past' (blankLinks links ++ post) (b.play (links.map (·.1)).reverse s)
  | .node kind inside, hb, links, hlinks, past, post, s => by
    obtain ⟨past', h⟩ :=
      replay_links past (inside.encode ++ [.finish]) post s (List.forall_mem_cons.2 ⟨hb.1, hlinks⟩)
    obtain ⟨past'', h'⟩ := replay_forest inside hb.2.2 past' (.finish :: (blankLinks links ++ post))
      (((links.map (·.1)).reverse ++ [kind]).foldl TreeBuilder.openNode s.1, s.2)
    refine ⟨past'' ++ [.finish], ?_⟩
    rw [show (Branch.node kind inside).encode (!links.isEmpty) ++ encodeLinks links ++ post =
      encodeLinks ((kind, inside.encode ++ [.finish]) :: links) ++ post by
        simp [Branch.encode, encodeLinks], h]
    rw [show inside.encode ++ [.finish] ++ blankLinks links ++ post =
      inside.encode ++ .finish :: (blankLinks links ++ post) by simp, h', replay_finish]
    rfl
  | .around first kind inside, hb, links, hlinks, past, post, s => by
    obtain ⟨hfirst, hkind, -, hinside⟩ := hb
    obtain ⟨past', h⟩ := replay_branch first hfirst ((kind, inside.encode ++ [.finish]) :: links)
      (List.forall_mem_cons.2 ⟨hkind, hlinks⟩) past post s
    obtain ⟨past'', h'⟩ :=
      replay_forest inside hinside (past' ++ [.blank]) (.finish :: (blankLinks links ++ post))
        (first.play ((links.map (·.1)).reverse ++ [kind]) s)
    refine ⟨past'' ++ [.finish], ?_⟩
    rw [show (Branch.around first kind inside).encode (!links.isEmpty) ++
      encodeLinks links ++ post = first.encode true ++
      encodeLinks ((kind, inside.encode ++ [.finish]) :: links) ++ post by
        simp [Branch.encode, encodeLinks]]
    rw [List.isEmpty_cons, Bool.not_false] at h
    rw [h, show blankLinks ((kind, inside.encode ++ [.finish]) :: links) ++ post =
      .blank :: (inside.encode ++ .finish :: (blankLinks links ++ post)) by
        simp [blankLinks], replay_blank,
      List.map_cons, List.reverse_cons, h', replay_finish]
    rfl

end

end Replay

theorem TreeBuilder.replayFrom_encode {f : Forest} (hf : f.Proper false) {log : EventLog}
    (hlog : log.toList = f.encode) : TreeBuilder.replayFrom log.size 0 log {} [] =
    f.play ({}, []) := by
  obtain ⟨past, h⟩ := Replay.replay_forest f hf [] [] ({}, [])
  rw [List.append_nil, Replay.replay_nil] at h
  rw [← h, Replay.replay, ← hlog]
  simp

theorem Tree.elements_ofLog {f : Forest} (hf : f.Proper false) {log : EventLog}
    (hlog : log.toList = f.encode) (text : String) (errors : List SyntaxError) :
    (Tree.ofLog text log errors).elements = (f.play ({}, [])).1.elements := by
  simp [Tree.ofLog, TreeBuilder.replayFrom_encode hf hlog]

end LuaAnalysis.Syntax
