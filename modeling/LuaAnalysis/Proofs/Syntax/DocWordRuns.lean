import LuaAnalysis.Proofs.Syntax.DocRuns
import LuaAnalysis.Proofs.Syntax.DocWords
import LuaAnalysis.Proofs.Syntax.Shape

namespace LuaAnalysis.Syntax

def DocWord.headKind : List DocWord → TokenKind
  | [] => .docLineEnd
  | w :: _ => w.kind

open DocWord

namespace DocParser

/-- The reader stands in front of words, and its line is the last one. -/
structure At (text : String) (p : DocParser) (ws : List DocWord) : Prop where
  spells : DocSpells text ws p.current p.lexer
  text_eq : p.text = text
  last : p.later = []
  room : ws.length ≤ p.bound

/-- The reader stands in front of words and has written what looks like this behind the events
`pre`. -/
def Wrote (text : String) (p : DocParser) (pre : List Event) (shapes : List Shape)
    (ws : List DocWord) : Prop :=
  p.At text ws ∧ p.log.Holds true text pre shapes

def WroteNode (text : String) (p : DocParser) (c : ClosedNode) (pre : List Event)
    (shapes : List Shape) (shape : Shape) (ws : List DocWord) : Prop :=
  p.At text ws ∧ p.log.HoldsNode true text c pre shapes shape

variable {text : String} {p : DocParser} {pre : List Event} {shapes : List Shape} {w : DocWord}
  {ws : List DocWord}

theorem At.withLog (h : p.At text ws) (log : EventLog) : At text { p with log := log } ws :=
  ⟨h.spells, h.text_eq, h.last, h.room⟩

theorem At.withDepth (h : p.At text ws) (depth : Nat) : At text { p with depth := depth } ws :=
  ⟨h.spells, h.text_eq, h.last, h.room⟩

theorem At.kind_eq (h : p.At text ws) : p.kind = headKind ws := by
  have hspells := h.spells
  cases hspells with
  | nil hkind => exact hkind
  | cons hkind => exact hkind

theorem At.currentText_eq (h : p.At text (w :: ws)) : p.currentText = w.text := by
  have hspells := h.spells
  cases hspells with
  | cons _ _ htext => rw [currentText, h.text_eq, htext]

theorem At.bump (h : p.At text (w :: ws)) : p.bump.At text ws ∧
    p.bump.log = p.log.push (.token w.kind p.current.span) ∧
    Text.slice text p.current.span = w.text := by
  have hroom := h.room
  have hspells := h.spells
  cases hspells with
  | cons hkind hword htext hbehind =>
    have hbump : p.bump = { p with
        log := p.log.push (.token w.kind p.current.span)
        current := p.lexer.next.1
        lexer := p.lexer.next.2 } := by
      simp [DocParser.bump, sees, kind, hkind, hword]
    rw [hbump]
    exact ⟨⟨hbehind, h.text_eq, h.last, Nat.le_of_succ_le hroom⟩, rfl, htext⟩

theorem Wrote.bump (h : p.Wrote text pre shapes (w :: ws)) :
    p.bump.Wrote text pre (shapes ++ [w.shape]) ws := by
  obtain ⟨hbehind, hbump, htext⟩ := h.1.bump
  refine ⟨hbehind, ?_⟩
  rw [hbump, DocWord.shape, ← htext]
  exact h.2.token w.kind p.current.span

end DocParser

open DocParser

/-- A reader takes up words and writes what they look like. -/
def Takes {α : Type} (text : String) (ws : List DocWord) (m : DocM α) (a : α) (inner : List Shape)
    (ws' : List DocWord) : Prop :=
  ∀ p pre shapes, p.Wrote text pre shapes ws → ∃ q : DocParser, m p = .ok a q ∧
    q.Wrote text pre (shapes ++ inner) ws'

def TakesNode (text : String) (ws : List DocWord) (m : DocM ClosedNode) (shape : Shape)
    (ws' : List DocWord) : Prop :=
  ∀ p pre shapes, p.Wrote text pre shapes ws →
    ∃ (q : DocParser) (c : ClosedNode), m p = .ok c q ∧ q.WroteNode text c pre shapes shape ws'

def TakesBehind (text : String) (shape : Shape) (ws : List DocWord)
    (m : ClosedNode → DocM ClosedNode) (shape' : Shape) (ws' : List DocWord) : Prop :=
  ∀ p c pre shapes, p.WroteNode text c pre shapes shape ws →
    ∃ (q : DocParser) (c' : ClosedNode), m c p = .ok c' q ∧
    q.WroteNode text c' pre shapes shape' ws'

section

variable {α β : Type} {text : String} {ws ws' ws'' : List DocWord} {w : DocWord} {m : DocM α}
  {a : α} {b : β} {inner inner' : List Shape} {shape shape' shape'' : Shape} {single :
    DocM ClosedNode} {body : DocM Unit} {kind : TokenKind}

theorem DocM.bind_ok {f : α → DocM β} {p q : DocParser} (h : m p = .ok a q) :
    (m >>= f) p = f a q := by
  show EStateM.bind m f p = f a q
  unfold EStateM.bind
  rw [h]

theorem Takes.bind {f : α → DocM β} (h : Takes text ws m a inner ws')
    (h' : Takes text ws' (f a) b inner' ws'') :
    Takes text ws (m >>= f) b (inner ++ inner') ws'' := by
  intro p pre shapes hp
  obtain ⟨q, hm, hq⟩ := h p pre shapes hp
  obtain ⟨r, hf, hr⟩ := h' q pre (shapes ++ inner) hq
  exact ⟨r, (DocM.bind_ok hm).trans hf, by rwa [← List.append_assoc]⟩

theorem takes_pure (a : α) : Takes text ws (pure a : DocM α) a [] ws := by
  intro p pre shapes hp
  exact ⟨p, rfl, by rwa [List.append_nil]⟩

theorem takes_look {g : DocParser → α} (hm : ∀ p, m p = .ok (g p) p)
    (ha : ∀ p, p.At text ws → g p = a) : Takes text ws m a [] ws := by
  intro p pre shapes hp
  exact ⟨p, by rw [hm, ha p hp.1], by rwa [List.append_nil]⟩

theorem takes_sees (kind : TokenKind) :
    Takes text ws (DocM.sees kind) (headKind ws == kind) [] ws :=
  takes_look (fun _ => rfl) fun p hp => by rw [sees, hp.kind_eq]

theorem takes_kind : Takes text ws DocM.kind (headKind ws) [] ws :=
  takes_look (fun _ => rfl) fun _ hp => hp.kind_eq

theorem takes_currentText : Takes text (w :: ws) DocM.currentText w.text [] (w :: ws) :=
  takes_look (fun _ => rfl) fun _ hp => hp.currentText_eq

theorem takes_bound {f : Nat → DocM α} (h : ∀ n, ws.length ≤ n → Takes text ws (f n) a inner ws') :
    Takes text ws (do f (← get).bound) a inner ws' := by
  intro p pre shapes hp
  exact h p.bound hp.1.room p pre shapes hp

theorem takes_bump : Takes text (w :: ws) DocM.bump () [w.shape] ws := by
  intro p pre shapes hp
  exact ⟨p.bump, rfl, hp.bump⟩

theorem takes_eat (hkind : w.kind = kind) :
    Takes text (w :: ws) (DocM.eat kind) true [w.shape] ws := by
  refine (takes_sees kind).bind ?_
  rw [headKind, hkind, beq_self_eq_true]
  exact takes_bump.bind (takes_pure true)

theorem takes_eat_of_ne (hkind : headKind ws ≠ kind) :
    Takes text ws (DocM.eat kind) false [] ws := by
  refine (takes_sees kind).bind ?_
  rw [beq_false_of_ne hkind]
  exact takes_pure false

theorem takes_expect (hkind : w.kind = kind) :
    Takes text (w :: ws) (DocM.expect kind) () [w.shape] ws :=
  (takes_eat hkind).bind (takes_pure ())

theorem takes_unlessSees (hkind : headKind ws ≠ kind) (h : Takes text ws body () inner ws') :
    Takes text ws (DocM.unlessSees kind body) () inner ws' := by
  refine (takes_sees kind).bind ?_
  rw [beq_false_of_ne hkind]
  exact h

theorem takes_unlessSees_of_eq (hkind : headKind ws = kind) :
    Takes text ws (DocM.unlessSees kind body) () [] ws := by
  refine (takes_sees kind).bind ?_
  rw [hkind, beq_self_eq_true]
  exact takes_pure ()

theorem takes_get {f : DocParser → DocM α}
    (h : ∀ p, p.At text ws → Takes text ws (f p) a inner ws') :
    Takes text ws (get >>= f) a inner ws' := fun p pre shapes hp => h p hp.1 p pre shapes hp

theorem takes_tryCatch {handle : SyntaxError → DocM α} (h : Takes text ws m a inner ws') :
    Takes text ws (tryCatch m handle) a inner ws' := by
  intro p pre shapes hp
  obtain ⟨q, hm, hq⟩ := h p pre shapes hp
  refine ⟨q, ?_, hq⟩
  show EStateM.tryCatch m _ p = _
  unfold EStateM.tryCatch
  rw [hm]

theorem takes_nested (h : Takes text ws body () inner ws') :
    Takes text ws (DocM.nested body) () inner ws' := by
  intro p pre shapes hp
  obtain ⟨q, hbody, hq⟩ := takes_tryCatch h (DocM.deeper p) pre shapes ⟨hp.1.withDepth _, hp.2⟩
  exact ⟨DocM.higher q, DocM.bind_ok (f := fun _ => modify DocM.higher) hbody,
    hq.1.withDepth _, hq.2⟩

theorem takes_repeatWhile {step : DocM Bool} {n : Nat} (h : Takes text ws step true inner ws')
    (h' : Takes text ws' (DocM.repeatWhile step n) () inner' ws'') :
    Takes text ws (DocM.repeatWhile step (n + 1)) () (inner ++ inner') ws'' := by
  have hunfold : DocM.repeatWhile step (n + 1) = step >>= fun b => if b then DocM.repeatWhile step n
      else pure () := rfl
  rw [hunfold]
  exact h.bind h'

theorem takes_repeatWhile_last {step : DocM Bool} {n : Nat}
    (h : Takes text ws step false inner ws') :
    Takes text ws (DocM.repeatWhile step (n + 1)) () inner ws' := by
  have hunfold : DocM.repeatWhile step (n + 1) = step >>= fun b => if b then DocM.repeatWhile step n
      else pure () := rfl
  rw [hunfold, ← List.append_nil inner]
  exact h.bind (takes_pure ())

theorem TakesNode.bind {f : ClosedNode → DocM ClosedNode} (h : TakesNode text ws single shape ws')
    (h' : TakesBehind text shape ws' f shape' ws'') :
    TakesNode text ws (single >>= f) shape' ws'' := by
  intro p pre shapes hp
  obtain ⟨q, c, hm, hq⟩ := h p pre shapes hp
  obtain ⟨r, c', hf, hr⟩ := h' q c pre shapes hq
  exact ⟨r, c', (DocM.bind_ok hm).trans hf, hr⟩

theorem TakesBehind.bind {m f : ClosedNode → DocM ClosedNode}
    (h : TakesBehind text shape ws m shape' ws') (h' : TakesBehind text shape' ws' f shape'' ws'') :
    TakesBehind text shape ws (fun c => m c >>= f) shape'' ws'' := by
  intro p c pre shapes hp
  obtain ⟨q, c', hm, hq⟩ := h p c pre shapes hp
  obtain ⟨r, c'', hf, hr⟩ := h' q c' pre shapes hq
  exact ⟨r, c'', (DocM.bind_ok hm).trans hf, hr⟩

theorem takesBehind_pure : TakesBehind text shape ws pure shape ws :=
  fun p c _ _ hp => ⟨p, c, rfl, hp⟩

theorem takesBehind_look {m : DocM α} {g : DocParser → α} {f : α → ClosedNode → DocM ClosedNode}
    (hm : ∀ p, m p = .ok (g p) p) (ha : ∀ p, p.At text ws → g p = a)
    (h : TakesBehind text shape ws (f a) shape' ws') :
    TakesBehind text shape ws (fun c => m >>= fun a => f a c) shape' ws' := by
  intro p c pre shapes hp
  obtain ⟨q, c', hf, hq⟩ := h p c pre shapes hp
  exact ⟨q, c', (DocM.bind_ok ((hm p).trans (by rw [ha p hp.1]))).trans hf, hq⟩

theorem takesBehind_sees {kind : TokenKind} {f : Bool → ClosedNode → DocM ClosedNode}
    (h : TakesBehind text shape ws (f (headKind ws == kind)) shape' ws') :
    TakesBehind text shape ws (fun c => DocM.sees kind >>= fun b => f b c) shape' ws' :=
  takesBehind_look (fun _ => rfl) (fun p hp => by rw [sees, hp.kind_eq]) h

theorem takesBehind_kind {f : TokenKind → ClosedNode → DocM ClosedNode}
    (h : TakesBehind text shape ws (f (headKind ws)) shape' ws') :
    TakesBehind text shape ws (fun c => DocM.kind >>= fun kind => f kind c) shape' ws' :=
  takesBehind_look (fun _ => rfl) (fun _ hp => hp.kind_eq) h

theorem takesNode_bound {f : Nat → DocM ClosedNode}
    (h : ∀ n, ws.length ≤ n → TakesNode text ws (f n) shape ws') :
    TakesNode text ws (do f (← get).bound) shape ws' := by
  intro p pre shapes hp
  exact h p.bound hp.1.room p pre shapes hp

theorem TakesNode.discard (h : TakesNode text ws single shape ws') :
    Takes text ws (discard single) () [shape] ws' := by
  intro p pre shapes hp
  obtain ⟨q, c, hm, hq⟩ := h p pre shapes hp
  exact ⟨q, DocM.bind_ok (f := fun _ => pure ()) hm, hq.1, hq.2.holds⟩

theorem takesNode_nodeOf {body : DocM NodeKind} {kind : NodeKind}
    (h : Takes text ws body kind inner ws') (hkind : kind ≠ .absent ∧ kind ≠ .comment) :
    TakesNode text ws (DocM.nodeOf body) (.node kind inner) ws' := by
  intro p pre shapes hp
  obtain ⟨q, hbody, hq⟩ :=
    h p.openNode.1 _ _ ⟨hp.1.withLog _, EventLog.holds_openNode true text p.log⟩
  refine ⟨_, _, (nodeOf_apply body p).trans ?_, hq.1.withLog _, hp.2.close hq.2 hkind⟩
  rw [hbody]
  rfl

theorem takesBehind_nodeAround {kind : NodeKind} (h : Takes text ws body () inner ws')
    (hkind : kind ≠ .absent ∧ kind ≠ .comment) :
    TakesBehind text shape ws (fun c => DocM.nodeAround c kind body)
    (.node kind (shape :: inner)) ws' := by
  intro p c pre shapes hp
  obtain ⟨q, hbody, hq⟩ :=
    h (p.wrap c).1 _ _ ⟨hp.1.withLog _, EventLog.holds_wrap true text p.log c⟩
  refine ⟨_, _, (nodeAround_apply c kind body p).trans ?_, hq.1.withLog _, hp.2.close hq.2 hkind⟩
  rw [hbody]
  rfl

end

end LuaAnalysis.Syntax
