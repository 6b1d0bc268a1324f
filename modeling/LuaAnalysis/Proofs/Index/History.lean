import Mathlib.Data.List.Induction
import LuaAnalysis.Proofs.Index.Locality
import LuaAnalysis.Workspace.Project

/-!
An index has no memory: after any edits, it answers as one into which only the documents that are
open now were analyzed, in whatever order.
-/

namespace LuaAnalysis.Workspace

open Document LuaAnalysis.Types Scope Settings Index

/-- An edit of a workspace. One that does not apply is refused and changes nothing. -/
inductive Edit where
  | add (uri : Uri) (text : String)
  | update (uri : Uri) (text : String)
  | remove (uri : Uri)

namespace Project

def apply (p : Project) : Edit → Project
  | .add uri text => (p.add uri text).1
  | .update uri text => ((p.update? uri text).map (·.1)).getD p
  | .remove uri => ((p.remove? uri).map (·.1)).getD p

def run (p : Project) (edits : List Edit) : Project := edits.foldl apply p

/-- The documents that are open, with their references and texts. -/
def openDocs (p : Project) : List (DocId × Uri × String) :=
  p.store.sources.entries.map fun (id, s) => (id, s.uri, s.text)

end Project

variable (settings : Settings)

/-- The index that documents make when each is analyzed once. -/
def Index.ofDocs (docs : List (DocId × Uri × String)) : Index :=
  docs.foldl (fun i (id, uri, text) => analyze settings (.ofText id uri text) i)
    (.ofSettings settings)

/-- What a document writes to an index that has nothing of it yet. -/
def Source.part (s : Source) : Index.Part := (analyze settings s (.ofSettings settings)).part s.id

def partOf (s? : Option Source) : Index.Part :=
  match s? with
  | some s => Source.part settings s
  | none => .blank settings.workspace.roots settings.runtime.requirePatterns

namespace Index

variable {settings} {i j : Index} {doc : DocId}

theorem ownsDecls_ofSettings (doc : DocId) : ((ofSettings settings).part doc).OwnsDecls doc := by
  rw [part_ofSettings]
  exact Part.ownsDecls_blank _ _ doc

theorem Local.modules_eq {f : Index → Index} (hf : Local doc f) (hi : (i.part doc).OwnsDecls doc) :
    (f i).modules.roots = i.modules.roots ∧ (f i).modules.patterns = i.modules.patterns := by
  have hother : (f i).part (doc + 1) = i.part (doc + 1) := hf.frame i hi (doc + 1) (by simp)
  exact ⟨congrArg Part.roots hother, congrArg Part.patterns hother⟩

theorem part_analyze_of_ne {s : Source} (hi : (i.part s.id).OwnsDecls s.id) (hne : doc ≠ s.id) :
    (analyze settings s i).part doc = i.part doc :=
  (local_analyze settings s).frame i hi doc hne

theorem part_analyze_self {s : Source} (hi : i.part s.id = (ofSettings settings).part s.id) :
    (analyze settings s i).part s.id = Source.part settings s :=
  ((local_analyze settings s).determined _ _ (ownsDecls_ofSettings s.id) hi.symm).symm

theorem ownsDecls_part (s : Source) : (Source.part settings s).OwnsDecls s.id :=
  (local_analyze settings s).ownsDecls _ (ownsDecls_ofSettings s.id)

theorem roots_part (s : Source) : (Source.part settings s).roots = settings.workspace.roots :=
  ((local_analyze settings s).modules_eq (ownsDecls_ofSettings s.id)).1

theorem patterns_part (s : Source) : (Source.part settings s).patterns =
    settings.runtime.requirePatterns :=
  ((local_analyze settings s).modules_eq (ownsDecls_ofSettings s.id)).2

def FilledFrom (settings : Settings) (i : Index) (source? : DocId → Option Source) : Prop :=
  ∀ doc, (∀ s, source? doc = some s → s.id = doc) ∧ i.part doc = partOf settings (source? doc)

namespace FilledFrom

variable {source? : DocId → Option Source}

theorem congr (h : FilledFrom settings i source?) {other? : DocId → Option Source}
    (hsame : ∀ doc, source? doc = other? doc) : FilledFrom settings i other? :=
  fun doc => hsame doc ▸ h doc

theorem ownsDecls (h : FilledFrom settings i source?) (doc : DocId) :
    (i.part doc).OwnsDecls doc := by
  obtain ⟨hid, hpart⟩ := h doc
  rw [hpart]
  cases hsource : source? doc with
  | none => exact Part.ownsDecls_blank _ _ doc
  | some s =>
    obtain rfl := hid s hsource
    exact ownsDecls_part s

theorem modules_eq (h : FilledFrom settings i source?) :
    i.modules.roots = settings.workspace.roots ∧
    i.modules.patterns = settings.runtime.requirePatterns := by
  have hpart : i.part 0 = partOf settings (source? 0) := (h 0).2
  have hroots : i.modules.roots = (partOf settings (source? 0)).roots := congrArg Part.roots hpart
  have hpatterns : i.modules.patterns = (partOf settings (source? 0)).patterns :=
    congrArg Part.patterns hpart
  rw [hroots, hpatterns]
  cases source? 0 with
  | none => exact ⟨rfl, rfl⟩
  | some s => exact ⟨roots_part s, patterns_part s⟩

theorem nothing : FilledFrom settings (ofSettings settings) fun _ => none :=
  fun doc => ⟨by simp, part_ofSettings settings doc⟩

theorem remove (h : FilledFrom settings i source?) (doc : DocId) :
    FilledFrom settings (i.remove doc) fun d => if d = doc then none else source? d := by
  obtain ⟨hroots, hpatterns⟩ := h.modules_eq
  intro d
  rw [part_remove, hroots, hpatterns]
  by_cases hd : d = doc
  · simp [hd, partOf]
  · simpa [hd] using h d

theorem analyze (h : FilledFrom settings i source?) {s : Source} (hnew : source? s.id = none) :
    FilledFrom settings (analyze settings s i) fun d => if d = s.id then some s else source? d := by
  intro d
  by_cases hd : d = s.id
  · subst hd
    have hblank : i.part s.id = (ofSettings settings).part s.id := by
      rw [(h s.id).2, hnew, part_ofSettings]
      rfl
    simp [partOf, part_analyze_self hblank]
  · rw [part_analyze_of_ne (h.ownsDecls s.id) hd]
    simpa [hd] using h d

theorem sameAnswers (hi : FilledFrom settings i source?) (hj : FilledFrom settings j source?) :
    SameAnswers i j :=
  sameAnswers_of_parts fun doc => (hi doc).2.trans (hj doc).2.symm

end FilledFrom

def listedSource? (docs : List (DocId × Uri × String)) (doc : DocId) : Option Source :=
  (docs.find? fun d => d.1 == doc).map fun (id, uri, text) => .ofText id uri text

theorem listedSource?_concat (docs : List (DocId × Uri × String)) (id : DocId) (uri : Uri)
    (text : String) : listedSource? (docs ++ [(id, uri, text)]) doc =
      (listedSource? docs doc).or (if doc = id then some (.ofText id uri text) else none) := by
  by_cases hdoc : id = doc
  · cases hfind : docs.find? fun d => d.1 == doc <;>
      simp [listedSource?, List.find?_append, hfind, hdoc]
  · cases hfind : docs.find? fun d => d.1 == doc <;>
      simp [listedSource?, List.find?_append, hfind, hdoc, Ne.symm hdoc]

theorem listedSource?_of_not_mem {docs : List (DocId × Uri × String)} (h : doc ∉ docs.map (·.1)) :
    listedSource? docs doc = none := by
  have hnone : docs.find? (fun d => d.1 == doc) = none :=
    List.find?_eq_none.2 fun d hd => by
      simpa using fun heq : d.1 = doc => h (List.mem_map.2 ⟨d, hd, heq⟩)
  rw [listedSource?, hnone, Option.map_none]

theorem listedSource?_of_mem {docs : List (DocId × Uri × String)}
    (h : (docs.map (·.1)).Nodup) {uri : Uri} {text : String} (hmem : (doc, uri, text) ∈ docs) :
    listedSource? docs doc = some (.ofText doc uri text) := by
  induction docs with
  | nil => simp at hmem
  | cons first rest ih =>
    obtain ⟨hfirst, hrest⟩ := List.nodup_cons.1 h
    rcases List.mem_cons.1 hmem with rfl | hmem
    · simp [listedSource?]
    · have hne : first.1 ≠ doc := fun heq => hfirst (List.mem_map.2 ⟨_, hmem, heq.symm⟩)
      simpa [listedSource?, hne] using ih hrest hmem

theorem listedSource?_perm {docs order : List (DocId × Uri × String)} (h : (docs.map (·.1)).Nodup)
    (hperm : order.Perm docs) : listedSource? order = listedSource? docs := by
  funext doc
  by_cases hdoc : doc ∈ docs.map (·.1)
  · obtain ⟨⟨id, uri, text⟩, hmem, rfl⟩ := List.mem_map.1 hdoc
    have horder : (order.map (·.1)).Nodup := (hperm.map _).nodup_iff.2 h
    rw [listedSource?_of_mem h hmem, listedSource?_of_mem horder (hperm.mem_iff.2 hmem)]
  · rw [listedSource?_of_not_mem hdoc,
      listedSource?_of_not_mem fun h => hdoc ((hperm.map _).mem_iff.1 h)]

theorem filledFrom_ofDocs {docs : List (DocId × Uri × String)} (h : (docs.map (·.1)).Nodup) :
    FilledFrom settings (ofDocs settings docs) (listedSource? docs) := by
  induction docs using List.reverseRecOn with
  | nil => exact .nothing
  | append_singleton docs last ih =>
    obtain ⟨id, uri, text⟩ := last
    rw [List.map_append, List.map_singleton, List.nodup_append] at h
    obtain ⟨hdocs, -, hdisjoint⟩ := h
    have hnew : listedSource? docs id = none :=
      listedSource?_of_not_mem fun hid => hdisjoint id hid id (List.mem_singleton.2 rfl) rfl
    have hstep := (ih hdocs).analyze (s := .ofText id uri text) hnew
    rw [ofDocs, List.foldl_concat]
    refine hstep.congr fun d => ?_
    by_cases hd : d = id <;> simp [listedSource?_concat, hd, hnew]

end Index

namespace Project

/-- What every run of edits keeps. The sources of a store follow from their references and texts. -/
structure Faithful (p : Project) : Prop where
  source_eq : ∀ doc s, p.store.get? doc = some s → s = .ofText doc s.uri s.text
  index_eq : FilledFrom p.settings p.index p.store.get?

variable {settings} {p : Project}

theorem faithful_ofSettings (settings : Settings) : (ofSettings settings).Faithful where
  source_eq doc s h := by simp [ofSettings, Store.get?] at h
  index_eq := .nothing

theorem fst_add (p : Project) (uri : Uri) (text : String) : (p.add uri text).1 =
    { p with
      store := (p.store.setText uri text).1
      index := analyze p.settings (.ofText (p.store.setText uri text).2 uri text)
        (p.index.remove (p.store.setText uri text).2) } := by
  simp only [add, Store.get?_setText, if_true]

theorem source?_add (p : Project) (uri : Uri) (text : String) :
    (p.add uri text).1.source? (p.add uri text).2 = some (.ofText (p.add uri text).2 uri text) := by
  have hget := p.store.get?_setText uri text (p.store.setText uri text).2
  rwa [if_pos rfl] at hget

theorem source?_single (settings : Settings) (uri : Uri) (text : String) (doc : DocId) :
    ((ofSettings settings).run [.add uri text]).source? doc =
    if doc = 0 then some (.ofText 0 uri text) else none := by
  have hget := (ofSettings settings).store.get?_setText uri text doc
  have hid : ((ofSettings settings).store.setText uri text).2 = 0 := by
    simp [ofSettings, Store.setText, Store.intern, Store.lookup?]
  rw [hid] at hget
  exact hget

theorem Faithful.add (h : p.Faithful) (uri : Uri) (text : String) :
    (p.add uri text).1.Faithful := by
  rw [fst_add]
  generalize hid : (p.store.setText uri text).2 = id
  have hget : (p.store.setText uri text).1.get? =
      fun doc => if doc = id then some (.ofText id uri text) else p.store.get? doc :=
    funext fun doc => hid ▸ p.store.get?_setText uri text doc
  refine ⟨fun doc s hs => ?_, ?_⟩
  · rw [hget] at hs
    by_cases hdoc : doc = id
    · obtain rfl : Source.ofText id uri text = s := by simpa [hdoc] using hs
      simp [hdoc]
    · exact h.source_eq doc s (by simpa [hdoc] using hs)
  · have hfilled := (h.index_eq.remove id).analyze (s := .ofText id uri text) (by simp)
    dsimp only
    refine hfilled.congr fun doc => ?_
    by_cases hdoc : doc = id <;> simp [hget, hdoc]

theorem Faithful.remove (h : p.Faithful) (id : DocId) :
    Faithful { p with store := p.store.remove id, index := p.index.remove id } := by
  have hget : (p.store.remove id).get? = fun doc => if doc = id then none else p.store.get? doc :=
    funext fun doc => p.store.get?_remove id doc
  refine ⟨fun doc s hs => ?_, ?_⟩
  · by_cases hdoc : doc = id
    · simp [hget, hdoc] at hs
    · exact h.source_eq doc s (by simpa [hget, hdoc] using hs)
  · rw [hget]
    exact h.index_eq.remove id

theorem Faithful.apply (h : p.Faithful) (e : Edit) : (p.apply e).Faithful := by
  cases e with
  | add uri text => exact h.add uri text
  | update uri text =>
    cases hid : p.store.lookup? uri with
    | none => simpa [Project.apply, update?, hid] using h
    | some id => simpa [Project.apply, update?, hid] using h.add uri text
  | remove uri =>
    cases hid : p.docId? uri with
    | none => simpa [Project.apply, remove?, hid] using h
    | some id => simpa [Project.apply, remove?, hid] using h.remove id

theorem Faithful.run (h : p.Faithful) (edits : List Edit) : (p.run edits).Faithful := by
  induction edits generalizing p with
  | nil => exact h
  | cons e edits ih => exact ih (h.apply e)

theorem Faithful.part_eq (h : p.Faithful) {doc : DocId} {s : Source} (hs : p.source? doc = some s) :
    s.id = doc ∧ p.index.part doc = Source.part p.settings s := by
  obtain ⟨hid, hpart⟩ := h.index_eq doc
  rw [source?] at hs
  rw [hs] at hpart
  exact ⟨hid s hs, hpart⟩

theorem settings_run (edits : List Edit) : (p.run edits).settings = p.settings := by
  induction edits generalizing p with
  | nil => rfl
  | cons e edits ih =>
    refine (ih (p := p.apply e)).trans ?_
    cases e with
    | add uri text => rfl
    | update uri text => cases hid : p.store.lookup? uri <;>
        simp [Project.apply, update?, hid, Project.add]
    | remove uri => cases hid : p.docId? uri <;> simp [Project.apply, remove?, hid]

theorem nodup_openDocs (p : Project) : (p.openDocs.map (·.1)).Nodup := by
  simp only [openDocs, List.map_map]
  exact List.pairwise_map.2 (p.store.sources.ascending.imp fun h => Nat.ne_of_lt h)

theorem Faithful.listedSource?_openDocs (h : p.Faithful) :
    listedSource? p.openDocs = p.store.get? := by
  funext doc
  cases hsource : p.store.get? doc with
  | none =>
    refine listedSource?_of_not_mem fun hmem => ?_
    simp only [openDocs, List.map_map, List.mem_map] at hmem
    obtain ⟨⟨id, s⟩, hs, rfl⟩ := hmem
    have hsome := (p.store.sources.get?_eq_some_iff id s).2 hs
    simp [Store.get?, hsome] at hsource
  | some s =>
    rw [h.source_eq doc s hsource]
    refine listedSource?_of_mem p.nodup_openDocs (List.mem_map.2 ⟨(doc, s), ?_, rfl⟩)
    exact (p.store.sources.get?_eq_some_iff doc s).1 hsource

/-- After any edits, the index answers as one into which the open documents are analyzed once each,
in any order. -/
theorem run_sameAnswers_ofDocs (settings : Settings) (edits : List Edit)
    (order : List (DocId × Uri × String))
    (horder : order.Perm ((ofSettings settings).run edits).openDocs) :
    SameAnswers ((ofSettings settings).run edits).index (.ofDocs settings order) := by
  have hrun := (faithful_ofSettings settings).run edits
  have hindex := hrun.index_eq
  rw [settings_run, ← hrun.listedSource?_openDocs,
    ← listedSource?_perm (nodup_openDocs _) horder] at hindex
  have hnodup : (order.map (·.1)).Nodup := (horder.map _).nodup_iff.2 (nodup_openDocs _)
  exact hindex.sameAnswers (filledFrom_ofDocs hnodup)

theorem run_sameAnswers_two_docs :
    SameAnswers ((ofSettings {}).run [.add ⟨"a", "a"⟩ "x = 1", .add ⟨"b", "b"⟩ "y = x",
      .remove ⟨"a", "a"⟩, .add ⟨"a", "a"⟩ "return y", .update ⟨"b", "b"⟩ "z = 2"]).index
      (.ofDocs {} [(1, ⟨"b", "b"⟩, "z = 2"), (0, ⟨"a", "a"⟩, "return y")]) := by
  refine run_sameAnswers_ofDocs {} _ _ ?_
  have hopen : ((ofSettings {}).run [.add ⟨"a", "a"⟩ "x = 1", .add ⟨"b", "b"⟩ "y = x",
      .remove ⟨"a", "a"⟩, .add ⟨"a", "a"⟩ "return y", .update ⟨"b", "b"⟩ "z = 2"]).openDocs =
      [(0, ⟨"a", "a"⟩, "return y"), (1, ⟨"b", "b"⟩, "z = 2")] := by decide +kernel
  rw [hopen]
  exact List.Perm.swap _ _ _

end Project

end LuaAnalysis.Workspace
