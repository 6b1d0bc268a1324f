import LuaAnalysis.Proofs.Types.FlatValues
import LuaAnalysis.Proofs.Types.TextReader

/-!
The types of which the text shows where each part ends. Their text is read again as a type that is
equal, so two of them with the same text are equal.
-/

namespace LuaAnalysis.Types

namespace TextReader

open Ty

/-- Entries of one key, or behind indices that are alike, of types that are alike. -/
inductive AlikeEntry : Entry → Entry → Prop
  | field {key : MemberKey} {t u : Ty} (h : Alike t u) : AlikeEntry (.inl (key, t)) (.inl (key, u))
  | access {k l t u : Ty} (hkey : Alike k l) (h : Alike t u) :
      AlikeEntry (.inr (k, t)) (.inr (l, u))

theorem objectOf_entries (fields : List (MemberKey × Ty)) (access : List (Ty × Ty)) :
    objectOf (fields.map .inl ++ access.map .inr) = .object fields access := by
  simp [objectOf, List.filterMap_map, Function.comp_def]

theorem alike_object {es us : List Entry} (h : List.Forall₂ AlikeEntry es us) :
    Alike (objectOf es) (objectOf us) := by
  have hparts : ((es.filterMap Sum.getLeft?).map fun f => (f.1, Ty.unknown)) =
        ((us.filterMap Sum.getLeft?).map fun f => (f.1, Ty.unknown)) ∧
      ((es.filterMap Sum.getRight?).map fun _ => (Ty.unknown, Ty.unknown)) =
        ((us.filterMap Sum.getRight?).map fun _ => (Ty.unknown, Ty.unknown)) ∧
      List.Forall₂ Alike ((es.filterMap Sum.getLeft?).map (·.2))
        ((us.filterMap Sum.getLeft?).map (·.2)) ∧
      List.Forall₂ Alike ((es.filterMap Sum.getRight?).flatMap fun a => [a.1, a.2])
        ((us.filterMap Sum.getRight?).flatMap fun a => [a.1, a.2]) := by
    induction h with
    | nil => exact ⟨rfl, rfl, .nil, .nil⟩
    | cons hfirst _ ih =>
      obtain ⟨hkeys, hindices, hfields, haccess⟩ := ih
      cases hfirst with
      | field h => exact ⟨congrArg (_ :: ·) hkeys, hindices, .cons h hfields, haccess⟩
      | access hkey h => exact ⟨hkeys, congrArg (_ :: ·) hindices, hfields,
          .cons hkey (.cons h haccess)⟩
  obtain ⟨hkeys, hindices, hfields, haccess⟩ := hparts
  exact alike_of_children rfl (congrArg₂ object hkeys hindices) (List.rel_append hfields haccess)

/-- Where the end of a type is seen. -/
inductive End
  /-- Wherever it stands. -/
  | anywhere
  /-- Between brackets, by the bracket or the comma behind it. -/
  | bracket
  /-- Outside of all brackets, where the text ends. -/
  | text

def End.Allows : End → Bool → List Char → Prop
  | .anywhere, _, cs => Starts closers cs
  | .bracket, outer, cs => outer = false ∧ Starts closers cs
  | .text, outer, cs => outer = true ∧ cs = []

theorem End.Allows.starts {e : End} {outer : Bool} {cs : List Char} (h : e.Allows outer cs) :
    Starts closers cs := by
  cases e with
  | anywhere => exact h
  | bracket => exact h.2
  | text => exact h.2 ▸ starts_nil closers

/-- The place of a type: in front of brackets or a question mark, in a union, or alone. -/
inductive Place
  | operand
  | member (e : End)
  | whole (e : End)

/-- A key of which the end is seen, and that is neither taken for an index nor for the end of the
object. -/
def IsFieldKey (key : MemberKey) : Prop :=
  ∃ name, key = .name name ∧ ':' ∉ name.toList ∧ name.toList.head? ≠ some '[' ∧
    name.toList.head? ≠ some ' '

end TextReader

open TextReader

/-- The types of which the text shows where each part ends. A function with a result and any number
of values end only where what they stand in ends, so in a union they come last. Several results
stand only outside of all brackets. -/
inductive Delimited : Place → Ty → Prop
  | builtin {t : Ty} (h : t.isBuiltin = true) : Delimited .operand t
  | boolConst (value : Bool) : Delimited .operand (.boolConst value)
  | intConst (value : Int) : Delimited .operand (.intConst value)
  | strConst (value : String) : Delimited .operand (.strConst value)
  | ref {name : String} (hname : IsTypeName name) (hown : wordType name = .ref name) :
      Delimited .operand (.ref name)
  | array {item : Ty} (hplain : (item.isUnion || item.isFunc) = false)
    (h : Delimited .operand item) : Delimited .operand (.array item)
  | arrayParen {item : Ty} (hparen : (item.isUnion || item.isFunc) = true)
    (h : Delimited (.whole .bracket) item) : Delimited .operand (.array item)
  | tuple {items : List Ty} (h : ∀ t ∈ items, Delimited (.whole .bracket) t) :
      Delimited .operand (.tuple items)
  | generic {base : String} {params : List Ty} (hbase : IsTypeName base)
    (h : ∀ t ∈ params, Delimited (.whole .bracket) t) : Delimited .operand (.generic base params)
  | object {fields : List (MemberKey × Ty)} {access : List (Ty × Ty)}
      (hkeys : ∀ f ∈ fields, IsFieldKey f.1)
      (hfields : ∀ f ∈ fields, Delimited (.whole .bracket) f.2)
      (hindices : ∀ a ∈ access, Delimited (.whole .bracket) a.1)
      (hvalues : ∀ a ∈ access, Delimited (.whole .bracket) a.2) :
      Delimited .operand (.object fields access)
  | optional {t : Ty} {ts : List Ty} (hts : ts = [t, .nil] ∨ ts = [.nil, t])
      (hnil : t.isNil = false) (hfunc : t.isFunc = false) (h : Delimited .operand t) :
      Delimited .operand (.union ts)
  | optionalParen {t : Ty} {ts : List Ty} (hts : ts = [t, .nil] ∨ ts = [.nil, t])
      (hfunc : t.isFunc = true) (h : Delimited (.whole .bracket) t) : Delimited .operand (.union ts)
  | action {params : List (String × Option Ty)} (hnames : ∀ p ∈ params, IsWord p.1)
      (hparams : ∀ p ∈ params, ∀ t ∈ p.2, Delimited (.whole .bracket) t) :
      Delimited .operand (.func false false params .nil)
  | operand {e : End} {t : Ty} (h : Delimited .operand t) : Delimited (.member e) t
  | func {e : End} {params : List (String × Option Ty)} {ret : Ty} (he : e ≠ .anywhere)
      (hnames : ∀ p ∈ params, IsWord p.1)
      (hparams : ∀ p ∈ params, ∀ t ∈ p.2, Delimited (.whole .bracket) t) (hret : ret.isNil = false)
      (h : Delimited (.whole e) ret) : Delimited (.member e) (.func false false params ret)
  | funcMulti {params : List (String × Option Ty)} {rets : List Ty} {ret : Ty}
      (hnames : ∀ p ∈ params, IsWord p.1)
      (hparams : ∀ p ∈ params, ∀ t ∈ p.2, Delimited (.whole .bracket) t) (hne : rets ≠ [])
      (hrets : ∀ t ∈ rets, Delimited (.whole .anywhere) t) (h : Delimited (.whole .text) ret) :
    Delimited (.member .text) (.func false false params (.multi (rets ++ [ret])))
  | variadic {e : End} {item : Ty} (h : Delimited (.whole e) item) :
      Delimited (.member e) (.variadic item)
  | member {e : End} {t : Ty} (h : Delimited (.member e) t) : Delimited (.whole e) t
  | union {e : End} {ts : List Ty} {t : Ty}
      (hnil : ¬((ts ++ [t]).length == 2 && (ts ++ [t]).any Ty.isNil) = true) (hne : ts ≠ [])
      (hts : ∀ t ∈ ts, Delimited .operand t) (h : Delimited (.member e) t) :
    Delimited (.whole e) (.union (ts ++ [t]))

namespace TextReader

open Ty Text

/-- The text of a type is read in a place as a type that is alike, whatever stands behind it
there. -/
def Reads (t : Ty) : Place → Prop
  | .operand => ∀ n outer cs, sizeOf t ≤ n → Starts operandClosers cs →
    ∃ u, Alike t u ∧ alternative n (type n) outer (t.text.toList ++ cs) = some (suffixed u cs)
  | .member e => ∀ n outer cs, sizeOf t ≤ n → e.Allows outer cs →
      Takes Alike (alternative n (type n) outer) t.text.toList t cs
  | .whole e => ∀ n outer cs, sizeOf t < n → e.Allows outer cs →
      Takes Alike (type n outer) t.text.toList t cs

section Reads

variable {t : Ty} {ts : List Ty} {e : End}

theorem length_le_sizeOf {α : Type} [SizeOf α] (as : List α) : as.length ≤ sizeOf as := by
  induction as with
  | nil => simp
  | cons a as ih =>
    simp only [List.length_cons, List.cons.sizeOf_spec]
    omega

theorem length_lt_of_sizeOf_le {n : Nat} (h : sizeOf (ts ++ [t]) ≤ n) : ts.length < n := by
  have hlength := length_le_sizeOf (ts ++ [t])
  rw [List.length_append, List.length_singleton] at hlength
  omega

theorem two_le_of_forall₂ {us : List Ty} (hne : ts ≠ []) (h : List.Forall₂ Alike (ts ++ [t]) us) :
    2 ≤ us.length := by
  have hpos := List.length_pos_of_ne_nil hne
  rw [← h.length_eq, List.length_append, List.length_singleton]
  omega

theorem sizeOf_pos (t : Ty) : 0 < sizeOf t := by cases t <;> simp +arith

theorem reads_of_operand (h : ∀ n outer cs, sizeOf t ≤ n → Starts operandClosers cs →
    Takes Alike (operand n (type n) outer) t.text.toList t cs) : Reads t .operand := by
  intro n outer cs hn hcs
  obtain ⟨u, htu, hread⟩ := h n outer cs hn hcs
  exact ⟨u, htu, by simp [alternative, hread]⟩

theorem Reads.inside (h : Reads t (.whole .bracket)) {n : Nat} (hn : sizeOf t < n) {cs : List Char}
    (hcs : Starts closers cs) : Takes Alike (type n false) t.text.toList t cs :=
  h n false cs hn ⟨rfl, hcs⟩

theorem reads_word (hword : IsTypeName t.text) (h : wordType t.text = t) : Reads t .operand :=
  reads_of_operand fun _ _ _ _ hcs =>
    ⟨t, alike_refl t, by rw [operand_word hword, named_word hword.1 hcs, h]⟩

theorem reads_strConst (value : String) : Reads (.strConst value) .operand := by
  refine reads_of_operand fun n outer cs _ _ => ⟨.strConst value, alike_refl _, ?_⟩
  have htext : (Ty.text (.strConst value)).toList ++ cs = '\x22' ::
      (value.toList.flatMap quotedChar ++ '\x22' :: cs) := by
    simp [text, quoted]
  have hlength : value.toList.length <
      (value.toList.flatMap quotedChar ++ '\x22' :: cs).length := by
    have hle := length_le_quoted value.toList
    rw [List.length_append, List.length_cons]
    omega
  rw [htext, operand, unquote?_quoted hlength]
  simp

theorem reads_array (hplain : (t.isUnion || t.isFunc) = false) (h : Reads t .operand) :
    Reads (.array t) .operand := by
  intro n outer cs hn hcs
  have htext : (Ty.text (.array t)).toList ++ cs = t.text.toList ++ '[' :: ']' :: cs := by
    simp [text, hplain]
  have hsize : sizeOf t < sizeOf (Ty.array t) :=
    sizeOf_lt_of_mem_children (List.mem_singleton_self t)
  obtain ⟨u, htu, hread⟩ := h n outer ('[' :: ']' :: cs) (by omega) (starts_cons (by decide))
  exact ⟨.array u, alike_array htu, by rw [htext, hread]; rfl⟩

theorem operand_paren (h : Reads t (.whole .bracket)) {n : Nat} (hn : sizeOf t < n) (outer : Bool)
    (cs : List Char) : ∃ u, Alike t u ∧
    operand n (type n) outer ('(' :: (t.text.toList ++ ')' :: cs)) = some (u, cs) := by
  have hclosed : Starts closers (')' :: cs) := starts_cons (by decide)
  obtain ⟨u, htu, hread⟩ := h.inside hn hclosed
  exact ⟨u, htu, by simp [operand, hread, skip?]⟩

theorem reads_arrayParen (hparen : (t.isUnion || t.isFunc) = true) (h : Reads t (.whole .bracket)) :
    Reads (.array t) .operand := by
  intro n outer cs hn hcs
  have htext : (Ty.text (.array t)).toList ++ cs = '(' ::
      (t.text.toList ++ ')' :: '[' :: ']' :: cs) := by simp [text, hparen]
  have hsize : sizeOf t < sizeOf (Ty.array t) :=
    sizeOf_lt_of_mem_children (List.mem_singleton_self t)
  obtain ⟨u, htu, hread⟩ := operand_paren h (n := n) (by omega) outer ('[' :: ']' :: cs)
  exact ⟨.array u, alike_array htu, by rw [htext, alternative, hread]; rfl⟩

theorem reads_optional (hts : ts = [t, .nil] ∨ ts = [.nil, t]) (hnil : t.isNil = false)
    (hfunc : t.isFunc = false) (h : Reads t .operand) : Reads (.union ts) .operand := by
  intro n outer cs hn hcs
  have htext : (Ty.text (.union ts)).toList ++ cs = t.text.toList ++ '?' :: cs := by
    rcases hts with rfl | rfl
    · simp [(text_beside_nil hnil hfunc).1]
    · simp [(text_beside_nil hnil hfunc).2]
  have hmem : t ∈ ts := by rcases hts with rfl | rfl <;> simp
  have hsize : sizeOf t < sizeOf (Ty.union ts) := sizeOf_lt_of_mem_children hmem
  obtain ⟨u, htu, hread⟩ := h n outer ('?' :: cs) (by omega) (starts_cons (by decide))
  exact ⟨.union [u, .nil], alike_beside_nil htu hts, by rw [htext, hread]; rfl⟩

theorem reads_optionalParen (hts : ts = [t, .nil] ∨ ts = [.nil, t]) (hfunc : t.isFunc = true)
    (h : Reads t (.whole .bracket)) : Reads (.union ts) .operand := by
  intro n outer cs hn hcs
  have htext : (Ty.text (.union ts)).toList ++ cs = '(' :: (t.text.toList ++ ')' :: '?' :: cs) := by
    simp [text_func_beside_nil hfunc hts]
  have hmem : t ∈ ts := by rcases hts with rfl | rfl <;> simp
  have hsize : sizeOf t < sizeOf (Ty.union ts) := sizeOf_lt_of_mem_children hmem
  obtain ⟨u, htu, hread⟩ := operand_paren h (n := n) (by omega) outer ('?' :: cs)
  exact ⟨.union [u, .nil], alike_beside_nil htu hts, by rw [htext, alternative, hread]; rfl⟩

theorem takes_types {c : Char} (hc : c ∈ closers) (hcomma : c ≠ ',') {n : Nat} (hn : sizeOf ts ≤ n)
    (h : ∀ t ∈ ts, Reads t (.whole .bracket)) (cs : List Char) :
    Takes (List.Forall₂ Alike) (listed (type n false) [c] n)
    ((", ".intercalate (texts ts)).toList ++ [c]) ts cs := by
  have hlength : ts.length ≤ n := Nat.le_trans (length_le_sizeOf ts) hn
  have hitems : ∀ t ∈ ts, ∀ rest, Starts closers rest →
      Takes Alike (type n false) t.text.toList t rest := fun t ht rest hrest =>
    (h t ht).inside (Nat.lt_of_lt_of_le (List.sizeOf_lt_of_mem ht) hn) hrest
  have htaken := takes_listed [] hc hcomma hlength hitems (type_closer n false hc) cs
  rw [String.toList_intercalate, texts_eq, List.map_map]
  exact htaken

theorem reads_tuple (h : ∀ t ∈ ts, Reads t (.whole .bracket)) : Reads (.tuple ts) .operand := by
  refine reads_of_operand fun n outer cs hn _ => ?_
  rw [tuple.sizeOf_spec] at hn
  obtain ⟨us, htus, hread⟩ :=
    takes_types (c := ']') (by decide) (by decide) (n := n) (by omega) h cs
  have htext : (Ty.text (.tuple ts)).toList ++ cs = '[' ::
      ((", ".intercalate (texts ts)).toList ++ [']'] ++ cs) := by
    simp [text]
  exact ⟨.tuple us, alike_tuple htus, by rw [htext, operand, hread]; rfl⟩

theorem reads_generic {base : String} (hbase : IsTypeName base)
    (h : ∀ t ∈ ts, Reads t (.whole .bracket)) : Reads (.generic base ts) .operand := by
  refine reads_of_operand fun n outer cs hn _ => ?_
  rw [generic.sizeOf_spec] at hn
  obtain ⟨us, htus, hread⟩ :=
    takes_types (c := '>') (by decide) (by decide) (n := n) (by omega) h cs
  have htext : (Ty.text (.generic base ts)).toList ++ cs =
      base.toList ++ '<' :: ((", ".intercalate (texts ts)).toList ++ ['>'] ++ cs) := by simp [text]
  have hstop : Starts ['<'] ('<' :: ((", ".intercalate (texts ts)).toList ++ ['>'] ++ cs)) :=
    starts_cons (by simp)
  obtain ⟨htake, hdrop⟩ := word_before hbase.1.2 hstop (by decide)
  refine ⟨.generic base us, alike_generic base htus, ?_⟩
  rw [htext, operand_word hbase, named, htake, hdrop]
  simp only [hread, Option.map_some, String.ofList_toList]

def entryText : Entry → String
  | .inl (key, t) => key.text ++ ": " ++ t.text
  | .inr (key, t) => "[" ++ key.text ++ "]: " ++ t.text

theorem entryTexts (fields : List (MemberKey × Ty)) (access : List (Ty × Ty)) :
    fieldTexts fields ++ accessTexts access =
    (fields.map Sum.inl ++ access.map Sum.inr).map entryText := by
  have haccess (access : List (Ty × Ty)) : accessTexts access =
      (access.map Sum.inr).map entryText := by
    induction access with
    | nil => rfl
    | cons a access ih =>
      rw [accessTexts, ih]
      rfl
  induction fields with
  | nil => simpa [fieldTexts] using haccess access
  | cons f fields ih =>
    rw [fieldTexts, List.cons_append, ih]
    rfl

theorem takes_field {key : MemberKey} (hkey : IsFieldKey key) (h : Reads t (.whole .bracket))
    {n : Nat} (hn : sizeOf t < n) {cs : List Char} (hcs : Starts closers cs) :
    Takes AlikeEntry (entry (type n)) (entryText (.inl (key, t))).toList (.inl (key, t)) cs := by
  obtain ⟨name, rfl, hcolon, hbracket, hspace⟩ := hkey
  obtain ⟨u, htu, hread⟩ := h.inside hn hcs
  have hname : ∀ c ∈ name.toList, (c != ':') = true :=
    fun c hc => bne_iff_ne.2 fun heq => hcolon (heq ▸ hc)
  have htext : (entryText (.inl (.name name, t))).toList ++ cs = name.toList ++ ':' :: ' ' ::
      (t.text.toList ++ cs) := by
    simp [entryText, MemberKey.text]
  have hhead {c : Char} (hc : name.toList.head? ≠ some c) (hne : c ≠ ':') :
      (name.toList ++ ':' :: ' ' :: (t.text.toList ++ cs)).head? ≠ some c := by
    cases hfirst : name.toList with
    | nil => simpa using hne.symm
    | cons d name' => simpa [hfirst] using hc
  refine ⟨.inl (.name name, u), .field htu, ?_⟩
  rw [htext, entry_name _ (hhead hspace (by decide)) (hhead hbracket (by decide)),
    List.takeWhile_append_of_pos hname, List.dropWhile_append_of_pos hname]
  simp [skip?, hread]

theorem takes_access {key : Ty} (hkey : Reads key (.whole .bracket))
    (h : Reads t (.whole .bracket)) {n : Nat} (hnkey : sizeOf key < n) (hn : sizeOf t < n)
    {cs : List Char} (hcs : Starts closers cs) :
    Takes AlikeEntry (entry (type n)) (entryText (.inr (key, t))).toList (.inr (key, t)) cs := by
  have hclosed : Starts closers (']' :: ':' :: ' ' :: (t.text.toList ++ cs)) :=
    starts_cons (by decide)
  obtain ⟨k, hk, hreadKey⟩ := hkey.inside hnkey hclosed
  obtain ⟨u, htu, hread⟩ := h.inside hn hcs
  have htext : (entryText (.inr (key, t))).toList ++ cs =
      '[' :: (key.text.toList ++ ']' :: ':' :: ' ' :: (t.text.toList ++ cs)) := by
    simp [entryText]
  exact ⟨.inr (k, u), .access hk htu, by simp [htext, entry, hreadKey, hread, skip?]⟩

theorem reads_object {fields : List (MemberKey × Ty)} {access : List (Ty × Ty)}
    (hkeys : ∀ f ∈ fields, IsFieldKey f.1) (hfields : ∀ f ∈ fields, Reads f.2 (.whole .bracket))
    (hindices : ∀ a ∈ access, Reads a.1 (.whole .bracket))
    (hvalues : ∀ a ∈ access, Reads a.2 (.whole .bracket)) :
    Reads (.object fields access) .operand := by
  refine reads_of_operand fun n outer cs hn _ => ?_
  have hbelow : ∀ t ∈ (Ty.object fields access).children, sizeOf t < n := fun t ht =>
    Nat.lt_of_lt_of_le (sizeOf_lt_of_mem_children ht) hn
  have hentries : ∀ e ∈ (fields.map .inl ++ access.map .inr : List Entry), ∀ rest,
      Starts closers rest →
      Takes AlikeEntry (entry (type n)) (entryText e).toList e rest := by
    intro e he rest hrest
    rcases List.mem_append.1 he with he | he
    · obtain ⟨⟨key, t⟩, hf, rfl⟩ := List.mem_map.1 he
      exact takes_field (hkeys _ hf) (hfields _ hf)
        (hbelow t (List.mem_append_left _ (List.mem_map_of_mem hf))) hrest
    · obtain ⟨⟨key, t⟩, ha, rfl⟩ := List.mem_map.1 he
      have hmem (s : Ty) (hs : s ∈ [key, t]) : s ∈ (Ty.object fields access).children :=
        List.mem_append_right _ (List.mem_flatMap.2 ⟨_, ha, hs⟩)
      exact takes_access (hindices _ ha) (hvalues _ ha) (hbelow key (hmem key (by simp)))
        (hbelow t (hmem t (by simp))) hrest
  have hlength : (fields.map .inl ++ access.map .inr : List Entry).length ≤ n := by
    have hfields := length_le_sizeOf fields
    have haccess := length_le_sizeOf access
    rw [object.sizeOf_spec] at hn
    rw [List.length_append, List.length_map, List.length_map]
    omega
  obtain ⟨es, hes, hread⟩ :=
    takes_listed (c := ' ') ['\x7d'] (by decide) (by decide) hlength hentries (fun _ => rfl) cs
  have htext : (Ty.text (.object fields access)).toList ++ cs = '\x7b' :: ' ' ::
      ([',', ' '].intercalate ((fields.map .inl ++ access.map .inr : List Entry).map fun e =>
        (entryText e).toList) ++ [' ', '\x7d'] ++ cs) := by
    simp [text, entryTexts, String.toList_intercalate, Function.comp_def]
  refine ⟨objectOf es, objectOf_entries fields access ▸ alike_object hes, ?_⟩
  rw [htext, operand, hread]
  rfl

def paramText : String × Option Ty → String
  | (name, none) => name
  | (name, some t) => name ++ ": " ++ t.text

theorem paramTexts_eq (params : List (String × Option Ty)) :
    paramTexts params = params.map paramText := by
  induction params with
  | nil => rfl
  | cons p params ih =>
    obtain ⟨name, _ | t⟩ := p <;> rw [paramTexts, ih] <;> rfl

theorem takes_param {p : String × Option Ty} (hname : IsWord p.1)
    (h : ∀ t ∈ p.2, Reads t (.whole .bracket)) {n : Nat} (hn : ∀ t ∈ p.2, sizeOf t < n)
    {cs : List Char} (hcs : Starts closers cs) :
    Takes AlikeParam (param (type n)) (paramText p).toList p cs := by
  obtain ⟨name, _ | t⟩ := p
  · obtain ⟨htake, hdrop⟩ := word_before hname.2 hcs (by decide)
    have hskip : skip? [':', ' '] cs = none := skip?_eq_none hcs (by decide)
    exact ⟨(name, none), ⟨rfl, .none⟩, by simp [paramText, param, htake, hdrop,
      hname.isEmpty_eq, hskip]⟩
  · obtain ⟨u, htu, hread⟩ := (h t rfl).inside (hn t rfl) hcs
    have hstop : Starts [':'] (':' :: ' ' :: (t.text.toList ++ cs)) := starts_cons (by decide)
    obtain ⟨htake, hdrop⟩ := word_before hname.2 hstop (by decide)
    have htext : (paramText (name, some t)).toList ++ cs = name.toList ++ ':' :: ' ' ::
        (t.text.toList ++ cs) := by
      simp [paramText]
    refine ⟨(name, some u), ⟨rfl, .some htu⟩, ?_⟩
    rw [htext, param, htake, hdrop, hname.isEmpty_eq]
    simp [skip?, hread]

section Func

variable {params : List (String × Option Ty)} {ret : Ty} (hnames : ∀ p ∈ params, IsWord p.1)
  (hparams : ∀ p ∈ params, ∀ t ∈ p.2, Reads t (.whole .bracket))

include hnames hparams

theorem takes_func {n : Nat} (hn : sizeOf (Ty.func false false params ret) ≤ n) {outer : Bool}
    {behind cs : List Char} (htext : (Ty.text (.func false false params ret)).toList =
      ("fun(" ++ ", ".intercalate (paramTexts params) ++ ")").toList ++ behind)
    (hret : Takes Alike (results n (type n) outer) behind ret cs) :
    Takes Alike (operand n (type n) outer) (Ty.text (.func false false params ret)).toList
    (.func false false params ret) cs := by
  have hbelow : ∀ t ∈ (Ty.func false false params ret).children, sizeOf t < n := fun t ht =>
    Nat.lt_of_lt_of_le (sizeOf_lt_of_mem_children ht) hn
  have hlength : params.length ≤ n := by
    have hlength := length_le_sizeOf params
    rw [func.sizeOf_spec] at hn
    omega
  have hitems : ∀ p ∈ params, ∀ rest, Starts closers rest →
      Takes AlikeParam (param (type n)) (paramText p).toList p rest :=
    fun p hp rest hrest => takes_param (hnames p hp) (hparams p hp)
      (fun t ht => hbelow t (List.mem_append_left _ (List.mem_filterMap.2 ⟨p, hp, ht⟩))) hrest
  obtain ⟨ret', hret, hreadRet⟩ := hret
  obtain ⟨qs, hqs, hread⟩ :=
    takes_listed (c := ')') [] (by decide) (by decide) hlength hitems (fun _ => rfl) (behind ++ cs)
  refine ⟨.func false false qs ret', alike_func hqs hret, ?_⟩
  have hbegin : (Ty.text (.func false false params ret)).toList ++ cs = 'f' :: 'u' :: 'n' :: '(' ::
      ([',', ' '].intercalate (params.map fun p => (paramText p).toList) ++ [')'] ++
        (behind ++ cs)) := by
    rw [htext]
    simp [paramTexts_eq, String.toList_intercalate, Function.comp_def]
  have hnamed (X : List Char) : operand n (type n) outer ('f' :: 'u' :: 'n' :: '(' :: X) =
      (listed (param (type n)) [')'] n X).bind fun p => (results n (type n) outer p.2).bind fun r =>
        some (.func false false p.1 r.1, r.2) := rfl
  rw [hbegin, hnamed, hread]
  simp [hreadRet]

theorem reads_action : Reads (.func false false params .nil) .operand := by
  refine reads_of_operand fun n outer cs hn hcs => ?_
  have htext : (Ty.text (.func false false params .nil)).toList =
      ("fun(" ++ ", ".intercalate (paramTexts params) ++ ")").toList ++ [] := by
    have hnil : isNil .nil = true := rfl
    simp [text, funcText, hnil]
  have hskip : skip? [':', ' '] cs = none := skip?_eq_none hcs (by decide)
  exact takes_func hnames hparams hn htext ⟨.nil, alike_refl .nil, by simp [results, hskip]⟩

theorem takes_func_result (hret : ret.isNil = false) {n : Nat}
    (hn : sizeOf (Ty.func false false params ret) ≤ n) {outer : Bool} {cs : List Char}
    (h : Takes Alike (results n (type n) outer) (':' :: ' ' :: ret.text.toList) ret cs) :
    Takes Alike (operand n (type n) outer) (Ty.text (.func false false params ret)).toList
    (.func false false params ret) cs :=
  takes_func hnames hparams hn (by simp [text, funcText, hret]) h

end Func

theorem takes_results {ret : Ty} (he : e ≠ .anywhere) (h : Reads ret (.whole e)) {n : Nat}
    (hn : sizeOf ret < n) {outer : Bool} {cs : List Char} (hcs : e.Allows outer cs) :
    Takes Alike (results n (type n) outer) (':' :: ' ' :: ret.text.toList) ret cs := by
  obtain ⟨u, hu, hread⟩ := h n outer cs hn hcs
  refine ⟨u, hu, ?_⟩
  cases outer with
  | false => simp [results, skip?, hread]
  | true =>
    cases e with
    | anywhere => exact absurd rfl he
    | bracket => cases hcs.1
    | text =>
      -- the text ends here, so there is no comma with more results behind it
      obtain ⟨n, rfl⟩ : ∃ k, n = k + 1 := ⟨n - 1, by omega⟩
      have hend : skip? [',', ' '] cs = none := by rw [hcs.2]; rfl
      simp [results, skip?, separated, hread, hend, ofReturns]

theorem takes_results_multi {rets : List Ty} {ret : Ty} (hne : rets ≠ [])
    (hrets : ∀ t ∈ rets, Reads t (.whole .anywhere)) (h : Reads ret (.whole .text)) {n : Nat}
    (hn : sizeOf (Ty.multi (rets ++ [ret])) ≤ n) :
    Takes Alike (results n (type n) true) (':' :: ' ' :: (Ty.text (.multi (rets ++ [ret]))).toList)
      (.multi (rets ++ [ret])) [] := by
  have hbelow : ∀ t ∈ rets ++ [ret], sizeOf t < n := fun t ht =>
    Nat.lt_of_lt_of_le (sizeOf_lt_of_mem_children
      (show t ∈ (Ty.multi (rets ++ [ret])).children from ht)) hn
  have hsize : sizeOf (rets ++ [ret]) ≤ n := by
    rw [multi.sizeOf_spec] at hn
    omega
  have hfirst : ∀ t ∈ rets, ∀ rest, Takes Alike (type n true) t.text.toList t
      ([',', ' '] ++ rest) := fun t ht rest =>
    hrets t ht n true _ (hbelow t (List.mem_append_left _ ht)) (starts_cons (by decide))
  have hlast : Takes Alike (type n true) ret.text.toList ret [] :=
    h n true [] (hbelow ret (by simp)) ⟨rfl, rfl⟩
  obtain ⟨us, hus, hread⟩ :=
    takes_separated (starts_nil []) (by simp) (length_lt_of_sizeOf_le hsize) hfirst hlast
  have hmany : ofReturns us = .multi us := ofReturns_of_two_le (two_le_of_forall₂ hne hus)
  refine ⟨.multi us, alike_multi hus, ?_⟩
  have htext : (Ty.text (.multi (rets ++ [ret]))).toList =
      [',', ' '].intercalate ((rets ++ [ret]).map fun t => t.text.toList) := by
    simp [text, texts_eq, String.toList_intercalate, Function.comp_def]
  have hskip (X : List Char) : skip? [':', ' '] (':' :: ' ' :: X) = some X := rfl
  rw [List.cons_append, List.cons_append, results, hskip, htext]
  simp only [if_true, hread, Option.map_some, hmany]

theorem reads_member (h : ∀ n outer cs, sizeOf t ≤ n → e.Allows outer cs →
    Takes Alike (operand n (type n) outer) t.text.toList t cs) : Reads t (.member e) := by
  intro n outer cs hn hcs
  obtain ⟨u, hu, hread⟩ := h n outer cs hn hcs
  have hstop : Starts memberClosers cs := hcs.starts.mono (List.subset_cons_self _ _)
  exact ⟨u, hu, by simp [alternative, hread, suffixed_closed u hstop]⟩

theorem Reads.member (h : Reads t .operand) : Reads t (.member e) := by
  intro n outer cs hn hcs
  -- what may stand behind a member is neither a bracket nor a question mark that would be put to it
  have hstop : Starts memberClosers cs := hcs.starts.mono (List.subset_cons_self _ _)
  obtain ⟨u, hu, hread⟩ := h n outer cs hn (hstop.mono (by decide))
  exact ⟨u, hu, by rw [hread, suffixed_closed u hstop]⟩

theorem reads_func {params : List (String × Option Ty)} {ret : Ty} (he : e ≠ .anywhere)
    (hnames : ∀ p ∈ params, IsWord p.1)
    (hparams : ∀ p ∈ params, ∀ t ∈ p.2, Reads t (.whole .bracket)) (hret : ret.isNil = false)
    (h : Reads ret (.whole e)) :
    Reads (.func false false params ret) (.member e) := by
  refine reads_member fun n outer cs hn hcs => ?_
  have hsize : sizeOf ret < sizeOf (Ty.func false false params ret) :=
    sizeOf_lt_of_mem_children (by simp [children])
  exact takes_func_result hnames hparams hret hn (takes_results he h (by omega) hcs)

theorem reads_funcMulti {params : List (String × Option Ty)} {rets : List Ty} {ret : Ty}
    (hnames : ∀ p ∈ params, IsWord p.1)
    (hparams : ∀ p ∈ params, ∀ t ∈ p.2, Reads t (.whole .bracket)) (hne : rets ≠ [])
    (hrets : ∀ t ∈ rets, Reads t (.whole .anywhere)) (h : Reads ret (.whole .text)) :
    Reads (.func false false params (.multi (rets ++ [ret]))) (.member .text) := by
  refine reads_member fun n outer cs hn hcs => ?_
  obtain ⟨rfl, rfl⟩ : outer = true ∧ cs = [] := hcs
  have hsize : sizeOf (Ty.multi (rets ++ [ret])) <
      sizeOf (Ty.func false false params (.multi (rets ++ [ret]))) :=
    sizeOf_lt_of_mem_children (by simp [children])
  exact takes_func_result hnames hparams rfl hn (takes_results_multi hne hrets h (by omega))

theorem reads_variadic (h : Reads t (.whole e)) : Reads (.variadic t) (.member e) := by
  refine reads_member fun n outer cs hn hcs => ?_
  have hsize : sizeOf t < sizeOf (Ty.variadic t) :=
    sizeOf_lt_of_mem_children (List.mem_singleton_self t)
  obtain ⟨u, hu, hread⟩ := h n outer cs (by omega) hcs
  have htext : (Ty.text (.variadic t)).toList ++ cs = '.' :: '.' :: '.' ::
      (t.text.toList ++ cs) := by simp [text]
  refine ⟨.variadic u, alike_variadic hu, ?_⟩
  rw [htext, operand, hread]
  rfl

theorem takes_members (hts : ∀ t ∈ ts, Reads t .operand) (h : Reads t (.member e)) {n : Nat}
    (hbelow : ∀ s ∈ ts ++ [t], sizeOf s ≤ n) (hlength : ts.length < n) {outer : Bool}
    {cs : List Char} (hcs : e.Allows outer cs) :
    ∃ us, List.Forall₂ Alike (ts ++ [t]) us ∧
      type (n + 1) outer (['|'].intercalate ((ts ++ [t]).map fun t => t.text.toList) ++ cs) =
      some (ofMembers us, cs) := by
  have hfirst : ∀ t ∈ ts, ∀ rest, Takes Alike (alternative n (type n) outer) t.text.toList t
      (['|'] ++ rest) := by
    intro t ht rest
    have hstop : Starts memberClosers ('|' :: rest) := starts_cons (by decide)
    obtain ⟨u, hu, hread⟩ :=
      hts t ht n outer ('|' :: rest) (hbelow t (List.mem_append_left _ ht)) (hstop.mono (by decide))
    exact ⟨u, hu, by rw [List.singleton_append, hread, suffixed_closed u hstop]⟩
  have hlast : Takes Alike (alternative n (type n) outer) t.text.toList t cs :=
    h n outer cs (hbelow t (by simp)) hcs
  obtain ⟨us, hus, hread⟩ := takes_separated hcs.starts (by decide) hlength hfirst hlast
  exact ⟨us, hus, by rw [type, hread]; rfl⟩

theorem Reads.whole (h : Reads t (.member e)) : Reads t (.whole e) := by
  intro n outer cs hn hcs
  obtain ⟨n, rfl⟩ : ∃ k, n = k + 1 := ⟨n - 1, by omega⟩
  have hpos := sizeOf_pos t
  obtain ⟨us, hus, hread⟩ := takes_members (List.forall_mem_nil _) h (n := n)
    (List.forall_mem_singleton.2 (by omega)) (Nat.lt_of_lt_of_le hpos (by omega)) hcs
  cases hus with
  | cons hu hnone =>
    cases hnone
    exact ⟨_, hu, by simpa [ofMembers] using hread⟩

theorem reads_union (hnil : ¬((ts ++ [t]).length == 2 && (ts ++ [t]).any isNil) = true)
    (hne : ts ≠ []) (hts : ∀ t ∈ ts, Reads t .operand) (h : Reads t (.member e)) :
    Reads (.union (ts ++ [t])) (.whole e) := by
  intro n outer cs hn hcs
  obtain ⟨n, rfl⟩ : ∃ k, n = k + 1 := ⟨n - 1, by omega⟩
  have hbelow : ∀ s ∈ ts ++ [t], sizeOf s ≤ n := fun s hs => by
    have hlt := sizeOf_lt_of_mem_children (show s ∈ (Ty.union (ts ++ [t])).children from hs)
    omega
  have hsize : sizeOf (ts ++ [t]) ≤ n := by
    rw [union.sizeOf_spec] at hn
    omega
  obtain ⟨us, hus, hread⟩ := takes_members hts h hbelow (length_lt_of_sizeOf_le hsize) hcs
  have hmany : ofMembers us = .union us := ofMembers_of_two_le (two_le_of_forall₂ hne hus)
  have htext : (Ty.text (.union (ts ++ [t]))).toList =
      ['|'].intercalate ((ts ++ [t]).map fun t => t.text.toList) := by
    rw [text, unionText, if_neg hnil, texts_eq, String.toList_intercalate, List.map_map]
    rfl
  exact ⟨.union us, alike_union hus, by rw [htext, hread, hmany]⟩

end Reads

end TextReader

namespace Delimited

open TextReader Ty

theorem reads {place : Place} {t : Ty} (h : Delimited place t) : Reads t place := by
  induction h with
  | builtin h => exact reads_word (isTypeName_builtin h) (wordType_builtin h)
  | boolConst value =>
    have hword : IsTypeName (Ty.text (.boolConst value)) := by
      cases value <;> decide +kernel
    exact reads_word hword (wordType_bool value)
  | intConst value => exact reads_word (isTypeName_toString value) (wordType_toString value)
  | strConst value => exact reads_strConst value
  | ref hname hown => exact reads_word hname hown
  | array hplain _ ih => exact reads_array hplain ih
  | arrayParen hparen _ ih => exact reads_arrayParen hparen ih
  | tuple _ ih => exact reads_tuple ih
  | generic hbase _ ih => exact reads_generic hbase ih
  | object hkeys _ _ _ ihFields ihIndices ihValues =>
    exact reads_object hkeys ihFields ihIndices ihValues
  | optional hts hnil hfunc _ ih => exact reads_optional hts hnil hfunc ih
  | optionalParen hts hfunc _ ih => exact reads_optionalParen hts hfunc ih
  | action hnames _ ih => exact reads_action hnames ih
  | operand _ ih => exact ih.member
  | func he hnames _ hret _ ihParams ih => exact reads_func he hnames ihParams hret ih
  | funcMulti hnames _ hne _ _ ihParams ihRets ih =>
    exact reads_funcMulti hnames ihParams hne ihRets ih
  | variadic _ ih => exact reads_variadic ih
  | member _ ih => exact ih.whole
  | union hnil hne _ _ ihMembers ih => exact reads_union hnil hne ihMembers ih

/-- Types of which the texts show where each part ends are equal if they have the same text. -/
theorem beq_of_text_eq {a b : Ty} (ha : Delimited (.whole .text) a)
    (hb : Delimited (.whole .text) b) (h : a.text = b.text) : (a == b) = true := by
  obtain ⟨u, hau, hreadA⟩ := ha.reads (sizeOf a + sizeOf b + 1) true [] (by omega) ⟨rfl, rfl⟩
  obtain ⟨v, hbv, hreadB⟩ := hb.reads (sizeOf a + sizeOf b + 1) true [] (by omega) ⟨rfl, rfl⟩
  -- one text is read in one way, so both types are equal to what is read
  rw [h, hreadB] at hreadA
  obtain rfl : v = u := congrArg Prod.fst (Option.some.inj hreadA)
  exact beq_trans hau.1 hbv.2

end Delimited

def payload : Ty := .object [(.name "size", .intConst (-1))] [(.string, .strConst "a|b")]

def listener : Ty := .func false false [("at", some (.ref "Point"))] (.boolConst true)

/-- A function of which a parameter and listeners may be missing, told by `nil` in unions of two. -/
def handler (orNil : Ty → List Ty) : Ty :=
  .func false false [("name", some (.union (orNil .string))), ("...", some .any)]
    (.multi [.union [payload, .array (.union (orNil listener))], .variadic .number])

theorem delimited_handler {orNil : Ty → List Ty}
    (h : ∀ t, orNil t = [t, .nil] ∨ orNil t = [.nil, t]) :
    Delimited (.whole .text) (handler orNil) := by
  have hwhole {e : End} {t : Ty} (ht : Delimited .operand t) : Delimited (.whole e) t :=
    .member (.operand ht)
  have hpayload : Delimited .operand payload :=
    .object (List.forall_mem_singleton.2 ⟨"size", rfl, by decide +kernel⟩)
      (List.forall_mem_singleton.2 (hwhole (.intConst _)))
      (List.forall_mem_singleton.2 (hwhole (.builtin rfl)))
      (List.forall_mem_singleton.2 (hwhole (.strConst _)))
  have hpoint : Delimited (.whole .bracket) (.ref "Point") := hwhole (.ref (by decide +kernel) rfl)
  have hlistener : Delimited (.whole .bracket) listener :=
    .member (.func nofun (by decide +kernel) (by simpa using hpoint) rfl (hwhole (.boolConst true)))
  have hlisteners : Delimited .operand (.array (.union (orNil listener))) :=
    .arrayParen rfl (hwhole (.optionalParen (h listener) rfl hlistener))
  have hresult : Delimited (.whole .anywhere)
      (.union ([payload] ++ [.array (.union (orNil listener))])) :=
    .union (by simp [payload, Ty.isNil]) (List.cons_ne_nil _ _)
      (List.forall_mem_singleton.2 hpayload) (.operand hlisteners)
  have hname : Delimited (.whole .bracket) (.union (orNil .string)) :=
    hwhole (.optional (h .string) rfl rfl (.builtin rfl))
  have hnames : ∀ p ∈ [("name", some (Ty.union (orNil .string))), ("...", some .any)], IsWord p.1 :=
    List.forall_mem_cons.2 ⟨show IsWord "name" by decide +kernel,
      List.forall_mem_singleton.2 (show IsWord "..." by decide +kernel)⟩
  have hparams : ∀ p ∈ [("name", some (Ty.union (orNil .string))), ("...", some .any)], ∀ t ∈ p.2,
      Delimited (.whole .bracket) t :=
    List.forall_mem_cons.2 ⟨by simpa using hname, by simpa using hwhole (.builtin rfl)⟩
  exact .member (.funcMulti hnames hparams (List.cons_ne_nil _ _)
    (List.forall_mem_singleton.2 hresult) (.member (.variadic (hwhole (.builtin rfl)))))

theorem Delimited.beq_of_text_eq_handler : Delimited (.whole .text) (handler fun t => [t, .nil]) ∧
    Delimited (.whole .text) (handler fun t => [.nil, t]) ∧
    (handler fun t => [t, .nil]).text =
      "fun(name: string?, ...: any): \x7b size: -1, [string]: \"a|b\" \x7d|((fun(at: Point): true)?)[], ...number" ∧
    (handler fun t => [t, .nil]).text = (handler fun t => [.nil, t]).text ∧
    ((handler fun t => [t, .nil]) == handler fun t => [.nil, t]) = true := by
  have hlast : Delimited (.whole .text) (handler fun t => [t, .nil]) :=
    delimited_handler fun _ => .inl rfl
  have hfirst : Delimited (.whole .text) (handler fun t => [.nil, t]) :=
    delimited_handler fun _ => .inr rfl
  have htext : (handler fun t => [t, .nil]).text = (handler fun t => [.nil, t]).text := by
    decide +kernel
  exact ⟨hlast, hfirst, by decide +kernel, htext, beq_of_text_eq hlast hfirst htext⟩

end LuaAnalysis.Types
