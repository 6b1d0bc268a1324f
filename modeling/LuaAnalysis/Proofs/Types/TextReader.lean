import LuaAnalysis.Proofs.Syntax.LiteralText
import LuaAnalysis.Proofs.Types.Written
import LuaAnalysis.Types.Multi

namespace LuaAnalysis.Types

namespace TextReader

open Text

def skip? : List Char → List Char → Option (List Char)
  | [], cs => some cs
  | _ :: _, [] => none
  | m :: ms, c :: cs => if m = c then skip? ms cs else none

/-- The characters that stand around names and numbers. -/
def delimiters : List Char :=
  [' ', ',', '|', '?', '[', ']', '(', ')', ':', '<', '>', '\x7b', '\x7d', '\x22']

def isWordChar (c : Char) : Bool := !delimiters.contains c

def wordInt? : List Char → Option Int
  | '-' :: cs => (digits? 10 cs).map fun n => -(n : Int)
  | cs => (digits? 10 cs).map fun n => (n : Int)

def wordType (w : String) : Ty :=
  match wordInt? w.toList with
  | some value => .intConst value
  | none =>
    if w == "true" then .boolConst true
    else if w == "false" then .boolConst false
    else (Ty.ofBuiltinName? w).getD (.ref w)

def unquoteChar? : List Char → Option (Char × List Char)
  | [] => none
  | '\x22' :: _ => none
  | '\x5c' :: '0' :: cs => some ('\x00', cs)
  | '\x5c' :: 't' :: cs => some ('\t', cs)
  | '\x5c' :: 'r' :: cs => some ('\r', cs)
  | '\x5c' :: 'n' :: cs => some ('\n', cs)
  | '\x5c' :: 'u' :: '\x7b' :: cs =>
    (digits? 16 (cs.takeWhile (· != '\x7d'))).map fun n =>
      (Char.ofNat n, (cs.dropWhile (· != '\x7d')).tail)
  | '\x5c' :: c :: cs => some (c, cs)
  | c :: cs => some (c, cs)

def unquote? : Nat → List Char → Option (List Char × List Char)
  | 0, _ => none
  | n + 1, cs =>
    match unquoteChar? cs with
    | some (c, cs) => (unquote? n cs).map fun (more, cs) => (c :: more, cs)
    | none => (skip? ['\x22'] cs).map fun cs => ([], cs)

abbrev Reader (α : Type) := List Char → Option (α × List Char)

section Lists

variable {α : Type} (item : Reader α) (separator close : List Char)

def separated : Nat → Reader (List α)
  | 0, _ => none
  | n + 1, cs => do
    let (a, cs) ← item cs
    match skip? separator cs with
    | some cs => (separated n cs).map fun (as, cs) => (a :: as, cs)
    | none => some ([a], cs)

def listed (n : Nat) : Reader (List α) := fun cs =>
  match separated item [',', ' '] n cs with
  | some (as, cs) => (skip? close cs).map fun cs => (as, cs)
  | none => (skip? close cs).map fun cs => ([], cs)

end Lists

/-- An entry of an object: a field or what is behind an index. -/
abbrev Entry := (MemberKey × Ty) ⊕ (Ty × Ty)

def objectOf (es : List Entry) : Ty :=
  .object (es.filterMap Sum.getLeft?) (es.filterMap Sum.getRight?)

section Types

variable (n : Nat) (read : Bool → Reader Ty)

def entry : Reader Entry := fun cs =>
  match cs with
  | ' ' :: _ => none
  | '[' :: cs => do
    let (key, cs) ← read false cs
    let cs ← skip? [']', ':', ' '] cs
    let (value, cs) ← read false cs
    some (.inr (key, value), cs)
  | cs => do
    let rest ← skip? [':', ' '] (cs.dropWhile (· != ':'))
    let (type, rest) ← read false rest
    some (.inl (.name (String.ofList (cs.takeWhile (· != ':'))), type), rest)

def param : Reader (String × Option Ty) := fun cs =>
  let name := cs.takeWhile isWordChar
  let rest := cs.dropWhile isWordChar
  if name.isEmpty then none
  else
    match skip? [':', ' '] rest with
    | some rest => (read false rest).map fun (type, rest) => ((String.ofList name, some type), rest)
    | none => some ((String.ofList name, none), rest)

/-- What a function returns. Only outside of all brackets it is several types. -/
def results (outer : Bool) : Reader Ty := fun cs =>
  match skip? [':', ' '] cs with
  | none => some (.nil, cs)
  | some cs =>
    if outer then (separated (read true) [',', ' '] n cs).map fun (types, cs) =>
      (.ofReturns types, cs)
    else read false cs

def named (outer : Bool) : Reader Ty := fun cs =>
  let name := cs.takeWhile isWordChar
  match cs.dropWhile isWordChar with
  | '<' :: cs => (listed (read false) ['>'] n cs).map fun (params, cs) =>
    (.generic (String.ofList name) params, cs)
  | '(' :: cs => do
    let (params, cs) ← listed (param read) [')'] n cs
    let (ret, cs) ← results n read outer cs
    some (.func false false params ret, cs)
  | cs => if name.isEmpty then none else some (wordType (String.ofList name), cs)

/-- A type without the brackets and question marks behind it. -/
def operand (outer : Bool) : Reader Ty := fun cs =>
  match cs with
  | '\x22' :: cs => (unquote? cs.length cs).map fun (value, cs) =>
    (.strConst (String.ofList value), cs)
  | '(' :: cs => do
    let (type, cs) ← read false cs
    let cs ← skip? [')'] cs
    some (type, cs)
  | '[' :: cs => (listed (read false) [']'] n cs).map fun (items, cs) => (.tuple items, cs)
  | '\x7b' :: ' ' :: cs => (listed (entry read) [' ', '\x7d'] n cs).map fun (entries, cs) =>
    (objectOf entries, cs)
  | '.' :: '.' :: '.' :: cs => (read outer cs).map fun (type, cs) => (.variadic type, cs)
  | cs => named n read outer cs

def suffixed (t : Ty) : List Char → Ty × List Char
  | '[' :: ']' :: cs => suffixed (.array t) cs
  | '?' :: cs => suffixed (.union [t, .nil]) cs
  | cs => (t, cs)

def alternative (outer : Bool) : Reader Ty := fun cs =>
  (operand n read outer cs).map fun (type, cs) => suffixed type cs

end Types

def type : Nat → Bool → Reader Ty
  | 0, _, _ => none
  | n + 1, outer, cs =>
    (separated (alternative n (type n) outer) ['|'] n cs).map fun (types, cs) =>
      (.ofMembers types, cs)

@[simp] theorem skip?_append (mark cs : List Char) : skip? mark (mark ++ cs) = some cs := by
  induction mark with
  | nil => rfl
  | cons m mark ih => simpa [skip?] using ih

def Starts (marks cs : List Char) : Prop := ∀ c ∈ cs.head?, c ∈ marks

theorem Starts.mono {marks marks' cs : List Char} (h : Starts marks cs) (hsub : marks ⊆ marks') :
    Starts marks' cs :=
  fun c hc => hsub (h c hc)

theorem starts_nil (marks : List Char) : Starts marks [] := by simp [Starts]

theorem starts_cons {marks cs : List Char} {c : Char} (h : c ∈ marks) : Starts marks (c :: cs) := by
  simpa [Starts] using h

theorem skip?_eq_none {marks mark cs : List Char} {m : Char} (h : Starts marks cs)
    (hm : m ∉ marks) : skip? (m :: mark) cs = none := by
  cases cs with
  | nil => rfl
  | cons c cs =>
    have hne : m ≠ c := fun heq => hm (heq ▸ h c rfl)
    simp [skip?, hne]

def closers : List Char := [' ', ',', ')', ']', '>']

def memberClosers : List Char := '|' :: closers

def operandClosers : List Char := '[' :: '?' :: memberClosers

theorem word_before {marks w cs : List Char} (hw : ∀ c ∈ w, isWordChar c = true)
    (hcs : Starts marks cs) (hmarks : (marks.any isWordChar) = false) :
    (w ++ cs).takeWhile isWordChar = w ∧ (w ++ cs).dropWhile isWordChar = cs := by
  have hstop : cs.takeWhile isWordChar = [] ∧ cs.dropWhile isWordChar = cs := by
    cases cs with
    | nil => exact ⟨rfl, rfl⟩
    | cons c cs =>
      have hc : isWordChar c = false := by simpa using List.any_eq_false.1 hmarks c (hcs c rfl)
      simp [hc]
  rw [List.takeWhile_append_of_pos hw, List.dropWhile_append_of_pos hw, hstop.1, hstop.2,
    List.append_nil]
  exact ⟨rfl, rfl⟩

theorem suffixed_closed {cs : List Char} (t : Ty) (h : Starts memberClosers cs) :
    suffixed t cs = (t, cs) := by
  cases cs with
  | nil => rfl
  | cons c cs =>
    have hc := h c rfl
    simp only [memberClosers, closers, List.mem_cons, List.not_mem_nil, or_false] at hc
    rcases hc with rfl | rfl | rfl | rfl | rfl | rfl <;> rfl

theorem type_closer (n : Nat) (outer : Bool) {c : Char} (h : c ∈ closers) (cs : List Char) :
    type n outer (c :: cs) = none := by
  have hnone (n : Nat) (read : Bool → Reader Ty) : alternative n read outer (c :: cs) = none := by
    simp only [closers, List.mem_cons, List.not_mem_nil, or_false] at h
    rcases h with rfl | rfl | rfl | rfl | rfl <;> rfl
  rcases n with _ | _ | n
  · rfl
  · rfl
  · simp [type, separated, hnone]

section Lists

variable {α β : Type}

/-- A reader takes the text of `a` off the front of what is left, for a value that is related to
`a`. -/
def Takes (R : α → β → Prop) (item : Reader β) (text : List Char) (a : α) (cs : List Char) : Prop :=
  ∃ b, R a b ∧ item (text ++ cs) = some (b, cs)

variable {R : α → β → Prop} {item : Reader β} {text : α → List Char} {n : Nat}

theorem takes_separated {m : Char} {mark marks cs : List Char} (hcs : Starts marks cs)
    (hm : m ∉ marks) {as : List α} {a : α} (hn : as.length < n)
    (has : ∀ a ∈ as, ∀ rest, Takes R item (text a) a (m :: mark ++ rest))
    (ha : Takes R item (text a) a cs) :
    Takes (List.Forall₂ R) (separated item (m :: mark) n)
    ((m :: mark).intercalate ((as ++ [a]).map text)) (as ++ [a]) cs := by
  obtain ⟨n, rfl⟩ : ∃ k, n = k + 1 := ⟨n - 1, by omega⟩
  induction as generalizing n with
  | nil =>
    obtain ⟨b, hab, hread⟩ := ha
    exact ⟨[b], .cons hab .nil, by simp [separated, hread, skip?_eq_none hcs hm]⟩
  | cons a' as ih =>
    rw [List.length_cons] at hn
    obtain ⟨n, rfl⟩ : ∃ k, n = k + 1 := ⟨n - 1, by omega⟩
    obtain ⟨hfirst, hrest⟩ := List.forall_mem_cons.1 has
    obtain ⟨bs, habs, hbs⟩ := ih hrest n (by omega)
    obtain ⟨b, hab, hread⟩ := hfirst ((m :: mark).intercalate ((as ++ [a]).map text) ++ cs)
    refine ⟨b :: bs, .cons hab habs, ?_⟩
    have htext : (m :: mark).intercalate ((a' :: as ++ [a]).map text) =
        text a' ++ (m :: mark ++ (m :: mark).intercalate ((as ++ [a]).map text)) := by
      obtain ⟨t, ts, hts⟩ := List.exists_cons_of_ne_nil (l := (as ++ [a]).map text) (by simp)
      rw [List.cons_append, List.map_cons, hts, List.intercalate_cons_cons]
      simp
    rw [htext, List.append_assoc, List.append_assoc, separated, hread]
    simp only [Option.bind_eq_bind, Option.bind_some, skip?_append, hbs, Option.map_some]

theorem takes_listed {c : Char} (mark : List Char) (hc : c ∈ closers) (hcomma : c ≠ ',')
    {as : List α} (hn : as.length ≤ n)
    (has : ∀ a ∈ as, ∀ rest, Starts closers rest → Takes R item (text a) a rest)
    (hnone : ∀ rest, item (c :: rest) = none)
    (cs : List Char) :
    Takes (List.Forall₂ R) (listed item (c :: mark) n)
    ([',', ' '].intercalate (as.map text) ++ c :: mark) as cs := by
  rcases List.eq_nil_or_concat' as with rfl | ⟨as, a, rfl⟩
  · refine ⟨[], .nil, ?_⟩
    have hfail : separated item [',', ' '] n (c :: (mark ++ cs)) = none := by
      cases n with
      | zero => rfl
      | succ n => simp [separated, hnone]
    -- with no item in front of the mark, the first one fails and leaves the mark where it is
    have hskip : skip? (c :: mark) (c :: (mark ++ cs)) = some cs := skip?_append (c :: mark) cs
    simp [listed, hfail, hskip]
  · have hskip : skip? (c :: mark) (c :: mark ++ cs) = some cs := skip?_append (c :: mark) cs
    have hlast : Starts closers (c :: mark ++ cs) := starts_cons hc
    have hstop : Starts [c] (c :: mark ++ cs) := starts_cons (List.mem_singleton_self c)
    have hinit : ∀ a ∈ as, ∀ rest, Takes R item (text a) a ([',', ' '] ++ rest) :=
      fun a ha rest => has a (List.mem_append_left _ ha) _ (starts_cons (by decide))
    obtain ⟨bs, habs, hread⟩ :=
      takes_separated hstop (by simpa using hcomma.symm)
        (Nat.lt_of_succ_le (by simpa using hn)) hinit (has a (by simp) _ hlast)
    refine ⟨bs, habs, ?_⟩
    rw [List.append_assoc, listed, hread]
    simp only [hskip, Option.map_some]

end Lists

theorem isSome_of_digitsFrom? {base acc n : Nat} {cs : List Char}
    (h : digitsFrom? base acc cs = some n) : ∀ c ∈ cs, (digitValue? c).isSome = true := by
  induction cs generalizing acc with
  | nil => exact List.forall_mem_nil _
  | cons c cs ih =>
    rw [digitsFrom?] at h
    split at h
    · rename_i d hd
      split at h
      · exact List.forall_mem_cons.2 ⟨by simp [hd], ih h⟩
      · cases h
    · cases h

theorem unquoteChar?_hidden (c : Char) (cs : List Char) :
    unquoteChar? ('\x5c' :: 'u' :: '\x7b' :: (hexDigits c.toNat ++ '\x7d' :: cs)) =
    some (c, cs) := by
  have hvalue : digits? 16 (hexDigits c.toNat) = some c.toNat :=
    digits?_toDigits (by decide) (by decide) c.toNat
  have hdigits : ∀ d ∈ hexDigits c.toNat, (d != '\x7d') = true := by
    have hfrom : digitsFrom? 16 0 (hexDigits c.toNat) = some c.toNat := by
      rw [digits?] at hvalue
      split at hvalue
      · cases hvalue
      · exact hvalue
    intro d hd
    have hsome := isSome_of_digitsFrom? hfrom d hd
    have hbrace : (digitValue? '\x7d').isSome = false := by decide
    exact bne_iff_ne.2 fun heq => by rw [heq, hbrace] at hsome; cases hsome
  rw [unquoteChar?, List.takeWhile_append_of_pos hdigits, List.dropWhile_append_of_pos hdigits]
  simp [hvalue, Char.ofNat_toNat]

theorem unquoteChar?_quotedChar (c : Char) (cs : List Char) :
    unquoteChar? (quotedChar c ++ cs) = some (c, cs) := by
  unfold quotedChar
  split_ifs with h₁ h₂ h₃ h₄ h₅ h₆
  · rw [eq_of_beq h₁]; rfl
  · rw [eq_of_beq h₂]; rfl
  · rw [eq_of_beq h₃]; rfl
  · rw [eq_of_beq h₄]; rfl
  · rcases Bool.or_eq_true_iff.1 h₅ with h | h <;> rw [eq_of_beq h] <;> rfl
  · simpa using unquoteChar?_hidden c cs
  · have hquote : c ≠ '\x22' ∧ c ≠ '\x5c' := by simpa using h₅
    simp [unquoteChar?, hquote]

theorem length_le_quoted (value : List Char) :
    value.length ≤ (value.flatMap quotedChar).length := by
  induction value with
  | nil => exact Nat.le_refl 0
  | cons c value ih =>
    have hne : quotedChar c ≠ [] := by
      intro hnil
      have hread := unquoteChar?_quotedChar c []
      rw [hnil] at hread
      cases hread
    have hpos := List.length_pos_of_ne_nil hne
    rw [List.flatMap_cons, List.length_append, List.length_cons]
    omega

theorem unquote?_quoted {value : List Char} {n : Nat} (hn : value.length < n) (cs : List Char) :
    unquote? n (value.flatMap quotedChar ++ '\x22' :: cs) = some (value, cs) := by
  obtain ⟨n, rfl⟩ : ∃ k, n = k + 1 := ⟨n - 1, by omega⟩
  induction value generalizing n with
  | nil => rfl
  | cons c value ih =>
    rw [List.length_cons] at hn
    obtain ⟨n, rfl⟩ : ∃ k, n = k + 1 := ⟨n - 1, by omega⟩
    rw [List.flatMap_cons, List.append_assoc, unquote?, unquoteChar?_quotedChar]
    simp [ih n (by omega)]

theorem wordInt?_toString (value : Int) : wordInt? (toString value).toList = some value := by
  have hdigits (n : Nat) : digits? 10 (Nat.toDigits 10 n) = some n :=
    digits?_toDigits (by decide) (by decide) n
  cases value with
  | ofNat n =>
    have htext : (toString (Int.ofNat n)).toList = Nat.toDigits 10 n :=
      Syntax.DocWord.text_int_ofNat n
    rw [htext]
    unfold wordInt?
    split
    · rename_i hdash
      have hdigit : '-'.isDigit = true :=
        Nat.isDigit_of_mem_toDigits (by decide) (by decide) (hdash ▸ List.mem_cons_self)
      cases hdigit
    · rw [hdigits]
      rfl
  | negSucc n =>
    have htext : (toString (Int.negSucc n)).toList = '-' :: Nat.toDigits 10 (n + 1) :=
      Syntax.DocWord.text_int_negSucc n
    rw [htext, wordInt?, hdigits]
    rfl

theorem wordType_toString (value : Int) : wordType (toString value) = .intConst value := by
  rw [wordType, wordInt?_toString]

theorem wordType_builtin {t : Ty} (h : t.isBuiltin = true) : wordType t.text = t := by
  cases t <;> first | rfl | cases h

theorem wordType_bool (value : Bool) : wordType (Ty.text (.boolConst value)) =
    .boolConst value := by
  cases value <;> rfl

def IsWord (w : String) : Prop := w ≠ "" ∧ ∀ c ∈ w.toList, isWordChar c = true

/-- A word that is not taken for the dots in front of any number of values. -/
def IsTypeName (w : String) : Prop := IsWord w ∧ w.toList.head? ≠ some '.'

instance (w : String) : Decidable (IsWord w) :=
  decidable_of_iff (w ≠ "" ∧ w.toList.all isWordChar = true) (by simp [IsWord])

instance (w : String) : Decidable (IsTypeName w) := inferInstanceAs (Decidable (_ ∧ _))

variable {n : Nat} {read : Bool → Reader Ty} {outer : Bool} {cs : List Char} {w : String}

theorem IsWord.isEmpty_eq (h : IsWord w) : w.toList.isEmpty = false := by
  have hne : w.toList ≠ [] := fun heq => h.1 (String.toList_eq_nil_iff.1 heq)
  simpa using hne

theorem operand_word (h : IsTypeName w) :
    operand n read outer (w.toList ++ cs) = named n read outer (w.toList ++ cs) := by
  obtain ⟨hword, hdot⟩ := h
  obtain ⟨c, w', hw⟩ :=
    List.exists_cons_of_ne_nil (show w.toList ≠ [] by simpa using hword.isEmpty_eq)
  have hc : isWordChar c = true := hword.2 c (hw ▸ List.mem_cons_self)
  have hne (m : Char) (hm : isWordChar m = false) : c ≠ m :=
    fun heq => by rw [← heq, hc] at hm; cases hm
  have hdot : c ≠ '.' := fun heq => hdot (by rw [hw, heq]; rfl)
  rw [hw, List.cons_append]
  -- none of the marks that other types start with is at the front of a word
  simp [operand, hdot, hne '\x22' (by decide), hne '(' (by decide), hne '[' (by decide),
    hne '\x7b' (by decide)]

theorem named_word (h : IsWord w) (hcs : Starts operandClosers cs) :
    named n read outer (w.toList ++ cs) = some (wordType w, cs) := by
  obtain ⟨htake, hdrop⟩ := word_before h.2 hcs (by decide)
  have hne := h.isEmpty_eq
  rw [named, htake, hdrop]
  cases cs with
  | nil => simp [hne]
  | cons c cs =>
    have hc := hcs c rfl
    simp only [operandClosers, memberClosers, closers, List.mem_cons, List.not_mem_nil,
      or_false] at hc
    rcases hc with rfl | rfl | rfl | rfl | rfl | rfl | rfl | rfl <;> simp [hne]

theorem isTypeName_builtin {t : Ty} (h : t.isBuiltin = true) : IsTypeName t.text := by
  cases t <;> first | decide +kernel | cases h

theorem isTypeName_toString (value : Int) : IsTypeName (toString value) := by
  have hchars : ∀ c ∈ (toString value).toList, c.isDigit = true ∨ c = '-' := by
    have hdigits {n : Nat} {c : Char} (h : c ∈ Nat.toDigits 10 n) : c.isDigit = true :=
      Nat.isDigit_of_mem_toDigits (by decide) (by decide) h
    cases value with
    | ofNat n =>
      have htext : (toString (Int.ofNat n)).toList = Nat.toDigits 10 n :=
        Syntax.DocWord.text_int_ofNat n
      exact fun c hc => .inl (hdigits (htext ▸ hc))
    | negSucc n =>
      have htext : (toString (Int.negSucc n)).toList = '-' :: Nat.toDigits 10 (n + 1) :=
        Syntax.DocWord.text_int_negSucc n
      rw [htext]
      exact List.forall_mem_cons.2 ⟨.inr rfl, fun c hc => .inl (hdigits hc)⟩
  have hnone : (('.' :: delimiters).any fun c => c.isDigit || c == '-') = false := by decide
  have hmarks : ∀ c ∈ '.' :: delimiters, ¬(c.isDigit = true ∨ c = '-') := by
    simpa using List.any_eq_false.1 hnone
  refine ⟨⟨fun hempty => ?_, fun c hc => ?_⟩, fun hdot => ?_⟩
  · have hread := wordInt?_toString value
    rw [hempty] at hread
    cases hread
  · have hmark : c ∉ delimiters := fun hmem => hmarks c (.tail _ hmem) (hchars c hc)
    simpa [isWordChar] using hmark
  · exact hmarks '.' (.head _) (hchars '.' (List.mem_of_mem_head? hdot))

theorem entry_name (read : Bool → Reader Ty) {cs : List Char} (hspace : cs.head? ≠ some ' ')
    (hbracket : cs.head? ≠ some '[') :
    entry read cs = (skip? [':', ' '] (cs.dropWhile (· != ':'))).bind fun rest =>
  (read false rest).bind fun (type, rest) =>
      some (.inl (.name (String.ofList (cs.takeWhile (· != ':'))), type), rest) := by
  cases cs with
  | nil => rfl
  | cons c cs =>
    have hc : c ≠ ' ' ∧ c ≠ '[' := by simpa using And.intro hspace hbracket
    simp [entry, hc]

end TextReader

end LuaAnalysis.Types
