import LuaAnalysis.Proofs.Syntax.Tokenize

/-!
The tokens of a text lie side by side, from its first byte to its last one, and cut no character.
What is wrong with a text is wrong with one of its tokens.
-/

namespace LuaAnalysis.Text

/-- None of the spans is empty, each starts where the one in front of it stops, and nothing is left
between two offsets. -/
def Tile : Nat → List Span → Nat → Prop
  | start, [], stop => start = stop
  | start, s :: spans, stop => s.start = start ∧ s.start < s.stop ∧ Tile s.stop spans stop

theorem Tile.bounds {start stop : Nat} {spans : List Span} (h : Tile start spans stop) :
    start ≤ stop ∧ ∀ s ∈ spans, start ≤ s.start ∧ s.start < s.stop ∧ s.stop ≤ stop := by
  induction spans generalizing start with
  | nil => exact ⟨Nat.le_of_eq h, by simp⟩
  | cons s spans ih =>
    obtain ⟨hstart, hlt, hrest⟩ := h
    obtain ⟨hstop, hspans⟩ := ih hrest
    refine ⟨by omega, List.forall_mem_cons.2 ⟨⟨by omega, hlt, hstop⟩, fun t ht => ?_⟩⟩
    obtain ⟨hle, hbounds⟩ := hspans t ht
    exact ⟨by omega, hbounds⟩

theorem byteLength_toList (text : String) : byteLength text.toList = text.utf8ByteSize := by
  rw [byteLength_eq_utf8Len, String.utf8Len_toList]

end LuaAnalysis.Text

namespace LuaAnalysis.Syntax.Lexer

variable {start : Nat} {cs : List Char} {tokens : List Token} {errors : List SyntaxError}

theorem Tiles.tile (h : Tiles start cs tokens) :
    Text.Tile start (tokens.map (·.span)) (start + Text.byteLength cs) := by
  induction h with
  | nil start => rfl
  | cons hne _ _ _ ih =>
    rw [Text.byteLength_append, ← Nat.add_assoc]
    exact ⟨rfl, Nat.lt_add_of_pos_right (Text.byteLength_pos hne), ih⟩

theorem Tiles.isPiece {text : String} (h : Tiles start cs tokens) {pre : List Char}
    (htext : text.toList = pre ++ cs) (hpre : start = Text.byteLength pre) :
    ∀ t ∈ tokens, ∃ chars, Text.IsPiece text t.span chars := by
  induction h generalizing pre with
  | nil => simp
  | @cons start chars rest kind tokens _ _ _ _ ih =>
    have hcut : text.toList = (pre ++ chars) ++ rest := by rw [htext, List.append_assoc]
    have hrest := ih hcut (by rw [Text.byteLength_append, hpre])
    exact List.forall_mem_cons.2 ⟨⟨chars, pre, rest, hcut, hpre, rfl⟩, hrest⟩

theorem Cuts.on_token (h : Cuts start cs tokens errors) :
    ∀ e ∈ errors, ∃ t ∈ tokens, t.span = e.span := by
  induction h with
  | nil => simp
  | @cons start stop c r l tokens errors _ _ _ ih =>
    intro e he
    rcases List.mem_append.1 he with he | he
    · obtain ⟨f, -, rfl⟩ := Option.map_eq_some_iff.1 (Option.mem_toList.1 he)
      exact ⟨_, List.mem_cons_self, rfl⟩
    · obtain ⟨t, ht, hspan⟩ := ih e he
      exact ⟨t, List.mem_cons_of_mem _ ht, hspan⟩

theorem CutsText.on_token (h : CutsText cs tokens errors) :
    ∀ e ∈ errors, ∃ t ∈ tokens, t.span = e.span := by
  cases h with
  | plain h => exact h.on_token
  | script _ h =>
    intro e he
    obtain ⟨t, ht, hspan⟩ := h.on_token e he
    exact ⟨t, List.mem_cons_of_mem _ ht, hspan⟩

theorem Cuts.exists_lexeme {text : String} (h : Cuts start cs tokens errors) {pre : List Char}
    (htext : text.toList = pre ++ cs) (hpre : start = Text.byteLength pre) : ∀ t ∈ tokens, ∃ c r,
      t.kind = (lexeme c r).kind ∧ Text.IsPiece text t.span (lexeme c r).chars ∧
        ∀ f, ⟨.lex f, t.span⟩ ∈ errors ↔ (lexeme c r).fault = some f := by
  induction h generalizing pre with
  | nil => simp
  | @cons start stop c r l tokens errors hl hstop hcuts ih =>
    have happend := lexeme_append c r
    have hne := lexeme_ne_nil c r
    rw [hl] at happend hne
    have hcut : text.toList = (pre ++ l.chars) ++ l.rest := by
      rw [htext, ← happend, List.append_assoc]
    have hbehind : ∀ t ∈ tokens, stop ≤ t.span.start := fun t ht =>
      (hcuts.tiles.tile.bounds.2 t.span (List.mem_map_of_mem ht)).1
    have hlt : start < stop := by
      have := Text.byteLength_pos hne
      omega
    refine List.forall_mem_cons.2
      ⟨⟨c, r, by rw [hl], ⟨pre, l.rest, by rw [hl, hcut], hpre, by rw [hl, hstop]⟩, fun f => ?_⟩,
      fun t ht => ?_⟩
    · rw [hl, List.mem_append]
      constructor
      · rintro (hmem | hmem)
        · obtain ⟨g, hg, heq⟩ := Option.map_eq_some_iff.1 (Option.mem_toList.1 hmem)
          rw [hg, Fault.lex.inj (SyntaxError.mk.inj heq).1]
        · obtain ⟨t, ht, hspan⟩ := hcuts.on_token _ hmem
          have hstart := congrArg Span.start hspan
          have := hbehind t ht
          dsimp only at hstart
          omega
      · intro hf
        simp [hf]
    · obtain ⟨d, s, hkind, hpiece, hfault⟩ :=
        ih hcut (by rw [Text.byteLength_append, hstop, hpre]) t ht
      refine ⟨d, s, hkind, hpiece, fun f => ?_⟩
      rw [← hfault f, List.mem_append, or_iff_right]
      intro hmem
      obtain ⟨g, -, heq⟩ := Option.map_eq_some_iff.1 (Option.mem_toList.1 hmem)
      have hstart := congrArg (·.span.start) heq
      have := hbehind t ht
      dsimp only at hstart
      omega

theorem tokenize_lexeme {text : String} {t : Token} (ht : t ∈ (tokenize text).1)
    (heof : t.kind ≠ .eof) (hshebang : t.kind ≠ .shebang) : ∃ c r, t.kind = (lexeme c r).kind ∧
    Text.IsPiece text t.span (lexeme c r).chars ∧
      ∀ f, ⟨.lex f, t.span⟩ ∈ (tokenize text).2 ↔ (lexeme c r).fault = some f := by
  obtain ⟨tokens, errors, htokens, hcuts⟩ := tokenize_cuts text
  rw [htokens, List.mem_append, List.mem_singleton] at ht
  rw [htokens]
  obtain ht | rfl := ht
  · generalize hcs : text.toList = cs at hcuts
    cases hcuts with
    | plain h => exact h.exists_lexeme (by rw [hcs, List.nil_append]) rfl t ht
    | script _ h =>
      rcases List.mem_cons.1 ht with rfl | ht
      · exact absurd rfl hshebang
      · exact h.exists_lexeme hcs rfl t ht
  · exact absurd rfl heof

/-- The tokens of a text tile it, with the end of the text behind them, and each fault of the lexer
is on one of them. -/
theorem tokenize_covers (text : String) : ∃ tokens,
    (tokenize text).1 = tokens ++ [⟨.eof, .empty text.utf8ByteSize⟩] ∧
    (∀ t ∈ tokens, t.kind ≠ .eof) ∧
      Text.Tile 0 (tokens.map (·.span)) text.utf8ByteSize ∧
      (∀ t ∈ tokens, Text.IsBoundary text t.span.start ∧ Text.IsBoundary text t.span.stop) ∧
      ∀ e ∈ (tokenize text).2, e.span.start < e.span.stop ∧ e.span.stop ≤ text.utf8ByteSize ∧
        ∃ t ∈ tokens, t.span = e.span := by
  obtain ⟨tokens, errors, htokens, hcuts⟩ := tokenize_cuts text
  have htile := hcuts.tiles.tile
  rw [Nat.zero_add, Text.byteLength_toList] at htile
  rw [Text.byteLength_toList] at htokens
  refine ⟨tokens, by rw [htokens], hcuts.tiles.ne_eof, htile, fun t ht => ?_, fun e he => ?_⟩
  · obtain ⟨chars, hpiece⟩ := hcuts.tiles.isPiece (List.nil_append _).symm rfl t ht
    exact hpiece.boundaries
  · rw [htokens] at he
    obtain ⟨t, ht, hspan⟩ := hcuts.on_token e he
    obtain ⟨-, hlt, hle⟩ := htile.bounds.2 e.span (List.mem_map.2 ⟨t, ht, hspan⟩)
    exact ⟨hlt, hle, t, ht, hspan⟩

end LuaAnalysis.Syntax.Lexer
