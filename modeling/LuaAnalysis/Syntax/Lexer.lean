import LuaAnalysis.Text.Blank
import LuaAnalysis.Syntax.Fault

/-!
Source code as a row of tokens. Every character belongs to a token, so the tokens tile the text;
trivia are kept, because comments carry annotations. A malformed token is kept too, with its fault.
-/

namespace LuaAnalysis.Syntax

structure Token where
  kind : TokenKind
  span : Span
deriving DecidableEq, Repr, Inhabited

/-- The first token of a run of characters: its kind, its own characters and those behind it. -/
structure Lexeme where
  kind : TokenKind
  chars : List Char
  rest : List Char
  fault : Option LexFault := none
deriving Repr

namespace Lexer

def isSpace (c : Char) : Bool := c == ' ' || c == '\t' || c == '\x0b' || c == '\x0c'

def isLineBreak (c : Char) : Bool := c == '\n' || c == '\r'

def isNameStart (c : Char) : Bool := c == '_' || c.isAlpha

def isNameChar (c : Char) : Bool := c == '_' || c.isAlphanum

def run (p : Char → Bool) (cs : List Char) : List Char × List Char := cs.span p

def one (p : Char → Bool) : List Char → List Char × List Char
  | [] => ([], [])
  | c :: r => if p c then ([c], r) else ([], c :: r)

def longLevel? : List Char → Option Nat
  | '[' :: r =>
    let level := (r.takeWhile (· == '=')).length
    if r[level]? == some '[' then some level else none
  | _ => none

def longOpener (level : Nat) : List Char := '[' :: (List.replicate level '=' ++ ['['])

def longCloser (level : Nat) : List Char := ']' :: (List.replicate level '=' ++ [']'])

def longBody (level : Nat) : List Char → List Char × List Char × Bool
  | [] => ([], [], false)
  | c :: r =>
    if (longCloser level).isPrefixOf (c :: r) then
      (longCloser level, (c :: r).drop (level + 2), true)
    else
      let (taken, rest, closed) := longBody level r
      (c :: taken, rest, closed)

/-- A long bracket behind the characters `lead`, whose opener stands at the front of `cs`. -/
def longBracket (kind : TokenKind) (unfinished : LexFault) (lead : List Char) (level : Nat)
    (cs : List Char) : Lexeme :=
  let (taken, rest, closed) := longBody level (cs.drop (level + 2))
  ⟨kind, lead ++ longOpener level ++ taken, rest, if closed then none else some unfinished⟩

/-- Cuts behind the closing quote of a string; the last flag says whether there is one. A line break
ends the string unless a backslash stands before it. While `skipping` holds, after an escape `\z`,
blanks are passed over, line breaks included. -/
def quotedBody (quote : Char) (skipping : Bool) : List Char → List Char × List Char × Bool
  | [] => ([], [], false)
  | c :: r =>
    if skipping && Text.isAsciiBlank c then
      let (taken, rest, closed) := quotedBody quote true r
      (c :: taken, rest, closed)
    else if isLineBreak c then ([], c :: r, false)
    else if c == '\x5c' then
      match r with
      | [] => ([c], [], false)
      | 'z' :: r =>
        let (taken, rest, closed) := quotedBody quote true r
        (c :: 'z' :: taken, rest, closed)
      | '\r' :: '\n' :: r =>
        let (taken, rest, closed) := quotedBody quote false r
        (c :: '\r' :: '\n' :: taken, rest, closed)
      | '\n' :: '\r' :: r =>
        let (taken, rest, closed) := quotedBody quote false r
        (c :: '\n' :: '\r' :: taken, rest, closed)
      | d :: r =>
        let (taken, rest, closed) := quotedBody quote false r
        (c :: d :: taken, rest, closed)
    else if c == quote then ([c], r, true)
    else
      let (taken, rest, closed) := quotedBody quote false r
      (c :: taken, rest, closed)

def quoted (quote : Char) (cs : List Char) : Lexeme :=
  let (taken, rest, closed) := quotedBody quote false cs
  ⟨.str, quote :: taken, rest, if closed then none else some .unfinishedString⟩

def exponent (mark : Char → Bool) (cs : List Char) : List Char × List Char :=
  match one mark cs with
  | ([], _) => ([], cs)
  | (e, r) =>
    let (sign, r) := one (fun c => c == '+' || c == '-') r
    let (digits, r) := run Char.isDigit r
    (e ++ sign ++ digits, r)

def numeral (cs : List Char) : List Char × List Char × Bool :=
  match cs with
  | '0' :: 'x' :: r => hexadecimal 'x' r
  | '0' :: 'X' :: r => hexadecimal 'X' r
  | _ =>
    let (whole, r) := run Char.isDigit cs
    let (fraction, r) := match r with
      | '.' :: '.' :: _ => ([], r)
      | '.' :: r => let (digits, r) := run Char.isDigit r; ('.' :: digits, r)
      | _ => ([], r)
    let (power, r) := exponent (fun c => c == 'e' || c == 'E') r
    (whole ++ fraction ++ power, r, !fraction.isEmpty || !power.isEmpty)
where
  /-- What follows the mark `x` of a hexadecimal number. -/
  hexadecimal (x : Char) (cs : List Char) : List Char × List Char × Bool :=
    let (whole, r) := run Text.isHexDigit cs
    let (fraction, r) := match r with
      | '.' :: r => let (digits, r) := run Text.isHexDigit r; ('.' :: digits, r)
      | _ => ([], r)
    let (power, r) := exponent (fun c => c == 'p' || c == 'P') r
    ('0' :: x :: (whole ++ fraction ++ power), r, !fraction.isEmpty || !power.isEmpty)

def isSuffixChar (c : Char) : Bool :=
  c == 'u' || c == 'U' || c == 'l' || c == 'L' || c == 'i' || c == 'I'

/-- The suffixes of an integer end in two letters `l` or in an `i`. -/
def isIntegerSuffix (suffix : List Char) : Bool :=
  match suffix.reverse.map Char.toLower with
  | 'i' :: _ => true
  | 'l' :: 'l' :: _ => true
  | _ => false

def number (cs : List Char) : Lexeme :=
  let (digits, r, isFloat) := numeral cs
  let (suffix, r) := run isSuffixChar r
  let (junk, r) := run isNameChar r
  let malformed := !junk.isEmpty || (!suffix.isEmpty && !isFloat && !isIntegerSuffix suffix)
  ⟨if isFloat then .float else .int, digits ++ suffix ++ junk, r,
    if malformed then some .malformedNumber else none⟩

def comment (cs : List Char) : Lexeme :=
  match longLevel? cs with
  | some level => longBracket .longComment .unfinishedLongComment ['-', '-'] level cs
  | none =>
    let (line, r) := run (fun c => !isLineBreak c) cs
    ⟨.shortComment, '-' :: '-' :: line, r, none⟩

def bracket (cs : List Char) : Lexeme :=
  match longLevel? ('[' :: cs) with
  | some level => longBracket .longString .unfinishedLongString [] level ('[' :: cs)
  | none =>
    match run (· == '=') cs with
    | ([], r) => ⟨.leftBracket, ['['], r, none⟩
    | (marks, r) => ⟨.incompleteLongBracket, '[' :: marks, r, some .invalidLongDelimiter⟩

def single? : Char → Option TokenKind
  | '+' => some .plus
  | '-' => some .minus
  | '*' => some .mul
  | '/' => some .div
  | '%' => some .mod
  | '^' => some .pow
  | '#' => some .len
  | '&' => some .bitAnd
  | '~' => some .bitXor
  | '|' => some .bitOr
  | '<' => some .lt
  | '>' => some .gt
  | '=' => some .assign
  | '(' => some .leftParen
  | ')' => some .rightParen
  | '\x7b' => some .leftBrace
  | '\x7d' => some .rightBrace
  | ']' => some .rightBracket
  | ';' => some .semicolon
  | ':' => some .colon
  | ',' => some .comma
  | '.' => some .dot
  | _ => none

def double? : Char → Char → Option TokenKind
  | '=', '=' => some .eq
  | '<', '=' => some .le
  | '<', '<' => some .shl
  | '>', '=' => some .ge
  | '>', '>' => some .shr
  | '~', '=' => some .ne
  | ':', ':' => some .dbColon
  | '.', '.' => some .concat
  | '/', '/' => some .idiv
  | _, _ => none

def mark (c : Char) (r : List Char) : Lexeme :=
  match c, r with
  | '.', '.' :: '.' :: r => ⟨.dots, ['.', '.', '.'], r, none⟩
  | c, r =>
    match r with
    | d :: r' =>
      match double? c d with
      | some kind => ⟨kind, [c, d], r', none⟩
      | none => ofSingle c r
    | [] => ofSingle c r
where
  /-- A character that no longer mark starts with. -/
  ofSingle (c : Char) (r : List Char) : Lexeme :=
    match single? c with
    | some kind => ⟨kind, [c], r, none⟩
    | none => ⟨.unknown, [c], r, some (.unexpectedCharacter c)⟩

/-- A line feed and a carriage return make one line break, in either order. -/
def lineBreak (c : Char) (r : List Char) : Lexeme :=
  match c, r with
  | '\r', '\n' :: r => ⟨.endOfLine, ['\r', '\n'], r, none⟩
  | '\n', '\r' :: r => ⟨.endOfLine, ['\n', '\r'], r, none⟩
  | c, r => ⟨.endOfLine, [c], r, none⟩

def startsNumber (c : Char) (r : List Char) : Bool :=
  c.isDigit || (c == '.' && (r.head?.map Char.isDigit).getD false)

def lexeme (c : Char) (r : List Char) : Lexeme :=
  if isLineBreak c then lineBreak c r
  else if isSpace c then
    let (spaces, rest) := run isSpace r
    ⟨.whitespace, c :: spaces, rest, none⟩
  else if isNameStart c then
    let (letters, rest) := run isNameChar r
    ⟨.ofWord (String.ofList (c :: letters)), c :: letters, rest, none⟩
  else if startsNumber c r then number (c :: r)
  else if c == '\x22' || c == '\x27' then quoted c r
  else if c == '[' then bracket r
  else match c, r with
    | '-', '-' :: r => comment r
    | c, r => mark c r

/-- The tokens and the faults of `cs`, whose first byte has the offset `start`. Each token takes at
least one character, so the number of characters is fuel enough. -/
def lexFrom : Nat → Nat → List Char → List Token × List SyntaxError
  | _, start, [] => ([⟨.eof, .empty start⟩], [])
  | 0, start, _ => ([⟨.eof, .empty start⟩], [])
  | fuel + 1, start, c :: r =>
    let l := lexeme c r
    let span := ⟨start, start + Text.byteLength l.chars⟩
    let (tokens, errors) := lexFrom fuel span.stop l.rest
    (⟨l.kind, span⟩ :: tokens, (l.fault.map fun f => ⟨.lex f, span⟩).toList ++ errors)

/-- A first line that starts with `#!` names the program that runs the script. -/
def shebang? : List Char → Option (List Char × List Char)
  | '#' :: '!' :: r => some (run (fun c => !isLineBreak c) ('#' :: '!' :: r))
  | _ => none

def tokenize (text : String) : List Token × List SyntaxError :=
  let cs := text.toList
  match shebang? cs with
  | some (line, rest) =>
    let stop := Text.byteLength line
    let (tokens, errors) := lexFrom rest.length stop rest
    (⟨.shebang, ⟨0, stop⟩⟩ :: tokens, errors)
  | none => lexFrom cs.length 0 cs

end Lexer

end LuaAnalysis.Syntax
