import LuaAnalysis.Text.Blank
import LuaAnalysis.Text.Numeral

/-!
Values written in JSON. Numbers are kept as they are written, members of objects in their order, and
a string in which half of a surrogate pair stands alone has no text.
-/

namespace LuaAnalysis.Settings

inductive Json where
  | null
  | bool (value : Bool)
  | number (digits : String)
  | string (text : Option String)
  | array (items : List Json)
  | object (members : List (Option String × Json))
deriving Repr, Inhabited

namespace Json

def isSpace (c : Char) : Bool := c == ' ' || c == '\n' || c == '\t' || c == '\r'

def skipSpace (cs : List Char) : List Char := cs.dropWhile isSpace

def unit? : List Char → Option (Nat × List Char)
  | a :: b :: c :: d :: r => (Text.digits? 16 [a, b, c, d]).map (·, r)
  | _ => none

def isHighSurrogate (n : Nat) : Bool := 0xD800 ≤ n && n < 0xDC00

def isLowSurrogate (n : Nat) : Bool := 0xDC00 ≤ n && n < 0xE000

def escape? : Char → Option Char
  | '\x22' => some '\x22'
  | '\x5c' => some '\x5c'
  | '/' => some '/'
  | 'b' => some '\x08'
  | 'f' => some '\x0c'
  | 'n' => some '\n'
  | 'r' => some '\r'
  | 't' => some '\t'
  | _ => none

/-- The units of a string up to the quote that ends it, and what follows. Each step takes a
character at least, so their number is fuel enough. -/
def stringUnits : Nat → List Char → Option (List Nat × List Char)
  | 0, _ => none
  | _, [] => none
  | _ + 1, '\x22' :: r => some ([], r)
  | fuel + 1, '\x5c' :: 'u' :: r => do
    let (n, r) ← unit? r
    let (ns, r) ← stringUnits fuel r
    pure (n :: ns, r)
  | fuel + 1, '\x5c' :: c :: r => do
    let c ← escape? c
    let (ns, r) ← stringUnits fuel r
    pure (c.toNat :: ns, r)
  | fuel + 1, c :: r => do
    if c.toNat < 0x20 || c == '\x5c' then none
    else
      let (ns, r) ← stringUnits fuel r
      pure (c.toNat :: ns, r)

/-- The characters of code points, of which some may be halves of surrogate pairs. -/
def joinUnits? : List Nat → Option (List Char)
  | [] => some []
  | [n] => if isHighSurrogate n || isLowSurrogate n then none else some [Char.ofNat n]
  | m :: n :: r =>
    if isHighSurrogate m then
      if isLowSurrogate n then
        (joinUnits? r).map (Char.ofNat (0x10000 + (m - 0xD800) * 0x400 + (n - 0xDC00)) :: ·)
      else none
    else if isLowSurrogate m then none
    else (joinUnits? (n :: r)).map (Char.ofNat m :: ·)

def string? (cs : List Char) : Option (Option String × List Char) :=
  (stringUnits (cs.length + 1) cs).map fun (ns, r) => ((joinUnits? ns).map String.ofList, r)

def someDigits? (cs : List Char) : Option (List Char × List Char) :=
  match cs.span Char.isDigit with
  | ([], _) => none
  | (digits, r) => some (digits, r)

def fraction? : List Char → Option (List Char × List Char)
  | '.' :: r => (someDigits? r).map fun (ds, r) => ('.' :: ds, r)
  | cs => some ([], cs)

def exponent? : List Char → Option (List Char × List Char)
  | e :: r =>
    if e == 'e' || e == 'E' then
      let (sign, r) := match r with
        | '+' :: r => (['+'], r)
        | '-' :: r => (['-'], r)
        | r => ([], r)
      (someDigits? r).map fun (ds, r) => (e :: sign ++ ds, r)
    else some ([], e :: r)
  | [] => some ([], [])

def number? (cs : List Char) : Option (String × List Char) := do
  let (sign, r) := match cs with
    | '-' :: r => (['-'], r)
    | r => ([], r)
  let (whole, r) ← match r with
    | '0' :: d :: r => if d.isDigit then none else some (['0'], d :: r)
    | r => someDigits? r
  let (fraction, r) ← fraction? r
  let (exponent, r) ← exponent? r
  pure (String.ofList (sign ++ whole ++ fraction ++ exponent), r)

def word? (word : String) (value : Json) (cs : List Char) : Option (Json × List Char) :=
  if word.toList.isPrefixOf cs then some (value, cs.drop word.length) else none

mutual

def value? : Nat → List Char → Option (Json × List Char)
  | 0, _ => none
  | fuel + 1, cs =>
    match skipSpace cs with
    | '\x22' :: r => (string? r).map fun (s, r) => (.string s, r)
    | '[' :: r =>
      match skipSpace r with
      | ']' :: r => some (.array [], r)
      | r => (items? fuel r).map fun (xs, r) => (.array xs, r)
    | '\x7b' :: r =>
      match skipSpace r with
      | '\x7d' :: r => some (.object [], r)
      | r => (members? fuel r).map fun (ms, r) => (.object ms, r)
    | 'n' :: r => word? "null" .null ('n' :: r)
    | 't' :: r => word? "true" (.bool true) ('t' :: r)
    | 'f' :: r => word? "false" (.bool false) ('f' :: r)
    | r => (number? r).map fun (n, r) => (.number n, r)

def items? : Nat → List Char → Option (List Json × List Char)
  | 0, _ => none
  | fuel + 1, cs => do
    let (x, r) ← value? fuel cs
    match skipSpace r with
    | ']' :: r => some ([x], r)
    | ',' :: r =>
      let (xs, r) ← items? fuel r
      some (x :: xs, r)
    | _ => none

def members? : Nat → List Char → Option (List (Option String × Json) × List Char)
  | 0, _ => none
  | fuel + 1, cs => do
    let (key, r) ← match skipSpace cs with
      | '\x22' :: r => string? r
      | _ => none
    let (x, r) ← match skipSpace r with
      | ':' :: r => value? fuel r
      | _ => none
    match skipSpace r with
    | '\x7d' :: r => some ([(key, x)], r)
    | ',' :: r =>
      let (ms, r) ← members? fuel r
      some ((key, x) :: ms, r)
    | _ => none

end

def parse? (text : String) : Option Json := do
  let cs := text.toList
  let (value, r) ← value? (2 * cs.length + 1) cs
  if (skipSpace r).isEmpty then some value else none

end Json

end LuaAnalysis.Settings
