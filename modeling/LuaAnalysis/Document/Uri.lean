import LuaAnalysis.Document.Path
import LuaAnalysis.Text.Blank
import LuaAnalysis.Text.Numeral
import LuaAnalysis.Text.Utf8

/-!
References to documents: generic URI references, in ASCII, with all else written in percent escapes.
A reference is kept as it was written.
-/

namespace LuaAnalysis.Document

/-- A URI reference, with the text of its path. -/
structure Uri where
  text : String
  path : String
deriving DecidableEq, Repr, Inhabited

namespace Uri

def isUnreserved (c : Char) : Bool :=
  c.isAlphanum || c == '-' || c == '.' || c == '_' || c == '~'

def isSubDelim (c : Char) : Bool := "!$&'()*+,;=".toList.contains c

def isSchemeChar (c : Char) : Bool := c.isAlphanum || c == '+' || c == '-' || c == '.'

def isEncoded (p : Char → Bool) : List Char → Bool
  | [] => true
  | '%' :: a :: b :: r => Text.isHexDigit a && Text.isHexDigit b && isEncoded p r
  | c :: r => c != '%' && p c && isEncoded p r

def isRegName (cs : List Char) : Bool := isEncoded (fun c => isUnreserved c || isSubDelim c) cs

def isUserInfo (cs : List Char) : Bool :=
  isEncoded (fun c => isUnreserved c || isSubDelim c || c == ':') cs

def isPathChar (c : Char) : Bool := isUnreserved c || isSubDelim c || c == ':' || c ==
    '@' || c == '/'

def isTail (cs : List Char) : Bool := isEncoded (fun c => isPathChar c || c == '?') cs

def isOctet (s : String) : Bool :=
  match s.toList with
  | ['0'] => true
  | '0' :: _ => false
  | cs => cs.length ≤ 3 && (Text.digits? 10 cs).getD 256 ≤ 255

def isIpv4 (s : String) : Bool :=
  let octets := s.splitOn "."
  octets.length == 4 && octets.all isOctet

def isHexGroup (s : String) : Bool :=
  let cs := s.toList
  1 ≤ cs.length && cs.length ≤ 4 && cs.all Text.isHexDigit

/-- The number of groups of 16 bits written with colons between them, where the last may be an
address of four octets. -/
def groupCount? (s : String) : Option Nat :=
  if s.isEmpty then some 0
  else
    let groups := s.splitOn ":"
    match groups.getLast? with
    | none => none
    | some last =>
      if groups.all isHexGroup then some groups.length
      else if groups.dropLast.all isHexGroup && isIpv4 last then some (groups.length + 1)
      else none

def isIpv6 (s : String) : Bool :=
  match s.splitOn "::" with
  | [whole] => groupCount? whole == some 8
  | [front, back] =>
    match groupCount? front, groupCount? back with
    | some m, some n => m + n ≤ 7 && !front.contains '.'
    | _, _ => false
  | _ => false

def isHostNumber (cs : List Char) : Bool :=
  match cs with
  | [] => true
  | ':' :: digits => digits.all Char.isDigit
  | _ => false

def isHost (cs : List Char) : Bool :=
  match cs with
  | '[' :: r =>
    let address := r.takeWhile (· != ']')
    match r.dropWhile (· != ']') with
    | _ :: number => isIpv6 (String.ofList address) && isHostNumber number
    | [] => false
  | _ => isRegName (cs.takeWhile (· != ':')) && isHostNumber (cs.dropWhile (· != ':'))

def isAuthority (cs : List Char) : Bool :=
  match cs.span (· != '@') with
  | (user, _ :: host) => isUserInfo user && isHost host
  | (host, []) => isHost host

/-- Cuts the scheme off. A colon in the first segment must end a scheme. -/
def splitScheme? (cs : List Char) : Option (Bool × List Char) :=
  match cs.span isSchemeChar with
  | (scheme, ':' :: rest) => if (scheme.head?.map Char.isAlpha).getD false then
      some (true, rest) else none
  | _ => some (false, cs)

def splitAuthority? (cs : List Char) : Option (Bool × List Char) :=
  match cs with
  | '/' :: '/' :: r =>
    let (authority, rest) := r.span fun c => c != '/' && c != '?' && c != '#'
    if isAuthority authority then some (true, rest) else none
  | _ => some (false, cs)

def splitPath? (cs : List Char) : Option (List Char) :=
  let (path, rest) := cs.span fun c => c != '?' && c != '#'
  let (query, rest) := rest.span (· != '#')
  if isEncoded isPathChar path && isTail (query.drop 1) && isTail (rest.drop 1) then
    some path else none

def parse? (text : String) : Option Uri := do
  let (hasScheme, rest) ← splitScheme? text.toList
  let (hasAuthority, rest) ← splitAuthority? rest
  let path ← splitPath? rest
  if !hasScheme && !hasAuthority && (path.takeWhile (· != '/')).contains ':' then none
  else some ⟨text, String.ofList path⟩

def decode : List Char → List Nat
  | [] => []
  | '%' :: a :: b :: r =>
    match Text.digits? 16 [a, b] with
    | some n => n :: decode r
    | none => Text.toBytes (String.ofList ['%', a, b]) ++ decode r
  | c :: r => Text.toBytes c.toString ++ decode r

/-- The path of the file that a reference stands for. Its scheme makes no difference. -/
def filePath? (uri : Uri) : Option String :=
  if uri.path.isEmpty then none else some (Text.ofBytes (decode uri.path.toList))

def hexByte (n : Nat) : List Char :=
  let digits := (Nat.toDigits 16 n).map Char.toUpper
  List.replicate (2 - digits.length) '0' ++ digits

def encodeChar (c : Char) : List Char :=
  if isUnreserved c || c == '/' then [c]
  else (Text.toBytes c.toString).flatMap fun b => '%' :: hexByte b

def ofFilePath? (path : String) : Option Uri :=
  if Path.isAbsolute path then parse? ("file://" ++ String.ofList (path.toList.flatMap encodeChar))
    else none

end Uri

end LuaAnalysis.Document
