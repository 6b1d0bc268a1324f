import LuaAnalysis.Text.Hidden

/-!
Text between quotes, as trees and types show it. What a reader could not see or tell apart is
written as an escape.
-/

namespace LuaAnalysis.Text

def hexDigits (n : Nat) : List Char := Nat.toDigits 16 n

def quotedChar (c : Char) : List Char :=
  if c == '\x00' then ['\x5c', '0']
  else if c == '\t' then ['\x5c', 't']
  else if c == '\r' then ['\x5c', 'r']
  else if c == '\n' then ['\x5c', 'n']
  else if c == '\x22' || c == '\x5c' then ['\x5c', c]
  else if isHidden c then ['\x5c', 'u', '\x7b'] ++ hexDigits c.toNat ++ ['\x7d']
  else [c]

def quoted (s : String) : String :=
  String.ofList ('\x22' :: (s.toList.flatMap quotedChar ++ ['\x22']))

end LuaAnalysis.Text
