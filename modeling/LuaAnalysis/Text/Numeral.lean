/-!
Numbers of fixed width written in digits. A plus sign may stand before the digits, and before those
of a signed number a minus sign too.
-/

namespace LuaAnalysis.Text

def digitValue? (c : Char) : Option Nat :=
  if '0' ≤ c && c ≤ '9' then some (c.toNat - '0'.toNat)
  else if 'a' ≤ c && c ≤ 'f' then some (c.toNat - 'a'.toNat + 10)
  else if 'A' ≤ c && c ≤ 'F' then some (c.toNat - 'A'.toNat + 10)
  else none

/-- The value of digits in a base, to which `acc` holds those before. -/
def digitsFrom? (base : Nat) (acc : Nat) : List Char → Option Nat
  | [] => some acc
  | c :: r =>
    match digitValue? c with
    | some d => if d < base then digitsFrom? base (acc * base + d) r else none
    | none => none

def digits? (base : Nat) (cs : List Char) : Option Nat :=
  if cs.isEmpty then none else digitsFrom? base 0 cs

def unsigned? (base limit : Nat) (cs : List Char) : Option Nat :=
  let digits := match cs with
    | '+' :: r => r
    | cs => cs
  (digits? base digits).bind fun n => if n < limit then some n else none

def signed64? (cs : List Char) : Option Int :=
  match cs with
  | '-' :: r => (digits? 10 r).bind fun n => if n ≤ UInt64.size / 2 then some (-(n : Int)) else none
  | '+' :: r => (digits? 10 r).bind fun n => if n < UInt64.size / 2 then some (n : Int) else none
  | cs => (digits? 10 cs).bind fun n => if n < UInt64.size / 2 then some (n : Int) else none

/-- The signed number of 64 bits that is equal to `i` modulo 2^64. -/
def wrap64 (i : Int) : Int := Int.bmod i UInt64.size

end LuaAnalysis.Text
