namespace LuaAnalysis.Settings

inductive Version where
  | lua51 | lua52 | lua53 | lua54 | jit
deriving DecidableEq, Repr, Inhabited

namespace Version

def label : Version → String
  | .lua51 => "5.1"
  | .lua52 => "5.2"
  | .lua53 => "5.3"
  | .lua54 => "5.4"
  | .jit => "JIT"

def ofLabel? (label : String) : Option Version :=
  [lua51, lua52, lua53, lua54, jit].find? fun v => v.label == label

def ofDocText? : String → Option Version
  | "jit" | "LuaJIT" => some .jit
  | word => ofLabel? word

/-- The age of the language; the just-in-time compiler follows 5.1. -/
def rank : Version → Nat
  | .lua51 | .jit => 51
  | .lua52 => 52
  | .lua53 => 53
  | .lua54 => 54

def isNewerThan (v w : Version) : Bool := w.rank < v.rank

def isOlderThan (v w : Version) : Bool := v.rank < w.rank

end Version

end LuaAnalysis.Settings
