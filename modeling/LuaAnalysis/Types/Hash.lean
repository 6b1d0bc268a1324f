import LuaAnalysis.Types.Union

/-!
What types, keys and owners write to a hasher, and lists without repetitions by way of hashes. A
value of one of several forms writes the number of its form first, and a list writes its length
first.
-/

namespace LuaAnalysis.Types

/-- What is written to a hasher at once. -/
inductive HashWord where
  | form (index : Nat)
  | flag (value : Bool)
  | length (value : Nat)
  | number (value : Int)
  | text (value : String)
  | hash (value : UInt64)
deriving DecidableEq, Repr

def MemberKey.hashWords : MemberKey → List HashWord
  | .name n => [.form 0, .text n]
  | .integer index => [.form 1, .number index]

def MemberOwner.hashWords : MemberOwner → List HashWord
  | .type name => [.form 0, .text name]
  | .global path => [.form 1, .text path]
  | .local decl path => [.form 2, .number decl.doc, .number decl.position, .text path]
  | .element node => [.form 3, .number node.doc, .number node.element]

namespace Ty

variable (hash : List HashWord → UInt64)

mutual

/-- What a type writes, where `hash` is the hasher of the members of unions. -/
def hashWords (t : Ty) : List HashWord :=
  match t with
  | .unknown => [.form 0]
  | .any => [.form 1]
  | .never => [.form 2]
  | .nil => [.form 3]
  | .boolean => [.form 4]
  | .integer => [.form 5]
  | .number => [.form 6]
  | .string => [.form 7]
  | .table => [.form 8]
  | .function => [.form 9]
  | .thread => [.form 10]
  | .userdata => [.form 11]
  | .self => [.form 12]
  | .boolConst value => [.form 13, .flag value]
  | .intConst value => [.form 14, .number value]
  | .strConst value => [.form 15, .text value]
  | .ref name => [.form 16, .text name]
  | .tpl name => [.form 17, .text name]
  | .array item => .form 18 :: hashWords item
  | .tuple items => .form 19 :: .length items.length :: hashWordsList items
  | .object fields access =>
    .form 20 :: .length fields.length ::
      (hashWordsFields fields ++ .length access.length :: hashWordsAccess access)
  | .union members => [.form 21, .length members.length, .hash (hashSum members)]
  | .generic base params => .form 22 :: .text base :: .length params.length :: hashWordsList params
  | .func isAsync isColon params ret =>
    .form 23 :: .flag isAsync :: .flag isColon :: .length params.length ::
      (hashWordsParams params ++ hashWords ret)
  | .signature closure => [.form 24, .number closure.doc, .number closure.element]
  | .multi items => .form 25 :: .form 0 :: .length items.length :: hashWordsList items
  | .variadic item => .form 25 :: .form 1 :: hashWords item
  | .tableConst owner => .form 26 :: owner.hashWords
termination_by structural t

def hashWordsList (ts : List Ty) : List HashWord :=
  match ts with
  | [] => []
  | t :: ts => hashWords t ++ hashWordsList ts
termination_by structural ts

def hashSum (ts : List Ty) : UInt64 :=
  match ts with
  | [] => 0
  | t :: ts => hash (hashWords t) + hashSum ts
termination_by structural ts

def hashWordsFields (fs : List (MemberKey × Ty)) : List HashWord :=
  match fs with
  | [] => []
  | (key, t) :: fs => key.hashWords ++ hashWords t ++ hashWordsFields fs
termination_by structural fs

def hashWordsAccess (as : List (Ty × Ty)) : List HashWord :=
  match as with
  | [] => []
  | (k, v) :: as => hashWords k ++ hashWords v ++ hashWordsAccess as
termination_by structural as

def hashWordsParams (ps : List (String × Option Ty)) : List HashWord :=
  match ps with
  | [] => []
  | (name, none) :: ps => .text name :: .form 0 :: hashWordsParams ps
  | (name, some t) :: ps => .text name :: .form 1 :: (hashWords t ++ hashWordsParams ps)
termination_by structural ps

end

/-- Drops every type that a table has of those before it. To look a type up, only those entries are
compared with it that the table meets on the way from its hash, among these all entries of the same
hash. -/
def dedupHashedFrom (meets : List Ty → UInt64 → UInt64 → Bool) (seen : List Ty) : List Ty → List Ty
  | [] => []
  | t :: ts =>
    if seen.any fun u =>
      meets seen (hash (hashWords hash t)) (hash (hashWords hash u)) && beq t u then
      dedupHashedFrom meets seen ts
    else t :: dedupHashedFrom meets (t :: seen) ts

end Ty

end LuaAnalysis.Types
