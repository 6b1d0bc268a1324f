import LuaAnalysis.Workspace.Project

/-!
The state of a search for types. A search remembers what it found, gives up below a depth, and stops
when it is cancelled.
-/

namespace LuaAnalysis.Inference

open Document LuaAnalysis.Types

inductive CacheEntry where
  /-- The search for this one is under way; to ask for it again is a cycle. -/
  | pending
  | done (type : Ty)
deriving Repr, Inhabited

structure SearchState where
  /-- What was found for expressions, the latest first. -/
  exprs : List (NodeRef × CacheEntry) := []
  /-- What was found for declarations, the latest first. -/
  decls : List (DeclId × CacheEntry) := []
  depth : Nat := 0
  /-- Aliases that are being expanded. -/
  expanding : List String := []
  /-- After how many more looks a cancellation shows, if there is one. -/
  polls : Option Nat := none
  /-- Whether a search ran out of fuel. -/
  exhausted : Bool := false
deriving Repr, Inhabited

namespace SearchState

def exprCached? (s : SearchState) (node : NodeRef) : Option CacheEntry :=
  (s.exprs.find? fun e => e.1 == node).map (·.2)

def declCached? (s : SearchState) (decl : DeclId) : Option CacheEntry :=
  (s.decls.find? fun e => e.1 == decl).map (·.2)

def keepExpr (node : NodeRef) (entry : CacheEntry) (s : SearchState) : SearchState :=
  { s with exprs := (node, entry) :: s.exprs }

def keepDecl (decl : DeclId) (entry : CacheEntry) (s : SearchState) : SearchState :=
  { s with decls := (decl, entry) :: s.decls }

end SearchState

abbrev Search := StateM SearchState

def maxDepth : Nat := 64

namespace Search

/-- Looks whether the search was cancelled. Once seen, a cancellation stays. -/
def isCancelled : Search Bool := do
  match (← get).polls with
  | none => return false
  | some 0 => return true
  | some (n + 1) =>
    modify fun s => { s with polls := some n }
    return false

/-- Runs a search one level deeper. Below the greatest depth, or when cancelled, the answer is
`fallback`. -/
def guarded {α : Type} (fallback : α) (search : Search α) : Search α := do
  if maxDepth ≤ (← get).depth then return fallback
  if ← isCancelled then return fallback
  modify fun s => { s with depth := s.depth + 1 }
  let result ← search
  modify fun s => { s with depth := s.depth - 1 }
  return result

def outOfFuel {α : Type} (fallback : α) : Search α := do
  modify fun s => { s with exhausted := true }
  return fallback

/-- The answer that a cache holds, or else that of a search whose result is kept. A search that asks
for itself gets `unknown`. -/
def answer (keep : CacheEntry → SearchState → SearchState) (search : Search Ty) :
    Option CacheEntry → Search Ty
  | some (.done type) => return type
  | some .pending => return .unknown
  | none => do
    modify (keep .pending)
    let type ← guarded .unknown search
    modify (keep (.done type))
    return type

def cached (lookup : SearchState → Option CacheEntry)
    (keep : CacheEntry → SearchState → SearchState) (search : Search Ty) : Search Ty :=
  do answer keep search (lookup (← get))

def cachedExpr (node : NodeRef) (search : Search Ty) : Search Ty :=
  cached (·.exprCached? node) (.keepExpr node) search

def cachedDecl (decl : DeclId) (search : Search Ty) : Search Ty :=
  cached (·.declCached? decl) (.keepDecl decl) search

end Search

end LuaAnalysis.Inference
