import LuaAnalysis.Inference.Engine

/-!
Members of types. A class has its own members, those of global tables that are declared to be it,
and then those of the classes that it extends.
-/

namespace LuaAnalysis.Inference

open Document LuaAnalysis.Types Scope Syntax Workspace

variable (p : Project) (e : Engine)

def memberType (m : Member) (s : Substitution) (receiver : Ty) : Search Ty :=
  match m.type?, m.value? with
  | some declared, _ => return declared.instantiate { s with self? := some receiver }
  | none, some value => return (← inferElement p e value).firstValue
  | none, none => return .unknown

def collectClass (name : String) (s : Substitution) (sources : MemberSources) :
    Search MemberSources :=
  if sources.visited.contains name then return sources
  else
    let owners := MemberOwner.type name :: p.index.classGlobals name
    let supers := (p.index.supers name).map (·.instantiate s)
    let sources := { sources with
      visited := name :: sources.visited
      owners := sources.owners ++ owners.map (·, s) }
    supers.foldlM (fun sources super => e.collectSources super s sources) sources

def collectSources (t : Ty) (s : Substitution) (sources : MemberSources) : Search MemberSources :=
  match t with
  | .ref name => do
    if p.isAliasName name then
      match ← resolveAlias p t with
      | .ref _ | .unknown => return sources
      | resolved => e.collectSources resolved s sources
    else collectClass p e name s sources
  | .generic base params =>
    match p.index.typeDecl? base with
    | none => return sources
    | some decl => do
      if decl.isAlias then
        match ← resolveAlias p t with
        | .generic _ _ | .unknown => return sources
        | resolved => e.collectSources resolved s sources
      else collectClass p e base (.ofParams decl.genericNames
        (params.map (·.instantiate s))) sources
  | .tableConst owner => return { sources with owners := sources.owners ++ [(owner, s)] }
  | .string | .strConst _ =>
    let owner := MemberOwner.global "string"
    if sources.owners.any fun o => o.1 == owner then return sources
    else return { sources with owners := sources.owners ++ [(owner, {})] }
  | .object fields _ =>
    return { sources with fields := sources.fields ++ fields.map fun (key, type) =>
      (key, type.instantiate s) }
  | .union members =>
    (members.filter fun m => !m.isNil).foldlM
      (fun sources m => e.collectSources m s sources) sources
  | _ => return sources

def memberSources (t : Ty) : Search MemberSources := collectSources p e t {} {}

def addMembers (receiver : Ty) (found : List MemberInfo) (source : MemberOwner × Substitution) :
    Search (List MemberInfo) :=
  (p.index.members source.1).foldlM (fun found m => do
    if found.any fun info => info.key == m.key then return found
    match p.index.member? source.1 m.key with
    | none => return found
    | some m =>
      let type ← memberType p e m source.2 receiver
      return found ++ [⟨m.key, type, some m⟩]) found

def findMembers (t : Ty) : Search (List MemberInfo) := do
  let sources ← memberSources p e t
  let found ← sources.owners.foldlM (addMembers p e t) []
  return sources.fields.foldl (fun found (key, type) =>
    if found.any fun info => info.key == key then found else found ++ [⟨key, type, none⟩]) found

def findOwnMember (t : Ty) (key : MemberKey) : Search (Option MemberInfo) := do
  let sources ← memberSources p e t
  match sources.owners.findSome? fun (owner, s) => (p.index.member? owner key).map (·, s) with
  | some (m, s) => return some ⟨key, ← memberType p e m s t, some m⟩
  | none =>
    return (sources.fields.find? fun f => f.1 == key).map fun (key, type) => ⟨key, type, none⟩

/-- The member under a key. Of a union, all alternatives but `nil` that have it add to its type. -/
def findMember (t : Ty) (key : MemberKey) : Search (Option MemberInfo) :=
  match t with
  | .union members => do
    let infos ← (members.filter fun m => !m.isNil).filterMapM fun m => e.findMember m key
    if infos.isEmpty then return none
    return some ⟨key, .unionOf (infos.map (·.type)), infos.findSome? (·.member?)⟩
  | t => findOwnMember p e t key

end LuaAnalysis.Inference
