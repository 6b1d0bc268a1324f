import LuaAnalysis.Inference.Query
import LuaAnalysis.Report.Code

/-!
Findings about values: arguments of calls, returned values and assignments, held against declared
types.
-/

namespace LuaAnalysis.Report

open Document LuaAnalysis.Types Scope Syntax Workspace Inference

/-- Whether the last statement of a block ends the function, on every path. A call to `error` does
not come back. At most `fuel` levels are looked at. -/
def endsDeep (t : Tree) : Nat → ElementId → Bool
  | 0, _ => false
  | fuel + 1, block =>
    let innerEnds (node : ElementId) : Bool :=
      ((t.child? node .block).map (endsDeep t fuel)).getD false
    match ((t.childNodes block).filter fun n => (t.kind n).isStat && t.kind n !=
      .emptyStat).getLast? with
        | none => false
        | some last =>
          match t.kind last with
          | .returnStat => true
          | .doStat | .repeatStat => innerEnds last
          | .ifStat =>
            match t.child? last .elseClause with
            | none => false
            | some otherwise =>
              (last :: t.childrenOf last .elseIfClause ++ [otherwise]).all innerEnds
          | .callExprStat =>
            match (t.child? last .callExpr).bind fun call => (t.exprs call).head? with
            | some callee => t.kind callee == .nameExpr && t.nameText? callee == some "error"
            | none => false
          | _ => false

def blockAlwaysReturns (t : Tree) (block : ElementId) : Bool := endsDeep t t.size block

def returnStats (t : Tree) (body : ElementId) : List ElementId :=
  (bodyReturns t body).mergeSort fun a b => (t.span a).start ≤ (t.span b).start

variable (p : Project) (doc : DocId) (t : Tree)

def argumentFindings (found : CallMatch) (args : List ElementId) : Search (List Diagnostic) :=
  (args.zip found.params).filterMapM fun (arg, name, expected?) => do
    match expected? with
    | none => return none
    | some expected =>
      let actual ← inferFirst (fullEngine p) doc arg
      if ← isSubtype p (fullEngine p) actual expected then return none
      let expectedText ← showType p expected
      let actualText ← showType p actual
      return some (.of .paramTypeNotMatch (t.span arg)
        ("argument `" ++ name ++ "` expects `" ++ expectedText ++ "`, found `" ++
          actualText ++ "`"))

def redundantFindings (f : FuncType) (args : List ElementId) : List Diagnostic :=
  if f.isVararg then []
  else (args.drop f.params.length).map fun arg =>
    .of .redundantParameter (t.span arg) "redundant argument"

/-- Parameters that no argument fills. A call or `...` in the last place may give any number of
values. -/
def missingFindings (f : FuncType) (args : List ElementId) (call : ElementId) : List Diagnostic :=
  let spreads :=
    (args.getLast?.map fun arg => t.kind arg == .callExpr || t.hasToken arg .dots).getD false
  let unfilled := if spreads then [] else (f.params.drop args.length).takeWhile fun param =>
    param.1 != "..."
  unfilled.filterMap fun (name, expected?) =>
    match expected? with
    | some expected =>
      if expected.isOptional then none
      else some (.of .missingParameter (t.span call) ("missing argument `" ++ name ++ "`"))
    | none => none

def inAsyncFunction (node : ElementId) : Bool :=
  match (t.ancestors node).find? fun a => t.kind a == .closureExpr with
  | some closure => ((p.index.signature? ⟨doc, closure⟩).map (·.isAsync)).getD false
  | none => false

def callFindings (call : ElementId) : Search (List Diagnostic) := do
  match ← resolveCall p (fullEngine p) doc call with
  | none => return []
  | some found =>
    let args := callArgs t call
    let arguments ← argumentFindings p doc t found args
    let signature? := found.closure?.bind p.index.signature?
    let isStatement := ((t.parent? call).map fun n => t.kind n == .callExprStat).getD false
    let discarded := if ((signature?.map (·.nodiscard)).getD false) && isStatement then
        [Diagnostic.of .discardReturns
          (t.span call) "the return values of this call should be used"]
      else []
    let isAsync := found.func.isAsync || (signature?.map (·.isAsync)).getD false
    let await := if isAsync && !inAsyncFunction p doc t call then
        [Diagnostic.of .awaitInSync
          (t.span call) "async function called from a synchronous function"]
      else []
    return arguments ++ redundantFindings t found.func args ++
      missingFindings t found.func args call ++ discarded ++ await

/-- The value at an index of a list in which the last type may stand for any number of values. -/
def returnedAt (actual : List Ty) (index : Nat) : Ty :=
  match actual[index]?, actual.getLast? with
  | some found, _ => found.firstValue
  | none, some last => if last.isMulti then (last.valueAt? 0).getD .nil else .nil
  | none, none => .nil

def returnStatFindings (stat : ElementId) (expected : List Ty) : Search (List Diagnostic) := do
  let exprs := t.exprs stat
  let actual ← exprListTypes (fullEngine p) doc exprs
  expected.zipIdx.filterMapM fun (expected, i) => do
    let found := returnedAt actual i
    if ← isSubtype p (fullEngine p) found expected then return none
    let expectedText ← showType p expected
    let foundText ← showType p found
    return some (.of .returnTypeMismatch ((exprs[i]?.map t.span).getD (t.span stat))
      ("return value " ++ toString (i + 1) ++ " expects `" ++ expectedText ++ "`, found `" ++
        foundText ++ "`"))

def returnFindings (closure : ElementId) : Search (List Diagnostic) :=
  match p.index.signature? ⟨doc, closure⟩, t.child? closure .block with
  | some s, some body => do
    if !s.hasReturnDocs then return []
    let expected := s.returnDocs.map (·.type)
    let mismatches ← (returnStats t body).mapM fun stat => returnStatFindings p doc t stat expected
    let missing := if (expected.any fun type => !type.isOptional) && !blockAlwaysReturns t body then
        let span := ((t.childToken? closure .kwEnd).map t.span).getD (t.span closure)
        [Diagnostic.of .missingReturn span "missing return value"]
      else []
    return mismatches.flatten ++ missing
  | _, _ => return []

def assignedFinding (declared : Ty) (types : List Ty) (values : List ElementId) (index : Nat) :
    Search (Option Diagnostic) :=
  match types[index]?, values[index]? <|> values.getLast? with
  | some actual, some value => do
    let actual := actual.firstValue
    if ← isSubtype p (fullEngine p) actual declared then return none
    let actualText ← showType p actual
    let declaredText ← showType p declared
    return some (.of .typeNotMatch (t.span value)
      ("cannot assign `" ++ actualText ++ "` to `" ++ declaredText ++ "`"))
  | _, _ => return none

def localFindings (stat : ElementId) : Search (List Diagnostic) :=
  match p.index.declTree? doc with
  | none => return []
  | some decls => do
    let values := assignedValues t stat
    let types ← exprListTypes (fullEngine p) doc values
    (t.childrenOf stat .localName).zipIdx.filterMapM fun (name, i) => do
      let declared? := do
        let token ← t.childToken? name .name
        (← decls.declAt? (t.span token).start).type?
      match declared? with
      | some declared => assignedFinding p t declared types values i
      | none => return none

def targetType (target : ElementId) : Search (Option Ty) :=
  match t.kind target with
  | .nameExpr =>
    return do
      let token ← t.childToken? target .name
      (← p.resolveName? doc (t.textOf token) (t.span token).start).type?
  | .indexExpr =>
    match MemberKey.ofIndexExpr? t target, (t.exprs target).head? with
    | some (key, _), some front => do
      let source ← inferFirst (fullEngine p) doc front
      let info? ← findMember p (fullEngine p) source key
      return info?.bind fun info => info.member?.bind fun m => m.type?.map fun _ => info.type
    | _, _ => return none
  | _ => return none

def assignFindings (stat : ElementId) : Search (List Diagnostic) := do
  let values := assignedValues t stat
  let types ← exprListTypes (fullEngine p) doc values
  (assignTargets t stat).zipIdx.filterMapM fun (target, i) => do
    match ← targetType p doc t target with
    | some declared => assignedFinding p t declared types values i
    | none => return none

def flowFindings (node : ElementId) : Search (List Diagnostic) :=
  match t.kind node with
  | .callExpr => callFindings p doc t node
  | .closureExpr => returnFindings p doc t node
  | .localStat => localFindings p doc t node
  | .assignStat => assignFindings p doc t node
  | _ => return []

def flowPassOver : List ElementId → Search (List Diagnostic)
  | [] => return []
  | node :: rest => do
    if ← Search.isCancelled then return []
    let found ← flowFindings p doc t node
    return found ++ (← flowPassOver rest)

def flowPass : Search (List Diagnostic) := flowPassOver p doc t (t.descendants Tree.root)

end LuaAnalysis.Report
