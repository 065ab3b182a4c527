import Sky.Library.Saturation
import Sky.Model.Partition.Hir

/-! # The split analysis: references, the taint graph, and the verdict of each arm -/

namespace Sky.Partition

/-! ## References -/

structure Refs where
  serverKernels : List (Name × Name × KernelClass) := []
  clientKernels : List (Name × Name) := []
  callees : List DefId := []
  foreign : Bool := false
  inlineForce : Bool := false
  scopedUpdates : List Name := []
  genericUpdate : Bool := false
  deriving DecidableEq

structure CollectCtx where
  db : Option SkyDb := none
  updateDef : Option DefId := none
  clientCrypto : Bool := false
  skip : Option (List ExprId) := none

/-- Why a verdict is what it is. -/
inductive Reason where
  | kernel (inlineEffect : Bool) (module func : Name)
  | foreign
  | callee (d : DefId)
  | genericUpdate
  | unresolvable
  | noBody
  | composes (msg : Name) (origin : Option Reason)
  | composesUnresolved (msg : Name)
  | composesServer
  | clientEffect (module func : Name)
  | pure

namespace Refs

variable (acc : Refs)

def directServerReason : Option Reason :=
  match acc.serverKernels with
  | (module, func, _) :: _ => some (.kernel acc.inlineForce module func)
  | [] => if acc.foreign then some .foreign else none

def clientEffectNote : Option Reason :=
  acc.clientKernels.head?.map fun (module, func) => .clientEffect module func

/-- Record a reference to a classified kernel. -/
def recordClass (module func : Name) : KernelClass → Refs
  | .neutral => acc
  | .clientEffect => { acc with clientKernels := acc.clientKernels ++ [(module, func)] }
  | .serverOnly => { acc with serverKernels := acc.serverKernels ++ [(module, func, .serverOnly)] }

end Refs

/-- The runtime symbol's family decides the side. -/
def recordFfiSymbol (sym : String) (acc : Refs) (clientCrypto : Bool) : Refs :=
  let acc := if sym = "Task_run" then { acc with inlineForce := true } else acc
  let (family, rest) := ffiSymbol sym
  acc.recordClass family rest (classifyKernelIn clientCrypto family rest)

def recordRes (res : Res) (acc : Refs) (ctx : CollectCtx) : Refs :=
  match res with
  | .kernel module func =>
      acc.recordClass (lastSegment module) func
        (classifyKernelIn ctx.clientCrypto (lastSegment module) func)
  | .ofDef d => { acc with callees := acc.callees.insert d }
  | .foreign _ _ => { acc with foreign := true }
  | .ofLocal _ | .ctor _ | .error => acc

/-- The name of the constructor an expression builds a message with. -/
def literalCtorName (body : Body) (db : SkyDb) (e : ExprId) : Option Name :=
  match body.expr e with
  | .var (.ctor d) => (db.defLoc d).map (·.name)
  | .call callee _ =>
      match body.expr callee with
      | .var (.ctor d) => (db.defLoc d).map (·.name)
      | _ => none
  | _ => none

/-- The scoped or generic use of `update` that a call makes. -/
def recordUpdate (body : Body) (db : SkyDb) (args : List ExprId) (acc : Refs) : Refs :=
  match args.head?.bind (literalCtorName body db) with
  | some name => { acc with scopedUpdates := acc.scopedUpdates ++ [name] }
  | none => { acc with genericUpdate := true }

/-- What the callee of a call adds: a forced task, a runtime symbol. -/
def recordCallee (body : Body) (ctx : CollectCtx) (callee : ExprId) (args : List ExprId)
    (acc : Refs) : Refs :=
  match body.expr callee with
  | .var (.kernel module func) =>
      let m := lastSegment module
      let acc := if m = "Task" ∧ func = "run" then { acc with inlineForce := true } else acc
      if m = "Ffi" ∧ func ∈ ffiPlumbing then
        match args.head?.map body.expr with
        | some (.str sym) => recordFfiSymbol sym acc ctx.clientCrypto
        | _ => acc
      else acc
  | _ => acc

/-- One level of `collect`: `go` walks the expressions below. -/
def collectExpr (body : Body) (ctx : CollectCtx) (go : ExprId → Refs → Refs) (x : Expr)
    (acc : Refs) : Refs :=
  match x with
  | .int _ | .float _ | .str _ | .chr _ | .bool _ | .unit | .accessor _ | .error => acc
  | .list xs | .tuple xs => xs.foldl (fun acc x => go x acc) acc
  | .record fields => fields.foldl (fun acc f => go f.2 acc) acc
  | .update base fields => fields.foldl (fun acc f => go f.2 acc) (go base acc)
  | .var res =>
      match ctx.updateDef, res with
      | some update, .ofDef d =>
          if d = update then { acc with genericUpdate := true } else recordRes res acc ctx
      | _, _ => recordRes res acc ctx
  | .negate x => go x acc
  | .lambda _ b => go b acc
  | .call callee args =>
      match ctx.updateDef, ctx.db with
      | some update, some db =>
          if body.expr callee = .var (.ofDef update) then
            args.foldl (fun acc a => go a acc) (recordUpdate body db args acc)
          else
            args.foldl (fun acc a => go a acc)
              (go callee (recordCallee body ctx callee args acc))
      | _, _ =>
          args.foldl (fun acc a => go a acc) (go callee (recordCallee body ctx callee args acc))
  | .binop _ res lhs rhs => go rhs (go lhs (recordRes res acc ctx))
  | .ifElse arms els => go els (arms.foldl (fun acc a => go a.2 (go a.1 acc)) acc)
  | .letIn defs b => go b (defs.foldl (fun acc d => collectLocaldef go d acc) acc)
  | .caseOf subject branches => branches.foldl (fun acc br => go br.body acc) (go subject acc)
  | .access x _ => go x acc
where
  /-- `let _ = e` forces `e`. -/
  collectLocaldef (go : ExprId → Refs → Refs) (d : LocalDef) (acc : Refs) : Refs :=
    go d.body
      (if d.binders.isEmpty && d.pat.isNone then { acc with inlineForce := true } else acc)

/-- Walk the expressions below `fuel`. -/
def collectBelow (body : Body) (ctx : CollectCtx) : ℕ → ExprId → Refs → Refs
  | 0, _, acc => acc
  | fuel + 1, e, acc =>
      if ctx.skip.any (·.contains e) then acc
      else collectExpr body ctx (collectBelow body ctx fuel) (body.expr e) acc

/-- Walk one subtree, adding its references to `acc`. -/
def collect (body : Body) (e : ExprId) (acc : Refs) (ctx : CollectCtx) : Refs :=
  collectBelow body ctx (e + 1) e acc

/-! ## The taint graph -/

structure DefNode where
  direct : Option Reason
  callees : List DefId

structure Graph where
  nodes : List (DefId × DefNode)
  server : List DefId
  clientCrypto : Bool

/-- The references of a body under the conservative context. -/
def bodyRefs (clientCrypto : Bool) (body : Body) : Refs :=
  match body.root with
  | some root => collect body root {} { clientCrypto := clientCrypto }
  | none => {}

/-- A definition's node: opaque where it has no location or no body, a leaf in `Std.Spa`. -/
def defNode (db : SkyDb) (clientCrypto : Bool) (d : DefId) : DefNode :=
  match db.defLoc d with
  | none => ⟨some .unresolvable, []⟩
  | some loc =>
      if db.moduleName loc.module = "Std.Spa" then ⟨none, []⟩
      else match (db.bodies loc.module).lookup d with
        | none => ⟨some .noBody, []⟩
        | some body =>
            ⟨(bodyRefs clientCrypto body).directServerReason,
              (bodyRefs clientCrypto body).callees⟩

/-- The definitions of the checked modules. -/
def seeds (db : SkyDb) (checkIds : List ModuleId) : List DefId :=
  checkIds.flatMap fun m => (db.bodies m).map (·.1)

/-- Every definition a body of the program has or refers to. -/
def mentioned (db : SkyDb) (clientCrypto : Bool) : List DefId :=
  db.modules.flatMap fun m =>
    m.bodies.flatMap fun (d, body) => d :: (bodyRefs clientCrypto body).callees

def buildGraph (db : SkyDb) (checkIds : List ModuleId) (clientCrypto : Bool) : Graph :=
  let node := defNode db clientCrypto
  let defs := Saturation.search (fun d => (node d).callees) (mentioned db clientCrypto).length
    (seeds db checkIds)
  { nodes := defs.map fun d => (d, node d)
    server := Saturation.saturate (fun server d => (node d).callees.any (· ∈ server)) defs
      defs.length (defs.filter fun d => (node d).direct.isSome)
    clientCrypto := clientCrypto }

/-! ## The verdict of each arm -/

structure BranchVerdict where
  server : Bool
  reason : Reason

/-- One arm's collected facts. -/
structure ArmFacts where
  key : Option Name
  refs : Refs

/-- The constructor at the head of an arm's pattern. -/
def armCtorKey (body : Body) (p : PatId) : Option Name :=
  match body.pattern p with
  | .ctor name _ => some name
  | _ => none

/-- The reason an arm is on the server whatever it composes. -/
def armDirectReason (acc : Refs) (graph : Graph) : Option Reason :=
  match acc.directServerReason with
  | some reason => some reason
  | none =>
      match (acc.callees.filter (· ∈ graph.server)).min? with
      | some c => some (.callee c)
      | none => if acc.genericUpdate then some .genericUpdate else none

/-- Follow the `let`s above the `case`, adding their references to `shared`. -/
def findTopCaseBelow (body : Body) (ctx : CollectCtx) :
    ℕ → ExprId → Refs → Option ExprId × Refs
  | 0, _, shared => (none, shared)
  | fuel + 1, e, shared =>
      match body.expr e with
      | .caseOf _ _ => (some e, shared)
      | .letIn defs b =>
          findTopCaseBelow body ctx fuel b (defs.foldl (fun shared d =>
            collectExpr.collectLocaldef (fun x acc => collect body x acc ctx) d shared) shared)
      | _ => (none, shared)

def findTopCase (body : Body) (e : ExprId) (shared : Refs) (ctx : CollectCtx) :
    Option ExprId × Refs :=
  findTopCaseBelow body ctx (e + 1) e shared

section Arms

variable (facts : List ArmFacts)

/-- The arm a constructor's name stands for: the first with that head. -/
def byName (name : Name) : Option ℕ := facts.findIdx? fun f => f.key = some name

/-- An arm composes an arm that is marked, or a name that has no arm. -/
def forcedArm (server : List ℕ) (i : ℕ) : Bool :=
  (facts[i]?.map (·.refs.scopedUpdates)).any fun names =>
    names.any fun name =>
      match byName facts name with
      | some j => j ∈ server
      | none => true

def composeReason (server : List ℕ) (direct : ℕ → Option Reason) : List Name → Reason
  | [] => .composesServer
  | name :: names =>
      match byName facts name with
      | some j =>
          if j ∈ server then .composes name (direct j) else composeReason server direct names
      | none => .composesUnresolved name

end Arms

def armFacts (body : Body) (arms : List CaseBranch) (shared : Refs) (ctx : CollectCtx) :
    List ArmFacts :=
  arms.map fun arm => ⟨armCtorKey body arm.pat, collect body arm.body shared ctx⟩

/-- The arms on the server: direct ones, and those that compose one. -/
def serverArms (facts : List ArmFacts) (graph : Graph) : List ℕ :=
  let n := facts.length
  let direct i := facts[i]?.bind fun f => armDirectReason f.refs graph
  Saturation.saturate (forcedArm facts) (List.range n) n
    ((List.range n).filter fun i => (direct i).isSome)

def classifyCaseArms (graph : Graph) (body : Body) (arms : List CaseBranch) (shared : Refs)
    (ctx : CollectCtx) : List BranchVerdict :=
  let facts := armFacts body arms shared ctx
  let direct i := facts[i]?.bind fun f => armDirectReason f.refs graph
  let server := serverArms facts graph
  facts.zipIdx.map fun (f, i) =>
    match direct i with
    | some reason => ⟨true, reason⟩
    | none =>
        if i ∈ server then ⟨true, composeReason facts server direct f.refs.scopedUpdates⟩
        else ⟨false, f.refs.clientEffectNote.getD .pure⟩

/-- The `case` that `update` branches on, with the references of the `let`s above it. -/
def updateCase (body : Body) (clientCrypto : Bool) : Option (List CaseBranch × Refs) :=
  body.root.bind fun root =>
    let (found, shared) := findTopCase body root {} { clientCrypto := clientCrypto }
    found.bind fun e =>
      match body.expr e with
      | .caseOf _ arms => some (arms, shared)
      | _ => none

/-- The verdicts of `update`'s arms; none where it has no `case` at the top. -/
def classifyUpdateBody (db : SkyDb) (graph : Graph) (update : DefId) (body : Body) :
    List BranchVerdict :=
  match updateCase body graph.clientCrypto with
  | some (arms, shared) =>
      classifyCaseArms graph body arms shared
        { db := some db, updateDef := some update, clientCrypto := graph.clientCrypto }
  | none => []

end Sky.Partition
