import Mathlib

/-! # The kernel families of the Sky.Spa split, resolved bodies and the database that holds them -/

namespace Sky.Partition

/-! ## Kernel families -/

abbrev Name := String

/-- The side a kernel runs on. -/
inductive KernelClass where
  | serverOnly
  | clientEffect
  | neutral
  deriving DecidableEq

/-- Families that run on the server. -/
def effectKernels : List Name :=
  ["Db", "Auth", "File", "Server", "Process", "Io", "System", "RateLimit", "Middleware", "Http",
   "Random", "Uuid", "Log", "Live", "Jobs", "Cli", "Tui", "Webview", "Context", "Image", "Kdf",
   "Noise", "Cpace", "Subprocess", "Watch", "Schema", "Analytics", "Cache", "Email", "PubSub",
   "HttpStream", "ServerStream", "ServerWebSocket", "Trace", "Sync", "Ai", "Xml", "Zip", "Office"]

/-- Families that are pure. -/
def knownPureKernels : List Name :=
  ["Basics", "Debug", "Error", "String", "List", "Dict", "Array", "Set", "Maybe", "Result",
   "Task", "Math", "Regex", "Encoding", "Char", "Path", "Cmd", "Sub", "JsonEnc", "JsonDec",
   "JsonDecP", "Fmt", "Ffi", "Codec", "Qr", "Bytes", "Decimal", "Compression", "DbDec", "Spa",
   "htmlRender", "htmlEscapeText", "htmlEscapeAttr", "htmlAttrToString"]

/-- Families classified per function: the members that are safe on the client. -/
def mixedKernels : List (Name × List Name) :=
  [("Crypto",
     ["sha256", "sha512", "sha1", "md5", "constantTimeEqual", "rsaSha256Verify"]),
   ("Sign",
     ["verify", "publicKeyFromBytes", "publicKeyToBytes"]),
   ("Kx",
     ["publicKeyFromBytes", "publicKeyToBytes"]),
   ("Secret",
     ["fromString", "reveal"]),
   ("Time",
     ["timeString", "format", "formatHTTP", "formatISO8601", "formatRFC3339", "parse",
      "parseISO8601", "addMillis", "diffMillis", "addDays", "addHours", "addMinutes",
      "addMonths", "addSeconds", "addYears", "day", "dayOfWeek", "dayOfYear", "daysInMonth",
      "diffDays", "diffHours", "diffMinutes", "diffSeconds", "endOfDay", "endOfMonth",
      "endOfYear", "inZone", "isLeapYear", "isWeekend", "month", "startOfDay", "startOfMonth",
      "startOfWeek", "startOfYear", "weekOfYear", "year", "zoneName", "zoneOffset"]),
   ("Csv",
     ["parse", "parseWithDelimiter", "encode", "encodeWithDelimiter"]),
   ("Money",
     ["allocate", "currencyName", "format", "formatWithCode", "minorUnits", "symbol"]),
   ("Config",
     ["andThen", "at", "bool", "decodeJson", "decodeToml", "decodeYaml", "fail", "field",
      "float", "int", "list", "map", "nullable", "string", "succeed"]),
   ("Table",
     ["codec", "enum", "index", "primaryKey", "table", "unique"]),
   ("Std",
     ["App_asElement", "App_htmlDocOrDefault"])]

/-- Members that the client-crypto opt-in moves to the client. -/
def clientCryptoMembers : List (Name × List Name) :=
  [("Noise",
     ["initiator", "responder", "initiatorSuite", "responderSuite", "writeMessage",
      "readMessage", "isComplete", "peer", "transport", "transportPeer", "handshakeHash",
      "encrypt", "decrypt", "rekeySend", "rekeyReceive"]),
   ("Cpace",
     ["start", "respond", "finish", "messageData"]),
   ("Kx",
     ["generate", "publicKey", "sharedSecret", "secretKeyFromBytes", "secretKeyToBytes",
      "secretKeyFromBase64", "secretKeyToBase64"]),
   ("Sign",
     ["generate", "sign", "publicKey", "secretKeyFromBytes", "secretKeyToBytes",
      "secretKeyFromBase64", "secretKeyToBase64"]),
   ("Kdf",
     ["extract", "expand"])]

/-- Members that the client-crypto opt-in makes pure. -/
def clientCryptoPureMembers : List (Name × List Name) :=
  [("Crypto",
     ["hmacSha256", "hmacSha512", "chacha20Poly1305Seal", "chacha20Poly1305Open",
      "xchacha20Poly1305Seal", "xchacha20Poly1305Open", "xchachaSeal", "xchachaSealWith",
      "xchachaOpen", "xchachaOpenWith", "aesGcmEncrypt", "aesGcmDecrypt", "chacha20Encrypt",
      "chacha20Decrypt", "aesKeyFromPassword", "chachaKeyFromPassword", "rsaSha256Sign"])]

/-- Families that run in the client only. -/
def clientEffectKernels : List Name :=
  ["Native", "WebSocket", "Nav", "AiDevice"]

/-- Members of pure families that read the session store, its secret or the request. -/
def serverOnlyMembers : List (Name × Name) :=
  [("Spa", "sessionToken"),
   ("Spa", "sessionCookies"),
   ("Spa", "sessionBoot"),
   ("Spa", "setWireHash"),
   ("Spa", "isLegacyRpc"),
   ("Spa", "applyServerSettings"),
   ("Spa", "sessionCookieAttrs")]

def mixedClientSafe (module : Name) : Option (List Name) := mixedKernels.lookup module

def isMember (table : List (Name × List Name)) (module func : Name) : Bool :=
  table.any fun (m, fs) => m == module && fs.contains func

def isClientCryptoMember : Name → Name → Bool := isMember clientCryptoMembers

def isClientCryptoPureMember : Name → Name → Bool := isMember clientCryptoPureMembers

def classifyKernel (module func : Name) : KernelClass :=
  if serverOnlyMembers.contains (module, func) then .serverOnly
  else match mixedClientSafe module with
    | some clientSafe => if clientSafe.contains func then .neutral else .serverOnly
    | none =>
        if effectKernels.contains module then .serverOnly
        else if clientEffectKernels.contains module then .clientEffect
        else if knownPureKernels.contains module then .neutral
        else .serverOnly

/-- `classifyKernel` under the app's client-crypto opt-in. -/
def classifyKernelIn (clientCrypto : Bool) (module func : Name) : KernelClass :=
  if clientCrypto && isClientCryptoMember module func then .clientEffect
  else if clientCrypto && isClientCryptoPureMember module func then .neutral
  else classifyKernel module func

/-- The last segment of a dotted module name. -/
def lastSegment (module : Name) : Name :=
  String.ofList (module.toList.reverse.takeWhile (· ≠ '.')).reverse

/-- The family and the member a runtime symbol names. -/
def ffiSymbol (sym : String) : Name × Name :=
  let family := sym.toList.takeWhile (· ≠ '_')
  let rest := (sym.toList.dropWhile (· ≠ '_')).dropWhile (· = '_')
  (String.ofList family, if rest.isEmpty then sym else String.ofList rest)

/-- The `Ffi` members whose first argument is a runtime symbol. -/
def ffiPlumbing : List Name := ["kernel", "callPure", "call", "callTask"]

/-! ## Bodies and the database -/

abbrev ModuleId := ℕ
abbrev DefId := ℕ
abbrev LocalId := ℕ
abbrev ExprId := ℕ
abbrev PatId := ℕ

/-- What a name resolves to. -/
inductive Res where
  | ofLocal (l : LocalId)
  | ofDef (d : DefId)
  | kernel (module func : Name)
  | ctor (d : DefId)
  | foreign (package name : Name)
  | error
  deriving DecidableEq

structure LocalDef where
  binders : List (Name × LocalId)
  pat : Option PatId
  body : ExprId
  deriving DecidableEq

structure CaseBranch where
  pat : PatId
  body : ExprId
  deriving DecidableEq

inductive Expr where
  | int (n : ℤ)
  | float (literal : String)
  | str (s : String)
  | chr (s : String)
  | bool (b : Bool)
  | unit
  | list (xs : List ExprId)
  | tuple (xs : List ExprId)
  | record (fields : List (Name × ExprId))
  | update (base : ExprId) (fields : List (Name × ExprId))
  | var (res : Res)
  | negate (x : ExprId)
  | lambda (params : List PatId) (body : ExprId)
  | call (callee : ExprId) (args : List ExprId)
  | binop (op : Name) (res : Res) (lhs rhs : ExprId)
  | ifElse (arms : List (ExprId × ExprId)) (els : ExprId)
  | letIn (defs : List LocalDef) (body : ExprId)
  | caseOf (subject : ExprId) (branches : List CaseBranch)
  | accessor (field : Name)
  | access (x : ExprId) (field : Name)
  | error
  deriving DecidableEq

inductive Pattern where
  | anything
  | var (l : LocalId)
  | unit
  | bool (b : Bool)
  | chr (s : String)
  | str (s : String)
  | int (n : ℤ)
  | float (literal : String)
  | record (fields : List (Name × LocalId))
  | alias (p : PatId) (l : LocalId)
  | tuple (ps : List PatId)
  | list (ps : List PatId)
  | cons (head tail : PatId)
  | ctor (name : Name) (args : List PatId)
  | error
  deriving DecidableEq

/-- The expressions directly under an expression, in source order. -/
def Expr.children : Expr → List ExprId
  | .int _ | .float _ | .str _ | .chr _ | .bool _ | .unit | .var _ | .accessor _ | .error => []
  | .list xs | .tuple xs => xs
  | .record fields => fields.map (·.2)
  | .update base fields => base :: fields.map (·.2)
  | .negate x | .access x _ => [x]
  | .lambda _ body => [body]
  | .call callee args => callee :: args
  | .binop _ _ lhs rhs => [lhs, rhs]
  | .ifElse arms els => arms.flatMap (fun (c, t) => [c, t]) ++ [els]
  | .letIn defs body => defs.map (·.body) ++ [body]
  | .caseOf subject branches => subject :: branches.map (·.body)

/-- The reference an expression makes itself. -/
def Expr.res : Expr → Option Res
  | .var res | .binop _ res _ _ => some res
  | _ => none

/-- A body's arenas: an expression is allocated after the expressions under it. -/
structure Body where
  exprs : List Expr
  pats : List Pattern
  root : Option ExprId
  ordered : ∀ p ∈ exprs.zipIdx, ∀ c ∈ p.1.children, c < p.2

namespace Body

variable (body : Body)

def expr (e : ExprId) : Expr := body.exprs[e]?.getD .error

def pattern (p : PatId) : Pattern := body.pats[p]?.getD .error

theorem lt_of_mem_children {e c : ExprId} (h : c ∈ (body.expr e).children) : c < e := by
  unfold expr at h
  cases hget : body.exprs[e]? with
  | none =>
      rw [hget] at h
      exact absurd h List.not_mem_nil
  | some x =>
      rw [hget] at h
      exact body.ordered (x, e) (List.mem_zipIdx_iff_getElem?.mpr hget) c h

/-- The runtime symbol a call of an `Ffi` member names with a literal. -/
def symbolLiteral (x : Expr) : Option String :=
  match x with
  | .call callee (first :: _) =>
      match body.expr callee, body.expr first with
      | .var (.kernel module func), .str sym =>
          if lastSegment module = "Ffi" ∧ func ∈ ffiPlumbing then some sym else none
      | _, _ => none
  | _ => none

end Body

structure DefLoc where
  module : ModuleId
  name : Name
  deriving DecidableEq

structure Module where
  name : Name
  bodies : List (DefId × Body)

/-- The loaded modules and the table that locates definitions. -/
structure SkyDb where
  modules : List Module
  defs : List DefLoc

namespace SkyDb

variable (db : SkyDb)

def defLoc (d : DefId) : Option DefLoc := db.defs[d]?

def moduleName (m : ModuleId) : Name := (db.modules[m]?.map (·.name)).getD ""

/-- The bodies that resolving a module gives. -/
def bodies (m : ModuleId) : List (DefId × Body) := (db.modules[m]?.map (·.bodies)).getD []

end SkyDb

end Sky.Partition
