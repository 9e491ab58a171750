import Hyperplane.Lib.Shards
import Hyperplane.Rpc.RateLimiter
import Hyperplane.Types.Account

/-! The RPC server: the routes, the rate limit, and the two read methods with their
errors. The JSON and base58 libraries are parameters. -/
namespace Hyperplane
open Transition Maps

/-- The fields of an object stand in the order in which they are written: sorted in a
value that is built or parsed, as declared in a response. -/
inductive Json (N : Type) where
  | null
  | bool (value : Bool)
  | number (value : N)
  | string (value : String)
  | array (items : List (Json N))
  | object (fields : List (String × Json N))

namespace Json

variable {N : Type}

def asArray : Json N → Option (List (Json N))
  | .array items => some items
  | _ => none

def asStr : Json N → Option String
  | .string value => some value
  | _ => none

def field (name : String) : Json N → Option (Json N)
  | .object fields => fields.lookup name
  | _ => none

@[simp]
theorem field_cons (name key : String) (value : Json N) (rest : List (String × Json N)) :
    (object ((key, value) :: rest)).field name = if name == key then some value else (object rest).field name := by
  simp only [field, List.lookup_cons]
  cases name == key <;> rfl

@[simp]
theorem field_nil (name : String) : (object [] : Json N).field name = none := rfl

end Json

inductive RpcError where
  | methodNotFound (method : String)
  | invalidParams (reason : String)
  | internalError (reason : String)
  | rateLimited
  | parseError (reason : String)

namespace RpcError

def text : RpcError → String
  | .methodNotFound method => "Method not found: " ++ method
  | .invalidParams reason => "Invalid params: " ++ reason
  | .internalError reason => "Internal error: " ++ reason
  | .rateLimited => "Rate limited"
  | .parseError reason => "Parse error: " ++ reason

def code : RpcError → Int
  | .methodNotFound _ => -32601
  | .invalidParams _ => -32602
  | .internalError _ => -32603
  | .rateLimited => -32005
  | .parseError _ => -32700

def message : RpcError → String
  | .methodNotFound _ => "Method not found"
  | .invalidParams _ => "Invalid params"
  | .internalError _ => "Internal error"
  | .rateLimited => "Rate limited"
  | .parseError _ => "Parse error"

end RpcError

structure RpcRequest (N : Type) where
  jsonrpc : String
  method : String
  params : Json N
  id : Option (Json N)

/-- What serde_json and the parser of pubkeys do: a number in a JSON value, a body as a
request, a value as bytes, and the base58 text of a pubkey. -/
structure RpcLibraries (N : Type) where
  number : Int → N
  fromSlice : List UInt8 → Except String (RpcRequest N)
  toVec : Json N → Option (List UInt8)
  fromStr : String → Except String Pubkey

inductive HttpMethod where
  | get
  | post
  | other (name : String)
  deriving DecidableEq

/-- A request with the address of its peer. The body is missing where it cannot be read. -/
structure HttpRequest where
  method : HttpMethod
  path : String
  ip : String
  body : Option (List UInt8)

structure HttpResponse where
  status : Nat
  headers : List (String × String)
  body : List UInt8

structure RpcServerState where
  requestCount : UInt64
  rateLimiter : RateLimiter

def RpcServerState.new (rateLimitPerIp : Nat) : RpcServerState := ⟨0, .new rateLimitPerIp⟩

namespace RpcLibraries

variable {N : Type} (lib : RpcLibraries N)

/-- The bytes of a value; none where it cannot be serialized. -/
def toBytes (value : Json N) : List UInt8 := (lib.toVec value).getD []

def toJsonRpcError (error : RpcError) (id : Option (Json N)) : Json N :=
  .object [
    ("error", .object [("code", .number (lib.number error.code)), ("data", .string error.text),
      ("message", .string error.message)]),
    ("id", id.getD .null),
    ("jsonrpc", .string "2.0")]

def context : Json N :=
  .object [("apiVersion", .string "synapse-hyperplane/0.1.0"), ("slot", .number (lib.number 0))]

def handleGetAccountInfo (params : Json N) : Except RpcError (Json N) :=
  match params.asArray with
  | none => .error (.invalidParams "Expected array")
  | some [] => .error (.invalidParams "Missing pubkey")
  | some (pubkey :: _) =>
    match pubkey.asStr with
    | none => .error (.invalidParams "Pubkey must be string")
    | some text =>
      match lib.fromStr text with
      | .error e => .error (.invalidParams ("Invalid pubkey: " ++ e))
      | .ok _ => .ok (.object [("context", lib.context), ("value", .null)])

/-- The pubkeys up to the first that is none. -/
def parsePubkeys : List (Json N) → Except RpcError (List Pubkey)
  | [] => .ok []
  | value :: rest =>
    match value.asStr with
    | none => .error (.invalidParams "Pubkey must be string")
    | some text =>
      match lib.fromStr text with
      | .error e => .error (.invalidParams ("Invalid pubkey " ++ text ++ ": " ++ e))
      | .ok pubkey => (parsePubkeys rest).map (pubkey :: ·)

/-- The size is looked at after all pubkeys are parsed. -/
def handleGetMultipleAccounts (params : Json N) : Except RpcError (Json N) :=
  match params.asArray with
  | none => .error (.invalidParams "Expected array")
  | some [] => .error (.invalidParams "Missing pubkeys")
  | some (pubkeysValue :: _) =>
    match pubkeysValue.asArray with
    | none => .error (.invalidParams "Pubkeys must be array")
    | some pubkeysArr =>
      match lib.parsePubkeys pubkeysArr with
      | .error e => .error e
      | .ok pubkeys =>
        if pubkeys.length > 1000 then .error (.invalidParams "Batch size exceeds limit of 1000")
        else .ok (.object [("context", lib.context), ("value", .array (List.replicate pubkeys.length .null))])

def route (request : RpcRequest N) : Except RpcError (Json N) :=
  if request.method = "getAccountInfo" then lib.handleGetAccountInfo request.params
  else if request.method = "getMultipleAccounts" then lib.handleGetMultipleAccounts request.params
  else .error (.methodNotFound request.method)

def jsonResponse (body : List UInt8) (status : Nat) : HttpResponse :=
  ⟨status, [("Content-Type", "application/json"), ("Access-Control-Allow-Origin", "*")], body⟩

def rpcResponse (value : Json N) (id : Option (Json N)) : Json N :=
  .object [("jsonrpc", .string "2.0"), ("result", value), ("error", .null), ("id", id.getD .null)]

/-- The answer to a body. -/
def answer (body : List UInt8) : HttpResponse :=
  match lib.fromSlice body with
  | .error e => jsonResponse (lib.toBytes (lib.toJsonRpcError (.parseError e) none)) 400
  | .ok request =>
    match lib.route request with
    | .ok value => jsonResponse (lib.toBytes (rpcResponse value request.id)) 200
    | .error e => jsonResponse (lib.toBytes (lib.toJsonRpcError e request.id)) 200

def utf8 (text : String) : List UInt8 := text.toUTF8.data.toList

def handleHealth : HttpResponse :=
  ⟨200, [("Content-Type", "application/json")],
    lib.toBytes (.object [("status", .string "ok"), ("version", .string "synapse-hyperplane/0.1.0")])⟩

def handleMetrics (state : RpcServerState) : HttpResponse :=
  ⟨200, [("Content-Type", "text/plain; version=0.0.4")],
    utf8 ("# HELP synapse_requests_total Total RPC requests\n" ++
      "# TYPE synapse_requests_total counter\n" ++
      "synapse_requests_total " ++ toString state.requestCount.toNat ++ "\n")⟩

def refusal : HttpResponse :=
  jsonResponse (lib.toBytes (lib.toJsonRpcError .rateLimited none)) 429

/-- One request at a time of the clock. There is no response when the body of a request
that was let through cannot be read. -/
def handleRequest (now : Nat) (state : RpcServerState) (request : HttpRequest) :
    RpcServerState × Option HttpResponse :=
  match request.method with
  | .get =>
    if request.path = "/health" then (state, some lib.handleHealth)
    else if request.path = "/metrics" then (state, some (handleMetrics state))
    else (state, some ⟨404, [], utf8 "Not found"⟩)
  | .other _ => (state, some ⟨405, [], utf8 "Method not allowed"⟩)
  | .post =>
    let (rateLimiter, allowed) := state.rateLimiter.allow request.ip now
    let state := { state with rateLimiter }
    if allowed then (state, request.body.map lib.answer) else (state, some lib.refusal)

/-- The text of a pubkey. -/
def Names (value : Json N) (pubkey : Pubkey) : Prop := ∃ text, value = .string text ∧ lib.fromStr text = .ok pubkey

/-- What the methods ask of their parameters. More elements of the array are ignored. -/
def Accepts (request : RpcRequest N) : Prop :=
  (request.method = "getAccountInfo" ∧
    ∃ value rest, request.params = .array (value :: rest) ∧ ∃ pubkey, lib.Names value pubkey) ∨
  (request.method = "getMultipleAccounts" ∧
    ∃ values rest, request.params = .array (.array values :: rest) ∧ values.length ≤ 1000 ∧
      ∀ value ∈ values, ∃ pubkey, lib.Names value pubkey)

/-- What is wrong with the parameters of getAccountInfo. -/
inductive InfoFault (params : Json N) : RpcError → Prop
  | noArray (other : ∀ items, params ≠ .array items) : InfoFault params (.invalidParams "Expected array")
  | missing (empty : params = .array []) : InfoFault params (.invalidParams "Missing pubkey")
  | noString {value : Json N} {rest : List (Json N)} (first : params = .array (value :: rest))
      (other : ∀ text, value ≠ .string text) : InfoFault params (.invalidParams "Pubkey must be string")
  | unknown {text reason : String} {rest : List (Json N)} (first : params = .array (.string text :: rest))
      (failed : lib.fromStr text = .error reason) :
      InfoFault params (.invalidParams ("Invalid pubkey: " ++ reason))

/-- What is wrong with the first of the values that names no pubkey. -/
inductive ListFault (values : List (Json N)) : RpcError → Prop
  | noString {before after : List (Json N)} {value : Json N} (cut : values = before ++ value :: after)
      (named : ∀ v ∈ before, ∃ pubkey, lib.Names v pubkey) (other : ∀ text, value ≠ .string text) :
      ListFault values (.invalidParams "Pubkey must be string")
  | unknown {before after : List (Json N)} {text reason : String} (cut : values = before ++ .string text :: after)
      (named : ∀ v ∈ before, ∃ pubkey, lib.Names v pubkey) (failed : lib.fromStr text = .error reason) :
      ListFault values (.invalidParams ("Invalid pubkey " ++ text ++ ": " ++ reason))

/-- What is wrong with the parameters of getMultipleAccounts. -/
inductive PubkeysFault (params : Json N) : RpcError → Prop
  | noArray (other : ∀ items, params ≠ .array items) : PubkeysFault params (.invalidParams "Expected array")
  | missing (empty : params = .array []) : PubkeysFault params (.invalidParams "Missing pubkeys")
  | noPubkeys {value : Json N} {rest : List (Json N)} (first : params = .array (value :: rest))
      (other : ∀ items, value ≠ .array items) : PubkeysFault params (.invalidParams "Pubkeys must be array")
  | value {values rest : List (Json N)} {e : RpcError} (first : params = .array (.array values :: rest))
      (fault : lib.ListFault values e) : PubkeysFault params e
  | many {values rest : List (Json N)} (first : params = .array (.array values :: rest))
      (named : ∀ v ∈ values, ∃ pubkey, lib.Names v pubkey) (many : 1000 < values.length) :
      PubkeysFault params (.invalidParams "Batch size exceeds limit of 1000")

/-- What is wrong with a request. -/
inductive Fault (request : RpcRequest N) : RpcError → Prop
  | noMethod (info : request.method ≠ "getAccountInfo") (multiple : request.method ≠ "getMultipleAccounts") :
      Fault request (.methodNotFound request.method)
  | info {e : RpcError} (method : request.method = "getAccountInfo") (fault : lib.InfoFault request.params e) :
      Fault request e
  | multiple {e : RpcError} (method : request.method = "getMultipleAccounts")
      (fault : lib.PubkeysFault request.params e) : Fault request e

/-- The errors of the methods, and of all that is no method. -/
def faultCode (request : RpcRequest N) : Int :=
  if request.method = "getAccountInfo" ∨ request.method = "getMultipleAccounts" then -32602 else -32601

section Faults

variable {lib} {params : Json N} {values : List (Json N)} {request : RpcRequest N} {e : RpcError}

theorem InfoFault.not_named (fault : lib.InfoFault params e) :
    ¬ ∃ value rest, params = .array (value :: rest) ∧ ∃ pubkey, lib.Names value pubkey := by
  rintro ⟨value, rest, rfl, pubkey, text, rfl, known⟩
  cases fault with
  | noArray other => exact other _ rfl
  | missing empty => cases empty
  | noString first other =>
    cases first
    exact other text rfl
  | unknown first failed =>
    cases first
    cases failed.symm.trans known

theorem ListFault.not_named (fault : lib.ListFault values e) :
    ¬ ∀ value ∈ values, ∃ pubkey, lib.Names value pubkey := by
  intro all
  cases fault with
  | noString cut _ other =>
    obtain ⟨pubkey, text, same, _⟩ := all _ (cut ▸ List.mem_append_right _ List.mem_cons_self)
    exact other text same
  | unknown cut _ failed =>
    obtain ⟨pubkey, text, same, known⟩ := all _ (cut ▸ List.mem_append_right _ List.mem_cons_self)
    cases same
    cases failed.symm.trans known

/-- A value in front names a pubkey, so the fault lies behind it. -/
theorem ListFault.cons {value : Json N} {pubkey : Pubkey} (fault : lib.ListFault values e)
    (names : lib.Names value pubkey) : lib.ListFault (value :: values) e := by
  have front {before : List (Json N)} (named : ∀ v ∈ before, ∃ pubkey, lib.Names v pubkey) :
      ∀ v ∈ value :: before, ∃ pubkey, lib.Names v pubkey :=
    List.forall_mem_cons.mpr ⟨⟨pubkey, names⟩, named⟩
  cases fault with
  | noString cut named other => exact .noString (congrArg (value :: ·) cut) (front named) other
  | unknown cut named failed => exact .unknown (congrArg (value :: ·) cut) (front named) failed

theorem PubkeysFault.not_named (fault : lib.PubkeysFault params e) :
    ¬ ∃ values rest, params = .array (.array values :: rest) ∧ values.length ≤ 1000 ∧
      ∀ value ∈ values, ∃ pubkey, lib.Names value pubkey := by
  rintro ⟨values, rest, rfl, few, named⟩
  cases fault with
  | noArray other => exact other _ rfl
  | missing empty => cases empty
  | noPubkeys first other =>
    cases first
    exact other values rfl
  | value first fault =>
    cases first
    exact fault.not_named named
  | many first _ many =>
    cases first
    omega

theorem Fault.not_accepts (fault : lib.Fault request e) : ¬ lib.Accepts request := by
  rintro (⟨info, named⟩ | ⟨multiple, named⟩)
  · cases fault with
    | noMethod other _ => exact other info
    | info _ fault => exact fault.not_named named
    | multiple method _ => simp [info] at method
  · cases fault with
    | noMethod _ other => exact other multiple
    | info method _ => simp [multiple] at method
    | multiple _ fault => exact fault.not_named named

theorem Fault.code (fault : lib.Fault request e) : e.code = faultCode request := by
  unfold faultCode
  cases fault with
  | noMethod info multiple => simp [info, multiple, RpcError.code]
  | info method fault =>
    rw [if_pos (.inl method)]
    cases fault <;> rfl
  | multiple method fault =>
    rw [if_pos (.inr method)]
    cases fault with
    | value _ fault => cases fault <;> rfl
    | _ => rfl

end Faults

theorem asArray_eq_some {value : Json N} {items : List (Json N)} :
    value.asArray = some items ↔ value = .array items := by
  cases value <;> simp [Json.asArray]

theorem asArray_eq_none {value : Json N} : value.asArray = none ↔ ∀ items, value ≠ .array items := by
  cases value <;> simp [Json.asArray]

theorem asStr_eq_some {value : Json N} {text : String} : value.asStr = some text ↔ value = .string text := by
  cases value <;> simp [Json.asStr]

theorem asStr_eq_none {value : Json N} : value.asStr = none ↔ ∀ text, value ≠ .string text := by
  cases value <;> simp [Json.asStr]

theorem parsePubkeys_ok {values : List (Json N)} {pubkeys : List Pubkey}
    (parsed : lib.parsePubkeys values = .ok pubkeys) :
    pubkeys.length = values.length ∧ ∀ value ∈ values, ∃ pubkey, lib.Names value pubkey := by
  induction values generalizing pubkeys with
  | nil =>
    cases parsed
    exact ⟨rfl, fun value none => absurd none List.not_mem_nil⟩
  | cons value rest ih =>
    unfold parsePubkeys at parsed
    split at parsed
    · cases parsed
    · rename_i text reads
      split at parsed
      · cases parsed
      · rename_i pubkey known
        cases later : lib.parsePubkeys rest with
        | error e =>
          rw [later] at parsed
          cases parsed
        | ok others =>
          rw [later] at parsed
          cases parsed
          obtain ⟨length, named⟩ := ih later
          refine ⟨congrArg (· + 1) length, List.forall_mem_cons.mpr ⟨?_, named⟩⟩
          exact ⟨pubkey, text, asStr_eq_some.mp reads, known⟩

theorem parsePubkeys_error {values : List (Json N)} {e : RpcError} (failed : lib.parsePubkeys values = .error e) :
    lib.ListFault values e := by
  induction values with
  | nil => cases failed
  | cons value rest ih =>
    unfold parsePubkeys at failed
    split at failed
    · rename_i unread
      cases failed
      exact .noString rfl (List.forall_mem_nil _) (asStr_eq_none.mp unread)
    · rename_i text reads
      cases asStr_eq_some.mp reads
      split at failed
      · rename_i unknown
        cases failed
        exact .unknown rfl (List.forall_mem_nil _) unknown
      · rename_i pubkey known
        cases later : lib.parsePubkeys rest with
        | ok others =>
          rw [later] at failed
          cases failed
        | error e' =>
          rw [later] at failed
          cases failed
          exact (ih later).cons ⟨text, rfl, known⟩

/-- The parameters name a pubkey and the method answers, or they are at fault. -/
theorem handleGetAccountInfo_spec (params : Json N) :
    (∃ value rest pubkey, params = .array (value :: rest) ∧ lib.Names value pubkey ∧
      lib.handleGetAccountInfo params = .ok (.object [("context", lib.context), ("value", .null)])) ∨
    ∃ e, lib.handleGetAccountInfo params = .error e ∧ lib.InfoFault params e := by
  unfold handleGetAccountInfo
  split
  · rename_i other
    exact .inr ⟨_, rfl, .noArray (asArray_eq_none.mp other)⟩
  · rename_i empty
    exact .inr ⟨_, rfl, .missing (asArray_eq_some.mp empty)⟩
  · rename_i value rest items
    have first := asArray_eq_some.mp items
    split
    · rename_i unread
      exact .inr ⟨_, rfl, .noString first (asStr_eq_none.mp unread)⟩
    · rename_i text reads
      cases asStr_eq_some.mp reads
      split
      · rename_i unknown
        exact .inr ⟨_, rfl, .unknown first unknown⟩
      · rename_i pubkey known
        exact .inl ⟨_, rest, pubkey, first, ⟨text, rfl, known⟩, rfl⟩

/-- At most a thousand values, each of which names a pubkey, have as many answers; or the
parameters are at fault. -/
theorem handleGetMultipleAccounts_spec (params : Json N) :
    (∃ values rest, params = .array (.array values :: rest) ∧ values.length ≤ 1000 ∧
      (∀ value ∈ values, ∃ pubkey, lib.Names value pubkey) ∧
      lib.handleGetMultipleAccounts params = .ok (.object [("context", lib.context),
        ("value", .array (List.replicate values.length .null))])) ∨
    ∃ e, lib.handleGetMultipleAccounts params = .error e ∧ lib.PubkeysFault params e := by
  unfold handleGetMultipleAccounts
  split
  · rename_i other
    exact .inr ⟨_, rfl, .noArray (asArray_eq_none.mp other)⟩
  · rename_i empty
    exact .inr ⟨_, rfl, .missing (asArray_eq_some.mp empty)⟩
  · rename_i value rest items
    have first := asArray_eq_some.mp items
    split
    · rename_i other
      exact .inr ⟨_, rfl, .noPubkeys first (asArray_eq_none.mp other)⟩
    · rename_i values reads
      cases asArray_eq_some.mp reads
      split
      · rename_i e failed
        exact .inr ⟨e, rfl, .value first (lib.parsePubkeys_error failed)⟩
      · rename_i pubkeys parsed
        obtain ⟨length, named⟩ := lib.parsePubkeys_ok parsed
        rw [length]
        split
        · rename_i many
          exact .inr ⟨_, rfl, .many first named many⟩
        · rename_i few
          exact .inl ⟨values, rest, first, Nat.le_of_not_gt few, named, rfl⟩

/-- A value that answers a request under its id, with a result for what the methods ask
for and an error that says what is wrong for all else. -/
structure Replies (request : RpcRequest N) (value : Json N) : Prop where
  version : value.field "jsonrpc" = some (.string "2.0")
  id : value.field "id" = some (request.id.getD .null)
  accepted : lib.Accepts request → value.field "error" = some .null ∧
    ∃ found, value.field "result" = some (.object [("context", lib.context), ("value", found)]) ∧
      (request.method = "getAccountInfo" → found = .null) ∧
      ∀ values rest, request.method = "getMultipleAccounts" → request.params = .array (.array values :: rest) →
        found = .array (List.replicate values.length .null)
  refused : ¬ lib.Accepts request → value.field "result" = none ∧
    ∃ e, lib.Fault request e ∧ value.field "error" = some (.object [
      ("code", .number (lib.number (faultCode request))), ("data", .string e.text), ("message", .string e.message)])

theorem replies_result {request : RpcRequest N} {found : Json N} (accepts : lib.Accepts request)
    (info : request.method = "getAccountInfo" → found = .null)
    (values : ∀ values rest, request.method = "getMultipleAccounts" →
      request.params = .array (.array values :: rest) → found = .array (List.replicate values.length .null)) :
    lib.Replies request (rpcResponse (.object [("context", lib.context), ("value", found)]) request.id) where
  version := by simp [rpcResponse]
  id := by simp [rpcResponse]
  accepted _ := ⟨by simp [rpcResponse], found, by simp [rpcResponse], info, values⟩
  refused not := absurd accepts not

theorem replies_error {request : RpcRequest N} {e : RpcError} (fault : lib.Fault request e) :
    lib.Replies request (lib.toJsonRpcError e request.id) where
  version := by simp [toJsonRpcError]
  id := by simp [toJsonRpcError]
  accepted accepts := absurd accepts fault.not_accepts
  refused _ := by
    refine ⟨by simp [toJsonRpcError], e, fault, ?_⟩
    rw [← fault.code]
    simp [toJsonRpcError]

theorem answer_replies {body : List UInt8} {request : RpcRequest N} (parsed : lib.fromSlice body = .ok request) :
    ∃ value, lib.answer body = jsonResponse (lib.toBytes value) 200 ∧ lib.Replies request value := by
  unfold answer route
  rw [parsed]
  dsimp only
  by_cases info : request.method = "getAccountInfo"
  · have other : request.method ≠ "getMultipleAccounts" := by simp [info]
    rw [if_pos info]
    obtain ⟨value, rest, pubkey, params, names, answered⟩ | ⟨e, failed, fault⟩ :=
      lib.handleGetAccountInfo_spec request.params
    · rw [answered]
      exact ⟨_, rfl, lib.replies_result (.inl ⟨info, value, rest, params, pubkey, names⟩) (fun _ => rfl)
        fun _ _ multiple => absurd multiple other⟩
    · rw [failed]
      exact ⟨_, rfl, lib.replies_error (.info info fault)⟩
  · rw [if_neg info]
    by_cases multiple : request.method = "getMultipleAccounts"
    · rw [if_pos multiple]
      obtain ⟨values, rest, params, few, names, answered⟩ | ⟨e, failed, fault⟩ :=
        lib.handleGetMultipleAccounts_spec request.params
      · rw [answered]
        refine ⟨_, rfl, lib.replies_result (.inr ⟨multiple, values, rest, params, few, names⟩)
          (fun own => absurd own info) ?_⟩
        intro values' rest' _ same
        cases params.symm.trans same
        rfl
      · rw [failed]
        exact ⟨_, rfl, lib.replies_error (.multiple multiple fault)⟩
    · rw [if_neg multiple]
      exact ⟨_, rfl, lib.replies_error (.noMethod info multiple)⟩

end RpcLibraries

end Hyperplane
