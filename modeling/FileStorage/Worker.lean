import FileStorage.Channel
import FileStorage.Dispatcher
import FileStorage.Server

/-! What a worker does between taking a client and giving it back: `recv_request`, the switch of
`worker_thread`, and what becomes of the connection. -/

namespace FileStorage

open Channel Prog

/-! ### `recv_request` -/

/-- A `request_t` as `recv_request` leaves it; `type` need not be a `request_code`. -/
structure Received where
  type : Nat
  filePath : Bytes
  body : Bytes
  deriving DecidableEq

/-- A little-endian field of memory that was 0 before `data` was read into it. -/
def fieldValue (data : Bytes) : Nat := data.foldr (fun b n => b.toNat + 256 * n) 0

def recvField (size : Nat) : Reader UInt8 Nat := do
  let data ← Reader.read size
  return fieldValue data

/-- A buffer from `calloc`. A short read leaves the rest of it 0. -/
def recvBuffer (size : Nat) : Reader UInt8 Bytes :=
  if size ≠ 0 then do
    Reader.alloc
    let data ← Reader.read size
    return data ++ List.replicate (size - data.length) 0
  else return []

def recvRequest : Reader UInt8 Received := do
  Reader.alloc
  let type ← recvField 4
  let pathLen ← recvField 8
  let filePath ← recvBuffer pathLen
  let bodySize ← recvField 8
  let body ← recvBuffer bodySize
  return ⟨type, filePath, body⟩

theorem strict_recvField (size : Nat) : (recvField size).Strict :=
  (Reader.strict_read size).bind fun _ => Reader.strict_ret _

theorem strict_recvBuffer (size : Nat) : (recvBuffer size).Strict := by
  refine Reader.Strict.ite ?_ (Reader.strict_ret _)
  exact Reader.strict_alloc.bind fun _ =>
    (Reader.strict_read size).bind fun _ => Reader.strict_ret _

theorem strict_recvRequest : recvRequest.Strict := by
  refine Reader.strict_alloc.bind fun _ => (strict_recvField 4).bind fun type => ?_
  refine (strict_recvField 8).bind fun pathLen => (strict_recvBuffer pathLen).bind fun path => ?_
  exact (strict_recvField 8).bind fun bodySize =>
    (strict_recvBuffer bodySize).bind fun body => Reader.strict_ret _

/-- The type of a received request is what the first read has delivered. -/
theorem recvRequest_type {c : Source UInt8} {request : Received}
    (h : (recvRequest c).result = some request) :
    (c.delivers 4).map fieldValue = some request.type := by
  obtain ⟨_, -, h⟩ := Reader.result_bind.mp h
  obtain ⟨type, htype, h⟩ := Reader.result_bind.mp h
  obtain ⟨pathLen, -, h⟩ := Reader.result_bind.mp h
  obtain ⟨path, -, h⟩ := Reader.result_bind.mp h
  obtain ⟨bodySize, -, h⟩ := Reader.result_bind.mp h
  obtain ⟨body, -, h⟩ := Reader.result_bind.mp h
  obtain rfl : ⟨type, path, body⟩ = request := Option.some.inj h
  obtain ⟨data, hdata, hret⟩ := Reader.result_bind.mp htype
  obtain rfl : fieldValue data = type := Option.some.inj hret
  have hsame : c.delivers 4 = some data := hdata
  rw [hsame, Option.map_some]

/-! ### The switch -/

def RequestCode.code : RequestCode → Nat
  | openConnection => 100
  | closeConnection => 101
  | openFile => 102
  | closeFile => 103
  | writeFile => 104
  | readFile => 105
  | readNFiles => 106
  | removeFile => 107
  | lockFile => 108
  | unlockFile => 109
  | appendToFile => 110

def RequestCode.all : List RequestCode :=
  [openConnection, closeConnection, openFile, closeFile, writeFile, readFile, readNFiles, removeFile,
    lockFile, unlockFile, appendToFile]

/-- The arm of the switch for a type; there is none for other values. -/
def RequestCode.ofCode (type : Nat) : Option RequestCode :=
  RequestCode.all.find? fun c => c.code = type

theorem RequestCode.ofCode_code (c : RequestCode) : ofCode c.code = some c := by
  cases c <;> rfl

theorem RequestCode.code_of_ofCode {type : Nat} {c : RequestCode} (h : ofCode type = some c) :
    c.code = type := by
  simpa using List.find?_some h

/-- The status of `OPEN_CONNECTION`. -/
def connectionStatus (s : Dispatcher) : ResponseCode :=
  if s.acceptConnection = false then .noMoreCon
  else if s.shutdownNow then .internalError
  else .success

/-- A `send_response` of `worker_thread`, which does not look at its result. -/
def respond (clientFd : Nat) (filePath : Bytes) (reply : Reply) : ServerM Unit := do
  let _ ← sendResponse clientFd reply.status filePath reply.body
  return ()

/-- The arms of the switch that leave the connection open. The list of files that three of them make
with `list_create` is made; what its destruction frees is in `Call.disposed`. -/
def serve (s : Dispatcher) (clientFd : Nat) (request : Request) : ServerM Unit :=
  match request.type with
  | .openConnection => respond clientFd [] ⟨connectionStatus s, []⟩
  | .closeConnection => return ()
  | .appendToFile => do
    let reply ← handle clientFd request
    respond clientFd request.filePath reply
    -- the arm has no break, and the next one is that of READ_FILE
    let read ← handle clientFd { request with type := .readFile }
    respond clientFd request.filePath read
  | .readNFiles => do
    let reply ← handle clientFd request
    respond clientFd [] reply
  | .lockFile => do
    let reply ← handle clientFd request
    whenever (reply.status ≠ .awaiting) (respond clientFd request.filePath reply)
  | _ => do
    let reply ← handle clientFd request
    respond clientFd request.filePath reply

/-! ### One iteration -/

/-- What an iteration of `worker_thread` has done: to the connection, and to the storage. -/
structure Iteration where
  actions : List WorkerAction
  outcome : Outcome Unit
  world : StorageWorld

/-- One iteration of `worker_thread` from `recv_request` to the write on the pipe, which does not
fail. -/
def workerIteration (s : Dispatcher) (clientFd : Nat) (received : Option Received)
    (env : List Bool) (w : StorageWorld) : Iteration :=
  match received with
  -- the switch looks at the type of a request that is NULL
  | none => ⟨[.fail, .write], .crashed, w⟩
  | some request =>
    match RequestCode.ofCode request.type with
    | none => ⟨[.serve, .write], .done (), w⟩
    | some .closeConnection => ⟨[.close, .decrement, .write], .done (), w⟩
    | some type =>
      match (serve s clientFd ⟨type, request.filePath, request.body⟩).run env w with
      | (.done _, w, _) => ⟨[.serve, .write], .done (), w⟩
      | (outcome, w, _) => ⟨[], outcome, w⟩

theorem workerIteration_actions {s : Dispatcher} {clientFd : Nat} {request : Received}
    {env : List Bool} {w : StorageWorld} (h : request.type ≠ RequestCode.closeConnection.code) :
    (workerIteration s clientFd (some request) env w).actions = [.serve, .write] ∨
      (workerIteration s clientFd (some request) env w).actions = [] := by
  simp only [workerIteration]
  split
  · exact .inl rfl
  · rename_i hcode
    exact absurd (RequestCode.code_of_ofCode hcode).symm h
  · split
    · exact .inl rfl
    · exact .inr rfl

end FileStorage
