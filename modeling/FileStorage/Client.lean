import FileStorage.Dialogue
import FileStorage.Handlers

/-! The client's side, `api/fileserver_api.c`. What the functions ask of the system is a question,
and every answer to it is possible. What `realpath` returns is an argument of its own, and the files
that are written on the disk are left out. -/

namespace FileStorage

open Dialogue

/-- The values of `errno` that the functions set, and those that the system sets. -/
inductive Errno where
  | einval
  | eisconn
  | enotconn
  | econnrefused
  | econnaborted
  | eprotonosupport
  | eperm
  | enoent
  | eexist
  | ebadmsg
  | enomem
  | system (code : Nat)
  deriving DecidableEq

/-- What happens to an open file, for the record of a run. -/
inductive FileEvent where
  | opened (p : Path)
  | closed (p : Path)
  | removed (p : Path)
  | expelled (p : Path)
  deriving DecidableEq

inductive Question where
  | socket
  | connect
  | nanosleep
  | clockGettime
  /-- The value of a variable that has not been written. -/
  | indeterminate
  | alloc
  | sendRequest (request : Request)
  | recvResponse
  | readDisk (pathname : Path)
  | mkdirP (dirname : Path)
  /-- Not a question of the code: it marks the place where something has happened to a file. -/
  | note (event : FileEvent)
  deriving DecidableEq

@[reducible] def Question.Answer : Question → Type
  | socket => Except Errno Nat
  | connect => Except Errno Unit
  | nanosleep => Except Errno Unit
  | clockGettime => Except Errno Int
  | indeterminate => Int
  | alloc => Bool
  | sendRequest _ => Except Errno Unit
  | recvResponse => Except Errno Response
  | readDisk _ => Except Errno Bytes
  | mkdirP _ => Bool
  | note _ => Unit

/-- The question is not for the server. -/
def Question.isLocal : Question → Prop
  | .sendRequest _ => False
  | .recvResponse => False
  | _ => True

/-- A question with its answer. -/
abbrev Exchange := Sigma Question.Answer

inductive Pointer (α : Type) where
  | null
  | freed
  | live (a : α)
  deriving DecidableEq

/-- The global variables of the library and `errno`. -/
structure Client where
  socketFd : Int
  socketPath : Option Path
  openedFiles : Pointer (List Path)
  errno : Errno
  deriving DecidableEq

abbrev ClientM := Dialogue Question.Answer Client

/-- The global variables before the first call. -/
def Client.init : Client := ⟨-1, none, .null, .system 0⟩

def Client.connected (c : Client) : Prop := c.socketFd ≠ -1

namespace Api

def socket : ClientM (Except Errno Nat) := question Question.socket

def connect : ClientM (Except Errno Unit) := question Question.connect

def nanosleep : ClientM (Except Errno Unit) := question Question.nanosleep

def clockGettime : ClientM (Except Errno Int) := question Question.clockGettime

def indeterminate : ClientM Int := question Question.indeterminate

def malloc : ClientM Bool := question Question.alloc

def sendRequest (r : Request) : ClientM (Except Errno Unit) := question (Question.sendRequest r)

def recvResponse : ClientM (Except Errno Response) := question Question.recvResponse

def readDisk (p : Path) : ClientM (Except Errno Bytes) := question (Question.readDisk p)

def mkdirP (dirname : Path) : ClientM Bool := question (Question.mkdirP dirname)

def note (event : FileEvent) : ClientM Unit := question (Question.note event)

def setErrno (e : Errno) : ClientM Unit := modify fun c => { c with errno := e }

/-- Set `errno` and return -1. -/
def failWith (e : Errno) : ClientM Int := do
  setErrno e
  return -1

/-- Go on with what a call has returned. A call that fails has set `errno`, and the function
returns -1. -/
def checked {α : Type} (x : ClientM (Except Errno α)) (k : α → ClientM Int) : ClientM Int := do
  match ← x with
  | .error e => failWith e
  | .ok a => k a

def setSocketFd (fd : Int) : ClientM Unit := modify fun c => { c with socketFd := fd }

def setOpenedFiles (l : Pointer (List Path)) : ClientM Unit :=
  modify fun c => { c with openedFiles := l }

/-- The list of opened files, where the code follows the pointer to it. -/
def openedList : ClientM (List Path) := do
  match (← get).openedFiles with
  | .live l => return l
  | _ => crash

/-! ### Requests -/

/-- The checks at the start of a function on a file. -/
def onFile (pathname : Option Path) (k : Path → ClientM Int) : ClientM Int :=
  match pathname with
  | none => failWith .einval
  | some p => do
    if (← get).socketFd = -1 then failWith .enotconn else k p

/-- Send a request and go on with the response to it. -/
def exchange (request : Request) (k : Response → ClientM Int) : ClientM Int :=
  checked (sendRequest request) fun _ => checked recvResponse k

/-- A switch over the status: the arm of `SUCCESS`, those that set `errno`, and the default. -/
def switch (response : Response) (success : ClientM Int) (arms : List (ResponseCode × Errno)) :
    ClientM Int :=
  if response.status = .success then success
  else failWith ((arms.lookup response.status).getD .eprotonosupport)

def commonArms : List (ResponseCode × Errno) :=
  [(.internalError, .econnaborted), (.notFound, .enoent), (.unauthorized, .eperm)]

/-! ### Opened files -/

/-- `list_insert_tail(opened_files, file_name)`. -/
def insertOpened (p : Path) : ClientM Bool := do
  match (← get).openedFiles with
  | .null => do
    setErrno .einval
    return false
  | .freed => crash
  | .live l => do
    if ← malloc then do
      setOpenedFiles (.live (l ++ [p]))
      return true
    else do
      setErrno .enomem
      return false

/-- `list_remove_element(opened_files, elem)`. Comparing with the NULL pointer faults. -/
def removeOpened (elem : Option Path) : ClientM Unit := do
  let l ← openedList
  match elem with
  | none => if l = [] then setErrno .enoent else crash
  | some p => if p ∈ l then setOpenedFiles (.live (l.erase p)) else setErrno .enoent

def openFile (pathname : Option Path) (flags : Int) : ClientM Int :=
  onFile pathname fun p =>
    exchange ⟨.openFile, stringBytes p, intBytes flags⟩ fun response =>
      switch response (do
        -- the copy of the name is written without a check
        if ← malloc then do
          if ← insertOpened p then do
            note (.opened p)
            return 0
          else return -1
        else crash) (commonArms ++ [(.fileExists, .eexist)])

end Api

/-- The path of a response as a C string, as `Request.path`. -/
def Response.path (response : Response) : Option (Option Path) :=
  (Request.mk .closeFile response.filePath []).path

namespace Realpath

open Api

/-- `list_find(opened_files, elem)`: whether it is found. Comparing with the NULL pointer faults. -/
def listFind (elem : Option Path) : ClientM Bool := do
  let l ← openedList
  match elem with
  | none =>
    if l = [] then do
      setErrno .enoent
      return false
    else crash
  | some p =>
    if p ∈ l then return true
    else do
      setErrno .enoent
      return false

/-- The call of `strlen` on the path of a request. -/
def strlen (absolutePath : Option Path) (k : Path → ClientM Int) : ClientM Int :=
  match absolutePath with
  | none => crash
  | some p => k p

def ensureOpened (absolutePath : Option Path) (flags : Int) (k : Path → ClientM Int) :
    ClientM Int := do
  if ← listFind absolutePath then strlen absolutePath k
  else do
    let result ← openFile absolutePath flags
    if result ≠ 0 then return -1 else strlen absolutePath k

/-- `readFile`; its buffer is that of the response. -/
def readFile (pathname absolutePath : Option Path) : ClientM Int :=
  onFile pathname fun _ =>
    ensureOpened absolutePath 1 fun p =>
      exchange ⟨.readFile, stringBytes p, []⟩ fun response =>
        switch response (do if ← malloc then return 0 else failWith .enomem) commonArms

def lockFile (pathname absolutePath : Option Path) : ClientM Int :=
  onFile pathname fun _ =>
    ensureOpened absolutePath 1 fun p =>
      exchange ⟨.lockFile, stringBytes p, []⟩ fun response =>
        switch response (return 0) commonArms

def unlockFile (pathname absolutePath : Option Path) : ClientM Int :=
  onFile pathname fun _ => do
    if ← listFind absolutePath then
      strlen absolutePath fun p =>
        exchange ⟨.unlockFile, stringBytes p, []⟩ fun response =>
          switch response (return 0) (commonArms ++ [(.badRequest, .ebadmsg)])
    else failWith .eperm

def removeFile (pathname absolutePath : Option Path) : ClientM Int :=
  onFile pathname fun _ =>
    ensureOpened absolutePath 4 fun p =>
      exchange ⟨.removeFile, stringBytes p, []⟩ fun response =>
        switch response (do
          removeOpened (some p)
          note (.removed p)
          return 0) (commonArms ++ [(.badRequest, .ebadmsg)])

def closeFile (pathname absolutePath : Option Path) : ClientM Int :=
  onFile pathname fun _ =>
    strlen absolutePath fun p =>
      exchange ⟨.closeFile, stringBytes p, []⟩ fun response =>
        switch response (do
          note (.closed p)
          return 0) commonArms

/-! ### Announced files -/

/-- `*(int*)response->body`. A body shorter than an `int` is read past its end. -/
def howMany (body : Bytes) : ClientM Int :=
  if body = [] then crash
  else match readInt body with
    | some n => return n.toInt
    | none => indeterminate

/-- The base name of the NULL pointer is a dot. The full path is written without a check. -/
def writeFileInDirectory : Option Path → ClientM Unit
  | none => return ()
  | some _ => do if ← malloc then return () else crash

/-- `list_remove_element(opened_files, received_file->file_path)`. Where the path is not terminated,
it is indeterminate which element is equal to it. -/
def removeReceived (file : Response) : ClientM Unit :=
  match file.path with
  | some none => removeOpened none
  | some (some p) => do
    removeOpened (some p)
    note (.expelled p)
  | none => do
    let l ← openedList
    let index ← indeterminate
    if 0 ≤ index ∧ index < l.length then do
      setOpenedFiles (.live (l.eraseIdx index.toNat))
      note (.expelled (l.getD index.toNat []))
    else setErrno .enoent

/-- The loop that receives expelled files. It ends early when `recv_response` fails. -/
def recvExpelled (dirname : Option Path) : Nat → ClientM Unit
  | 0 => return ()
  | n + 1 => do
    match ← recvResponse with
    | .error e => setErrno e
    | .ok file => do
      writeFileInDirectory dirname
      removeReceived file
      recvExpelled dirname n

/-- The final response. Its status is read without a check. -/
def recvFinal (arms : List (ResponseCode × Errno)) : ClientM Int := do
  match ← recvResponse with
  | .error _ => crash
  | .ok final => switch final (return 0) arms

/-- `mkdir_p`, when there is a directory. -/
def makeDirectory : Option Path → ClientM Bool
  | none => return true
  | some dirname => mkdirP dirname

/-- The arm of `FILES_EXPELLED`. -/
def filesExpelled (response : Response) (dirname : Option Path)
    (arms : List (ResponseCode × Errno)) : ClientM Int := do
  if ← makeDirectory dirname then
    let n ← howMany response.body
    recvExpelled dirname n.toNat
    recvFinal arms
  else return -1

/-- `writeFile`; opening, measuring and reading the file on disk is one question, and a file without
a path cannot be opened. -/
def writeFile (pathname absolutePath dirname : Option Path) : ClientM Int :=
  onFile pathname fun _ =>
    match absolutePath with
    | none => failWith (.system 5)
    | some absolute => checked (readDisk absolute) fun fileData =>
      ensureOpened absolutePath 6 fun p =>
        exchange ⟨.writeFile, stringBytes p, fileData⟩ fun response =>
          if response.status = .filesExpelled then
            filesExpelled response dirname [(.internalError, .econnaborted), (.unauthorized, .eperm)]
          else switch response (return 0)
            (commonArms ++ [(.missingBody, .einval), (.fileExists, .eexist)])

def appendToFile (pathname absolutePath : Option Path) (buf : Option Bytes) (dirname : Option Path) :
    ClientM Int :=
  match buf with
  | none => failWith .einval
  | some buf => onFile pathname fun _ =>
    ensureOpened absolutePath 4 fun p =>
      exchange ⟨.appendToFile, stringBytes p, buf⟩ fun response =>
        if response.status = .filesExpelled then
          filesExpelled response dirname [(.internalError, .econnaborted)]
        else switch response (return 0) (commonArms ++ [(.missingBody, .einval)])

/-- The loop that receives the files of `READ_N_FILES`. -/
def recvFiles (dirname : Option Path) : Nat → ClientM Unit
  | 0 => return ()
  | n + 1 => do
    match ← recvResponse with
    | .error e => setErrno e
    | .ok _ => do
      writeFileInDirectory dirname
      recvFiles dirname n

def readNFiles (N : Int) (dirname : Option Path) : ClientM Int :=
  if N < 0 then failWith .einval
  else do
    if (← get).socketFd = -1 then failWith .enotconn
    else exchange ⟨.readNFiles, [], intBytes N⟩ fun response =>
      switch response (do
        if ← makeDirectory dirname then
          let n ← howMany response.body
          recvFiles dirname n.toNat
          return 0
        else return -1) [(.internalError, .econnaborted)]

end Realpath

/-! ### Absolute paths

`realpath` returns an absolute path without symbolic links as it is. -/

namespace Api

def readFile (pathname : Option Path) : ClientM Int := Realpath.readFile pathname pathname

def closeFile (pathname : Option Path) : ClientM Int := Realpath.closeFile pathname pathname

def lockFile (pathname : Option Path) : ClientM Int := Realpath.lockFile pathname pathname

def unlockFile (pathname : Option Path) : ClientM Int := Realpath.unlockFile pathname pathname

def removeFile (pathname : Option Path) : ClientM Int := Realpath.removeFile pathname pathname

def writeFile (pathname dirname : Option Path) : ClientM Int :=
  Realpath.writeFile pathname pathname dirname

def appendToFile (pathname : Option Path) (buf : Option Bytes) (dirname : Option Path) : ClientM Int :=
  Realpath.appendToFile pathname pathname buf dirname

/-! ### Runs of the parts -/

section

variable {c c' : Client} {t : List Exchange} {r : Int}

theorem runs_failWith {e : Errno} :
    (failWith e).Runs c t r c' ↔ t = [] ∧ r = -1 ∧ c' = { c with errno := e } := by
  rw [failWith, setErrno, runs_modify_bind, runs_pure]

/-- The program puts one question, with whose answers its trace is told by `f`. -/
def Puts {α : Type} (x : ClientM α) (f : α → Exchange) : Prop :=
  ∀ c t a c', x.Runs c t a c' ↔ t = [f a] ∧ c' = c

theorem puts_socket : Puts socket fun x => ⟨.socket, x⟩ := fun _ _ _ _ => runs_question

theorem puts_sendRequest (request : Request) :
    Puts (sendRequest request) fun x => ⟨.sendRequest request, x⟩ := fun _ _ _ _ => runs_question

theorem puts_recvResponse : Puts recvResponse fun x => ⟨.recvResponse, x⟩ := fun _ _ _ _ =>
  runs_question

theorem puts_readDisk (p : Path) : Puts (readDisk p) fun x => ⟨.readDisk p, x⟩ := fun _ _ _ _ =>
  runs_question

theorem runs_checked {α : Type} {x : ClientM (Except Errno α)} {f : Except Errno α → Exchange}
    (hx : Puts x f) {k : α → ClientM Int} :
    (checked x k).Runs c t r c' ↔
      (∃ e, t = [f (.error e)] ∧ r = -1 ∧ c' = { c with errno := e }) ∨
        ∃ a u, t = f (.ok a) :: u ∧ (k a).Runs c u r c' := by
  rw [checked, runs_bind]
  constructor
  · rintro ⟨a, u, c1, v, rfl, ha, h⟩
    obtain ⟨rfl, rfl⟩ := (hx _ _ _ _).mp ha
    cases a with
    | error e =>
      obtain ⟨rfl, rfl, rfl⟩ := runs_failWith.mp h
      exact .inl ⟨e, rfl, rfl, rfl⟩
    | ok a => exact .inr ⟨a, v, rfl, h⟩
  · rintro (⟨e, rfl, rfl, rfl⟩ | ⟨a, u, rfl, h⟩)
    · exact ⟨.error e, _, c, [], rfl, (hx _ _ _ _).mpr ⟨rfl, rfl⟩, runs_failWith.mpr ⟨rfl, rfl, rfl⟩⟩
    · exact ⟨.ok a, _, c, u, rfl, (hx _ _ _ _).mpr ⟨rfl, rfl⟩, h⟩

/-- An exchange fails when it sends, fails when it receives, or goes on with the response. -/
theorem runs_exchange {request : Request} {k : Response → ClientM Int} :
    (exchange request k).Runs c t r c' ↔
      (∃ e, (t = [⟨.sendRequest request, .error e⟩] ∨
        t = [⟨.sendRequest request, .ok ()⟩, ⟨.recvResponse, .error e⟩]) ∧ r = -1 ∧
        c' = { c with errno := e }) ∨
      ∃ response u, t = ⟨.sendRequest request, .ok ()⟩ :: ⟨.recvResponse, .ok response⟩ :: u ∧
        (k response).Runs c u r c' := by
  rw [exchange, runs_checked (puts_sendRequest request)]
  simp only [runs_checked puts_recvResponse]
  constructor
  · rintro (⟨e, ht, hr, hc⟩ | ⟨_, u, rfl, ⟨e, rfl, hr, hc⟩ | ⟨response, v, rfl, h⟩⟩)
    · exact .inl ⟨e, .inl ht, hr, hc⟩
    · exact .inl ⟨e, .inr rfl, hr, hc⟩
    · exact .inr ⟨response, v, rfl, h⟩
  · rintro (⟨e, ht | rfl, hr, hc⟩ | ⟨response, v, rfl, h⟩)
    · exact .inl ⟨e, ht, hr, hc⟩
    · exact .inr ⟨(), _, rfl, .inl ⟨e, rfl, hr, hc⟩⟩
    · exact .inr ⟨(), _, rfl, .inr ⟨response, v, rfl, h⟩⟩

/-! None of the parts writes `socket_fd`. -/

theorem keeps_failWith (e : Errno) : (failWith e).Keeps Client.socketFd := by
  have hset : (setErrno e).Keeps Client.socketFd := keeps_modify fun _ => rfl
  exact hset.bind fun _ => keeps_pure

theorem keeps_checked {α : Type} {x : ClientM (Except Errno α)} {k : α → ClientM Int}
    (hx : x.Keeps Client.socketFd) (hk : ∀ a, (k a).Keeps Client.socketFd) :
    (checked x k).Keeps Client.socketFd := by
  refine hx.bind fun a => ?_
  cases a with
  | error e => exact keeps_failWith e
  | ok a => exact hk a

theorem keeps_exchange {request : Request} {k : Response → ClientM Int}
    (hk : ∀ a, (k a).Keeps Client.socketFd) : (exchange request k).Keeps Client.socketFd :=
  keeps_checked (keeps_question _) fun _ => keeps_checked (keeps_question _) hk

theorem keeps_closeFile (pathname : Option Path) : (closeFile pathname).Keeps Client.socketFd := by
  unfold closeFile Realpath.closeFile onFile
  cases pathname with
  | none => exact keeps_failWith _
  | some p =>
    refine keeps_get.bind fun c => (keeps_failWith _).ite ?_
    refine keeps_exchange fun response => Keeps.ite ?_ (keeps_failWith _)
    exact (keeps_question _).bind fun _ => keeps_pure

/-! Most of the parts do not use the connection. -/

theorem asks_failWith (e : Errno) : (failWith e).Asks Question.isLocal := fun _ => trivial

theorem asks_openedList : openedList.Asks Question.isLocal := by
  refine Asks.get fun c => ?_
  cases c.openedFiles with
  | live l => trivial
  | null => trivial
  | freed => trivial

theorem asks_insertOpened (p : Path) : (insertOpened p).Asks Question.isLocal := by
  refine Asks.get fun c => ?_
  cases c.openedFiles with
  | null => exact fun _ => trivial
  | freed => trivial
  | live l => exact ⟨trivial, fun b => Asks.ite (fun _ => trivial) fun _ => trivial⟩

theorem asks_removeOpened (elem : Option Path) : (removeOpened elem).Asks Question.isLocal := by
  refine asks_openedList.bind fun l => ?_
  cases elem with
  | none => exact Asks.ite (fun _ => trivial) trivial
  | some p => exact Asks.ite (fun _ => trivial) fun _ => trivial

end

end Api

namespace Realpath

open Api

theorem asks_listFind (elem : Option Path) : (listFind elem).Asks Question.isLocal := by
  refine asks_openedList.bind fun l => ?_
  cases elem with
  | none => exact Asks.ite (fun _ => trivial) trivial
  | some p => exact Asks.ite trivial fun _ => trivial

theorem asks_howMany (body : Bytes) : (howMany body).Asks Question.isLocal := by
  unfold howMany
  refine Asks.ite trivial ?_
  cases readInt body with
  | none => exact ⟨trivial, fun _ => trivial⟩
  | some n => trivial

theorem asks_writeFileInDirectory (dirname : Option Path) :
    (writeFileInDirectory dirname).Asks Question.isLocal := by
  cases dirname with
  | none => trivial
  | some dirname => exact ⟨trivial, fun b => Asks.ite (x := (return () : ClientM Unit)) trivial trivial⟩

theorem asks_removeReceived (file : Response) : (removeReceived file).Asks Question.isLocal := by
  unfold removeReceived
  match file.path with
  | some none => exact asks_removeOpened none
  | some (some p) => exact (asks_removeOpened (some p)).bind fun _ => ⟨trivial, fun _ => trivial⟩
  | none =>
    refine asks_openedList.bind fun l => ⟨trivial, fun index => ?_⟩
    exact Asks.ite (fun _ => ⟨trivial, fun _ => trivial⟩) fun _ => trivial

theorem asks_makeDirectory (dirname : Option Path) :
    (makeDirectory dirname).Asks Question.isLocal := by
  cases dirname with
  | none => trivial
  | some dirname => exact ⟨trivial, fun _ => trivial⟩

end Realpath

/-! ### Sequences of calls -/

/-- A call that has returned. -/
structure CallRecord (κ : Type) where
  call : κ
  before : Client
  trace : List Exchange
  result : Int
  after : Client

/-- Calls one after the other. -/
inductive CallRun {κ : Type} (prog : κ → ClientM Int) :
    Client → List (CallRecord κ) → Client → Prop where
  | nil {c : Client} : CallRun prog c [] c
  | cons {c c' c'' : Client} {call : κ} {t : List Exchange} {r : Int} {l : List (CallRecord κ)}
      (hr : (prog call).Runs c t r c') (h : CallRun prog c' l c'') :
      CallRun prog c (⟨call, c, t, r, c'⟩ :: l) c''

end FileStorage
