import FileStorage.Storage

/-! The request handlers of `server/worker.c`. Each takes the client's descriptor and the
request; the early returns of the source are the branches that end in a status. -/

namespace FileStorage

open Prog

/-- The path of a request as a C string, which may be the NULL pointer; the outer `none` is a
buffer without a NUL. -/
def Request.path (request : Request) : Option (Option Path) :=
  if request.filePath = [] then some none
  else if 0 ∈ request.filePath then some (some (request.filePath.takeWhile fun b => b ≠ 0))
  else none

theorem Request.path_stringBytes {p : Path} (hp : 0 ∉ p) (type : RequestCode) (body : Bytes) :
    (Request.mk type (stringBytes p) body).path = some (some p) := by
  have htake : (p ++ [0]).takeWhile (fun b => b ≠ 0) = p := by
    rw [List.takeWhile_append_of_pos]
    · simp
    · intro b hb
      exact decide_eq_true fun h => hp (h ▸ hb)
  simp [Request.path, stringBytes] at htake ⊢
  exact htake

/-- Reading a path that is not terminated runs past its buffer. -/
def requestPath (request : Request) : ServerM (Option Path) :=
  match request.path with
  | none => crash
  | some path => return path

def sendResponse (connFd : Int) (status : ResponseCode) (filePath body : Bytes) : ServerM Bool :=
  if connFd < 0 then return false else sendMsg (connFd, ⟨status, filePath, body⟩)

/-! `open_file_handler` enters the critical section once for each flag of the request. A part
that returns a status ends the request with it. -/

/-- The section for `O_CREATE`, with its call of `storage_create_file`. -/
def openFileCreateBy (create : ServerM (Option FileId)) (path : Option Path) :
    ServerM (Option ResponseCode) := do
  lockReturn
  match ← storageGetFile path with
  | some _ => do
    unlockReturn
    return some .fileExists
  | none => do
    match ← create with
    | none => do
      unlockReturn
      return some .internalError
    | some newFile => do
      let s ← read (fun _ => [.readNoOfFiles]) id
      if s.noOfFiles + 1 > s.maxFiles then do
        match ← queueRemoveHead with
        | none => do
          unlockReturn
          return some .internalError
        | some toRemovePath => do
          let _ ← storageRemoveFile toRemovePath.path
          let _ ← storageAddFile newFile
          unlockReturn
          return none
      else do
        let _ ← storageAddFile newFile
        unlockReturn
        return none

def openFileCreate (path : Option Path) : ServerM (Option ResponseCode) :=
  openFileCreateBy (storageCreateFile path) path

def openFileLock (clientFd : Int) (path : Option Path) : ServerM (Option ResponseCode) := do
  lockReturn
  match ← storageGetFile path with
  | none => do
    unlockReturn
    return some .notFound
  | some file => do
    let f ← load file [.flags, .lockedBy]
    if chkFlag f.flags oLock = true ∧ f.lockedBy = clientFd then do
      unlockReturn
      return some .unauthorized
    else do
      store file [.lockedBy] fun f => { f with lockedBy := clientFd }
      store file [.flags] fun f => { f with flags := setFlag f.flags oLock }
      let _ ← storageUpdateFile file
      unlockReturn
      return none

def openFileNoflag (path : Option Path) : ServerM (Option ResponseCode) := do
  lockReturn
  match ← storageGetFile path with
  | none => do
    unlockReturn
    return some .notFound
  | some _ => do
    unlockReturn
    return none

/-- Run a part of `open_file_handler` when its flag is set, and go on when it does not return. -/
def openFilePart (flag : Bool) (part : ServerM (Option ResponseCode))
    (rest : ServerM ResponseCode) : ServerM ResponseCode :=
  if flag then do
    match ← part with
    | some status => return status
    | none => rest
  else rest

/-- `open_file_handler` with its section for `O_CREATE`. -/
def openFileHandlerBy (create : Option Path → ServerM (Option ResponseCode)) (clientFd : Int)
    (request : Request) : ServerM ResponseCode := do
  let path ← requestPath request
  match readInt request.body with
  | none => crash
  | some flags =>
    openFilePart (chkFlag flags oCreate) (create path) <|
      openFilePart (chkFlag flags oLock) (openFileLock clientFd path) <|
        openFilePart (chkFlag flags oNoflag) (openFileNoflag path) (return .success)

def openFileHandler (clientFd : Int) (request : Request) : ServerM ResponseCode :=
  openFileHandlerBy openFileCreate clientFd request

def closeFileHandler (clientFd : Int) (request : Request) : ServerM ResponseCode := do
  let path ← requestPath request
  lockReturn
  match ← storageGetFile path with
  | none => do
    unlockReturn
    return .notFound
  | some file => do
    let f ← load file [.flags, .lockedBy]
    if chkFlag f.flags oLock = true ∧ f.lockedBy = clientFd then do
      store file [.flags] fun f => { f with flags := clrFlag f.flags oLock }
      store file [.lockedBy] fun f => { f with lockedBy := -1 }
      let _ ← storageUpdateFile file
      unlockReturn
      return .success
    else do
      unlockReturn
      return .success

def sendExpelled (clientFd : Int) : List File → ServerM Unit
  | [] => return ()
  | toSend :: rest => do
    let _ ← sendResponse clientFd .filesExpelled (stringBytes toSend.path)
      ((toSend.contents.getD []).take toSend.size)
    sendExpelled clientFd rest

def writeFileUpdate (file : FileId) (body : Bytes) : ServerM ResponseCode := do
  store file [.flags] fun f => { f with flags := clrFlag f.flags oCreate }
  store file [.size] fun f => { f with size := body.length }
  if ← alloc then do
    store file [.contents] fun f => { f with contents := some body }
    let _ ← storageUpdateFile file
    let _ ← queueInsertTail file
    growBy body.length
    unlockReturn
    return .success
  else crash

/-- The part of `write_file_handler` for a body within `max_size`. -/
def writeFileFitting (clientFd : Int) (file : FileId) (body : Bytes) :
    ServerM (ResponseCode × List File) := do
  let f ← load file [.flags]
  if chkFlag f.flags oCreate = false then do
    unlockReturn
    return (.fileExists, [])
  else do
    let s ← read (fun _ => [.readCurrentSize]) id
    if sizeAdd s.currentSize body.length > s.maxSize then do
      let (howMany, expelled) ← storageFIFOReplace body.length
      if howMany ≠ expelled.length then do
        unlockReturn
        return (.internalError, expelled)
      else if ← sendResponse clientFd .filesExpelled [] (intBytes howMany) then do
        sendExpelled clientFd expelled
        let status ← writeFileUpdate file body
        return (status, [])
      else do
        unlockReturn
        return (.internalError, expelled)
    else do
      let status ← writeFileUpdate file body
      return (status, [])

/-- `write_file_handler` with what it leaves in `expelled_files`. -/
def writeFileHandler (clientFd : Int) (request : Request) :
    ServerM (ResponseCode × List File) := do
  let path ← requestPath request
  if request.body = [] then return (.badRequest, [])
  else do
    lockReturn
    match ← storageGetFile path with
    | none => do
      unlockReturn
      return (.notFound, [])
    | some file => do
      let f ← load file [.lockedBy]
      if f.lockedBy ≠ clientFd then do
        unlockReturn
        return (.unauthorized, [])
      else do
        let s ← read (fun _ => []) id
        if request.body.length > s.maxSize then do
          unlockReturn
          let _ ← storageRemoveFile (path.getD [])
          return (.fileTooBig, [])
        else writeFileFitting clientFd file request.body

/-- `realloc` to `n` bytes. The bytes beyond the old block are indeterminate; 0 stands for
them. -/
def reallocBytes (block : Option Bytes) (n : Nat) : Bytes :=
  let old := block.getD []
  old.take n ++ List.replicate (n - old.length) 0

/-- `memcpy` of `src` to the offset `n` of a block. -/
def overwrite (block : Bytes) (n : Nat) (src : Bytes) : Bytes :=
  block.take n ++ src ++ block.drop (n + src.length)

def appendToFileHandler (clientFd : Int) (request : Request) : ServerM ResponseCode := do
  let path ← requestPath request
  if request.body = [] then return .badRequest
  else do
    let s ← read (fun _ => []) id
    if request.body.length > s.maxSize then return .fileTooBig
    else do
      lockReturn
      match ← storageGetFile path with
      | none => do
        unlockReturn
        return .notFound
      | some file => do
        let f ← load file [.lockedBy]
        if f.lockedBy ≠ clientFd then do
          unlockReturn
          return .unauthorized
        else do
          let f ← load file [.size]
          let newSize := sizeAdd f.size request.body.length
          if ← alloc then do
            store file [.contents] fun f => { f with
              contents := some (overwrite (reallocBytes f.contents newSize) f.size request.body) }
            store file [.size] fun f => { f with size := newSize }
            let _ ← storageUpdateFile file
            growBy request.body.length
            unlockReturn
            return .success
          else do
            store file [.contents] fun f => { f with contents := none }
            unlockReturn
            return .internalError

/-- `read_file_handler` with the buffer it fills. -/
def readFileHandler (request : Request) : ServerM (ResponseCode × Option Bytes) := do
  let path ← requestPath request
  lockReturn
  match ← storageGetFile path with
  | none => return (.notFound, none)
  | some file => do
    let f ← load file [.size]
    if ← alloc then do
      let g ← load file [.contents]
      match copyBytes true g.contents f.size with
      | none => crash
      | some buffer => do
        unlockReturn
        return (.success, buffer)
    else return (.internalError, none)

/-- The loop of `read_n_files_handler` over the queue: whether a path is missing from the
table, and what is in `files_list` by then. -/
def collectFiles : Nat → List PathPtr → ServerM (Bool × List FileId)
  | 0, _ => return (true, [])
  | _, [] => return (true, [])
  | n + 1, iter :: rest => do
    match ← storageGetFile (some iter.path) with
    | none => return (false, [])
    | some file => do
      let linked ← alloc
      let (found, files) ← collectFiles n rest
      return (found, if linked then file :: files else files)

def sendFiles (clientFd : Int) : List FileId → ServerM Unit
  | [] => return ()
  | toSend :: rest => do
    let f ← load toSend [.path, .size, .contents]
    let _ ← sendResponse clientFd .success (stringBytes f.path)
      ((f.contents.getD []).take f.size)
    sendFiles clientFd rest

/-- The `how_many` of `read_n_files_handler` after its cap, which is the byte quota of the
storage narrowed to `int`. -/
def readNCap (maxSize : Nat) (howMany : Int) : Nat :=
  if howMany ≤ 0 ∨ howMany > maxSize then (toInt maxSize).toNat else howMany.toNat

/-- `read_n_files_handler` with what it leaves in `files_list`. -/
def readNFilesHandler (clientFd : Int) (request : Request) :
    ServerM (ResponseCode × List FileId) := do
  match readInt request.body with
  | none => crash
  | some howMany => do
    let s ← read (fun _ => []) id
    lockReturn
    let s' ← read (fun _ => [.readQueue]) id
    let (found, files) ← collectFiles (readNCap s.maxSize howMany.toInt) s'.fifoQueue
    unlockReturn
    if found then do
      let _ ← sendResponse clientFd .success [] (intBytes files.length)
      sendFiles clientFd files
      return (.success, [])
    else return (.internalError, files)

def removeFileHandler (clientFd : Int) (request : Request) : ServerM ResponseCode := do
  let path ← requestPath request
  lockReturn
  match ← storageGetFile path with
  | none => do
    unlockReturn
    return .notFound
  | some toRemove => do
    let f ← load toRemove [.flags, .lockedBy]
    if chkFlag f.flags oLock = false ∨ f.lockedBy ≠ clientFd then do
      unlockReturn
      return .unauthorized
    else do
      let _ ← storageRemoveFile (path.getD [])
      unlockReturn
      return .success

def lockFileHandler (clientFd : Int) (request : Request) : ServerM ResponseCode := do
  let path ← requestPath request
  lockReturn
  match ← storageGetFile path with
  | none => do
    unlockReturn
    return .notFound
  | some file => do
    let f ← load file [.flags]
    if chkFlag f.flags oLock = false then do
      store file [.flags] fun f => { f with flags := setFlag f.flags oLock }
      store file [.lockedBy] fun f => { f with lockedBy := clientFd }
      let _ ← storageUpdateFile file
      unlockReturn
      return .success
    else do
      let f ← load file [.lockedBy]
      if f.lockedBy = clientFd then do
        unlockReturn
        return .success
      else if ← alloc then do
        let f ← load file [.waitingOnLock]
        match f.waitingOnLock with
        | none => return .internalError
        | some _ =>
          if ← alloc then do
            store file [.waitingOnLock] fun f => { f with
              waitingOnLock := f.waitingOnLock.map (· ++ [clientFd]) }
            let _ ← storageUpdateFile file
            unlockReturn
            return .awaiting
          else return .internalError
      else crash

def unlockFileHandler (clientFd : Int) (request : Request) : ServerM ResponseCode := do
  let path ← requestPath request
  lockReturn
  match ← storageGetFile path with
  | none => do
    unlockReturn
    return .notFound
  | some file => do
    let f ← load file [.flags]
    if chkFlag f.flags oLock = false then do
      unlockReturn
      return .badRequest
    else do
      let f ← load file [.lockedBy]
      if f.lockedBy = clientFd then do
        store file [.flags] fun f => { f with flags := clrFlag f.flags oLock }
        store file [.lockedBy] fun f => { f with lockedBy := -1 }
        let _ ← storageUpdateFile file
        unlockReturn
        return .success
      else do
        unlockReturn
        return .unauthorized

/-! ### The lock manager -/

def lockManagerGrant (file : FileId) (f : File) : ServerM Unit :=
  match f.waitingOnLock with
  | some (clientFd :: waiting) =>
    whenever (chkFlag f.flags oLock = false) do
      store file [.waitingOnLock] fun f => { f with waitingOnLock := some waiting }
      store file [.flags] fun f => { f with flags := setFlag f.flags oLock }
      store file [.lockedBy] fun f => { f with lockedBy := clientFd }
      let _ ← storageUpdateFile file
      let _ ← sendResponse clientFd .success (stringBytes f.path) []
      return ()
  | _ => return ()

/-- The inner loop of `lock_manager_thread`; it leaves the walk at a path that is missing from
the table. -/
def lockManagerVisit : List PathPtr → ServerM Unit
  | [] => return ()
  | curr :: rest => do
    match ← storageGetFile (some curr.path) with
    | none => return ()
    | some file => do
      let f ← load file [.path, .flags, .waitingOnLock]
      lockManagerGrant file f
      lockManagerVisit rest

/-- One round of the outer loop of `lock_manager_thread`. -/
def lockManagerPass : ServerM Unit := do
  lockReturn
  let s ← read (fun _ => [.readQueue]) id
  lockManagerVisit s.fifoQueue
  unlockReturn

end FileStorage
