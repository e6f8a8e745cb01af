import FileStorage.HashMap
import FileStorage.Program
import FileStorage.Protocol

/-! The storage of `server/storage.c`. Records of type `file_t` live in a heap and are known by
their address. `released` remembers the records that have been freed. To use or free one of them
again is a fault, of which C does not say what follows: the definitions here go on with the bytes as
they were, and leave a trace of accesses that shows it. Statements for which this matters are about
calls that do no such thing. -/

namespace FileStorage

abbrev FileId := Nat

/-- `file_t`. `contents` and `waitingOnLock` are `none` for the NULL pointer. -/
structure File where
  path : Path
  flags : Flags
  size : Nat
  contents : Option Bytes
  lockedBy : Int
  waitingOnLock : Option (List Int)
  deriving DecidableEq

/-- The address of the `path` field of a record, which is the address of the record. -/
structure PathPtr where
  path : Path
  file : FileId
  deriving DecidableEq

/-- `storage_t`. The keys of `files` lie in the records they lead to. -/
structure Storage where
  maxSize : Nat
  currentSize : Nat
  maxFiles : Int
  noOfFiles : Int
  files : HashMap Path FileId
  fifoQueue : List PathPtr
  heap : FileId → File
  next : FileId
  released : List FileId

inductive Field where
  | path
  | flags
  | size
  | contents
  | lockedBy
  | waitingOnLock
  deriving DecidableEq

/-- An access to the storage. `growSize` and `shrinkSize` write `current_size` and carry its
old value and the amount, `victim` is a path dequeued to make room, `release` frees a record. -/
inductive Access where
  | readFiles
  | writeFiles
  | readQueue
  | writeQueue
  | readCurrentSize
  | growSize (old amount : Nat)
  | shrinkSize (old amount : Nat)
  | readNoOfFiles
  | writeNoOfFiles
  | readField (file : FileId) (f : Field)
  | writeField (file : FileId) (f : Field)
  | victim (path : Path)
  | release (file : FileId)
  deriving DecidableEq

abbrev ServerM := Prog Storage Access (Int × Response)

open Prog

/-- `storage_create`. `max_files` is narrowed to `int`, and so is the doubled number of
buckets. -/
def storageCreate (maxSize maxFiles : Nat) : Option Storage :=
  (hashMapCreate (toInt ((maxFiles * 2 % sizeBound : Nat) : Int))).map fun files =>
    { maxSize := maxSize, currentSize := 0, maxFiles := toInt maxFiles, noOfFiles := 0,
      files := files, fifoQueue := [], heap := fun _ => ⟨[], 0, 0, none, -1, none⟩, next := 0,
      released := [] }

namespace Storage

def get (s : Storage) (p : Path) : Option FileId := hashMapGet stringHash s.files p

def setFile (s : Storage) (i : FileId) (f : File) : Storage :=
  { s with heap := Function.update s.heap i f }

def newFile (s : Storage) (f : File) : Storage :=
  { s with heap := Function.update s.heap s.next f, next := s.next + 1 }

def insertFile (s : Storage) (p : Path) (i : FileId) : Storage :=
  { s with files := hashMapInsert stringHash s.files p i }

def eraseFile (s : Storage) (p : Path) : Storage :=
  { s with files := hashMapRemove stringHash s.files p }

def release (s : Storage) (i : FileId) : Storage := { s with released := s.released ++ [i] }

def addFiles (s : Storage) (n : Int) : Storage := { s with noOfFiles := s.noOfFiles + n }

def grow (s : Storage) (n : Nat) : Storage := { s with currentSize := sizeAdd s.currentSize n }

def shrink (s : Storage) (n : Nat) : Storage := { s with currentSize := sizeSub s.currentSize n }

def enqueue (s : Storage) (q : PathPtr) : Storage := { s with fifoQueue := s.fifoQueue ++ [q] }

def dequeue (s : Storage) : Storage := { s with fifoQueue := s.fifoQueue.tail }

/-- The element at which the walk of `list_remove_element` stops. -/
def queued (s : Storage) (p : Path) : Option PathPtr := s.fifoQueue.find? fun q => q.path = p

/-- `list_remove_element` unlinks the element and frees it, and with it the record, which the table
may still lead to. -/
def unqueue (s : Storage) (p : Path) : Storage :=
  match s.queued p with
  | some q => { s with
      fifoQueue := s.fifoQueue.eraseP fun q => q.path = p, released := s.released ++ [q.file] }
  | none => s

end Storage

def lookupAccesses (fileName : Option Path) (s : Storage) : List Access :=
  match fileName with
  | some p => .readFiles ::
      (walked p (s.files.chain (s.files.slot stringHash p))).map fun e => .readField e.value .path
  | none => [.readFiles]

/-- `storage_get_file`. The hash of the NULL pointer is 0, and comparing it with a key faults. -/
def storageGetFile (fileName : Option Path) : ServerM (Option FileId) :=
  access (lookupAccesses fileName) id fun s =>
    if s.files.nBuckets = 0 then crash
    else match fileName with
      | some p => ret (s.get p)
      | none => if s.files.chain 0 = [] then ret none else crash

def load (i : FileId) (fs : List Field) : ServerM File :=
  read (fun _ => fs.map (.readField i)) fun s => s.heap i

def store (i : FileId) (fs : List Field) (g : File → File) : ServerM Unit :=
  modify (fun _ => fs.map (.writeField i)) fun s => s.setFile i (g (s.heap i))

def File.fresh (path : Path) (list : Bool) : File :=
  ⟨path, setFlag 0 oCreate, 0, none, -1, if list then some [] else none⟩

@[simp] theorem chkFlag_fresh (path : Path) (list : Bool) :
    chkFlag (File.fresh path list).flags oCreate = true := by
  show chkFlag (setFlag 0 oCreate) oCreate = true
  decide

/-- `storage_create_file`. Copying the NULL pointer faults. So does copying a path of `MAX_PATH` bytes
or more, which overruns the record; what the code goes on to do then is left to the statements that
need it. -/
def storageCreateFile (fileName : Option Path) : ServerM (Option FileId) := do
  if ← alloc then
    match fileName with
    | none => crash
    | some p =>
      if p.length < maxPath then do
        let list ← alloc
        access (fun _ => []) (fun s => s.newFile (File.fresh p list)) fun s => ret (some s.next)
      else crash
  else return none

/-- `hash_map_insert(storage->files, file->path, file)`. -/
def filesInsert (i : FileId) : ServerM Bool := do
  let file ← load i [.path]
  match ← storageGetFile (some file.path) with
  | some _ => do
    modify (fun _ => [.writeFiles]) fun s => s.insertFile file.path i
    return true
  | none =>
    if ← alloc then do
      modify (fun _ => [.writeFiles]) fun s => s.insertFile file.path i
      return true
    else return false

def storageAddFile (i : FileId) : ServerM Bool := do
  if ← filesInsert i then do
    modify (fun _ => [.writeNoOfFiles]) fun s => s.addFiles 1
    return true
  else return false

def storageUpdateFile (i : FileId) : ServerM Bool := filesInsert i

/-- `free_file`. Destroying a list that is NULL faults. That the record has not been freed before is
not looked at. -/
def freeFile (i : FileId) : ServerM Unit := do
  let file ← load i [.contents, .waitingOnLock]
  if file.waitingOnLock.isNone then crash
  else modify (fun _ => [.release i]) fun s => s.release i

/-- `hash_map_remove(storage->files, file_name)`. The keys of the bucket lie in the records. -/
def filesRemove (fileName : Path) : ServerM Bool := do
  match ← storageGetFile (some fileName) with
  | none => return false
  | some i => do
    modify (fun _ => [.writeFiles]) fun s => s.eraseFile fileName
    freeFile i
    return true

/-- `list_remove_element(storage->fifo_queue, file_name)`. -/
def queueRemoveElement (fileName : Path) : ServerM Bool :=
  access
    (fun s => .readQueue :: match s.queued fileName with
      | some q => [.writeQueue, .release q.file]
      | none => [])
    (fun s => s.unqueue fileName) fun s => ret (s.queued fileName).isSome

/-- `list_remove_head(storage->fifo_queue)`. -/
def queueRemoveHead : ServerM (Option PathPtr) :=
  access
    (fun s => .readQueue :: match s.fifoQueue with
      | q :: _ => [.writeQueue, .victim q.path]
      | [] => [])
    Storage.dequeue fun s => ret s.fifoQueue.head?

/-- `list_insert_tail(storage->fifo_queue, file->path)`. -/
def queueInsertTail (i : FileId) : ServerM Bool := do
  let file ← load i [.path]
  if ← alloc then do
    modify (fun _ => [.readQueue, .writeQueue]) fun s => s.enqueue ⟨file.path, i⟩
    return true
  else return false

/-- `storage->current_size = storage->current_size - file->size`. -/
def shrinkBy (i : FileId) : ServerM Unit :=
  modify (fun s => [.readField i .size, .shrinkSize s.currentSize (s.heap i).size])
    fun s => s.shrink (s.heap i).size

def growBy (n : Nat) : ServerM Unit :=
  modify (fun s => [.growSize s.currentSize n]) fun s => s.grow n

def dropCount : ServerM Unit := modify (fun _ => [.writeNoOfFiles]) fun s => s.addFiles (-1)

/-- `storage_remove_file`; `false` is the result -1. The element of a path that is queued takes the
record with it, which `hash_map_remove` then compares with and frees. -/
def storageRemoveFile (fileName : Path) : ServerM Bool := do
  match ← storageGetFile (some fileName) with
  | none => return false
  | some toRemove => do
    dropCount
    shrinkBy toRemove
    if ← queueRemoveElement fileName then filesRemove fileName else return false

/-- `memcpy` of `n` bytes into a new block; `none` is a fault. -/
def copyBytes (block : Bool) (src : Option Bytes) (n : Nat) : Option (Option Bytes) :=
  if n = 0 then some (if block then some [] else none)
  else match block, src with
    | true, some b => some (some (b.take n))
    | _, _ => none

/-- The loop of `storage_FIFO_replace`: how many files left, and the copies that were
linked into `replaced_files`. Each round takes one path from the queue, and a round that finds
the queue empty faults, so `fuel` rounds suffice when it exceeds the length of the queue. -/
def fifoReplaceLoop (requiredSize : Nat) : Nat → ServerM (Nat × List File)
  | 0 => crash
  | fuel + 1 => do
    let s ← read (fun _ => [.readCurrentSize]) id
    if sizeAdd s.currentSize requiredSize > s.maxSize then do
      let removedFilePath ← queueRemoveHead
      match ← storageGetFile (removedFilePath.map PathPtr.path) with
      | none => crash
      | some toRemove => do
        let copy ← alloc
        if copy then do
          let file ← load toRemove [.path, .size]
          let block ← alloc
          let file' ← load toRemove [.contents]
          match copyBytes block file'.contents file.size with
          | none => crash
          | some contents => do
            shrinkBy toRemove
            dropCount
            let _ ← filesRemove file.path
            let linked ← alloc
            let (n, copies) ← fifoReplaceLoop requiredSize fuel
            let copied : File := ⟨file.path, 0, file.size, contents, 0, none⟩
            return (n + 1, if linked then copied :: copies else copies)
        else crash
    else return (0, [])

/-- `storage_FIFO_replace`. -/
def storageFIFOReplace (requiredSize : Nat) : ServerM (Nat × List File) :=
  access (fun _ => []) id fun s => fifoReplaceLoop requiredSize (s.fifoQueue.length + 1)

end FileStorage
