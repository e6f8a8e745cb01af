import FileStorage.Instructions
import FileStorage.Serializing

/-! The server whose threads are interrupted at any instruction. The handlers use the storage under
its mutex, so that whole sections one after the other are all that can be seen of them. -/

namespace FileStorage

open Machine Prog

/-! ### Nothing changes the byte quota -/

/-- `max_size` is `n`. -/
def Storage.Quota (n : Nat) (s : Storage) : Prop := s.maxSize = n

section Quota

variable {n : Nat} {fd : Int}

theorem preserves_alloc {α : Type} {g : Bool → ServerM α} (hg : ∀ b, (g b).preserves (Storage.Quota n)) :
    (alloc.bind g).preserves (Storage.Quota n) := hg

theorem preserves_filesInsert (i : FileId) : (filesInsert i).preserves (Storage.Quota n) := by
  refine (readOnly_load i _).preserves.bind fun file =>
    (readOnly_storageGetFile _).preserves.bind fun r => ?_
  cases r with
  | some j => exact preserves_update (fun s hs => hs) fun _ => trivial
  | none =>
    refine preserves_alloc fun b => .ite ?_ trivial
    exact preserves_update (fun s hs => hs) fun _ => trivial

theorem preserves_storageAddFile (i : FileId) : (storageAddFile i).preserves (Storage.Quota n) := by
  refine (preserves_filesInsert i).bind fun b => .ite ?_ trivial
  exact preserves_update (fun s hs => hs) fun _ => trivial

theorem preserves_storageCreateFile (p : Option Path) :
    (storageCreateFile p).preserves (Storage.Quota n) := by
  refine preserves_alloc fun b => .ite ?_ trivial
  cases p with
  | none => trivial
  | some p =>
    refine .ite (preserves_alloc fun list => ⟨fun s hs => ?_, fun _ => trivial⟩) trivial
    exact hs

theorem preserves_filesRemove (p : Path) : (filesRemove p).preserves (Storage.Quota n) := by
  refine (readOnly_storageGetFile _).preserves.bind fun r => ?_
  cases r with
  | none => trivial
  | some i =>
    refine preserves_update (fun s hs => hs) fun _ => preserves.bind ?_ fun _ => trivial
    exact (readOnly_load i _).preserves.bind fun f => .ite trivial (preserves_modify fun s hs => hs)

theorem preserves_queueRemoveElement (p : Path) :
    (queueRemoveElement p).preserves (Storage.Quota n) := by
  refine ⟨fun s hs => ?_, fun _ => trivial⟩
  show (s.unqueue p).maxSize = n
  unfold Storage.unqueue
  cases s.queued p with
  | none => exact hs
  | some q => exact hs

theorem preserves_queueRemoveHead : queueRemoveHead.preserves (Storage.Quota n) :=
  ⟨fun _ hs => hs, fun _ => trivial⟩

theorem preserves_queueInsertTail (i : FileId) : (queueInsertTail i).preserves (Storage.Quota n) := by
  refine (readOnly_load i _).preserves.bind fun file => preserves_alloc fun b => .ite ?_ trivial
  exact preserves_update (fun s hs => hs) fun _ => trivial

theorem preserves_storageRemoveFile (p : Path) :
    (storageRemoveFile p).preserves (Storage.Quota n) := by
  refine (readOnly_storageGetFile _).preserves.bind fun r => ?_
  cases r with
  | none => trivial
  | some i =>
    refine preserves_update (fun s hs => hs) fun _ => ?_
    refine preserves_update (fun s hs => hs) fun _ => ?_
    exact (preserves_queueRemoveElement p).bind fun b => .ite (preserves_filesRemove p) trivial

theorem preserves_fifoReplaceLoop (m fuel : Nat) :
    (fifoReplaceLoop m fuel).preserves (Storage.Quota n) := by
  induction fuel with
  | zero => trivial
  | succ fuel ih =>
    refine preserves.bind (readOnly.preserves ⟨rfl, fun _ => trivial⟩) fun s => .ite ?_ trivial
    refine preserves_queueRemoveHead.bind fun q => (readOnly_storageGetFile _).preserves.bind fun r => ?_
    cases r with
    | none => trivial
    | some i =>
      refine preserves_alloc fun copy => .ite ?_ trivial
      refine (readOnly_load i _).preserves.bind fun file => preserves_alloc fun block => ?_
      refine (readOnly_load i _).preserves.bind fun file' => ?_
      split
      · trivial
      · refine preserves_update (fun s hs => hs) fun _ => preserves_update (fun s hs => hs) fun _ => ?_
        refine (preserves_filesRemove _).bind fun _ => preserves_alloc fun linked => ?_
        exact ih.bind fun r => trivial

theorem preserves_sendExpelled (expelled : List File) :
    (sendExpelled fd expelled).preserves (Storage.Quota n) := by
  induction expelled with
  | nil => trivial
  | cons f expelled ih => exact (readOnly_sendResponse _ _ _ _).preserves.bind fun _ => ih

theorem preserves_lockManagerGrant (i : FileId) (f : File) :
    (lockManagerGrant i f).preserves (Storage.Quota n) := by
  unfold lockManagerGrant
  split
  · refine .ite ?_ trivial
    refine preserves_update (fun s hs => hs) fun _ => preserves_update (fun s hs => hs) fun _ => ?_
    refine preserves_update (fun s hs => hs) fun _ => (preserves_filesInsert _).bind fun _ => ?_
    exact (readOnly_sendResponse _ _ _ _).preserves.bind fun _ => trivial
  · trivial

theorem preserves_lockManagerVisit (queue : List PathPtr) :
    (lockManagerVisit queue).preserves (Storage.Quota n) := by
  induction queue with
  | nil => trivial
  | cons q queue ih =>
    refine (readOnly_storageGetFile _).preserves.bind fun r => ?_
    cases r with
    | none => trivial
    | some i =>
      refine (readOnly_load i _).preserves.bind fun f => ?_
      exact (preserves_lockManagerGrant i f).bind fun _ => ih

theorem preserves_closeFileHandler (req : Request) :
    (closeFileHandler fd req).preserves (Storage.Quota n) := by
  refine (readOnly_requestPath req).preserves.bind fun path => ?_
  refine (readOnly_storageGetFile path).preserves.bind fun r => ?_
  cases r with
  | none => trivial
  | some i =>
    refine (readOnly_load i _).preserves.bind fun f => .ite ?_ trivial
    refine preserves_update (fun s hs => hs) fun _ => preserves_update (fun s hs => hs) fun _ => ?_
    exact (preserves_filesInsert i).bind fun _ => trivial

theorem preserves_unlockFileHandler (req : Request) :
    (unlockFileHandler fd req).preserves (Storage.Quota n) := by
  refine (readOnly_requestPath req).preserves.bind fun path => ?_
  refine (readOnly_storageGetFile path).preserves.bind fun r => ?_
  cases r with
  | none => trivial
  | some i =>
    refine (readOnly_load i _).preserves.bind fun f => .ite trivial ?_
    refine (readOnly_load i _).preserves.bind fun f => .ite ?_ trivial
    refine preserves_update (fun s hs => hs) fun _ => preserves_update (fun s hs => hs) fun _ => ?_
    exact (preserves_filesInsert i).bind fun _ => trivial

theorem preserves_removeFileHandler (req : Request) :
    (removeFileHandler fd req).preserves (Storage.Quota n) := by
  refine (readOnly_requestPath req).preserves.bind fun path => ?_
  refine (readOnly_storageGetFile path).preserves.bind fun r => ?_
  cases r with
  | none => trivial
  | some i =>
    refine (readOnly_load i _).preserves.bind fun f => .ite trivial ?_
    exact (preserves_storageRemoveFile _).bind fun _ => trivial

theorem preserves_lockFileHandler (req : Request) :
    (lockFileHandler fd req).preserves (Storage.Quota n) := by
  refine (readOnly_requestPath req).preserves.bind fun path => ?_
  refine (readOnly_storageGetFile path).preserves.bind fun r => ?_
  cases r with
  | none => trivial
  | some i =>
    refine (readOnly_load i _).preserves.bind fun f => .ite ?_ ?_
    · refine preserves_update (fun s hs => hs) fun _ => preserves_update (fun s hs => hs) fun _ => ?_
      exact (preserves_filesInsert i).bind fun _ => trivial
    · refine (readOnly_load i _).preserves.bind fun f => .ite trivial ?_
      refine preserves_alloc fun b => .ite ?_ trivial
      refine (readOnly_load i _).preserves.bind fun f => ?_
      cases f.waitingOnLock with
      | none => trivial
      | some _ =>
        refine preserves_alloc fun b => .ite ?_ trivial
        refine preserves_update (fun s hs => hs) fun _ => ?_
        exact (preserves_filesInsert i).bind fun _ => trivial

theorem preserves_appendToFileHandler (req : Request) :
    (appendToFileHandler fd req).preserves (Storage.Quota n) := by
  refine (readOnly_requestPath req).preserves.bind fun path => .ite trivial ?_
  refine preserves.bind (readOnly.preserves ⟨rfl, fun _ => trivial⟩) fun s => .ite trivial ?_
  refine (readOnly_storageGetFile path).preserves.bind fun r => ?_
  cases r with
  | none => trivial
  | some i =>
    refine (readOnly_load i _).preserves.bind fun f => .ite trivial ?_
    refine (readOnly_load i _).preserves.bind fun f => preserves_alloc fun b => .ite ?_ ?_
    · refine preserves_update (fun s hs => hs) fun _ => preserves_update (fun s hs => hs) fun _ => ?_
      refine (preserves_filesInsert i).bind fun _ => ?_
      exact preserves_update (fun s hs => hs) fun _ => trivial
    · exact preserves_update (fun s hs => hs) fun _ => trivial

theorem preserves_writeFileUpdate (i : FileId) (body : Bytes) :
    (writeFileUpdate i body).preserves (Storage.Quota n) := by
  refine preserves_update (fun s hs => hs) fun _ => preserves_update (fun s hs => hs) fun _ => ?_
  refine preserves_alloc fun b => .ite ?_ trivial
  refine preserves_update (fun s hs => hs) fun _ => (preserves_filesInsert i).bind fun _ => ?_
  exact (preserves_queueInsertTail i).bind fun _ => preserves_update (fun s hs => hs) fun _ => trivial

theorem preserves_writeFileHandler (req : Request) :
    (writeFileHandler fd req).preserves (Storage.Quota n) := by
  refine (readOnly_requestPath req).preserves.bind fun path => .ite trivial ?_
  refine (readOnly_storageGetFile path).preserves.bind fun r => ?_
  cases r with
  | none => trivial
  | some i =>
    refine (readOnly_load i _).preserves.bind fun f => .ite trivial ?_
    refine preserves.bind (readOnly.preserves ⟨rfl, fun _ => trivial⟩) fun s => .ite ?_ ?_
    · exact (preserves_storageRemoveFile _).bind fun _ => trivial
    refine (readOnly_load i _).preserves.bind fun f => .ite trivial ?_
    refine preserves.bind (readOnly.preserves ⟨rfl, fun _ => trivial⟩) fun s => .ite ?_ ?_
    · refine preserves.bind ⟨fun s hs => hs, fun s => preserves_fifoReplaceLoop _ _⟩ fun r => .ite trivial ?_
      refine (readOnly_sendResponse _ _ _ _).preserves.bind fun b => .ite ?_ trivial
      refine (preserves_sendExpelled _).bind fun _ => ?_
      exact (preserves_writeFileUpdate i _).bind fun _ => trivial
    · exact (preserves_writeFileUpdate i _).bind fun _ => trivial

theorem preserves_openFileCreate (path : Option Path) :
    (openFileCreate path).preserves (Storage.Quota n) := by
  refine (readOnly_storageGetFile path).preserves.bind fun r => ?_
  cases r with
  | some i => trivial
  | none =>
    refine (preserves_storageCreateFile path).bind fun r => ?_
    cases r with
    | none => trivial
    | some i =>
      refine preserves.bind (readOnly.preserves ⟨rfl, fun _ => trivial⟩) fun s => .ite ?_ ?_
      · refine preserves_queueRemoveHead.bind fun q => ?_
        cases q with
        | none => trivial
        | some q =>
          refine (preserves_storageRemoveFile _).bind fun _ => ?_
          exact (preserves_storageAddFile i).bind fun _ => trivial
      · exact (preserves_storageAddFile i).bind fun _ => trivial

theorem preserves_openFileLock (path : Option Path) :
    (openFileLock fd path).preserves (Storage.Quota n) := by
  refine (readOnly_storageGetFile path).preserves.bind fun r => ?_
  cases r with
  | none => trivial
  | some i =>
    refine (readOnly_load i _).preserves.bind fun f => .ite trivial ?_
    refine preserves_update (fun s hs => hs) fun _ => preserves_update (fun s hs => hs) fun _ => ?_
    exact (preserves_filesInsert i).bind fun _ => trivial

theorem preserves_openFileNoflag (path : Option Path) :
    (openFileNoflag path).preserves (Storage.Quota n) := by
  refine (readOnly_storageGetFile path).preserves.bind fun r => ?_
  cases r with
  | none => trivial
  | some i => trivial

theorem preserves_openPart (path : Option Path) (flag : Flags) :
    (openPart fd path flag).preserves (Storage.Quota n) :=
  .ite (preserves_openFileCreate path)
    (.ite (preserves_openFileLock path) (preserves_openFileNoflag path))

theorem preserves_openRest (path : Option Path) (flags : List Flags) :
    (openRest fd path flags).preserves (Storage.Quota n) := by
  induction flags with
  | nil => trivial
  | cons flag flags ih =>
    refine (preserves_openPart path flag).bind fun r => ?_
    cases r with
    | none => exact ih
    | some status => trivial

end Quota

/-! ### The handlers use the storage under its mutex -/

section Fenced

variable {n : Nat} {fd : Int} {req : Request}

theorem sectional_fenced : Sectional fun _ p held => p.fenced (Storage.Quota n) held where
  crash _ := trivial
  map _ h := h.map
  enter h := fun _ => h
  inside hp h := hp.fenced_bind h
  leave b := fenced_leave b

/-- After a part that ends with a release. -/
theorem closes.fenced_bind {α β : Type} {p : ServerM α} {g : α → ServerM β} {held : Bool}
    (hp : p.closes) (hf : p.fenced (Storage.Quota n) held)
    (hg : ∀ a, (g a).fenced (Storage.Quota n) false) : (p.bind g).fenced (Storage.Quota n) held := by
  induction p generalizing held with
  | ret a => exact hp.elim
  | crash => trivial
  | lock k ih => exact fun hh => ih hp (hf hh)
  | unlock k ih =>
    obtain ⟨a, rfl⟩ := hp
    exact ⟨hf.1, .inl (hg a)⟩
  | access es f k ih =>
    cases held with
    | true => exact fun s hs => ih s (hp s) (hf s hs)
    | false =>
      refine ⟨hf.1, fun s t hs ht => ?_, fun s hs => ih s (hp s) (hf.2.2 s hs)⟩
      simp only [hf.2.1 s t hs ht]
  | choose k ih => exact fun b => ih b (hp b) (hf b)
  | send m k ih => exact fun b => ih b (hp b) (hf b)

theorem fenced_openRest (path : Option Path) (flags : List Flags) :
    (openRest fd path flags).fenced (Storage.Quota n) false := by
  induction flags with
  | nil => trivial
  | cons flag flags ih =>
    have hpart : (openPart fd path flag).fenced (Storage.Quota n) false :=
      .ite (sectional_fenced.openFileCreate path)
        (.ite (sectional_fenced.openFileLock fd path) (sectional_fenced.openFileNoflag path))
    refine closes.fenced_bind (closes_openPart fd path flag) hpart fun r => ?_
    cases r with
    | none => exact ih
    | some status => trivial

theorem fenced_appendToFileHandler : (appendToFileHandler fd req).fenced (Storage.Quota n) false := by
  refine sectional_fenced.requestPath fun path _ => .ite trivial (fenced_parameter ?_ fun s _ => ?_)
  · intro s t hs ht
    simp only [id, show s.maxSize = n from hs, show t.maxSize = n from ht]
  refine .ite trivial fun _ => (plain_storageGetFile path).fenced_bind fun r => ?_
  cases r with
  | none => exact fenced_leave _
  | some i =>
    refine (plain_load i _).fenced_bind fun f => .ite (fenced_leave _) ?_
    refine (plain_load i _).fenced_bind fun f => plain_alloc.fenced_bind fun b => .ite ?_ ?_
    · refine (plain_store i _ _).fenced_bind fun _ => (plain_store i _ _).fenced_bind fun _ => ?_
      refine (plain_storageUpdateFile i).fenced_bind fun _ => ?_
      exact (plain_modify _ _).fenced_bind fun _ => fenced_leave _
    · exact (plain_store i _ _).fenced_bind fun _ => fenced_leave _

theorem fenced_readFileHandler : (readFileHandler req).fenced (Storage.Quota n) false := by
  refine sectional_fenced.requestPath fun path _ _ => (plain_storageGetFile path).fenced_bind fun r => ?_
  cases r with
  | none => trivial
  | some i =>
    refine (plain_load i _).fenced_bind fun f => plain_alloc.fenced_bind fun b => .ite ?_ trivial
    refine (plain_load i _).fenced_bind fun g => ?_
    cases copyBytes true g.contents f.size with
    | none => trivial
    | some buffer => exact fenced_leave _

/-- What it sends of the files it reads after it has released the mutex. -/
theorem fenced_readNFilesHandler : (readNFilesHandler fd req).fenced (Storage.Quota n) false := by
  unfold readNFilesHandler
  cases readInt req.body with
  | none => trivial
  | some m =>
    refine fenced_parameter ?_ fun s _ _ => fenced_read fun s' _ => ?_
    · intro s t hs ht
      simp only [id, show s.maxSize = n from hs, show t.maxSize = n from ht]
    refine (plain_collectFiles _ _).fenced_bind fun r => ?_
    by_cases hr : r.1 = true
    · refine ⟨rfl, .inr ⟨(.success, []), ?_⟩⟩
      simp only [hr, if_true]
      exact (idles_sendResponse _ _ _ _).bind fun _ _ => (idles_sendFiles fd r.2).bind fun _ _ => rfl
    · refine ⟨rfl, .inl ?_⟩
      simp only [hr]
      trivial

theorem fenced_writeFileHandler (h : req.body.length ≤ n) :
    (writeFileHandler fd req).fenced (Storage.Quota n) false := by
  refine sectional_fenced.requestPath fun path _ => .ite trivial fun _ => ?_
  refine (plain_storageGetFile path).fenced_bind fun r => ?_
  cases r with
  | none => exact fenced_leave _
  | some i =>
    refine (plain_load i _).fenced_bind fun f => .ite (fenced_leave _) (fenced_read fun s hs => ?_)
    have hfits : ¬req.body.length > s.maxSize := by
      rw [show s.maxSize = n from hs]
      omega
    rw [id, if_neg hfits]
    exact sectional_fenced.writeFileFitting fd i req.body

end Fenced

/-- A call that is not a write that is too big uses the storage in its sections only. -/
theorem Call.fenced_prog {n : Nat} {c : Call} (hc : c.FitsIn n) :
    c.prog.fenced (Storage.Quota n) false := by
  cases c with
  | lockManager => exact sectional_fenced.lockManagerPass.map
  | request fd req =>
    have hone : ∀ {α : Type} {p : ServerM α} {f : α → Reply}, p.fenced (Storage.Quota n) false →
        ((p.bind fun a => ret (f a)).bind fun reply => ret (some reply)).fenced (Storage.Quota n) false :=
      fun hp => hp.map.map
    by_cases ho : req.type = .openFile
    · cases hp : req.path with
      | none => simp [prog, handle, ho, openFileHandler, openFileHandlerBy, requestPath, hp,
          Prog.bind, fenced]
      | some path =>
        cases hb : readInt req.body with
        | none => simp [prog, handle, ho, openFileHandler, openFileHandlerBy, requestPath, hp,
            hb, Prog.bind, fenced]
        | some flags =>
          rw [prog_openFile ho hp hb]
          exact hone (fenced_openRest path _)
    · simp only [prog, handle, bind_eq, pure_eq]
      cases ht : req.type with
      | openFile => exact absurd ht ho
      | closeFile => exact hone (sectional_fenced.closeFileHandler fd req)
      | writeFile => exact hone (fenced_writeFileHandler (hc ht))
      | appendToFile => exact hone fenced_appendToFileHandler
      | readFile => exact hone fenced_readFileHandler
      | readNFiles => exact hone fenced_readNFilesHandler
      | removeFile => exact hone (sectional_fenced.removeFileHandler fd req)
      | lockFile => exact hone (sectional_fenced.lockFileHandler (fun _ => trivial) fd req)
      | unlockFile => exact hone (sectional_fenced.unlockFileHandler fd req)
      | openConnection => trivial
      | closeConnection => trivial

/-- No instruction of a call changes the byte quota. -/
theorem Call.preserves_prog (n : Nat) (c : Call) : c.prog.preserves (Storage.Quota n) := by
  cases c with
  | lockManager =>
    have hpass : lockManagerPass.preserves (Storage.Quota n) := by
      refine preserves.bind (p := lockReturn) trivial fun _ => ?_
      refine preserves.bind (readOnly.preserves ⟨rfl, fun _ => trivial⟩) fun s => ?_
      exact (preserves_lockManagerVisit _).bind fun _ => trivial
    exact hpass.map
  | request fd req =>
    have hone : ∀ {α : Type} {p : ServerM α} {f : α → Reply}, p.preserves (Storage.Quota n) →
        ((p.bind fun a => ret (f a)).bind fun reply => ret (some reply)).preserves (Storage.Quota n) :=
      fun hp => hp.map.map
    by_cases ho : req.type = .openFile
    · cases hp : req.path with
      | none => simp [prog, handle, ho, openFileHandler, openFileHandlerBy, requestPath, hp,
          Prog.bind, preserves]
      | some path =>
        cases hb : readInt req.body with
        | none => simp [prog, handle, ho, openFileHandler, openFileHandlerBy, requestPath, hp,
            hb, Prog.bind, preserves]
        | some flags =>
          rw [prog_openFile ho hp hb]
          exact hone (preserves_openRest path _)
    · simp only [prog, handle, bind_eq, pure_eq]
      cases ht : req.type with
      | openFile => exact absurd ht ho
      | closeFile => exact hone (preserves_closeFileHandler req)
      | writeFile => exact hone (preserves_writeFileHandler req)
      | appendToFile => exact hone (preserves_appendToFileHandler req)
      | readFile => exact hone (readOnly_readFileHandler req).preserves
      | readNFiles => exact hone (readOnly_readNFilesHandler fd req).preserves
      | removeFile => exact hone (preserves_removeFileHandler req)
      | lockFile => exact hone (preserves_lockFileHandler req)
      | unlockFile => exact hone (preserves_unlockFileHandler req)
      | openConnection => trivial
      | closeConnection => trivial

/-! ### Interruptions -/

namespace CallPool

def tick : CallPool → Tick Call → Option CallPool := Pool.tick Call.prog

/-- The calls that the sections of a run are, in the order in which the sections end. -/
def finished (h : List (CallPool × Tick Call)) : List (Nat × Call) :=
  (h.filterMap fun x => x.1.ended x.2).filterMap fun e => (e.2.1.piece e.2.2).map fun d => (e.1, d)

/-- No call is started that is too big for a storage with this quota. -/
def Admits (maxSize : Nat) : CallPool → Tick Call → Prop
  | _, .start c => c.FitsIn maxSize
  | _, .instr _ _ => True

instance (maxSize : Nat) (s : CallPool) : (a : Tick Call) → Decidable (Admits maxSize s a)
  | .start c => inferInstanceAs (Decidable (c.FitsIn maxSize))
  | .instr _ _ => inferInstanceAs (Decidable True)

section

variable {server : Server} {s c : CallPool} {h : List (CallPool × Tick Call)}
  {k : List (CallPool × Schedule Call)}

theorem serially_of_reaches (hi : server.Initial)
    (hr : Reaches step (fun _ a => ∀ x, a = .start x → x.FitsIn server.storage.maxSize)
      (start server) k c) :
    Reaches step (Serially anyStep) (start server) k c := by
  refine hr.invariant (I := fun k c => Reaches step (Serially anyStep) (start server) k c) .nil ?_
  intro k t a u ht ha hs
  obtain ⟨log, hlog⟩ := reaches_serialization hi ht
  refine .snoc ht ?_ hs
  cases a with
  | start x =>
    rw [Serially, hlog.maxSize]
    exact ha x rfl
  | run i env => exact fun _ _ => trivial

theorem calls_serialized (k : List (CallPool × Schedule Call)) :
    (serialized k).map (fun x => (x.1, x.2.call)) =
      (k.filterMap fun x => x.1.ran x.2).filterMap fun e => (e.2.1.piece e.2.2).map fun d => (e.1, d) := by
  rw [serialized, List.map_filterMap, List.filterMap_filterMap]
  congr 1
  funext x
  obtain ⟨c, a⟩ := x
  cases a with
  | start x => rfl
  | run i env =>
    simp only [takes, Pool.ran]
    cases c.threads[i]? with
    | none => rfl
    | some t =>
      simp only [Option.bind_some, Option.map_some, Option.map_map]
      rfl

end

/-- Threads that are interrupted at any instruction leave the storage, whenever its mutex is free, as the
calls of their sections do one after the other, in the order in which the sections end. -/
theorem preempted {server : Server} {s : CallPool} {h : List (CallPool × Tick Call)} (hi : server.Initial)
    (hr : Reaches tick (Admits server.storage.maxSize) (start server) h s) :
    ∃ (log : List (Nat × Record)) (t : Server), Run anyStep server (log.map Prod.snd) t ∧
      (log.map fun x => (x.1, x.2.step.call)) = finished h ∧ (s.world.held = false → s.server = t) ∧
      ∀ i u r, s.threads[i]? = some u → u.rest.result = some r →
        (repliesTo i log).getLast? = some r ∨ repliesTo i log = [] ∧ u.label.prog = ret r := by
  have hstart : Reaches (Pool.tick Call.prog)
      (fun _ a => ∀ x, a = .start x → x.FitsIn server.storage.maxSize) (start server) h s :=
    hr.mono fun t a ha x hx => by
      subst hx
      exact ha
  have hquota : Storage.Quota server.storage.maxSize server.world.state := rfl
  obtain ⟨k, c, owner, hk, hs, hends⟩ := Pool.exists_follows hquota
    (fun x hx => ⟨Call.fenced_prog hx, Call.preserves_prog _ x⟩) hstart
  obtain ⟨log, hlog⟩ := reaches_serialization hi (serially_of_reaches hi hk)
  refine ⟨log, CallPool.server c, hlog.run, ?_, fun hfree => ?_, fun i u r hu hres => ?_⟩
  · rw [finished, ← hends, ← calls_serialized, ← hlog.steps, List.map_map]
    rfl
  · have hsame := hs.same hfree
    show (⟨s.world.state, s.world.held⟩ : Server) = ⟨c.world.state, c.world.held⟩
    rw [hsame.1, hsame.2]
  · obtain ⟨u', hu', hlabel, hres'⟩ := hs.result hu hres
    rcases (hlog.threads i u' hu').1.reply hres' with hlast | ⟨hnone, hprog⟩
    · exact .inl hlast
    · exact .inr ⟨List.getLast?_eq_none_iff.mp hnone, hlabel ▸ hprog⟩

/-- An append reads the byte quota while an open is in its section, and waits for the mutex. -/
def interruptions : List (Tick Call) :=
  [.start (Step.openFile 5 (slash 'a') 6).call,
    .start (.request 7 ⟨.appendToFile, stringBytes (slash 'a'), [1]⟩)] ++
    List.replicate 3 (.instr 0 true) ++ [.instr 1 true] ++ List.replicate 18 (.instr 0 true) ++
    List.replicate 4 (.instr 1 true)

theorem preempted_append : ∃ (server t : Server) (h : List (CallPool × Tick Call)) (s : CallPool)
    (log : List (Nat × Record)), server.Initial ∧
    Reaches tick (Admits server.storage.maxSize) (start server) h s ∧ h.map Prod.snd = interruptions ∧
    Run anyStep server (log.map Prod.snd) t ∧
    (log.map fun x => (x.1, x.2.step.call)) = finished h ∧ s.server = t := by
  obtain ⟨server, hi, hs⟩ := Server.exists_start 100 4 (fun server : Server =>
    (play tick (Admits server.storage.maxSize) (start server) interruptions).any fun s : CallPool =>
      !s.world.held) (by decide) (by decide)
  obtain ⟨h, s, hr, hm, hl⟩ := exists_run _ _ _ _ _ hs
  obtain ⟨log, t, hrun, hcalls, hfree, -⟩ := preempted hi hr
  exact ⟨server, t, h, s, log, hi, hr, hm, hrun, hcalls, hfree (by simpa using hl)⟩

end CallPool

end FileStorage
