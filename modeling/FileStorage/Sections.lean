import FileStorage.Discipline
import FileStorage.Runs

/-! The critical sections of the handlers: which routines leave the mutex alone, and which handlers
take and release it as they should, whatever the storage holds. -/

namespace FileStorage

open Prog

/-! ### Routines without mutex operations -/

theorem plain_load (i : FileId) (fs : List Field) : (load i fs).plain := plain_read _ _

theorem plain_store (i : FileId) (fs : List Field) (g : File → File) : (store i fs g).plain :=
  plain_modify _ _

theorem plain_storageGetFile (p : Option Path) : (storageGetFile p).plain := by
  intro s
  by_cases hn : s.files.nBuckets = 0
  · simpa [hn] using plain_crash
  · cases p with
    | some p => simpa [hn] using plain_ret _
    | none => exact .ite plain_crash (.ite (plain_ret _) plain_crash)

theorem plain_filesInsert (i : FileId) : (filesInsert i).plain := by
  refine (plain_load i _).bind fun file => (plain_storageGetFile _).bind fun r => ?_
  cases r with
  | some j => exact (plain_modify _ _).bind fun _ => plain_ret _
  | none =>
    refine plain_alloc.bind fun b => .ite ?_ (plain_ret _)
    exact (plain_modify _ _).bind fun _ => plain_ret _

theorem plain_storageUpdateFile (i : FileId) : (storageUpdateFile i).plain := plain_filesInsert i

theorem plain_storageAddFile (i : FileId) : (storageAddFile i).plain := by
  refine (plain_filesInsert i).bind fun b => .ite ?_ (plain_ret _)
  exact (plain_modify _ _).bind fun _ => plain_ret _

theorem plain_storageCreateFile (p : Option Path) : (storageCreateFile p).plain := by
  refine plain_alloc.bind fun b => .ite ?_ (plain_ret _)
  cases p with
  | none => exact plain_crash
  | some p => exact .ite (plain_alloc.bind fun _ _ => plain_ret _) plain_crash

theorem plain_filesRemove (p : Path) : (filesRemove p).plain := by
  refine (plain_storageGetFile _).bind fun r => ?_
  cases r with
  | none => exact plain_ret _
  | some i =>
    refine (plain_modify _ _).bind fun _ => Prog.plain.bind ?_ fun _ => plain_ret _
    exact (plain_load i _).bind fun file => .ite plain_crash (plain_modify _ _)

theorem plain_queueRemoveElement (p : Path) : (queueRemoveElement p).plain := fun _ => plain_ret _

theorem plain_queueRemoveHead : queueRemoveHead.plain := fun _ => plain_ret _

theorem plain_queueInsertTail (i : FileId) : (queueInsertTail i).plain := by
  refine (plain_load i _).bind fun file => plain_alloc.bind fun b => .ite ?_ (plain_ret _)
  exact (plain_modify _ _).bind fun _ => plain_ret _

theorem plain_storageRemoveFile (p : Path) : (storageRemoveFile p).plain := by
  refine (plain_storageGetFile _).bind fun r => ?_
  cases r with
  | none => exact plain_ret _
  | some i =>
    refine (plain_modify _ _).bind fun _ => (plain_modify _ _).bind fun _ => ?_
    exact (plain_queueRemoveElement p).bind fun b => .ite (plain_filesRemove p) (plain_ret _)

theorem plain_fifoReplaceLoop (n fuel : Nat) : (fifoReplaceLoop n fuel).plain := by
  induction fuel with
  | zero => exact plain_crash
  | succ fuel ih =>
    refine (plain_read _ _).bind fun s => .ite ?_ (plain_ret _)
    refine plain_queueRemoveHead.bind fun q => (plain_storageGetFile _).bind fun r => ?_
    cases r with
    | none => exact plain_crash
    | some i =>
      refine plain_alloc.bind fun copy => .ite ?_ plain_crash
      refine (plain_load i _).bind fun file => plain_alloc.bind fun block => ?_
      refine (plain_load i _).bind fun file' => ?_
      split
      · exact plain_crash
      · refine (plain_modify _ _).bind fun _ => (plain_modify _ _).bind fun _ => ?_
        refine (plain_filesRemove _).bind fun _ => plain_alloc.bind fun linked => ?_
        exact ih.bind fun r => plain_ret _

theorem plain_storageFIFOReplace (n : Nat) : (storageFIFOReplace n).plain :=
  fun s => plain_fifoReplaceLoop n (s.fifoQueue.length + 1)

theorem plain_sendResponse (fd : Int) (status : ResponseCode) (filePath body : Bytes) :
    (sendResponse fd status filePath body).plain :=
  .ite (plain_ret _) (plain_sendMsg _)

theorem plain_sendExpelled (fd : Int) (expelled : List File) : (sendExpelled fd expelled).plain := by
  induction expelled with
  | nil => exact plain_ret _
  | cons f expelled ih => exact (plain_sendResponse _ _ _ _).bind fun _ => ih

theorem plain_collectFiles (n : Nat) (queue : List PathPtr) : (collectFiles n queue).plain := by
  induction queue generalizing n with
  | nil => cases n <;> exact plain_ret _
  | cons q queue ih =>
    cases n with
    | zero => exact plain_ret _
    | succ n =>
      refine (plain_storageGetFile _).bind fun r => ?_
      cases r with
      | none => exact plain_ret _
      | some i => exact plain_alloc.bind fun _ => (ih n).bind fun _ => plain_ret _

theorem plain_sendFiles (fd : Int) (files : List FileId) : (sendFiles fd files).plain := by
  induction files with
  | nil => exact plain_ret _
  | cons i files ih =>
    exact (plain_load i _).bind fun f => (plain_sendResponse _ _ _ _).bind fun _ => ih

theorem plain_lockManagerGrant (i : FileId) (f : File) : (lockManagerGrant i f).plain := by
  unfold lockManagerGrant
  split
  · refine .ite ?_ (plain_ret _)
    refine (plain_store _ _ _).bind fun _ => (plain_store _ _ _).bind fun _ => ?_
    refine (plain_store _ _ _).bind fun _ => (plain_storageUpdateFile _).bind fun _ => ?_
    exact (plain_sendResponse _ _ _ _).bind fun _ => plain_ret _
  · exact plain_ret _

theorem plain_lockManagerVisit (queue : List PathPtr) : (lockManagerVisit queue).plain := by
  induction queue with
  | nil => exact plain_ret _
  | cons q queue ih =>
    refine (plain_storageGetFile _).bind fun r => ?_
    cases r with
    | none => exact plain_ret _
    | some i => exact (plain_load i _).bind fun f => (plain_lockManagerGrant i f).bind fun _ => ih

/-! ### Handlers -/

/-- A judgement of programs that start with the mutex in a given state, which goes by where they
enter and leave the critical section. -/
structure Sectional (P : (β : Type) → ServerM β → Bool → Prop) : Prop where
  crash {β : Type} (held : Bool) : P β crash held
  map {α β : Type} {p : ServerM α} {held : Bool} (f : α → β) (h : P α p held) :
    P β (p.bind fun a => ret (f a)) held
  enter {β : Type} {p : ServerM β} (h : P β p true) : P β (lockReturn.bind fun _ => p) false
  inside {α β : Type} {p : ServerM α} {g : α → ServerM β} (hp : p.plain)
    (h : ∀ a, P β (g a) true) : P β (p.bind g) true
  leave {β : Type} (b : β) : P β (unlockReturn.bind fun _ => ret b) true

section Handlers

variable {P : (β : Type) → ServerM β → Bool → Prop} {β : Type}

theorem Sectional.requestPath (hP : Sectional P) {req : Request} {g : Option Path → ServerM β}
    {held : Bool} (h : ∀ path, req.path = some path → P β (g path) held) :
    P β ((FileStorage.requestPath req).bind g) held := by
  unfold FileStorage.requestPath
  split
  · exact hP.crash held
  · exact h _ ‹_›

theorem Sectional.ite (_ : Sectional P) {c : Prop} [Decidable c] {p q : ServerM β} {held : Bool}
    (hp : P β p held) (hq : P β q held) : P β (if c then p else q) held := by
  split
  · exact hp
  · exact hq

theorem Sectional.closeFileHandler (hP : Sectional P) (fd : Int) (req : Request) :
    P _ (FileStorage.closeFileHandler fd req) false := by
  refine hP.requestPath fun path _ => hP.enter (hP.inside (plain_storageGetFile _) fun r => ?_)
  cases r with
  | none => exact hP.leave _
  | some i =>
    refine hP.inside (plain_load _ _) fun f => hP.ite ?_ (hP.leave _)
    refine hP.inside (plain_store _ _ _) fun _ => hP.inside (plain_store _ _ _) fun _ => ?_
    exact hP.inside (plain_storageUpdateFile _) fun _ => hP.leave _

theorem Sectional.unlockFileHandler (hP : Sectional P) (fd : Int) (req : Request) :
    P _ (FileStorage.unlockFileHandler fd req) false := by
  refine hP.requestPath fun path _ => hP.enter (hP.inside (plain_storageGetFile _) fun r => ?_)
  cases r with
  | none => exact hP.leave _
  | some i =>
    refine hP.inside (plain_load _ _) fun f => hP.ite (hP.leave _) ?_
    refine hP.inside (plain_load _ _) fun f => hP.ite ?_ (hP.leave _)
    refine hP.inside (plain_store _ _ _) fun _ => hP.inside (plain_store _ _ _) fun _ => ?_
    exact hP.inside (plain_storageUpdateFile _) fun _ => hP.leave _

theorem Sectional.removeFileHandler (hP : Sectional P) (fd : Int) (req : Request) :
    P _ (FileStorage.removeFileHandler fd req) false := by
  refine hP.requestPath fun path _ => hP.enter (hP.inside (plain_storageGetFile _) fun r => ?_)
  cases r with
  | none => exact hP.leave _
  | some i =>
    refine hP.inside (plain_load _ _) fun f => hP.ite (hP.leave _) ?_
    exact hP.inside (plain_storageRemoveFile _) fun _ => hP.leave _

/-- Some exits of `lock_file_handler` do not release the mutex. -/
theorem Sectional.lockFileHandler (hP : Sectional P)
    (hret : ∀ status : ResponseCode, P _ (ret status) true) (fd : Int) (req : Request) :
    P _ (FileStorage.lockFileHandler fd req) false := by
  refine hP.requestPath fun path _ => hP.enter (hP.inside (plain_storageGetFile _) fun r => ?_)
  cases r with
  | none => exact hP.leave _
  | some i =>
    refine hP.inside (plain_load _ _) fun f => hP.ite ?_ ?_
    · refine hP.inside (plain_store _ _ _) fun _ => hP.inside (plain_store _ _ _) fun _ => ?_
      exact hP.inside (plain_storageUpdateFile _) fun _ => hP.leave _
    · refine hP.inside (plain_load _ _) fun f => hP.ite (hP.leave _) ?_
      refine hP.inside plain_alloc fun b => hP.ite ?_ (hP.crash true)
      refine hP.inside (plain_load _ _) fun f => ?_
      cases f.waitingOnLock with
      | none => exact hret _
      | some _ =>
        refine hP.inside plain_alloc fun b => hP.ite ?_ (hret _)
        refine hP.inside (plain_store _ _ _) fun _ => ?_
        exact hP.inside (plain_storageUpdateFile _) fun _ => hP.leave _

/-- Some exits of `append_to_file_handler` come before it takes the mutex. -/
theorem Sectional.appendToFileHandler (hP : Sectional P)
    (hret : ∀ status : ResponseCode, P _ (ret status) false)
    (hread : ∀ {g : Storage → ServerM ResponseCode}, (∀ s, P _ (g s) false) →
      P _ ((read (fun _ => []) id).bind g) false) (fd : Int) (req : Request) :
    P _ (FileStorage.appendToFileHandler fd req) false := by
  refine hP.requestPath fun path _ => hP.ite (hret _) (hread fun s => hP.ite (hret _) ?_)
  refine hP.enter (hP.inside (plain_storageGetFile _) fun r => ?_)
  cases r with
  | none => exact hP.leave _
  | some i =>
    refine hP.inside (plain_load _ _) fun f => hP.ite (hP.leave _) ?_
    refine hP.inside (plain_load _ _) fun f => hP.inside plain_alloc fun b => hP.ite ?_ ?_
    · refine hP.inside (plain_store _ _ _) fun _ => hP.inside (plain_store _ _ _) fun _ => ?_
      refine hP.inside (plain_storageUpdateFile _) fun _ => ?_
      exact hP.inside (plain_modify _ _) fun _ => hP.leave _
    · exact hP.inside (plain_store _ _ _) fun _ => hP.leave _

theorem Sectional.openFileCreate (hP : Sectional P) (path : Option Path) :
    P _ (FileStorage.openFileCreate path) false := by
  refine hP.enter (hP.inside (plain_storageGetFile _) fun r => ?_)
  cases r with
  | some i => exact hP.leave _
  | none =>
    refine hP.inside (plain_storageCreateFile _) fun r => ?_
    cases r with
    | none => exact hP.leave _
    | some i =>
      refine hP.inside (plain_read _ _) fun s => hP.ite ?_ ?_
      · refine hP.inside plain_queueRemoveHead fun q => ?_
        cases q with
        | none => exact hP.leave _
        | some q =>
          refine hP.inside (plain_storageRemoveFile _) fun _ => ?_
          exact hP.inside (plain_storageAddFile _) fun _ => hP.leave _
      · exact hP.inside (plain_storageAddFile _) fun _ => hP.leave _

theorem Sectional.openFileLock (hP : Sectional P) (fd : Int) (path : Option Path) :
    P _ (FileStorage.openFileLock fd path) false := by
  refine hP.enter (hP.inside (plain_storageGetFile _) fun r => ?_)
  cases r with
  | none => exact hP.leave _
  | some i =>
    refine hP.inside (plain_load _ _) fun f => hP.ite (hP.leave _) ?_
    refine hP.inside (plain_store _ _ _) fun _ => hP.inside (plain_store _ _ _) fun _ => ?_
    exact hP.inside (plain_storageUpdateFile _) fun _ => hP.leave _

theorem Sectional.openFileNoflag (hP : Sectional P) (path : Option Path) :
    P _ (FileStorage.openFileNoflag path) false := by
  refine hP.enter (hP.inside (plain_storageGetFile _) fun r => ?_)
  cases r with
  | none => exact hP.leave _
  | some i => exact hP.leave _

theorem Sectional.lockManagerPass (hP : Sectional P) : P _ FileStorage.lockManagerPass false := by
  refine hP.enter (hP.inside (plain_read _ _) fun s => ?_)
  exact hP.inside (plain_lockManagerVisit _) fun _ => hP.leave ()

theorem Sectional.writeFileUpdate (hP : Sectional P) (i : FileId) (body : Bytes) :
    P _ (FileStorage.writeFileUpdate i body) true := by
  unfold FileStorage.writeFileUpdate
  refine hP.inside (plain_store _ _ _) fun _ => hP.inside (plain_store _ _ _) fun _ => ?_
  refine hP.inside plain_alloc fun b => hP.ite ?_ (hP.crash true)
  refine hP.inside (plain_store _ _ _) fun _ => hP.inside (plain_storageUpdateFile _) fun _ => ?_
  refine hP.inside (plain_queueInsertTail _) fun _ => ?_
  exact hP.inside (plain_modify _ _) fun _ => hP.leave _

theorem Sectional.writeFileFitting (hP : Sectional P) (fd : Int) (i : FileId) (body : Bytes) :
    P _ (FileStorage.writeFileFitting fd i body) true := by
  refine hP.inside (plain_load _ _) fun f => hP.ite (hP.leave _) ?_
  refine hP.inside (plain_read _ _) fun s => hP.ite ?_ ?_
  · refine hP.inside (plain_storageFIFOReplace _) fun r => hP.ite (hP.leave _) ?_
    refine hP.inside (plain_sendResponse _ _ _ _) fun b => hP.ite ?_ (hP.leave _)
    exact hP.inside (plain_sendExpelled _ _) fun _ => hP.map _ (hP.writeFileUpdate _ _)
  · exact hP.map _ (hP.writeFileUpdate _ _)

end Handlers

/-! ### Rules for the mutex -/

/-- The rule allows the use of the mutex and every access under it. -/
structure Permits (A : Bool → Event Access → Prop) : Prop where
  lock : A false .lock
  unlock : A true .unlock
  access : ∀ e, A true (.access e)

def released {α : Type} : α → Bool → Prop := fun _ held => held = false

section Rules

variable {A : Bool → Event Access → Prop} {α β : Type} {Q : β → Bool → Prop}

theorem safe_requestPath {req : Request} {g : Option Path → ServerM β} {held : Bool}
    (h : ∀ path, req.path = some path → (g path).safe A Q held) :
    ((requestPath req).bind g).safe A Q held := by
  unfold requestPath
  split
  · exact safe_crash
  · exact h _ ‹_›

/-- A read that is not of shared data. -/
theorem safe_parameter {g : Storage → ServerM β} {held : Bool}
    (h : ∀ s, (g s).safe A Q held) : ((read (fun _ => []) id).bind g).safe A Q held :=
  fun s => ⟨by simp, h s⟩

theorem Permits.enter (hA : Permits A) {p : ServerM β} (h : p.safe A Q true) :
    (lockReturn.bind fun _ => p).safe A Q false :=
  ⟨hA.lock, h⟩

theorem Permits.exit (hA : Permits A) {p : ServerM β} (h : p.safe A Q false) :
    (unlockReturn.bind fun _ => p).safe A Q true :=
  ⟨hA.unlock, h⟩

theorem Permits.leave (hA : Permits A) (b : β) :
    (unlockReturn.bind fun _ => ret b : ServerM β).safe A released true :=
  ⟨hA.unlock, rfl⟩

theorem Permits.inside (hA : Permits A) {p : ServerM α} (hp : p.plain) {g : α → ServerM β}
    (h : ∀ a, (g a).safe A Q true) : (p.bind g).safe A Q true :=
  safe_bind.mpr (hp.safe hA.access h)

theorem Permits.sectional (hA : Permits A) :
    Sectional fun _ p held => p.safe A released held where
  crash _ := safe_crash
  map _ h := h.bind fun _ _ hh => hh
  enter h := hA.enter h
  inside hp h := hA.inside hp h
  leave b := hA.leave b

theorem safe_appendToFileHandler (hA : Permits A) (fd : Int) (req : Request) :
    (appendToFileHandler fd req).safe A released false :=
  hA.sectional.appendToFileHandler (fun _ => rfl) (fun h => safe_parameter h) fd req

theorem safe_openFilePart {flag : Bool} {part : ServerM (Option ResponseCode)}
    {rest : ServerM ResponseCode} (hp : part.safe A released false)
    (hr : rest.safe A released false) : (openFilePart flag part rest).safe A released false := by
  refine safe_ite.mpr ⟨fun _ => hp.bind fun r held hh => ?_, fun _ => hr⟩
  obtain rfl : held = false := hh
  cases r with
  | none => exact hr
  | some status => rfl

theorem safe_openFileHandler (hA : Permits A) (fd : Int) (req : Request) :
    (openFileHandler fd req).safe A released false := by
  refine safe_requestPath fun path _ => ?_
  cases readInt req.body with
  | none => exact safe_crash
  | some flags =>
    refine safe_openFilePart (hA.sectional.openFileCreate path) ?_
    refine safe_openFilePart (hA.sectional.openFileLock fd path) ?_
    exact safe_openFilePart (hA.sectional.openFileNoflag path) rfl

end Rules

end FileStorage
