import FileStorage.Custody
import FileStorage.Execution
import FileStorage.LongPaths

/-! What the calls, the worker's `list_destroy` and `storage_destroy` free, and when no record is
freed twice or used after that. -/

namespace FileStorage

open Machine Prog

/-! ### Making room -/

namespace Storage

/-- The rounds of `storage_FIFO_replace` for `n` bytes take no path whose record the queue holds
further on, and not that of the record `i`. -/
def SparesRounds (s : Storage) (n : Nat) (i : FileId) : Nat → List PathPtr → Prop
  | _, [] => True
  | size, q :: queue => sizeAdd size n > s.maxSize → ∀ j ∈ s.get q.path,
      j ≠ i ∧ j ∉ queue.map PathPtr.file ∧ s.SparesRounds n i (sizeSub size (s.heap j).size) queue

/-- `t` is reached from `s` by such rounds. -/
structure Draining (s : Storage) (i : FileId) (t : Storage) : Prop where
  custody : t.Custody
  heap : t.heap = s.heap
  next : t.next = s.next
  maxSize : t.maxSize = s.maxSize
  get : ∀ p j, t.get p = some j → s.get p = some j
  alive : i ∉ t.released
  unqueued : i ∉ t.queuedFiles

end Storage

section Rounds

variable {s : Storage} {n : Nat} {i : FileId}

theorem guarded_fifoReplaceLoop {t : Storage} {fuel : Nat} (ht : s.Draining i t)
    (hspare : s.SparesRounds n i t.currentSize t.fifoQueue) :
    (fifoReplaceLoop n fuel).guarded Storage.Allows (fun _ u => s.Draining i u) t := by
  induction fuel generalizing t with
  | zero => exact guarded_crash
  | succ fuel ih =>
    have hc := ht.custody
    simp only [fifoReplaceLoop, bind_eq, pure_eq, guarded_bind, guarded_read, id]
    refine ⟨fun e he => ?_, guarded_ite.mpr ⟨fun hover => ?_, fun _ => ht⟩⟩
    · obtain rfl := List.mem_singleton.mp he
      exact hc.allows rfl
    refine guarded_bind.mpr (guarded_queueRemoveHead hc ?_)
    cases hq : t.fifoQueue with
    | nil => exact guarded_bind.mpr (guarded_storageGetFile hc.dequeue fun _ => guarded_crash)
    | cons q queue =>
      refine guarded_bind.mpr (guarded_storageGetFile hc.dequeue fun h0 => ?_)
      have hqueue : t.dequeue.fifoQueue = queue := by rw [Storage.dequeue, hq]; rfl
      rw [List.head?_cons, Option.map_some, Storage.find_some]
      cases hg : t.dequeue.get q.path with
      | none => exact guarded_crash
      | some j =>
        have hgt : t.get q.path = some j := hg
        have hj := hc.get_alive hgt
        rw [hq] at hspare
        obtain ⟨hji, hjq, hrest⟩ := hspare (ht.maxSize ▸ hover) j (ht.get _ _ hgt)
        have hp : (t.heap j).path = q.path := (hc.get_mem hgt).2
        let v := (t.dequeue.shrink (t.heap j).size).addFiles (-1)
        have hv : v.Custody := hc.dequeue.of_eq rfl rfl rfl rfl rfl
        have hdrain : s.Draining i v := by
          refine ⟨hv, ht.heap, ht.next, ht.maxSize, ht.get, ht.alive, fun h => ht.unqueued ?_⟩
          obtain ⟨q', hq', heq⟩ := List.mem_map.mp h
          exact List.mem_map.mpr ⟨q', List.mem_of_mem_tail hq', heq⟩
        have hqueue' : v.fifoQueue = queue := hqueue
        have hnext : s.SparesRounds n i v.currentSize v.fifoQueue := by
          rw [hqueue']
          rw [← ht.heap] at hrest
          exact hrest
        have hsame : ∀ k, v.get (t.dequeue.heap j).path = some k → k = j := by
          intro k hk
          have hpath : (t.dequeue.heap j).path = q.path := hp
          rw [hpath] at hk
          exact Option.some.inj (hk.symm.trans hgt)
        simp only [guarded_bind, guarded_alloc, guarded_ite]
        refine fun b => ⟨fun _ => ?_, fun _ => guarded_crash⟩
        refine guarded_load hc.dequeue hj fun block => guarded_load hc.dequeue hj ?_
        cases copyBytes block (t.dequeue.heap j).contents (t.dequeue.heap j).size with
        | none => exact guarded_crash
        | some contents =>
          simp only [guarded_bind, shrinkBy, dropCount, guarded_modify, guarded_alloc]
          refine ⟨fun e he => ?_, fun e he => ?_, ?_⟩
          · rcases List.mem_cons.mp he with rfl | he
            · exact hc.dequeue.allows_of rfl hj
            · obtain rfl := List.mem_singleton.mp he
              exact hc.dequeue.allows rfl
          · obtain rfl := List.mem_singleton.mp he
            exact (hc.dequeue.of_eq rfl rfl rfl rfl rfl : (t.dequeue.shrink (t.heap j).size).Custody).allows rfl
          · refine guarded_filesRemove hv (fun k hk => ?_) (fun linked => ih hdrain hnext)
              fun k hk hrel linked => ?_
            · obtain rfl := hsame k hk
              rw [Storage.queuedFiles, hqueue']
              exact hjq
            · obtain rfl := hsame k hk
              have hn : 0 < v.files.nBuckets := Nat.pos_of_ne_zero h0
              refine ih ⟨hrel, ht.heap, ht.next, ht.maxSize, fun p' j' h => ?_, fun h => ?_,
                hdrain.unqueued⟩ hnext
              · exact ht.get p' j' (hv.toSound.get_eraseFile hn h)
              · rcases List.mem_append.mp h with h | h
                · exact ht.alive h
                · exact hji (List.mem_singleton.mp h).symm

theorem guarded_sendExpelled {clientFd : Int} {files : List File} {R : Unit → Storage → Prop}
    (h : R () s) : (sendExpelled clientFd files).guarded Storage.Allows R s := by
  induction files with
  | nil => exact h
  | cons f files ih => exact guarded_bind.mpr (guarded_sendResponse fun _ => ih)

/-- The end of a write takes the record into the queue. -/
theorem guarded_writeFileUpdate {body : Bytes} (hs : s.Custody) (hn : i < s.next)
    (hi : i ∉ s.released) (hq : i ∉ s.queuedFiles) :
    (writeFileUpdate i body).guarded Storage.Allows (fun _ t => t.Custody) s := by
  simp only [writeFileUpdate, bind_eq, pure_eq, guarded_bind, guarded_alloc, guarded_ite]
  have hstore : ∀ (t : Storage) (f : File), t.Custody → f.path = (t.heap i).path →
      chkFlag f.flags oCreate = false → (t.setFile i f).Custody :=
    fun t f ht hp hf => ht.setFile hp fun _ => hf
  let s1 := s.setFile i { s.heap i with flags := clrFlag (s.heap i).flags oCreate }
  have h1 : s1.Custody := hstore _ _ hs rfl (chkFlag_clrFlag_oCreate _)
  let s2 := s1.setFile i { s1.heap i with size := body.length }
  have hc1 : chkFlag (s1.heap i).flags oCreate = false := by
    rw [Storage.setFile_heap_self]
    exact chkFlag_clrFlag_oCreate _
  have h2 : s2.Custody := hstore _ _ h1 rfl hc1
  let s3 := s2.setFile i { s2.heap i with contents := some body }
  have hc2 : chkFlag (s2.heap i).flags oCreate = false := by
    rw [Storage.setFile_heap_self]
    exact hc1
  have h3 : s3.Custody := hstore _ _ h2 rfl hc2
  have hc3 : chkFlag (s3.heap i).flags oCreate = false := by
    rw [Storage.setFile_heap_self]
    exact hc2
  refine guarded_store hs hi (guarded_store h1 hi fun b => ⟨fun _ => ?_, fun _ => guarded_crash⟩)
  refine guarded_store h2 hi (guarded_storageUpdateFile h3 hn hi fun _ files h4 => ?_)
  have hgrow : ∀ t : Storage, t.Custody →
      (growBy body.length).guarded Storage.Allows (fun _ t => t.Custody) t := by
    intro t ht
    refine guarded_modify.mpr ⟨fun e he => ?_, ht.of_eq rfl rfl rfl rfl rfl⟩
    obtain rfl := List.mem_singleton.mp he
    exact ht.allows rfl
  simp only [queueInsertTail, bind_eq, pure_eq, guarded_bind, guarded_alloc, guarded_ite,
    guarded_modify]
  refine guarded_load h4 hi fun b => ⟨fun _ => ⟨fun e he => ?_, ?_⟩, fun _ => hgrow _ h4⟩
  · rcases List.mem_cons.mp he with rfl | he
    · exact h4.allows rfl
    · obtain rfl := List.mem_singleton.mp he
      exact h4.allows rfl
  · exact hgrow _ (h4.enqueue hn hq hi hc3)

/-- The condition of a write on the storage it finds. -/
def Storage.SparesWrite (s : Storage) (clientFd : Int) (path : Option Path) (body : Bytes) : Prop :=
  body ≠ [] → ∀ i ∈ s.find path, (s.heap i).lockedBy = clientFd →
    if body.length > s.maxSize then i ∉ s.queuedFiles
    else chkFlag (s.heap i).flags oCreate = true →
      s.SparesRounds body.length i s.currentSize s.fifoQueue

theorem guarded_writeFileHandler {clientFd : Int} {request : Request} (hs : s.Custody)
    (hspare : s.SparesWrite clientFd request.path.join request.body) :
    (writeFileHandler clientFd request).guarded Storage.Allows (fun _ t => t.Custody) s := by
  simp only [writeFileHandler, bind_eq, pure_eq, guarded_bind, guarded_ite]
  refine guarded_requestPath fun path hpath => ⟨fun _ => hs, fun hbody => ?_⟩
  rw [hpath, Option.join_some] at hspare
  refine guarded_storageGetFile hs fun _ => ?_
  cases hg : s.find path with
  | none => exact hs
  | some i =>
    obtain ⟨p, rfl, hgp⟩ := Storage.find_eq_some hg
    have hi := hs.get_alive hgp
    have hn := hs.lt_next hgp
    simp only [guarded_bind, guarded_ite, guarded_read, id]
    refine guarded_load hs hi ⟨fun _ => hs, fun howner => ?_⟩
    have hsp := hspare hbody i hg (not_not.mp howner)
    refine ⟨fun _ he => absurd he List.not_mem_nil, fun hbig => ?_, fun hfit => ?_⟩
    · rw [if_pos hbig] at hsp
      refine guarded_storageRemoveFile hs (fun j hj => ?_) fun _ t ht => ht.custody
      obtain rfl := Option.some.inj (hj.symm.trans hgp)
      exact hsp
    · rw [if_neg hfit] at hsp
      simp only [writeFileFitting, bind_eq, pure_eq, guarded_bind, guarded_ite, guarded_read]
      refine guarded_load hs hi ⟨fun _ => hs, fun hfresh => ?_⟩
      have hcreate : chkFlag (s.heap i).flags oCreate = true := by simpa using hfresh
      have hq : i ∉ s.queuedFiles := fun h => hfresh (hs.written i h)
      refine ⟨fun e he => ?_, fun _ => ?_, fun _ => ?_⟩
      · obtain rfl := List.mem_singleton.mp he
        exact hs.allows rfl
      · have hdrain : s.Draining i s := ⟨hs, rfl, rfl, rfl, fun _ _ h => h, hi, hq⟩
        refine ⟨fun _ he => absurd he List.not_mem_nil, ?_⟩
        refine (guarded_fifoReplaceLoop hdrain (hsp hcreate)).mono fun r t ht => ?_
        refine ⟨fun _ => ht.custody, fun _ => guarded_sendResponse fun _ => ⟨fun _ => ?_, fun _ => ht.custody⟩⟩
        refine guarded_sendExpelled ?_
        exact guarded_writeFileUpdate ht.custody (ht.next ▸ hn) ht.alive ht.unqueued
      · exact guarded_writeFileUpdate hs hn hi hq

end Rounds

/-! ### The other handlers -/

section Handlers

variable {s : Storage} {n : Nat} {i : FileId}

/-- The condition of a removal. -/
def Storage.SparesRemove (s : Storage) (clientFd : Int) (path : Option Path) : Prop :=
  ∀ i ∈ s.find path, (s.heap i).Owned clientFd → i ∉ s.queuedFiles

theorem guarded_removeFileHandler {clientFd : Int} {request : Request} (hs : s.Custody)
    (hspare : s.SparesRemove clientFd request.path.join) :
    (removeFileHandler clientFd request).guarded Storage.Allows (fun _ t => t.Custody) s := by
  simp only [removeFileHandler, bind_eq, pure_eq, guarded_bind]
  refine guarded_requestPath fun path hpath => guarded_storageGetFile hs fun _ => ?_
  rw [hpath, Option.join_some] at hspare
  cases hg : s.find path with
  | none => exact hs
  | some i =>
    obtain ⟨p, rfl, hgp⟩ := Storage.find_eq_some hg
    simp only [guarded_bind, guarded_ite]
    refine guarded_load hs (hs.get_alive hgp) ⟨fun _ => hs, fun hc => ?_⟩
    have howned : (s.heap i).Owned clientFd := by
      rw [not_or, not_not, Bool.not_eq_false] at hc
      exact hc
    refine guarded_storageRemoveFile hs (fun j hj => ?_) fun _ t ht => ht.custody
    obtain rfl := Option.some.inj (hj.symm.trans hgp)
    exact hspare j hg howned

/-- The walk of `read_n_files_handler` over these elements of the queue comes to its end, or it
stops before it has taken a file. -/
def Storage.SparesReads (s : Storage) (queue : List PathPtr) : Prop :=
  (∀ q ∈ queue, s.get q.path ≠ none) ∨ ∀ q ∈ queue.head?, s.get q.path = none

/-- The condition of a request to read several files. -/
def Storage.SparesReadN (s : Storage) (body : Bytes) : Prop :=
  ∀ howMany ∈ readInt body, s.SparesReads (s.fifoQueue.take (readNCap s.maxSize howMany.toInt))

theorem guarded_collectFiles (hs : s.Custody) {queue : List PathPtr} :
    (collectFiles n queue).guarded Storage.Allows (fun r t => t = s ∧ (∀ i ∈ r.2, i ∉ s.released) ∧
      ((∀ q ∈ queue.take n, s.get q.path ≠ none) → r.1 = true)) s := by
  induction n, queue using collectFiles.induct with
  | case1 queue => exact ⟨rfl, fun _ h => absurd h List.not_mem_nil, fun _ => rfl⟩
  | case2 n _ => cases n <;> exact ⟨rfl, fun _ h => absurd h List.not_mem_nil, fun _ => rfl⟩
  | case3 n iter rest ih =>
    simp only [collectFiles, bind_eq, pure_eq, guarded_bind]
    refine guarded_storageGetFile hs fun _ => ?_
    rw [Storage.find_some]
    cases hg : s.get iter.path with
    | none =>
      refine ⟨rfl, fun _ h => absurd h List.not_mem_nil, fun h => absurd hg (h iter ?_)⟩
      exact List.mem_cons_self
    | some i =>
      simp only [guarded_bind, guarded_alloc]
      refine fun linked => ih.mono fun r t ht => ⟨ht.1, fun j hj => ?_, fun h => ht.2.2 fun q hq => ?_⟩
      · cases linked with
        | false => exact ht.2.1 j hj
        | true =>
          rcases List.mem_cons.mp hj with rfl | hj
          · exact hs.get_alive hg
          · exact ht.2.1 j hj
      · exact h q (List.mem_cons_of_mem _ hq)

theorem guarded_sendFiles {clientFd : Int} {files : List FileId} (hs : s.Custody)
    (hf : ∀ i ∈ files, i ∉ s.released) {R : Unit → Storage → Prop} (h : R () s) :
    (sendFiles clientFd files).guarded Storage.Allows R s := by
  induction files with
  | nil => exact h
  | cons i files ih =>
    simp only [sendFiles, bind_eq, guarded_bind]
    refine guarded_load hs (hf i List.mem_cons_self) (guarded_sendResponse fun _ => ?_)
    exact ih fun j hj => hf j (List.mem_cons_of_mem _ hj)

/-- Nothing is left in `files_list`. -/
theorem guarded_readNFilesHandler {clientFd : Int} {request : Request} (hs : s.Custody)
    (hspare : s.SparesReadN request.body) :
    (readNFilesHandler clientFd request).guarded Storage.Allows
      (fun r t => t.Custody ∧ r.2 = []) s := by
  unfold readNFilesHandler
  cases hmany : readInt request.body with
  | none => exact guarded_crash
  | some howMany =>
    simp only [bind_eq, pure_eq, guarded_bind, guarded_read, id]
    refine ⟨fun _ he => absurd he List.not_mem_nil, fun e he => ?_, ?_⟩
    · obtain rfl := List.mem_singleton.mp he
      exact hs.allows rfl
    rcases hspare howMany hmany with hall | hhead
    · refine (guarded_collectFiles hs).mono fun r t h => ?_
      obtain ⟨rfl, halive, hfound⟩ := h
      simp only [guarded_bind, guarded_ite]
      refine ⟨fun _ => guarded_sendResponse fun _ => guarded_sendFiles hs halive ⟨hs, rfl⟩, fun h => ?_⟩
      exact absurd (hfound hall) h
    · -- the first element is missing already
      have hcollect : (collectFiles (readNCap s.maxSize howMany.toInt) s.fifoQueue).guarded
          Storage.Allows (fun r t => t = s ∧ r.2 = []) s := by
        cases hcap : readNCap s.maxSize howMany.toInt with
        | zero => exact ⟨rfl, rfl⟩
        | succ m =>
          cases hq : s.fifoQueue with
          | nil => exact ⟨rfl, rfl⟩
          | cons q queue =>
            rw [hcap, hq] at hhead
            simp only [collectFiles, bind_eq, pure_eq, guarded_bind]
            refine guarded_storageGetFile hs fun _ => ?_
            rw [Storage.find_some, hhead q rfl]
            exact ⟨rfl, rfl⟩
      refine hcollect.mono fun r t h => ?_
      obtain ⟨rfl, hnil⟩ := h
      simp only [guarded_bind, guarded_ite]
      refine ⟨fun _ => guarded_sendResponse fun _ => guarded_sendFiles hs ?_ ⟨hs, rfl⟩, fun _ => ⟨hs, hnil⟩⟩
      rw [hnil]
      exact fun _ h => absurd h List.not_mem_nil

theorem guarded_lockManagerGrant {p : Path} {f : File} (hs : s.Custody) (hg : s.get p = some i) :
    (lockManagerGrant i f).guarded Storage.Allows (fun _ t => t.Custody) s := by
  unfold lockManagerGrant
  split
  · simp only [whenever, bind_eq, guarded_ite, guarded_bind]
    refine ⟨fun _ => ?_, fun _ => hs⟩
    refine guarded_store_stored hs hg ?_ fun t ht hgt => ?_
    · exact fun _ => ⟨rfl, rfl⟩
    refine guarded_store_stored ht hgt harmless_setLock fun u hu hgu => ?_
    refine guarded_store_stored hu hgu (harmless_lockedBy _) fun v hv hgv => ?_
    exact guarded_update_stored hv hgv fun _ _ hc => guarded_sendResponse fun _ => hc
  · exact hs

theorem guarded_lockManagerPass (hs : s.Custody) :
    lockManagerPass.guarded Storage.Allows (fun _ t => t.Custody) s := by
  have hvisit : ∀ (queue : List PathPtr) (t : Storage), t.Custody →
      (lockManagerVisit queue).guarded Storage.Allows (fun _ t => t.Custody) t := by
    intro queue
    induction queue with
    | nil => exact fun t ht => ht
    | cons curr rest ih =>
      intro t ht
      simp only [lockManagerVisit, bind_eq, guarded_bind]
      refine guarded_storageGetFile ht fun _ => ?_
      rw [Storage.find_some]
      cases hg : t.get curr.path with
      | none => exact ht
      | some i =>
        simp only [guarded_bind]
        refine guarded_load ht (ht.get_alive hg) ?_
        exact (guarded_lockManagerGrant ht hg).mono fun _ u hu => ih u hu
  simp only [lockManagerPass, bind_eq, guarded_bind, guarded_read, id]
  refine ⟨fun e he => ?_, hvisit _ s hs⟩
  obtain rfl := List.mem_singleton.mp he
  exact hs.allows rfl

end Handlers

/-! ### The lists of the worker and the end of the storage -/

/-- `list_destroy` of a list of records that is made with `free_file`. -/
def destroyFiles : List FileId → ServerM Unit
  | [] => return ()
  | file :: files => do
    freeFile file
    destroyFiles files

/-- The same for the copies in `expelled_files`, whose waiting lists are NULL. -/
def destroyCopies : List File → ServerM Unit
  | [] => return ()
  | copy :: copies => if copy.waitingOnLock.isNone then crash else destroyCopies copies

/-- A case of the switch in `worker_thread` with the list it destroys. -/
def workerCase (clientFd : Int) (request : Request) : ServerM Reply :=
  match request.type with
  | .writeFile => do
    let (status, expelledFiles) ← writeFileHandler clientFd request
    destroyCopies expelledFiles
    return ⟨status, []⟩
  | .readNFiles => do
    let (status, filesList) ← readNFilesHandler clientFd request
    destroyFiles filesList
    return ⟨status, []⟩
  | _ => handle clientFd request

def Call.disposed : Call → ServerM (Option Reply)
  | request clientFd req => do
    let reply ← workerCase clientFd req
    return some reply
  | lockManager => do
    lockManagerPass
    return none

/-- `list_destroy` of a list of paths that is made with `free_string`. -/
def destroyStrings : List FileId → ServerM Unit
  | [] => return ()
  | file :: files => do
    modify (fun _ => [.release file]) fun s => s.release file
    destroyStrings files

/-- `storage_destroy`: `hash_map_destroy` of the table, then `list_destroy` of the queue. -/
def storageDestroy : ServerM Unit := do
  let s ← read (fun _ => [.readFiles]) id
  destroyFiles s.storedFiles
  let s ← read (fun _ => [.readQueue]) id
  destroyStrings s.queuedFiles

section Destroy

variable {s : Storage}

theorem guarded_destroyCopies {copies : List File} {R : Unit → Storage → Prop} (h : R () s) :
    (destroyCopies copies).guarded Storage.Allows R s := by
  induction copies with
  | nil => exact h
  | cons copy copies ih => exact guarded_ite.mpr ⟨fun _ => guarded_crash, fun _ => ih⟩

theorem guarded_destroyFiles {files : List FileId} (hd : files.Nodup)
    (hf : ∀ i ∈ files, i ∉ s.released) {R : Unit → Storage → Prop}
    (h : R () { s with released := s.released ++ files }) :
    (destroyFiles files).guarded Storage.Unreleased R s := by
  induction files generalizing s with
  | nil =>
    rw [List.append_nil] at h
    exact h
  | cons i files ih =>
    have hi : i ∉ s.released := hf i List.mem_cons_self
    simp only [destroyFiles, freeFile, bind_eq, guarded_bind, guarded_ite, guarded_modify]
    refine ⟨fun e he => ?_, fun _ => guarded_crash, fun _ => ⟨fun e he => ?_, ?_⟩⟩
    · obtain ⟨f, -, rfl⟩ := List.mem_map.mp he
      rintro j ⟨⟩
      exact hi
    · obtain rfl := List.mem_singleton.mp he
      rintro j ⟨⟩
      exact hi
    · refine ih (List.nodup_cons.mp hd).2 (fun j hj hr => ?_) ?_
      · rcases List.mem_append.mp hr with hr | hr
        · exact hf j (List.mem_cons_of_mem _ hj) hr
        · obtain rfl := List.mem_singleton.mp hr
          exact (List.nodup_cons.mp hd).1 hj
      · simp only [Storage.release, List.append_assoc, List.singleton_append]
        exact h

theorem guarded_destroyStrings {files : List FileId} (hd : files.Nodup)
    (hf : ∀ i ∈ files, i ∉ s.released) {R : Unit → Storage → Prop}
    (h : R () { s with released := s.released ++ files }) :
    (destroyStrings files).guarded Storage.Unreleased R s := by
  induction files generalizing s with
  | nil =>
    rw [List.append_nil] at h
    exact h
  | cons i files ih =>
    simp only [destroyStrings, bind_eq, guarded_bind, guarded_modify]
    refine ⟨fun e he => ?_, ih (List.nodup_cons.mp hd).2 (fun j hj hr => ?_) ?_⟩
    · obtain rfl := List.mem_singleton.mp he
      rintro j ⟨⟩
      exact hf i List.mem_cons_self
    · rcases List.mem_append.mp hr with hr | hr
      · exact hf j (List.mem_cons_of_mem _ hj) hr
      · obtain rfl := List.mem_singleton.mp hr
        exact (List.nodup_cons.mp hd).1 hj
    · simp only [Storage.release, List.append_assoc, List.singleton_append]
      exact h

theorem Storage.Custody.storedFiles_nodup (hs : s.Custody) : s.storedFiles.Nodup := by
  refine List.Nodup.of_map (fun i => (s.heap i).path) ?_
  rw [Storage.storedFiles, List.map_map]
  exact (List.map_congr_left hs.keyed) ▸ hs.placed.distinct

/-- The table and the queue have no record in common. -/
def Storage.Discharged (s : Storage) : Prop := ∀ i ∈ s.storedFiles, i ∉ s.queuedFiles

instance (s : Storage) : Decidable s.Discharged :=
  inferInstanceAs (Decidable (∀ i ∈ s.storedFiles, i ∉ s.queuedFiles))

theorem guarded_storageDestroy (hs : s.Custody) (hd : s.Discharged) :
    storageDestroy.guarded Storage.Unreleased (fun _ t => t.released.Nodup) s := by
  simp only [storageDestroy, bind_eq, guarded_bind, guarded_read, id]
  refine ⟨fun e he => ?_, ?_⟩
  · obtain rfl := List.mem_singleton.mp he
    exact nofun
  refine guarded_destroyFiles hs.storedFiles_nodup (fun i hi => hs.alive i (.inl hi)) ?_
  refine ⟨fun e he => ?_, ?_⟩
  · obtain rfl := List.mem_singleton.mp he
    exact nofun
  have hqueued : ∀ i ∈ s.queuedFiles, i ∉ s.released ++ s.storedFiles := by
    intro i hi hr
    rcases List.mem_append.mp hr with hr | hr
    · exact hs.alive i (.inr hi) hr
    · exact hd i hr hi
  refine guarded_destroyStrings hs.once hqueued ?_
  change ((s.released ++ s.storedFiles) ++ s.queuedFiles).Nodup
  refine List.nodup_append'.mpr ⟨List.nodup_append'.mpr ⟨hs.gone, hs.storedFiles_nodup, ?_⟩, hs.once, ?_⟩
  · exact fun i hr hi => hs.alive i (.inl hi) hr
  · exact fun i hr hi => hqueued i hi hr

end Destroy

/-! ### Runs -/

namespace Storage

instance (s : Storage) (e : Access) : Decidable (s.Unreleased e) :=
  inferInstanceAs (Decidable (∀ i ∈ e.record, i ∉ s.released))

instance (s : Storage) : Decidable s.SparesHead :=
  inferInstanceAs (Decidable (∀ q ∈ s.fifoQueue.head?, ∀ i ∈ s.get q.path, i ∉ s.queuedFiles.tail))

-- the number in a body is looked at, not every number of 32 bits
instance (s : Storage) (path : Option Path) (body : Bytes) : Decidable (s.SparesOpen path body) :=
  Option.decidableForallMem (readInt body)

instance decidableSparesRounds (s : Storage) (n : Nat) (i : FileId) :
    ∀ size queue, Decidable (s.SparesRounds n i size queue)
  | _, [] => isTrue trivial
  | size, q :: queue =>
    have := fun size => decidableSparesRounds s n i size queue
    inferInstanceAs (Decidable (sizeAdd size n > s.maxSize → ∀ j ∈ s.get q.path, j ≠ i ∧
      j ∉ queue.map PathPtr.file ∧ s.SparesRounds n i (sizeSub size (s.heap j).size) queue))

instance (s : Storage) (clientFd : Int) (path : Option Path) (body : Bytes) :
    Decidable (s.SparesWrite clientFd path body) :=
  inferInstanceAs (Decidable (body ≠ [] → ∀ i ∈ s.find path, (s.heap i).lockedBy = clientFd →
    if body.length > s.maxSize then i ∉ s.queuedFiles
    else chkFlag (s.heap i).flags oCreate = true →
      s.SparesRounds body.length i s.currentSize s.fifoQueue))

instance (s : Storage) (queue : List PathPtr) : Decidable (s.SparesReads queue) :=
  inferInstanceAs (Decidable
    ((∀ q ∈ queue, s.get q.path ≠ none) ∨ ∀ q ∈ queue.head?, s.get q.path = none))

instance (s : Storage) (body : Bytes) : Decidable (s.SparesReadN body) :=
  Option.decidableForallMem (readInt body)

instance (s : Storage) (clientFd : Int) (path : Option Path) :
    Decidable (s.SparesRemove clientFd path) :=
  Option.decidableForallMem (s.find path)

/-- The call frees no record that is still stored, queued or in use. -/
def Spares (s : Storage) : Call → Prop
  | .lockManager => True
  | .request clientFd req =>
    match req.type with
    | .openFile => s.SparesOpen req.path.join req.body
    | .writeFile => s.SparesWrite clientFd req.path.join req.body
    | .readNFiles => s.SparesReadN req.body
    | .removeFile => s.SparesRemove clientFd req.path.join
    | _ => True

instance (s : Storage) : ∀ c : Call, Decidable (s.Spares c)
  | .lockManager => isTrue trivial
  | .request _ ⟨type, _, _⟩ =>
    match type with
    | .openFile => inferInstanceAs (Decidable (s.SparesOpen _ _))
    | .writeFile => inferInstanceAs (Decidable (s.SparesWrite _ _ _))
    | .readNFiles => inferInstanceAs (Decidable (s.SparesReadN _))
    | .removeFile => inferInstanceAs (Decidable (s.SparesRemove _ _))
    | .closeFile | .appendToFile | .readFile | .lockFile | .unlockFile | .openConnection
    | .closeConnection => isTrue trivial

end Storage

theorem guarded_handle {s : Storage} {clientFd : Nat} {req : Request} (hs : s.Custody)
    (hc : s.Spares (.request clientFd req)) :
    (handle clientFd req).guarded Storage.Allows (fun _ t => t.Custody) s := by
  unfold handle
  cases ht : req.type with
  | openFile =>
    simp only [Storage.Spares, ht] at hc
    exact guarded_bind.mpr (guarded_openFileHandler hs hc)
  | closeFile => exact guarded_bind.mpr (guarded_closeFileHandler hs)
  | writeFile =>
    simp only [Storage.Spares, ht] at hc
    exact guarded_bind.mpr (guarded_writeFileHandler hs hc)
  | appendToFile => exact guarded_bind.mpr (guarded_appendToFileHandler hs)
  | readFile => exact guarded_bind.mpr (guarded_readFileHandler hs)
  | readNFiles =>
    simp only [Storage.Spares, ht] at hc
    exact (guarded_readNFilesHandler hs hc).bind fun _ _ h => h.1
  | removeFile =>
    simp only [Storage.Spares, ht] at hc
    exact guarded_bind.mpr (guarded_removeFileHandler hs hc)
  | lockFile => exact guarded_bind.mpr (guarded_lockFileHandler hs)
  | unlockFile => exact guarded_bind.mpr (guarded_unlockFileHandler hs)
  | openConnection => exact hs
  | closeConnection => exact hs

theorem guarded_prog {s : Storage} {c : Call} (hs : s.Custody) (hc : s.Spares c) :
    c.prog.guarded Storage.Allows (fun _ t => t.Custody) s := by
  cases c with
  | lockManager => exact guarded_bind.mpr (guarded_lockManagerPass hs)
  | request clientFd req => exact guarded_bind.mpr (guarded_handle hs hc)

theorem guarded_disposed {s : Storage} {c : Call} (hs : s.Custody) (hc : s.Spares c) :
    c.disposed.guarded Storage.Allows (fun _ t => t.Custody) s := by
  cases c with
  | lockManager => exact guarded_bind.mpr (guarded_lockManagerPass hs)
  | request clientFd req =>
    have hcase : (workerCase clientFd req).guarded Storage.Allows (fun _ t => t.Custody) s := by
      have hhandle := guarded_handle hs hc
      unfold workerCase
      cases ht : req.type with
      | writeFile =>
        simp only [Storage.Spares, ht] at hc
        exact (guarded_writeFileHandler hs hc).bind fun r t h => guarded_bind.mpr (guarded_destroyCopies h)
      | readNFiles =>
        simp only [Storage.Spares, ht] at hc
        refine (guarded_readNFilesHandler hs hc).bind fun r t hr => ?_
        obtain ⟨status, files⟩ := r
        obtain ⟨h, hnil⟩ := hr
        obtain rfl : files = [] := hnil
        exact h
      | _ => exact hhandle
    exact guarded_bind.mpr hcase

namespace Server

/-- A call that returns, with what the worker destroys after it. -/
def serves (s : Server) (x : Step) : Option Server :=
  match x.call.disposed.run x.env s.world with
  | (.done _, w, _) => some (.ofWorld w)
  | _ => none

def Spares (s : Server) (x : Step) : Prop := s.storage.Spares x.call

instance (s : Server) (x : Step) : Decidable (s.Spares x) :=
  inferInstanceAs (Decidable (s.storage.Spares x.call))

/-- The call, which need not return, touches no released record, and nothing dangles meanwhile. -/
def Proper (s : Server) (x : Step) : Prop :=
  ∀ a ∈ x.call.disposed.accesses x.env s.world, a.1.Allows a.2

/-- `storage_destroy` frees no record that has been released. -/
structure Closes (s : Server) : Prop where
  unreleased : ∀ a ∈ storageDestroy.accesses [] s.world, a.1.Unreleased a.2
  once : ∀ w env, storageDestroy.run [] s.world = (.done (), w, env) → w.state.released.Nodup

theorem Initial.custody {s : Server} (hi : s.Initial) : s.storage.Custody := by
  have hsound := hi.sound
  obtain ⟨maxSize, maxFiles, -, -, -, -, hc, -⟩ := hi
  obtain ⟨files, hfiles, heq⟩ := Option.map_eq_some_iff.mp hc
  have hqueue : s.storage.fifoQueue = [] := by rw [← heq]
  have hreleased : s.storage.released = [] := by rw [← heq]
  have hqueued : s.storage.queuedFiles = [] := by rw [Storage.queuedFiles, hqueue]; rfl
  refine ⟨hsound, ?_, ?_, ?_, ?_, ?_, ?_, ?_⟩
  · rw [hqueue]
    exact fun _ h => absurd h List.not_mem_nil
  · rw [hqueued]
    exact fun _ h => absurd h List.not_mem_nil
  · rw [hqueued]
    exact List.nodup_nil
  · rw [hqueued]
    exact fun _ h => absurd h List.not_mem_nil
  · intro i _
    rw [hreleased]
    exact List.not_mem_nil
  · rw [hreleased]
    exact List.nodup_nil
  · rw [hreleased]
    exact fun _ h => absurd h List.not_mem_nil

theorem custody_of_serves {s t : Server} {x : Step} (hs : s.storage.Custody) (hc : s.Spares x)
    (h : s.serves x = some t) : t.storage.Custody := by
  unfold serves at h
  split at h
  · rename_i r w env hrun
    obtain rfl := Option.some.inj h
    exact (guarded_disposed hs hc).of_run (w := s.world) hrun
  · cases h

theorem custody_of_run {s t : Server} {h : List (Server × Step)} (hi : s.Initial)
    (hr : Reaches serves Spares s h t) : t.storage.Custody :=
  hr.always (I := fun t => t.storage.Custody) hi.custody fun _ _ _ hs hc => custody_of_serves hs hc

/-- The call copies no path that does not fit into its record, and releases no record that is stored,
queued or in use. -/
structure Faultless (s : Server) (x : Step) : Prop where
  fits : x.call.Fits
  spares : s.Spares x

instance (s : Server) (x : Step) : Decidable (s.Faultless x) :=
  decidable_of_iff (x.call.Fits ∧ s.Spares x) ⟨fun h => ⟨h.1, h.2⟩, fun h => ⟨h.fits, h.spares⟩⟩

theorem custody_of_faultless {C : Server → Step → Prop} (hC : ∀ s x, C s x → s.Faultless x)
    {s t : Server} {h : List Record} (hi : s.Initial) (hr : Run C s h t) : t.storage.Custody := by
  refine Run.invariant (I := fun _ t => t.storage.Custody) hi.custody ?_ hr
  intro h t x r w ht hx he
  unfold exec at he
  split at he
  · rename_i r' w' env' hrun
    obtain ⟨rfl, rfl⟩ := Prod.mk.inj (Option.some.inj he)
    exact (guarded_prog ht (hC t x hx).spares).of_run (w := t.world) hrun
  · cases he

/-- The model keeps the bytes of a record that has been released. In a run of such calls nothing
depends on them. -/
theorem allows_of_faultless {C : Server → Step → Prop} (hC : ∀ s x, C s x → s.Faultless x)
    {s t : Server} {h : List Record} (hi : s.Initial) (hr : Run C s h t) {x : Step} (hx : C t x) :
    ∀ a ∈ x.call.prog.accesses x.env t.world, a.1.Allows a.2 :=
  (guarded_prog (custody_of_faultless hC hi hr) (hC t x hx).spares).accesses (w := t.world)

/-- A record has one owner in every run whose calls spare what is still owned: in every state it
reaches nothing dangles and nothing has been released twice, the next such call touches nothing
released, and when no stored record is queued `storage_destroy` frees each record once. -/
theorem one_owner {s t : Server} {h : List (Server × Step)} (hi : s.Initial)
    (hr : Reaches serves Spares s h t) :
    t.storage.Alive ∧ t.storage.released.Nodup ∧ (∀ x, t.Spares x → t.Proper x) ∧
      (t.storage.Discharged → t.Closes) := by
  have hs := custody_of_run hi hr
  refine ⟨hs.alive, hs.gone, fun x hx => ?_, fun hd => ⟨?_, fun w env hrun => ?_⟩⟩
  · exact (guarded_disposed hs hx).accesses (w := t.world)
  · exact (guarded_storageDestroy hs hd).accesses (w := t.world)
  · exact (guarded_storageDestroy hs hd).of_run (w := t.world) hrun

/-- A run in which one file is expelled and another leaves the queue for a third. -/
def discharging : List Step :=
  [.openFile 1 (slash 'a') 6, .writeFile 1 (slash 'a') [1, 2, 3], .openFile 1 (slash 'b') 6,
    .writeFile 1 (slash 'b') [1, 2, 3], .openFile 1 (slash 'c') 6, .openFile 2 (slash 'd') 6]

theorem one_owner_discharged : ∃ s h t, s.Initial ∧ Reaches serves Spares s h t ∧
    h.map Prod.snd = discharging ∧ t.storage.released = [0] ∧ t.storage.storedFiles = [3, 1, 2] ∧
    t.Spares (.closeFile 1 (slash 'c')) ∧ t.Proper (.closeFile 1 (slash 'c')) ∧ t.Closes := by
  obtain ⟨s, hi, hp⟩ := exists_start 5 2 (fun s : Server => (play serves Spares s discharging).any
    fun t : Server => decide (t.storage.released = [0] ∧ t.storage.storedFiles = [3, 1, 2] ∧
      t.storage.Discharged ∧ t.Spares (.closeFile 1 (slash 'c')))) (by decide) (by decide)
  obtain ⟨h, t, hr, hm, ht⟩ := Machine.exists_run serves Spares s discharging _ hp
  obtain ⟨hreleased, hstored, hd, hx⟩ := of_decide_eq_true ht
  obtain ⟨-, -, hproper, hcloses⟩ := one_owner hi hr
  exact ⟨s, h, t, hi, hr, hm, hreleased, hstored, hx, hproper _ hx, hcloses hd⟩

/-- Removing a file that has been written frees its record twice, and so does `storage_destroy` when
the file is still there. -/
theorem not_one_owner : ∃ s h t, s.Initial ∧ Reaches serves (fun _ _ => True) s h t ∧
    h.map Prod.snd = [.openFile 1 (slash 'a') 6, .writeFile 1 (slash 'a') [1, 2, 3]] ∧
    ¬t.Proper (.removeFile 1 (slash 'a')) ∧
    (∃ u, t.serves (.removeFile 1 (slash 'a')) = some u ∧ u.storage.released = [0, 0]) ∧
    ¬t.Closes := by
  obtain ⟨s, hi, hp⟩ := exists_start 100 4 (fun s : Server => (play serves (fun _ _ => True) s
    [.openFile 1 (slash 'a') 6, .writeFile 1 (slash 'a') [1, 2, 3]]).any fun t : Server =>
      ((Step.removeFile 1 (slash 'a')).call.disposed.accesses [] t.world).any
        (fun a => decide (¬a.1.Unreleased a.2)) &&
      (t.serves (.removeFile 1 (slash 'a'))).any (fun u : Server => decide (u.storage.released = [0, 0])) &&
      (storageDestroy.accesses [] t.world).any (fun a => decide (¬a.1.Unreleased a.2)))
    (by decide) (by decide)
  obtain ⟨h, t, hr, hm, ht⟩ := Machine.exists_run serves _ s _ _ hp
  simp only [Bool.and_eq_true, List.any_eq_true, decide_eq_true_eq, Option.any_eq_true] at ht
  obtain ⟨⟨⟨a, ha, hbad⟩, u, hu, hreleased⟩, b, hb, hfree⟩ := ht
  exact ⟨s, h, t, hi, hr, hm, fun hproper => hbad (hproper a ha).2, ⟨u, hu, hreleased⟩,
    fun hcloses => hfree (hcloses.unreleased b hb)⟩

end Server

end FileStorage
