import FileStorage.Delivery
import FileStorage.Link
import FileStorage.ReadN
import FileStorage.Refusals

/-! The frames with which a worker answers a request. -/

namespace FileStorage

open Prog

/-! ### Handlers that send nothing -/

theorem silent_requestPath (req : Request) : (requestPath req).silent := by
  unfold requestPath
  cases req.path <;> trivial

theorem silent_load (i : FileId) (fs : List Field) : (load i fs).silent := fun _ => trivial

theorem silent_storageCreateFile (path : Option Path) : (storageCreateFile path).silent := by
  refine fun b => silent.ite ?_ trivial
  cases path with
  | none => trivial
  | some p => exact silent.ite (fun _ _ => trivial) trivial

theorem silent_storageAddFile (i : FileId) : (storageAddFile i).silent :=
  (silent_storageUpdateFile i).bind fun _ => silent.ite (fun _ => trivial) trivial

theorem silent_storageRemoveFile (p : Path) : (storageRemoveFile p).silent := by
  refine (silent_storageGetFile _).bind fun r => ?_
  cases r with
  | none => trivial
  | some i => exact fun _ _ _ => silent.ite (silent_filesRemove p) trivial

theorem silent_openFileCreate (path : Option Path) : (openFileCreate path).silent := by
  refine (silent_storageGetFile path).bind fun r => ?_
  cases r with
  | some i => trivial
  | none =>
    refine (silent_storageCreateFile path).bind fun r => ?_
    cases r with
    | none => trivial
    | some i =>
      have hadd : ((storageAddFile i).bind fun _ => unlockReturn.bind fun _ =>
          ret (none : Option ResponseCode)).silent := (silent_storageAddFile i).bind fun _ => trivial
      have hhead : queueRemoveHead.silent := fun _ => trivial
      refine fun s => silent.ite (hhead.bind fun victim => ?_) hadd
      cases victim with
      | none => trivial
      | some victim => exact (silent_storageRemoveFile victim.path).bind fun _ => hadd

theorem silent_openFileLock (fd : Int) (path : Option Path) : (openFileLock fd path).silent := by
  refine (silent_storageGetFile path).bind fun r => ?_
  cases r with
  | none => trivial
  | some i =>
    exact fun _ => silent.ite trivial fun _ _ => (silent_storageUpdateFile i).bind fun _ => trivial

theorem silent_openFileNoflag (path : Option Path) : (openFileNoflag path).silent := by
  refine (silent_storageGetFile path).bind fun r => ?_
  cases r <;> trivial

theorem silent_openFilePart {flag : Bool} {part : ServerM (Option ResponseCode)}
    {rest : ServerM ResponseCode} (hp : part.silent) (hr : rest.silent) :
    (openFilePart flag part rest).silent := by
  refine silent.ite (hp.bind fun status => ?_) hr
  cases status with
  | none => exact hr
  | some status => trivial

theorem silent_openFileHandler (fd : Int) (req : Request) : (openFileHandler fd req).silent := by
  refine (silent_requestPath req).bind fun path => ?_
  cases readInt req.body with
  | none => trivial
  | some flags =>
    exact silent_openFilePart (silent_openFileCreate path)
      (silent_openFilePart (silent_openFileLock fd path)
        (silent_openFilePart (silent_openFileNoflag path) trivial))

theorem silent_closeFileHandler (fd : Int) (req : Request) : (closeFileHandler fd req).silent := by
  refine (silent_requestPath req).bind fun path => (silent_storageGetFile path).bind fun r => ?_
  cases r with
  | none => trivial
  | some i =>
    exact fun _ => silent.ite
      (fun _ _ => (silent_storageUpdateFile i).bind fun _ => trivial) trivial

theorem silent_appendToFileHandler (fd : Int) (req : Request) :
    (appendToFileHandler fd req).silent := by
  refine (silent_requestPath req).bind fun path => silent.ite trivial fun _ =>
    silent.ite trivial ((silent_storageGetFile path).bind fun r => ?_)
  cases r with
  | none => trivial
  | some i =>
    refine fun _ => silent.ite trivial fun _ _ => silent.ite (fun _ _ => ?_) fun _ => trivial
    exact (silent_storageUpdateFile i).bind fun _ => fun _ => trivial

theorem silent_readFileHandler (req : Request) : (readFileHandler req).silent := by
  refine (silent_requestPath req).bind fun path => (silent_storageGetFile path).bind fun r => ?_
  cases r with
  | none => trivial
  | some i =>
    refine (silent_load i _).bind fun f => fun _ => silent.ite ?_ trivial
    refine (silent_load i _).bind fun g => ?_
    cases copyBytes true g.contents f.size <;> trivial

theorem silent_removeFileHandler (fd : Int) (req : Request) : (removeFileHandler fd req).silent := by
  refine (silent_requestPath req).bind fun path => (silent_storageGetFile path).bind fun r => ?_
  cases r with
  | none => trivial
  | some i =>
    exact fun _ => silent.ite trivial ((silent_storageRemoveFile _).bind fun _ => trivial)

theorem silent_lockFileHandler (fd : Int) (req : Request) : (lockFileHandler fd req).silent := by
  refine (silent_requestPath req).bind fun path => (silent_storageGetFile path).bind fun r => ?_
  cases r with
  | none => trivial
  | some i =>
    refine fun _ => silent.ite (fun _ _ => (silent_storageUpdateFile i).bind fun _ => trivial) ?_
    refine fun _ => silent.ite trivial fun _ => silent.ite ?_ trivial
    refine (silent_load i _).bind fun f => ?_
    cases f.waitingOnLock with
    | none => trivial
    | some waiting =>
      exact fun _ => silent.ite
        (fun _ => (silent_storageUpdateFile i).bind fun _ => trivial) trivial

theorem silent_unlockFileHandler (fd : Int) (req : Request) : (unlockFileHandler fd req).silent := by
  refine (silent_requestPath req).bind fun path => (silent_storageGetFile path).bind fun r => ?_
  cases r with
  | none => trivial
  | some i =>
    refine fun _ => silent.ite trivial fun _ => silent.ite (fun _ _ => ?_) trivial
    exact (silent_storageUpdateFile i).bind fun _ => trivial

theorem silent_handle (fd : Int) {req : Request} (hw : req.type ≠ .writeFile)
    (hr : req.type ≠ .readNFiles) : (handle fd req).silent := by
  unfold handle
  cases ht : req.type with
  | openFile => exact (silent_openFileHandler fd req).bind fun _ => trivial
  | closeFile => exact (silent_closeFileHandler fd req).bind fun _ => trivial
  | writeFile => exact absurd ht hw
  | appendToFile => exact (silent_appendToFileHandler fd req).bind fun _ => trivial
  | readFile => exact (silent_readFileHandler req).bind fun _ => trivial
  | readNFiles => exact absurd ht hr
  | removeFile => exact (silent_removeFileHandler fd req).bind fun _ => trivial
  | lockFile => exact (silent_lockFileHandler fd req).bind fun _ => trivial
  | unlockFile => exact (silent_unlockFileHandler fd req).bind fun _ => trivial
  | openConnection | closeConnection => trivial

/-! ### What the other two send -/

/-- What a write has sent: nothing, or the number of the files that left and then each of them. -/
def Announced (fd : Nat) (sent sent' : List (Int × Response)) : Prop :=
  sent' = sent ∨ ∃ copies : List File, copies.length < 2 ^ 31 ∧
    sent' = sent ++ filesExpelledCount fd copies.length :: copies.map (filesExpelledFrame fd)

theorem answers_fifoReplaceLoop (n fuel : Nat) :
    (fifoReplaceLoop n fuel).answers fun r => r.2.length ≤ r.1 ∧ r.1 < fuel := by
  induction fuel with
  | zero => trivial
  | succ fuel ih =>
    refine fun s => answers_ite (answers_after fun path => answers_after fun r => ?_)
      ⟨Nat.le_refl _, Nat.succ_pos _⟩
    cases r with
    | none => trivial
    | some i =>
      refine fun copy => answers_ite (fun t block u => ?_) trivial
      dsimp only [Prog.bind]
      cases copyBytes block (u.heap i).contents (t.heap i).size with
      | none => trivial
      | some contents =>
        refine fun _ _ => answers_after (p := filesRemove _) fun _ => fun linked => ?_
        refine (answers_bind (p := fifoReplaceLoop n fuel)).mpr (ih.mono ?_)
        rintro r ⟨hle, hlt⟩
        refine ⟨?_, Nat.succ_lt_succ hlt⟩
        cases linked
        · exact Nat.le_succ_of_le hle
        · exact Nat.succ_le_succ hle

section Write

variable {fd : Nat} {w : StorageWorld}

theorem delivered_sendResponse {status : ResponseCode} {filePath body : Bytes}
    {R : Bool → StorageWorld → Prop} :
    (sendResponse fd status filePath body).delivered R w ↔
      R true (w.posted ((fd : Int), ⟨status, filePath, body⟩) true) := by
  have hfd : ¬(fd : Int) < 0 := by omega
  rw [sendResponse, if_neg hfd]
  rfl

theorem delivered_sendExpelled (copies : List File) :
    (sendExpelled fd copies).delivered
      (fun _ w' => w'.sent = w.sent ++ copies.map (filesExpelledFrame fd)) w := by
  induction copies generalizing w with
  | nil => exact (List.append_nil _).symm
  | cons copy copies ih =>
    refine delivered_bind.mpr (delivered_sendResponse.mpr (ih.mono fun _ w' h => ?_))
    rw [h, List.map_cons]
    exact List.append_assoc _ _ _

theorem delivered_writeFileExpelled {i : FileId} {body : Bytes} {r : Nat × List File}
    (hr : r.1 < 2 ^ 31) :
    (writeFileExpelled fd i body r).delivered (fun res w' =>
      res.1 ≠ .filesExpelled ∧ Announced fd w.sent w'.sent) w := by
  refine delivered_ite.mpr ⟨fun _ => ⟨nofun, .inl rfl⟩, fun hlen => ?_⟩
  replace hlen := not_not.mp hlen
  refine delivered_bind.mpr (delivered_sendResponse.mpr (delivered_ite.mpr ⟨fun _ => ?_, nofun⟩))
  refine delivered_bind.mpr ((delivered_sendExpelled r.2).mono fun _ w1 h1 => ?_)
  refine delivered_bind.mpr ?_
  refine ((answers_writeFileUpdate i body).returns.and
    (silent_writeFileUpdate i body).returns).delivered.mono ?_
  rintro status w2 ⟨hst, h2⟩
  have hstatus : status = .success := hst
  refine ⟨by simp [hstatus], .inr ⟨r.2, hlen ▸ hr, ?_⟩⟩
  rw [h2, h1, ← hlen]
  exact List.append_assoc _ _ _

theorem delivered_writeFileFitting {i : FileId} {body : Bytes} (hq : w.state.fifoQueue.length < 2 ^ 31) :
    (writeFileFitting fd i body).delivered (fun res w' =>
      res.1 ≠ .filesExpelled ∧ Announced fd w.sent w'.sent) w := by
  refine delivered_after (silent_load i _) (readOnly_load i _) fun f w1 hst1 hsent1 => ?_
  refine delivered_ite.mpr ⟨fun _ => ⟨nofun, .inl hsent1⟩, fun _ => ?_⟩
  refine delivered_after (fun _ => trivial) ⟨rfl, fun _ => trivial⟩ fun s w2 hst2 hsent2 => ?_
  rw [← hsent1, ← hsent2]
  refine delivered_ite.mpr ⟨fun _ => ?_, fun _ => ?_⟩
  · have hcount : (storageFIFOReplace body.length).returns (fun _ => True)
        (fun r _ => r.1 < 2 ^ 31) w2 := by
      refine (answers_fifoReplaceLoop body.length (w2.state.fifoQueue.length + 1)).returns.mono ?_
      rintro r w' ⟨-, hlt⟩
      rw [hst2, hst1] at hlt
      omega
    have hsilent : (storageFIFOReplace body.length).silent := fun _ => silent_fifoReplaceLoop _ _
    refine delivered_bind.mpr ((hcount.and hsilent.returns).delivered.mono ?_)
    rintro r w3 ⟨hr, hsent3⟩
    rw [← hsent3]
    exact delivered_writeFileExpelled hr
  · refine delivered_bind.mpr ?_
    refine ((answers_writeFileUpdate i body).returns.and
      (silent_writeFileUpdate i body).returns).delivered.mono ?_
    rintro status w3 ⟨hst, hsent3⟩
    have hstatus : status = .success := hst
    exact ⟨by simp [hstatus], .inl hsent3⟩

theorem delivered_writeFileHandler {req : Request} (hq : w.state.fifoQueue.length < 2 ^ 31) :
    (writeFileHandler fd req).delivered (fun res w' =>
      res.1 ≠ .filesExpelled ∧ Announced fd w.sent w'.sent) w := by
  refine delivered_after (silent_requestPath req) (readOnly_requestPath req) fun path w1 hst1 hsent1 => ?_
  refine delivered_ite.mpr ⟨fun _ => ⟨nofun, .inl hsent1⟩, fun _ => ?_⟩
  refine delivered_after (p := lockReturn) trivial trivial fun _ w2 hst2 hsent2 => ?_
  refine delivered_after (silent_storageGetFile path) (readOnly_storageGetFile path)
    fun r w3 hst3 hsent3 => ?_
  have hst : w3.state = w.state := by rw [hst3, hst2, hst1]
  have hsent : w3.sent = w.sent := by rw [hsent3, hsent2, hsent1]
  cases r with
  | none => exact ⟨nofun, .inl hsent⟩
  | some i =>
    refine delivered_after (silent_load i _) (readOnly_load i _) fun f w4 hst4 hsent4 => ?_
    refine delivered_ite.mpr ⟨fun _ => ⟨nofun, .inl (hsent4.trans hsent)⟩, fun _ => ?_⟩
    refine delivered_after (fun _ => trivial) ⟨rfl, fun _ => trivial⟩ fun s w5 hst5 hsent5 => ?_
    rw [← hsent, ← hsent4, ← hsent5]
    refine delivered_ite.mpr ⟨fun _ => ?_, fun _ => ?_⟩
    · refine delivered_after (p := unlockReturn) trivial trivial fun _ w6 _ hsent6 => ?_
      rw [← hsent6]
      refine delivered_bind.mpr ((silent_storageRemoveFile _).returns.delivered.mono ?_)
      exact fun _ w7 hsent7 => ⟨nofun, .inl hsent7⟩
    · refine delivered_writeFileFitting ?_
      rw [hst5, hst4, hst]
      exact hq

end Write

section ReadN

variable {fd : Nat} {w : StorageWorld} {req : Request}

theorem returns_collectFiles_found {ok : Bool → Prop} {n : Nat} {queue : List PathPtr}
    (hs : w.state.Sound) :
    (collectFiles n queue).returns ok (fun r _ =>
      r.1 = true → ∀ q ∈ queue.take n, q.path ∈ w.state.catalog.paths) w := by
  induction n, queue using collectFiles.induct generalizing w with
  | case1 queue => simp [collectFiles]
  | case2 n _ => simp [collectFiles]
  | case3 n iter rest ih =>
    simp only [collectFiles, bind_eq, returns_bind]
    refine returns_storageGetFile fun _ => ?_
    rw [Storage.find_some]
    cases hg : w.state.get iter.path with
    | none => simp
    | some i =>
      have hstored : iter.path ∈ w.state.catalog.paths := by
        by_contra hno
        have hget := hs.catalog_get hg
        rw [Catalog.get_eq_none_iff.mpr hno] at hget
        cases hget
      simp only [returns_bind, returns_alloc, pure_eq, returns_ret, List.take_succ_cons,
        List.forall_mem_cons]
      intro b _
      refine (ih (w := w.accessed (lookupAccesses (some iter.path)) id) hs).mono ?_
      exact fun r w' h hfound => ⟨hstored, h hfound⟩

/-- A request for files of which one is missing is refused. -/
theorem delivered_readNFilesHandler (hs : w.state.Sound)
    (hmiss : ∀ n ∈ readInt req.body, ∃ q ∈ w.state.catalog.queue.take (readNCap w.state.maxSize n.toInt),
      q ∉ w.state.catalog.paths) :
    (readNFilesHandler fd req).delivered (fun res w' =>
      res.1 = .internalError ∧ w'.sent = w.sent) w := by
  unfold readNFilesHandler
  cases hb : readInt req.body with
  | none => trivial
  | some n =>
    obtain ⟨q, hq, hmissing⟩ := hmiss n hb
    refine delivered_bind.mpr (delivered_read.mpr ?_)
    refine delivered_after (p := lockReturn) trivial trivial fun _ w1 hst1 hsent1 => ?_
    refine delivered_bind.mpr (delivered_read.mpr (delivered_bind.mpr ?_))
    let w2 := w1.accessed (fun _ => [Access.readQueue]) id
    have hst2 : w2.state = w.state := hst1
    have hfound : (collectFiles (readNCap w.state.maxSize n.toInt) w.state.fifoQueue).returns
        (fun _ => True) (fun r _ => r.1 = true → ∀ q ∈
          w.state.fifoQueue.take (readNCap w.state.maxSize n.toInt), q.path ∈ w2.state.catalog.paths)
        w2 := returns_collectFiles_found (hst2 ▸ hs)
    rw [hst1]
    refine (hfound.and (silent_collectFiles _ _).returns).delivered.mono ?_
    rintro ⟨found, files⟩ w3 ⟨hall, hsent3⟩
    refine delivered_after (p := unlockReturn) trivial trivial fun _ w4 _ hsent4 => ?_
    refine delivered_ite.mpr ⟨fun h => ?_, fun _ => ⟨rfl, ?_⟩⟩
    · rw [Storage.catalog, ← List.map_take] at hq
      obtain ⟨ptr, hptr, rfl⟩ := List.mem_map.mp hq
      rw [hst2] at hall
      exact absurd (hall h ptr hptr) hmissing
    · rw [hsent4, hsent3]
      exact hsent1

end ReadN

/-! ### Answers -/

/-- No other frame follows this one. -/
def Response.Lone (type : RequestCode) (frame : Response) : Prop :=
  (type = .writeFile → frame.status ≠ .filesExpelled) ∧ (type = .readNFiles → frame.status ≠ .success)

/-- The frames that the API reads for a request: one, or the number of the files that left, each of
them, and a last one. -/
inductive Frames (type : RequestCode) : List Response → Prop where
  | lone {frame : Response} (h : frame.Lone type) : Frames type [frame]
  | expelled {count final : Response} {files : List Response} {n : BitVec 32} (ht : type = .writeFile)
      (hs : count.status = .filesExpelled) (hn : readInt count.body = some n)
      (hl : n.toInt.toNat = files.length) : Frames type (count :: (files ++ [final]))

theorem framesTo_of_forall {fd : Nat} {sent : List (Int × Response)}
    (h : ∀ m ∈ sent, m.1 = (fd : Int)) : framesTo fd sent = sent.map Prod.snd := by
  rw [framesTo, List.filter_eq_self.mpr fun m hm => decide_eq_true (h m hm)]

theorem framesTo_append (fd : Nat) (sent sent' : List (Int × Response)) :
    framesTo fd (sent ++ sent') = framesTo fd sent ++ framesTo fd sent' := by
  rw [framesTo, List.filter_append, List.map_append]
  rfl

theorem framesTo_singleton (fd : Nat) (r : Response) : framesTo fd [((fd : Int), r)] = [r] :=
  framesTo_of_forall (by simp)

/-- The request finds the mutex free and is not one that is answered with a frame too many: none to
append, and one for some files only where it is refused. The number of files that may leave is an
`int`. -/
structure Server.Tallies (s : Server) (req : Request) : Prop where
  free : s.held = false
  append : req.type ≠ .appendToFile
  readN : req.type = .readNFiles → ∀ n ∈ readInt req.body,
    ∃ q ∈ s.storage.catalog.queue.take (readNCap s.storage.maxSize n.toInt), q ∉ s.storage.catalog.paths
  write : req.type = .writeFile → s.storage.catalog.queue.length < 2 ^ 31

theorem Server.tallies_iff {s : Server} {req : Request} : s.Tallies req ↔ s.held = false ∧
    req.type ≠ .appendToFile ∧ (req.type = .readNFiles → ∀ n ∈ readInt req.body,
      ∃ q ∈ s.storage.catalog.queue.take (readNCap s.storage.maxSize n.toInt),
        q ∉ s.storage.catalog.paths) ∧
    (req.type = .writeFile → s.storage.catalog.queue.length < 2 ^ 31) :=
  ⟨fun h => ⟨h.free, h.append, h.readN, h.write⟩, fun ⟨hf, ha, hr, hw⟩ => ⟨hf, ha, hr, hw⟩⟩

instance (s : Server) (req : Request) : Decidable (s.Tallies req) :=
  decidable_of_iff' _ Server.tallies_iff

section Handle

variable {fd : Nat} {w : StorageWorld} {req : Request}

theorem frames_lone_of_type (hw : req.type ≠ .writeFile) (hr : req.type ≠ .readNFiles)
    (frame : Response) : Frames req.type [frame] :=
  .lone ⟨fun h => absurd h hw, fun h => absurd h hr⟩

/-- What the handler has sent and the response that follows make up an answer. -/
theorem delivered_handle (hs : w.state.Sound)
    (hread : req.type = .readNFiles → ∀ n ∈ readInt req.body,
      ∃ q ∈ w.state.catalog.queue.take (readNCap w.state.maxSize n.toInt), q ∉ w.state.catalog.paths)
    (hwrite : req.type = .writeFile → w.state.catalog.queue.length < 2 ^ 31) :
    (handle fd req).delivered (fun reply w' => ∃ sent, w'.sent = w.sent ++ sent ∧
      ∀ path, Frames req.type (framesTo fd sent ++ [⟨reply.status, path, reply.body⟩])) w := by
  by_cases hw : req.type = .writeFile
  · have hq : w.state.fifoQueue.length < 2 ^ 31 := by
      rw [← List.length_map PathPtr.path]
      exact hwrite hw
    simp only [handle, hw, bind_eq, pure_eq]
    refine delivered_bind.mpr ((delivered_writeFileHandler hq).mono ?_)
    rintro ⟨status, files⟩ w1 ⟨hst, h | ⟨copies, hlen, hsent⟩⟩
    · exact ⟨[], h.trans (List.append_nil _).symm, fun path => .lone ⟨fun _ => hst, fun h => absurd h (by decide)⟩⟩
    · refine ⟨_, hsent, fun path => ?_⟩
      rw [framesTo_of_forall, List.map_cons, List.cons_append]
      · refine .expelled rfl rfl (readInt_intBytes _) ?_
        rw [toInt_ofInt hlen, Int.toNat_natCast, List.length_map, List.length_map]
      · intro m hm
        rcases List.mem_cons.mp hm with rfl | hm
        · rfl
        · obtain ⟨copy, -, rfl⟩ := List.mem_map.mp hm
          rfl
  by_cases hr : req.type = .readNFiles
  · simp only [handle, hr, bind_eq, pure_eq]
    refine delivered_bind.mpr ((delivered_readNFilesHandler hs (hread hr)).mono ?_)
    rintro ⟨status, files⟩ w1 ⟨hst, hsent⟩
    refine ⟨[], hsent.trans (List.append_nil _).symm, fun path =>
      .lone ⟨fun h => absurd h (by decide), fun _ h => ?_⟩⟩
    exact absurd (hst.symm.trans h) (by decide)
  · refine (silent_handle fd hw hr).returns.delivered.mono fun reply w1 hsent => ?_
    exact ⟨[], hsent.trans (List.append_nil _).symm, fun path => frames_lone_of_type hw hr _⟩

/-- Only a request for a lock brings somebody to wait. -/
theorem Settled.waiters_le {fail : Prop} {reply : Reply} {w' : StorageWorld} (hs : w.state.Sound)
    (h : Settled fail (.request fd req) w (some reply) w') (hn : req.type ≠ .lockFile) (p : Path)
    (clientFd : Nat) : w'.state.catalog.waiters p clientFd ≤ w.state.catalog.waiters p clientFd := by
  have hrelock : ∀ f : File, (w.state.catalog.relock (.request fd req) (some reply) f).waiters
      clientFd = f.waiters clientFd := by
    intro f
    have hno : ∀ q c, (Call.request fd req).awaits (some reply) q c = false := by simp [Call.awaits, hn]
    have hw : (w.state.catalog.relock (.request fd req) (some reply) f).waiters clientFd = _ :=
      Catalog.waiters_relock f fun ha => by simp [hno] at ha
    rw [hw, hno, if_neg Bool.false_ne_true, Nat.add_zero]
  obtain ⟨hs', ns, -, heff⟩ := h.done
  cases hg : w'.state.catalog.get p with
  | none =>
    rw [Catalog.waiters, hg]
    exact Nat.zero_le _
  | some g =>
    obtain ⟨hm, hp⟩ := Catalog.get_eq_some hg
    rcases Catalog.origin heff h.locking hm with ⟨f, hf, hsur⟩ | ⟨-, -, list, heq⟩
    · have hget := (Catalog.get_eq_some_iff hs.nodup).mpr ⟨hf, hsur.path.symm.trans hp⟩
      rw [Catalog.waiters, Catalog.waiters, hg, hget, Option.elim_some, Option.elim_some, ← hrelock f,
        File.waiters, hsur.waiting, File.waiters]
    · have hfresh : (File.fresh g.path list).waiters clientFd = 0 := by
        cases list <;> rfl
      rw [Catalog.waiters, hg, Option.elim_some, heq, hrelock, hfresh]
      exact Nat.zero_le _

theorem delivered_respond {path : Bytes} {reply : Reply} {R : Unit → StorageWorld → Prop} :
    (respond fd path reply).delivered R w ↔
      R () (w.posted ((fd : Int), ⟨reply.status, path, reply.body⟩) true) :=
  delivered_bind.trans delivered_sendResponse

/-- The client has its answer, or it waits for the lock of a file. -/
def Settles (fd : Nat) (req : Request) (v : Catalog) (frames : List Response) (v' : Catalog) : Prop :=
  (Frames req.type frames ∧ ∀ p, v'.waiters p fd ≤ v.waiters p fd) ∨
    req.type = .lockFile ∧ frames = [] ∧ ∃ q, req.path.join = some q ∧
      ∀ p, v'.waiters p fd = v.waiters p fd + if p = q then 1 else 0

theorem delivered_answer (hs : w.state.Sound) (hsent : w.sent = []) (hl : req.type ≠ .lockFile)
    (hread : req.type = .readNFiles → ∀ n ∈ readInt req.body,
      ∃ q ∈ w.state.catalog.queue.take (readNCap w.state.maxSize n.toInt), q ∉ w.state.catalog.paths)
    (hwrite : req.type = .writeFile → w.state.catalog.queue.length < 2 ^ 31) (path : Bytes) :
    ((handle fd req).bind fun reply => respond fd path reply).delivered (fun _ w' =>
      Settles fd req w.state.catalog (framesTo fd w'.sent) w'.state.catalog) w := by
  refine delivered_bind.mpr ?_
  refine ((delivered_handle hs hread hwrite).and (returns_handle hs).delivered).mono ?_
  rintro reply w1 ⟨⟨sent, hsent1, hframes⟩, hset⟩
  refine delivered_respond.mpr (.inl ⟨?_, ?_⟩)
  · have hall : (w1.posted ((fd : Int), ⟨reply.status, path, reply.body⟩) true).sent =
        sent ++ [((fd : Int), ⟨reply.status, path, reply.body⟩)] := by
      rw [World.posted, hsent1, hsent]
      rfl
    rw [hall, framesTo_append, framesTo_singleton]
    exact hframes path
  · rw [World.posted_state]
    exact fun p => hset.waiters_le hs hl p fd

theorem delivered_lock (hs : w.state.Sound) (hsent : w.sent = []) (hl : req.type = .lockFile) :
    ((handle fd req).bind fun reply => whenever (reply.status ≠ .awaiting)
      (respond fd req.filePath reply)).delivered (fun _ w' =>
        Settles fd req w.state.catalog (framesTo fd w'.sent) w'.state.catalog) w := by
  have hwaits : (handle fd req).returns (fun _ => True) (fun reply _ => reply.status = .awaiting →
      ∃ p f, req.path.join = some p ∧ w.state.catalog.get p = some f ∧ f.Waits fd) w := by
    simp only [handle, hl, bind_eq, pure_eq, returns_bind, returns_ret]
    exact (returns_lockFileHandler hs).mono fun status w' h => h.2
  have hsilent : (handle fd req).silent := silent_handle fd (by simp [hl]) (by simp [hl])
  refine delivered_bind.mpr ?_
  refine ((returns_handle hs).and (hsilent.returns.and hwaits)).delivered.mono ?_
  rintro reply w1 ⟨hset, hsent1, hwait⟩
  obtain ⟨hs1, ns, -, heff⟩ := hset.done
  have hother : w.state.catalog.deed (.request fd req) = .other := by
    apply Catalog.deed_other <;> simp [hl]
  have hcount : ∀ p, w1.state.catalog.waiters p fd = w.state.catalog.waiters p fd + _ := fun p =>
    Catalog.waiters_request hs.nodup hs1.nodup heff hset.locking
    (by rw [hother]; trivial) fun q hq => by
      simp only [Call.awaits, decide_eq_true_eq, Option.map_some, Option.some.injEq] at hq
      obtain ⟨p, f, hp, hf⟩ := hwait hq.2.2.2
      obtain rfl : p = q := Option.some.inj (hp.symm.trans hq.2.2.1)
      exact ⟨f, hf⟩
  refine delivered_ite.mpr ⟨fun hst => ?_, fun hst => ?_⟩
  · refine delivered_respond.mpr (.inl ⟨?_, fun p => ?_⟩)
    · rw [World.posted, hsent1, hsent]
      refine cast (congrArg _ (framesTo_singleton _ _).symm) ?_
      exact frames_lone_of_type (by simp [hl]) (by simp [hl]) _
    · rw [World.posted_state, hcount]
      simp [Call.awaits, hst]
  · replace hst := not_not.mp hst
    obtain ⟨q, f, hq, -⟩ := hwait hst
    refine .inr ⟨hl, by rw [hsent1, hsent]; rfl, q, hq, fun p => ?_⟩
    rw [hcount]
    simp [Call.awaits, hst, hl, hq, eq_comm]

theorem delivered_serve {d : Dispatcher} {s : Server} (hs : s.storage.Sound) (ht : s.Tallies req)
    (hc : req.type ≠ .closeConnection) :
    (serve d fd req).delivered (fun _ w' =>
      Settles fd req s.storage.catalog (framesTo fd w'.sent) w'.state.catalog) s.world := by
  have hanswer : req.type ≠ .lockFile → ∀ path : Bytes,
      ((handle fd req).bind fun reply => respond fd path reply).delivered (fun _ w' =>
        Settles fd req s.storage.catalog (framesTo fd w'.sent) w'.state.catalog) s.world :=
    fun hl => delivered_answer (w := s.world) hs rfl hl ht.readN ht.write
  unfold serve
  cases htype : req.type with
  | openConnection =>
    refine delivered_respond.mpr (.inl ⟨?_, fun p => ?_⟩)
    · refine cast (congrArg _ (framesTo_singleton _ _).symm) ?_
      exact frames_lone_of_type (by simp [htype]) (by simp [htype]) _
    · rw [World.posted_state]
      exact Nat.le_refl _
  | closeConnection => exact absurd htype hc
  | appendToFile => exact absurd htype ht.append
  | lockFile => exact delivered_lock (w := s.world) hs rfl htype
  | readNFiles => exact hanswer (by simp [htype]) []
  | _ => exact hanswer (by simp [htype]) req.filePath

/-- The worker does not wait for a free mutex. -/
theorem serve_not_blocked {d : Dispatcher} {env : List Bool} (hw : w.held = false)
    (ha : req.type ≠ .appendToFile) : ((serve d fd req).run env w).1 ≠ .blocked := by
  have hrespond : ∀ (path : Bytes) (reply : Reply) (held : Bool),
      (respond fd path reply).safe mutexRule (fun _ _ => True) held := fun path reply held =>
    ((plain_sendResponse _ _ _ _).bind fun _ => plain_ret _).safe (fun _ => trivial) fun _ => trivial
  have hanswer : ∀ path : Bytes, ((handle fd req).bind fun reply => respond fd path reply).safe
      mutexRule (fun _ _ => True) w.held := by
    intro path
    rw [hw]
    exact (safe_handle fd req).bind fun reply held _ => hrespond path reply held
  refine safe.not_blocked (Q := fun _ _ => True) ?_ (A := mutexRule) (fun h => by cases h) env
  unfold serve
  cases htype : req.type with
  | openConnection => exact hrespond _ _ _
  | closeConnection => trivial
  | appendToFile => exact absurd htype ha
  | lockFile =>
    rw [hw]
    refine (safe_handle fd req).bind fun reply held _ => safe_ite.mpr ⟨fun _ => ?_, fun _ => trivial⟩
    exact hrespond _ _ _
  | readNFiles => exact hanswer []
  | _ => exact hanswer req.filePath

end Handle

/-! ### Calls of the others -/

/-- The messages of a request are for its client. -/
theorem posts_handle (fd : Nat) (req : Request) : (handle fd req).posts fun m => m.1 = (fd : Int) := by
  have hsend : ∀ (status : ResponseCode) (filePath body : Bytes),
      (sendResponse fd status filePath body).posts fun m => m.1 = (fd : Int) := by
    intro status filePath body
    exact posts.ite trivial ⟨rfl, fun _ => trivial⟩
  have hexpelled : ∀ copies : List File, (sendExpelled fd copies).posts fun m => m.1 = (fd : Int) := by
    intro copies
    induction copies with
    | nil => trivial
    | cons copy copies ih => exact (hsend _ _ _).bind fun _ => ih
  have hfiles : ∀ files : List FileId, (sendFiles fd files).posts fun m => m.1 = (fd : Int) := by
    intro files
    induction files with
    | nil => trivial
    | cons i files ih => exact (silent_load i _).posts.bind fun f => (hsend _ _ _).bind fun _ => ih
  by_cases hw : req.type = .writeFile
  · simp only [handle, hw, bind_eq, pure_eq]
    refine posts.bind ?_ fun _ => trivial
    refine (silent_requestPath req).posts.bind fun path => posts.ite trivial ?_
    refine (silent_storageGetFile path).posts.bind fun r => ?_
    cases r with
    | none => trivial
    | some i =>
      refine (silent_load i _).posts.bind fun f => posts.ite trivial fun s => posts.ite ?_ ?_
      · exact (silent_storageRemoveFile _).posts.bind fun _ => trivial
      refine (silent_load i _).posts.bind fun f => posts.ite trivial fun s => posts.ite ?_ ?_
      · have hreplace : (storageFIFOReplace req.body.length).silent := fun _ =>
          silent_fifoReplaceLoop _ _
        refine hreplace.posts.bind fun r => posts.ite trivial ((hsend _ _ _).bind fun b => ?_)
        refine posts.ite ((hexpelled _).bind fun _ => ?_) trivial
        exact (silent_writeFileUpdate i _).posts.bind fun _ => trivial
      · exact (silent_writeFileUpdate i _).posts.bind fun _ => trivial
  by_cases hr : req.type = .readNFiles
  · simp only [handle, hr, bind_eq, pure_eq]
    refine posts.bind ?_ fun _ => trivial
    unfold readNFilesHandler
    cases readInt req.body with
    | none => trivial
    | some n =>
      refine fun s s' => (silent_collectFiles _ _).posts.bind fun r => posts.ite ?_ trivial
      exact (hsend _ _ _).bind fun _ => (hfiles _).bind fun _ => trivial
  · exact (silent_handle fd hw hr).posts

/-- The lock manager only grants. -/
theorem posts_lockManagerPass :
    lockManagerPass.posts fun m => ∃ clientFd p, m = grantMessage clientFd p := by
  have hvisit : ∀ queue : List PathPtr,
      (lockManagerVisit queue).posts fun m => ∃ clientFd p, m = grantMessage clientFd p := by
    intro queue
    induction queue with
    | nil => trivial
    | cons curr rest ih =>
      refine (silent_storageGetFile _).posts.bind fun r => ?_
      cases r with
      | none => trivial
      | some i =>
        refine (silent_load i _).posts.bind fun f => posts.bind ?_ fun _ => ih
        unfold lockManagerGrant
        split
        · refine posts.ite (fun _ _ _ => ?_) trivial
          refine (silent_storageUpdateFile i).posts.bind fun _ => posts.bind ?_ fun _ => trivial
          exact posts.ite trivial ⟨⟨_, _, rfl⟩, fun _ => trivial⟩
        · trivial
  exact fun s => (hvisit _).bind fun _ => trivial

end FileStorage
