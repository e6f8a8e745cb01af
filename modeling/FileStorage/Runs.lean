import FileStorage.Opening

/-! Runs of the storage routines with given answers of the environment. -/

namespace FileStorage

open Prog

/-- `storage_get_file` where it returns. -/
def Storage.lookup (s : Storage) (path : Option Path) : Option (Option FileId) :=
  if s.files.nBuckets = 0 then none
  else match path with
    | some p => some (s.get p)
    | none => if s.files.chain 0 = [] then some none else none

theorem path_of_lookup {s : Storage} {path : Option Path} {i : FileId}
    (h : s.lookup path = some (some i)) : ∃ p, path = some p := by
  cases path with
  | some p => exact ⟨p, rfl⟩
  | none =>
    unfold Storage.lookup at h
    split at h
    · cases h
    · dsimp only at h
      split at h <;> cases h

theorem run_storageGetFile (path : Option Path) (env : List Bool) (w : StorageWorld) :
    (storageGetFile path).run env w = match w.state.lookup path with
      | some r => (.done r, w.accessed (lookupAccesses path) id, env)
      | none => (.crashed, w.accessed (lookupAccesses path) id, env) := by
  unfold storageGetFile Storage.lookup
  by_cases hn : w.state.files.nBuckets = 0
  · simp [Prog.run, hn]
  · cases path with
    | some p => simp [Prog.run, hn]
    | none => by_cases hc : w.state.files.chain 0 = [] <;> simp [Prog.run, hn, hc]

section Lookup

variable {α : Type} {env : List Bool} {w : StorageWorld} {R : α → StorageWorld → Prop}

theorem yields_blocked {g : Unit → ServerM α} (h : w.held = true) :
    (lockReturn.bind g).yields env R w := by
  intro a ha
  simp [lockReturn, Prog.bind, run, h] at ha

/-- A handler that starts with the lookup of its path in a critical section. -/
theorem yields_lookup {path : Option Path} {g : Option FileId → ServerM α} (hw : w.held = false) :
    (lockReturn.bind fun _ => (storageGetFile path).bind g).yields env R w ↔
      ∀ r, w.state.lookup path = some r →
        (g r).yields env R (w.locked.accessed (lookupAccesses path) id) := by
  rw [yields_bind (run_lockReturn env w hw)]
  have hr := run_storageGetFile path env w.locked
  rw [World.locked_state] at hr
  cases hl : w.state.lookup path with
  | none =>
    rw [hl] at hr
    simpa using yields_bind_crashed hr
  | some r =>
    rw [hl] at hr
    simpa using yields_bind hr

end Lookup

theorem run_sendResponse (fd : Int) (status : ResponseCode) (filePath body : Bytes)
    (env : List Bool) (w : StorageWorld) :
    ∃ b w' env', (sendResponse fd status filePath body).run env w = (.done b, w', env') ∧
      w'.trace = w.trace ∧ w'.held = w.held := by
  unfold sendResponse
  by_cases h : fd < 0
  · exact ⟨false, w, env, by rw [if_pos h]; rfl, rfl, rfl⟩
  · exact ⟨_, _, _, by rw [if_neg h]; rfl, World.posted_trace _ _ _, World.posted_held _ _ _⟩

theorem run_sendResponse_client (clientFd : Nat) (status : ResponseCode) (filePath body : Bytes)
    (env : List Bool) (w : StorageWorld) :
    (sendResponse clientFd status filePath body).run env w = (.done (env.headD true),
      w.posted (clientFd, ⟨status, filePath, body⟩) (env.headD true), env.tail) := by
  unfold sendResponse
  rw [if_neg (by omega)]
  rfl

/-! ### Storing and removing a file -/

theorem run_load (i : FileId) (fs : List Field) (env : List Bool) (w : StorageWorld) :
    (load i fs).run env w =
      (.done (w.state.heap i), w.accessed (fun _ => fs.map (.readField i)) id, env) := rfl

theorem run_modify (es : Storage → List Access) (f : Storage → Storage) (env : List Bool)
    (w : StorageWorld) :
    (modify es f : ServerM Unit).run env w = (.done (), w.accessed es f, env) := rfl

theorem run_queueRemoveElement (p : Path) (env : List Bool) (w : StorageWorld) :
    ∃ w', (queueRemoveElement p).run env w = (.done (w.state.queued p).isSome, w', env) ∧
      w'.state = w.state.unqueue p ∧ w'.held = w.held :=
  ⟨_, rfl, rfl, rfl⟩

theorem run_storageCreateFile {p : Path} {env : List Bool} {w : StorageWorld}
    (hb : env.headD true = true) (hp : p.length < maxPath) :
    (storageCreateFile (some p)).run env w = (.done (some w.state.next),
      w.accessed (fun _ => []) fun s => s.newFile (File.fresh p (env.tail.headD true)),
      env.tail.tail) := by
  unfold storageCreateFile
  simp only [bind_eq, pure_eq]
  rw [run_bind_done (run_alloc _ _), if_pos hb, if_pos hp, run_bind_done (run_alloc _ _)]
  rfl

theorem run_storageCreateFile_none {path : Option Path} {env : List Bool} {w : StorageWorld}
    (hb : env.headD true = false) :
    (storageCreateFile path).run env w = (.done none, w, env.tail) := by
  unfold storageCreateFile
  simp only [bind_eq, pure_eq]
  rw [run_bind_done (run_alloc _ _), hb, if_neg Bool.false_ne_true]
  rfl

/-- The path is missing, or it does not fit in the record. -/
theorem run_storageCreateFile_crashed {path : Option Path} {env : List Bool} {w : StorageWorld}
    (hb : env.headD true = true) (hp : ∀ p, path = some p → maxPath ≤ p.length) :
    (storageCreateFile path).run env w = (.crashed, w, env.tail) := by
  unfold storageCreateFile
  simp only [bind_eq, pure_eq]
  rw [run_bind_done (run_alloc _ _), if_pos hb]
  cases path with
  | none => rfl
  | some p =>
    have hlen := hp p rfl
    simp only [if_neg (Nat.not_lt.mpr hlen), run_crash]

theorem run_queueRemoveHead (env : List Bool) (w : StorageWorld) :
    ∃ w', queueRemoveHead.run env w = (.done w.state.fifoQueue.head?, w', env) ∧
      w'.state = w.state.dequeue ∧ w'.held = w.held :=
  ⟨_, rfl, rfl, rfl⟩

theorem run_storageAddFile {i : FileId} {env : List Bool} {w : StorageWorld}
    (hl : w.state.lookup (some (w.state.heap i).path) = some none) :
    ∃ w', (storageAddFile i).run env w = (.done (env.headD true), w', env.tail) ∧
      w'.held = w.held ∧ w'.state = if env.headD true then
        (w.state.insertFile (w.state.heap i).path i).addFiles 1 else w.state := by
  have hrun := run_storageGetFile (some (w.state.heap i).path) env
    (w.accessed (fun _ => [Field.path].map (Access.readField i)) id)
  rw [World.accessed_state, id, hl] at hrun
  unfold storageAddFile filesInsert
  simp only [bind_eq, pure_eq, bind_assoc]
  rw [run_bind_done (run_load i _ env w), run_bind_done hrun]
  simp only [bind_assoc]
  rw [run_bind_done (run_alloc _ _)]
  cases hb : env.headD true with
  | true => exact ⟨_, rfl, rfl, rfl⟩
  | false => exact ⟨_, rfl, rfl, rfl⟩

theorem lookup_eq_get {s : Storage} (hn : s.files.nBuckets ≠ 0) (p : Path) :
    s.lookup (some p) = some (s.get p) := by
  simp [Storage.lookup, hn]

theorem get_of_lookup {s : Storage} {p : Path} {r : Option FileId} (h : s.lookup (some p) = some r) :
    s.files.nBuckets ≠ 0 ∧ s.get p = r := by
  have hn : s.files.nBuckets ≠ 0 := by
    intro h0
    simp [Storage.lookup, h0] at h
  rw [lookup_eq_get hn] at h
  exact ⟨hn, Option.some.inj h⟩

theorem run_filesRemove {p : Path} {i : FileId} {env : List Bool} {w : StorageWorld}
    (hn : w.state.files.nBuckets ≠ 0) (hg : w.state.get p = some i)
    (hw : (w.state.heap i).waitingOnLock ≠ none) :
    ∃ w', (filesRemove p).run env w = (.done true, w', env) ∧
      w'.state = (w.state.eraseFile p).release i ∧ w'.held = w.held := by
  have hrun := run_storageGetFile (some p) env w
  rw [lookup_eq_get hn, hg] at hrun
  unfold filesRemove freeFile
  simp only [bind_eq, pure_eq, bind_assoc]
  rw [run_bind_done hrun, run_bind_done (run_modify _ _ _ _), run_bind_done (run_load _ _ _ _),
    if_neg]
  · exact ⟨_, rfl, rfl, rfl⟩
  · intro h
    exact hw (Option.isNone_iff_eq_none.mp h)

theorem run_filesRemove_crashed {p : Path} {i : FileId} {env : List Bool} {w : StorageWorld}
    (hn : w.state.files.nBuckets ≠ 0) (hg : w.state.get p = some i)
    (hw : (w.state.heap i).waitingOnLock = none) :
    ∃ w', (filesRemove p).run env w = (.crashed, w', env) := by
  have hrun := run_storageGetFile (some p) env w
  rw [lookup_eq_get hn, hg] at hrun
  unfold filesRemove freeFile
  simp only [bind_eq, pure_eq, bind_assoc]
  rw [run_bind_done hrun, run_bind_done (run_modify _ _ _ _), run_bind_done (run_load _ _ _ _),
    if_pos]
  · exact ⟨_, rfl⟩
  · exact Option.isNone_iff_eq_none.mpr hw

theorem yields_filesRemove_crashed {β : Type} {p : Path} {i : FileId} {env : List Bool}
    {w : StorageWorld} {g : Bool → ServerM β} {R : β → StorageWorld → Prop}
    (hn : w.state.files.nBuckets ≠ 0) (hg : w.state.get p = some i)
    (hw : (w.state.heap i).waitingOnLock = none) : ((filesRemove p).bind g).yields env R w := by
  obtain ⟨w', h'⟩ := @run_filesRemove_crashed p i env w hn hg hw
  exact yields_bind_crashed h'

/-- `storage_remove_file` gets through: it frees a record with a waiting list, if any. -/
def Storage.Removable (s : Storage) (p : Path) : Prop :=
  ∀ i, s.get p = some i → (s.queued p).isSome = true → (s.heap i).waitingOnLock ≠ none

theorem run_storageRemoveFile {p : Path} {env : List Bool} {w : StorageWorld}
    (hn : w.state.files.nBuckets ≠ 0) (hr : w.state.Removable p) :
    ∃ b w', (storageRemoveFile p).run env w = (.done b, w', env) ∧ w'.held = w.held ∧
      w'.state = (w.state.get p).elim w.state (w.state.removed p) := by
  have hrun := run_storageGetFile (some p) env w
  rw [lookup_eq_get hn] at hrun
  unfold storageRemoveFile dropCount shrinkBy
  simp only [bind_eq, pure_eq]
  rw [run_bind_done hrun]
  cases hg : w.state.get p with
  | none => exact ⟨false, _, rfl, rfl, rfl⟩
  | some i =>
    simp only [Option.elim_some]
    rw [run_bind_done (run_modify _ _ _ _), run_bind_done (run_modify _ _ _ _)]
    obtain ⟨w1, h1, hst, hh⟩ := run_queueRemoveElement p env
      (((w.accessed (lookupAccesses (some p)) id).accessed (fun _ => [.writeNoOfFiles])
        fun s => s.addFiles (-1)).accessed
        (fun s => [.readField i .size, .shrinkSize s.currentSize (s.heap i).size])
        fun s => s.shrink (s.heap i).size)
    rw [run_bind_done h1]
    replace hst : w1.state = ((w.state.addFiles (-1)).shrink (w.state.heap i).size).unqueue p := hst
    change ∃ b w', (if (w.state.queued p).isSome = true then filesRemove p else ret false).run env w1 =
      (.done b, w', env) ∧ _
    have hn1 : w1.state.files.nBuckets ≠ 0 := by
      rw [hst, Storage.unqueue_files]
      exact hn
    have hg1 : w1.state.get p = some i := by
      rw [hst, Storage.get, Storage.unqueue_files]
      exact hg
    have hheap : w1.state.heap = w.state.heap := by
      rw [hst, Storage.unqueue_heap]
      rfl
    unfold Storage.removed
    by_cases hq : (w.state.queued p).isSome = true
    · rw [if_pos hq, if_pos hq, ← hst]
      obtain ⟨w', h', hst', hh'⟩ := run_filesRemove hn1 hg1 (hheap ▸ hr i hg hq)
      exact ⟨true, w', h', hh'.trans hh, hst'⟩
    · rw [if_neg hq, if_neg hq, ← hst]
      exact ⟨false, w1, rfl, hh, rfl⟩

theorem run_storageRemoveFile_crashed {p : Path} {env : List Bool} {w : StorageWorld}
    (hn : w.state.files.nBuckets ≠ 0) (hr : ¬w.state.Removable p) :
    ∃ w', (storageRemoveFile p).run env w = (.crashed, w', env) := by
  simp only [Storage.Removable, not_forall, not_not] at hr
  obtain ⟨i, hg, hq, hw⟩ := hr
  have hrun := run_storageGetFile (some p) env w
  rw [lookup_eq_get hn, hg] at hrun
  unfold storageRemoveFile dropCount shrinkBy
  simp only [bind_eq, pure_eq]
  rw [run_bind_done hrun]
  dsimp only
  rw [run_bind_done (run_modify _ _ _ _), run_bind_done (run_modify _ _ _ _)]
  obtain ⟨w1, h1, hst, -⟩ := run_queueRemoveElement p env
    (((w.accessed (lookupAccesses (some p)) id).accessed (fun _ => [.writeNoOfFiles])
      fun s => s.addFiles (-1)).accessed
      (fun s => [.readField i .size, .shrinkSize s.currentSize (s.heap i).size])
      fun s => s.shrink (s.heap i).size)
  rw [run_bind_done h1]
  change ∃ w', (if (w.state.queued p).isSome = true then filesRemove p else ret false).run env w1 = _
  rw [if_pos hq]
  refine run_filesRemove_crashed (i := i) ?_ ?_ ?_
  · rw [hst, Storage.unqueue_files]
    exact hn
  · rw [hst, Storage.get, Storage.unqueue_files]
    exact hg
  · rw [hst, Storage.unqueue_heap]
    exact hw

end FileStorage
