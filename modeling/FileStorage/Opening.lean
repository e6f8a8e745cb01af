import FileStorage.Quiet

/-! Removing a file from the storage, and `open_file_handler`. -/

namespace FileStorage

open Prog

namespace Storage

variable {s : Storage}

theorem dequeue_of_nil (h : s.fifoQueue = []) : s.dequeue = s := by
  cases s
  simp_all [dequeue]

theorem mem_queue {p : Path} : p ∈ s.catalog.queue ↔ (s.queued p).isSome := by
  simp only [catalog, queued, List.mem_map, List.find?_isSome, decide_eq_true_eq]

theorem catalog_unqueue (s : Storage) (p : Path) :
    (s.unqueue p).catalog = { s.catalog with queue := s.catalog.queue.erase p } := by
  have he : s.catalog.queue.erase p =
      (s.fifoQueue.eraseP fun q => decide (q.path = p)).map PathPtr.path := by
    have hp : (fun x => x == p) ∘ PathPtr.path = fun q : PathPtr => decide (q.path = p) := by
      funext q
      by_cases hq : q.path = p <;> simp [hq]
    rw [List.erase_eq_eraseP', catalog, List.eraseP_map, hp]
  cases hq : s.queued p with
  | some q =>
    rw [he]
    simp only [unqueue, hq]
    rfl
  | none =>
    have hp : p ∉ s.catalog.queue := by simp [mem_queue, hq]
    rw [List.erase_of_not_mem hp]
    simp only [unqueue, hq]

@[simp] theorem unqueue_heap (s : Storage) (p : Path) : (s.unqueue p).heap = s.heap := by
  unfold unqueue
  split <;> rfl

@[simp] theorem unqueue_next (s : Storage) (p : Path) : (s.unqueue p).next = s.next := by
  unfold unqueue
  split <;> rfl

@[simp] theorem unqueue_files (s : Storage) (p : Path) : (s.unqueue p).files = s.files := by
  unfold unqueue
  split <;> rfl

@[simp] theorem removed_heap (s : Storage) (p : Path) (i : FileId) :
    (s.removed p i).heap = s.heap := by
  by_cases hq : (s.queued p).isSome <;> simp [removed, hq, eraseFile, release, shrink, addFiles]

@[simp] theorem removed_next (s : Storage) (p : Path) (i : FileId) :
    (s.removed p i).next = s.next := by
  by_cases hq : (s.queued p).isSome <;> simp [removed, hq, eraseFile, release, shrink, addFiles]

/-- A lookup in a table some of whose entries have gone. -/
theorem Sound.get_eraseFile (hs : s.Sound) (hn : 0 < s.files.nBuckets) {p q : Path} {i : FileId}
    (h : (s.eraseFile p).get q = some i) : s.get q = some i := by
  have he := (hs.eraseFile hn p).placed.get_eq_some_iff.mp h
  simp only [Storage.eraseFile, hs.placed.entries_remove hn] at he
  exact hs.placed.get_eq_some_iff.mpr (List.mem_of_mem_filter he)

/-- What `storage_remove_file` does to a stored path. -/
theorem Sound.removed (hs : s.Sound) {p : Path} {i : FileId} (hg : s.get p = some i) :
    (s.removed p i).Sound ∧ (s.removed p i).catalog = s.catalog.discard p (s.heap i) := by
  have hn : 0 < (((s.addFiles (-1)).shrink (s.heap i).size).unqueue p).files.nBuckets := by
    rw [unqueue_files]
    exact hs.nBuckets_pos hg
  have h1 : (((s.addFiles (-1)).shrink (s.heap i).size).unqueue p).Sound :=
    hs.of_eq (by simp; rfl) (by simp; rfl) (by simp; rfl)
  have hc := catalog_unqueue ((s.addFiles (-1)).shrink (s.heap i).size) p
  by_cases hq : (s.queued p).isSome
  · have hr : s.removed p i =
        ((((s.addFiles (-1)).shrink (s.heap i).size).unqueue p).eraseFile p).release i := by
      rw [Storage.removed, if_pos hq]
    have h2 := h1.eraseFile hn p
    refine ⟨hr ▸ h2.of_eq rfl rfl rfl, ?_⟩
    have hce := h1.catalog_eraseFile hn p
    rw [hc] at hce
    rw [hr, Catalog.discard, if_pos (mem_queue.mpr hq)]
    exact hce
  · have hr : s.removed p i = ((s.addFiles (-1)).shrink (s.heap i).size).unqueue p := by
      rw [Storage.removed, if_neg hq]
    refine ⟨hr ▸ h1, ?_⟩
    rw [hr, Catalog.discard, if_neg (fun h => hq (mem_queue.mp h))]
    exact hc

end Storage

section Create

variable {ok : Bool → Prop} {w : StorageWorld}

theorem returns_storageCreateFile {path : Option Path} {R : Option FileId → StorageWorld → Prop}
    (hf : ok false → R none w)
    (hs : ∀ p list w', path = some p → w.Moved w' (w.state.newFile (File.fresh p list)) [] →
      R (some w.state.next) w') : (storageCreateFile path).returns ok R w := by
  simp only [storageCreateFile, bind_eq, pure_eq, returns_bind, returns_alloc, returns_ite,
    returns_ret]
  refine fun b hb => ⟨fun _ => ?_, fun h => hf (by simpa [h] using hb)⟩
  cases path with
  | none => exact returns_crash
  | some p =>
    simp only [returns_ite, returns_bind, returns_alloc, returns_access, returns_ret]
    exact ⟨fun _ list _ => hs p list _ rfl ⟨rfl, rfl, by simp⟩, fun _ => returns_crash⟩

/-- A fresh record joins the table. -/
theorem returns_storageAddFile {p : Path} {i : FileId} {list : Bool} (hs : w.state.Sound)
    (hg : w.state.get p = none) (hi : i < w.state.next)
    (hh : w.state.heap i = File.fresh p list) {R : Bool → StorageWorld → Prop}
    (ht : ∀ w', w'.state.Sound → w.state.catalog.Created p w'.state.catalog →
      w'.notes = w.notes → R true w')
    (hf : ok false → ∀ w', Relocked id w w' → R false w') :
    (storageAddFile i).returns ok R w := by
  have hp : (w.state.heap i).path = p := by rw [hh]; rfl
  simp only [storageAddFile, bind_eq, pure_eq, returns_bind]
  refine returns_filesInsert_new (hp ▸ hg) (fun hn _ w1 h1 => ?_) fun _ hb w1 h1 => ?_
  · simp only [if_true, returns_bind, returns_modify, returns_ret]
    have hn := Nat.pos_of_ne_zero hn
    rw [hp] at h1
    have h2 := hs.insertFile hn hp hi
    have h3 : (w1.accessed (fun _ => [Access.writeNoOfFiles]) fun s => s.addFiles 1).state =
        (w.state.insertFile p i).addFiles 1 := by rw [World.accessed_state, h1.state]
    refine ht _ (h3 ▸ h2.of_eq rfl rfl rfl) ⟨hs.catalog_get_none hg, ⟨list, ?_⟩, ?_⟩ ?_
    · rw [h3, ← hh]
      exact hs.catalog_insertFile_new hn hg
    · rw [h3]
      rfl
    · simp [h1.notes]
  · simp only [Bool.false_eq_true, if_false, returns_ret]
    exact hf hb w1 (h1.relocked (.of_state hs rfl rfl))

/-- The end of the first part of `open_file_handler`. -/
theorem returns_addCreated {p : Path} {i : FileId} {list : Bool} (hs : w.state.Sound)
    (hg : w.state.get p = none) (hi : i < w.state.next)
    (hh : w.state.heap i = File.fresh p list) {R : Option ResponseCode → StorageWorld → Prop}
    (ht : ∀ w', w'.state.Sound → w.state.catalog.Created p w'.state.catalog →
      w'.notes = w.notes → R none w')
    (hf : ok false → ∀ w', Relocked id w w' → R none w') :
    (storageAddFile i).returns ok (fun _ w' => unlockReturn.returns ok
      (fun _ w'' => (ret none).returns ok R w'') w') w := by
  simp only [returns_unlockReturn, returns_ret]
  refine returns_storageAddFile hs hg hi hh (fun w' h h' h'' => ?_) fun hb w' h => ?_
  · exact ht _ h h' (by simpa using h'')
  · exact hf hb _ (h.after rfl (by simp))

theorem returns_queueRemoveHead {R : Option PathPtr → StorageWorld → Prop}
    (hn : w.state.fifoQueue = [] → ∀ w', w.Moved w' w.state [] → R none w')
    (hs : ∀ q, w.state.fifoQueue.head? = some q → ∀ w', w.Moved w' w.state.dequeue
      [.victim q.path] → R (some q) w') : queueRemoveHead.returns ok R w := by
  rw [queueRemoveHead, returns_access, returns_ret]
  cases hq : w.state.fifoQueue with
  | nil => exact hn hq _ ⟨Storage.dequeue_of_nil hq, rfl, by simp [hq]⟩
  | cons q rest => exact hs q (by simp [hq]) _ ⟨rfl, rfl, by simp [hq, List.filterMap_cons]⟩

/-- What the first part of `open_file_handler` does. -/
inductive OpenCreated (fail : Prop) (path : Option Path) (w : StorageWorld) :
    Option ResponseCode → StorageWorld → Prop where
  | present {p : Path} {w' : StorageWorld} (hp : path = some p)
      (hg : (w.state.catalog.get p).isSome) (hq : Relocked id w w') :
      OpenCreated fail path w (some .fileExists) w'
  | full {p : Path} {r : Option ResponseCode} {w' : StorageWorld} (hp : path = some p)
      (hg : w.state.catalog.get p = none)
      (hl : w.state.catalog.noOfFiles + 1 > w.state.catalog.maxFiles)
      (hh : w.state.catalog.queue.head? = none) (hq : Relocked id w w') :
      OpenCreated fail path w r w'
  | failed {r : Option ResponseCode} {w' : StorageWorld} (hf : fail)
      (hg : ∀ p, path = some p → w.state.catalog.get p = none) (hq : Relocked id w w') :
      OpenCreated fail path w r w'
  | created {p : Path} {w' : StorageWorld} (hp : path = some p)
      (hl : ¬w.state.catalog.noOfFiles + 1 > w.state.catalog.maxFiles) (hs : w'.state.Sound)
      (hn : w'.notes = w.notes) (hc : w.state.catalog.Created p w'.state.catalog) :
      OpenCreated fail path w none w'
  | replaced {p q : Path} {w' : StorageWorld} (hp : path = some p)
      (hg : w.state.catalog.get p = none)
      (hl : w.state.catalog.noOfFiles + 1 > w.state.catalog.maxFiles)
      (hh : w.state.catalog.queue.head? = some q) (hs : w'.state.Sound)
      (hn : ∃ ns, w'.notes = w.notes ++ ns)
      (hc : (w.state.catalog.replaceHead q).Created p w'.state.catalog ∨
        fail ∧ w'.state.catalog = w.state.catalog.replaceHead q) :
      OpenCreated fail path w none w'

theorem returns_openFileCreate {path : Option Path} (hs : w.state.Sound) :
    (openFileCreate path).returns ok (OpenCreated (ok false) path w) w := by
  simp only [openFileCreate, openFileCreateBy, bind_eq, pure_eq, returns_bind, returns_lockReturn]
  refine fun _ => returns_storageGetFile fun _ => ?_
  rw [World.locked_state]
  cases hg : w.state.find path with
  | some i =>
    obtain ⟨p, rfl, hg⟩ := Storage.find_eq_some hg
    simp only [returns_bind, returns_unlockReturn, returns_ret]
    exact .present rfl (by simp [hs.catalog_get hg]) (.of_state hs rfl (by simp))
  | none =>
    simp only [returns_bind]
    refine returns_storageCreateFile (fun hb => ?_) fun p list w1 hp h1 => ?_
    · simp only [returns_bind, returns_unlockReturn, returns_ret]
      have habsent : ∀ p, path = some p → w.state.catalog.get p = none := by
        rintro p rfl
        exact hs.catalog_get_none hg
      exact .failed hb habsent (.of_state hs rfl (by simp))
    · subst hp
      have hst : w1.state = w.state.newFile (File.fresh p list) := h1.state
      have hs1 : w1.state.Sound := hst ▸ hs.newFile _
      have hc1 : w1.state.catalog = w.state.catalog := hst ▸ hs.catalog_newFile _
      have hg1 : w1.state.get p = none := hst ▸ hg
      have hi1 : w.state.next < w1.state.next := hst ▸ Nat.lt_succ_self _
      have hh1 : w1.state.heap w.state.next = File.fresh p list := by
        rw [hst]
        simp [Storage.newFile]
      have hq1 : Relocked id w w1 :=
        ⟨hs1, hc1.trans (Catalog.relabel_id (g := id) _ fun _ _ => rfl).symm, by simpa using h1.notes⟩
      simp only [returns_bind, returns_read, returns_ite, id, World.accessed_state]
      rw [hst]
      refine ⟨fun hl => returns_queueRemoveHead (fun hq w2 h2 => ?_) fun q hq w2 h2 => ?_,
        fun hl => ?_⟩
      · simp only [returns_bind, returns_unlockReturn, returns_ret]
        have hh : w.state.catalog.queue.head? = none := by
          simpa [Storage.catalog, hst, Storage.newFile] using hq
        have hq2 : Relocked id w w2 := h2.relocked (hq1.after rfl (by simp))
        exact .full rfl (hs.catalog_get_none hg) hl hh (hq2.after rfl (by simp))
      · obtain ⟨q', hq', rfl⟩ : ∃ q', w1.state.fifoQueue.head? = some q' ∧ q' = q := ⟨q, hq, rfl⟩
        have hh : w.state.catalog.queue.head? = some q'.path := by
          rw [← hc1]
          simp [Storage.catalog, hq']
        have hdrop : ∀ w3 : StorageWorld, w3.state.Sound →
            w3.state.catalog = w.state.catalog.replaceHead q'.path →
            w3.state.next = w1.state.next → w3.state.heap = w1.state.heap →
            (∃ ns, w3.notes = w.notes ++ ns) →
            (storageAddFile w.state.next).returns ok (fun _ w' => unlockReturn.returns ok
              (fun _ w'' => (ret none).returns ok (OpenCreated (ok false) (some p) w) w'') w') w3 := by
          rintro w3 h3 hc hn hh3 ⟨ns, hns⟩
          have hg3 : w3.state.get p = none := by
            refine h3.get_none_of_catalog (hc ▸ ?_)
            exact Catalog.get_none_of_subset (Catalog.replaceHead_subset _ _)
              (hs.catalog_get_none hg)
          refine returns_addCreated h3 hg3 (hn ▸ hi1) (hh3 ▸ hh1) (fun w' h h' h'' => ?_) fun hb w' h => ?_
          · exact .replaced rfl (hs.catalog_get_none hg) hl hh h ⟨ns, h''.trans hns⟩ (.inl (hc ▸ h'))
          · exact .replaced rfl (hs.catalog_get_none hg) hl hh h.sound ⟨ns, h.notes.trans hns⟩
              (.inr ⟨hb, by rw [h.catalog, Catalog.relabel_id (g := id) _ fun _ _ => rfl, hc]⟩)
        have hs2 : w2.state.Sound := h2.state ▸ hs1.of_eq rfl rfl rfl
        have hc2 : w2.state.catalog =
            { w.state.catalog with queue := w.state.catalog.queue.tail } := by
          rw [h2.state, ← hc1]
          simp [Storage.catalog, Storage.dequeue, Storage.stored]
        have hns2 : w2.notes = w.notes ++ [.victim q'.path] := by
          simpa [h1.notes, List.filterMap_cons] using h2.notes
        have hn2 : w2.state.next = w1.state.next := by rw [h2.state]; rfl
        have hh2 : w2.state.heap = w1.state.heap := by rw [h2.state]; rfl
        simp only [returns_bind]
        refine returns_storageRemoveFile (fun hg2 _ w3 h3 => ?_) fun i hg2 _ w3 h3 => ?_
        · refine hdrop w3 (h3.state ▸ hs2) ?_ (h3.state ▸ hn2) (h3.state ▸ hh2)
            ⟨_, by rw [h3.notes, hns2, List.append_assoc]⟩
          have := hs2.catalog_get_none hg2
          rw [hc2] at this
          simp [h3.state, Catalog.replaceHead, this, hc2]
        · have hr := hs2.removed hg2
          refine hdrop w3 (h3.state ▸ hr.1) ?_ (by simp [h3.state, hn2]) (by simp [h3.state, hh2])
            ⟨_, by rw [h3.notes, hns2, List.append_assoc]⟩
          have := hs2.catalog_get hg2
          rw [hc2] at this
          simp [h3.state, Catalog.replaceHead, this, hr.2, hc2]
      · refine returns_addCreated (w := w1.accessed (fun _ => [.readNoOfFiles]) id) hs1 hg1 hi1 hh1
          (fun w' h h' h'' => ?_) fun hb w' h => ?_
        · exact .created rfl hl h (by simpa [h1.notes, List.filterMap_cons] using h'') (hc1 ▸ h')
        · have hq : Relocked id w1 w' := h.before rfl (by simp)
          exact .failed hb (fun q hq => hs.catalog_get_none (Option.some.inj hq ▸ hg)) (hq1.trans hq)

end Create

section Open

variable {ok : Bool → Prop} {w : StorageWorld}

theorem returns_openFileLock {clientFd : Int} {path : Option Path} (hs : w.state.Sound) :
    (openFileLock clientFd path).returns ok (fun r w' =>
      Relocked (Catalog.onPath path fun f => f.opened clientFd) w w' ∧
      ∀ p f, path = some p → w.state.catalog.get p = some f → chkFlag f.flags oLock = false →
        r = none) w := by
  simp only [openFileLock, bind_eq, pure_eq, returns_bind, returns_lockReturn]
  refine fun _ => returns_storageGetFile fun _ => ?_
  rw [World.locked_state]
  cases hg : w.state.find path with
  | none =>
    simp only [returns_bind, returns_unlockReturn, returns_ret]
    refine ⟨.absent hs hg rfl (by simp), ?_⟩
    rintro p f rfl hf _
    simp [hs.catalog_get_none hg] at hf
  | some i =>
    obtain ⟨p, rfl, hg⟩ := Storage.find_eq_some hg
    simp only [returns_bind, returns_load, returns_ite, returns_store, returns_unlockReturn,
      returns_ret]
    refine ⟨fun hc => ⟨.same hs hg (if_pos hc) rfl (by simp), ?_⟩, fun hc => ?_⟩
    · rintro p' f ⟨⟩ hf hl
      obtain rfl : w.state.heap i = f := by simpa [hs.catalog_get hg] using hf
      exact absurd hc.1 (by simpa using hl)
    · have hφ : (w.state.heap i).opened clientFd = (w.state.heap i).locked clientFd := if_neg hc
      refine returns_relock hs hg (φ := fun f => f.opened clientFd) (File.sameData_opened _ _) ?_
        (by simp) fun w' hq => ⟨hq.after rfl (by simp), by simp⟩
      simp [Storage.setFile_setFile, hφ, File.locked]

theorem returns_openFilePart {flag : Bool} {part : ServerM (Option ResponseCode)}
    {rest : ServerM ResponseCode} {R : ResponseCode → StorageWorld → Prop} :
    (openFilePart flag part rest).returns ok R w ↔
      (flag = true → part.returns ok (fun r w' => (∀ status, r = some status → R status w') ∧
        (r = none → rest.returns ok R w')) w) ∧ (flag = false → rest.returns ok R w) := by
  rw [openFilePart, returns_ite, Bool.not_eq_true]
  refine and_congr_left fun _ => imp_congr_right fun _ => ?_
  rw [bind_eq, returns_bind]
  constructor <;> refine fun h => h.mono fun r w' hr => ?_
  · cases r with
    | none => exact ⟨nofun, fun _ => hr⟩
    | some status =>
      refine ⟨?_, nofun⟩
      rintro _ ⟨⟩
      exact returns_ret.mp hr
  · cases r with
    | none => exact hr.2 rfl
    | some status => exact returns_ret.mpr (hr.1 _ rfl)

theorem returns_openRest {clientFd : Int} {path : Option Path} {lock noflag : Bool}
    (hs : w.state.Sound) :
    (openFilePart lock (openFileLock clientFd path)
      (openFilePart noflag (openFileNoflag path) (ret .success))).returns ok
      (fun r w' => Relocked (Catalog.onPath path (fun f => f.reopened lock clientFd)) w w' ∧
        ∀ p f, path = some p → w.state.catalog.get p = some f →
          chkFlag f.flags oLock = false → r = .success) w := by
  have hlast : ∀ w1, Relocked (Catalog.onPath path (fun f => f.reopened lock clientFd)) w w1 →
      (openFilePart noflag (openFileNoflag path) (ret .success)).returns ok
        (fun r w' => Relocked (Catalog.onPath path (fun f => f.reopened lock clientFd)) w w' ∧
          ∀ p f, path = some p → w.state.catalog.get p = some f →
            chkFlag f.flags oLock = false → r = .success) w1 := by
    intro w1 h1
    rw [returns_openFilePart]
    refine ⟨fun _ => (returns_openFileNoflag h1.sound).mono fun r w2 ⟨h2, hr⟩ => ?_,
      fun _ => returns_ret.mpr ⟨h1, fun _ _ _ _ _ => rfl⟩⟩
    refine ⟨fun status hst => ⟨h1.trans h2, fun p f hp hf _ => ?_⟩,
      fun _ => returns_ret.mpr ⟨h1.trans h2, fun _ _ _ _ _ => rfl⟩⟩
    have hq1 : Quiet w w1 := h1.quiet fun f _ => Catalog.sameData_onPath path
      (fun f => f.sameData_reopened lock clientFd) f
    obtain ⟨f', hf', -⟩ := hq1.relabeled.get_some hs.nodup hf
    have hn := hr p hp (by rw [h1.sound.get_isSome, hf']; rfl)
    simp [hst] at hn
  rw [returns_openFilePart]
  refine ⟨?_, ?_⟩
  · rintro rfl
    refine (returns_openFileLock hs).mono fun r w1 ⟨h1, hr⟩ => ?_
    refine ⟨fun status hst => ⟨h1, fun p f hp hf hl => ?_⟩, fun _ => hlast w1 h1⟩
    have hn := hr p f hp hf hl
    simp [hst] at hn
  · rintro rfl
    refine hlast w ((Relocked.of_state hs rfl rfl).congr fun f _ => ?_)
    simp [Catalog.onPath, File.reopened]

/-- A part of `open_file_handler` that leaves everything as it is, with what follows it. -/
theorem openRest_still {w1 : StorageWorld} {r : Option ResponseCode} {clientFd : Int}
    {path : Option Path} {lock noflag : Bool} {R : ResponseCode → StorageWorld → Prop}
    (hp : ∀ p, path = some p → w.state.catalog.get p = none) (hq : Relocked id w w1)
    (hk : ∀ status w', Relocked id w w' → R status w') :
    (∀ status, r = some status → R status w1) ∧
      (r = none → (openFilePart lock (openFileLock clientFd path)
        (openFilePart noflag (openFileNoflag path) (ret .success))).returns ok R w1) := by
  refine ⟨fun _ _ => hk _ w1 hq, fun _ => (returns_openRest hq.sound).mono fun _ w2 h => hk _ _ ?_⟩
  refine (hq.trans h.1).congr fun f hf => if_neg fun he => ?_
  exact Catalog.get_eq_none_iff.mp (hp f.path he) (List.mem_map_of_mem hf)

end Open

section Handlers

variable {ok : Bool → Prop} {w : StorageWorld}

theorem Catalog.deed_open {v : Catalog} {clientFd : Nat} {req : Request}
    (ht : req.type = .openFile) {p : Path} (hp : req.path = some (some p)) :
    v.deed (.request clientFd req) = v.deedOpen p req.body := by
  simp [deed, hp, ht]

theorem Catalog.deedOpen_present {v : Catalog} {p : Path} {body : Bytes}
    (hg : (v.get p).isSome) : v.deedOpen p body = .other := by
  obtain ⟨f, hf⟩ := Option.isSome_iff_exists.mp hg
  unfold deedOpen
  split <;> simp_all

theorem Catalog.deedOpen_absent {v : Catalog} {p : Path} {body : Bytes} {flags : Flags}
    (hb : readInt body = some flags) (hc : chkFlag flags oCreate = true) (hg : v.get p = none) :
    v.deedOpen p body =
      if v.noOfFiles + 1 > v.maxFiles then v.queue.head?.elim .other (.replace p)
      else .create p := by
  simp [deedOpen, hb, hc, hg]

theorem Catalog.deed_open_cases {v : Catalog} (clientFd : Nat) {req : Request}
    (ht : req.type = .openFile) : v.deed (.request clientFd req) = .other ∨
      (∃ p, v.deed (.request clientFd req) = .create p) ∨
      ∃ p q, v.deed (.request clientFd req) = .replace p q := by
  cases hp : req.path.join with
  | none => simp [deed, hp]
  | some p =>
    rw [show v.deed (.request clientFd req) = v.deedOpen p req.body by simp [deed, hp, ht]]
    unfold deedOpen
    split
    · rename_i flags _ _
      by_cases hc : chkFlag flags oCreate = false
      · exact .inl (if_pos hc)
      · rw [if_neg hc]
        by_cases hl : v.noOfFiles + 1 > v.maxFiles
        · rw [if_pos hl]
          cases v.queue.head? <;> simp
        · rw [if_neg hl]
          exact .inr (.inl ⟨p, rfl⟩)
    · exact .inl rfl

/-- Whatever an open is due to do, it may leave everything as it is when the environment fails. -/
theorem Settled.open_failed {fail : Prop} {clientFd : Nat} {req : Request} {w w' : StorageWorld}
    {r : Option Reply} (ht : req.type = .openFile) (hf : fail) (hq : Relocked id w w')
    (hg : ∀ p, req.path.join = some p → w.state.catalog.get p = none) :
    Settled fail (.request clientFd req) w r w' := by
  have hr : ¬(Call.request clientFd req).Accepted r :=
    Call.not_accepted_of_type (t := .openFile) (by simp [Call.type, ht]) (by simp) (by simp) (by simp)
  have hsame : w'.state.catalog =
      w.state.catalog.relabel (w.state.catalog.relock (.request clientFd req) r) := by
    rw [hq.catalog]
    refine Catalog.relabel_congr fun f hf => (if_neg fun he => ?_).symm
    exact Catalog.get_eq_none_iff.mp (hg f.path he) (List.mem_map_of_mem hf)
  have hrel := (hq.quiet fun f _ => .refl f).relabeled
  refine ⟨⟨hq.sound, [], by rw [hq.notes, List.append_nil], ?_⟩, ?_⟩
  · rcases Catalog.deed_open_cases (v := w.state.catalog) clientFd ht with hd | ⟨p, hd⟩ | ⟨p, q, hd⟩ <;>
      simp only [Effect, hd]
    · exact ⟨trivial, hrel, hr⟩
    · exact ⟨trivial, .inr ⟨hf, hrel⟩⟩
    · exact .inr ⟨hf, .inr hrel⟩
  · rcases Catalog.deed_open_cases (v := w.state.catalog) clientFd ht with hd | ⟨p, hd⟩ | ⟨p, q, hd⟩ <;>
      simp only [Catalog.Locking, hd]
    · exact hsame
    · exact ⟨_, .inr ⟨hf, rfl⟩, hsame⟩
    · exact ⟨_, .inr ⟨hf, .inr rfl⟩, hsame⟩

/-- What the last two parts do is what the call does to the locks, unless the file was there and
was to be created. -/
theorem Catalog.relock_open {v : Catalog} {clientFd : Nat} {req : Request} {r : Option Reply}
    {flags : Flags} (ht : req.type = .openFile) (hb : readInt req.body = some flags)
    (h : chkFlag flags oCreate = true → ∀ p, req.path.join = some p → v.get p = none) (f : File) :
    onPath req.path.join (fun f => f.reopened (chkFlag flags oLock) clientFd) f =
      v.relock (.request clientFd req) r f := by
  refine relock_request fun hp => ?_
  have ho : v.opensLocked f.path req.body = chkFlag flags oLock := by
    simp only [opensLocked, hb]
    cases hc : chkFlag flags oCreate with
    | false => simp
    | true => simp [h hc _ hp]
  simp only [relock, if_pos hp, ht, ho, File.reopened]

theorem returns_openFileHandler {clientFd : Nat} {req : Request} (hs : w.state.Sound)
    (ht : req.type = .openFile) :
    (openFileHandler clientFd req).returns ok (fun status w' =>
      Settled (ok false) (.request clientFd req) w (some ⟨status, []⟩) w') w := by
  have hna : ∀ r, ¬(Call.request clientFd req).Accepted r := fun r =>
    Call.not_accepted_of_type (t := .openFile) (by simp [Call.type, ht]) (by simp) (by simp) (by simp)
  simp only [openFileHandler, openFileHandlerBy, bind_eq, pure_eq, returns_bind]
  refine returns_requestPath fun path hp => ?_
  have hjoin : req.path.join = path := by rw [hp, Option.join_some]
  split
  · exact returns_crash
  · rename_i flags hflags
    rw [returns_openFilePart]
    refine ⟨fun hc => (returns_openFileCreate hs).mono fun r w1 h1 => ?_, fun hc => ?_⟩
    · cases h1 with
      | present h hg hq =>
        subst h
        refine ⟨fun status _ => .of_relocked hq (fun f _ => ?_) ?_ (hna _), by simp⟩
        · obtain ⟨f', hf'⟩ := Option.isSome_iff_exists.mp hg
          simp only [Catalog.relock, ht, hjoin]
          split
          · rename_i hpf
            rw [if_neg]
            · rfl
            · obtain rfl := Option.some.inj hpf
              simp [Catalog.opensLocked, hflags, hc, hf']
          · rfl
        · rw [Catalog.deed_open ht hp, Catalog.deedOpen_present hg]
      | @full p _ _ h hg hl hh hq =>
        subst h
        have habsent : ∀ q, some p = some q → w.state.catalog.get q = none := by
          intro q hq
          exact Option.some.inj hq ▸ hg
        refine openRest_still habsent hq fun status w' hq' =>
          .of_relocked hq' (fun f hf => (if_neg fun he => ?_).symm) ?_ (hna _)
        · rw [hjoin] at he
          exact Catalog.get_eq_none_iff.mp (habsent f.path he) (List.mem_map_of_mem hf)
        · rw [Catalog.deed_open ht hp, Catalog.deedOpen_absent hflags hc hg, if_pos hl, hh]
          rfl
      | failed hf hg hq =>
        exact openRest_still hg hq fun _ _ hq' => .open_failed ht hf hq' (hjoin ▸ hg)
      | @created p w1 h hl h1 hn hcr =>
        subst h
        refine ⟨by simp, fun _ => (returns_openRest h1).mono fun r w2 h => ?_⟩
        obtain ⟨h2, hr⟩ := h
        obtain ⟨list, hf⟩ := hcr.get h1.nodup
        have hd : w.state.catalog.deed (.request clientFd req) = .create p := by
          rw [Catalog.deed_open ht hp, Catalog.deedOpen_absent hflags hc hcr.absent, if_neg hl]
        have hrel := (h2.quiet fun f _ => Catalog.sameData_onPath _
          (fun f => f.sameData_reopened _ clientFd) f).relabeled
        refine ⟨⟨h2.sound, [], by rw [h2.notes, hn, List.append_nil], ?_⟩, ?_⟩
        · simp only [Effect, hd]
          refine ⟨trivial, .inl ⟨_, hcr, hrel, ?_⟩⟩
          rw [hr _ _ rfl hf (show chkFlag (setFlag 0 oCreate) oLock = false by decide)]
        · simp only [Catalog.Locking, hd]
          refine ⟨_, .inl hcr, h2.catalog.trans (Catalog.relabel_congr fun f _ => ?_)⟩
          rw [← hjoin]
          refine Catalog.relock_open ht hflags (fun _ q hq => ?_) f
          obtain rfl := Option.some.inj (hjoin.symm.trans hq)
          exact hcr.absent
      | @replaced p q w1 h hg hl hh h1 hn hcr =>
        subst h
        refine ⟨by simp, fun _ => (returns_openRest h1).mono fun r w2 h => ?_⟩
        obtain ⟨h2, -⟩ := h
        obtain ⟨ns, hns⟩ := hn
        have hd : w.state.catalog.deed (.request clientFd req) = .replace p q := by
          rw [Catalog.deed_open ht hp, Catalog.deedOpen_absent hflags hc hg, if_pos hl, hh]
          rfl
        have hrel := (h2.quiet fun f _ => Catalog.sameData_onPath _
          (fun f => f.sameData_reopened _ clientFd) f).relabeled
        refine ⟨⟨h2.sound, ns, h2.notes.trans hns, ?_⟩, ?_⟩
        · simp only [Effect, hd]
          rcases hcr with hcr | ⟨hf, hc1⟩
          · exact .inl ⟨_, hcr, hrel⟩
          · exact .inr ⟨hf, .inl (hc1 ▸ hrel)⟩
        · simp only [Catalog.Locking, hd]
          refine ⟨w1.state.catalog, hcr.imp id fun h => ⟨h.1, .inl h.2⟩,
            h2.catalog.trans (Catalog.relabel_congr fun f _ => ?_)⟩
          rw [← hjoin]
          refine Catalog.relock_open ht hflags (fun _ q hq => ?_) f
          obtain rfl := Option.some.inj (hjoin.symm.trans hq)
          exact hg
    · refine (returns_openRest hs).mono fun r w1 h1 => .of_relocked h1.1 (fun f _ => ?_) ?_ (hna _)
      · rw [← hjoin]
        exact Catalog.relock_open ht hflags (fun h => by simp [hc] at h) f
      · cases path with
        | none => simp [Catalog.deed, hp]
        | some p =>
          rw [Catalog.deed_open ht hp]
          cases hg : w.state.catalog.get p <;> simp [Catalog.deedOpen, hflags, hg, hc]

end Handlers

end FileStorage
