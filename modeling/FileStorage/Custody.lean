import FileStorage.Guarded
import FileStorage.Machine
import FileStorage.Opening

/-! Who owns a record: the table, the queue, or nobody once it has been released. -/

namespace FileStorage

open Machine Prog

/-! ### Owners -/

/-- The record that an access reads, writes or frees. -/
def Access.record : Access → Option FileId
  | readField i _ => some i
  | writeField i _ => some i
  | release i => some i
  | _ => none

namespace Storage

def queuedFiles (s : Storage) : List FileId := s.fifoQueue.map PathPtr.file

def storedFiles (s : Storage) : List FileId := s.files.entries.map HashMapEntry.value

/-- The table or the queue leads to the record. -/
def Reachable (s : Storage) (i : FileId) : Prop := i ∈ s.storedFiles ∨ i ∈ s.queuedFiles

/-- No pointer of the table or the queue dangles. -/
def Alive (s : Storage) : Prop := ∀ i, s.Reachable i → i ∉ s.released

/-- An access to a record finds it unreleased. -/
def Unreleased (s : Storage) (e : Access) : Prop := ∀ i ∈ e.record, i ∉ s.released

/-- The same while nothing dangles. -/
def Allows (s : Storage) (e : Access) : Prop := s.Alive ∧ s.Unreleased e

/-- A record has been released at most once, and is not reachable then. The queue holds a record
at most once, and only after the write that has cleared its `O_CREATE`. -/
structure Custody (s : Storage) : Prop extends s.Sound where
  named : ∀ q ∈ s.fifoQueue, (s.heap q.file).path = q.path
  known : ∀ i ∈ s.queuedFiles, i < s.next
  once : s.queuedFiles.Nodup
  written : ∀ i ∈ s.queuedFiles, chkFlag (s.heap i).flags oCreate = false
  alive : s.Alive
  gone : s.released.Nodup
  old : ∀ i ∈ s.released, i < s.next

variable {s : Storage} {p : Path} {i : FileId}

theorem mem_storedFiles (h : s.files.Placed stringHash) (hg : s.get p = some i) : i ∈ s.storedFiles :=
  List.mem_map_of_mem (h.get_eq_some_iff.mp hg)

theorem setFile_heap_ne {f : File} {j : FileId} (h : j ≠ i) : (s.setFile i f).heap j = s.heap j :=
  Function.update_of_ne h _ _

theorem newFile_heap_ne {f : File} (h : i ≠ s.next) : (s.newFile f).heap i = s.heap i :=
  Function.update_of_ne h _ _

namespace Custody

theorem get_alive (hs : s.Custody) (hg : s.get p = some i) : i ∉ s.released :=
  hs.alive i (.inl (mem_storedFiles hs.placed hg))

/-- A stored record is found under its path. -/
theorem get_of_stored (hs : s.Custody) (hi : i ∈ s.storedFiles) : s.get (s.heap i).path = some i := by
  obtain ⟨e, he, rfl⟩ := List.mem_map.mp hi
  rw [hs.keyed e he]
  exact hs.placed.get_eq_some_iff.mpr he

theorem of_eq {t : Storage} (hs : s.Custody) (hf : t.files = s.files) (hh : t.heap = s.heap)
    (hn : t.next = s.next) (hq : t.fifoQueue = s.fifoQueue) (hr : t.released = s.released) :
    t.Custody where
  toSound := hs.toSound.of_eq hf hh hn
  named := by rw [hq, hh]; exact hs.named
  known := by rw [queuedFiles, hq, hn]; exact hs.known
  once := by rw [queuedFiles, hq]; exact hs.once
  written := by rw [queuedFiles, hq, hh]; exact hs.written
  alive := by
    unfold Alive Reachable storedFiles queuedFiles
    rw [hf, hq, hr]
    exact hs.alive
  gone := hr ▸ hs.gone
  old := by rw [hr, hn]; exact hs.old

theorem dequeue (hs : s.Custody) : s.dequeue.Custody where
  toSound := hs.toSound.of_eq rfl rfl rfl
  named q hq := hs.named q (List.mem_of_mem_tail hq)
  known i hi := by
    refine hs.known i ?_
    rw [queuedFiles, Storage.dequeue, List.map_tail] at hi
    exact List.mem_of_mem_tail hi
  once := by
    rw [queuedFiles, Storage.dequeue, List.map_tail]
    exact hs.once.sublist (List.tail_sublist _)
  written i hi := by
    refine hs.written i ?_
    rw [queuedFiles, Storage.dequeue, List.map_tail] at hi
    exact List.mem_of_mem_tail hi
  alive i hi := by
    refine hs.alive i (hi.imp_right fun h => ?_)
    rw [queuedFiles, Storage.dequeue, List.map_tail] at h
    exact List.mem_of_mem_tail h
  gone := hs.gone
  old := hs.old

theorem eraseFile (hs : s.Custody) (hn : 0 < s.files.nBuckets) (p : Path) :
    (s.eraseFile p).Custody := by
  have hsub : (s.eraseFile p).storedFiles ⊆ s.storedFiles := by
    refine List.map_subset _ fun e he => ?_
    rw [Storage.eraseFile, hs.placed.entries_remove hn] at he
    exact List.mem_of_mem_filter he
  exact ⟨hs.toSound.eraseFile hn p, hs.named, hs.known, hs.once, hs.written,
    fun i hi => hs.alive i (hi.imp_left fun h => hsub h), hs.gone, hs.old⟩

/-- The bucket of a path has been cleared of its record. -/
theorem not_stored_eraseFile (hs : s.Custody) (hn : 0 < s.files.nBuckets) (hg : s.get p = some i) :
    i ∉ (s.eraseFile p).storedFiles := by
  intro hi
  obtain ⟨e, he, rfl⟩ := List.mem_map.mp hi
  rw [Storage.eraseFile, hs.placed.entries_remove hn] at he
  have hkey : e.key = p := (hs.keyed e (List.mem_of_mem_filter he)).symm.trans (hs.get_mem hg).2
  have hslot := (List.mem_filter.mp he).2
  simp [hkey] at hslot

theorem release (hs : s.Custody) (hr : ¬s.Reachable i) (hi : i ∉ s.released) (hn : i < s.next) :
    (s.release i).Custody where
  toSound := hs.toSound.of_eq rfl rfl rfl
  named := hs.named
  known := hs.known
  once := hs.once
  written := hs.written
  alive j hj hmem := by
    rcases List.mem_append.mp hmem with h | h
    · exact hs.alive j hj h
    · obtain rfl := List.mem_singleton.mp h
      exact hr hj
  gone := by
    refine List.nodup_append.mpr ⟨hs.gone, List.nodup_singleton i, fun j hj k hk => ?_⟩
    obtain rfl := List.mem_singleton.mp hk
    exact fun h => hi (h ▸ hj)
  old j hj := by
    rcases List.mem_append.mp hj with h | h
    · exact hs.old j h
    · obtain rfl := List.mem_singleton.mp h
      exact hn

/-- Taking an element out of the queue frees its record, which the table must not lead to. -/
theorem unqueue (hs : s.Custody) (hq : ∀ q, s.queued p = some q → q.file ∉ s.storedFiles) :
    (s.unqueue p).Custody := by
  cases h : s.queued p with
  | none =>
    have hsame : s.unqueue p = s := by simp only [Storage.unqueue, h]
    rw [hsame]
    exact hs
  | some q =>
    obtain ⟨hp, before, after, hsplit, hbefore⟩ := List.find?_eq_some_iff_append.mp h
    have herase : s.fifoQueue.eraseP (fun q => decide (q.path = p)) = before ++ after := by
      rw [hsplit, List.eraseP_append_right _ fun a ha => by simpa using hbefore a ha]
      exact congrArg (before ++ ·) (List.eraseP_cons_of_pos (l := after) hp)
    let t : Storage := { s with fifoQueue := before ++ after }
    have ht : s.unqueue p = t.release q.file := by
      simp only [Storage.unqueue, h, herase]
      rfl
    have hsub : t.fifoQueue ⊆ s.fifoQueue := by
      rw [hsplit]
      exact List.append_subset.mpr ⟨List.subset_append_left _ _,
        fun a ha => List.mem_append_right _ (List.mem_cons_of_mem _ ha)⟩
    have hfiles : t.queuedFiles ⊆ s.queuedFiles := List.map_subset _ hsub
    have honce := hs.once
    rw [queuedFiles, hsplit, List.map_append, List.map_cons, List.nodup_middle, ← List.map_append]
      at honce
    have hin : q.file ∈ s.queuedFiles := List.mem_map_of_mem (List.mem_of_find?_eq_some h)
    have hcustody : t.Custody := ⟨hs.toSound.of_eq rfl rfl rfl, fun q' hq' => hs.named q' (hsub hq'),
      fun i hi => hs.known i (hfiles hi), (List.nodup_cons.mp honce).2,
      fun i hi => hs.written i (hfiles hi), fun i hi => hs.alive i (hi.imp_right fun h => hfiles h),
      hs.gone, hs.old⟩
    have hreach : ¬t.Reachable q.file := by
      rintro (hi | hi)
      · exact hq q h hi
      · exact (List.nodup_cons.mp honce).1 hi
    exact ht ▸ hcustody.release hreach (hs.alive _ (.inr hin)) (hs.known _ hin)

theorem setFile (hs : s.Custody) {f : File} (hp : f.path = (s.heap i).path)
    (hf : chkFlag (s.heap i).flags oCreate = false → chkFlag f.flags oCreate = false) :
    (s.setFile i f).Custody where
  toSound := hs.toSound.setFile hp
  named q hq := by
    by_cases h : q.file = i
    · subst h
      rw [setFile_heap_self, hp]
      exact hs.named q hq
    · rw [setFile_heap_ne h]
      exact hs.named q hq
  known := hs.known
  once := hs.once
  written j hj := by
    by_cases h : j = i
    · subst h
      rw [setFile_heap_self]
      exact hf (hs.written j hj)
    · rw [setFile_heap_ne h]
      exact hs.written j hj
  alive := hs.alive
  gone := hs.gone
  old := hs.old

theorem newFile (hs : s.Custody) (f : File) : (s.newFile f).Custody where
  toSound := hs.toSound.newFile f
  named q hq := by
    rw [newFile_heap_ne (Nat.ne_of_lt (hs.known _ (List.mem_map_of_mem hq)))]
    exact hs.named q hq
  known i hi := Nat.lt_succ_of_lt (hs.known i hi)
  once := hs.once
  written i hi := by
    rw [newFile_heap_ne (Nat.ne_of_lt (hs.known i hi))]
    exact hs.written i hi
  alive := hs.alive
  gone := hs.gone
  old i hi := Nat.lt_succ_of_lt (hs.old i hi)

theorem insertFile (hs : s.Custody) (hn : 0 < s.files.nBuckets) (hp : (s.heap i).path = p)
    (hi : i < s.next) (hr : i ∉ s.released) : (s.insertFile p i).Custody where
  toSound := hs.toSound.insertFile hn hp hi
  named := hs.named
  known := hs.known
  once := hs.once
  written := hs.written
  alive j hj := by
    rcases hj with hj | hj
    · obtain ⟨e, he, rfl⟩ := List.mem_map.mp hj
      rcases hs.mem_insertFile hn he with h | rfl
      · exact hs.alive _ (.inl (List.mem_map_of_mem h))
      · exact hr
    · exact hs.alive j (.inr hj)
  gone := hs.gone
  old := hs.old

theorem enqueue (hs : s.Custody) (hi : i < s.next) (hq : i ∉ s.queuedFiles) (hr : i ∉ s.released)
    (hf : chkFlag (s.heap i).flags oCreate = false) :
    (s.enqueue ⟨(s.heap i).path, i⟩).Custody := by
  have hfiles : (s.enqueue ⟨(s.heap i).path, i⟩).queuedFiles = s.queuedFiles ++ [i] := by
    simp [queuedFiles, Storage.enqueue]
  have hmem : ∀ j ∈ (s.enqueue ⟨(s.heap i).path, i⟩).queuedFiles, j ∈ s.queuedFiles ∨ j = i := by
    intro j hj
    rw [hfiles] at hj
    exact (List.mem_append.mp hj).imp_right List.mem_singleton.mp
  refine ⟨hs.toSound.of_eq rfl rfl rfl, fun q hm => ?_, fun j hj => ?_, ?_, fun j hj => ?_, fun j hj => ?_,
    hs.gone, hs.old⟩
  · rcases List.mem_append.mp hm with h | h
    · exact hs.named q h
    · obtain rfl := List.mem_singleton.mp h
      rfl
  · rcases hmem j hj with h | rfl
    · exact hs.known j h
    · exact hi
  · rw [hfiles]
    refine List.nodup_append.mpr ⟨hs.once, List.nodup_singleton i, fun j hj k hk => ?_⟩
    obtain rfl := List.mem_singleton.mp hk
    exact fun h => hq (h ▸ hj)
  · rcases hmem j hj with h | rfl
    · exact hs.written j h
    · exact hf
  · rcases hj with h | h
    · exact hs.alive j (.inl h)
    · rcases hmem j h with h | rfl
      · exact hs.alive j (.inr h)
      · exact hr

end Custody

end Storage

/-! ### The storage routines -/

section Routines

variable {s : Storage} {p : Path} {i : FileId}

theorem Storage.Custody.allows (hs : s.Custody) {e : Access} (he : e.record = none) : s.Allows e :=
  ⟨hs.alive, fun i hi => by simp [he] at hi⟩

theorem Storage.Custody.allows_of (hs : s.Custody) {e : Access} (he : e.record = some i)
    (hi : i ∉ s.released) : s.Allows e := by
  refine ⟨hs.alive, fun j hj => ?_⟩
  obtain rfl : i = j := Option.some.inj (he.symm.trans hj)
  exact hi

theorem guarded_requestPath {request : Request} {R : Option Path → Storage → Prop}
    (h : ∀ path, request.path = some path → R path s) :
    (requestPath request).guarded Storage.Allows R s := by
  unfold requestPath
  split
  · exact guarded_crash
  · exact h _ ‹_›

theorem guarded_sendResponse {clientFd : Int} {status : ResponseCode} {filePath body : Bytes}
    {R : Bool → Storage → Prop} (h : ∀ b, R b s) :
    (sendResponse clientFd status filePath body).guarded Storage.Allows R s := by
  unfold sendResponse
  split
  · exact h false
  · exact h

theorem walked_subset {c : List (HashMapEntry Path FileId)} : walked p c ⊆ c := by
  induction c with
  | nil => exact List.Subset.refl _
  | cons e c ih =>
    unfold walked
    split
    · exact List.cons_subset_cons e (List.nil_subset c)
    · exact List.cons_subset_cons e ih

/-- The walk along a chain compares the paths of stored records. -/
theorem guarded_storageGetFile (hs : s.Custody) {path : Option Path}
    {R : Option FileId → Storage → Prop} (h : s.files.nBuckets ≠ 0 → R (s.find path) s) :
    (storageGetFile path).guarded Storage.Allows R s := by
  have hwalk : ∀ e ∈ lookupAccesses path s, s.Allows e := by
    intro e he
    cases path with
    | none =>
      obtain rfl := List.mem_singleton.mp he
      exact hs.allows rfl
    | some p =>
      rcases List.mem_cons.mp he with rfl | he
      · exact hs.allows rfl
      · obtain ⟨x, hx, rfl⟩ := List.mem_map.mp he
        refine hs.allows_of rfl (hs.alive _ (.inl (List.mem_map_of_mem ?_)))
        exact mem_entries_iff.mpr ⟨_, walked_subset hx⟩
  refine ⟨hwalk, guarded_ite.mpr ⟨fun _ => guarded_crash, fun hn => ?_⟩⟩
  cases path with
  | none => exact guarded_ite.mpr ⟨fun _ => h hn, fun _ => guarded_crash⟩
  | some p => exact h hn

theorem guarded_load (hs : s.Custody) (hi : i ∉ s.released) {fs : List Field}
    {R : File → Storage → Prop} (h : R (s.heap i) s) : (load i fs).guarded Storage.Allows R s := by
  refine ⟨fun e he => ?_, h⟩
  obtain ⟨f, -, rfl⟩ := List.mem_map.mp he
  exact hs.allows_of rfl hi

theorem guarded_store (hs : s.Custody) (hi : i ∉ s.released) {fs : List Field} {g : File → File}
    {R : Unit → Storage → Prop} (h : R () (s.setFile i (g (s.heap i)))) :
    (store i fs g).guarded Storage.Allows R s := by
  refine ⟨fun e he => ?_, h⟩
  obtain ⟨f, -, rfl⟩ := List.mem_map.mp he
  exact hs.allows_of rfl hi

theorem guarded_filesInsert (hs : s.Custody) (hn : i < s.next) (hi : i ∉ s.released)
    {R : Bool → Storage → Prop}
    (h : ∀ b files, { s with files := files }.Custody → R b { s with files := files }) :
    (filesInsert i).guarded Storage.Allows R s := by
  simp only [filesInsert, bind_eq, pure_eq, guarded_bind]
  refine guarded_load hs hi (guarded_storageGetFile hs fun h0 => ?_)
  have hinsert : (modify (fun _ => [.writeFiles]) fun s => s.insertFile (s.heap i).path i :
      ServerM Unit).guarded Storage.Allows (fun _ s' => R true s') s := by
    refine ⟨fun e he => ?_, h true _ (hs.insertFile (Nat.pos_of_ne_zero h0) rfl hn hi)⟩
    obtain rfl := List.mem_singleton.mp he
    exact hs.allows rfl
  cases s.find (some (s.heap i).path) with
  | some j => exact guarded_bind.mpr hinsert
  | none =>
    simp only [guarded_bind, guarded_alloc, guarded_ite]
    exact fun b => ⟨fun _ => hinsert, fun _ => h false s.files hs⟩

theorem guarded_freeFile (hs : s.Custody) (hr : ¬s.Reachable i) (hi : i ∉ s.released)
    (hn : i < s.next) {R : Unit → Storage → Prop}
    (h : (s.release i).Custody → R () (s.release i)) : (freeFile i).guarded Storage.Allows R s := by
  simp only [freeFile, bind_eq, guarded_bind]
  refine guarded_load hs hi (guarded_ite.mpr ⟨fun _ => guarded_crash, fun _ => ?_⟩)
  refine ⟨fun e he => ?_, h (hs.release hr hi hn)⟩
  obtain rfl := List.mem_singleton.mp he
  exact hs.allows_of rfl hi

theorem guarded_filesRemove (hs : s.Custody) (hq : ∀ i, s.get p = some i → i ∉ s.queuedFiles)
    {R : Bool → Storage → Prop} (hnone : R false s)
    (hsome : ∀ i, s.get p = some i → ((s.eraseFile p).release i).Custody →
      R true ((s.eraseFile p).release i)) :
    (filesRemove p).guarded Storage.Allows R s := by
  simp only [filesRemove, bind_eq, pure_eq, guarded_bind]
  refine guarded_storageGetFile hs fun h0 => ?_
  rw [Storage.find_some]
  cases hg : s.get p with
  | none => exact hnone
  | some i =>
    have hn := Nat.pos_of_ne_zero h0
    simp only [guarded_bind]
    refine guarded_modify.mpr ⟨fun e he => ?_, ?_⟩
    · obtain rfl := List.mem_singleton.mp he
      exact hs.allows rfl
    · refine guarded_freeFile (hs.eraseFile hn p) ?_ (hs.get_alive hg) (hs.lt_next hg) (hsome i hg)
      rintro (h | h)
      · exact hs.not_stored_eraseFile hn hg h
      · exact hq i hg h

/-- `t` is what is left of `s`: only reachable records have been released. -/
structure Storage.Rest (s t : Storage) : Prop where
  custody : t.Custody
  heap : t.heap = s.heap
  next : t.next = s.next
  gone : ∀ i ∈ t.released, i ∈ s.released ∨ s.Reachable i

theorem released_unqueue {j : FileId} (hj : j ∈ (s.unqueue p).released) :
    j ∈ s.released ∨ j ∈ s.queuedFiles := by
  unfold Storage.unqueue at hj
  split at hj
  · rename_i q hq
    refine (List.mem_append.mp hj).imp_right fun h => ?_
    obtain rfl := List.mem_singleton.mp h
    exact List.mem_map_of_mem (List.mem_of_find?_eq_some hq)
  · exact .inl hj

/-- The record that is freed with its element has been alive till then. -/
theorem guarded_queueRemoveElement (hs : s.Custody) {R : Bool → Storage → Prop}
    (h : R (s.queued p).isSome (s.unqueue p)) :
    (queueRemoveElement p).guarded Storage.Allows R s := by
  refine ⟨fun e he => ?_, h⟩
  rcases List.mem_cons.mp he with rfl | he
  · exact hs.allows rfl
  · cases hfind : s.queued p with
    | none => simp [hfind] at he
    | some q =>
      rw [hfind] at he
      rcases List.mem_cons.mp he with rfl | he
      · exact hs.allows rfl
      · obtain rfl := List.mem_singleton.mp he
        exact hs.allows_of rfl
          (hs.alive _ (.inr (List.mem_map_of_mem (List.mem_of_find?_eq_some hfind))))

/-- `storage_remove_file` frees the record of the element and that of the path. It must not find
the latter in the queue. -/
theorem guarded_storageRemoveFile (hs : s.Custody)
    (hq : ∀ i, s.get p = some i → i ∉ s.queuedFiles) {R : Bool → Storage → Prop}
    (h : ∀ b t, s.Rest t → R b t) : (storageRemoveFile p).guarded Storage.Allows R s := by
  simp only [storageRemoveFile, bind_eq, pure_eq, guarded_bind]
  refine guarded_storageGetFile hs fun _ => ?_
  rw [Storage.find_some]
  cases hg : s.get p with
  | none => exact h false s ⟨hs, rfl, rfl, fun _ => .inl⟩
  | some i =>
    let t := (s.addFiles (-1)).shrink (s.heap i).size
    have ht : t.Custody := hs.of_eq rfl rfl rfl rfl rfl
    -- the element of the path holds another record, one that the table has lost
    have hstale : ∀ q, t.queued p = some q → q.file ∉ t.storedFiles := by
      intro q hfind hstored
      have hmem : q ∈ s.fifoQueue := List.mem_of_find?_eq_some hfind
      have hpath : q.path = p := by simpa using List.find?_some hfind
      have hget := hs.get_of_stored hstored
      rw [hs.named q hmem, hpath] at hget
      exact hq _ hget (List.mem_map_of_mem hmem)
    have hu : (t.unqueue p).Custody := ht.unqueue hstale
    have hgone : ∀ j ∈ (t.unqueue p).released, j ∈ s.released ∨ s.Reachable j := by
      exact fun j hj => (released_unqueue hj).imp_right .inr
    simp only [guarded_bind, dropCount, shrinkBy, guarded_modify]
    refine ⟨fun e he => ?_, fun e he => ?_, guarded_queueRemoveElement ht ?_⟩
    · obtain rfl := List.mem_singleton.mp he
      exact hs.allows rfl
    · have hs' : (s.addFiles (-1)).Custody := hs.of_eq rfl rfl rfl rfl rfl
      rcases List.mem_cons.mp he with rfl | he
      · exact hs'.allows_of rfl (hs.get_alive hg)
      · obtain rfl := List.mem_singleton.mp he
        exact hs'.allows rfl
    · refine guarded_ite.mpr ⟨fun _ => ?_, fun _ => ?_⟩
      · have hget : ∀ j, (t.unqueue p).get p = some j → j = i := by
          intro j hj
          rw [Storage.get, Storage.unqueue_files] at hj
          exact Option.some.inj (hj.symm.trans hg)
        have hsub : (t.unqueue p).queuedFiles ⊆ s.queuedFiles := by
          unfold Storage.unqueue
          split
          · exact List.map_subset _ (List.eraseP_subset)
          · exact List.Subset.refl _
        refine guarded_filesRemove hu (fun j hj hmem => ?_) ?_ fun j hj hc => ?_
        · obtain rfl := hget j hj
          exact hq j hg (hsub hmem)
        · exact h false _ ⟨hu, by rw [Storage.unqueue_heap]; rfl, by rw [Storage.unqueue_next]; rfl, hgone⟩
        · obtain rfl := hget j hj
          refine h true _ ⟨hc, ?_, ?_, fun k hk => ?_⟩
          · exact (Storage.unqueue_heap t p).trans rfl
          · exact (Storage.unqueue_next t p).trans rfl
          · rcases List.mem_append.mp hk with hk | hk
            · exact hgone k hk
            · obtain rfl := List.mem_singleton.mp hk
              exact .inr (.inl (Storage.mem_storedFiles hs.placed hg))
      · exact h false _ ⟨hu, by rw [Storage.unqueue_heap]; rfl, by rw [Storage.unqueue_next]; rfl, hgone⟩

theorem guarded_queueRemoveHead (hs : s.Custody) {R : Option PathPtr → Storage → Prop}
    (h : R s.fifoQueue.head? s.dequeue) : queueRemoveHead.guarded Storage.Allows R s := by
  refine ⟨fun e he => ?_, h⟩
  rcases List.mem_cons.mp he with rfl | he
  · exact hs.allows rfl
  · cases hq : s.fifoQueue with
    | nil => simp [hq] at he
    | cons q queue =>
      rw [hq] at he
      rcases List.mem_cons.mp he with rfl | he
      · exact hs.allows rfl
      · obtain rfl := List.mem_singleton.mp he
        exact hs.allows rfl

theorem guarded_storageCreateFile (hs : s.Custody) {path : Option Path}
    {R : Option FileId → Storage → Prop} (hnone : R none s)
    (hsome : ∀ f, (s.newFile f).Custody → R (some s.next) (s.newFile f)) :
    (storageCreateFile path).guarded Storage.Allows R s := by
  simp only [storageCreateFile, bind_eq, pure_eq, guarded_bind, guarded_alloc, guarded_ite]
  refine fun b => ⟨fun _ => ?_, fun _ => hnone⟩
  cases path with
  | none => exact guarded_crash
  | some p =>
    refine guarded_ite.mpr ⟨fun _ => guarded_bind.mpr fun list => ?_, fun _ => guarded_crash⟩
    exact ⟨fun _ he => absurd he List.not_mem_nil, hsome _ (hs.newFile _)⟩

theorem guarded_storageAddFile (hs : s.Custody) (hn : i < s.next) (hi : i ∉ s.released)
    {R : Bool → Storage → Prop} (h : ∀ b t, t.Custody → R b t) :
    (storageAddFile i).guarded Storage.Allows R s := by
  simp only [storageAddFile, bind_eq, pure_eq, guarded_bind]
  refine guarded_filesInsert hs hn hi fun b files hc => ?_
  simp only [guarded_ite, guarded_bind, guarded_modify]
  refine ⟨fun _ => ⟨fun e he => ?_, h true _ (hc.of_eq rfl rfl rfl rfl rfl)⟩, fun _ => h false _ hc⟩
  obtain rfl := List.mem_singleton.mp he
  exact hc.allows rfl

theorem guarded_storageUpdateFile (hs : s.Custody) (hn : i < s.next) (hi : i ∉ s.released)
    {R : Bool → Storage → Prop}
    (h : ∀ b files, { s with files := files }.Custody → R b { s with files := files }) :
    (storageUpdateFile i).guarded Storage.Allows R s := guarded_filesInsert hs hn hi h

/-- The change leaves the path of a record and its `O_CREATE` as they are. -/
def Harmless (g : File → File) : Prop :=
  ∀ f, (g f).path = f.path ∧ chkFlag (g f).flags oCreate = chkFlag f.flags oCreate

theorem Harmless.of_sameData {g : File → File} (h : ∀ f, SameData f (g f)) : Harmless g :=
  fun f => ⟨(h f).path, (h f).fresh⟩

theorem guarded_store_stored (hs : s.Custody) (hg : s.get p = some i) {fs : List Field}
    {g : File → File} (hf : Harmless g) {R : Unit → Storage → Prop}
    (h : ∀ t, t.Custody → t.get p = some i → R () t) :
    (store i fs g).guarded Storage.Allows R s :=
  guarded_store hs (hs.get_alive hg)
    (h _ (hs.setFile (hf _).1 fun hc => (hf _).2.trans hc) hg)

theorem guarded_update_stored (hs : s.Custody) (hg : s.get p = some i) {R : Bool → Storage → Prop}
    (h : ∀ b t, t.Custody → R b t) : (storageUpdateFile i).guarded Storage.Allows R s :=
  guarded_storageUpdateFile hs (hs.lt_next hg) (hs.get_alive hg) fun b _ => h b _

end Routines

/-! ### The handlers -/

section Handlers

variable {s : Storage} {p : Path} {i : FileId}

theorem harmless_setLock : Harmless fun f => { f with flags := setFlag f.flags oLock } :=
  .of_sameData fun _ => ⟨rfl, rfl, rfl, chkFlag_setFlag_oLock_oCreate _⟩

theorem harmless_clrLock : Harmless fun f => { f with flags := clrFlag f.flags oLock } :=
  .of_sameData fun _ => ⟨rfl, rfl, rfl, chkFlag_clrFlag_oLock_oCreate _⟩

theorem harmless_lockedBy (fd : Int) : Harmless fun f => { f with lockedBy := fd } :=
  fun _ => ⟨rfl, rfl⟩

theorem guarded_closeFileHandler {clientFd : Int} {request : Request} (hs : s.Custody) :
    (closeFileHandler clientFd request).guarded Storage.Allows (fun _ t => t.Custody) s := by
  simp only [closeFileHandler, bind_eq, pure_eq, guarded_bind]
  refine guarded_requestPath fun path _ => guarded_storageGetFile hs fun _ => ?_
  cases hg : s.find path with
  | none => exact hs
  | some i =>
    obtain ⟨p, rfl, hg⟩ := Storage.find_eq_some hg
    simp only [guarded_bind, guarded_ite]
    refine guarded_load hs (hs.get_alive hg) ⟨fun _ => ?_, fun _ => hs⟩
    refine guarded_store_stored hs hg harmless_clrLock fun t ht hgt => ?_
    refine guarded_store_stored ht hgt (harmless_lockedBy _) fun u hu hgu => ?_
    exact guarded_update_stored hu hgu fun _ _ hc => hc

theorem guarded_unlockFileHandler {clientFd : Int} {request : Request} (hs : s.Custody) :
    (unlockFileHandler clientFd request).guarded Storage.Allows (fun _ t => t.Custody) s := by
  simp only [unlockFileHandler, bind_eq, pure_eq, guarded_bind]
  refine guarded_requestPath fun path _ => guarded_storageGetFile hs fun _ => ?_
  cases hg : s.find path with
  | none => exact hs
  | some i =>
    obtain ⟨p, rfl, hg⟩ := Storage.find_eq_some hg
    have hi := hs.get_alive hg
    simp only [guarded_bind, guarded_ite]
    refine guarded_load hs hi ⟨fun _ => hs, fun _ => guarded_load hs hi ⟨fun _ => ?_, fun _ => hs⟩⟩
    refine guarded_store_stored hs hg harmless_clrLock fun t ht hgt => ?_
    refine guarded_store_stored ht hgt (harmless_lockedBy _) fun u hu hgu => ?_
    exact guarded_update_stored hu hgu fun _ _ hc => hc

theorem guarded_lockFileHandler {clientFd : Int} {request : Request} (hs : s.Custody) :
    (lockFileHandler clientFd request).guarded Storage.Allows (fun _ t => t.Custody) s := by
  simp only [lockFileHandler, bind_eq, pure_eq, guarded_bind]
  refine guarded_requestPath fun path _ => guarded_storageGetFile hs fun _ => ?_
  cases hg : s.find path with
  | none => exact hs
  | some i =>
    obtain ⟨p, rfl, hg⟩ := Storage.find_eq_some hg
    have hi := hs.get_alive hg
    simp only [guarded_bind, guarded_ite, guarded_alloc]
    refine guarded_load hs hi ⟨fun _ => ?_, fun _ => ?_⟩
    · refine guarded_store_stored hs hg harmless_setLock fun t ht hgt => ?_
      refine guarded_store_stored ht hgt (harmless_lockedBy _) fun u hu hgu => ?_
      exact guarded_update_stored hu hgu fun _ _ hc => hc
    · refine guarded_load hs hi ⟨fun _ => hs, fun _ b => ⟨fun _ => ?_, fun _ => guarded_crash⟩⟩
      refine guarded_load hs hi ?_
      cases (s.heap i).waitingOnLock with
      | none => exact hs
      | some ws =>
        simp only [guarded_bind, guarded_ite, guarded_alloc]
        refine fun b => ⟨fun _ => ?_, fun _ => hs⟩
        refine guarded_store_stored hs hg ?_ fun t ht hgt => ?_
        · exact fun _ => ⟨rfl, rfl⟩
        · exact guarded_update_stored ht hgt fun _ _ hc => hc

theorem guarded_readFileHandler {request : Request} (hs : s.Custody) :
    (readFileHandler request).guarded Storage.Allows (fun _ t => t.Custody) s := by
  simp only [readFileHandler, bind_eq, pure_eq, guarded_bind]
  refine guarded_requestPath fun path _ => guarded_storageGetFile hs fun _ => ?_
  cases hg : s.find path with
  | none => exact hs
  | some i =>
    obtain ⟨p, rfl, hg⟩ := Storage.find_eq_some hg
    have hi := hs.get_alive hg
    simp only [guarded_bind, guarded_ite, guarded_alloc]
    refine guarded_load hs hi fun b => ⟨fun _ => guarded_load hs hi ?_, fun _ => hs⟩
    cases copyBytes true (s.heap i).contents (s.heap i).size with
    | none => exact guarded_crash
    | some buffer => exact hs

theorem guarded_appendToFileHandler {clientFd : Int} {request : Request} (hs : s.Custody) :
    (appendToFileHandler clientFd request).guarded Storage.Allows (fun _ t => t.Custody) s := by
  simp only [appendToFileHandler, bind_eq, pure_eq, guarded_bind, guarded_ite]
  refine guarded_requestPath fun path _ => ⟨fun _ => hs, fun _ => ?_⟩
  refine guarded_read.mpr ⟨fun _ he => absurd he List.not_mem_nil, fun _ => hs, fun _ => ?_⟩
  refine guarded_storageGetFile hs fun _ => ?_
  cases hg : s.find path with
  | none => exact hs
  | some i =>
    obtain ⟨p, rfl, hg⟩ := Storage.find_eq_some hg
    have hi := hs.get_alive hg
    simp only [guarded_bind, guarded_ite, guarded_alloc]
    refine guarded_load hs hi ⟨fun _ => hs, fun _ => guarded_load hs hi fun b => ⟨fun _ => ?_, fun _ => ?_⟩⟩
    · refine guarded_store_stored hs hg ?_ fun t ht hgt => ?_
      · exact fun _ => ⟨rfl, rfl⟩
      refine guarded_store_stored ht hgt ?_ fun u hu hgu => ?_
      · exact fun _ => ⟨rfl, rfl⟩
      refine guarded_update_stored hu hgu fun _ v hv => ?_
      refine guarded_modify.mpr ⟨fun e he => ?_, hv.of_eq rfl rfl rfl rfl rfl⟩
      obtain rfl := List.mem_singleton.mp he
      exact hv.allows rfl
    · refine guarded_store_stored hs hg ?_ fun _ hc _ => hc
      exact fun _ => ⟨rfl, rfl⟩

/-! #### Opening -/

/-- The element at the head of the queue can go: its path is not that of a record further on. -/
def Storage.SparesHead (s : Storage) : Prop :=
  ∀ q ∈ s.fifoQueue.head?, ∀ i ∈ s.get q.path, i ∉ s.queuedFiles.tail

theorem guarded_openFileCreate {path : Option Path} (hs : s.Custody)
    (hspare : s.find path = none → s.noOfFiles + 1 > s.maxFiles → s.SparesHead) :
    (openFileCreate path).guarded Storage.Allows (fun _ t => t.Custody) s := by
  simp only [openFileCreate, openFileCreateBy, bind_eq, pure_eq, guarded_bind]
  refine guarded_storageGetFile hs fun _ => ?_
  cases hg : s.find path with
  | some i => exact hs
  | none =>
    refine guarded_bind.mpr (guarded_storageCreateFile hs hs fun f hf => ?_)
    have hnew : s.next ∉ s.released := fun h => Nat.lt_irrefl _ (hs.old _ h)
    have hunreached : ¬s.Reachable s.next := by
      rintro (h | h)
      · obtain ⟨e, he, hv⟩ := List.mem_map.mp h
        exact Nat.lt_irrefl _ (hv ▸ hs.fresh e he)
      · exact Nat.lt_irrefl _ (hs.known _ h)
    have hadd : ∀ t : Storage, t.Custody → t.next = s.next + 1 → s.next ∉ t.released →
        (storageAddFile s.next).guarded Storage.Allows (fun _ u => u.Custody) t := by
      intro t ht hn hr
      refine guarded_storageAddFile ht ?_ hr fun _ _ hu => hu
      rw [hn]
      exact Nat.lt_succ_self _
    simp only [guarded_bind, guarded_read, id]
    refine ⟨fun e he => ?_, guarded_ite.mpr ⟨fun hl => ?_, fun _ =>
      guarded_bind.mpr (hadd _ hf rfl hnew)⟩⟩
    · obtain rfl := List.mem_singleton.mp he
      exact hf.allows rfl
    · refine guarded_bind.mpr (guarded_queueRemoveHead hf ?_)
      cases hq : s.fifoQueue with
      | nil =>
        have hnil : (s.newFile f).fifoQueue = [] := hq
        rw [hnil]
        exact hf.dequeue
      | cons q queue =>
        have hcons : (s.newFile f).fifoQueue = q :: queue := hq
        rw [hcons]
        simp only [List.head?_cons, guarded_bind]
        refine guarded_storageRemoveFile hf.dequeue (fun i hi => ?_) fun _ t ht => ?_
        · have hhead := hspare hg hl q (by rw [hq]; rfl) i hi
          rw [Storage.queuedFiles, ← List.map_tail] at hhead
          exact hhead
        · refine hadd t ht.custody ht.next fun h => ?_
          rcases ht.gone _ h with h | h | h
          · exact hnew h
          · exact hunreached (.inl h)
          · refine hunreached (.inr ?_)
            obtain ⟨q', hq', heq⟩ := List.mem_map.mp h
            exact List.mem_map.mpr ⟨q', List.mem_of_mem_tail hq', heq⟩

theorem guarded_openFileLock {clientFd : Int} {path : Option Path} (hs : s.Custody) :
    (openFileLock clientFd path).guarded Storage.Allows (fun _ t => t.Custody) s := by
  simp only [openFileLock, bind_eq, pure_eq, guarded_bind]
  refine guarded_storageGetFile hs fun _ => ?_
  cases hg : s.find path with
  | none => exact hs
  | some i =>
    obtain ⟨p, rfl, hg⟩ := Storage.find_eq_some hg
    simp only [guarded_bind, guarded_ite]
    refine guarded_load hs (hs.get_alive hg) ⟨fun _ => hs, fun _ => ?_⟩
    refine guarded_store_stored hs hg (harmless_lockedBy _) fun t ht hgt => ?_
    refine guarded_store_stored ht hgt harmless_setLock fun u hu hgu => ?_
    exact guarded_update_stored hu hgu fun _ _ hc => hc

theorem guarded_openFileNoflag {path : Option Path} (hs : s.Custody) :
    (openFileNoflag path).guarded Storage.Allows (fun _ t => t.Custody) s := by
  simp only [openFileNoflag, bind_eq, pure_eq, guarded_bind]
  refine guarded_storageGetFile hs fun _ => ?_
  cases s.find path with
  | none => exact hs
  | some i => exact hs

theorem guarded_openFilePart {flag : Bool} {part : ServerM (Option ResponseCode)}
    {rest : ServerM ResponseCode} (hs : s.Custody)
    (hp : flag = true → part.guarded Storage.Allows (fun _ t => t.Custody) s)
    (hr : ∀ t : Storage, t.Custody → rest.guarded Storage.Allows (fun _ t => t.Custody) t) :
    (openFilePart flag part rest).guarded Storage.Allows (fun _ t => t.Custody) s := by
  refine guarded_ite.mpr ⟨fun hf => (hp hf).bind fun r t ht => ?_, fun _ => hr s hs⟩
  cases r with
  | none => exact hr t ht
  | some status => exact ht

/-- The condition of a request to open a file. -/
def Storage.SparesOpen (s : Storage) (path : Option Path) (body : Bytes) : Prop :=
  ∀ flags ∈ readInt body, chkFlag flags oCreate = true → s.find path = none →
    s.noOfFiles + 1 > s.maxFiles → s.SparesHead

theorem guarded_openFileHandler {clientFd : Int} {request : Request} (hs : s.Custody)
    (hspare : s.SparesOpen request.path.join request.body) :
    (openFileHandler clientFd request).guarded Storage.Allows (fun _ t => t.Custody) s := by
  simp only [openFileHandler, openFileHandlerBy, bind_eq, pure_eq, guarded_bind]
  refine guarded_requestPath fun path hpath => ?_
  cases hflags : readInt request.body with
  | none => exact guarded_crash
  | some flags =>
    refine guarded_openFilePart hs (fun hc => guarded_openFileCreate hs fun hg hl => ?_) fun t ht => ?_
    · refine hspare flags hflags hc ?_ hl
      rw [hpath]
      exact hg
    · refine guarded_openFilePart ht (fun _ => guarded_openFileLock ht) fun u hu => ?_
      exact guarded_openFilePart hu (fun _ => guarded_openFileNoflag hu) fun v hv => hv

end Handlers

end FileStorage
