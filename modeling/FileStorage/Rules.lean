import FileStorage.Effect

/-! Proof rules for the storage routines on a sound table. Of the log they keep the victims and
the subtractions from `current_size`. -/

namespace FileStorage

open Prog

/-- The accesses the proofs keep. -/
def Access.note : Access → Option Access
  | .victim p => some (.victim p)
  | .shrinkSize old amount => some (.shrinkSize old amount)
  | _ => none

def Event.note : Event Access → Option Access
  | .access a => a.note
  | _ => none

namespace World

def notes (w : StorageWorld) : List Access := w.trace.filterMap Event.note

@[simp] theorem notes_locked (w : StorageWorld) : w.locked.notes = w.notes := by
  simp [notes, Event.note]

@[simp] theorem notes_unlocked (w : StorageWorld) : w.unlocked.notes = w.notes := by
  simp [notes, Event.note]

@[simp] theorem notes_posted (w : StorageWorld) (m : Int × Response) (b : Bool) :
    (w.posted m b).notes = w.notes := by
  simp [notes]

@[simp] theorem notes_accessed (w : StorageWorld) (es : Storage → List Access)
    (f : Storage → Storage) :
    (w.accessed es f).notes = w.notes ++ (es w.state).filterMap Access.note := by
  have he : Event.note ∘ Event.access = Access.note := rfl
  rw [notes, accessed_trace, List.filterMap_append, List.filterMap_map, he, notes]

/-- `w'` comes from `w` by accesses that leave the state `s` and add `ns` to the notes. -/
structure Moved (w w' : StorageWorld) (s : Storage) (ns : List Access) : Prop where
  state : w'.state = s
  held : w'.held = w.held
  notes : w'.notes = w.notes ++ ns

end World

@[simp] theorem note_readField (i : FileId) (f : Field) : (Access.readField i f).note = none := rfl
@[simp] theorem note_writeField (i : FileId) (f : Field) :
    (Access.writeField i f).note = none := rfl
@[simp] theorem note_readFiles : Access.readFiles.note = none := rfl
@[simp] theorem note_writeFiles : Access.writeFiles.note = none := rfl
@[simp] theorem note_readQueue : Access.readQueue.note = none := rfl
@[simp] theorem note_writeQueue : Access.writeQueue.note = none := rfl
@[simp] theorem note_readCurrentSize : Access.readCurrentSize.note = none := rfl
@[simp] theorem note_readNoOfFiles : Access.readNoOfFiles.note = none := rfl
@[simp] theorem note_writeNoOfFiles : Access.writeNoOfFiles.note = none := rfl
@[simp] theorem note_release (i : FileId) : (Access.release i).note = none := rfl
@[simp] theorem note_growSize (a b : Nat) : (Access.growSize a b).note = none := rfl
@[simp] theorem note_victim (p : Path) : (Access.victim p).note = some (.victim p) := rfl
@[simp] theorem note_shrinkSize (a b : Nat) :
    (Access.shrinkSize a b).note = some (.shrinkSize a b) := rfl

@[simp] theorem note_lookup (p : Option Path) (s : Storage) :
    (lookupAccesses p s).filterMap Access.note = [] := by
  cases p <;> simp [lookupAccesses]

/-- The record a possibly NULL path leads to. -/
def Storage.find (s : Storage) (p : Option Path) : Option FileId := p.bind s.get

@[simp] theorem Storage.find_some (s : Storage) (p : Path) : s.find (some p) = s.get p := rfl

theorem Storage.find_eq_some {s : Storage} {p : Option Path} {i : FileId}
    (h : s.find p = some i) : ∃ q, p = some q ∧ s.get q = some i :=
  Option.bind_eq_some_iff.mp h

section Rules

variable {ok : Bool → Prop} {w : StorageWorld}

theorem returns_storageGetFile {p : Option Path} {R : Option FileId → StorageWorld → Prop}
    (h : w.state.files.nBuckets ≠ 0 →
      R (w.state.find p) (w.accessed (lookupAccesses p) id)) :
    (storageGetFile p).returns ok R w := by
  rw [storageGetFile, returns_access]
  by_cases hn : w.state.files.nBuckets = 0
  · simp [hn]
  · cases p with
    | none => by_cases hc : w.state.files.chain 0 = [] <;> simp_all [Storage.find]
    | some p => simpa [hn] using h hn

theorem returns_load {i : FileId} {fs : List Field} {R : File → StorageWorld → Prop} :
    (load i fs).returns ok R w ↔
      R (w.state.heap i) (w.accessed (fun _ => fs.map (.readField i)) id) :=
  returns_read

theorem returns_store {i : FileId} {fs : List Field} {g : File → File}
    {R : Unit → StorageWorld → Prop} :
    (store i fs g).returns ok R w ↔
      R () (w.accessed (fun _ => fs.map (.writeField i))
        fun s => s.setFile i (g (s.heap i))) :=
  returns_modify

/-- Storing a record again under the path it is already found by. -/
theorem returns_filesInsert_self {i : FileId} {R : Bool → StorageWorld → Prop}
    (hi : w.state.get (w.state.heap i).path = some i)
    (h : ∀ w', w.Moved w' (w.state.insertFile (w.state.heap i).path i) [] → R true w') :
    (filesInsert i).returns ok R w := by
  simp only [filesInsert, bind_eq, pure_eq, returns_bind, returns_load]
  refine returns_storageGetFile fun _ => ?_
  simp only [World.accessed_state, id, Storage.find_some, hi]
  simp only [returns_bind, returns_modify, returns_ret]
  exact h _ ⟨rfl, rfl, by simp⟩

theorem returns_filesInsert_new {i : FileId} {R : Bool → StorageWorld → Prop}
    (hi : w.state.get (w.state.heap i).path = none)
    (ht : w.state.files.nBuckets ≠ 0 → ok true → ∀ w',
      w.Moved w' (w.state.insertFile (w.state.heap i).path i) [] → R true w')
    (hf : w.state.files.nBuckets ≠ 0 → ok false → ∀ w', w.Moved w' w.state [] → R false w') :
    (filesInsert i).returns ok R w := by
  simp only [filesInsert, bind_eq, pure_eq, returns_bind, returns_load]
  refine returns_storageGetFile fun hn => ?_
  simp only [World.accessed_state, id, Storage.find_some, hi] at hn ⊢
  simp only [returns_bind, returns_alloc, returns_ite, returns_modify, returns_ret]
  refine fun b hb => ⟨?_, ?_⟩
  · rintro rfl
    exact ht hn hb _ ⟨rfl, rfl, by simp⟩
  · intro h
    obtain rfl : b = false := by simpa using h
    exact hf hn hb _ ⟨rfl, rfl, by simp⟩

theorem returns_filesRemove {p : Path} {R : Bool → StorageWorld → Prop}
    (hn : w.state.get p = none → w.state.files.nBuckets ≠ 0 →
      ∀ w', w.Moved w' w.state [] → R false w')
    (hs : ∀ i, w.state.get p = some i → w.state.files.nBuckets ≠ 0 →
      ∀ w', w.Moved w' ((w.state.eraseFile p).release i) [] → R true w') :
    (filesRemove p).returns ok R w := by
  simp only [filesRemove, bind_eq, pure_eq, returns_bind]
  refine returns_storageGetFile fun h0 => ?_
  simp only [Storage.find_some]
  cases hg : w.state.get p with
  | none => exact returns_ret.mpr (hn hg h0 _ ⟨rfl, rfl, by simp⟩)
  | some i =>
    simp only [returns_bind, returns_modify, freeFile, bind_eq, returns_load, returns_ite,
      returns_ret]
    refine ⟨fun _ => returns_crash, fun _ => ?_⟩
    exact hs i hg h0 _ ⟨rfl, rfl, by simp⟩

theorem returns_queueRemoveElement {p : Path} {R : Bool → StorageWorld → Prop}
    (h : ∀ w', w.Moved w' (w.state.unqueue p) [] → R (w.state.queued p).isSome w') :
    (queueRemoveElement p).returns ok R w := by
  rw [queueRemoveElement, returns_access, returns_ret]
  refine h _ ⟨rfl, rfl, ?_⟩
  cases hq : w.state.queued p <;> simp [World.notes_accessed, hq]

/-- What `storage_remove_file` leaves of the storage: only a path in the queue is removed. -/
def Storage.removed (s : Storage) (p : Path) (i : FileId) : Storage :=
  let s' := ((s.addFiles (-1)).shrink (s.heap i).size).unqueue p
  if (s.queued p).isSome then (s'.eraseFile p).release i else s'

theorem returns_storageRemoveFile {p : Path} {R : Bool → StorageWorld → Prop}
    (hn : w.state.get p = none → w.state.files.nBuckets ≠ 0 →
      ∀ w', w.Moved w' w.state [] → R false w')
    (hs : ∀ i, w.state.get p = some i → w.state.files.nBuckets ≠ 0 →
      ∀ w', w.Moved w' (w.state.removed p i)
        [.shrinkSize w.state.currentSize (w.state.heap i).size] →
      R (w.state.queued p).isSome w') :
    (storageRemoveFile p).returns ok R w := by
  simp only [storageRemoveFile, bind_eq, pure_eq, returns_bind]
  refine returns_storageGetFile fun h0 => ?_
  simp only [Storage.find_some]
  cases hg : w.state.get p with
  | none => exact returns_ret.mpr (hn hg h0 _ ⟨rfl, rfl, by simp⟩)
  | some i =>
    simp only [returns_bind, dropCount, shrinkBy, returns_modify]
    refine returns_queueRemoveElement fun w1 ⟨hst, hheld, hnote⟩ => ?_
    replace hst : w1.state = ((w.state.addFiles (-1)).shrink (w.state.heap i).size).unqueue p := hst
    replace hnote : w1.notes = w.notes ++ [.shrinkSize w.state.currentSize (w.state.heap i).size] := by
      simpa [List.filterMap_cons, Storage.addFiles] using hnote
    change (if (w.state.queued p).isSome = true then filesRemove p else ret false).returns ok R w1
    rw [returns_ite]
    refine ⟨fun hb => ?_, fun hb => ?_⟩
    · have hget : w1.state.get p = some i := by
        rw [hst, ← hg]
        unfold Storage.unqueue
        split <;> rfl
      refine returns_filesRemove (fun h => by simp [hget] at h) fun j hj _ w2 h2 => ?_
      obtain rfl : i = j := by simpa [hget] using hj
      rw [← hb]
      refine hs i hg h0 w2 ⟨?_, h2.held.trans hheld, ?_⟩
      · rw [h2.state, hst, Storage.removed, if_pos hb]
      · rw [h2.notes, hnote, List.append_nil]
    · have hf : (w.state.queued p).isSome = false := by simpa using hb
      refine returns_ret.mpr ?_
      rw [← hf]
      refine hs i hg h0 w1 ⟨?_, hheld, hnote⟩
      rw [hst, Storage.removed, if_neg hb]

theorem returns_requestPath {request : Request} {R : Option Path → StorageWorld → Prop}
    (h : ∀ path, request.path = some path → R path w) : (requestPath request).returns ok R w := by
  unfold requestPath
  split
  · exact returns_crash
  · exact returns_ret.mpr (h _ ‹_›)

theorem returns_sendResponse {clientFd : Int} {status : ResponseCode} {filePath body : Bytes}
    {R : Bool → StorageWorld → Prop}
    (h : ∀ b w', (b = false → ok false ∨ clientFd < 0) → w.Moved w' w.state [] → R b w') :
    (sendResponse clientFd status filePath body).returns ok R w := by
  rw [sendResponse, returns_ite]
  refine ⟨fun hc => returns_ret.mpr (h _ w (fun _ => .inr hc) ⟨rfl, rfl, by simp⟩), fun _ => ?_⟩
  rw [returns_sendMsg]
  refine fun b hb => h b _ ?_ ⟨by simp, by simp, by simp⟩
  rintro rfl
  exact .inl hb

end Rules

end FileStorage
