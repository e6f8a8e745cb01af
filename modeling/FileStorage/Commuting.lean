import FileStorage.Appending
import FileStorage.Removal

/-! Requests that change one file at most: what each of them does to its file, and that two of them
on different files can change places. -/

namespace FileStorage

open Prog

/-! ### Touching one file -/

/-- What a request does with its file: its status, the record if it is stored again, the bytes that
are added to `current_size`, and whether it leaves the mutex free. -/
structure Touch where
  status : ResponseCode
  record : Option File
  grown : Option Nat
  free : Bool

/-- A request that only answers. -/
def Touch.answer (status : ResponseCode) : Touch := ⟨status, none, none, true⟩

/-- A request that stores the record again. -/
def Touch.restore (status : ResponseCode) (f : File) : Touch := ⟨status, some f, none, true⟩

def File.touchOpen (clientFd : Int) (flags : Flags) (f : Option File) : Touch :=
  if chkFlag flags oLock = true then
    match f with
    | none => .answer .notFound
    | some f => if f.Owned clientFd then .answer .unauthorized else .restore .success (f.locked clientFd)
  else if chkFlag flags oNoflag = true ∧ f = none then .answer .notFound
  else .answer .success

def File.touchClose (clientFd : Int) : Option File → Touch
  | none => .answer .notFound
  | some f => if f.Owned clientFd then .restore .success f.unlocked else .answer .success

def File.touchAppend (maxSize : Nat) (clientFd : Int) (body : Bytes) (f : Option File) : Touch :=
  if body = [] then .answer .badRequest
  else if body.length > maxSize then .answer .fileTooBig
  else match f with
    | none => .answer .notFound
    | some f =>
      if f.lockedBy ≠ clientFd then .answer .unauthorized
      else ⟨.success, some (f.appended body), some body.length, true⟩

/-- A client that cannot be put on the list is refused, and the mutex stays locked. -/
def File.touchLock (clientFd : Int) : Option File → Touch
  | none => .answer .notFound
  | some f =>
    if chkFlag f.flags oLock = false then .restore .success (f.locked clientFd)
    else if f.lockedBy = clientFd then .answer .success
    else match f.waitingOnLock with
      | none => ⟨.internalError, none, none, false⟩
      | some list => .restore .awaiting { f with waitingOnLock := some (list ++ [clientFd]) }

def File.touchUnlock (clientFd : Int) : Option File → Touch
  | none => .answer .notFound
  | some f =>
    if chkFlag f.flags oLock = false then .answer .badRequest
    else if f.lockedBy = clientFd then .restore .success f.unlocked
    else .answer .unauthorized

theorem replaceValue_self {κ ν : Type} [DecidableEq κ] {k : κ} {c : List (HashMapEntry κ ν)}
    {e : HashMapEntry κ ν} (h : findEntry k c = some e) : replaceValue k e.value c = c := by
  induction c with
  | nil => cases h
  | cons d c ih =>
    unfold replaceValue
    by_cases hd : d.key = k
    · have hde : d = e := by simpa [findEntry, hd] using h
      rw [if_pos hd, hde]
    · rw [if_neg hd, ih (by simpa [findEntry, hd] using h)]

theorem sizeAdd_right_comm (a m n : Nat) : sizeAdd (sizeAdd a m) n = sizeAdd (sizeAdd a n) m := by
  simp only [sizeAdd, sizeBound]
  omega

namespace Storage

/-- The storage after a touch of the file `p`. -/
def touched (s : Storage) (p : Path) (t : Touch) : Storage :=
  match s.get p, t.record with
  | some i, some f =>
    let u := (s.setFile i f).insertFile p i
    match t.grown with
    | some n => u.grow n
    | none => u
  | _, _ => s

variable {s : Storage} {p q : Path} {i j : FileId} {t u : Touch} {f : File}

/-- A record that is stored again is counted once more. -/
theorem Sound.insertFile_self (hs : s.Sound) (hg : s.get p = some i) :
    s.insertFile p i = { s with files := { s.files with nEntries := s.files.nEntries + 1 } } := by
  obtain ⟨e, he, rfl⟩ := Option.map_eq_some_iff.mp hg
  have hslot := hs.placed.slot_lt (hs.nBuckets_pos hg) p
  simp only [Storage.insertFile, hashMapInsert, he, Option.isSome_some, if_true, replaceValue_self he]
  rw [chain_eq_getElem hslot, List.set_getElem_self]

theorem touched_none (h : t.record = none) : s.touched p t = s := by
  unfold touched
  rw [h]
  split
  · cases ‹_›
  · rfl

theorem Sound.touched_some (hs : s.Sound) (hg : s.get p = some i) (hr : t.record = some f)
    (hp : f.path = p) :
    s.touched p t = { s with
      heap := Function.update s.heap i f
      files := { s.files with nEntries := s.files.nEntries + 1 }
      currentSize := t.grown.elim s.currentSize (sizeAdd s.currentSize) } := by
  have hset : (s.setFile i f).Sound := hs.setFile (hp.trans (hs.get_mem hg).2.symm)
  have hinsert := hset.insertFile_self (p := p) (i := i) hg
  unfold touched
  rw [hg, hr]
  dsimp only
  rw [hinsert]
  cases t.grown <;> rfl

theorem touched_absent (h : s.get p = none) : s.touched p t = s := by
  unfold touched
  rw [h]

/-- A touch of a file under its own path. -/
def Touches (p : Path) (t : Touch) : Prop := ∀ f, t.record = some f → f.path = p

/-- The table leads to the same records, and all but one are as they were. -/
structure TouchedAt (s s' : Storage) (p : Path) : Prop where
  sound : s'.Sound
  get : ∀ q, s'.get q = s.get q
  others : ∀ q ≠ p, s'.fileAt q = s.fileAt q
  nBuckets : s'.files.nBuckets = s.files.nBuckets
  maxSize : s'.maxSize = s.maxSize

theorem Sound.touchedAt (hs : s.Sound) (ht : Touches p t) : TouchedAt s (s.touched p t) p := by
  have hsame : s.touched p t = s → TouchedAt s (s.touched p t) p := fun h =>
    h.symm ▸ ⟨hs, fun _ => rfl, fun _ _ => rfl, rfl, rfl⟩
  cases hg : s.get p with
  | none => exact hsame (touched_absent hg)
  | some i =>
    cases hr : t.record with
    | none => exact hsame (touched_none hr)
    | some f =>
      have hp := ht f hr
      have heq := hs.touched_some hg hr hp
      have hsound : (s.touched p t).Sound := by
        have h1 := (hs.reinsert hg hp).1
        unfold touched
        rw [hg, hr]
        cases t.grown with
        | none => exact h1
        | some n => exact h1.of_eq rfl rfl rfl
      refine ⟨hsound, fun q => by rw [heq]; rfl, fun q hq => ?_, by rw [heq], by rw [heq]⟩
      have hget : (s.touched p t).get q = s.get q := by rw [heq]; rfl
      rw [fileAt, fileAt, hget, heq]
      cases hgq : s.get q with
      | none => rfl
      | some j =>
        have hne : j ≠ i := by
          rintro rfl
          exact hq ((hs.get_mem hgq).2.symm.trans (hs.get_mem hg).2)
        exact congrArg some (Function.update_of_ne hne _ _)

/-- Touches of two files can change places. -/
theorem Sound.touched_comm (hs : s.Sound) (hpq : p ≠ q) (ht : Touches p t) (hu : Touches q u) :
    (s.touched p t).touched q u = (s.touched q u).touched p t := by
  have hp := hs.touchedAt ht
  have hq := hs.touchedAt hu
  cases hgp : s.get p with
  | none => rw [touched_absent hgp, touched_absent ((hq.get p).trans hgp)]
  | some i =>
    cases hgq : s.get q with
    | none => rw [touched_absent hgq, touched_absent ((hp.get q).trans hgq)]
    | some j =>
      cases hrt : t.record with
      | none => rw [touched_none hrt, touched_none hrt]
      | some f =>
        cases hru : u.record with
        | none => rw [touched_none hru, touched_none hru]
        | some g =>
          have hne : i ≠ j := by
            rintro rfl
            exact hpq ((hs.get_mem hgp).2.symm.trans (hs.get_mem hgq).2)
          rw [hp.sound.touched_some ((hp.get q).trans hgq) hru (hu g hru),
            hq.sound.touched_some ((hq.get p).trans hgp) hrt (ht f hrt),
            hs.touched_some hgp hrt (ht f hrt), hs.touched_some hgq hru (hu g hru)]
          simp only [Storage.mk.injEq, true_and, and_true]
          refine ⟨?_, Function.update_comm hne _ _ _⟩
          cases t.grown <;> cases u.grown <;> simp [sizeAdd_right_comm]

end Storage

/-! ### The handlers -/

section Handlers

variable {ok : Bool → Prop} {fd : Int} {p : Path} {req : Request} {w : StorageWorld}

theorem attains_find {R : Option FileId → StorageWorld → Prop} (hn : w.state.files.nBuckets ≠ 0) :
    (storageGetFile (some p)).attains ok R w ↔
      R (w.state.get p) (w.accessed (lookupAccesses (some p)) id) := by
  rw [storageGetFile, attains_access, if_neg hn, attains_ret]

/-- The record of the path `p`, changed to `f`, is stored again. -/
theorem attains_restore {s : Storage} {i : FileId} {f : File} (hs : s.Sound) (hg : s.get p = some i)
    (hp : f.path = p) (hw : w.state = s.setFile i f) :
    (storageUpdateFile i).attains ok (fun _ w' => w'.held = w.held ∧
      w'.state = (s.setFile i f).insertFile p i) w := by
  have hf : (w.state.heap i).path = p := by rw [hw, Storage.setFile_heap_self, hp]
  have hn : w.state.files.nBuckets ≠ 0 := by
    rw [hw]
    exact Nat.ne_of_gt (hs.nBuckets_pos hg)
  simp only [storageUpdateFile, filesInsert, bind_eq, pure_eq, attains_bind, attains_load, hf]
  refine (attains_find (by exact hn)).mpr ?_
  have hget : w.state.get p = some i := by
    rw [hw]
    exact hg
  rw [World.accessed_state, id, hget]
  simp only [attains_bind, attains_modify, attains_ret]
  exact ⟨rfl, by rw [← hw]; rfl⟩

/-- The program does what the touch says. -/
def Follows (t : Touch) (p : Path) (w : StorageWorld) (status : ResponseCode) (w' : StorageWorld) :
    Prop :=
  status = t.status ∧ w'.held = (w.held || !t.free) ∧ w'.state = w.state.touched p t

theorem follows_answer {status : ResponseCode} {w' : StorageWorld} (hw : w'.held = w.held)
    (hst : w'.state = w.state) : Follows (.answer status) p w status w' :=
  ⟨rfl, by simpa [Touch.answer] using hw, hst.trans (Storage.touched_none rfl).symm⟩

theorem follows_restore {status : ResponseCode} {w' : StorageWorld} {i : FileId} {f : File}
    (hg : w.state.get p = some i) (hw : w'.held = w.held)
    (hst : w'.state = (w.state.setFile i f).insertFile p i) :
    Follows (.restore status f) p w status w' := by
  refine ⟨rfl, by simpa [Touch.restore] using hw, hst.trans ?_⟩
  rw [Storage.touched, hg]
  rfl

theorem attains_closeFileHandler (hw : w.held = false) (hs : w.state.Sound)
    (hn : w.state.files.nBuckets ≠ 0) (hp : req.path = some (some p)) :
    (closeFileHandler fd req).attains (fun b => b = true)
      (Follows (File.touchClose fd (w.state.fileAt p)) p w) w := by
  simp only [closeFileHandler, requestPath, hp, bind_eq, pure_eq, attains_bind, attains_ret,
    attains_lockReturn]
  refine ⟨hw, (attains_find (by exact hn)).mpr ?_⟩
  rw [World.locked_state, Storage.fileAt]
  cases hg : w.state.get p with
  | none =>
    simp only [attains_bind, attains_unlockReturn, attains_ret]
    exact follows_answer hw.symm rfl
  | some i =>
    simp only [attains_bind, attains_load, attains_ite, attains_store, attains_unlockReturn,
      attains_ret, Option.map_some, File.touchClose]
    refine ⟨fun (hc : (w.state.heap i).Owned fd) => ?_,
      fun (hc : ¬(w.state.heap i).Owned fd) => ?_⟩
    · rw [if_pos hc]
      refine (attains_restore (f := (w.state.heap i).unlocked) hs hg (hs.get_mem hg).2 ?_).mono ?_
      · simp [Storage.setFile_setFile, File.unlocked]
      · exact fun _ w' h => follows_restore hg hw.symm h.2
    · rw [if_neg hc]
      exact follows_answer hw.symm rfl

theorem attains_unlockFileHandler (hw : w.held = false) (hs : w.state.Sound)
    (hn : w.state.files.nBuckets ≠ 0) (hp : req.path = some (some p)) :
    (unlockFileHandler fd req).attains (fun b => b = true)
      (Follows (File.touchUnlock fd (w.state.fileAt p)) p w) w := by
  simp only [unlockFileHandler, requestPath, hp, bind_eq, pure_eq, attains_bind, attains_ret,
    attains_lockReturn]
  refine ⟨hw, (attains_find (by exact hn)).mpr ?_⟩
  rw [World.locked_state, Storage.fileAt]
  cases hg : w.state.get p with
  | none =>
    simp only [attains_bind, attains_unlockReturn, attains_ret]
    exact follows_answer hw.symm rfl
  | some i =>
    simp only [attains_bind, attains_load, attains_ite, attains_store, attains_unlockReturn,
      attains_ret, Option.map_some, File.touchUnlock]
    refine ⟨fun (hc : chkFlag (w.state.heap i).flags oLock = false) => ?_,
      fun (hc : ¬chkFlag (w.state.heap i).flags oLock = false) =>
        ⟨fun (hl : (w.state.heap i).lockedBy = fd) => ?_,
          fun (hl : ¬(w.state.heap i).lockedBy = fd) => ?_⟩⟩
    · rw [if_pos hc]
      exact follows_answer hw.symm rfl
    · rw [if_neg hc, if_pos hl]
      refine (attains_restore (f := (w.state.heap i).unlocked) hs hg (hs.get_mem hg).2 ?_).mono ?_
      · simp [Storage.setFile_setFile, File.unlocked]
      · exact fun _ w' h => follows_restore hg hw.symm h.2
    · rw [if_neg hc, if_neg hl]
      exact follows_answer hw.symm rfl

theorem attains_lockFileHandler (hw : w.held = false) (hs : w.state.Sound)
    (hn : w.state.files.nBuckets ≠ 0) (hp : req.path = some (some p)) :
    (lockFileHandler fd req).attains (fun b => b = true)
      (Follows (File.touchLock fd (w.state.fileAt p)) p w) w := by
  simp only [lockFileHandler, requestPath, hp, bind_eq, pure_eq, attains_bind, attains_ret,
    attains_lockReturn]
  refine ⟨hw, (attains_find (by exact hn)).mpr ?_⟩
  rw [World.locked_state, Storage.fileAt]
  cases hg : w.state.get p with
  | none =>
    simp only [attains_bind, attains_unlockReturn, attains_ret]
    exact follows_answer hw.symm rfl
  | some i =>
    simp only [attains_bind, attains_load, attains_ite, attains_store, attains_unlockReturn,
      attains_alloc, attains_ret, Option.map_some, File.touchLock]
    refine ⟨fun (hc : chkFlag (w.state.heap i).flags oLock = false) => ?_,
      fun (hc : ¬chkFlag (w.state.heap i).flags oLock = false) =>
        ⟨fun (hl : (w.state.heap i).lockedBy = fd) => ?_,
          fun (hl : ¬(w.state.heap i).lockedBy = fd) b hb =>
            ⟨fun _ => ?_, fun hno => absurd hb hno⟩⟩⟩
    · rw [if_pos hc]
      refine (attains_restore (f := (w.state.heap i).locked fd) hs hg (hs.get_mem hg).2 ?_).mono ?_
      · simp [Storage.setFile_setFile, File.locked]
      · exact fun _ w' h => follows_restore hg hw.symm h.2
    · rw [if_neg hc, if_pos hl]
      exact follows_answer hw.symm rfl
    · rw [if_neg hc, if_neg hl]
      simp only [World.accessed_state, World.locked_state, id]
      cases hlist : (w.state.heap i).waitingOnLock with
      | none => exact attains_ret.mpr ⟨rfl, (Bool.or_true _).symm, (Storage.touched_none rfl).symm⟩
      | some list =>
        simp only [attains_bind, attains_alloc, attains_ite, attains_store, attains_unlockReturn,
          attains_ret]
        refine fun b hb => ⟨fun _ => ?_, fun hno => absurd hb hno⟩
        refine (attains_restore (f := { w.state.heap i with waitingOnLock := some (list ++ [fd]) })
          hs hg (hs.get_mem hg).2 ?_).mono ?_
        · simp [hlist]
        · exact fun _ w' h => follows_restore hg hw.symm h.2

theorem attains_appendToFileHandler_touch (hs : w.state.Sound) (hp : req.path = some (some p))
    (hl : req.body ≠ [] → req.body.length ≤ w.state.maxSize →
      w.held = false ∧ w.state.files.nBuckets ≠ 0) :
    (appendToFileHandler fd req).attains (fun b => b = true)
      (Follows (File.touchAppend w.state.maxSize fd req.body (w.state.fileAt p)) p w) w := by
  simp only [appendToFileHandler, requestPath, hp, bind_eq, pure_eq, attains_bind, attains_ret,
    attains_lockReturn, attains_ite, attains_read, id, File.touchAppend]
  refine ⟨fun hb => ?_, fun hb => ⟨fun hbig => ?_, fun hbig => ?_⟩⟩
  · rw [if_pos hb]
    exact follows_answer rfl rfl
  · rw [if_neg hb, if_pos hbig]
    exact follows_answer rfl rfl
  rw [if_neg hb, if_neg hbig]
  obtain ⟨hw, hn⟩ := hl hb (Nat.not_lt.mp hbig)
  refine ⟨hw, (attains_find (by exact hn)).mpr ?_⟩
  rw [World.locked_state, World.accessed_state, id, Storage.fileAt]
  cases hg : w.state.get p with
  | none =>
    simp only [attains_bind, attains_unlockReturn, attains_ret]
    exact follows_answer hw.symm rfl
  | some i =>
    simp only [attains_bind, attains_load, attains_ite, attains_store, attains_unlockReturn,
      attains_alloc, attains_ret, Option.map_some]
    refine ⟨fun (hown : (w.state.heap i).lockedBy ≠ fd) => ?_,
      fun (hown : ¬(w.state.heap i).lockedBy ≠ fd) b hb' => ⟨fun _ => ?_, fun hno => absurd hb' hno⟩⟩
    · rw [if_pos hown]
      exact follows_answer hw.symm rfl
    · rw [if_neg hown]
      refine (attains_restore (f := (w.state.heap i).appended req.body) hs hg (hs.get_mem hg).2
        ?_).mono ?_
      · simp [Storage.setFile_setFile, File.appended]
      · rintro _ w' ⟨-, hst⟩
        simp only [growBy, attains_modify]
        refine ⟨rfl, by rw [hw]; rfl, ?_⟩
        rw [Storage.touched, hg]
        exact congrArg (Storage.grow · req.body.length) hst

/-- The part of `open_file_handler` for `O_LOCK`. -/
theorem attains_openFileLock_touch (hw : w.held = false) (hs : w.state.Sound)
    (hn : w.state.files.nBuckets ≠ 0) :
    (openFileLock fd (some p)).attains (fun b => b = true) (fun r w' =>
      r = (match w.state.fileAt p with
        | none => some .notFound
        | some f => if f.Owned fd then some .unauthorized else none) ∧
      w'.held = false ∧ w'.state = w.state.touched p
        (match w.state.fileAt p with
        | none => .answer .notFound
        | some f => if f.Owned fd then .answer .unauthorized else .restore .success (f.locked fd))) w := by
  simp only [openFileLock, bind_eq, pure_eq, attains_bind, attains_lockReturn]
  refine ⟨hw, (attains_find (by exact hn)).mpr ?_⟩
  rw [World.locked_state, Storage.fileAt]
  cases hg : w.state.get p with
  | none =>
    simp only [attains_bind, attains_unlockReturn, attains_ret, Option.map_none]
    exact ⟨trivial, rfl, (Storage.touched_none rfl).symm⟩
  | some i =>
    simp only [attains_bind, attains_load, attains_ite, attains_store, attains_unlockReturn,
      attains_ret, Option.map_some]
    refine ⟨fun (hc : (w.state.heap i).Owned fd) => ?_,
      fun (hc : ¬(w.state.heap i).Owned fd) => ?_⟩
    · rw [if_pos hc, if_pos hc]
      exact ⟨rfl, rfl, (Storage.touched_none rfl).symm⟩
    · rw [if_neg hc, if_neg hc]
      refine (attains_restore (f := (w.state.heap i).locked fd) hs hg (hs.get_mem hg).2 ?_).mono ?_
      · simp [Storage.setFile_setFile, File.locked]
      · rintro _ w' ⟨-, hst⟩
        refine ⟨rfl, rfl, ?_⟩
        rw [Storage.touched, hg]
        exact hst

/-- What follows it: the part for `O_NOFLAG`. -/
theorem attains_openFileRest {flags : Flags}
    (hl : chkFlag flags oNoflag = true → w.held = false ∧ w.state.files.nBuckets ≠ 0) :
    (openFilePart (chkFlag flags oNoflag) (openFileNoflag (some p)) (ret .success)).attains ok
      (fun status w' => status = (if chkFlag flags oNoflag = true ∧ w.state.get p = none then
        ResponseCode.notFound else .success) ∧ w'.held = w.held ∧ w'.state = w.state) w := by
  rw [openFilePart, attains_ite]
  refine ⟨fun hc => ?_, fun hc => attains_ret.mpr ⟨(if_neg fun h => hc h.1).symm, rfl, rfl⟩⟩
  obtain ⟨hw, hn⟩ := hl hc
  simp only [openFileNoflag, bind_eq, pure_eq, attains_bind, attains_lockReturn]
  refine ⟨hw, (attains_find (by exact hn)).mpr ?_⟩
  rw [World.locked_state]
  cases w.state.get p with
  | none =>
    simp only [attains_bind, attains_unlockReturn, attains_ret]
    exact ⟨(if_pos ⟨hc, trivial⟩).symm, hw.symm, rfl⟩
  | some i =>
    simp only [attains_bind, attains_unlockReturn, attains_ret]
    exact ⟨(if_neg fun h => Option.some_ne_none i h.2).symm, hw.symm, rfl⟩

theorem attains_openFileHandler_touch {flags : Flags} (hs : w.state.Sound)
    (hp : req.path = some (some p)) (hb : readInt req.body = some flags)
    (hc : chkFlag flags oCreate = false)
    (hl : chkFlag flags oLock = true ∨ chkFlag flags oNoflag = true →
      w.held = false ∧ w.state.files.nBuckets ≠ 0) :
    (openFileHandler fd req).attains (fun b => b = true)
      (Follows (File.touchOpen fd flags (w.state.fileAt p)) p w) w := by
  have hfound : w.state.fileAt p = none ↔ w.state.get p = none := Option.map_eq_none_iff
  simp only [openFileHandler, openFileHandlerBy, requestPath, hp, hb, bind_eq, pure_eq,
    attains_bind, attains_ret]
  rw [openFilePart, hc, if_neg Bool.false_ne_true, openFilePart, attains_ite]
  unfold File.touchOpen
  refine ⟨fun hlock => ?_, fun hlock => ?_⟩
  · obtain ⟨hw, hn⟩ := hl (.inl hlock)
    rw [if_pos hlock, bind_eq, attains_bind]
    refine (attains_openFileLock_touch hw hs hn).mono ?_
    rintro r w' ⟨rfl, hheld, hst⟩
    cases hf : w.state.fileAt p with
    | none =>
      rw [hf] at hst
      exact attains_ret.mpr ⟨rfl, by rw [hw]; exact hheld, hst⟩
    | some f =>
      obtain ⟨i, hg, rfl⟩ := Option.map_eq_some_iff.mp hf
      rw [hf] at hst
      dsimp only at hst ⊢
      by_cases hown : (w.state.heap i).Owned fd
      · rw [if_pos hown] at hst ⊢
        rw [if_pos hown]
        exact attains_ret.mpr ⟨rfl, by rw [hw]; exact hheld, hst⟩
      · rw [if_neg hown] at hst ⊢
        rw [if_neg hown]
        have htouch := hs.touchedAt (p := p)
          (t := .restore .success ((w.state.heap i).locked fd)) fun g hg' => by
            obtain rfl := Option.some.inj hg'
            exact (hs.get_mem hg).2
        rw [← hst] at htouch
        refine (attains_openFileRest fun _ => ⟨hheld, by rw [htouch.nBuckets]; exact hn⟩).mono ?_
        rintro status u ⟨rfl, hheld', hst'⟩
        refine ⟨if_neg fun h => ?_, ?_, hst'.trans hst⟩
        · rw [htouch.get, hg] at h
          exact Option.some_ne_none i h.2
        · rw [hheld', hheld, hw]
          rfl
  · rw [if_neg hlock]
    refine (attains_openFileRest fun h => hl (.inr h)).mono ?_
    rintro status u ⟨rfl, hheld, hst⟩
    by_cases h : chkFlag flags oNoflag = true ∧ w.state.fileAt p = none
    · rw [if_pos h, if_pos ⟨h.1, hfound.mp h.2⟩]
      exact follows_answer hheld hst
    · rw [if_neg h, if_neg fun h' => h ⟨h'.1, hfound.mpr h'.2⟩]
      exact follows_answer hheld hst

end Handlers

/-! ### Two requests -/

/-- A request on the file `p` that changes no other: an open that does not create, a close, a lock,
an unlock or an append. -/
inductive Request.Local (p : Path) : Request → Prop where
  | openFile {req : Request} {flags : Flags} (ht : req.type = .openFile)
      (hp : req.path = some (some p)) (hb : readInt req.body = some flags)
      (hc : chkFlag flags oCreate = false) : Local p req
  | closeFile {req : Request} (ht : req.type = .closeFile) (hp : req.path = some (some p)) : Local p req
  | lockFile {req : Request} (ht : req.type = .lockFile) (hp : req.path = some (some p)) : Local p req
  | unlockFile {req : Request} (ht : req.type = .unlockFile) (hp : req.path = some (some p)) : Local p req
  | appendToFile {req : Request} (ht : req.type = .appendToFile) (hp : req.path = some (some p)) :
      Local p req

namespace Request

/-- The touch of a request. -/
def touch (maxSize : Nat) (clientFd : Int) (req : Request) (f : Option File) : Touch :=
  match req.type with
  | .openFile => File.touchOpen clientFd ((readInt req.body).getD 0) f
  | .closeFile => File.touchClose clientFd f
  | .lockFile => File.touchLock clientFd f
  | .unlockFile => File.touchUnlock clientFd f
  | _ => File.touchAppend maxSize clientFd req.body f

/-- The request takes the mutex. -/
def Locks (maxSize : Nat) (req : Request) : Prop :=
  match req.type with
  | .openFile => (readInt req.body).any fun flags => chkFlag flags oLock || chkFlag flags oNoflag
  | .appendToFile => req.body ≠ [] ∧ req.body.length ≤ maxSize
  | _ => True

variable {p : Path} {req : Request} {fd : Int} {w : StorageWorld}

theorem Local.attains_handle (h : req.Local p) (hs : w.state.Sound)
    (hl : req.Locks w.state.maxSize → w.held = false ∧ w.state.files.nBuckets ≠ 0) :
    (handle fd req).attains (fun b => b = true) (fun reply w' => reply.body = [] ∧
      Follows (req.touch w.state.maxSize fd (w.state.fileAt p)) p w reply.status w') w := by
  cases h with
  | openFile ht hp hb hc =>
    simp only [handle, ht, touch, hb, Option.getD_some, bind_eq, pure_eq, attains_bind, attains_ret,
      true_and]
    refine attains_openFileHandler_touch hs hp hb hc fun hf => hl ?_
    simpa [Locks, ht, hb] using hf
  | closeFile ht hp =>
    obtain ⟨hw, hn⟩ := hl (by simp [Locks, ht])
    simp only [handle, ht, touch, bind_eq, pure_eq, attains_bind, attains_ret, true_and]
    exact attains_closeFileHandler hw hs hn hp
  | lockFile ht hp =>
    obtain ⟨hw, hn⟩ := hl (by simp [Locks, ht])
    simp only [handle, ht, touch, bind_eq, pure_eq, attains_bind, attains_ret, true_and]
    exact attains_lockFileHandler hw hs hn hp
  | unlockFile ht hp =>
    obtain ⟨hw, hn⟩ := hl (by simp [Locks, ht])
    simp only [handle, ht, touch, bind_eq, pure_eq, attains_bind, attains_ret, true_and]
    exact attains_unlockFileHandler hw hs hn hp
  | appendToFile ht hp =>
    simp only [handle, ht, touch, bind_eq, pure_eq, attains_bind, attains_ret, true_and]
    exact attains_appendToFileHandler_touch hs hp fun hb hlen => hl (by simpa [Locks, ht] using ⟨hb, hlen⟩)

theorem returns_enter {α : Type} {ok : Bool → Prop} {path : Option Path}
    {g : Option FileId → ServerM α} :
    (lockReturn.bind fun _ => (storageGetFile path).bind g).returns ok
      (fun _ _ => w.held = false ∧ w.state.files.nBuckets ≠ 0) w := by
  simp only [returns_bind, returns_lockReturn]
  exact fun hw => returns_storageGetFile fun hn => returns_of_forall fun _ _ => ⟨hw, hn⟩

/-- A request that takes the mutex and is answered has found it free, and has found the table. -/
theorem Local.returns_locks {ok : Bool → Prop} (h : req.Local p) (hl : req.Locks w.state.maxSize) :
    (handle fd req).returns ok (fun _ _ => w.held = false ∧ w.state.files.nBuckets ≠ 0) w := by
  cases h with
  | openFile ht hp hb hc =>
    simp only [Locks, ht, hb, Option.any_some, Bool.or_eq_true] at hl
    simp only [handle, openFileHandler, openFileHandlerBy, requestPath, hp, hb, hc, ht,
      openFilePart, openFileLock,
      openFileNoflag, Bool.false_eq_true, if_false, bind_eq, pure_eq, bind_assoc]
    refine returns_bind.mpr (returns_ret.mpr (returns_bind.mpr ?_))
    rw [returns_ite]
    refine ⟨fun _ => returns_enter.mono fun _ _ h => returns_ret.mpr h, fun hlock => ?_⟩
    rw [if_pos (hl.resolve_left hlock)]
    exact returns_enter.mono fun _ _ h => returns_ret.mpr h
  | closeFile ht hp =>
    simp only [handle, closeFileHandler, requestPath, hp, ht, bind_eq, pure_eq, bind_assoc]
    exact returns_enter
  | lockFile ht hp =>
    simp only [handle, lockFileHandler, requestPath, hp, ht, bind_eq, pure_eq, bind_assoc]
    exact returns_enter
  | unlockFile ht hp =>
    simp only [handle, unlockFileHandler, requestPath, hp, ht, bind_eq, pure_eq, bind_assoc]
    exact returns_enter
  | appendToFile ht hp =>
    simp only [Locks, ht] at hl
    simp only [handle, appendToFileHandler, requestPath, hp, ht, bind_eq, pure_eq, returns_bind, returns_ret,
      returns_ite, returns_read, id]
    refine ⟨fun h => absurd h hl.1, fun _ => ⟨fun h => absurd hl.2 (Nat.not_le.mpr h), fun _ => ?_⟩⟩
    rw [returns_lockReturn]
    exact fun hw => returns_storageGetFile fun hn => returns_of_forall fun _ _ => ⟨hw, hn⟩

/-- A lock request that finds no list to wait on: it is refused, and the mutex stays locked. -/
def Sticks (s : Storage) (clientFd : Int) (p : Path) (req : Request) : Prop :=
  req.type = .lockFile ∧ ∃ f, s.fileAt p = some f ∧ chkFlag f.flags oLock = true ∧
    f.lockedBy ≠ clientFd ∧ f.waitingOnLock = none

theorem touch_free_iff {maxSize : Nat} {f : Option File} :
    (req.touch maxSize fd f).free = false ↔ req.type = .lockFile ∧ ∃ g, f = some g ∧
      chkFlag g.flags oLock = true ∧ g.lockedBy ≠ fd ∧ g.waitingOnLock = none := by
  have hfree : ∀ t : Touch, t.free = true → req.type ≠ .lockFile → (t.free = false ↔
      req.type = .lockFile ∧ ∃ g, f = some g ∧
        chkFlag g.flags oLock = true ∧ g.lockedBy ≠ fd ∧ g.waitingOnLock = none) := by
    intro t ht hne
    exact iff_of_false (by simp [ht]) fun h => hne h.1
  unfold touch
  split <;> rename_i htype
  · refine hfree _ ?_ (by simp [htype])
    unfold File.touchOpen
    split
    · cases f with
      | none => rfl
      | some f => dsimp only; split <;> rfl
    · split <;> rfl
  · refine hfree _ ?_ (by simp [htype])
    cases f with
    | none => rfl
    | some f => simp only [File.touchClose]; split <;> rfl
  · cases f with
    | none => simp [File.touchLock, Touch.answer]
    | some f =>
      unfold File.touchLock
      by_cases hl : chkFlag f.flags oLock = false
      · simp [hl, Touch.restore]
      · by_cases hown : f.lockedBy = fd
        · simp [hl, hown, Touch.answer]
        · cases hw : f.waitingOnLock <;> simp [hl, hown, hw, htype, Touch.restore]
  · refine hfree _ ?_ (by simp [htype])
    cases f with
    | none => rfl
    | some f =>
      simp only [File.touchUnlock]
      split
      · rfl
      · split <;> rfl
  · refine hfree _ ?_ (by simp_all)
    unfold File.touchAppend
    split
    · rfl
    · split
      · rfl
      · cases f with
        | none => rfl
        | some f => dsimp only; split <;> rfl

theorem touch_record {maxSize : Nat} {f : Option File} {g : File}
    (h : (req.touch maxSize fd f).record = some g) : ∃ f', f = some f' ∧ g.path = f'.path := by
  have hanswer : ∀ {status : ResponseCode}, (Touch.answer status).record = some g →
      ∃ f', f = some f' ∧ g.path = f'.path := nofun
  have hrestore : ∀ {status : ResponseCode} {k f' : File}, (Touch.restore status k).record = some g →
      f = some f' → k.path = f'.path → ∃ f', f = some f' ∧ g.path = f'.path := by
    intro status k f' hr hf hk
    exact ⟨f', hf, Option.some.inj hr ▸ hk⟩
  unfold touch at h
  split at h
  · unfold File.touchOpen at h
    split at h
    · cases f with
      | none => exact hanswer h
      | some f =>
        dsimp only at h
        split at h
        · exact hanswer h
        · exact hrestore h rfl rfl
    · split at h <;> exact hanswer h
  · cases f with
    | none => exact hanswer h
    | some f =>
      simp only [File.touchClose] at h
      split at h
      · exact hrestore h rfl rfl
      · exact hanswer h
  · cases f with
    | none => exact hanswer h
    | some f =>
      simp only [File.touchLock] at h
      split at h
      · exact hrestore h rfl rfl
      · split at h
        · exact hanswer h
        · split at h
          · cases h
          · exact hrestore h rfl rfl
  · cases f with
    | none => exact hanswer h
    | some f =>
      simp only [File.touchUnlock] at h
      split at h
      · exact hanswer h
      · split at h
        · exact hrestore h rfl rfl
        · exact hanswer h
  · unfold File.touchAppend at h
    split at h
    · exact hanswer h
    · split at h
      · exact hanswer h
      · cases f with
        | none => exact hanswer h
        | some f =>
          dsimp only at h
          split at h
          · exact hanswer h
          · exact ⟨f, rfl, (Option.some.inj h).symm ▸ rfl⟩

theorem touches {s : Storage} (hs : s.Sound) (maxSize : Nat) :
    Storage.Touches p (req.touch maxSize fd (s.fileAt p)) := by
  intro g hg
  obtain ⟨f, hf, hpath⟩ := touch_record hg
  obtain ⟨i, hi, rfl⟩ := Option.map_eq_some_iff.mp hf
  exact hpath.trans (hs.get_mem hi).2

end Request

/-- Where nothing fails, the request is answered with `reply` and leads from `w` to `w'`. -/
def Answers (clientFd : Nat) (req : Request) (w : StorageWorld) (reply : Reply) (w' : StorageWorld) :
    Prop :=
  ∃ env', (handle clientFd req).run [] w = (.done reply, w', env')

/-- In either order the two requests are answered the same, and lead to the same storage. -/
def Storage.Commute (s : Storage) (c d : Nat) (r1 r2 : Request) : Prop :=
  ∀ w : StorageWorld, w.state = s → w.held = false → ∃ reply1 reply2 w1 w12 w2 w21,
    Answers c r1 w reply1 w1 ∧ Answers d r2 w1 reply2 w12 ∧
    Answers d r2 w reply2 w2 ∧ Answers c r1 w2 reply1 w21 ∧ w12.state = w21.state

/-- The table has buckets if a lookup is made, and no request leaves the mutex locked that the other
one takes. -/
structure Storage.Compatible (s : Storage) (c d : Nat) (p q : Path) (r1 r2 : Request) : Prop where
  buckets : r1.Locks s.maxSize ∨ r2.Locks s.maxSize → s.files.nBuckets ≠ 0
  first : r1.Sticks s c p → ¬r2.Locks s.maxSize
  second : r2.Sticks s d q → ¬r1.Locks s.maxSize

section Two

variable {c d : Nat} {p q : Path} {r1 r2 : Request} {w w' : StorageWorld} {reply : Reply}

theorem Request.Local.answers {req : Request} (h : req.Local p) (hs : w.state.Sound)
    (hl : req.Locks w.state.maxSize → w.held = false ∧ w.state.files.nBuckets ≠ 0) :
    ∃ w', Answers c req w ⟨(req.touch w.state.maxSize c (w.state.fileAt p)).status, []⟩ w' ∧
      w'.held = (w.held || !(req.touch w.state.maxSize c (w.state.fileAt p)).free) ∧
      w'.state = w.state.touched p (req.touch w.state.maxSize c (w.state.fileAt p)) := by
  obtain ⟨⟨status, body⟩, w', env', hrun, rfl, rfl, hheld, hst⟩ := (h.attains_handle hs hl).run_nil
  exact ⟨w', ⟨env', hrun⟩, hheld, hst⟩

theorem Answers.unique {req : Request} {reply' : Reply} {w'' : StorageWorld}
    (h : Answers c req w reply w') (h' : Answers c req w reply' w'') : reply = reply' ∧ w' = w'' := by
  obtain ⟨env1, h1⟩ := h
  obtain ⟨env2, h2⟩ := h'
  rw [h1] at h2
  simp only [Prod.mk.injEq, Outcome.done.injEq] at h2
  exact ⟨h2.1, h2.2.1⟩

theorem Answers.locks {req : Request} (h : Answers c req w reply w') (hr : req.Local p)
    (hl : req.Locks w.state.maxSize) : w.held = false ∧ w.state.files.nBuckets ≠ 0 := by
  obtain ⟨env', hrun⟩ := h
  have hret : (handle c req).returns (fun _ => True)
      (fun _ _ => w.held = false ∧ w.state.files.nBuckets ≠ 0) w := hr.returns_locks hl
  exact hret.of_run hrun

/-- One request after the other on another file. -/
theorem Request.Local.answers_two (h1 : r1.Local p) (h2 : r2.Local q) (hpq : p ≠ q)
    (hs : w.state.Sound) (hw : w.held = false)
    (hn : r1.Locks w.state.maxSize ∨ r2.Locks w.state.maxSize → w.state.files.nBuckets ≠ 0)
    (hfree : r1.Sticks w.state c p → ¬r2.Locks w.state.maxSize) :
    ∃ w1 w12, Answers c r1 w ⟨(r1.touch w.state.maxSize c (w.state.fileAt p)).status, []⟩ w1 ∧
      Answers d r2 w1 ⟨(r2.touch w.state.maxSize d (w.state.fileAt q)).status, []⟩ w12 ∧
      w12.state = (w.state.touched p (r1.touch w.state.maxSize c (w.state.fileAt p))).touched q
        (r2.touch w.state.maxSize d (w.state.fileAt q)) := by
  obtain ⟨w1, ha1, hheld1, hst1⟩ := h1.answers (c := c) hs fun hl => ⟨hw, hn (.inl hl)⟩
  have ht := hs.touchedAt (@Request.touches p r1 c _ hs w.state.maxSize)
  rw [← hst1] at ht
  have hl2 : r2.Locks w1.state.maxSize → w1.held = false ∧ w1.state.files.nBuckets ≠ 0 := by
    intro hl
    rw [ht.maxSize] at hl
    refine ⟨?_, by rw [ht.nBuckets]; exact hn (.inr hl)⟩
    rw [hheld1, hw, Bool.false_or, Bool.not_eq_false']
    by_contra hstuck
    exact hfree (Request.touch_free_iff.mp (by simpa using hstuck)) hl
  obtain ⟨w12, ha2, -, hst2⟩ := h2.answers (c := d) ht.sound hl2
  rw [ht.maxSize, ht.others q hpq.symm] at ha2 hst2
  rw [hst1] at hst2
  exact ⟨w1, w12, ha1, ha2, hst2⟩

theorem Storage.Sound.commute_iff {s : Storage} (hs : s.Sound) (hpq : p ≠ q) (h1 : r1.Local p)
    (h2 : r2.Local q) : s.Commute c d r1 r2 ↔ s.Compatible c d p q r1 r2 := by
  constructor
  · intro h
    obtain ⟨reply1, reply2, w1, w12, w2, w21, ha1, ha12, ha2, ha21, -⟩ := h (World.init s) rfl rfl
    have hbuckets : r1.Locks s.maxSize ∨ r2.Locks s.maxSize → s.files.nBuckets ≠ 0 := by
      rintro (hl | hl)
      · exact (ha1.locks h1 hl).2
      · exact (ha2.locks h2 hl).2
    -- a request that sticks leaves the mutex locked
    have hheld : ∀ {e : Nat} {o : Path} {req : Request} {reply : Reply} {u : StorageWorld},
        req.Local o → (req.Locks s.maxSize → s.files.nBuckets ≠ 0) →
        Answers e req (World.init s) reply u → req.Sticks s e o →
          u.held = true ∧ u.state.maxSize = s.maxSize := by
      intro e o req reply u hloc hl ha hstick
      obtain ⟨u', ha', hu, hst⟩ := hloc.answers (c := e) (w := World.init s) hs fun h => ⟨rfl, hl h⟩
      obtain ⟨-, rfl⟩ := ha.unique ha'
      constructor
      · have hfree : (req.touch s.maxSize e (s.fileAt o)).free = false :=
          Request.touch_free_iff.mpr hstick
        exact hu.trans (congrArg (fun b => false || !b) hfree)
      · rw [hst]
        exact (hs.touchedAt (@Request.touches o req e _ hs s.maxSize)).maxSize
    refine ⟨hbuckets, fun hstick hl => ?_, fun hstick hl => ?_⟩
    · obtain ⟨hu, hm⟩ := hheld h1 (fun h => hbuckets (.inl h)) ha1 hstick
      have hfalse := (ha12.locks h2 (hm ▸ hl)).1
      rw [hu] at hfalse
      cases hfalse
    · obtain ⟨hu, hm⟩ := hheld h2 (fun h => hbuckets (.inr h)) ha2 hstick
      have hfalse := (ha21.locks h1 (hm ▸ hl)).1
      rw [hu] at hfalse
      cases hfalse
  · rintro h w rfl hw
    obtain ⟨w1, w12, ha1, ha12, hst12⟩ := h1.answers_two h2 (c := c) (d := d) hpq hs hw h.buckets h.first
    obtain ⟨w2, w21, ha2, ha21, hst21⟩ := h2.answers_two h1 (c := d) (d := c) hpq.symm hs hw
      (fun hl => h.buckets hl.symm) h.second
    refine ⟨_, _, w1, w12, w2, w21, ha1, ha12, ha2, ha21, ?_⟩
    rw [hst12, hst21]
    exact hs.touched_comm hpq (Request.touches hs _) (Request.touches hs _)

end Two

end FileStorage
