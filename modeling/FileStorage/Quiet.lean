import FileStorage.Locks
import FileStorage.Rules

/-! The handlers that change nothing but locks: close, lock, unlock, the readers and the lock
manager. -/

namespace FileStorage

open Prog

namespace Storage

variable {s : Storage}

theorem Sound.nBuckets_pos (hs : s.Sound) {p : Path} {i : FileId} (h : s.get p = some i) :
    0 < s.files.nBuckets := by
  obtain ⟨c, hc, -⟩ := List.mem_flatten.mp (hs.placed.get_eq_some_iff.mp h)
  have hl := List.length_pos_of_mem hc
  rwa [hs.placed.slots] at hl

/-- A record that is changed and stored again under its path. -/
theorem Sound.reinsert (hs : s.Sound) {p : Path} {i : FileId} (hg : s.get p = some i) {f : File}
    (hp : f.path = p) :
    ((s.setFile i f).insertFile p i).Sound ∧
      ((s.setFile i f).insertFile p i).catalog = s.catalog.put p f := by
  have h1 : (s.setFile i f).Sound := hs.setFile (hp.trans (hs.get_mem hg).2.symm)
  have hn := hs.nBuckets_pos hg
  have hf : ((s.setFile i f).heap i).path = p := by simpa [Storage.setFile] using hp
  refine ⟨h1.insertFile hn hf (hs.lt_next hg), ?_⟩
  rw [h1.catalog_insertFile_self hn hg, hs.catalog_setFile hg]

theorem setFile_setFile (s : Storage) (i : FileId) (f g : File) :
    (s.setFile i f).setFile i g = s.setFile i g := by
  simp [setFile]

@[simp] theorem setFile_heap_self (s : Storage) (i : FileId) (f : File) :
    (s.setFile i f).heap i = f := by
  simp [setFile]

end Storage

/-- `w'` differs from `w` in locks at most. -/
structure Quiet (w w' : StorageWorld) : Prop where
  sound : w'.state.Sound
  relabeled : w.state.catalog.Relabeled w'.state.catalog
  notes : w'.notes = w.notes

/-- `g` says what each file of `w` is in `w'`, and nothing else has changed. -/
structure Relocked (g : File → File) (w w' : StorageWorld) : Prop where
  sound : w'.state.Sound
  catalog : w'.state.catalog = w.state.catalog.relabel g
  notes : w'.notes = w.notes

namespace Relocked

variable {g k φ : File → File} {w w' w'' : StorageWorld} {path : Option Path} {p : Path} {i : FileId}

theorem quiet (h : Relocked g w w') (hg : ∀ f ∈ w.state.stored, SameData f (g f)) : Quiet w w' :=
  ⟨h.sound, h.catalog ▸ w.state.catalog.relabeled_relabel hg, h.notes⟩

theorem congr (h : Relocked g w w') (hg : ∀ f ∈ w.state.stored, g f = k f) : Relocked k w w' :=
  ⟨h.sound, h.catalog.trans (Catalog.relabel_congr hg), h.notes⟩

theorem of_state (hs : w.state.Sound) (h : w'.state = w.state) (hn : w'.notes = w.notes) :
    Relocked id w w' := by
  refine ⟨h ▸ hs, ?_, hn⟩
  rw [h, Catalog.relabel_id (g := id) _ fun _ _ => rfl]

/-- There is no file to change. -/
theorem absent (hs : w.state.Sound) (hf : w.state.find path = none) (h : w'.state = w.state)
    (hn : w'.notes = w.notes) : Relocked (Catalog.onPath path φ) w w' := by
  refine ⟨h ▸ hs, ?_, hn⟩
  rw [h, Catalog.relabel_onPath_absent]
  rintro p rfl
  exact hs.catalog_get_none hf

/-- The change leaves the file as it is. -/
theorem same (hs : w.state.Sound) (hg : w.state.get p = some i)
    (hφ : φ (w.state.heap i) = w.state.heap i) (h : w'.state = w.state)
    (hn : w'.notes = w.notes) : Relocked (Catalog.onPath (some p) φ) w w' := by
  refine (of_state hs h hn).congr fun f hf => ?_
  by_cases hp : some p = some f.path
  · have hget := (Catalog.get_eq_some_iff hs.nodup).mpr ⟨hf, (Option.some.inj hp).symm⟩
    obtain rfl : w.state.heap i = f := Option.some.inj ((hs.catalog_get hg).symm.trans hget)
    rw [Catalog.onPath, if_pos hp, hφ]
    rfl
  · rw [Catalog.onPath, if_neg hp]
    rfl

theorem trans (h : Relocked g w w') (h' : Relocked k w' w'') : Relocked (k ∘ g) w w'' :=
  ⟨h'.sound, by rw [h'.catalog, h.catalog, Catalog.relabel_relabel], h'.notes.trans h.notes⟩

theorem after (h : Relocked g w w') (hst : w''.state = w'.state) (hn : w''.notes = w'.notes) :
    Relocked g w w'' :=
  ⟨hst ▸ h.sound, hst ▸ h.catalog, hn.trans h.notes⟩

theorem before (h : Relocked g w' w'') (hst : w'.state = w.state) (hn : w'.notes = w.notes) :
    Relocked g w w'' :=
  ⟨h.sound, hst ▸ h.catalog, h.notes.trans hn⟩

end Relocked

theorem World.Moved.relocked {g : File → File} {w w1 w2 : StorageWorld}
    (hm : w1.Moved w2 w1.state []) (h : Relocked g w w1) : Relocked g w w2 :=
  h.after hm.state (by rw [hm.notes, List.append_nil])

section Handlers

variable {ok : Bool → Prop} {w w1 : StorageWorld}

/-- The record `i` of the path `p`, changed to `f`, is stored again. -/
theorem returns_storageUpdateFile {s : Storage} (hs : s.Sound) {p : Path} {i : FileId}
    (hg : s.get p = some i) {f : File} (hp : f.path = p) (hw : w.state = s.setFile i f)
    {R : Bool → StorageWorld → Prop}
    (h : ∀ w', w'.state.Sound → w'.state.catalog = s.catalog.put p f → w'.notes = w.notes →
      R true w') : (storageUpdateFile i).returns ok R w := by
  have hf : (w.state.heap i).path = p := by rw [hw, Storage.setFile_heap_self, hp]
  have hr := hs.reinsert hg hp
  refine returns_filesInsert_self (by rw [hf, hw]; exact hg) fun w' hm => ?_
  have hst : w'.state = (s.setFile i f).insertFile p i := by rw [hm.state, hf, hw]
  exact h w' (hst ▸ hr.1) (hst ▸ hr.2) (by rw [hm.notes, List.append_nil])

/-- The same for a change of the locks. -/
theorem returns_relock (hs : w.state.Sound) {p : Path} {i : FileId} (hg : w.state.get p = some i)
    {φ : File → File} (hφ : SameData (w.state.heap i) (φ (w.state.heap i)))
    (hw : w1.state = w.state.setFile i (φ (w.state.heap i))) (hn : w1.notes = w.notes)
    {R : Bool → StorageWorld → Prop}
    (h : ∀ w', Relocked (Catalog.onPath (some p) φ) w w' → R true w') :
    (storageUpdateFile i).returns ok R w1 := by
  have hp : (φ (w.state.heap i)).path = p := hφ.path.trans (hs.get_mem hg).2
  refine returns_storageUpdateFile hs hg hp hw fun w' h1 h2 h3 => h w' ⟨h1, ?_, h3.trans hn⟩
  rw [h2, Catalog.relabel_onPath_get hs.nodup (hs.catalog_get hg)]

theorem returns_closeFileHandler {clientFd : Int} {request : Request} (hs : w.state.Sound) :
    (closeFileHandler clientFd request).returns ok (fun _ w' =>
      Relocked (Catalog.onPath request.path.join fun f => f.closed clientFd) w w') w := by
  simp only [closeFileHandler, bind_eq, pure_eq, returns_bind]
  refine returns_requestPath fun path hpath => ?_
  rw [hpath, returns_lockReturn]
  refine fun _ => returns_storageGetFile fun _ => ?_
  rw [World.locked_state, Option.join_some]
  cases hg : w.state.find path with
  | none =>
    simp only [returns_bind, returns_unlockReturn, returns_ret]
    exact .absent hs hg rfl (by simp)
  | some i =>
    obtain ⟨p, rfl, hg⟩ := Storage.find_eq_some hg
    simp only [returns_bind, returns_load, returns_ite, returns_store, returns_unlockReturn,
      returns_ret]
    refine ⟨fun hc => ?_, fun hc => .same hs hg (if_neg hc) rfl (by simp)⟩
    have hφ : (w.state.heap i).closed clientFd = (w.state.heap i).unlocked := if_pos hc
    refine returns_relock hs hg (φ := fun f => f.closed clientFd) (File.sameData_closed _ _) ?_
      (by simp) fun w' hq => hq.after rfl (by simp)
    simp [Storage.setFile_setFile, hφ, File.unlocked]

theorem returns_unlockFileHandler {clientFd : Int} {request : Request} (hs : w.state.Sound) :
    (unlockFileHandler clientFd request).returns ok (fun _ w' =>
      Relocked (Catalog.onPath request.path.join fun f => f.closed clientFd) w w') w := by
  simp only [unlockFileHandler, bind_eq, pure_eq, returns_bind]
  refine returns_requestPath fun path hpath => ?_
  rw [hpath, returns_lockReturn]
  refine fun _ => returns_storageGetFile fun _ => ?_
  rw [World.locked_state, Option.join_some]
  cases hg : w.state.find path with
  | none =>
    simp only [returns_bind, returns_unlockReturn, returns_ret]
    exact .absent hs hg rfl (by simp)
  | some i =>
    obtain ⟨p, rfl, hg⟩ := Storage.find_eq_some hg
    simp only [returns_bind, returns_load, returns_ite, returns_store, returns_unlockReturn,
      returns_ret]
    refine ⟨fun hl => ?_, fun hl => ⟨fun hc => ?_, fun hc => ?_⟩⟩
    · have hn : ¬(w.state.heap i).Owned clientFd := fun h => by simp [h.1] at hl
      exact .same hs hg (if_neg hn) rfl (by simp)
    · have hφ : (w.state.heap i).closed clientFd = (w.state.heap i).unlocked :=
        if_pos ⟨by simpa using hl, hc⟩
      refine returns_relock hs hg (φ := fun f => f.closed clientFd) (File.sameData_closed _ _) ?_
        (by simp) fun w' hq => hq.after rfl (by simp)
      simp [Storage.setFile_setFile, hφ, File.unlocked]
    · exact .same hs hg (if_neg fun h => hc h.2) rfl (by simp)

theorem returns_lockFileHandler {clientFd : Int} {request : Request} (hs : w.state.Sound) :
    (lockFileHandler clientFd request).returns ok (fun status w' =>
      Relocked (Catalog.onPath request.path.join fun f => f.asked clientFd status) w w' ∧
      (status = .awaiting → ∃ p f, request.path.join = some p ∧
        w.state.catalog.get p = some f ∧ f.Waits clientFd)) w := by
  simp only [lockFileHandler, bind_eq, pure_eq, returns_bind]
  refine returns_requestPath fun path hpath => ?_
  rw [hpath, returns_lockReturn]
  refine fun _ => returns_storageGetFile fun _ => ?_
  rw [World.locked_state, Option.join_some]
  cases hg : w.state.find path with
  | none =>
    simp only [returns_bind, returns_unlockReturn, returns_ret]
    exact ⟨.absent hs hg rfl (by simp), by simp⟩
  | some i =>
    obtain ⟨p, rfl, hg⟩ := Storage.find_eq_some hg
    simp only [returns_bind, returns_load, returns_ite, returns_store, returns_unlockReturn,
      returns_ret, returns_alloc]
    refine ⟨fun hl => ?_, fun hl => ?_⟩
    · have hφ : (w.state.heap i).asked clientFd .success = (w.state.heap i).locked clientFd :=
        if_pos hl
      refine returns_relock hs hg (φ := fun f => f.asked clientFd .success)
        (File.sameData_asked _ _ _) ?_ (by simp) fun w' hq => ⟨hq.after rfl (by simp), by simp⟩
      simp [Storage.setFile_setFile, hφ, File.locked]
    · replace hl : chkFlag (w.state.heap i).flags oLock = true := by simpa using hl
      have hsame : ∀ status w', status ≠ .awaiting → w'.state = w.state → w'.notes = w.notes →
          Relocked (Catalog.onPath (some p) fun f => f.asked clientFd status) w w' ∧
          (status = .awaiting → ∃ q f, some p = some q ∧ w.state.catalog.get q = some f ∧
            f.Waits clientFd) := by
        intro status w' hst hw hn
        exact ⟨.same hs hg (by simp [File.asked, hl, hst]) hw hn, fun h => absurd h hst⟩
      refine ⟨fun _ => hsame _ _ (by simp) rfl (by simp),
        fun hc b _ => ⟨fun _ => ?_, fun _ => returns_crash⟩⟩
      split
      · exact returns_ret.mpr (hsame _ _ (by simp) rfl (by simp))
      · rename_i ws hws
        simp only [returns_bind, returns_alloc, returns_ite, returns_store, returns_ret]
        refine fun b _ => ⟨fun _ => ?_, fun _ => hsame _ _ (by simp) rfl (by simp)⟩
        refine returns_relock hs hg (φ := fun f => f.asked clientFd .awaiting)
          (File.sameData_asked _ _ _) ?_ (by simp) fun w' hq => ?_
        · simp [File.asked, hl]
        · simp only [returns_unlockReturn]
          have hwaits : (w.state.heap i).Waits clientFd := by
            refine ⟨hl, hc, fun h => ?_⟩
            simp [h] at hws
          exact ⟨hq.after rfl (by simp), fun _ => ⟨p, _, rfl, hs.catalog_get hg, hwaits⟩⟩

theorem returns_readFileHandler {request : Request} (hs : w.state.Sound) :
    (readFileHandler request).returns ok (fun _ w' => Relocked id w w') w := by
  simp only [readFileHandler, bind_eq, pure_eq, returns_bind]
  refine returns_requestPath fun path _ => ?_
  rw [returns_lockReturn]
  refine fun _ => returns_storageGetFile fun _ => ?_
  rw [World.locked_state]
  cases w.state.find path with
  | none => exact returns_ret.mpr (.of_state hs rfl (by simp))
  | some i =>
    simp only [returns_bind, returns_load, returns_alloc, returns_ite, returns_ret]
    refine fun b _ => ⟨fun _ => ?_, fun _ => .of_state hs rfl (by simp)⟩
    split
    · exact returns_crash
    · simp only [returns_bind, returns_unlockReturn, returns_ret]
      exact .of_state hs rfl (by simp)

/-! ### Reading several files -/

theorem returns_collectFiles {n : Nat} {queue : List PathPtr} :
    (collectFiles n queue).returns ok (fun _ w' => w'.state = w.state ∧ w'.notes = w.notes) w := by
  induction n, queue using collectFiles.induct generalizing w with
  | case1 queue => exact returns_ret.mpr ⟨rfl, rfl⟩
  | case2 n _ => simp [collectFiles]
  | case3 n iter rest ih =>
    simp only [collectFiles, bind_eq, pure_eq, returns_bind]
    refine returns_storageGetFile fun _ => ?_
    cases w.state.find (some iter.path) with
    | none => exact returns_ret.mpr ⟨rfl, by simp⟩
    | some i =>
      simp only [returns_bind, returns_alloc, returns_ret]
      intro b _
      exact (ih (w := w.accessed _ id)).mono fun r w' h => ⟨h.1, h.2.trans (by simp)⟩

theorem returns_sendFiles {clientFd : Int} {files : List FileId} :
    (sendFiles clientFd files).returns ok
      (fun _ w' => w'.state = w.state ∧ w'.notes = w.notes) w := by
  induction files generalizing w with
  | nil => exact returns_ret.mpr ⟨rfl, rfl⟩
  | cons i files ih =>
    simp only [sendFiles, bind_eq, returns_bind, returns_load]
    refine returns_sendResponse fun b w1 _ h1 => ih.mono fun _ w2 h2 => ⟨h2.1.trans h1.state, ?_⟩
    rw [h2.2, h1.notes]
    simp

theorem returns_readNFilesHandler {clientFd : Int} {request : Request} (hs : w.state.Sound) :
    (readNFilesHandler clientFd request).returns ok (fun _ w' => Relocked id w w') w := by
  unfold readNFilesHandler
  split
  · exact returns_crash
  · simp only [bind_eq, pure_eq, returns_bind, returns_read, returns_lockReturn]
    intro _
    refine returns_collectFiles.mono fun r w1 ⟨hst, hn⟩ => ?_
    have hst1 : w1.unlocked.state = w.state := by simpa using hst
    have hn1 : w1.unlocked.notes = w.notes := by simp [hn]
    simp only [returns_unlockReturn, returns_ite, returns_bind, returns_ret]
    refine ⟨fun _ => returns_sendResponse fun b w2 _ h2 => ?_, fun _ => .of_state hs hst1 hn1⟩
    refine returns_sendFiles.mono fun _ w3 h3 => ?_
    have h := h2.relocked (.of_state hs hst1 hn1)
    exact h.after h3.1 h3.2

/-! ### The lock manager -/

theorem returns_lockManagerGrant {p : Path} {i : FileId} {f : File} (hs : w.state.Sound)
    (hg : w.state.get p = some i) (hf : w.state.heap i = f) :
    (lockManagerGrant i f).returns ok (fun _ w' =>
      Relocked (Catalog.onPath (some p) File.granted) w w') w := by
  subst hf
  unfold lockManagerGrant
  split
  · rename_i clientFd waiting hw
    simp only [whenever, bind_eq, pure_eq, returns_ite, returns_bind, returns_store, returns_ret]
    refine ⟨fun hl => ?_, fun hl => .same hs hg (by simp [File.granted, hw, hl]) rfl rfl⟩
    refine returns_relock hs hg (φ := File.granted) (File.sameData_granted _) ?_ (by simp)
      fun w1 h1 => ?_
    · simp [File.granted, hw, hl, File.locked, Storage.setFile_setFile]
    · exact returns_sendResponse fun _ _ _ h2 => h2.relocked h1
  · rename_i hw
    have hφ : (w.state.heap i).granted = w.state.heap i := by
      unfold File.granted
      split
      · rename_i clientFd waiting hw'
        exact absurd hw' (hw clientFd waiting)
      · rfl
    exact returns_ret.mpr (.same hs hg hφ rfl rfl)

theorem returns_lockManagerVisit {queue : List PathPtr} (hs : w.state.Sound) :
    (lockManagerVisit queue).returns ok (fun _ w' => Relocked (fun f =>
      if f.path ∈ w.state.catalog.visits (queue.map PathPtr.path) then f.granted else f) w w') w := by
  induction queue generalizing w with
  | nil => exact returns_ret.mpr ((Relocked.of_state hs rfl rfl).congr fun _ _ => rfl)
  | cons curr rest ih =>
    simp only [lockManagerVisit, bind_eq, returns_bind]
    refine returns_storageGetFile fun _ => ?_
    cases hg : w.state.find (some curr.path) with
    | none =>
      refine returns_ret.mpr (Relocked.congr (.of_state hs rfl (by simp)) fun f _ => ?_)
      rw [List.map_cons, Catalog.visits_cons_of_absent (hs.catalog_get_none hg)]
      rfl
    | some i =>
      simp only [returns_bind, returns_load]
      refine returns.mono (returns_lockManagerGrant hs hg rfl) fun _ w1 h1 => ?_
      replace h1 : Relocked (Catalog.onPath (some curr.path) File.granted) w w1 :=
        h1.before rfl (by simp)
      have hv : w1.state.catalog.visits (rest.map PathPtr.path) =
          w.state.catalog.visits (rest.map PathPtr.path) := by
        rw [h1.catalog, Catalog.visits_relabel fun f _ => ?_]
        unfold Catalog.onPath
        split
        · exact f.sameData_granted
        · exact .refl f
      refine (ih h1.sound).mono fun _ w' h2 => (h1.trans h2).congr fun f _ => ?_
      have hc := Catalog.visits_cons_of_get (hs.catalog_get hg) (rest.map PathPtr.path)
      rw [List.map_cons, hc, hv, Function.comp_apply, Catalog.onPath]
      by_cases hp : some curr.path = some f.path
      · have hmem : f.path ∈ curr.path :: w.state.catalog.visits (rest.map PathPtr.path) :=
          Option.some.inj hp ▸ List.mem_cons_self
        rw [if_pos hp, if_pos hmem, f.granted_granted, ite_self]
      · have hne : f.path ≠ curr.path := fun h => hp (congrArg some h.symm)
        rw [if_neg hp]
        simp only [List.mem_cons, hne, false_or]

theorem returns_lockManagerPass (hs : w.state.Sound) :
    lockManagerPass.returns ok (fun _ w' => Relocked (fun f =>
      if f.path ∈ w.state.catalog.visits w.state.catalog.queue then f.granted else f) w w') w := by
  simp only [lockManagerPass, bind_eq, returns_bind, returns_lockReturn, returns_read]
  intro _
  refine (returns_lockManagerVisit (by simpa using hs)).mono fun _ w1 h1 => ?_
  rw [returns_unlockReturn]
  have h : Relocked _ w w1 := h1.before rfl (by simp)
  exact h.after rfl (by simp)

/-! ### The last two parts of open -/

theorem returns_openFileNoflag {path : Option Path} (hs : w.state.Sound) :
    (openFileNoflag path).returns ok (fun r w' => Relocked id w w' ∧
      (∀ p, path = some p → (w.state.get p).isSome → r = none)) w := by
  simp only [openFileNoflag, bind_eq, pure_eq, returns_bind, returns_lockReturn]
  refine fun _ => returns_storageGetFile fun _ => ?_
  rw [World.locked_state]
  cases hg : w.state.find path with
  | none =>
    simp only [returns_bind, returns_unlockReturn, returns_ret]
    refine ⟨.of_state hs rfl (by simp), ?_⟩
    rintro p rfl hp
    simp [show w.state.get p = none from hg] at hp
  | some i =>
    simp only [returns_bind, returns_unlockReturn, returns_ret]
    exact ⟨.of_state hs rfl (by simp), by simp⟩

end Handlers

/-- `w'` is reached from `w` by the effect of the call. -/
def Done (fail : Prop) (c : Call) (w : StorageWorld) (r : Option Reply) (w' : StorageWorld) :
    Prop :=
  w'.state.Sound ∧
    ∃ ns, w'.notes = w.notes ++ ns ∧ Effect fail w.state.catalog c r ns w'.state.catalog

theorem Done.of_quiet {fail : Prop} {c : Call} {w w' : StorageWorld} {r : Option Reply}
    (hq : Quiet w w') (hd : w.state.catalog.deed c = .other) (hr : ¬c.Accepted r) :
    Done fail c w r w' := by
  refine ⟨hq.sound, [], by rw [hq.notes, List.append_nil], ?_⟩
  simp only [Effect, hd]
  exact ⟨trivial, hq.relabeled, hr⟩

/-- The call has its effect, and the locks change as they should. -/
structure Settled (fail : Prop) (c : Call) (w : StorageWorld) (r : Option Reply)
    (w' : StorageWorld) : Prop where
  done : Done fail c w r w'
  locking : w.state.catalog.Locking fail c r w'.state.catalog

theorem Settled.of_relocked {fail : Prop} {c : Call} {w w' : StorageWorld} {r : Option Reply}
    {g : File → File} (h : Relocked g w w')
    (hg : ∀ f ∈ w.state.stored, g f = w.state.catalog.relock c r f)
    (hd : w.state.catalog.deed c = .other) (hr : ¬c.Accepted r) : Settled fail c w r w' := by
  replace h := h.congr hg
  refine ⟨.of_quiet (h.quiet fun f _ => Catalog.sameData_relock _ _ _ f) hd hr, ?_⟩
  simp only [Catalog.Locking, hd]
  exact h.catalog

/-- A request that leaves everything as it is. -/
theorem Settled.still {fail : Prop} {clientFd : Nat} {req : Request} {w w' : StorageWorld}
    {r : Option Reply} (h : Relocked id w w')
    (hd : w.state.catalog.deed (.request clientFd req) = .other)
    (hr : ¬(Call.request clientFd req).Accepted r)
    (hl : req.type ∉ [.openFile, .closeFile, .lockFile, .unlockFile]) :
    Settled fail (.request clientFd req) w r w' :=
  .of_relocked h (fun f _ => (Catalog.relock_eq_self hl r f).symm) hd hr

/-- A call that changes a stored file has nothing else to do to the locks. -/
theorem Settled.of_done {fail : Prop} {c : Call} {w w' : StorageWorld} {r : Option Reply}
    (h : Done fail c w r w') (ht : (w.state.catalog.deed c).target ≠ none) :
    Settled fail c w r w' := by
  refine ⟨h, ?_⟩
  unfold Catalog.Locking
  cases hd : w.state.catalog.deed c <;> simp_all [Deed.target]

theorem Call.not_accepted_of_type {c : Call} {r : Option Reply} {t : RequestCode}
    (h : c.type = some t) (hw : t ≠ .writeFile) (ha : t ≠ .appendToFile) (hr : t ≠ .removeFile) :
    ¬c.Accepted r := by
  rintro ⟨hc | hc | hc, -⟩ <;> rw [h] at hc <;> simp_all

end FileStorage
