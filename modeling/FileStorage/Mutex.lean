import FileStorage.Sections

/-! Mutex balance: which calls return with the mutex of the storage free again. -/

namespace FileStorage

open Prog

/-- The mutex is locked when it is free and unlocked when it is held. -/
def mutexRule : Bool → Event Access → Prop
  | held, .lock => held = false
  | held, .unlock => held = true
  | _, .access _ => True

theorem permits_mutexRule : Permits mutexRule := ⟨rfl, rfl, fun _ => trivial⟩

section Handlers

variable {A : Bool → Event Access → Prop}

/-- `read_file_handler` without what it leaves of the mutex. -/
theorem safe_readFileHandler (hA : Permits A) (req : Request) :
    (readFileHandler req).safe A (fun _ _ => True) false := by
  refine safe_requestPath fun path _ => hA.enter (hA.inside (plain_storageGetFile _) fun r => ?_)
  cases r with
  | none => trivial
  | some i =>
    refine hA.inside (plain_load _ _) fun f => hA.inside plain_alloc fun b => ?_
    refine safe_ite.mpr ⟨fun _ => hA.inside (plain_load _ _) fun g => ?_, fun _ => trivial⟩
    split
    · exact safe_crash
    · exact ⟨hA.unlock, trivial⟩

theorem Permits.sectional_any (hA : Permits A) :
    Sectional fun _ p held => p.safe A (fun _ _ => True) held where
  crash _ := safe_crash
  map _ h := h.bind fun _ _ _ => trivial
  enter h := hA.enter h
  inside hp h := hA.inside hp h
  leave _ := ⟨hA.unlock, trivial⟩

/-- `lock_file_handler` without what it leaves of the mutex. -/
theorem safe_lockFileHandler (hA : Permits A) (fd : Int) (req : Request) :
    (lockFileHandler fd req).safe A (fun _ _ => True) false :=
  hA.sectional_any.lockFileHandler (fun _ => trivial) fd req

end Handlers

theorem safe_plain {α β : Type} {p : ServerM α} {g : α → ServerM β} {Q : β → Bool → Prop}
    {held : Bool} (hp : p.plain) (h : ∀ a, (g a).safe mutexRule Q held) :
    (p.bind g).safe mutexRule Q held :=
  safe_bind.mpr (hp.safe (fun _ => trivial) h)

theorem safe_writeFileHandler (fd : Int) (req : Request) :
    (writeFileHandler fd req).safe mutexRule released false := by
  have hA := permits_mutexRule
  refine safe_requestPath fun path _ => safe_ite.mpr ⟨fun _ => rfl, fun _ => ?_⟩
  refine hA.enter (hA.inside (plain_storageGetFile _) fun r => ?_)
  cases r with
  | none => exact hA.leave _
  | some i =>
    refine hA.inside (plain_load _ _) fun f => safe_ite.mpr ⟨fun _ => hA.leave _, fun _ => ?_⟩
    refine hA.inside (plain_read _ _) fun s => safe_ite.mpr ⟨fun _ => ?_, fun _ => ?_⟩
    · exact hA.exit (safe_plain (plain_storageRemoveFile _) fun _ => rfl)
    · exact hA.sectional.writeFileFitting _ _ _

theorem safe_readNFilesHandler (fd : Int) (req : Request) :
    (readNFilesHandler fd req).safe mutexRule released false := by
  have hA := permits_mutexRule
  unfold readNFilesHandler
  cases readInt req.body with
  | none => exact safe_crash
  | some howMany =>
    refine safe_parameter fun s => hA.enter (hA.inside (plain_read _ _) fun s' => ?_)
    refine hA.inside (plain_collectFiles _ _) fun r => hA.exit ?_
    refine safe_ite.mpr ⟨fun _ => ?_, fun _ => rfl⟩
    refine safe_plain (plain_sendResponse _ _ _ _) fun _ => ?_
    exact safe_plain (plain_sendFiles _ _) fun _ => rfl

/-- The run returns, if it does, with the mutex free. -/
def Frees {α : Type} (p : ServerM α) (env : List Bool) (w : StorageWorld) : Prop :=
  p.yields env (fun _ w' => w'.held = false) w

theorem frees_of_safe {α : Type} {p : ServerM α} {env : List Bool} {w : StorageWorld}
    (h : p.safe mutexRule released w.held) : Frees p env w :=
  fun _ hr => h.result hr

theorem frees_readFileHandler {req : Request} {env : List Bool} {w : StorageWorld}
    (hw : w.held = false) :
    Frees (readFileHandler req) env w ↔
      ∀ r, req.path.bind w.state.lookup = some r → r.isSome ∧ env.headD true = true := by
  unfold readFileHandler requestPath
  cases hp : req.path with
  | none => exact iff_of_true yields_crash (by simp)
  | some path =>
    refine (yields_lookup hw).trans (forall₂_congr fun r hr => ?_)
    cases r with
    | none => simp [yields_ret]
    | some i =>
      refine (yields_bind (run_read _ _ _ _)).trans ((yields_bind (run_alloc _ _)).trans ?_)
      cases hb : env.headD true with
      | false => simp [yields_ret]
      | true =>
        refine iff_of_true (frees_of_safe ?_) ⟨rfl, rfl⟩
        refine safe_plain (plain_load _ _) fun g => ?_
        split
        · exact safe_crash
        · exact permits_mutexRule.leave _

/-- `lock_file_handler` puts the client on the waiting list of a file. -/
def Waits (s : Storage) (clientFd : Int) (i : FileId) : Prop :=
  chkFlag (s.heap i).flags oLock = true ∧ (s.heap i).lockedBy ≠ clientFd

theorem frees_lockFileHandler {clientFd : Int} {req : Request} {env : List Bool}
    {w : StorageWorld} (hw : w.held = false) :
    Frees (lockFileHandler clientFd req) env w ↔
      ∀ r, req.path.bind w.state.lookup = some r → ∀ i, r = some i → Waits w.state clientFd i →
        env.headD true = true →
        (w.state.heap i).waitingOnLock ≠ none ∧ env.tail.headD true = true := by
  unfold lockFileHandler requestPath
  cases hp : req.path with
  | none => exact iff_of_true yields_crash (by simp)
  | some path =>
    refine (yields_lookup hw).trans (forall₂_congr fun r hr => ?_)
    cases r with
    | none => exact iff_of_true (frees_of_safe (permits_mutexRule.leave _)) (by simp)
    | some i =>
      simp only [Option.some.injEq, forall_eq']
      refine (yields_bind (run_read _ _ _ _)).trans ?_
      simp only [World.accessed_state, World.locked_state, id, Waits]
      by_cases hc : chkFlag (w.state.heap i).flags oLock = false
      · refine (yields_pos hc).trans (iff_of_true (frees_of_safe ?_) (by simp [hc]))
        refine safe_plain (plain_store _ _ _) fun _ => safe_plain (plain_store _ _ _) fun _ => ?_
        exact safe_plain (plain_storageUpdateFile _) fun _ => permits_mutexRule.leave _
      · refine (yields_neg hc).trans ((yields_bind (run_read _ _ _ _)).trans ?_)
        simp only [(Bool.not_eq_false _).mp hc, true_and]
        by_cases hl : (w.state.heap i).lockedBy = clientFd
        · refine (yields_pos hl).trans ?_
          exact iff_of_true (frees_of_safe (permits_mutexRule.leave _)) (absurd hl)
        · refine (yields_neg hl).trans ((yields_bind (run_alloc _ _)).trans ?_)
          cases hb : env.headD true with
          | false => exact iff_of_true yields_crash (by simp)
          | true =>
            refine (yields_pos rfl).trans ((yields_bind (run_read _ _ _ _)).trans ?_)
            simp only [World.accessed_state, World.locked_state, id]
            cases hq : (w.state.heap i).waitingOnLock with
            | none => simp [yields_ret, hl]
            | some waiting =>
              refine (yields_bind (run_alloc _ _)).trans ?_
              cases hb' : env.tail.headD true with
              | false => simp [yields_ret, hl]
              | true =>
                refine (yields_pos rfl).trans (iff_of_true (frees_of_safe ?_) fun _ _ => ⟨nofun, rfl⟩)
                refine safe_plain (plain_store _ _ _) fun _ => ?_
                exact safe_plain (plain_storageUpdateFile _) fun _ => permits_mutexRule.leave _

/-! ### Calls -/

theorem safe_handle (clientFd : Int) (req : Request) :
    (handle clientFd req).safe mutexRule (fun _ _ => True) false := by
  have hA := permits_mutexRule
  unfold handle
  cases req.type with
  | openFile => exact (safe_openFileHandler hA _ _).bind fun _ _ _ => trivial
  | closeFile => exact (hA.sectional.closeFileHandler _ _).bind fun _ _ _ => trivial
  | writeFile => exact (safe_writeFileHandler _ _).bind fun _ _ _ => trivial
  | appendToFile => exact (safe_appendToFileHandler hA _ _).bind fun _ _ _ => trivial
  | readFile => exact (safe_readFileHandler hA _).bind fun _ _ _ => trivial
  | readNFiles => exact (safe_readNFilesHandler _ _).bind fun _ _ _ => trivial
  | removeFile => exact (hA.sectional.removeFileHandler _ _).bind fun _ _ _ => trivial
  | lockFile => exact (safe_lockFileHandler hA _ _).bind fun _ _ _ => trivial
  | unlockFile => exact (hA.sectional.unlockFileHandler _ _).bind fun _ _ _ => trivial
  | openConnection => trivial
  | closeConnection => trivial

/-- The requests that return with the mutex held: `READ_FILE` of a path that is not stored or
without the memory for its buffer, and `LOCK_FILE` of a file that another client has locked and
whose waiting list is NULL or cannot grow. -/
def Request.Leaks (s : Storage) (clientFd : Int) (env : List Bool) (req : Request) : Prop :=
  match req.type, req.path.bind s.lookup with
  | .readFile, some r => r = none ∨ env.headD true = false
  | .lockFile, some (some i) => Waits s clientFd i ∧ env.headD true = true ∧
      ((s.heap i).waitingOnLock = none ∨ env.tail.headD true = false)
  | _, _ => False

def Leaks (s : Storage) (x : Step) : Prop :=
  match x.call with
  | .request clientFd req => req.Leaks s clientFd x.env
  | .lockManager => False

theorem frees_handle (clientFd : Int) (req : Request) {env : List Bool} {w : StorageWorld}
    (hw : w.held = false) (hr : req.type ≠ .readFile) (hl : req.type ≠ .lockFile) :
    Frees (handle clientFd req) env w := by
  have hA := permits_mutexRule
  refine frees_of_safe ?_
  rw [hw]
  unfold handle
  split
  · exact (safe_openFileHandler hA _ _).bind fun _ _ hh => hh
  · exact (hA.sectional.closeFileHandler _ _).bind fun _ _ hh => hh
  · exact (safe_writeFileHandler _ _).bind fun _ _ hh => hh
  · exact (safe_appendToFileHandler hA _ _).bind fun _ _ hh => hh
  · contradiction
  · exact (safe_readNFilesHandler _ _).bind fun _ _ hh => hh
  · exact (hA.sectional.removeFileHandler _ _).bind fun _ _ hh => hh
  · contradiction
  · exact (hA.sectional.unlockFileHandler _ _).bind fun _ _ hh => hh
  all_goals exact rfl

theorem frees_request (clientFd : Int) (req : Request) {env : List Bool} {w : StorageWorld}
    (hw : w.held = false) :
    Frees (handle clientFd req) env w ↔ ¬req.Leaks w.state clientFd env := by
  unfold Request.Leaks
  by_cases hr : req.type = .readFile
  · simp only [handle, hr]
    refine (yields_map fun _ => rfl).trans ((frees_readFileHandler hw).trans ?_)
    cases req.path.bind w.state.lookup with
    | none => simp
    | some r => cases r <;> simp
  · by_cases hl : req.type = .lockFile
    · simp only [handle, hl]
      refine (yields_map fun _ => rfl).trans ((frees_lockFileHandler hw).trans ?_)
      cases req.path.bind w.state.lookup with
      | none => simp
      | some r => cases r <;> simp
    · refine iff_of_true (frees_handle _ _ hw hr hl) ?_
      split
      · contradiction
      · contradiction
      · exact id

theorem frees_prog (s : Server) (hs : s.held = false) (x : Step) :
    Frees x.call.prog x.env s.world ↔ ¬Leaks s.storage x := by
  have hw : s.world.held = false := hs
  unfold Leaks
  cases x.call with
  | lockManager =>
    refine iff_of_true ((yields_map fun _ => rfl).mpr (frees_of_safe ?_)) id
    rw [hw]
    exact permits_mutexRule.sectional.lockManagerPass
  | request clientFd req =>
    exact (yields_map fun _ => rfl).trans (frees_request clientFd req hw)

/-- A call is over with the mutex free, which it locks only while it is free and unlocks only while
it is held. -/
structure Balanced (s : Server) (x : Step) : Prop where
  follows : (s.outcome x).2.1.Follows mutexRule
  running : (s.outcome x).1 ≠ .blocked
  frees : ∀ r, (s.outcome x).1 = .done r → (s.outcome x).2.1.held = false

theorem balanced_iff (s : Server) (x : Step) (hs : s.held = false) :
    Balanced s x ↔ ¬Leaks s.storage x := by
  have hw : s.world.held = false := hs
  have hstart : s.world.Follows mutexRule := ⟨trivial, hs.symm⟩
  have hsafe : x.call.prog.safe mutexRule (fun _ _ => True) s.world.held := by
    rw [hw]
    cases x.call with
    | request clientFd req => exact (safe_handle clientFd req).bind fun _ _ _ => trivial
    | lockManager =>
      exact (permits_mutexRule.sectional.lockManagerPass).bind fun _ _ _ => trivial
  refine ⟨fun h => (frees_prog s hs x).mp h.frees, fun h => ?_⟩
  exact ⟨hsafe.follows hstart x.env, hsafe.not_blocked nofun x.env, (frees_prog s hs x).mpr h⟩

theorem balanced_iff_openFile :
    ∃ s : Server, s.Initial ∧ Balanced s (.openFile 5 (slash 'a') 6) := by
  obtain ⟨s, hi, hp⟩ := Server.exists_start 4 3 (fun s => !s.held) (by decide) (by decide)
  exact ⟨s, hi, (balanced_iff s _ (by simpa using hp)).mpr id⟩

/-- Reading a path that is not stored keeps the mutex. -/
theorem readFile_keeps_mutex : ∃ s : Server, s.Initial ∧ s.held = false ∧
    (s.outcome (.readFile 5 (slash 'a'))).1 = .done (some ⟨.notFound, []⟩) ∧
    ¬Balanced s (.readFile 5 (slash 'a')) := by
  obtain ⟨s, hi, hp⟩ := Server.exists_start 4 3 (fun s => !s.held ∧
    (s.outcome (.readFile 5 (slash 'a'))).1 = .done (some ⟨.notFound, []⟩) ∧
    (s.outcome (.readFile 5 (slash 'a'))).2.1.held = true) (by decide) (by decide)
  simp only [Bool.not_eq_true', decide_eq_true_eq] at hp
  obtain ⟨h0, hdone, hheld⟩ := hp
  refine ⟨s, hi, h0, hdone, fun h => ?_⟩
  rw [h.frees _ hdone] at hheld
  cases hheld

end FileStorage
