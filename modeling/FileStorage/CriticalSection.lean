import FileStorage.Mutex

/-! Guarded accesses: which calls touch the storage while they do not hold its mutex. -/

namespace FileStorage

open Prog

/-- The writes to the storage and its files, and the reads of a file's size and contents. -/
def Access.guarded : Access → Bool
  | writeFiles => true
  | writeQueue => true
  | growSize _ _ => true
  | shrinkSize _ _ => true
  | writeNoOfFiles => true
  | writeField _ _ => true
  | release _ => true
  | readField _ .size => true
  | readField _ .contents => true
  | _ => false

/-- Guarded accesses happen under the mutex. -/
def sectionRule : Bool → Event Access → Prop
  | held, .access e => e.guarded = true → held = true
  | _, _ => True

instance : ∀ held e, Decidable (sectionRule held e)
  | held, .access e => inferInstanceAs (Decidable (e.guarded = true → held = true))
  | _, .lock => inferInstanceAs (Decidable True)
  | _, .unlock => inferInstanceAs (Decidable True)

theorem permits_sectionRule : Permits sectionRule := ⟨trivial, trivial, fun _ _ => rfl⟩

/-- A run whose guarded accesses happen under the mutex. -/
def Keeps {α : Type} (p : ServerM α) (env : List Bool) (w : StorageWorld) : Prop :=
  (p.run env w).2.1.Follows sectionRule

section Keeps

variable {α β : Type} {p : ServerM α} {g : α → ServerM β} {env env' : List Bool}
  {w w' : StorageWorld} {a : α}

theorem keeps_of_safe {Q : α → Bool → Prop} (hw : w.Follows sectionRule)
    (h : p.safe sectionRule Q w.held) : Keeps p env w :=
  h.follows hw env

theorem keeps_bind (h : p.run env w = (.done a, w', env')) :
    Keeps (p.bind g) env w ↔ Keeps (g a) env' w' := by
  rw [Keeps, run_bind_done h, Keeps]

theorem keeps_bind_crashed (h : p.run env w = (.crashed, w', env')) :
    Keeps (p.bind g) env w ↔ w'.Follows sectionRule := by
  rw [Keeps, run_bind_crashed h]

theorem keeps_pos {c : Prop} [Decidable c] {q : ServerM α} (h : c) :
    Keeps (if c then p else q) env w ↔ Keeps p env w := by
  rw [if_pos h]

theorem keeps_neg {c : Prop} [Decidable c] {q : ServerM α} (h : ¬c) :
    Keeps (if c then p else q) env w ↔ Keeps q env w := by
  rw [if_neg h]

theorem keeps_map (hg : ∀ a, ∃ b, g a = ret b) : Keeps (p.bind g) env w ↔ Keeps p env w := by
  simp only [Keeps, run_bind]
  rcases p.run env w with ⟨a | _ | _, w', env'⟩
  · obtain ⟨b, hb⟩ := hg a
    simp [hb]
  · rfl
  · rfl

/-- A run that has broken the rule does not keep it. -/
theorem not_keeps (h : ¬Allowed sectionRule false w.trace) : ¬Keeps p env w := by
  intro hk
  obtain ⟨t, ht⟩ := run_trace p env w
  have ha := hk.allowed
  rw [ht, allowed_append] at ha
  exact h ha.1

theorem not_allowed_accessed (hw : w.Follows sectionRule) (hh : w.held = false)
    {es : Storage → List Access} {f : Storage → Storage} {e : Access} (he : e ∈ es w.state)
    (hg : e.guarded = true) : ¬Allowed sectionRule false (w.accessed es f).trace := by
  intro ha
  rw [World.accessed_trace, allowed_append, hw.held, allowed_accesses] at ha
  have hf : w.held = true := ha.2 e he hg
  rw [hh] at hf
  cases hf

end Keeps

/-! ### `READ_N_FILES` -/

/-- The records of some queued paths, if all of them are stored. -/
def Storage.locate (s : Storage) : List PathPtr → Option (List FileId)
  | [] => some []
  | q :: queue =>
    match s.lookup (some q.path) with
    | some (some i) => (s.locate queue).map (i :: ·)
    | _ => none

/-- The records for which there is memory to link them. -/
def linked : List Bool → List FileId → List FileId
  | _, [] => []
  | env, i :: files => if env.headD true then i :: linked env.tail files else linked env.tail files

theorem run_collectFiles {n : Nat} {queue : List PathPtr} {env : List Bool} {w : StorageWorld} :
    match w.state.locate (queue.take n) with
    | some files => ∃ w', w'.state = w.state ∧
        (collectFiles n queue).run env w =
          (.done (true, linked env files), w', env.drop files.length)
    | none => ∀ r, ((collectFiles n queue).run env w).1 = .done r → r.1 = false := by
  induction queue generalizing n env w with
  | nil =>
    have he : (collectFiles n []) = ret (true, []) := by cases n <;> rfl
    simp only [List.take_nil, Storage.locate, he]
    exact ⟨w, rfl, rfl⟩
  | cons q queue ih =>
    cases n with
    | zero => exact ⟨w, rfl, rfl⟩
    | succ n =>
      have hrun := run_storageGetFile (some q.path) env w
      simp only [List.take_succ_cons, Storage.locate, collectFiles, bind_eq, pure_eq]
      cases hl : w.state.lookup (some q.path) with
      | none =>
        rw [hl] at hrun
        intro r hr
        rw [run_bind_crashed hrun] at hr
        cases hr
      | some r =>
        rw [hl] at hrun
        cases r with
        | none =>
          intro r hr
          rw [run_bind_done hrun] at hr
          cases hr
          rfl
        | some i =>
          have hrest := @ih n env.tail (w.accessed (lookupAccesses (some q.path)) id)
          rw [World.accessed_state, id] at hrest
          cases hloc : w.state.locate (queue.take n) with
          | none =>
            rw [hloc] at hrest
            intro r hr
            rw [run_bind_done hrun, run_bind_done (run_alloc _ _), run_bind] at hr
            split at hr
            · rename_i c _ _ hc
              have hf := hrest c (by rw [hc])
              cases hr
              exact hf
            · cases hr
            · cases hr
          | some files =>
            rw [hloc] at hrest
            obtain ⟨w', hst, hr⟩ := hrest
            refine ⟨w', hst, ?_⟩
            rw [run_bind_done hrun, run_bind_done (run_alloc _ _), run_bind_done hr]
            simp [linked, List.drop_tail]

theorem keeps_sendFiles {clientFd : Int} {files : List FileId} {env : List Bool}
    {w : StorageWorld} (hw : w.Follows sectionRule) (hh : w.held = false) :
    Keeps (sendFiles clientFd files) env w ↔ files = [] := by
  cases files with
  | nil => exact iff_of_true hw rfl
  | cons i files =>
    refine iff_of_false (fun hk => ?_) nofun
    refine not_keeps ?_ ((keeps_bind (run_read env w _ _)).mp hk)
    exact not_allowed_accessed hw hh (e := .readField i .size) (by simp) rfl

/-- The files that `read_n_files_handler` reads after it has released the mutex. -/
def Request.readsAfter (s : Storage) (env : List Bool) (req : Request) : List FileId :=
  match readInt req.body with
  | none => []
  | some howMany =>
    ((s.locate (s.fifoQueue.take (readNCap s.maxSize howMany.toInt))).map (linked env)).getD []

theorem keeps_readNFilesHandler {clientFd : Int} {req : Request} {env : List Bool}
    {w : StorageWorld} (hw : w.Follows sectionRule) (hh : w.held = false) :
    Keeps (readNFilesHandler clientFd req) env w ↔ req.readsAfter w.state env = [] := by
  have hA := permits_sectionRule
  unfold readNFilesHandler Request.readsAfter
  cases readInt req.body with
  | none => exact iff_of_true hw rfl
  | some howMany =>
    dsimp only
    let w1 := (w.accessed (fun _ => []) id).locked.accessed (fun _ => [Access.readQueue]) id
    have h1 : w1.Follows sectionRule :=
      ((hw.accessed (by simp)).locked trivial).accessed fun _ _ _ => rfl
    refine (keeps_bind (run_read env w _ _)).trans ?_
    refine (keeps_bind (run_lockReturn _ (w.accessed (fun _ => []) id) hh)).trans ?_
    refine (keeps_bind (run_read _ _ _ _)).trans ?_
    change Keeps ((collectFiles (readNCap w.state.maxSize howMany.toInt) w.state.fifoQueue).bind _)
      env w1 ↔ _
    generalize readNCap w.state.maxSize howMany.toInt = n
    have hsafe : (collectFiles n w.state.fifoQueue).safe sectionRule (fun _ held => held = true)
        w1.held := (plain_collectFiles _ _).safe hA.access fun _ => rfl
    have hf := hsafe.follows h1 env
    have hrun := @run_collectFiles n w.state.fifoQueue env w1
    change match w.state.locate _ with | some files => _ | none => _ at hrun
    cases hloc : w.state.locate (w.state.fifoQueue.take n) with
    | none =>
      rw [hloc] at hrun
      refine iff_of_true ?_ rfl
      unfold Keeps
      rw [run_bind]
      split
      · rename_i r w2 env2 hr
        rw [hr] at hf hrun
        have hr1 : r.1 = false := hrun r rfl
        refine (keeps_bind (run_unlockReturn _ _)).mpr ?_
        refine (keeps_neg (by simp [hr1])).mpr ?_
        exact hf.unlocked trivial
      · rename_i hr
        rwa [hr] at hf
      · rename_i hr
        rwa [hr] at hf
    | some files =>
      rw [hloc] at hrun
      obtain ⟨w2, hst, hr⟩ := hrun
      rw [hr] at hf
      refine (keeps_bind hr).trans ((keeps_bind (run_unlockReturn _ _)).trans ?_)
      refine (keeps_pos rfl).trans ?_
      obtain ⟨b, w3, env3, hs, ht, hheld⟩ := run_sendResponse clientFd .success []
        (intBytes (linked env files).length) (env.drop files.length) w2.unlocked
      have h3 : w3.Follows sectionRule := (hf.unlocked trivial).of_trace ht hheld
      refine (keeps_bind hs).trans ((keeps_map fun _ => ⟨_, rfl⟩).trans ?_)
      exact (keeps_sendFiles h3 hheld).trans (by simp)

/-! ### `WRITE_FILE` -/

/-- `write_file_handler` refuses the body for its size, after the checks before that. -/
def Request.tooBig (s : Storage) (clientFd : Int) (req : Request) : Prop :=
  req.body ≠ [] ∧ req.body.length > s.maxSize ∧
    ∃ i, req.path.bind s.lookup = some (some i) ∧ (s.heap i).lockedBy = clientFd

theorem not_keeps_storageRemoveFile {p : Path} {i : FileId} {env : List Bool} {w : StorageWorld}
    (hw : w.Follows sectionRule) (hh : w.held = false) (hl : w.state.lookup (some p) = some (some i))
    {β : Type} {g : Bool → ServerM β} : ¬Keeps ((storageRemoveFile p).bind g) env w := by
  have hrun := run_storageGetFile (some p) env w
  rw [hl] at hrun
  have h1 : (w.accessed (lookupAccesses (some p)) id).Follows sectionRule := by
    refine hw.accessed fun e he hg => ?_
    simp only [lookupAccesses, List.mem_cons, List.mem_map] at he
    rcases he with rfl | ⟨_, -, rfl⟩ <;> cases hg
  intro hk
  unfold storageRemoveFile at hk
  simp only [bind_eq, pure_eq, bind_assoc] at hk
  have hk1 := (keeps_bind hrun).mp hk
  simp only [bind_assoc] at hk1
  refine not_keeps ?_ ((keeps_bind (run_modify _ _ env _)).mp hk1)
  exact not_allowed_accessed h1 hh (e := .writeNoOfFiles) (by simp) rfl

theorem keeps_writeFileHandler {clientFd : Int} {req : Request} {env : List Bool}
    {w : StorageWorld} (hw : w.Follows sectionRule) (hh : w.held = false) :
    Keeps (writeFileHandler clientFd req) env w ↔ ¬req.tooBig w.state clientFd := by
  have hA := permits_sectionRule
  unfold writeFileHandler requestPath Request.tooBig
  cases hp : req.path with
  | none => exact iff_of_true hw (by simp)
  | some path =>
    by_cases hb : req.body = []
    · exact (keeps_pos hb).trans (iff_of_true hw (by simp [hb]))
    refine (keeps_neg hb).trans ((keeps_bind (run_lockReturn env w hh)).trans ?_)
    have h1 : (w.locked.accessed (lookupAccesses path) id).Follows sectionRule :=
      (hw.locked trivial).accessed fun _ _ _ => rfl
    have hrun := run_storageGetFile path env w.locked
    rw [World.locked_state] at hrun
    simp only [Option.bind_some]
    cases hl : w.state.lookup path with
    | none =>
      rw [hl] at hrun
      exact (keeps_bind_crashed hrun).trans (iff_of_true h1 (by simp))
    | some r =>
      rw [hl] at hrun
      refine (keeps_bind hrun).trans ?_
      cases r with
      | none => exact iff_of_true (keeps_of_safe h1 (hA.leave _)) (by simp)
      | some i =>
        refine (keeps_bind (run_read _ _ _ _)).trans ?_
        have h2 : ((w.locked.accessed (lookupAccesses path) id).accessed
            (fun _ => [Field.lockedBy].map (Access.readField i)) id).Follows sectionRule :=
          h1.accessed fun _ _ _ => rfl
        by_cases hlock : (w.state.heap i).lockedBy = clientFd
        · refine (keeps_neg (not_not.mpr hlock)).trans ((keeps_bind (run_read _ _ _ _)).trans ?_)
          have h3 : (((w.locked.accessed (lookupAccesses path) id).accessed
              (fun _ => [Field.lockedBy].map (Access.readField i)) id).accessed
              (fun _ => []) id).Follows sectionRule := h2.accessed (by simp)
          by_cases hbig : req.body.length > w.state.maxSize
          · refine (keeps_pos hbig).trans ((keeps_bind (run_unlockReturn _ _)).trans ?_)
            refine iff_of_false ?_ (not_not.mpr ⟨hb, hbig, i, rfl, hlock⟩)
            obtain ⟨p, rfl⟩ := path_of_lookup hl
            exact not_keeps_storageRemoveFile (h3.unlocked trivial) rfl hl
          · refine (keeps_neg hbig).trans (iff_of_true ?_ fun h => hbig h.2.1)
            exact keeps_of_safe h3 (hA.sectional.writeFileFitting _ _ _)
        · refine (keeps_pos hlock).trans (iff_of_true (keeps_of_safe h2 (hA.leave _)) ?_)
          rintro ⟨-, -, j, hj, hjl⟩
          obtain rfl : i = j := by simpa using hj
          exact hlock hjl

/-! ### Calls -/

/-- The requests that touch the storage outside the critical section: a `WRITE_FILE` refused for
its size and a `READ_N_FILES` that finds files to send. -/
def Request.Strays (s : Storage) (clientFd : Int) (env : List Bool) (req : Request) : Prop :=
  match req.type with
  | .writeFile => req.tooBig s clientFd
  | .readNFiles => req.readsAfter s env ≠ []
  | _ => False

def Strays (s : Storage) (x : Step) : Prop :=
  match x.call with
  | .request clientFd req => req.Strays s clientFd x.env
  | .lockManager => False

theorem keeps_handle {clientFd : Int} {req : Request} {env : List Bool} {w : StorageWorld}
    (hw : w.Follows sectionRule) (hh : w.held = false) :
    Keeps (handle clientFd req) env w ↔ ¬req.Strays w.state clientFd env := by
  have hA := permits_sectionRule
  have hsafe : ∀ {α : Type} {p : ServerM α} {Q : α → Bool → Prop} {g : α → Reply},
      p.safe sectionRule Q false → (Keeps (p.bind fun a => ret (g a)) env w ↔ ¬False) := by
    intro α p Q g h
    rw [← hh] at h
    exact (keeps_map fun _ => ⟨_, rfl⟩).trans (iff_of_true (keeps_of_safe hw h) id)
  unfold handle Request.Strays
  cases req.type with
  | openFile => exact hsafe (safe_openFileHandler hA _ _)
  | closeFile => exact hsafe (hA.sectional.closeFileHandler _ _)
  | writeFile => exact (keeps_map fun _ => ⟨_, rfl⟩).trans (keeps_writeFileHandler hw hh)
  | appendToFile => exact hsafe (safe_appendToFileHandler hA _ _)
  | readFile => exact hsafe (safe_readFileHandler hA _)
  | readNFiles =>
    refine (keeps_map fun _ => ⟨_, rfl⟩).trans ((keeps_readNFilesHandler hw hh).trans ?_)
    exact not_not.symm
  | removeFile => exact hsafe (hA.sectional.removeFileHandler _ _)
  | lockFile => exact hsafe (safe_lockFileHandler hA _ _)
  | unlockFile => exact hsafe (hA.sectional.unlockFileHandler _ _)
  | openConnection => exact iff_of_true hw id
  | closeConnection => exact iff_of_true hw id

/-- The events of a call, from the free mutex, of which each guarded one happens under it. -/
def Guarded (s : Server) (x : Step) : Prop :=
  Allowed sectionRule false (s.outcome x).2.1.trace

instance (s : Server) (x : Step) : Decidable (Guarded s x) :=
  inferInstanceAs (Decidable (Allowed _ _ _))

theorem guarded_iff (s : Server) (x : Step) (hs : s.held = false) :
    Guarded s x ↔ ¬Strays s.storage x := by
  have hw : s.world.Follows sectionRule := ⟨trivial, hs.symm⟩
  have hg : Guarded s x ↔ Keeps x.call.prog x.env s.world :=
    ⟨fun h => ⟨h, run_heldAfter hw.held x.env⟩, fun h => h.allowed⟩
  refine hg.trans ?_
  unfold Strays
  cases x.call with
  | request clientFd req =>
    exact (keeps_map fun _ => ⟨_, rfl⟩).trans (keeps_handle hw hs)
  | lockManager =>
    have hpass : lockManagerPass.safe sectionRule released s.world.held := by
      rw [show s.world.held = false from hs]
      exact permits_sectionRule.sectional.lockManagerPass
    exact iff_of_true ((keeps_map fun _ => ⟨_, rfl⟩).mpr (keeps_of_safe hw hpass)) id

theorem guarded_iff_openFile :
    ∃ s : Server, s.Initial ∧ Guarded s (.openFile 5 (slash 'a') 6) := by
  obtain ⟨s, hi, hp⟩ := Server.exists_start 4 3 (fun s => !s.held) (by decide) (by decide)
  exact ⟨s, hi, (guarded_iff s _ (by simpa using hp)).mpr id⟩

/-- A write that is too large removes its file after the mutex has been released. -/
theorem writeFile_strays : ∃ s h t, s.Initial ∧ Run anyStep s h t ∧
    h.map Record.step = [.openFile 5 (slash 'a') 6] ∧ t.held = false ∧
    ¬Guarded t (.writeFile 5 (slash 'a') [1, 2, 3]) := by
  obtain ⟨s, h, t, hi, hr, hx, hp⟩ := Server.exists_run anyStep 2 3 [.openFile 5 (slash 'a') 6]
    (fun _ _ t => !t.held ∧ ¬Guarded t (.writeFile 5 (slash 'a') [1, 2, 3]))
    (by decide) (by decide)
  simp only [Bool.not_eq_true', decide_eq_true_eq] at hp
  exact ⟨s, h, t, hi, hr, hx, hp.1, hp.2⟩

end FileStorage
