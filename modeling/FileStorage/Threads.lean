import FileStorage.Interleaving
import FileStorage.Ownership
import FileStorage.Sections

/-! The requests and the lock manager as threads. Each call is cut where it releases the mutex:
`open_file_handler` after each flag, `write_file_handler` before it removes a file for a body that
is too big. -/

namespace FileStorage

open Prog

/-! ### What a section does to the locks -/

structure SameLock (f g : File) : Prop where
  path : g.path = f.path
  flag : chkFlag g.flags oLock = chkFlag f.flags oLock
  lockedBy : g.lockedBy = f.lockedBy
  waiting : g.waitingOnLock = f.waitingOnLock

theorem SameLock.refl (f : File) : SameLock f f := ⟨rfl, rfl, rfl, rfl⟩

theorem SameLock.coherent {f g : File} (h : SameLock f g) (hf : f.Coherent) : g.Coherent := by
  refine ⟨?_, ?_⟩
  · rw [h.flag, h.lockedBy]
    exact hf.flag
  · rw [h.waiting]
    exact hf.waiting

/-- What the section with number `n` of a call can make of the lock of a stored file. -/
inductive Call.Touches (f : File) : Call → Nat → File → Prop where
  | still {c : Call} {n : Nat} : Touches f c n f
  | closed {clientFd n : Nat} {req : Request} (hp : req.path.join = some f.path)
      (ht : req.type = .closeFile ∨ req.type = .unlockFile) :
      Touches f (.request clientFd req) n (f.closed clientFd)
  | asked {clientFd n : Nat} {req : Request} (hp : req.path.join = some f.path)
      (ht : req.type = .lockFile) (status : ResponseCode) :
      Touches f (.request clientFd req) n (f.asked clientFd status)
  | opened {clientFd : Nat} {req : Request} {flags : Flags} (hp : req.path.join = some f.path)
      (ht : req.type = .openFile) (hb : readInt req.body = some flags)
      (hl : chkFlag flags oLock = true) :
      Touches f (.request clientFd req) (chkFlag flags oCreate).toNat (f.opened clientFd)
  | granted {n : Nat} : Touches f .lockManager n f.granted

/-- Every file after a section was there before, with its lock changed at most as the call may
change it, or is new. -/
structure Call.Alters (c : Call) (n : Nat) (s s' : Storage) : Prop where
  sound : s'.Sound
  locks : ∀ g ∈ s'.catalog.stored, (∃ f ∈ s.catalog.stored, ∃ k, c.Touches f n k ∧ SameLock k g) ∨
    s.catalog.get g.path = none ∧ c.type = some .openFile ∧
      ∃ list, SameLock (File.fresh g.path list) g
  bounds : s'.catalog.bounds = s.catalog.bounds

/-- What holds whenever no thread is in its critical section. -/
structure Storage.Orderly (s : Storage) : Prop where
  sound : s.Sound
  coherent : ∀ f ∈ s.catalog.stored, f.Coherent

namespace Call

variable {c : Call} {n : Nat} {s s' : Storage} {w w' : StorageWorld}

theorem Touches.path {f k : File} (h : c.Touches f n k) : k.path = f.path := by
  cases h with
  | still => rfl
  | closed _ _ => exact (f.sameData_closed _).path
  | asked _ _ _ => exact (f.sameData_asked _ _).path
  | opened _ _ _ _ => exact (f.sameData_opened _).path
  | granted => exact f.sameData_granted.path

theorem Touches.coherent {f k : File} (h : c.Touches f n k) (hf : f.Coherent) : k.Coherent := by
  cases h with
  | still => exact hf
  | closed _ _ => exact hf.closed
  | asked _ _ _ => exact hf.asked (Int.natCast_nonneg _) _
  | opened _ _ _ _ => exact hf.opened (Int.natCast_nonneg _)
  | granted => exact hf.granted

theorem Alters.nBuckets (h : c.Alters n s s') : s'.files.nBuckets = s.files.nBuckets :=
  congrArg (fun b : Nat × Int × Nat => b.2.2) h.bounds

theorem Alters.refl (c : Call) (n : Nat) (hs : s.Sound) : c.Alters n s s :=
  ⟨hs, fun g hg => .inl ⟨g, hg, g, .still, .refl g⟩, rfl⟩

theorem Alters.of_within (hs : s'.Sound) (h : s'.catalog.Within s.catalog) : c.Alters n s s' :=
  ⟨hs, fun g hg => .inl ⟨g, h.stored.subset hg, g, .still, .refl g⟩, h.bounds⟩

theorem Alters.of_relocked {g : File → File} (h : Relocked g w w')
    (hg : ∀ f ∈ w.state.catalog.stored, c.Touches f n (g f)) : c.Alters n w.state w'.state := by
  refine ⟨h.sound, fun k hk => ?_, by rw [h.catalog]; rfl⟩
  rw [h.catalog] at hk
  obtain ⟨f, hf, rfl⟩ := List.mem_map.mp hk
  exact .inl ⟨f, hf, g f, hg f hf, .refl _⟩

theorem touches_relock (v : Catalog) (ht : c.type ≠ some .openFile) (r : Option Reply) (f : File) :
    c.Touches f n (v.relock c r f) := by
  cases c with
  | lockManager =>
    simp only [Catalog.relock]
    split
    · exact .granted
    · exact .still
  | request clientFd req =>
    simp only [Catalog.relock]
    split
    · rename_i hp
      split
      · exact absurd (congrArg some ‹_›) ht
      · exact .closed hp (.inl ‹_›)
      · exact .closed hp (.inr ‹_›)
      · cases r with
        | none => exact .still
        | some reply => exact .asked hp ‹_› reply.status
      · exact .still
    · exact .still

/-- A call that is not cut does in its section what it does when it runs alone. -/
theorem Alters.of_settled {fail : Prop} {r : Option Reply} (ht : c.type ≠ some .openFile)
    (h : Settled fail c w r w') : c.Alters n w.state w'.state := by
  obtain ⟨hs, ns, -, heff⟩ := h.done
  refine ⟨hs, fun g hg => ?_, Catalog.Effect.bounds heff⟩
  rcases Catalog.origin heff h.locking hg with ⟨f, hf, hsur⟩ | ⟨-, hopen, -⟩
  · refine .inl ⟨f, hf, _, touches_relock _ ht r f, ?_, hsur.flag, hsur.lockedBy, hsur.waiting⟩
    rw [hsur.path, (touches_relock (n := n) w.state.catalog ht r f).path]
  · exact absurd hopen ht

theorem Alters.orderly (h : c.Alters n s s') (hs : s.Orderly) : s'.Orderly := by
  refine ⟨h.sound, fun g hg => ?_⟩
  rcases h.locks g hg with ⟨f, hf, k, hk, hsame⟩ | ⟨-, -, list, hsame⟩
  · exact hsame.coherent (hk.coherent (hs.coherent f hf))
  · exact hsame.coherent (File.coherent_fresh _ _)

end Call

/-! ### Handlers that only read -/

theorem readOnly_requestPath (req : Request) : (requestPath req).readOnly := by
  unfold requestPath
  split <;> trivial

theorem readOnly_storageGetFile (path : Option Path) : (storageGetFile path).readOnly := by
  refine ⟨rfl, fun s => readOnly.ite trivial ?_⟩
  cases path with
  | some p => trivial
  | none => exact readOnly.ite trivial trivial

theorem readOnly_load (i : FileId) (fs : List Field) : (load i fs).readOnly :=
  ⟨rfl, fun _ => trivial⟩

theorem readOnly_sendResponse (fd : Int) (status : ResponseCode) (filePath body : Bytes) :
    (sendResponse fd status filePath body).readOnly := by
  refine readOnly.ite trivial ?_
  intro b
  trivial

theorem readOnly_collectFiles (n : Nat) (queue : List PathPtr) :
    (collectFiles n queue).readOnly := by
  induction queue generalizing n with
  | nil => cases n <;> trivial
  | cons q queue ih =>
    cases n with
    | zero => trivial
    | succ n =>
      refine (readOnly_storageGetFile _).bind fun r => ?_
      cases r with
      | none => trivial
      | some i => exact fun b => (ih n).bind fun _ => trivial

theorem readOnly_sendFiles (fd : Int) (files : List FileId) : (sendFiles fd files).readOnly := by
  induction files with
  | nil => trivial
  | cons i files ih =>
    exact (readOnly_load i _).bind fun f => (readOnly_sendResponse _ _ _ _).bind fun _ => ih

theorem readOnly_readFileHandler (req : Request) : (readFileHandler req).readOnly := by
  refine (readOnly_requestPath req).bind fun path => ?_
  refine (readOnly_storageGetFile path).bind fun r => ?_
  cases r with
  | none => trivial
  | some i =>
    refine (readOnly_load i _).bind fun f b => readOnly.ite ?_ trivial
    refine (readOnly_load i _).bind fun g => ?_
    split <;> trivial

theorem readOnly_readNFilesHandler (fd : Int) (req : Request) :
    (readNFilesHandler fd req).readOnly := by
  unfold readNFilesHandler
  split
  · trivial
  · refine ⟨rfl, fun s => ⟨rfl, fun s' => (readOnly_collectFiles _ _).bind fun r => ?_⟩⟩
    refine readOnly.ite ?_ trivial
    exact (readOnly_sendResponse _ _ _ _).bind fun _ =>
      (readOnly_sendFiles _ _).bind fun _ => trivial

/-! ### The sections of the calls -/

/-- In its sections `p` does what the call may do, if it does so when it runs alone. -/
def Call.Alone {α : Type} (c : Call) (p : ServerM α) : Prop :=
  p.alone Storage.Orderly c.Alters fun _ n s w => c.Alters n s w.state

theorem Call.sectional_alone (c : Call) : Sectional fun _ p _ => c.Alone p where
  crash _ := alone_crash
  map _ h := alone.map h
  enter h := alone.enter h
  inside hp h := hp.alone_bind h
  leave b := alone_leave b

/-- The same for a program that is followed by others in sections of their own. -/
theorem Call.sectional_part (c : Call) : Sectional fun β p _ =>
    ∀ Q : β → Nat → Storage → StorageWorld → Prop, p.alone Storage.Orderly c.Alters Q where
  crash _ _ := alone_crash
  map _ h _ := alone.map (h _)
  enter h Q := alone.enter (h Q)
  inside hp h Q := hp.alone_bind fun a => h a Q
  leave b _ := alone_leave b

theorem plain_requestPath (req : Request) : (requestPath req).plain := by
  unfold requestPath
  split <;> trivial

section Calls

variable {c : Call} {n : Nat} {s : Storage} {w : StorageWorld} {clientFd : Nat} {req : Request}

theorem alone_returned {α : Type} (a : α) : c.Alone (ret a) := alone_ret fun _ _ _ h => h

/-- What a call does in its one section, from what it does when it runs alone. -/
theorem Call.Alone.sections {α : Type} {p : ServerM α} (hp : c.Alone p)
    (h : p.returns (fun _ => True) (fun _ w' => c.Alters n s w'.state) w) :
    p.sections Storage.Orderly c.Alters (fun _ n s w => c.Alters n s w.state) n s w :=
  hp n s w (fun _ _ hw => .refl c _ hw.sound) h

theorem alone_lockFileHandler (fd : Int) (req : Request) : c.Alone (lockFileHandler fd req) :=
  c.sectional_alone.lockFileHandler (fun _ => alone_returned _) fd req

theorem alone_appendToFileHandler (fd : Int) (req : Request) :
    c.Alone (appendToFileHandler fd req) :=
  c.sectional_alone.appendToFileHandler (fun _ => alone_returned _)
    (fun h => (plain_read _ _).alone_bind h) fd req

/-- The removal of a file whose writer sent too much is a section without the mutex. -/
theorem sections_storageRemoveFile {p : Path} {α : Type} (a : α) (hs : w.state.Orderly) :
    ((storageRemoveFile p).bind fun _ => ret a).sections Storage.Orderly c.Alters
      (fun _ n s w => c.Alters n s w.state) n w.state w := by
  rw [sections_bind]
  refine (plain_storageRemoveFile p).sections (returns_storageRemoveFile (fun _ _ w' h => ?_)
    fun i hg _ w' h => ?_)
  · show c.Alters n w.state w'.state
    rw [h.state]
    exact .refl c n hs.sound
  · show c.Alters n w.state w'.state
    obtain ⟨hsound, hcat⟩ := hs.sound.removed hg
    rw [h.state]
    refine .of_within hsound ?_
    rw [hcat]
    exact Catalog.within_discard _ _ _

theorem sections_writeFileHandler (hs : w.state.Orderly)
    (h : (writeFileHandler clientFd req).returns (fun _ => True)
      (fun _ w' => c.Alters n w.state w'.state) w) :
    (writeFileHandler clientFd req).sections Storage.Orderly c.Alters
      (fun _ n s w => c.Alters n s w.state) n w.state w := by
  refine sections_after (plain_requestPath req) (readOnly_requestPath req) h fun path w1 h1 h => ?_
  by_cases hb : req.body = []
  · rw [if_pos hb] at h ⊢
    exact (alone_returned _).sections h
  rw [if_neg hb] at h ⊢
  refine sections_enter h fun w2 h2 h => ?_
  refine sections_after (plain_storageGetFile path) (readOnly_storageGetFile path) h
    fun r w3 h3 h => ?_
  cases r with
  | none => exact Call.Alone.sections (c.sectional_alone.leave _) h
  | some i =>
    refine sections_after (plain_load i _) (readOnly_load i _) h fun f w4 h4 h => ?_
    by_cases hl : f.lockedBy ≠ clientFd
    · rw [if_pos hl] at h ⊢
      exact Call.Alone.sections (c.sectional_alone.leave _) h
    rw [if_neg hl] at h ⊢
    refine sections_after (plain_read _ _) ⟨rfl, fun _ => trivial⟩ h fun s w5 h5 h => ?_
    by_cases hbig : req.body.length > s.maxSize
    · rw [if_pos hbig]
      have hsame : w5.state = w.state := by rw [h5, h4, h3, h2, h1]
      refine ⟨?_, fun w' hw' => sections_storageRemoveFile _ hw'⟩
      rw [hsame]
      exact .refl c n hs.sound
    · rw [if_neg hbig] at h ⊢
      exact Call.Alone.sections (c.sectional_alone.writeFileFitting _ _ _) h

theorem Call.Alters.of_created {path : Option Path} {r : Option ResponseCode} {fail : Prop}
    {w' : StorageWorld} (ht : c.type = some .openFile) (h : OpenCreated fail path w r w') :
    c.Alters n w.state w'.state := by
  have hnew : ∀ (v : Catalog) (p : Path) (s' : Storage), s'.Sound → v.Within w.state.catalog →
      w.state.catalog.get p = none → v.Created p s'.catalog → c.Alters n w.state s' := by
    intro v p s' hs hv hp hc
    obtain ⟨list, hperm⟩ := hc.stored
    refine ⟨hs, fun g hg => ?_, hc.bounds.trans hv.bounds⟩
    rcases List.mem_cons.mp (hperm.mem_iff.mp hg) with rfl | hg
    · exact .inr ⟨hp, ht, list, .refl _⟩
    · exact .inl ⟨g, hv.stored.subset hg, g, .still, .refl g⟩
  cases h with
  | present _ _ hq => exact .of_relocked hq fun _ _ => .still
  | full _ _ _ _ hq => exact .of_relocked hq fun _ _ => .still
  | failed _ _ hq => exact .of_relocked hq fun _ _ => .still
  | created _ _ hs _ hc => exact hnew _ _ _ hs (.refl _) hc.absent hc
  | replaced _ hg _ _ hs _ hc =>
    rcases hc with hc | ⟨-, hc⟩
    · exact hnew _ _ _ hs (Catalog.within_replaceHead _ _) hg hc
    · exact .of_within hs (hc ▸ Catalog.within_replaceHead _ _)

theorem sections_openFilePart {flag : Bool} {part : ServerM (Option ResponseCode)}
    {rest : ServerM ResponseCode} (hw : w.state.Orderly)
    (hp : ∀ Q : Option ResponseCode → Nat → Storage → StorageWorld → Prop,
      part.alone Storage.Orderly c.Alters Q)
    (hr : flag = true → part.returns (fun _ => True) (fun _ w' => c.Alters n w.state w'.state) w)
    (hrest : ∀ w : StorageWorld, w.state.Orderly → rest.sections Storage.Orderly c.Alters
      (fun _ n s w => c.Alters n s w.state) (n + flag.toNat) w.state w) :
    (openFilePart flag part rest).sections Storage.Orderly c.Alters
      (fun _ n s w => c.Alters n s w.state) n w.state w := by
  cases flag with
  | false => exact hrest w hw
  | true =>
    show (part.bind _).sections _ _ _ _ _ _
    rw [sections_bind]
    refine hp _ n w.state w (fun r w hw => ?_) (hr rfl)
    cases r with
    | some status => exact .refl c _ hw.sound
    | none => exact hrest w hw

/-- The flags of `open_file_handler` each have a section, in the order of the source. -/
theorem sections_openFileHandler (hw : w.state.Orderly) (ht : req.type = .openFile) :
    (openFileHandler clientFd req).sections Storage.Orderly (Call.request clientFd req).Alters
      (fun _ n s w => (Call.request clientFd req).Alters n s w.state) 0 w.state w := by
  have htype : (Call.request clientFd req).type = some .openFile := congrArg some ht
  unfold openFileHandler openFileHandlerBy requestPath
  split
  · trivial
  · rename_i path hp
    dsimp only [bind_eq, Prog.bind]
    cases hb : readInt req.body with
    | none => trivial
    | some flags =>
      refine sections_openFilePart hw
        ((Call.sectional_part _).openFileCreate path) (fun _ => ?_) fun w1 hw1 => ?_
      · exact (returns_openFileCreate hw.sound).mono fun _ _ h => .of_created htype h
      refine sections_openFilePart hw1
        ((Call.sectional_part _).openFileLock clientFd path) (fun hl => ?_) fun w2 hw2 => ?_
      · refine (returns_openFileLock hw1.sound).mono fun _ _ h => .of_relocked h.1 fun f _ => ?_
        rw [Nat.zero_add]
        unfold Catalog.onPath
        split
        · rename_i hf
          exact .opened (by rw [hp, ← hf, Option.join_some]) ht hb hl
        · exact .still
      refine sections_openFilePart hw2
        ((Call.sectional_part _).openFileNoflag path) (fun _ => ?_) fun w3 hw3 => ?_
      · exact (returns_openFileNoflag hw2.sound).mono fun _ _ h => .of_relocked h.1 fun _ _ => .still
      · exact .refl _ _ hw3.sound

theorem sections_map {α β : Type} {p : ServerM α} (f : α → β)
    (h : p.sections Storage.Orderly c.Alters (fun _ n s w => c.Alters n s w.state) n s w) :
    (p.bind fun a => ret (f a)).sections Storage.Orderly c.Alters
      (fun _ n s w => c.Alters n s w.state) n s w :=
  sections_bind.mpr (h.mono fun _ _ _ _ ha => ha)

theorem sections_handle (hw : w.state.Orderly) :
    (handle clientFd req).sections Storage.Orderly (Call.request clientFd req).Alters
      (fun _ n s w => (Call.request clientFd req).Alters n s w.state) 0 w.state w := by
  -- run alone, a request other than OPEN_FILE does in its one section what it may do
  have hret : req.type ≠ .openFile → (handle clientFd req).returns (fun _ => True)
      (fun _ w' => (Call.request clientFd req).Alters 0 w.state w'.state) w := fun ht =>
    (returns_handle hw.sound).mono fun _ _ h => .of_settled (fun h => ht (Option.some.inj h)) h
  have hone : ∀ {α : Type} {p : ServerM α} {f : α → Reply}, (Call.request clientFd req).Alone p →
      (p.bind fun a => ret (f a)).returns (fun _ => True)
        (fun _ w' => (Call.request clientFd req).Alters 0 w.state w'.state) w →
      (p.bind fun a => ret (f a)).sections Storage.Orderly (Call.request clientFd req).Alters
        (fun _ n s w => (Call.request clientFd req).Alters n s w.state) 0 w.state w :=
    fun hp h => Call.Alone.sections (alone.map hp) h
  have hread : ∀ {α : Type} {p : ServerM α} (f : α → Reply), p.readOnly →
      (p.bind fun a => ret (f a)).sections Storage.Orderly (Call.request clientFd req).Alters
        (fun _ n s w => (Call.request clientFd req).Alters n s w.state) 0 w.state w :=
    fun f hp => sections_map f (hp.sections (fun _ _ hs => .refl _ _ hs.sound)
      (fun _ _ _ hs => .refl _ _ hs.sound) hw rfl)
  have hc := (Call.request clientFd req).sectional_alone
  unfold handle at hret ⊢
  cases ht : req.type with
  | openFile => exact sections_map _ (sections_openFileHandler hw ht)
  | closeFile => exact hone (hc.closeFileHandler _ _) (by simpa [ht] using hret (by simp [ht]))
  | writeFile =>
    refine sections_map _ (sections_writeFileHandler hw ?_)
    have h := hret (by simp [ht])
    simp only [ht, bind_eq, pure_eq, returns_bind, returns_ret] at h
    exact h
  | appendToFile => exact hone (alone_appendToFileHandler _ _) (by simpa [ht] using hret (by simp [ht]))
  | readFile => exact hread _ (readOnly_readFileHandler req)
  | readNFiles => exact hread _ (readOnly_readNFilesHandler _ _)
  | removeFile => exact hone (hc.removeFileHandler _ _) (by simpa [ht] using hret (by simp [ht]))
  | lockFile => exact hone (alone_lockFileHandler _ _) (by simpa [ht] using hret (by simp [ht]))
  | unlockFile => exact hone (hc.unlockFileHandler _ _) (by simpa [ht] using hret (by simp [ht]))
  | openConnection => exact .refl _ _ hw.sound
  | closeConnection => exact .refl _ _ hw.sound

/-- Every section of a call does what the call may do there, whatever happens in between. -/
theorem Call.sections_prog (c : Call) (w : StorageWorld) (hw : w.state.Orderly) :
    c.prog.sections Storage.Orderly c.Alters (fun _ n s w => c.Alters n s w.state) 0 w.state w := by
  cases c with
  | request clientFd req => exact sections_map _ (sections_handle hw)
  | lockManager =>
    have hp : Call.Alone .lockManager lockManagerPass := (Call.sectional_alone _).lockManagerPass
    have hret : Call.prog .lockManager |>.returns (fun _ => True)
        (fun _ w' => Call.Alters .lockManager 0 w.state w'.state) w :=
      (Call.returns_prog hw.sound).mono fun _ _ h => .of_settled (by simp [Call.type]) h
    exact Call.Alone.sections (alone.map hp) hret

end Calls

end FileStorage
