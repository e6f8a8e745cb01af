import FileStorage.Conservation
import FileStorage.Refusals
import FileStorage.Worker

/-! Requests that are cut short or lack what their type needs. A path that is not terminated and a
body too short for an `int` are read past their end, a path that is missing is compared with the
stored ones, and one that is too long is copied into the record. -/

namespace FileStorage

open Prog

/-! ### The stored paths fit into their records -/

def Catalog.PathsFit (v : Catalog) : Prop := ∀ p ∈ v.paths, p.length < maxPath

theorem Catalog.PathsFit.of_subset {v w : Catalog} (hv : v.PathsFit) (h : w.stored ⊆ v.stored) :
    w.PathsFit := by
  intro p hp
  obtain ⟨f, hf, rfl⟩ := List.mem_map.mp hp
  exact hv _ (List.mem_map_of_mem (h hf))

theorem Catalog.PathsFit.created {v w : Catalog} {p : Path} (hv : v.PathsFit) (h : v.Created p w)
    (hp : p.length < maxPath) : w.PathsFit := by
  intro q hq
  obtain ⟨f, hf, rfl⟩ := List.mem_map.mp hq
  obtain ⟨list, hperm⟩ := h.stored
  rcases List.mem_cons.mp (hperm.mem_iff.mp hf) with rfl | hf
  · exact hp
  · exact hv _ (List.mem_map_of_mem hf)

theorem Relocked.pathsFit {w w' : StorageWorld} {path : Option Path} {φ : File → File}
    (h : Relocked (Catalog.onPath path φ) w w') (hφ : ∀ f, (φ f).path = f.path)
    (hw : w.state.catalog.PathsFit) : w'.state.catalog.PathsFit := by
  intro p hp
  rw [h.catalog] at hp
  obtain ⟨g, hg, rfl⟩ := List.mem_map.mp hp
  obtain ⟨f, hf, rfl⟩ := List.mem_map.mp hg
  have hpath : (Catalog.onPath path φ f).path = f.path := by
    unfold Catalog.onPath
    split
    · exact hφ f
    · rfl
  rw [hpath]
  exact hw _ (List.mem_map_of_mem hf)

theorem returns_openFileHandler_pathsFit {ok : Bool → Prop} {clientFd : Int} {req : Request}
    {w : StorageWorld} (hs : w.state.Sound) (hw : w.state.catalog.PathsFit) :
    (openFileHandler clientFd req).returns ok (fun _ w' => w'.state.catalog.PathsFit) w := by
  have hrest : ∀ (path : Option Path) (lock noflag : Bool) (w1 : StorageWorld), w1.state.Sound →
      w1.state.catalog.PathsFit → (openFilePart lock (openFileLock clientFd path)
        (openFilePart noflag (openFileNoflag path) (ret .success))).returns ok
        (fun _ w' => w'.state.catalog.PathsFit) w1 := by
    intro path lock noflag w1 h1 hf1
    refine (returns_openRest h1).mono fun _ _ h => ?_
    exact h.1.pathsFit (fun f => (f.sameData_reopened lock clientFd).path) hf1
  simp only [openFileHandler, openFileHandlerBy, bind_eq, pure_eq, returns_bind]
  refine returns_requestPath fun path _ => ?_
  split
  · exact returns_crash
  · rename_i flags _
    rw [returns_openFilePart]
    refine ⟨fun _ => ?_, fun _ => hrest path _ _ w hs hw⟩
    refine ((returns_openFileCreate hs).and (answers_openFileCreate path).returns).mono ?_
    rintro r w1 ⟨hcreated, -, hfits⟩
    have hall : w1.state.Sound ∧ w1.state.catalog.PathsFit := by
      have hid : Relocked id w w1 → w1.state.Sound ∧ w1.state.catalog.PathsFit := by
        intro hq
        refine ⟨hq.sound, ?_⟩
        rw [hq.catalog, Catalog.relabel_id (g := id) _ fun _ _ => rfl]
        exact hw
      cases hcreated with
      | present _ _ hq => exact hid hq
      | full _ _ _ _ hq => exact hid hq
      | failed _ _ hq => exact hid hq
      | @created p _ hp _ hs' _ hc =>
        obtain ⟨q, rfl, hlen⟩ := hfits rfl
        obtain rfl := Option.some.inj hp
        exact ⟨hs', hw.created hc hlen⟩
      | @replaced p q _ hp _ _ _ hs' _ hc =>
        obtain ⟨p', rfl, hlen⟩ := hfits rfl
        obtain rfl := Option.some.inj hp
        have hsub : (w.state.catalog.replaceHead q).PathsFit :=
          hw.of_subset (Catalog.replaceHead_subset _ _)
        rcases hc with hc | ⟨-, hc⟩
        · exact ⟨hs', hsub.created hc hlen⟩
        · exact ⟨hs', hc ▸ hsub⟩
    exact ⟨fun _ _ => hall.2, fun _ => hrest path _ _ w1 hall.1 hall.2⟩

namespace Server

theorem pathsFit_step {s : Server} {x : Step} {r : Option Reply} {w : StorageWorld}
    (hs : s.storage.Sound) (hf : s.storage.catalog.PathsFit) (he : s.exec x = some (r, w)) :
    w.state.catalog.PathsFit := by
  by_cases ht : x.call.type = some .openFile
  · refine exec_returns (R := fun _ w => w.state.catalog.PathsFit) ?_ he
    cases hx : x.call with
    | lockManager =>
      rw [hx] at ht
      cases ht
    | request clientFd req =>
      have htype : req.type = .openFile := by
        rw [hx] at ht
        exact Option.some.inj ht
      simp only [Call.prog, handle, htype, bind_eq, pure_eq, returns_bind, returns_ret]
      exact returns_openFileHandler_pathsFit hs hf
  · intro p hp
    obtain ⟨g, hg, rfl⟩ := List.mem_map.mp hp
    rcases Catalog.origin (exec_done hs he).2 (exec_locking hs he) hg with ⟨f, hm, hsur⟩ | ⟨-, h, -⟩
    · rw [hsur.path]
      exact hf _ (List.mem_map_of_mem hm)
    · exact absurd h ht

theorem Initial.pathsFit {C : Server → Step → Prop} {s t : Server} {h : List Record}
    (hi : s.Initial) (hr : Run C s h t) : t.storage.catalog.PathsFit := by
  have hinv : t.storage.Sound ∧ t.storage.catalog.PathsFit := by
    refine Run.invariant (I := fun _ t => t.storage.Sound ∧ t.storage.catalog.PathsFit)
      ⟨hi.sound, ?_⟩ ?_ hr
    · obtain ⟨_, _, _, -, -, hc⟩ := hi.catalog
      rw [hc]
      intro p hp
      cases hp
    · rintro _ t x r w ⟨hs, hf⟩ - he
      exact ⟨(exec_done hs he).1, pathsFit_step hs hf he⟩
  exact hinv.2

end Server

/-! ### Runs that do not crash -/

namespace Prog

variable {σ ε μ α β : Type} {p : Prog σ ε μ α} {g : α → Prog σ ε μ β} {env env' : List Bool}
  {w w' : World σ ε μ} {R : α → World σ ε μ → Prop} {S : β → World σ ε μ → Prop} {a : α}

/-- The run of `p` with the given answers does not crash, and if it returns, `R` holds of its
result. -/
def passes (p : Prog σ ε μ α) (env : List Bool) (R : α → World σ ε μ → Prop) (w : World σ ε μ) :
    Prop := (p.run env w).1 ≠ .crashed ∧ p.yields env R w

theorem passes_ret : (ret a).passes env R w ↔ R a w := by
  simp [passes, yields_ret]

theorem not_passes_crash : ¬(crash : Prog σ ε μ α).passes env R w := by
  simp [passes]

theorem passes_bind (h : p.run env w = (.done a, w', env')) :
    (p.bind g).passes env S w ↔ (g a).passes env' S w' := by
  rw [passes, yields_bind h, run_bind_done h, passes]

theorem not_passes_bind (h : p.run env w = (.crashed, w', env')) : ¬(p.bind g).passes env S w := by
  simp [passes, run_bind_crashed h]

theorem passes_blocked (h : (p.run env w).1 = .blocked) : p.passes env R w := by
  simp [passes, yields, h]

theorem passes_bind_blocked (h : p.run env w = (.blocked, w', env')) : (p.bind g).passes env S w :=
  passes_blocked (by rw [run_bind, h])

theorem passes_pos {c : Prop} [Decidable c] {q : Prog σ ε μ α} (h : c) :
    (if c then p else q).passes env R w ↔ p.passes env R w := by
  rw [if_pos h]

theorem passes_neg {c : Prop} [Decidable c] {q : Prog σ ε μ α} (h : ¬c) :
    (if c then p else q).passes env R w ↔ q.passes env R w := by
  rw [if_neg h]

/-- A program followed by a piece that is sure to return. -/
theorem passes_then (hk : ∀ a w₁ env₁, p.run env w = (.done a, w₁, env₁) → ∃ b w₂ env₂,
    (g a).run env₁ w₁ = (.done b, w₂, env₂) ∧ (S b w₂ ↔ R a w₁)) :
    (p.bind g).passes env S w ↔ p.passes env R w := by
  cases hrun : p.run env w with
  | mk outcome rest =>
    obtain ⟨w₁, env₁⟩ := rest
    cases outcome with
    | crashed =>
      refine iff_of_false (not_passes_bind hrun) ?_
      simp [passes, hrun]
    | blocked =>
      exact iff_of_true (passes_bind_blocked hrun) (passes_blocked (by rw [hrun]))
    | done a =>
      obtain ⟨b, w₂, env₂, h₂, hiff⟩ := hk a w₁ env₁ hrun
      rw [passes_bind hrun]
      simpa [passes, yields, h₂, hrun] using hiff

theorem passes_map {f : α → β} :
    (p.bind fun a => ret (f a)).passes env S w ↔ p.passes env (fun a w' => S (f a) w') w :=
  passes_then fun a w₁ env₁ _ => ⟨f a, w₁, env₁, rfl, Iff.rfl⟩

end Prog

/-- A request that is refused, with the storage left as it was in `v`. -/
def Catalog.Refuses (v : Catalog) (status : ResponseCode) (w : StorageWorld) : Prop :=
  status.Refused ∧ w.state.catalog = v

/-- The lookup of a path that is not stored is refused, if the mutex is free and it returns. -/
def World.Misses (w : StorageWorld) (path : Option Path) : Prop :=
  w.held = false → w.state.lookup path = some none

section Missing

variable {α : Type} {env : List Bool} {w : StorageWorld} {path : Option Path}
  {R : α → StorageWorld → Prop}

theorem passes_lookup {g : Option FileId → ServerM α} :
    (lockReturn.bind fun _ => (storageGetFile path).bind g).passes env R w ↔
      (w.held = false → ∃ r, w.state.lookup path = some r ∧
        (g r).passes env R (w.locked.accessed (lookupAccesses path) id)) := by
  by_cases hw : w.held = true
  · refine iff_of_true (passes_blocked ?_) fun h => ?_
    · simp [lockReturn, Prog.bind, run, hw]
    · rw [hw] at h
      cases h
  · have hw : w.held = false := Bool.eq_false_iff.mpr hw
    rw [passes_bind (run_lockReturn env w hw)]
    have hr := run_storageGetFile path env w.locked
    rw [World.locked_state] at hr
    cases hl : w.state.lookup path with
    | none =>
      rw [hl] at hr
      exact iff_of_false (not_passes_bind hr) fun h => by simpa using h hw
    | some r =>
      rw [hl] at hr
      rw [passes_bind hr]
      simp [hw]

/-- A section that gives up when the path is missing, for a path that is not stored. -/
theorem passes_missing {g : Option FileId → ServerM α} (hp : ∀ i, w.state.lookup path ≠ some (some i))
    (hg : ∀ w' : StorageWorld, w'.state = w.state → (g none).passes env R w') :
    (lockReturn.bind fun _ => (storageGetFile path).bind g).passes env R w ↔ w.Misses path := by
  rw [passes_lookup]
  refine imp_congr_right fun _ => ?_
  constructor
  · rintro ⟨r, hl, -⟩
    cases r with
    | none => exact hl
    | some i => exact absurd hl (hp i)
  · intro hl
    exact ⟨none, hl, hg _ rfl⟩

theorem passes_refused {status : ResponseCode} (hst : status.Refused) {w' : StorageWorld}
    (hw : w'.state = w.state) :
    (unlockReturn.bind fun _ => ret status).passes env (w.state.catalog.Refuses) w' := by
  rw [passes_bind (run_unlockReturn _ _), passes_ret]
  exact ⟨hst, congrArg Storage.catalog hw⟩

end Missing

/-! ### The handlers -/

/-- Nothing is stored under the path of the request. -/
def Request.Unstored (req : Request) (s : Storage) : Prop :=
  ∀ path, req.path = some path → ∀ i, s.lookup path ≠ some (some i)

def Request.Misses (req : Request) (w : StorageWorld) : Prop :=
  ∃ path, req.path = some path ∧ w.Misses path

section Handlers

variable {clientFd : Int} {req : Request} {env : List Bool} {w : StorageWorld}

theorem passes_requestPath {α : Type} {g : Option Path → ServerM α} {R : α → StorageWorld → Prop} :
    ((requestPath req).bind g).passes env R w ↔
      ∃ path, req.path = some path ∧ (g path).passes env R w := by
  unfold requestPath
  cases hp : req.path with
  | none => exact iff_of_false not_passes_crash (by simp)
  | some path => simp [Prog.bind]

/-- A handler that reports a path which is missing. -/
theorem passes_absent {g : Option Path → Option FileId → ServerM ResponseCode}
    (hg : ∀ path, g path none = unlockReturn.bind fun _ => ret .notFound) (hu : req.Unstored w.state) :
    ((requestPath req).bind fun path => lockReturn.bind fun _ =>
      (storageGetFile path).bind (g path)).passes env w.state.catalog.Refuses w ↔ req.Misses w := by
  refine passes_requestPath.trans (exists_congr fun path => and_congr_right fun hp => ?_)
  refine passes_missing (hu path hp) fun w' hw => ?_
  rw [hg]
  exact passes_refused (by decide) hw

theorem passes_closeFileHandler (hu : req.Unstored w.state) :
    (closeFileHandler clientFd req).passes env w.state.catalog.Refuses w ↔ req.Misses w :=
  passes_absent (fun _ => rfl) hu

theorem passes_removeFileHandler (hu : req.Unstored w.state) :
    (removeFileHandler clientFd req).passes env w.state.catalog.Refuses w ↔ req.Misses w :=
  passes_absent (fun _ => rfl) hu

theorem passes_lockFileHandler (hu : req.Unstored w.state) :
    (lockFileHandler clientFd req).passes env w.state.catalog.Refuses w ↔ req.Misses w :=
  passes_absent (fun _ => rfl) hu

theorem passes_unlockFileHandler (hu : req.Unstored w.state) :
    (unlockFileHandler clientFd req).passes env w.state.catalog.Refuses w ↔ req.Misses w :=
  passes_absent (fun _ => rfl) hu

theorem passes_readFileHandler (hu : req.Unstored w.state) :
    (readFileHandler req).passes env (fun r => w.state.catalog.Refuses r.1) w ↔ req.Misses w := by
  refine passes_requestPath.trans (exists_congr fun path => and_congr_right fun hp => ?_)
  refine passes_missing (hu path hp) fun w' hw => passes_ret.mpr ⟨by decide, ?_⟩
  exact congrArg Storage.catalog hw

theorem passes_writeFileHandler (hu : req.body ≠ [] → req.Unstored w.state) :
    (writeFileHandler clientFd req).passes env (fun r => w.state.catalog.Refuses r.1) w ↔
      ∃ path, req.path = some path ∧ (req.body = [] ∨ w.Misses path) := by
  refine passes_requestPath.trans (exists_congr fun path => and_congr_right fun hp => ?_)
  by_cases hb : req.body = []
  · refine (passes_pos hb).trans (iff_of_true ?_ (.inl hb))
    exact passes_ret.mpr ⟨by decide, rfl⟩
  · refine (passes_neg hb).trans ((passes_missing (hu hb path hp) fun w' hw => ?_).trans ?_)
    · refine (passes_bind (run_unlockReturn _ _)).mpr (passes_ret.mpr ⟨by decide, ?_⟩)
      exact congrArg Storage.catalog hw
    · simp [hb]

theorem passes_openFileParts {path : Option Path} {create lock noflag : Bool}
    (hu : ∀ i, w.state.lookup path ≠ some (some i))
    (hlong : ∀ p, path = some p → maxPath ≤ p.length) :
    (openFilePart create (openFileCreate path) (openFilePart lock (openFileLock clientFd path)
      (openFilePart noflag (openFileNoflag path) (ret .success)))).passes env
      w.state.catalog.Refuses w ↔
      w.Misses path ∧ (create = true ∨ lock = true ∨ noflag = true) ∧
        (create = true → w.held = false → env.headD true = false) := by
  have hmissing : ∀ rest : ServerM ResponseCode, ∀ w' : StorageWorld, w'.state = w.state →
      ((unlockReturn.bind fun _ => ret (some .notFound)).bind fun r : Option ResponseCode =>
        r.elim rest ret).passes env w.state.catalog.Refuses w' :=
    fun _ w' hw => passes_refused (by decide) hw
  cases create with
  | true =>
    rw [openFilePart_true]
    unfold openFileCreate openFileCreateBy
    simp only [bind_eq, pure_eq, Prog.bind_assoc]
    refine passes_lookup.trans ?_
    constructor
    · intro h
      refine ⟨fun hw => ?_, .inl trivial, fun _ hw => ?_⟩
      · obtain ⟨r, hl, -⟩ := h hw
        cases r with
        | none => exact hl
        | some i => exact absurd hl (hu i)
      · obtain ⟨r, hl, hr⟩ := h hw
        cases r with
        | some i => exact absurd hl (hu i)
        | none =>
          by_contra ha
          rw [Bool.not_eq_false] at ha
          simp only [Prog.bind_assoc] at hr
          exact not_passes_bind (run_storageCreateFile_crashed ha hlong) hr
    · rintro ⟨hm, -, ha⟩ hw
      refine ⟨none, hm hw, ?_⟩
      simp only [Prog.bind_assoc]
      refine (passes_bind (run_storageCreateFile_none (ha trivial hw))).mpr ?_
      exact passes_refused (w := w) (by decide) rfl
  | false =>
    cases lock with
    | true =>
      rw [openFilePart, if_neg (by simp), openFilePart_true]
      unfold openFileLock
      simp only [bind_eq, pure_eq, Prog.bind_assoc]
      refine (passes_missing hu fun w' hw => hmissing _ w' hw).trans ?_
      simp
    | false =>
      cases noflag with
      | true =>
        rw [openFilePart, if_neg (by simp), openFilePart, if_neg (by simp), openFilePart_true]
        unfold openFileNoflag
        simp only [bind_eq, pure_eq, Prog.bind_assoc]
        refine (passes_missing hu fun w' hw => hmissing _ w' hw).trans ?_
        simp
      | false =>
        refine iff_of_false (fun h => ?_) (by simp)
        exact granted_success (passes_ret.mp h).1

theorem passes_openFileHandler (hu : req.Unstored w.state)
    (hlong : ∀ p, req.path = some (some p) → maxPath ≤ p.length) :
    (openFileHandler clientFd req).passes env w.state.catalog.Refuses w ↔
      ∃ flags, readInt req.body = some flags ∧ req.Misses w ∧
        (chkFlag flags oCreate = true ∨ chkFlag flags oLock = true ∨ chkFlag flags oNoflag = true) ∧
        (chkFlag flags oCreate = true → w.held = false → env.headD true = false) := by
  refine passes_requestPath.trans ?_
  cases hb : readInt req.body with
  | none => exact iff_of_false (by simp [not_passes_crash]) (by simp)
  | some flags =>
    have hflags : (∃ path, req.path = some path ∧
        (openFilePart (chkFlag flags oCreate) (openFileCreate path)
          (openFilePart (chkFlag flags oLock) (openFileLock clientFd path)
            (openFilePart (chkFlag flags oNoflag) (openFileNoflag path) (ret .success)))).passes env
          w.state.catalog.Refuses w) ↔
        ∃ path, req.path = some path ∧ w.Misses path ∧
          (chkFlag flags oCreate = true ∨ chkFlag flags oLock = true ∨ chkFlag flags oNoflag = true) ∧
          (chkFlag flags oCreate = true → w.held = false → env.headD true = false) := by
      refine exists_congr fun path => and_congr_right fun hp => passes_openFileParts (hu path hp) ?_
      rintro p rfl
      exact hlong p hp
    refine hflags.trans ?_
    simp [Request.Misses, ← and_assoc]

theorem not_passes_readNFilesHandler {R : ResponseCode × List FileId → StorageWorld → Prop}
    (hb : readInt req.body = none) : ¬(readNFilesHandler clientFd req).passes env R w := by
  unfold readNFilesHandler
  rw [hb]
  exact not_passes_crash

end Handlers

/-! ### What a type needs -/

def RequestCode.takesPath : RequestCode → Bool
  | .openConnection | .closeConnection | .readNFiles => false
  | _ => true

/-- The path and the body that the type of the request needs. -/
structure Request.WellFormed (req : Request) : Prop where
  path : req.type.takesPath = true → ∃ p, req.path = some (some p) ∧ p.length < maxPath
  int : req.type = .openFile ∨ req.type = .readNFiles → (readInt req.body).isSome = true
  body : req.type = .writeFile ∨ req.type = .appendToFile → req.body ≠ []

/-- Reading the file stored under `path`, if any, does not fault. -/
def World.ReadsThrough (w : StorageWorld) (path : Option Path) (env : List Bool) : Prop :=
  w.held = false → ∃ r, w.state.lookup path = some r ∧ ∀ i, r = some i → env.headD true = true →
    copyBytes true (w.state.heap i).contents (w.state.heap i).size ≠ none

/-- How a request that lacks something gets through: its path is terminated and its lookup does not
fault, an `int` that is needed is there, a path without place in a record is not to be created,
and some flag has it looked up. -/
def Request.Dismissed (req : Request) (w : StorageWorld) (env : List Bool) : Prop :=
  match req.type with
  | .openFile => ∃ flags, readInt req.body = some flags ∧ req.Misses w ∧
      (chkFlag flags oCreate = true ∨ chkFlag flags oLock = true ∨ chkFlag flags oNoflag = true) ∧
      (chkFlag flags oCreate = true → w.held = false → env.headD true = false)
  | .writeFile => ∃ path, req.path = some path ∧ (req.body = [] ∨ w.Misses path)
  | .appendToFile => ∃ path, req.path = some path ∧
      if req.body = [] then w.ReadsThrough path env.tail else w.Misses path
  | .readNFiles => False
  | _ => req.Misses w

section Calls

variable {clientFd : Int} {req : Request} {env : List Bool} {w : StorageWorld}

/-- A path that a request may not have is not stored. -/
theorem Request.unstored {s : Storage} (hs : s.Sound) (hf : s.catalog.PathsFit)
    (h : ¬∃ p, req.path = some (some p) ∧ p.length < maxPath) :
    req.Unstored s ∧ ∀ p, req.path = some (some p) → maxPath ≤ p.length := by
  have hlong : ∀ p, req.path = some (some p) → maxPath ≤ p.length := by
    intro p hp
    exact Nat.not_lt.mp fun hlen => h ⟨p, hp, hlen⟩
  refine ⟨fun path hp i hl => ?_, hlong⟩
  obtain ⟨p, rfl⟩ := path_of_lookup hl
  obtain ⟨hm, hpath⟩ := Catalog.get_eq_some (hs.catalog_get (get_of_lookup hl).2)
  have hlen := hf p (hpath ▸ List.mem_map_of_mem hm)
  exact absurd (hlong p hp) (Nat.not_le.mpr hlen)

theorem passes_handle (hs : w.state.Sound) (hf : w.state.catalog.PathsFit) (h : ¬req.WellFormed)
    (ht : req.type ≠ .appendToFile) :
    (handle clientFd req).passes env (fun reply => w.state.catalog.Refuses reply.status) w ↔
      req.Dismissed w env := by
  have hpath : req.type.takesPath = true → (readInt req.body).isSome = true ∨
      (req.type ≠ .openFile) → req.body ≠ [] ∨ req.type ≠ .writeFile →
      req.Unstored w.state ∧ ∀ p, req.path = some (some p) → maxPath ≤ p.length := by
    intro htake hint hbody
    refine req.unstored hs hf fun hp => h ⟨fun _ => hp, ?_, ?_⟩
    · rintro (ho | ho)
      · exact hint.resolve_right (not_not.mpr ho)
      · rw [ho] at htake
        cases htake
    · rintro (hw | ha)
      · exact hbody.resolve_right (not_not.mpr hw)
      · exact absurd ha ht
  have hsimple : req.type.takesPath = true → req.type ≠ .openFile → req.type ≠ .writeFile →
      req.Unstored w.state := fun h1 h2 h3 => (hpath h1 (.inr h2) (.inr h3)).1
  unfold handle Request.Dismissed
  cases hc : req.type with
  | openFile =>
    refine passes_map.trans ?_
    cases hb : readInt req.body with
    | none =>
      refine iff_of_false (fun hp => ?_) (by simp)
      obtain ⟨path, -, hcrash⟩ := passes_requestPath.mp hp
      rw [hb] at hcrash
      exact not_passes_crash hcrash
    | some flags =>
      obtain ⟨hu, hlong⟩ := hpath (by rw [hc]; rfl) (.inl (by simp [hb])) (.inr (by simp [hc]))
      rw [← hb]
      exact passes_openFileHandler hu hlong
  | writeFile =>
    refine passes_map.trans (passes_writeFileHandler fun hb => ?_)
    exact (hpath (by rw [hc]; rfl) (.inr (by simp [hc])) (.inl hb)).1
  | appendToFile => exact absurd hc ht
  | readNFiles =>
    refine passes_map.trans (iff_of_false (not_passes_readNFilesHandler ?_) id)
    by_contra hb
    refine h ⟨by simp [hc, RequestCode.takesPath], fun _ => ?_, by simp [hc]⟩
    exact Option.isSome_iff_ne_none.mpr hb
  | closeFile =>
    have hlookup := hsimple (by rw [hc]; rfl) (by simp [hc]) (by simp [hc])
    exact passes_map.trans (passes_closeFileHandler hlookup)
  | readFile =>
    have hlookup := hsimple (by rw [hc]; rfl) (by simp [hc]) (by simp [hc])
    exact passes_map.trans (passes_readFileHandler hlookup)
  | removeFile =>
    have hlookup := hsimple (by rw [hc]; rfl) (by simp [hc]) (by simp [hc])
    exact passes_map.trans (passes_removeFileHandler hlookup)
  | lockFile =>
    have hlookup := hsimple (by rw [hc]; rfl) (by simp [hc]) (by simp [hc])
    exact passes_map.trans (passes_lockFileHandler hlookup)
  | unlockFile =>
    have hlookup := hsimple (by rw [hc]; rfl) (by simp [hc]) (by simp [hc])
    exact passes_map.trans (passes_unlockFileHandler hlookup)
  | openConnection =>
    exact absurd ⟨by simp [hc, RequestCode.takesPath], by simp [hc], by simp [hc]⟩ h
  | closeConnection =>
    exact absurd ⟨by simp [hc, RequestCode.takesPath], by simp [hc], by simp [hc]⟩ h

/-- The arm of the switch neither crashes nor touches the storage, and the handler of the request
has refused it. -/
def Turns (s : Dispatcher) (clientFd : Nat) (req : Request) (env : List Bool) (w : StorageWorld) :
    Prop :=
  (serve s clientFd req).passes env (fun _ w' => w'.state.catalog = w.state.catalog ∧
    ∃ reply, ((handle clientFd req).run env w).1 = .done reply ∧ reply.status.Refused) w

theorem run_respond {fd : Nat} {filePath : Bytes} {reply : Reply} :
    ∃ w', (respond fd filePath reply).run env w = (.done (), w', env.tail) ∧
      w'.state = w.state ∧ w'.held = w.held := by
  unfold respond
  simp only [bind_eq, pure_eq]
  rw [run_bind_done (run_sendResponse_client _ _ _ _ _ _)]
  exact ⟨_, rfl, World.posted_state _ _ _, World.posted_held _ _ _⟩

/-- An arm that only sends the answer of the handler. -/
theorem passes_answered {fd : Nat} {k : Reply → ServerM Unit}
    (hk : ∀ reply env w, ∃ w' env', (k reply).run env w = (.done (), w', env') ∧
      w'.state = w.state) :
    ((handle fd req).bind k).passes env (fun _ w' => w'.state.catalog = w.state.catalog ∧
      ∃ reply, ((handle fd req).run env w).1 = .done reply ∧ reply.status.Refused) w ↔
      (handle fd req).passes env (fun reply => w.state.catalog.Refuses reply.status) w := by
  refine passes_then fun reply w₁ env₁ hrun => ?_
  obtain ⟨w₂, env₂, h₂, hst⟩ := hk reply env₁ w₁
  refine ⟨(), w₂, env₂, h₂, ?_⟩
  simp only [hrun, Catalog.Refuses, hst, Outcome.done.injEq, exists_eq_left']
  exact and_comm

theorem turns_iff {s : Dispatcher} {fd : Nat} (hs : w.state.Sound) (hf : w.state.catalog.PathsFit)
    (h : ¬req.WellFormed) (ht : req.type ≠ .appendToFile) :
    Turns s fd req env w ↔ req.Dismissed w env := by
  refine Iff.trans ?_ (@passes_handle fd req env w hs hf h ht)
  have hk : ∀ (filePath : Bytes) (reply : Reply) (env : List Bool) (w : StorageWorld), ∃ w' env',
      (respond fd filePath reply).run env w = (.done (), w', env') ∧ w'.state = w.state := by
    intro filePath reply env w
    obtain ⟨w', hr, hst, -⟩ := @run_respond env w fd filePath reply
    exact ⟨w', _, hr, hst⟩
  unfold Turns serve
  cases hc : req.type with
  | appendToFile => exact absurd hc ht
  | openConnection =>
    exact absurd ⟨by simp [hc, RequestCode.takesPath], by simp [hc], by simp [hc]⟩ h
  | closeConnection =>
    exact absurd ⟨by simp [hc, RequestCode.takesPath], by simp [hc], by simp [hc]⟩ h
  | readNFiles => exact passes_answered (hk _)
  | lockFile =>
    refine passes_answered fun reply env w => ?_
    unfold whenever
    split
    · exact hk _ reply env w
    · exact ⟨w, env, rfl, rfl⟩
  | openFile => exact passes_answered (hk _)
  | closeFile => exact passes_answered (hk _)
  | writeFile => exact passes_answered (hk _)
  | readFile => exact passes_answered (hk _)
  | removeFile => exact passes_answered (hk _)
  | unlockFile => exact passes_answered (hk _)

/-- `READ_FILE` gets through. -/
theorem passes_readFile {v : Catalog} (hv : w.state.catalog = v) :
    (readFileHandler req).passes env (fun _ w' => w'.state.catalog = v) w ↔
      ∃ path, req.path = some path ∧ w.ReadsThrough path env := by
  refine passes_requestPath.trans (exists_congr fun path => and_congr_right fun _ => ?_)
  refine passes_lookup.trans (imp_congr_right fun _ => exists_congr fun r => and_congr_right fun _ => ?_)
  cases r with
  | none => exact iff_of_true (passes_ret.mpr hv) (by simp)
  | some i =>
    refine (passes_bind (run_load _ _ _ _)).trans ((passes_bind (run_alloc _ _)).trans ?_)
    simp only [Option.some.injEq, forall_eq']
    cases env.headD true with
    | false => exact (passes_neg (by simp)).trans (iff_of_true (passes_ret.mpr hv) (by simp))
    | true =>
      refine (passes_pos rfl).trans ((passes_bind (run_load _ _ _ _)).trans ?_)
      simp only [World.accessed_state, World.locked_state, id]
      cases hc : copyBytes true (w.state.heap i).contents (w.state.heap i).size with
      | none => exact iff_of_false not_passes_crash (by simp)
      | some buffer =>
        refine iff_of_true ((passes_bind (run_unlockReturn _ _)).mpr (passes_ret.mpr hv)) (by simp)

/-- What follows the answer of `append_to_file_handler`. -/
theorem passes_fallthrough {fd : Nat} {filePath : Bytes} {reply : Reply} {v : Catalog} {P : Prop}
    (hv : w.state.catalog = v) (hP : P) :
    ((respond fd filePath reply).bind fun _ => (handle fd { req with type := .readFile }).bind
      fun read => respond fd filePath read).passes env (fun _ w' => w'.state.catalog = v ∧ P) w ↔
      ∃ path, req.path = some path ∧ w.ReadsThrough path env.tail := by
  obtain ⟨w1, h1, hst1, hheld1⟩ := @run_respond env w fd filePath reply
  have hreads : ∀ path, w1.ReadsThrough path env.tail ↔ w.ReadsThrough path env.tail := by
    intro path
    unfold World.ReadsThrough
    rw [hst1, hheld1]
  simp only [← hreads]
  refine (passes_bind h1).trans (Iff.trans ?_
    (@passes_readFile { req with type := .readFile } env.tail w1 v (hst1.symm ▸ hv)))
  simp only [handle, bind_eq, pure_eq, Prog.bind_assoc]
  refine passes_then fun r w₂ env₂ _ => ?_
  obtain ⟨w₃, h₃, hst₃, -⟩ := @run_respond env₂ w₂ fd filePath ⟨r.1, r.2.getD []⟩
  exact ⟨(), w₃, _, h₃, by simp [hst₃, hP]⟩

theorem World.readsThrough_iff_misses {path : Option Path}
    (hu : ∀ i, w.state.lookup path ≠ some (some i)) :
    w.ReadsThrough path env ↔ w.Misses path := by
  refine imp_congr_right fun _ => ?_
  constructor
  · rintro ⟨r, hl, -⟩
    cases r with
    | none => exact hl
    | some i => exact absurd hl (hu i)
  · intro hl
    exact ⟨none, hl, by simp⟩

theorem turns_append_iff {s : Dispatcher} {fd : Nat} (hs : w.state.Sound)
    (hf : w.state.catalog.PathsFit) (h : ¬req.WellFormed) (ht : req.type = .appendToFile) :
    Turns s fd req env w ↔ req.Dismissed w env := by
  have hexists : ∀ {path : Option Path} {P : Option Path → Prop}, req.path = some path →
      ((∃ path, req.path = some path ∧ P path) ↔ P path) := by
    intro path P hp
    simp [hp]
  unfold Turns serve Request.Dismissed
  simp only [ht]
  cases hp : req.path with
  | none =>
    refine iff_of_false (fun hpass => ?_) (by simp)
    simp only [handle, ht, appendToFileHandler, bind_eq, pure_eq, Prog.bind_assoc] at hpass
    obtain ⟨path, hpath, -⟩ := passes_requestPath.mp hpass
    rw [hp] at hpath
    cases hpath
  | some path =>
    simp only [Option.some.injEq, exists_eq_left']
    by_cases hb : req.body = []
    · have hrun : (handle fd req).run env w = (.done ⟨.badRequest, []⟩, w, env) := by
        simp [handle, ht, appendToFileHandler, requestPath, hp, hb, Prog.bind]
      rw [if_pos hb]
      refine (passes_bind hrun).trans ((passes_fallthrough rfl ?_).trans (hexists hp))
      exact ⟨_, by rw [hrun], by decide⟩
    rw [if_neg hb]
    have hu : ∀ i, w.state.lookup path ≠ some (some i) := by
      refine (req.unstored hs hf fun hpath => h ⟨fun _ => hpath, ?_, fun _ => hb⟩).1 path hp
      rintro (ho | hr)
      · rw [ho] at ht
        cases ht
      · rw [hr] at ht
        cases ht
    let w0 := w.accessed (fun _ => []) id
    by_cases hl : req.body.length > w.state.maxSize
    · have hrun : (handle fd req).run env w = (.done ⟨.fileTooBig, []⟩, w0, env) := by
        simp only [handle, ht, appendToFileHandler, requestPath, hp, if_neg hb, bind_eq, pure_eq,
          Prog.bind, Prog.bind_assoc]
        rw [run_bind_done (run_read _ _ _ _), id, if_pos hl]
        rfl
      refine (passes_bind hrun).trans ((passes_fallthrough (w := w0) rfl ?_).trans ?_)
      · exact ⟨_, by rw [hrun], by decide⟩
      · exact (hexists hp).trans (World.readsThrough_iff_misses (w := w0) hu)
    · obtain ⟨G, hrun, hnone⟩ : ∃ G : Option FileId → ServerM Reply, (handle fd req).run env w =
          (lockReturn.bind fun _ => (storageGetFile path).bind G).run env w0 ∧
          G none = unlockReturn.bind fun _ => ret ⟨.notFound, []⟩ := by
        simp only [handle, ht, appendToFileHandler, requestPath, hp, if_neg hb, bind_eq, pure_eq,
          Prog.bind, Prog.bind_assoc]
        rw [run_bind_done (run_read _ _ _ _), id, if_neg hl]
        exact ⟨_, by simp only [Prog.bind_assoc]; rfl, rfl⟩
      by_cases hw : w.held = true
      · have hblocked : (handle fd req).run env w = (.blocked, w0, env) := by
          simp [hrun, lockReturn, Prog.bind, run, w0, hw]
        refine iff_of_true (passes_bind_blocked hblocked) fun h => ?_
        rw [hw] at h
        cases h
      have hw : w0.held = false := Bool.eq_false_iff.mpr hw
      rw [run_bind_done (run_lockReturn env w0 hw)] at hrun
      have hlook := run_storageGetFile path env w0.locked
      cases hm : w.state.lookup path with
      | none =>
        replace hm : w0.locked.state.lookup path = none := hm
        rw [hm] at hlook
        rw [run_bind_crashed hlook] at hrun
        refine iff_of_false (not_passes_bind hrun) fun h => ?_
        have hsome := h hw
        rw [show w.state.lookup path = none from hm] at hsome
        cases hsome
      | some r =>
        obtain rfl : r = none := by
          cases r with
          | none => rfl
          | some i => exact absurd hm (hu i)
        replace hm : w0.locked.state.lookup path = some none := hm
        rw [hm] at hlook
        rw [run_bind_done hlook, hnone] at hrun
        let w1 := (w0.locked.accessed (lookupAccesses path) id).unlocked
        replace hrun : (handle fd req).run env w = (.done ⟨.notFound, []⟩, w1, env) := hrun
        refine iff_of_true ((passes_bind hrun).mpr ((passes_fallthrough rfl ?_).mpr ⟨path, hp, ?_⟩))
          fun _ => hm
        · exact ⟨_, by rw [hrun], by decide⟩
        · exact (World.readsThrough_iff_misses (w := w1) hu).mpr fun _ => hm

/-- What an arm does with a request that lacks something. -/
theorem turns_iff_dismissed {s : Dispatcher} {fd : Nat} (hs : w.state.Sound)
    (hf : w.state.catalog.PathsFit) (h : ¬req.WellFormed) :
    Turns s fd req env w ↔ req.Dismissed w env := by
  by_cases ht : req.type = .appendToFile
  · exact turns_append_iff hs hf h ht
  · exact turns_iff hs hf h ht

end Calls

/-! ### One iteration of the worker -/

def Received.request (received : Received) : Option Request :=
  (RequestCode.ofCode received.type).map fun type => ⟨type, received.filePath, received.body⟩

/-- The request has not been received, or lacks what its type needs. -/
def Lacking (received : Option Received) : Prop :=
  ∀ r, received = some r → ∃ req, r.request = some req ∧ ¬req.WellFormed

/-- The connection of the client is closed. -/
def Iteration.closes (i : Iteration) : Prop := .close ∈ i.actions ∨ .fail ∈ i.actions

namespace Server

/-- The worker gets through a request that lacks something: it refuses it or closes the connection,
and the storage stays as it was. -/
structure Survives (t : Server) (s : Dispatcher) (clientFd : Nat) (received : Option Received)
    (env : List Bool) : Prop where
  alive : (workerIteration s clientFd received env t.world).outcome ≠ .crashed
  answered : (workerIteration s clientFd received env t.world).outcome = .done () →
    (workerIteration s clientFd received env t.world).closes ∨ ∃ r req reply, received = some r ∧
      r.request = some req ∧ ((handle clientFd req).run env t.world).1 = .done reply ∧
      reply.status.Refused
  unchanged : (workerIteration s clientFd received env t.world).outcome = .done () →
    (workerIteration s clientFd received env t.world).world.state.catalog = t.storage.catalog

theorem survives_iff_turns {t : Server} {s : Dispatcher} {clientFd : Nat} {received : Received}
    {req : Request} {env : List Bool} (hreq : received.request = some req) (h : ¬req.WellFormed) :
    t.Survives s clientFd (some received) env ↔ Turns s clientFd req env t.world := by
  obtain ⟨type, htype, rfl⟩ := Option.map_eq_some_iff.mp hreq
  have hclose : type ≠ .closeConnection := by
    rintro rfl
    exact h ⟨by simp [RequestCode.takesPath], by simp, by simp⟩
  let req : Request := ⟨type, received.filePath, received.body⟩
  -- the arms other than that of CLOSE_CONNECTION leave the connection open
  have hit : ∀ outcome w env', (serve s clientFd req).run env t.world = (outcome, w, env') →
      workerIteration s clientFd (some received) env t.world =
        ⟨if outcome = .done () then [.serve, .write] else [], outcome, w⟩ := by
    intro outcome w env' hrun
    unfold workerIteration
    dsimp only
    rw [htype]
    cases type with
    | closeConnection => exact absurd rfl hclose
    | _ =>
      dsimp only
      rw [hrun]
      cases outcome <;> rfl
  cases hrun : (serve s clientFd req).run env t.world with
  | mk outcome rest =>
    obtain ⟨w, env'⟩ := rest
    replace hit := hit _ _ _ hrun
    cases outcome with
    | crashed =>
      refine iff_of_false (fun hs => hs.alive ?_) fun hp => hp.1 ?_
      · rw [hit]
      · rw [hrun]
    | blocked =>
      refine iff_of_true ⟨?_, ?_, ?_⟩ (passes_blocked (by rw [hrun]))
      all_goals simp [hit]
    | done u =>
      constructor
      · intro hs
        refine ⟨by simp [req, hrun], fun _ _ => ?_⟩
        have hcat := hs.unchanged (by rw [hit])
        have hans := hs.answered (by rw [hit])
        rw [hit] at hcat hans
        rcases hans with hans | ⟨r, req', reply, hr, hreq', hdone, hst⟩
        · simp [Iteration.closes] at hans
        · obtain rfl := Option.some.inj hr
          obtain rfl := Option.some.inj (hreq.symm.trans hreq')
          rw [hrun]
          exact ⟨hcat, reply, hdone, hst⟩
      · intro hp
        have hdone := hp.2 u (by rw [hrun])
        rw [hrun] at hdone
        obtain ⟨hcat, reply, hrep, hst⟩ := hdone
        refine ⟨by simp [hit], fun _ => .inr ⟨received, req, reply, rfl, hreq, hrep, hst⟩, fun _ => ?_⟩
        rw [hit]
        exact hcat

/-- A frame with the path `/a` and no body. -/
def bodiless (type : UInt8) : Channel.Source UInt8 :=
  .full ([type, 0, 0, 0] ++ [3, 0, 0, 0, 0, 0, 0, 0] ++ stringBytes (slash 'a') ++
    [0, 0, 0, 0, 0, 0, 0, 0])

def dispatcher : Dispatcher := .init Dispatcher.descriptors 1

end Server

end FileStorage
