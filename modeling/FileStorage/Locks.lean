import FileStorage.Effect

/-! What the handlers and the lock manager do to the lock of a file: `Catalog.relock` is the change
that a call with a given reply makes to each stored file. -/

namespace FileStorage

theorem SameData.refl (f : File) : SameData f f := ⟨rfl, rfl, rfl, rfl⟩

namespace File

/-- The test for the owner of the lock. -/
def Owned (f : File) (clientFd : Int) : Prop := chkFlag f.flags oLock = true ∧ f.lockedBy = clientFd

instance (f : File) (clientFd : Int) : Decidable (f.Owned clientFd) :=
  inferInstanceAs (Decidable (_ ∧ _))

def locked (f : File) (clientFd : Int) : File :=
  { f with flags := setFlag f.flags oLock, lockedBy := clientFd }

def unlocked (f : File) : File := { f with flags := clrFlag f.flags oLock, lockedBy := -1 }

/-- `open_file_handler` with `O_LOCK`. -/
def opened (f : File) (clientFd : Int) : File := if f.Owned clientFd then f else f.locked clientFd

/-- `close_file_handler` and `unlock_file_handler`. -/
def closed (f : File) (clientFd : Int) : File := if f.Owned clientFd then f.unlocked else f

/-- `lock_file_handler` with the status it returns. -/
def asked (f : File) (clientFd : Int) (status : ResponseCode) : File :=
  if chkFlag f.flags oLock = false then f.locked clientFd
  else if status = .awaiting then
    { f with waitingOnLock := f.waitingOnLock.map (· ++ [clientFd]) }
  else f

/-- The lock manager at a file. -/
def granted (f : File) : File :=
  match f.waitingOnLock with
  | some (clientFd :: waiting) =>
    if chkFlag f.flags oLock = false then
      { f.locked clientFd with waitingOnLock := some waiting }
    else f
  | _ => f

theorem sameData_locked (f : File) (clientFd : Int) : SameData f (f.locked clientFd) :=
  ⟨rfl, rfl, rfl, chkFlag_setFlag_oLock_oCreate _⟩

theorem sameData_unlocked (f : File) : SameData f f.unlocked :=
  ⟨rfl, rfl, rfl, chkFlag_clrFlag_oLock_oCreate _⟩

theorem sameData_opened (f : File) (clientFd : Int) : SameData f (f.opened clientFd) := by
  unfold opened
  split
  · exact SameData.refl f
  · exact sameData_locked f clientFd

theorem sameData_closed (f : File) (clientFd : Int) : SameData f (f.closed clientFd) := by
  unfold closed
  split
  · exact sameData_unlocked f
  · exact SameData.refl f

theorem sameData_asked (f : File) (clientFd : Int) (status : ResponseCode) :
    SameData f (f.asked clientFd status) := by
  unfold asked
  split
  · exact sameData_locked f clientFd
  · split
    · exact ⟨rfl, rfl, rfl, rfl⟩
    · exact SameData.refl f

theorem sameData_granted (f : File) : SameData f f.granted := by
  unfold granted
  split
  · split
    · exact ⟨rfl, rfl, rfl, chkFlag_setFlag_oLock_oCreate _⟩
    · exact SameData.refl f
  · exact SameData.refl f

/-- `lock_file_handler` leaves the client in the waiting list. -/
def Waits (f : File) (clientFd : Int) : Prop :=
  chkFlag f.flags oLock = true ∧ f.lockedBy ≠ clientFd ∧ f.waitingOnLock ≠ none

/-- The last two parts of `open_file_handler`. -/
def reopened (f : File) (lock : Bool) (clientFd : Int) : File := if lock then f.opened clientFd else f

theorem sameData_reopened (f : File) (lock : Bool) (clientFd : Int) :
    SameData f (f.reopened lock clientFd) := by
  unfold reopened
  split
  · exact f.sameData_opened clientFd
  · exact .refl f

/-- A second visit of the lock manager finds the file locked, or no one waiting. -/
theorem granted_granted (f : File) : f.granted.granted = f.granted := by
  rcases hw : f.waitingOnLock with _ | _ | ⟨clientFd, waiting⟩
  · simp [granted, hw]
  · simp [granted, hw]
  · by_cases hl : chkFlag f.flags oLock = false
    · have hg : f.granted = { f.locked clientFd with waitingOnLock := some waiting } := by
        simp [granted, hw, hl]
      rw [hg]
      cases waiting <;> simp [granted, locked]
    · have hg : f.granted = f := by simp [granted, hw, hl]
      rw [hg, hg]

end File

namespace Catalog

/-- Each stored file is changed. -/
def relabel (v : Catalog) (g : File → File) : Catalog := { v with stored := v.stored.map g }

/-- The paths of a queue that the lock manager gets to. -/
def visits (v : Catalog) (queue : List Path) : List Path :=
  queue.takeWhile fun p => decide (p ∈ v.paths)

/-- The part of `open_file_handler` for `O_LOCK` is reached with the file in the table. -/
def opensLocked (v : Catalog) (p : Path) (body : Bytes) : Bool :=
  match readInt body with
  | none => false
  | some flags => chkFlag flags oLock && (!chkFlag flags oCreate || (v.get p).isNone)

def relock (v : Catalog) (c : Call) (r : Option Reply) (f : File) : File :=
  match c with
  | .lockManager => if f.path ∈ v.visits v.queue then f.granted else f
  | .request clientFd req =>
    if req.path.join = some f.path then
      match req.type with
      | .openFile => if v.opensLocked f.path req.body then f.opened clientFd else f
      | .closeFile | .unlockFile => f.closed clientFd
      | .lockFile => r.elim f fun reply => f.asked clientFd reply.status
      | _ => f
    else f

/-- A change of the file of one path, which may be the NULL pointer. -/
def onPath (path : Option Path) (φ : File → File) (f : File) : File :=
  if path = some f.path then φ f else f

theorem sameData_onPath (path : Option Path) {φ : File → File} (h : ∀ f, SameData f (φ f))
    (f : File) : SameData f (onPath path φ f) := by
  unfold onPath
  split
  · exact h f
  · exact .refl f

theorem sameData_relock (v : Catalog) (c : Call) (r : Option Reply) (f : File) :
    SameData f (v.relock c r f) := by
  cases c with
  | lockManager =>
    simp only [relock]
    split
    · exact f.sameData_granted
    · exact .refl f
  | request clientFd req =>
    simp only [relock]
    by_cases hp : req.path.join = some f.path
    · rw [if_pos hp]
      cases req.type with
      | openFile =>
        dsimp only
        split
        · exact f.sameData_opened clientFd
        · exact .refl f
      | closeFile => exact f.sameData_closed clientFd
      | unlockFile => exact f.sameData_closed clientFd
      | lockFile =>
        cases r with
        | none => exact .refl f
        | some reply => exact f.sameData_asked clientFd reply.status
      | _ => exact .refl f
    · rw [if_neg hp]
      exact .refl f

theorem relock_request {v : Catalog} {clientFd : Nat} {req : Request} {r : Option Reply}
    {φ : File → File} {f : File}
    (h : req.path.join = some f.path → v.relock (.request clientFd req) r f = φ f) :
    onPath req.path.join φ f = v.relock (.request clientFd req) r f := by
  by_cases hp : req.path.join = some f.path
  · rw [onPath, if_pos hp, h hp]
  · simp [onPath, relock, hp]

/-- The requests that leave every lock alone. -/
theorem relock_eq_self {v : Catalog} {clientFd : Nat} {req : Request}
    (h : req.type ∉ [.openFile, .closeFile, .lockFile, .unlockFile]) (r : Option Reply) (f : File) :
    v.relock (.request clientFd req) r f = f := by
  simp only [List.mem_cons, not_or] at h
  obtain ⟨ho, hc, hl, hu, -⟩ := h
  simp only [relock]
  split <;> rfl

theorem relabel_id (v : Catalog) {g : File → File} (h : ∀ f ∈ v.stored, g f = f) :
    v.relabel g = v := by
  have he : v.stored.map g = v.stored := by
    rw [List.map_congr_left (g := id) h, List.map_id]
  rw [relabel, he]

theorem relabel_congr {v : Catalog} {g k : File → File} (h : ∀ f ∈ v.stored, g f = k f) :
    v.relabel g = v.relabel k := by
  rw [relabel, relabel, List.map_congr_left h]

theorem relabel_relabel (v : Catalog) (g k : File → File) :
    (v.relabel g).relabel k = v.relabel (k ∘ g) := by
  simp [relabel]

theorem relabeled_relabel (v : Catalog) {g : File → File} (h : ∀ f ∈ v.stored, SameData f (g f)) :
    v.Relabeled (v.relabel g) := ⟨g, h, rfl⟩

theorem relabel_paths {v : Catalog} {g : File → File} (h : ∀ f ∈ v.stored, SameData f (g f)) :
    (v.relabel g).paths = v.paths :=
  (v.relabeled_relabel h).paths

theorem visits_relabel {v : Catalog} {g : File → File} (h : ∀ f ∈ v.stored, SameData f (g f))
    (queue : List Path) : (v.relabel g).visits queue = v.visits queue := by
  rw [visits, visits, relabel_paths h]

theorem visits_cons_of_get {v : Catalog} {p : Path} {f : File} (h : v.get p = some f)
    (queue : List Path) : v.visits (p :: queue) = p :: v.visits queue := by
  obtain ⟨hf, rfl⟩ := get_eq_some h
  exact List.takeWhile_cons_of_pos (decide_eq_true (List.mem_map_of_mem hf))

theorem visits_cons_of_absent {v : Catalog} {p : Path} (h : v.get p = none) (queue : List Path) :
    v.visits (p :: queue) = [] :=
  List.takeWhile_cons_of_neg (by simpa using get_eq_none_iff.mp h)

theorem relabel_onPath_absent {v : Catalog} {path : Option Path}
    (h : ∀ p, path = some p → v.get p = none) (φ : File → File) : v.relabel (onPath path φ) = v := by
  refine v.relabel_id fun f hf => if_neg fun hp => ?_
  exact get_eq_none_iff.mp (h f.path hp) (List.mem_map_of_mem hf)

theorem relabel_onPath_get {v : Catalog} (hd : v.paths.Nodup) {p : Path} {f : File}
    (hf : v.get p = some f) (φ : File → File) :
    v.relabel (onPath (some p) φ) = v.put p (φ f) := by
  have he : ∀ g ∈ v.stored, onPath (some p) φ g = putFile p (φ f) g := by
    intro g hg
    by_cases hp : g.path = p
    · have hget := (get_eq_some_iff hd).mpr ⟨hg, hp⟩
      obtain rfl : f = g := Option.some.inj (hf.symm.trans hget)
      rw [onPath, if_pos (by rw [hp]), putFile, if_pos hp]
    · rw [onPath, if_neg fun h => hp (Option.some.inj h).symm, putFile, if_neg hp]
  rw [relabel, put, List.map_congr_left he]

/-- The change of the locks together with what the call is due to do. -/
def Locking (fail : Prop) (v : Catalog) (c : Call) (r : Option Reply) (v' : Catalog) : Prop :=
  match v.deed c with
  | .other => v' = v.relabel (v.relock c r)
  | .create p => ∃ u, (v.Created p u ∨ fail ∧ u = v) ∧ v' = u.relabel (v.relock c r)
  | .replace p q => ∃ u,
      ((v.replaceHead q).Created p u ∨ fail ∧ (u = v.replaceHead q ∨ u = v)) ∧
        v' = u.relabel (v.relock c r)
  | _ => True

end Catalog

end FileStorage
