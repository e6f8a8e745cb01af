import FileStorage.Machine
import FileStorage.Server

/-! Paths of `MAX_PATH` bytes and more. `storage_create_file` copies a path into `file->path` without
looking at its length, and a longer one runs on into the fields behind. For `exec` this is a fault;
here the call goes on with what the copy has left in the record. -/

namespace FileStorage

open Machine Prog

/-- The offset of `contents` in `file_t`. Behind `path` lie `flags`, four bytes of padding and
`size`. -/
def contentsOffset : Nat := maxPath + 16

/-- The record of a path of `MAX_PATH` bytes or more. `calloc` has cleared it, `O_CREATE` is added to
the bytes copied into `flags`, `size` is set after the copy, and `path` is read on up to the first
NUL. -/
def File.overrun (path : Path) (list : Bool) : File :=
  let behind := path.drop maxPath ++ List.replicate 8 0
  let flags := setFlag ((readInt behind).getD 0) oCreate
  let key := path.take maxPath ++ intBytes flags.toInt ++ (behind.drop 4).take 4
  ⟨key.takeWhile fun b => b ≠ 0, flags, 0, none, -1, if list then some [] else none⟩

/-- `storage_create_file` with its `strcpy`. A copy that goes beyond `size` faults: it leaves a
pointer in `contents` that leads nowhere. -/
def storageCreateFileOverrun (fileName : Option Path) : ServerM (Option FileId) := do
  if ← alloc then
    match fileName with
    | none => crash
    | some p =>
      if p.length ≤ contentsOffset then do
        let list ← alloc
        let file := if p.length < maxPath then File.fresh p list else File.overrun p list
        access (fun _ => []) (fun s => s.newFile file) fun s => ret (some s.next)
      else crash
  else return none

theorem storageCreateFileOverrun_eq {fileName : Option Path}
    (h : ∀ p, fileName = some p → p.length < maxPath) :
    storageCreateFileOverrun fileName = storageCreateFile fileName := by
  unfold storageCreateFileOverrun storageCreateFile
  congr 1
  funext b
  cases b with
  | false => rfl
  | true =>
    cases fileName with
    | none => rfl
    | some p =>
      have hp := h p rfl
      have hle : p.length ≤ contentsOffset := by
        unfold contentsOffset
        omega
      simp only [if_pos hp, if_pos hle]

def openFileCreateOverrun (path : Option Path) : ServerM (Option ResponseCode) :=
  openFileCreateBy (storageCreateFileOverrun path) path

/-- A request to create a file names a path that fits into the record. -/
def Request.Fits (req : Request) : Prop :=
  req.type = .openFile → ∀ p ∈ req.path.join, ∀ flags ∈ readInt req.body,
    chkFlag flags oCreate = true → p.length < maxPath

instance (req : Request) : Decidable req.Fits :=
  have (p : Path) : Decidable (∀ flags ∈ readInt req.body, chkFlag flags oCreate = true →
      p.length < maxPath) := Option.decidableForallMem (readInt req.body)
  have : Decidable (∀ p ∈ req.path.join, ∀ flags ∈ readInt req.body, chkFlag flags oCreate = true →
      p.length < maxPath) := Option.decidableForallMem req.path.join
  inferInstanceAs (Decidable (_ → _))

def Call.Fits : Call → Prop
  | .request _ req => req.Fits
  | .lockManager => True

instance : ∀ c : Call, Decidable c.Fits
  | .request _ req => inferInstanceAs (Decidable req.Fits)
  | .lockManager => inferInstanceAs (Decidable True)

/-- What a call does when a long path is no fault. -/
def Call.performed : Call → ServerM (Option Reply)
  | request clientFd req =>
    if req.type = .openFile then do
      let status ← openFileHandlerBy openFileCreateOverrun clientFd req
      return some ⟨status, []⟩
    else (Call.request clientFd req).prog
  | lockManager => Call.lockManager.prog

theorem Request.Fits.openFileHandler_eq {req : Request} (h : req.Fits) (ht : req.type = .openFile)
    (clientFd : Int) :
    openFileHandlerBy openFileCreateOverrun clientFd req = openFileHandler clientFd req := by
  unfold openFileHandler openFileHandlerBy requestPath
  cases hp : req.path with
  | none => rfl
  | some path =>
    simp only [bind_eq, pure_eq, Prog.bind]
    cases hb : readInt req.body with
    | none => rfl
    | some flags =>
      cases hc : chkFlag flags oCreate with
      | false => simp only [hc, openFilePart, Bool.false_eq_true, if_false]
      | true =>
        have hcreate : openFileCreateOverrun path = openFileCreate path := by
          unfold openFileCreateOverrun openFileCreate
          rw [storageCreateFileOverrun_eq]
          rintro p rfl
          exact h ht p (by rw [hp]; rfl) flags hb hc
        simp only [hcreate]

theorem Call.Fits.performed_eq {c : Call} (h : c.Fits) : c.performed = c.prog := by
  cases c with
  | lockManager => rfl
  | request clientFd req =>
    by_cases ht : req.type = .openFile
    · simp only [Call.performed, Request.Fits.openFileHandler_eq h ht, Call.prog, handle, ht, if_true,
        bind_eq, pure_eq, Prog.bind_assoc, Prog.bind]
    · exact if_neg ht

namespace Server

/-- A call that returns, with its reply and the world it leaves. -/
def perform (s : Server) (x : Step) : Option (Option Reply × StorageWorld) :=
  match x.call.performed.run x.env s.world with
  | (.done r, w, _) => some (r, w)
  | _ => none

theorem perform_eq_exec {s : Server} {x : Step} (h : x.call.Fits) : s.perform x = s.exec x := by
  unfold perform
  rw [h.performed_eq]
  rfl

/-- The server after a call. -/
def performs (s : Server) (x : Step) : Option Server := (s.perform x).map fun r => .ofWorld r.2

/-- Where every path fits, the two models agree. -/
theorem run_of_performs {s t : Server} {h : List (Server × Step)}
    (hr : Reaches performs (fun _ x => x.call.Fits) s h t) : ∃ h', Run anyStep s h' t := by
  induction hr with
  | nil => exact ⟨[], .nil⟩
  | snoc _ hc hs ih =>
    obtain ⟨h', hr'⟩ := ih
    obtain ⟨⟨r, w⟩, he, rfl⟩ := Option.map_eq_some_iff.mp hs
    exact ⟨_, .snoc hr' trivial (perform_eq_exec hc ▸ he)⟩

set_option maxRecDepth 100000 in
/-- Where a path fills its field, the new file is stored under a longer name, and the section for
`O_LOCK` does not find it. -/
example : ((start 100 4).bind fun s => s.perform (.openFile 5 (List.replicate maxPath 0x61) 6)).any
    (fun r => decide (r.1 = some ⟨.notFound, []⟩ ∧ r.2.state.noOfFiles = 1)) = true := by
  decide +kernel

end Server

end FileStorage
