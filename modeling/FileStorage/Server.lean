import FileStorage.Catalog
import FileStorage.Handlers

/-! The server as a machine whose steps are whole calls: a request of some client run through
its handler, or one pass of the lock manager. -/

namespace FileStorage

open Prog

structure Reply where
  status : ResponseCode
  body : Bytes
  deriving DecidableEq

def handle (clientFd : Int) (request : Request) : ServerM Reply :=
  match request.type with
  | .openFile => do
    let status ← openFileHandler clientFd request
    return ⟨status, []⟩
  | .closeFile => do
    let status ← closeFileHandler clientFd request
    return ⟨status, []⟩
  | .writeFile => do
    let (status, _) ← writeFileHandler clientFd request
    return ⟨status, []⟩
  | .appendToFile => do
    let status ← appendToFileHandler clientFd request
    return ⟨status, []⟩
  | .readFile => do
    let (status, buffer) ← readFileHandler request
    return ⟨status, buffer.getD []⟩
  | .readNFiles => do
    let (status, _) ← readNFilesHandler clientFd request
    return ⟨status, []⟩
  | .removeFile => do
    let status ← removeFileHandler clientFd request
    return ⟨status, []⟩
  | .lockFile => do
    let status ← lockFileHandler clientFd request
    return ⟨status, []⟩
  | .unlockFile => do
    let status ← unlockFileHandler clientFd request
    return ⟨status, []⟩
  | .openConnection | .closeConnection => return ⟨.success, []⟩

/-- The descriptor of a client that has sent a request is not negative. -/
inductive Call where
  | request (clientFd : Nat) (request : Request)
  | lockManager
  deriving DecidableEq

def Call.prog : Call → ServerM (Option Reply)
  | request clientFd req => do
    let reply ← handle clientFd req
    return some reply
  | lockManager => do
    lockManagerPass
    return none

/-- A call with the environment's answers to its allocations and sends. -/
structure Step where
  call : Call
  env : List Bool
  deriving DecidableEq

/-- The path of a file with a one-letter name in the root directory. -/
def slash (letter : Char) : Path := [0x2f, letter.val.toUInt8]

namespace Step

/-! Calls for which the environment has what they ask for. -/

def openFile (clientFd : Nat) (p : Path) (flags : Int) : Step :=
  ⟨.request clientFd ⟨.openFile, stringBytes p, intBytes flags⟩, []⟩

def closeFile (clientFd : Nat) (p : Path) : Step :=
  ⟨.request clientFd ⟨.closeFile, stringBytes p, []⟩, []⟩

def writeFile (clientFd : Nat) (p : Path) (body : Bytes) : Step :=
  ⟨.request clientFd ⟨.writeFile, stringBytes p, body⟩, []⟩

def appendToFile (clientFd : Nat) (p : Path) (body : Bytes) : Step :=
  ⟨.request clientFd ⟨.appendToFile, stringBytes p, body⟩, []⟩

def readFile (clientFd : Nat) (p : Path) : Step :=
  ⟨.request clientFd ⟨.readFile, stringBytes p, []⟩, []⟩

def removeFile (clientFd : Nat) (p : Path) : Step :=
  ⟨.request clientFd ⟨.removeFile, stringBytes p, []⟩, []⟩

def lockFile (clientFd : Nat) (p : Path) : Step :=
  ⟨.request clientFd ⟨.lockFile, stringBytes p, []⟩, []⟩

end Step

/-- The storage between two calls. -/
structure Server where
  storage : Storage
  held : Bool

abbrev StorageWorld := World Storage Access (Int × Response)

namespace Server

def world (s : Server) : StorageWorld := ⟨s.storage, s.held, [], []⟩

def ofWorld (w : StorageWorld) : Server := ⟨w.state, w.held⟩

/-- How a call ends, the world it leaves, and the answers it has not used. -/
def outcome (s : Server) (x : Step) : Outcome (Option Reply) × StorageWorld × List Bool :=
  x.call.prog.run x.env s.world

/-- A call that returns, with its reply and the world it leaves. -/
def exec (s : Server) (x : Step) : Option (Option Reply × StorageWorld) :=
  match x.call.prog.run x.env s.world with
  | (.done r, w, _) => some (r, w)
  | _ => none

end Server

/-- A call that has returned. -/
structure Record where
  step : Step
  reply : Option Reply
  world : StorageWorld

/-- `Run C s h t`: the calls of `h`, each of which meets `C` in the state it starts from, lead
from `s` to `t`. -/
inductive Run (C : Server → Step → Prop) (s : Server) : List Record → Server → Prop where
  | nil : Run C s [] s
  | snoc {h : List Record} {t : Server} {x : Step} {r : Option Reply} {w : StorageWorld}
      (hr : Run C s h t) (hc : C t x) (he : t.exec x = some (r, w)) :
      Run C s (h ++ [⟨x, r, w⟩]) (.ofWorld w)

def anyStep : Server → Step → Prop := fun _ _ => True

namespace Server

/-- The storage right after `storage_create`. -/
def Initial (s : Server) : Prop :=
  ∃ maxSize maxFiles, 0 < maxSize ∧ maxSize < sizeBound ∧ 0 < maxFiles ∧ maxFiles < sizeBound ∧
    storageCreate maxSize maxFiles = some s.storage ∧ s.held = false

def start (maxSize maxFiles : Nat) : Option Server :=
  (storageCreate maxSize maxFiles).map fun storage => ⟨storage, false⟩

/-- The run of some steps, if they return and meet `C`. -/
def replay (C : Server → Step → Prop) [∀ s x, Decidable (C s x)] (s : Server) :
    List Step → Option (List Record × Server)
  | [] => some ([], s)
  | x :: xs =>
    if C s x then
      (s.exec x).bind fun r => ((ofWorld r.2).replay C xs).map fun h => (⟨x, r.1, r.2⟩ :: h.1, h.2)
    else none

end Server

theorem Run.cons {C : Server → Step → Prop} {s t : Server} {x : Step} {r : Option Reply}
    {w : StorageWorld} {h : List Record} (hc : C s x) (he : s.exec x = some (r, w))
    (hr : Run C (.ofWorld w) h t) : Run C s (⟨x, r, w⟩ :: h) t := by
  induction hr with
  | nil => exact .snoc .nil hc he
  | snoc _ hc' he' ih => exact .snoc ih hc' he'

theorem Server.run_of_replay {C : Server → Step → Prop} [∀ s x, Decidable (C s x)] {s t : Server}
    {xs : List Step} {h : List Record} (hr : s.replay C xs = some (h, t)) : Run C s h t := by
  induction xs generalizing s h with
  | nil =>
    simp only [replay, Option.some.injEq, Prod.mk.injEq] at hr
    obtain ⟨rfl, rfl⟩ := hr
    exact .nil
  | cons x xs ih =>
    unfold replay at hr
    split at hr
    · rename_i hc
      obtain ⟨⟨r, w⟩, he, hm⟩ := Option.bind_eq_some_iff.mp hr
      obtain ⟨⟨h', t'⟩, hr', heq⟩ := Option.map_eq_some_iff.mp hm
      simp only [Prod.mk.injEq] at heq
      obtain ⟨rfl, rfl⟩ := heq
      exact .cons hc he (ih hr')
    · cases hr

instance (s : Server) (x : Step) : Decidable (anyStep s x) := inferInstanceAs (Decidable True)

theorem Server.steps_of_replay {C : Server → Step → Prop} [∀ s x, Decidable (C s x)]
    {s t : Server} {xs : List Step} {h : List Record} (hr : s.replay C xs = some (h, t)) :
    h.map Record.step = xs := by
  induction xs generalizing s h with
  | nil =>
    simp only [replay, Option.some.injEq, Prod.mk.injEq] at hr
    simp [← hr.1]
  | cons x xs ih =>
    unfold replay at hr
    split at hr
    · obtain ⟨_, -, hm⟩ := Option.bind_eq_some_iff.mp hr
      obtain ⟨⟨h', t'⟩, hr', heq⟩ := Option.map_eq_some_iff.mp hm
      simp only [Prod.mk.injEq] at heq
      simp [← heq.1, ih (h := h') (heq.2 ▸ hr')]
    · cases hr

/-- A fresh storage, found by a test. -/
theorem Server.exists_start (maxSize maxFiles : Nat) (p : Server → Bool)
    (hb : 0 < maxSize ∧ maxSize < sizeBound ∧ 0 < maxFiles ∧ maxFiles < sizeBound)
    (hp : (start maxSize maxFiles).any p = true) : ∃ s, s.Initial ∧ p s = true := by
  obtain ⟨s, hs, hp⟩ := (Option.any_eq_true _ _).mp hp
  obtain ⟨storage, hc, rfl⟩ := Option.map_eq_some_iff.mp hs
  exact ⟨_, ⟨maxSize, maxFiles, hb.1, hb.2.1, hb.2.2.1, hb.2.2.2, hc, rfl⟩, hp⟩

/-- A run on a fresh storage, found by running it. -/
theorem Server.exists_run (C : Server → Step → Prop) [∀ s x, Decidable (C s x)]
    (maxSize maxFiles : Nat) (xs : List Step) (p : Server → List Record → Server → Bool)
    (hb : 0 < maxSize ∧ maxSize < sizeBound ∧ 0 < maxFiles ∧ maxFiles < sizeBound)
    (hp : ((start maxSize maxFiles).any fun s =>
      (s.replay C xs).any fun r => p s r.1 r.2) = true) :
    ∃ s h t, s.Initial ∧ Run C s h t ∧ h.map Record.step = xs ∧ p s h t = true := by
  obtain ⟨s, hi, hp⟩ := exists_start maxSize maxFiles _ hb hp
  obtain ⟨⟨h, t⟩, hr, hp⟩ := (Option.any_eq_true _ _).mp hp
  exact ⟨s, h, t, hi, run_of_replay hr, steps_of_replay hr, hp⟩

/-- What holds at the start and survives every call that meets `C` holds after every run. -/
theorem Run.invariant {C : Server → Step → Prop} {s : Server}
    {I : List Record → Server → Prop} (h0 : I [] s)
    (hstep : ∀ h t x r w, I h t → C t x → t.exec x = some (r, w) →
      I (h ++ [⟨x, r, w⟩]) (.ofWorld w))
    {h : List Record} {t : Server} (hr : Run C s h t) : I h t := by
  induction hr with
  | nil => exact h0
  | snoc _ hc he ih => exact hstep _ _ _ _ _ ih hc he

end FileStorage
