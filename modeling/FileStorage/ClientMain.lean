import FileStorage.Dialogue
import FileStorage.Directory
import FileStorage.Saving

/-! The client program, `main` and `execute_action`: it reads its command line, opens a connection,
executes the actions in turn, whatever comes of them, and closes the connection. -/

namespace FileStorage

/-- What the program does for others to see: calls of the API, pauses, and files that it writes. -/
inductive Act where
  | openConnection (sockname : Path)
  | closeConnection (sockname : Path)
  | writeFile (pathname dirname : Option Path)
  | appendToFile (pathname : Option Path) (buf : Bytes) (dirname : Option Path)
  | readFile (pathname : Path)
  | readNFiles (n : Int) (dirname : Option Path)
  | lockFile (pathname : Path)
  | unlockFile (pathname : Path)
  | removeFile (pathname : Path)
  | displayRequestResult
  | msleep (msec : Int)
  | save (file : LocalFile)
  deriving DecidableEq

/-- What the program gets: from `readFile` the buffer, and `buffer_size` as it is where there is
none. -/
abbrev Act.Answer : Act → Type
  | readFile _ => Option Bytes × Nat
  | displayRequestResult => Unit
  | save _ => Unit
  | _ => Int

/-- What the program asks of the system it runs on. -/
inductive ClientQuestion where
  | act (a : Act)
  | listCreate
  | malloc (size : Nat)
  | realpath (path : Option Path)
  | fopen (path : Option Path)
  | stat (path : Option Path)
  | fread (path : Option Path) (size : Nat)
  /-- A directory with what its walk meets. -/
  | directory (path : Path)
  /-- `fopen` for writing. -/
  | create (path : Path)
  deriving DecidableEq

/-- The act that a question is. -/
def ClientQuestion.asAct : ClientQuestion → Option Act
  | act a => some a
  | _ => none

/-- Whether a question is not about the connection itself. -/
def ClientQuestion.isInner : ClientQuestion → Bool
  | act (.openConnection _) => false
  | act (.closeConnection _) => false
  | _ => true

abbrev ClientAnswer : ClientQuestion → Type
  | .act a => a.Answer
  | .listCreate => Bool
  | .malloc _ => Bool
  | .realpath _ => Option Path
  | .fopen _ => Bool
  | .stat _ => Option Nat
  | .fread _ size => Option { data : Bytes // data.length = size }
  | .directory _ => DirectoryCalls × Entries
  | .create _ => Bool

abbrev ClientProgram := Dialogue ClientAnswer ParseState

namespace ClientMain

open Dialogue

/-! ### `execute_action` -/

def inquire (q : ClientQuestion) : ClientProgram (ClientAnswer q) := question q

def act (a : Act) : ClientProgram a.Answer := inquire (.act a)

def say (text : String) : ClientProgram Unit := modify fun s => s.say text

/-- `perror`, without the text for `errno`. -/
def perror (text : String) : ClientProgram Unit := say text

def complainUnless (result : Int) (text : String) : ClientProgram Unit :=
  if result ≠ 0 then say text else pure ()

def displayIfVerbose : ClientProgram Unit := do
  let s ← get
  if s.verbose then act .displayRequestResult else pure ()

def waitAfter (action : ClientAction) : ClientProgram Unit :=
  if action.waitTime ≠ 0 then do
    let _ ← act (.msleep action.waitTime)
    pure ()
  else pure ()

/-- The loop over the paths in the arguments, with what `strtok` keeps. -/
def forEachPath (request : Path → ClientProgram Unit) (action : ClientAction) :
    Nat → Path → ClientProgram Unit
  | 0, _ => .crash
  | fuel + 1, kept =>
    match strtok 44 kept with
    | (none, _) => pure ()
    | (some filePath, kept) => do
      request filePath
      waitAfter action
      forEachPath request action fuel kept

def forPaths (request : Path → ClientProgram Unit) (action : ClientAction) : ClientProgram Int := do
  forEachPath request action (action.arguments.length + 1) action.arguments
  pure 0

/-- The copy of the directory's name, which some cases begin with. -/
def copyDirectory (action : ClientAction) : ClientProgram Bool :=
  match action.directory with
  | none => pure true
  | some directory => inquire (.malloc (directory.length + 1))

def requestWrite (action : ClientAction) (filePath : Option Path) : ClientProgram Unit := do
  let _ ← act (.writeFile filePath action.directory)
  displayIfVerbose

def executeWrite (action : ClientAction) : ClientProgram Int := do
  if ← copyDirectory action then forPaths (fun filePath => requestWrite action (some filePath)) action
  else pure (-1)

/-- The case `APPEND` from the call of `fopen` on. -/
def appendContents (action : ClientAction) (filePath absolutePath : Option Path) :
    ClientProgram Int := do
  if ← inquire (.fopen absolutePath) then do
    match ← inquire (.stat absolutePath) with
    | none => do
      perror "stat()"
      pure (-1)
    | some fileSize => do
      if ← inquire (.malloc fileSize) then do
        match ← inquire (.fread absolutePath fileSize) with
        | none => do
          perror "fread()"
          pure (-1)
        | some fileData => do
          let _ ← act (.appendToFile filePath fileData.1 action.directory)
          displayIfVerbose
          waitAfter action
          pure 0
      else pure (-1)
  -- the case ends with a break here, and the action counts as executed
  else do
    perror "fopen()"
    pure 0

def executeAppend (action : ClientAction) : ClientProgram Int := do
  if ← copyDirectory action then do
    let first := strtok 44 action.arguments
    let second := strtok 44 first.2
    let absolutePath ← inquire (.realpath second.1)
    appendContents action first.1 absolutePath
  else pure (-1)

/-- The loop over the files of a directory. -/
def writeAll (action : ClientAction) : Nat → LinkedList Path → ClientProgram Unit
  | 0, _ => .crash
  | fuel + 1, filesList =>
    if listIsEmpty filesList then pure ()
    else
      match listRemoveHead filesList with
      | some (.element path _, filesList) => do
        requestWrite action path
        waitAfter action
        writeAll action fuel filesList
      | _ => .crash

/-- The case `WRITE_DIR` from the call of `get_files_from_directory` on. -/
def writeDirectory (action : ClientAction) (dir : Path) (howMany : Int) : ClientProgram Int := do
  let found ← inquire (.directory dir)
  match getFilesFromDirectory found.1 dir found.2 howMany listCreate with
  | none => .crash
  | some (result, _, filesList) =>
    if result ≠ 0 then do
      say "Could not read files from directory\n"
      pure (-1)
    else do
      writeAll action filesList.steps filesList
      pure 0

def executeWriteDir (action : ClientAction) : ClientProgram Int := do
  if ← copyDirectory action then do
    let first := strtok 44 action.arguments
    let absoluteDirname ← inquire (.realpath first.1)
    let number := isNumber (strtok 32 first.2).1
    if number.1 ≠ 0 then do
      say "Write directory expects a number\n"
      pure (-1)
    else
      match number.2, absoluteDirname with
      | some n, some dir => writeDirectory action dir (toInt n)
      -- opendir follows the null pointer
      | _, _ => .crash
  else pure (-1)

/-- A round of the case `READ`. -/
def requestRead (action : ClientAction) (filePath : Path) : ClientProgram Unit := do
  let (readBuffer, bufferSize) ← act (.readFile filePath)
  displayIfVerbose
  match action.directory with
  | none => pure ()
  | some dirname => do
    let opens ← inquire (.create (localPath dirname filePath))
    match (⟨readBuffer, bufferSize, opens⟩ : ReadRound).store dirname filePath with
    | none => .crash
    | some none => pure ()
    | some (some file) => act (.save file)

def executeReadPaths (action : ClientAction) : ClientProgram Int := do
  if ← copyDirectory action then forPaths (requestRead action) action
  else pure (-1)

def executeReadN (action : ClientAction) : ClientProgram Int := do
  let _ ← act (.readNFiles (atoi action.arguments) action.directory)
  displayIfVerbose
  pure 0

/-- The cases of the requests that have a path and nothing else. -/
def executeEach (call : Path → ClientProgram Int) (action : ClientAction) : ClientProgram Int :=
  forPaths (fun filePath => do
    let _ ← call filePath
    displayIfVerbose) action

def executeAction : Option ClientAction → ClientProgram Int
  | none => pure (-1)
  | some action =>
    match action.code with
    | .write => executeWrite action
    | .append => executeAppend action
    | .writeDir => executeWriteDir action
    | .read => executeReadPaths action
    | .readN => executeReadN action
    | .lock => executeEach (fun filePath => act (.lockFile filePath)) action
    | .unlock => executeEach (fun filePath => act (.unlockFile filePath)) action
    | .remove => executeEach (fun filePath => act (.removeFile filePath)) action

/-! ### `main` -/

/-- `DEFAULT_SOCKET_PATH`. -/
def defaultSocketPath : Path := ascii "/tmp/LSO_socket.sk"

/-- The loop over the actions. -/
def executeAll : Nat → LinkedList ClientAction → ClientProgram Unit
  | 0, _ => .crash
  | fuel + 1, actionList =>
    if listIsEmpty actionList then pure ()
    else
      match listRemoveHead actionList with
      | some (.element currentAction _, actionList) => do
        let result ← executeAction currentAction
        complainUnless result "Could not execute request\n"
        -- free_action follows the pointer
        if currentAction.isNone then .crash else executeAll fuel actionList
      | _ => .crash

/-- The path to connect to; where none is given, the default one, whose copy is not checked. -/
def chooseSocketPath : ClientProgram Path := do
  let s ← get
  match s.socketPath with
  | some socketPath => pure socketPath
  | none => do
    if ← inquire (.malloc (defaultSocketPath.length + 1)) then do
      modify fun s => { s with socketPath := some defaultSocketPath }
      pure defaultSocketPath
    else .crash

/-- What `main` does with a connection. -/
def serveActions (socketPath : Path) : ClientProgram Int := do
  if (← act (.openConnection socketPath)) ≠ 0 then do
    perror "openConnection()"
    pure 1
  else do
    let s ← get
    executeAll s.actionList.steps s.actionList
    let result ← act (.closeConnection socketPath)
    complainUnless result "Connection could not be closed\n"
    pure 0

/-- `main`, for what `getopt` yields of the command line, with the exit status that it returns. -/
def clientMain (argc : Nat) (rounds : List OptionRound) : ClientProgram Int := do
  if argc < 2 then do
    say "client program requires at least one argument, rerun with -h for usage\n"
    pure 1
  else if ← inquire .listCreate then do
    let s ← get
    match parseOptionsInList rounds s with
    | none => .crash
    | some (result, s) => do
      modify fun _ => s
      if result = -1 then do
        say "could not parse client options"
        pure 1
      else if result = 1 then pure 0
      else do
        let socketPath ← chooseSocketPath
        serveActions socketPath
  else do
    say "request list could not be initialized, exiting\n"
    pure 1

/-! ### What the options mean for a run -/

/-- The system that the program runs on. What it makes of an act may depend on all that has been done
before. -/
structure Surroundings where
  act : (a : Act) → List Act → a.Answer
  listCreate : Bool
  malloc : Nat → Bool
  realpath : Option Path → Option Path
  fopen : Option Path → Bool
  stat : Option Path → Option Nat
  fread : Option Path → (size : Nat) → Option { data : Bytes // data.length = size }
  directory : Path → DirectoryCalls × Entries
  create : Path → Bool

namespace Surroundings

def answer (e : Surroundings) : (q : ClientQuestion) → List Act → Option (ClientAnswer q × List Act)
  | .act a, log => some (e.act a log, log ++ [a])
  | .listCreate, log => some (e.listCreate, log)
  | .malloc size, log => some (e.malloc size, log)
  | .realpath path, log => some (e.realpath path, log)
  | .fopen path, log => some (e.fopen path, log)
  | .stat path, log => some (e.stat path, log)
  | .fread path size, log => some (e.fread path size, log)
  | .directory path, log => some (e.directory path, log)
  | .create path, log => some (e.create path, log)

/-- Whether the copy of the directory's name succeeds. -/
def hasRoom (e : Surroundings) (action : ClientAction) : Bool :=
  action.directory.all fun directory => e.malloc (directory.length + 1)

/-- The contents to append, where they can be read. -/
def appended (e : Surroundings) (path : Option Path) : Option Bytes :=
  if e.fopen path then
    (e.stat path).bind fun size =>
      if e.malloc size then (e.fread path size).map Subtype.val else none
  else none

/-- The files of a directory that a number of files allows. -/
def listed (e : Surroundings) (dir : Path) (howMany : Int) : List Path :=
  (allotted howMany (regularFiles dir (e.directory dir).2)).filterMap (e.directory dir).1.realpath

end Surroundings

/-- A call, with the result that is shown. -/
def shown (verbose : Bool) (a : Act) : List Act := a :: if verbose then [.displayRequestResult] else []

def pauseOf (action : ClientAction) : List Act :=
  if action.waitTime ≠ 0 then [.msleep action.waitTime] else []

/-- A call and a pause for each path. -/
def eachOf (verbose : Bool) (action : ClientAction) (call : Path → Act) (paths : List Path) : List Act :=
  paths.flatMap fun path => shown verbose (call path) ++ pauseOf action

/-- What an action comes to. -/
def Surroundings.callsOf (e : Surroundings) (verbose : Bool) (action : ClientAction) : List Act :=
  let paths := tokens 44 action.arguments
  match action.code with
  | .write =>
    if e.hasRoom action then
      eachOf verbose action (fun path => .writeFile (some path) action.directory) paths
    else []
  | .append =>
    if e.hasRoom action then
      (e.appended (e.realpath paths[1]?)).elim [] fun contents =>
        shown verbose (.appendToFile paths.head? contents action.directory) ++ pauseOf action
    else []
  | .writeDir =>
    if e.hasRoom action then
      match (isNumber (strtok 32 (strtok 44 action.arguments).2).1).2, e.realpath paths.head? with
      | some n, some dir =>
        eachOf verbose action (fun path => .writeFile (some path) action.directory)
          (e.listed dir (toInt n))
      | _, _ => []
    else []
  | .read => if e.hasRoom action then eachOf verbose action .readFile paths else []
  | .readN => shown verbose (.readNFiles (atoi action.arguments) action.directory)
  | .lock => eachOf verbose action .lockFile paths
  | .unlock => eachOf verbose action .unlockFile paths
  | .remove => eachOf verbose action .removeFile paths

def Act.isCall : Act → Bool
  | .save _ => false
  | _ => true

/-- What is left of a log without the files on the client's disk. -/
def callsIn (log : List Act) : List Act := log.filter Act.isCall

/-- The number that `-w` gives, 0 where there is none. -/
def directoryBudget (action : ClientAction) : Option Int :=
  (isNumber (strtok 32 (strtok 44 action.arguments).2).1).2.map toInt

/-- Nothing in the surroundings makes these actions fault, as long as the calls are these. Where a
file that is read is to be stored, no failed read leaves a buffer out, and where a directory is to be
written, it is there and every call of its walk succeeds. -/
structure Surroundings.Bears (e : Surroundings) (actions : List ClientAction) (calls : List Act) :
    Prop where
  stores : ∀ action ∈ actions, action.code = .read → ∀ dirname ∈ action.directory,
    ∀ filePath ∈ tokens 44 action.arguments, ∀ log, callsIn log ++ [.readFile filePath] <+: calls →
      ReadRound.store ⟨(e.act (.readFile filePath) log).1, (e.act (.readFile filePath) log).2,
        e.create (localPath dirname filePath)⟩ dirname filePath ≠ none
  walks : ∀ action ∈ actions, action.code = .writeDir → e.hasRoom action = true →
    (directoryBudget action).isSome = true → ∃ dir resolve,
      e.realpath (tokens 44 action.arguments).head? = some dir ∧ (e.directory dir).1.Succeed resolve

/-- Within these calls, the program does not fault and makes those of `l`. -/
def Does {α : Type} (e : Surroundings) (verbose : Bool) (calls : List Act) (x : ClientProgram α)
    (l : List Act) : Prop :=
  x.Emits e.answer (fun s => s.verbose = verbose) callsIn calls l

section Calls

variable {e : Surroundings} {verbose : Bool} {α : Type} {action : ClientAction} {calls l : List Act}
  {actions : List ClientAction}

theorem callsIn_append (log log' : List Act) : callsIn (log ++ log') = callsIn log ++ callsIn log' :=
  List.filter_append ..

theorem does_say (text : String) : Does e verbose calls (say text) [] := emits_modify fun _ hs => hs

theorem does_complainUnless (result : Int) (text : String) :
    Does e verbose calls (complainUnless result text) [] :=
  Emits.ite (fun _ => does_say text) fun _ => emits_pure ()

theorem does_act (a : Act) : Does e verbose calls (act a) (callsIn [a]) := by
  intro s log hs _
  refine ⟨(e.act a log, s, log ++ [a]), rfl, hs, ?_⟩
  exact callsIn_append log [a]

theorem does_displayIfVerbose :
    Does e verbose calls displayIfVerbose (if verbose then [.displayRequestResult] else []) := by
  refine Emits.get fun s hs => ?_
  rw [hs]
  cases verbose with
  | true => exact does_act .displayRequestResult
  | false => exact emits_pure ()

theorem does_known {q : ClientQuestion} {x : ClientAnswer q} {g : ClientAnswer q → ClientProgram α}
    (hq : ∀ log, e.answer q log = some (x, log)) (hg : Does e verbose calls (g x) l) :
    Does e verbose calls (inquire q >>= g) l :=
  Emits.known hq hg

theorem does_ask {q : ClientQuestion} {g : ClientAnswer q → ClientProgram α} {l' : List Act}
    (R : ClientAnswer q → Prop)
    (hq : ∀ log, callsIn log ++ l <+: calls → ∃ x log', e.answer q log = some (x, log') ∧ R x ∧
      callsIn log' = callsIn log ++ l)
    (hg : ∀ x, R x → Does e verbose calls (g x) l') : Does e verbose calls (inquire q >>= g) (l ++ l') :=
  Emits.ask R hq hg

theorem does_call {a : Act} (ha : callsIn [a] = [a]) : Does e verbose calls (act a) [a] := by
  have h : Does e verbose calls (act a) (callsIn [a]) := does_act a
  rwa [ha] at h

/-- A call and its result. -/
theorem does_shown {a : Act} (ha : callsIn [a] = [a]) :
    Does e verbose calls (act a >>= fun _ => displayIfVerbose) (shown verbose a) :=
  Emits.bind (does_call ha) fun _ => does_displayIfVerbose

theorem does_waitAfter (action : ClientAction) : Does e verbose calls (waitAfter action) (pauseOf action) := by
  rw [waitAfter, pauseOf]
  split
  · exact Emits.before (does_act (.msleep action.waitTime)) fun _ => emits_pure ()
  · exact emits_pure ()

theorem does_copyDirectory {g : Bool → ClientProgram α}
    (hg : Does e verbose calls (g (e.hasRoom action)) l) :
    Does e verbose calls (copyDirectory action >>= g) l := by
  rw [copyDirectory]
  cases hd : action.directory with
  | none =>
    have hroom : e.hasRoom action = true := by simp [Surroundings.hasRoom, hd]
    rw [hroom] at hg
    exact hg
  | some directory =>
    have hroom : e.hasRoom action = e.malloc (directory.length + 1) := by
      simp [Surroundings.hasRoom, hd]
    rw [hroom] at hg
    exact does_known (fun _ => rfl) hg

/-- The loop over the paths, by induction on what `strtok` still keeps. -/
theorem does_forEachPath {request : Path → ClientProgram Unit} {call : Path → Act} {fuel : Nat}
    {kept : Path} (hrequest : ∀ path ∈ tokens 44 kept,
      Does e verbose calls (request path) (shown verbose (call path))) (hf : kept.length < fuel) :
    Does e verbose calls (forEachPath request action fuel kept)
      (eachOf verbose action call (tokens 44 kept)) := by
  induction fuel generalizing kept with
  | zero => omega
  | succ fuel ih =>
    obtain ⟨hhead, htail⟩ := strtok_tokens 44 kept
    have hshorter : (strtok 44 kept).1 ≠ none → (strtok 44 kept).2.length < kept.length := length_strtok
    rw [forEachPath]
    generalize strtok 44 kept = found at hhead htail hshorter ⊢
    obtain ⟨token, rest⟩ := found
    cases token with
    | none =>
      have hnil : tokens 44 kept = [] := List.head?_eq_none_iff.mp hhead.symm
      rw [hnil]
      exact emits_pure ()
    | some filePath =>
      have hcons : tokens 44 kept = filePath :: tokens 44 rest := by
        rw [htail]
        exact List.eq_cons_of_mem_head? hhead.symm
      have hlen : rest.length < kept.length := hshorter (by simp)
      rw [hcons] at hrequest
      have hstep : Does e verbose calls (forEachPath request action fuel rest)
          (eachOf verbose action call (tokens 44 rest)) :=
        ih (fun path hpath => hrequest path (List.mem_cons_of_mem _ hpath)) (by omega)
      rw [hcons, eachOf, List.flatMap_cons, List.append_assoc]
      exact Emits.bind (hrequest filePath List.mem_cons_self) fun _ =>
        Emits.bind (does_waitAfter action) fun _ => hstep

theorem does_forPaths {request : Path → ClientProgram Unit} {call : Path → Act}
    (hrequest : ∀ path ∈ tokens 44 action.arguments,
      Does e verbose calls (request path) (shown verbose (call path))) :
    Does e verbose calls (forPaths request action)
      (eachOf verbose action call (tokens 44 action.arguments)) :=
  Emits.before (does_forEachPath hrequest (Nat.lt_succ_self _)) fun _ => emits_pure 0

theorem does_requestWrite (path : Option Path) :
    Does e verbose calls (requestWrite action path) (shown verbose (.writeFile path action.directory)) :=
  does_shown rfl

theorem does_requestRead (he : e.Bears actions calls) (ha : action ∈ actions)
    (hcode : action.code = .read) {filePath : Path} (hpath : filePath ∈ tokens 44 action.arguments) :
    Does e verbose calls (requestRead action filePath) (shown verbose (.readFile filePath)) := by
  let buffered (read : Option Bytes × Nat) : Prop := ∀ dirname ∈ action.directory,
    ReadRound.store ⟨read.1, read.2, e.create (localPath dirname filePath)⟩ dirname filePath ≠ none
  have hread : ∀ log, callsIn log ++ [.readFile filePath] <+: calls → ∃ read log',
      e.answer (.act (.readFile filePath)) log = some (read, log') ∧ buffered read ∧
        callsIn log' = callsIn log ++ [.readFile filePath] := by
    intro log hlog
    refine ⟨_, _, rfl, fun dirname hd => ?_, callsIn_append log _⟩
    exact he.stores action ha hcode dirname hd filePath hpath log hlog
  refine does_ask (q := .act (.readFile filePath)) buffered hread fun read hstore =>
    Emits.before does_displayIfVerbose fun _ => ?_
  cases hd : action.directory with
  | none => exact emits_pure ()
  | some dirname =>
    have hsome := hstore dirname hd
    refine does_known (fun _ => rfl) ?_
    generalize ReadRound.store ⟨read.1, read.2, e.create (localPath dirname filePath)⟩ dirname filePath =
      stored at hsome
    cases stored with
    | none => exact absurd rfl hsome
    | some saved =>
      cases saved with
      | none => exact emits_pure ()
      | some file => exact does_act (.save file)

theorem does_appendContents (filePath absolutePath : Option Path) :
    Does e verbose calls (appendContents action filePath absolutePath)
      ((e.appended absolutePath).elim [] fun contents =>
        shown verbose (.appendToFile filePath contents action.directory) ++ pauseOf action) := by
  refine does_known (fun _ => rfl) ?_
  rw [Surroundings.appended]
  cases e.fopen absolutePath with
  | false => exact Emits.after (does_say "fopen()") fun _ => emits_pure 0
  | true =>
    refine does_known (fun _ => rfl) ?_
    cases e.stat absolutePath with
    | none => exact Emits.after (does_say "stat()") fun _ => emits_pure (-1)
    | some fileSize =>
      refine does_known (fun _ => rfl) ?_
      rw [if_pos rfl, Option.bind_some]
      cases e.malloc fileSize with
      | false => exact emits_pure (-1)
      | true =>
        refine does_known (fun _ => rfl) ?_
        rw [if_pos rfl]
        cases e.fread absolutePath fileSize with
        | none => exact Emits.after (does_say "fread()") fun _ => emits_pure (-1)
        | some fileData =>
          rw [Option.map_some, Option.elim_some, shown, List.cons_append]
          refine Emits.bind (does_call rfl) fun _ => Emits.bind does_displayIfVerbose fun _ => ?_
          exact Emits.before (does_waitAfter action) fun _ => emits_pure 0

theorem does_executeAppend : Does e verbose calls (executeAppend action) (if e.hasRoom action then
      (e.appended (e.realpath (tokens 44 action.arguments)[1]?)).elim [] fun contents =>
        shown verbose (.appendToFile (tokens 44 action.arguments).head? contents action.directory) ++
          pauseOf action
    else []) := by
  obtain ⟨hhead, htail⟩ := strtok_tokens 44 action.arguments
  obtain ⟨hnext, -⟩ := strtok_tokens 44 (strtok 44 action.arguments).2
  have hsource : (strtok 44 (strtok 44 action.arguments).2).1 = (tokens 44 action.arguments)[1]? := by
    rw [hnext, htail]
    cases tokens 44 action.arguments with
    | nil => rfl
    | cons token rest => exact List.head?_eq_getElem?
  rw [← hsource, ← hhead]
  refine does_copyDirectory ?_
  cases e.hasRoom action with
  | false => exact emits_pure (-1)
  | true => exact does_known (fun _ => rfl) (does_appendContents _ _)

/-- The loop over a list of files, by induction on what is left in it. -/
theorem does_writeAll {fuel : Nat} {filesList : LinkedList Path} {c : List (Addr × Path)}
    (he : filesList.Exact c) (hf : c.length < fuel) :
    Does e verbose calls (writeAll action fuel filesList)
      (eachOf verbose action (fun path => .writeFile (some path) action.directory) (c.map Prod.snd)) := by
  induction fuel generalizing filesList c with
  | zero => omega
  | succ fuel ih =>
    rw [writeAll]
    cases c with
    | nil =>
      rw [LinkedList.listIsEmpty_nil he.linked]
      exact emits_pure ()
    | cons cell c =>
      obtain ⟨a, path⟩ := cell
      obtain ⟨rest, hr, hrest⟩ := LinkedList.exact_removeHead he
      have hlen : c.length < fuel := by
        rw [List.length_cons] at hf
        omega
      rw [LinkedList.listIsEmpty_cons he.linked, hr, List.map_cons, eachOf, List.flatMap_cons,
        List.append_assoc]
      exact Emits.bind (does_requestWrite (some path)) fun _ =>
        Emits.bind (does_waitAfter action) fun _ => ih hrest hlen

theorem does_writeDirectory {dir : Path} {resolve : Path → Path}
    (hs : (e.directory dir).1.Succeed resolve) (howMany : Int) :
    Does e verbose calls (writeDirectory action dir howMany)
      (eachOf verbose action (fun path => .writeFile (some path) action.directory)
        (e.listed dir howMany)) := by
  obtain ⟨filesList, c, left, hr, hlist, hc⟩ := getFilesFromDirectory_allotted hs (e.directory dir).2 dir
    howMany (LinkedList.exact_create)
  have hlisted : e.listed dir howMany = c.map Prod.snd := by
    rw [hc, Surroundings.listed, List.map_nil, List.nil_append, ← List.filterMap_eq_map]
    exact List.filterMap_congr fun path _ => hs.realpath path
  have hsteps : c.length < filesList.steps := Nat.lt_succ_of_le hlist.chain.length_le
  refine does_known (fun _ => rfl) ?_
  rw [hr, hlisted]
  exact Emits.before (does_writeAll hlist hsteps) fun _ => emits_pure 0

theorem isNumber_cases (s : Option Path) :
    (∃ n, isNumber s = (0, some n)) ∨ ∃ result, isNumber s = (result, none) ∧ result ≠ 0 := by
  cases s with
  | none => exact .inr ⟨1, rfl, by simp⟩
  | some s =>
    rw [isNumber]
    split
    · exact .inr ⟨1, rfl, by simp⟩
    · split
      · exact .inr ⟨2, rfl, by simp⟩
      · split
        · exact .inl ⟨_, rfl⟩
        · exact .inr ⟨1, rfl, by simp⟩

theorem does_executeWriteDir (he : e.Bears actions calls) (ha : action ∈ actions)
    (hcode : action.code = .writeDir) :
    Does e verbose calls (executeWriteDir action) (e.callsOf verbose action) := by
  have hwalks := he.walks action ha hcode
  rw [directoryBudget] at hwalks
  rw [Surroundings.callsOf, hcode, ← (strtok_tokens 44 action.arguments).1] at *
  refine does_copyDirectory ?_
  cases hroom : e.hasRoom action with
  | false => exact emits_pure (-1)
  | true =>
    refine does_known (fun _ => rfl) ?_
    rcases isNumber_cases (strtok 32 (strtok 44 action.arguments).2).1 with ⟨n, hn⟩ | ⟨result, hn, hne⟩
    · obtain ⟨dir, resolve, hdir, hs⟩ := hwalks hroom (by rw [hn]; rfl)
      rw [hn, hdir]
      exact does_writeDirectory hs (toInt n)
    · rw [hn]
      dsimp only
      rw [if_pos hne]
      exact Emits.after (does_say "Write directory expects a number\n") fun _ => emits_pure (-1)

theorem does_executeEach {call : Path → Act} (hcall : ∀ path, callsIn [call path] = [call path])
    {request : Path → ClientProgram Unit}
    (hrequest : ∀ path, request path = (act (call path) >>= fun _ => displayIfVerbose)) :
    Does e verbose calls (forPaths request action) (eachOf verbose action call (tokens 44 action.arguments)) :=
  does_forPaths fun path _ => by
    rw [hrequest path]
    exact does_shown (hcall path)

theorem does_executeAction (he : e.Bears actions calls) (ha : action ∈ actions) :
    Does e verbose calls (executeAction (some action)) (e.callsOf verbose action) := by
  rw [executeAction]
  cases hcode : action.code with
  | write =>
    rw [Surroundings.callsOf, hcode]
    refine does_copyDirectory ?_
    cases e.hasRoom action with
    | false => exact emits_pure (-1)
    | true => exact does_forPaths fun path _ => does_requestWrite (some path)
  | append =>
    rw [Surroundings.callsOf, hcode]
    exact does_executeAppend
  | writeDir => exact does_executeWriteDir he ha hcode
  | read =>
    rw [Surroundings.callsOf, hcode]
    refine does_copyDirectory ?_
    cases e.hasRoom action with
    | false => exact emits_pure (-1)
    | true => exact does_forPaths fun path hpath => does_requestRead he ha hcode hpath
  | readN =>
    rw [Surroundings.callsOf, hcode]
    exact Emits.bind (does_call rfl) fun _ => Emits.before does_displayIfVerbose fun _ => emits_pure 0
  | lock =>
    rw [Surroundings.callsOf, hcode]
    exact does_executeEach (fun _ => rfl) fun _ => rfl
  | unlock =>
    rw [Surroundings.callsOf, hcode]
    exact does_executeEach (fun _ => rfl) fun _ => rfl
  | remove =>
    rw [Surroundings.callsOf, hcode]
    exact does_executeEach (fun _ => rfl) fun _ => rfl

/-- The loop over the actions, by induction on those left. -/
theorem does_executeAll (he : e.Bears actions calls) {fuel : Nat}
    {actionList : LinkedList ClientAction} {c : List (Addr × ClientAction)}
    (hl : actionList.Exact c) (hc : ∀ cell ∈ c, cell.2 ∈ actions) (hf : c.length < fuel) :
    Does e verbose calls (executeAll fuel actionList) ((c.map Prod.snd).flatMap (e.callsOf verbose)) := by
  induction fuel generalizing actionList c with
  | zero => omega
  | succ fuel ih =>
    rw [executeAll]
    cases c with
    | nil =>
      rw [LinkedList.listIsEmpty_nil hl.linked]
      exact emits_pure ()
    | cons cell c =>
      obtain ⟨a, action⟩ := cell
      obtain ⟨rest, hr, hrest⟩ := LinkedList.exact_removeHead hl
      have hlen : c.length < fuel := by
        rw [List.length_cons] at hf
        omega
      have hmem : action ∈ actions := hc (a, action) List.mem_cons_self
      rw [LinkedList.listIsEmpty_cons hl.linked, hr, List.map_cons, List.flatMap_cons]
      exact Emits.bind (does_executeAction he hmem) fun result =>
        Emits.after (does_complainUnless result _) fun _ =>
          ih hrest (fun cell hcell => hc cell (List.mem_cons_of_mem _ hcell)) hlen

end Calls

/-- The path that the client connects to. -/
def socketPathOf (rounds : List OptionRound) : Path := (socketOf rounds).getD defaultSocketPath

/-- What the options come to once a connection is open. -/
def Surroundings.callsFor (e : Surroundings) (rounds : List OptionRound) : List Act :=
  .openConnection (socketPathOf rounds) ::
    (actionsOf rounds).flatMap (e.callsOf (verboseOf rounds)) ++ [.closeConnection (socketPathOf rounds)]

section Main

variable {e : Surroundings} {argc : Nat} {rounds : List OptionRound} {s : ParseState}

theorem meets_inquire {q : ClientQuestion} {x : ClientAnswer q} {log log' : List Act}
    {P : ClientAnswer q → ParseState → List Act → Prop} (h : e.answer q log = some (x, log')) :
    (inquire q).Meets e.answer P s log ↔ P x s log' := meets_question h

theorem meets_chooseSocketPath (hs : s.socketPath = socketOf rounds)
    (hcopy : socketOf rounds = none → e.malloc (defaultSocketPath.length + 1) = true) (log : List Act) :
    chooseSocketPath.Meets e.answer (fun socketPath s' log' => socketPath = socketPathOf rounds ∧
      s'.verbose = s.verbose ∧ s'.actionList = s.actionList ∧ log' = log) s log := by
  rw [chooseSocketPath, meets_bind, meets_get, hs, socketPathOf]
  cases hsocket : socketOf rounds with
  | some socketPath =>
    rw [meets_pure]
    exact ⟨rfl, rfl, rfl, rfl⟩
  | none =>
    have hroom : e.answer (.malloc (defaultSocketPath.length + 1)) log = some (true, log) := by
      rw [Surroundings.answer, hcopy hsocket]
    dsimp only
    rw [meets_bind, meets_inquire hroom, if_pos rfl, meets_bind, meets_modify, meets_pure]
    exact ⟨rfl, rfl, rfl, rfl⟩

theorem meets_serveActions (he : e.Bears (actionsOf rounds) (e.callsFor rounds))
    (hs : s.Holds (actionsOf rounds)) (hv : s.verbose = verboseOf rounds) {socketPath : Path}
    (hpath : socketPath = socketPathOf rounds) :
    (serveActions socketPath).Meets e.answer (fun result _ log =>
      (e.act (.openConnection socketPath) [] = 0 → result = 0 ∧ callsIn log = e.callsFor rounds) ∧
      (e.act (.openConnection socketPath) [] ≠ 0 → result = 1 ∧ log = [.openConnection socketPath])) s [] := by
  obtain ⟨c, hlist, hc⟩ := hs
  have hsteps : c.length < s.actionList.steps := Nat.lt_succ_of_le hlist.chain.length_le
  have hall : Does e (verboseOf rounds) (e.callsFor rounds) (executeAll s.actionList.steps s.actionList)
      ((actionsOf rounds).flatMap (e.callsOf (verboseOf rounds))) := by
    rw [← hc]
    exact does_executeAll he hlist (fun cell hcell => hc ▸ List.mem_map_of_mem hcell) hsteps
  have hopen : e.answer (.act (.openConnection socketPath)) [] =
      some (e.act (.openConnection socketPath) [], [.openConnection socketPath]) := rfl
  have hbegin : callsIn [.openConnection socketPath] ++
      (actionsOf rounds).flatMap (e.callsOf (verboseOf rounds)) <+: e.callsFor rounds := by
    rw [Surroundings.callsFor, ← hpath]
    exact List.prefix_append _ _
  rw [serveActions, meets_bind, act, meets_inquire hopen]
  by_cases hresult : e.act (.openConnection socketPath) [] = 0
  · obtain ⟨r, hr, hv, hcalls⟩ := hall s [.openConnection socketPath] hv hbegin
    have hclose : e.answer (.act (.closeConnection socketPath)) r.2.2 = some
      (e.act (.closeConnection socketPath) r.2.2, r.2.2 ++ [.closeConnection socketPath]) := rfl
    rw [if_neg (not_not.mpr hresult), meets_bind, meets_get, meets_bind]
    refine ⟨r, hr, ?_⟩
    dsimp only
    rw [meets_bind, act, meets_inquire hclose, meets_bind]
    obtain ⟨r', hr', -, hcalls'⟩ := does_complainUnless (e.act (.closeConnection socketPath) r.2.2)
      "Connection could not be closed\n" r.2.1 (r.2.2 ++ [.closeConnection socketPath]) hv
      List.prefix_rfl
    refine ⟨r', hr', ?_⟩
    dsimp only
    rw [meets_pure]
    refine ⟨fun _ => ⟨rfl, ?_⟩, fun h => absurd hresult h⟩
    rw [hcalls', callsIn_append, hcalls, List.append_nil, Surroundings.callsFor, ← hpath]
    rfl
  · rw [if_pos hresult]
    exact ⟨(1, s.say "openConnection()", [.openConnection socketPath]), rfl,
      fun h => absurd h hresult, fun _ => ⟨rfl, rfl⟩⟩

/-- Nothing but `openConnection` succeeds. -/
def onlyOpens : (a : Act) → a.Answer
  | .openConnection _ => (0 : Int)
  | .closeConnection _ | .writeFile _ _ | .appendToFile _ _ _ | .readNFiles _ _ | .lockFile _
  | .unlockFile _ | .removeFile _ | .msleep _ => (-1 : Int)
  | .readFile _ => (none, 0)
  | .displayRequestResult | .save _ => ()

/-- Every directory has two files, and no other file can be read. -/
def oneDirectory : Surroundings where
  act a _ := onlyOpens a
  listCreate := true
  malloc _ := true
  realpath path := path
  fopen _ := false
  stat _ := none
  fread _ _ := none
  directory _ := (⟨fun _ => true, fun _ => true, some, fun _ => true, some nextAddress⟩,
    .file [46] (.file (ascii "x") (.file (ascii "y") .nil)))
  create _ := true

/-- `-t 1 -w /d,1 -t 5 -p -r a,b -a a,none -u a`. -/
def sevenOptions : List OptionRound :=
  [.plain .t (ascii "1"), .plain .w (ascii "/d,1"), .plain .t (ascii "5"), .plain .p [],
    .plain .r (ascii "a,b"), .plain .a (ascii "a,none"), .plain .u (ascii "a")]

end Main

/-! ### Runs on any system -/

def actsIn (t : List (Sigma ClientAnswer)) : List Act := t.filterMap fun x => x.1.asAct

section Runs

variable {α : Type} {s s' : ParseState} {t : List (Sigma ClientAnswer)} {action : ClientAction}

abbrev Inner (x : ClientProgram α) : Prop := x.Asks fun q => q.isInner = true

theorem inner_inquire {q : ClientQuestion} (hq : q.isInner = true) {g : ClientAnswer q → ClientProgram α}
    (hg : ∀ x, Inner (g x)) : Inner (inquire q >>= g) := ⟨hq, hg⟩

theorem inner_displayIfVerbose : Inner displayIfVerbose :=
  Asks.get fun _ => Asks.ite ⟨rfl, fun _ => trivial⟩ trivial

theorem inner_waitAfter (action : ClientAction) : Inner (waitAfter action) :=
  Asks.ite ⟨rfl, fun _ => trivial⟩ trivial

theorem inner_complainUnless (result : Int) (text : String) : Inner (complainUnless result text) :=
  Asks.ite (fun _ => trivial) trivial

theorem inner_copyDirectory {g : Bool → ClientProgram α} (hg : ∀ x, Inner (g x)) :
    Inner (copyDirectory action >>= g) := by
  rw [copyDirectory]
  cases action.directory with
  | none => exact hg true
  | some directory => exact inner_inquire rfl hg

theorem inner_forEachPath {request : Path → ClientProgram Unit} (hr : ∀ path, Inner (request path))
    (fuel : Nat) (kept : Path) : Inner (forEachPath request action fuel kept) := by
  induction fuel generalizing kept with
  | zero => trivial
  | succ fuel ih =>
    rw [forEachPath]
    split
    · trivial
    · exact (hr _).bind fun _ => (inner_waitAfter action).bind fun _ => ih _

theorem inner_forPaths {request : Path → ClientProgram Unit} (hr : ∀ path, Inner (request path)) :
    Inner (forPaths request action) :=
  (inner_forEachPath hr _ _).bind fun _ => trivial

theorem inner_requestWrite (path : Option Path) : Inner (requestWrite action path) :=
  ⟨rfl, fun _ => inner_displayIfVerbose⟩

theorem inner_requestRead (path : Path) : Inner (requestRead action path) := by
  refine inner_inquire rfl fun read => inner_displayIfVerbose.bind fun _ => ?_
  split
  · trivial
  · refine inner_inquire rfl fun opens => ?_
    split
    · trivial
    · trivial
    · exact ⟨rfl, fun _ => trivial⟩

theorem inner_appendContents (filePath absolutePath : Option Path) :
    Inner (appendContents action filePath absolutePath) := by
  refine inner_inquire rfl fun opened => Asks.ite ?_ fun _ => trivial
  refine inner_inquire rfl fun size => ?_
  split
  · exact fun _ => trivial
  · refine inner_inquire rfl fun room => Asks.ite ?_ trivial
    refine inner_inquire rfl fun data => ?_
    split
    · exact fun _ => trivial
    · exact inner_inquire rfl fun _ => inner_displayIfVerbose.bind fun _ =>
        (inner_waitAfter action).bind fun _ => trivial

theorem inner_writeAll (fuel : Nat) (filesList : LinkedList Path) :
    Inner (writeAll action fuel filesList) := by
  induction fuel generalizing filesList with
  | zero => trivial
  | succ fuel ih =>
    refine Asks.ite trivial ?_
    split
    · exact (inner_requestWrite _).bind fun _ => (inner_waitAfter action).bind fun _ => ih _
    · trivial

theorem inner_executeWriteDir : Inner (executeWriteDir action) := by
  refine inner_copyDirectory fun room => Asks.ite ?_ trivial
  refine inner_inquire rfl fun dir => Asks.ite (fun _ => trivial) ?_
  split
  · refine inner_inquire rfl fun found => ?_
    split
    · trivial
    · exact Asks.ite (fun _ => trivial) ((inner_writeAll _ _).bind fun _ => trivial)
  · trivial

theorem inner_executeAction (action : Option ClientAction) : Inner (executeAction action) := by
  cases action with
  | none => trivial
  | some action =>
    rw [executeAction]
    cases action.code with
    | write =>
      exact inner_copyDirectory fun room =>
        Asks.ite (inner_forPaths fun path => inner_requestWrite (some path)) trivial
    | append =>
      exact inner_copyDirectory fun room =>
        Asks.ite (inner_inquire rfl fun path => inner_appendContents _ path) trivial
    | writeDir => exact inner_executeWriteDir
    | read => exact inner_copyDirectory fun room => Asks.ite (inner_forPaths inner_requestRead) trivial
    | readN => exact inner_inquire rfl fun _ => inner_displayIfVerbose.bind fun _ => trivial
    | lock | unlock | remove =>
      exact inner_forPaths fun path => inner_inquire rfl fun _ => inner_displayIfVerbose

theorem inner_executeAll (fuel : Nat) (actionList : LinkedList ClientAction) :
    Inner (executeAll fuel actionList) := by
  induction fuel generalizing actionList with
  | zero => trivial
  | succ fuel ih =>
    refine Asks.ite trivial ?_
    split
    · exact (inner_executeAction _).bind fun result =>
        (inner_complainUnless result _).bind fun _ => Asks.ite trivial (ih _)
    · trivial

abbrev Actless (x : ClientProgram α) : Prop := x.Asks fun q => q.asAct = none

theorem actsIn_append (t u : List (Sigma ClientAnswer)) : actsIn (t ++ u) = actsIn t ++ actsIn u :=
  List.filterMap_append

theorem actsIn_of_actless {x : ClientProgram α} {a : α} (hx : Actless x) (h : Runs x s t a s') :
    actsIn t = [] :=
  List.filterMap_eq_nil_iff.mpr (hx.runs h)

theorem actless_complainUnless (result : Int) (text : String) : Actless (complainUnless result text) :=
  Asks.ite (fun _ => trivial) trivial

theorem actless_chooseSocketPath : Actless chooseSocketPath := by
  refine Asks.get fun s => ?_
  split
  · trivial
  · exact ⟨rfl, fun room => Asks.ite (fun _ => trivial) trivial⟩

/-- What an act leaves in a run. -/
theorem runs_act {a : Act} {g : a.Answer → ClientProgram α} {b : α}
    (h : Runs (act a >>= g) s t b s') : ∃ x u, actsIn t = a :: actsIn u ∧ Runs (g x) s u b s' := by
  obtain ⟨x, u, rfl, hu⟩ := runs_question_bind.mp h
  exact ⟨x, u, rfl, hu⟩

theorem isInner_of_inner {x : ClientProgram α} {a : α} (hx : Inner x) (h : Runs x s t a s') :
    ∀ b ∈ actsIn t, (ClientQuestion.act b).isInner = true := by
  intro b hb
  obtain ⟨⟨q, y⟩, hy, hq⟩ := List.mem_filterMap.mp hb
  have hinner := hx.runs h _ hy
  cases q with
  | act a =>
    obtain rfl : a = b := Option.some.inj hq
    exact hinner
  | _ => cases hq

theorem runs_serveActions {socketPath : Path} {result : Int}
    (h : Runs (serveActions socketPath) s t result s') :
    result = 1 ∧ actsIn t = [.openConnection socketPath] ∨
      result = 0 ∧ ∃ acts, actsIn t = .openConnection socketPath :: acts ++ [.closeConnection socketPath] ∧
        ∀ a ∈ acts, (ClientQuestion.act a).isInner = true := by
  obtain ⟨opened, u, ht, hu⟩ := runs_act h
  rw [ht]
  split at hu
  · obtain ⟨_, v, r, v', rfl, hsay, hret⟩ := runs_bind.mp hu
    obtain ⟨rfl, -⟩ := runs_modify.mp hsay
    obtain ⟨rfl, rfl, -⟩ := runs_pure.mp hret
    exact .inl ⟨rfl, rfl⟩
  · obtain ⟨_, v, r, v', rfl, hall, hrest⟩ := runs_bind.mp (runs_get_bind.mp hu)
    obtain ⟨closed, w, hw, hrest⟩ := runs_act hrest
    obtain ⟨_, y, r', y', rfl, hcomplain, hret⟩ := runs_bind.mp hrest
    obtain ⟨rfl, rfl, -⟩ := runs_pure.mp hret
    have hquiet := actsIn_of_actless (actless_complainUnless closed _) hcomplain
    refine .inr ⟨rfl, actsIn v, ?_, isInner_of_inner (inner_executeAll _ _) hall⟩
    rw [actsIn_append, hw, List.append_nil, hquiet]
    rfl

/-- Whatever goes wrong, a run that returns has done nothing, or has failed to open its connection, or
has opened it once, done the rest while it was open, and closed it. -/
theorem clientMain_closes {argc : Nat} {rounds : List OptionRound} {result : Int}
    (h : Runs (clientMain argc rounds) s t result s') :
    actsIn t = [] ∨ ∃ socketPath,
      result = 1 ∧ actsIn t = [.openConnection socketPath] ∨
      result = 0 ∧ ∃ acts, actsIn t = .openConnection socketPath :: acts ++ [.closeConnection socketPath] ∧
        ∀ a ∈ acts, (ClientQuestion.act a).isInner = true := by
  have hsay : ∀ {u : List (Sigma ClientAnswer)} {r r' : ParseState} {text : String},
      Runs (say text >>= fun _ => pure 1) r u result r' → actsIn u = [] := by
    intro u r r' text hu
    exact actsIn_of_actless (show Actless (say text >>= fun _ => pure (1 : Int)) from fun _ => trivial) hu
  rw [clientMain] at h
  split at h
  · exact .inl (hsay h)
  obtain ⟨created, u, rfl, hu⟩ := runs_question_bind.mp h
  have hcreate : actsIn (⟨.listCreate, created⟩ :: u) = actsIn u := rfl
  rw [hcreate]
  split at hu
  · have hu := runs_get_bind.mp hu
    split at hu
    · exact absurd hu not_runs_crash
    · have hu := runs_modify_bind.mp hu
      split at hu
      · exact .inl (hsay hu)
      · split at hu
        · obtain ⟨rfl, -, -⟩ := runs_pure.mp hu
          exact .inl rfl
        · obtain ⟨socketPath, v, r, v', rfl, hchoose, hserve⟩ := runs_bind.mp hu
          have hquiet := actsIn_of_actless actless_chooseSocketPath hchoose
          rw [actsIn_append, hquiet, List.nil_append]
          exact .inr ⟨socketPath, runs_serveActions hserve⟩
  · exact .inl (hsay hu)

/-- A run in which neither the lock is granted nor the connection closed. -/
theorem clientMain_closes_refused :
    ∃ s' acts, Runs (clientMain 2 [.plain .l (ascii "a")]) parseInit
        [⟨.listCreate, true⟩, ⟨.malloc (defaultSocketPath.length + 1), true⟩,
          ⟨.act (.openConnection defaultSocketPath), (0 : Int)⟩, ⟨.act (.lockFile (ascii "a")), (-1 : Int)⟩,
          ⟨.act (.closeConnection defaultSocketPath), (-1 : Int)⟩] 0 s' ∧
      [.openConnection defaultSocketPath, .lockFile (ascii "a"), .closeConnection defaultSocketPath] =
        .openConnection defaultSocketPath :: acts ++ [.closeConnection defaultSocketPath] ∧
      ∀ a ∈ acts, (ClientQuestion.act a).isInner = true := by
  have hreplay : (clientMain 2 [.plain .l (ascii "a")]).replay parseInit
      [⟨.listCreate, true⟩, ⟨.malloc (defaultSocketPath.length + 1), true⟩,
        ⟨.act (.openConnection defaultSocketPath), (0 : Int)⟩, ⟨.act (.lockFile (ascii "a")), (-1 : Int)⟩,
        ⟨.act (.closeConnection defaultSocketPath), (-1 : Int)⟩] = some (0, _) := rfl
  have hrun := runs_of_replay hreplay
  rcases clientMain_closes hrun with h | ⟨socketPath, ⟨h, -⟩ | ⟨-, acts, h, hinner⟩⟩
  · cases h
  · cases h
  · obtain rfl : defaultSocketPath = socketPath := by
      have hhead := congrArg List.head? h
      simpa [actsIn, ClientQuestion.asAct] using hhead
    exact ⟨_, acts, hrun, h, hinner⟩

end Runs

end ClientMain

end FileStorage
