import FileStorage.Machine
import Mathlib.Data.Finset.Insert
import Mathlib.Data.Finset.Card

/-! The threads that share the client connections: the select loop of `server/server.c`, the
workers of `server/worker.c` and the signal handler, with the request queue and the pipe from the
workers to the loop. What a thread does to its own variables belongs to the step before it. -/

namespace FileStorage

/-- The descriptors from which `main` computes its first `fd_max`. -/
structure Descriptors where
  signalPipe : Nat
  lockManagerPipe : Nat
  mwPipe : Nat
  socketFd : Nat
  distinct : [signalPipe, lockManagerPipe, mwPipe, socketFd].Nodup
  deriving DecidableEq

/-- Where `main` is: at the `head` of its loop, blocked in `select`, about to look at `fd` in the
loop over the descriptors (`visit`), about to read from the workers after `fd` (`readPipe`), at the
`endTest`, or with a number of termination tokens still to insert (`terminate`). -/
inductive MainLoc where
  | head
  | select
  | visit (fd : Nat) (rdset : Finset Nat)
  | readPipe (fd : Nat) (rdset : Finset Nat)
  | endTest
  | terminate (left : Nat)
  deriving DecidableEq

/-- The `int`s that travel between the threads: a descriptor, or `none` for -1. -/
abbrev Token := Option Nat

/-- Where a worker is. A worker that is `asleep` waits for `request_queue_notempty`, one that is
`ready` is about to test the length of the queue. After `close` a worker is `closed` until it has
lowered `current_connections`, or `failed` when the request could not be received. -/
inductive WorkerLoc where
  | top
  | ready
  | asleep
  | serving (fd : Nat)
  | closed
  | failed
  | returning (x : Token)
  | bottom
  | exited
  deriving DecidableEq

inductive HandlerLoc where
  | waiting
  | closing
  | finished
  deriving DecidableEq

/-- `connections` are the descriptors of accepted clients that are open in the kernel. -/
structure Dispatcher where
  set : Finset Nat
  fdMax : Int
  main : MainLoc
  requestQueue : List Token
  mwPipe : List Token
  workers : List WorkerLoc
  connections : Finset Nat
  currentConnections : Int
  maxConnections : Int
  acceptConnection : Bool
  shutdownNow : Bool
  sigHandler : HandlerLoc
  crashed : Bool
  deriving DecidableEq

/-- The steps of `main`, with what the environment decides: the ready descriptors, the new client
or a failed `accept`, whether an insertion in the queue succeeds, and the worker woken by it. -/
inductive MainAction where
  | head
  | select (rdset : Finset Nat)
  | skip
  | accept (clientFd : Option Nat)
  | dispatch (inserted : Bool) (woken : Option Nat)
  | read
  | readFails
  | test
  | terminate (inserted : Bool) (woken : Option Nat)
  deriving DecidableEq

/-- The steps of a worker: `serve` stands for any request that leaves the connection open,
`close` for `CLOSE_CONNECTION`, and `fail` for a `recv_request` that returns NULL. -/
inductive WorkerAction where
  | enter
  | take
  | wake
  | serve
  | close
  | fail
  | decrement
  | write
  | writeFails
  | loop
  deriving DecidableEq

inductive HandlerAction where
  | sighup
  | sigint
  | closePipe
  deriving DecidableEq

inductive Action where
  | main (a : MainAction)
  | worker (i : Nat) (a : WorkerAction)
  | handler (a : HandlerAction)
  deriving DecidableEq

namespace Dispatcher

def init (d : Descriptors) (workers : Nat) : Dispatcher :=
  { set := {d.signalPipe, d.mwPipe, d.socketFd}
    fdMax := max (max d.signalPipe d.lockManagerPipe) (max d.mwPipe d.socketFd)
    main := .head, requestQueue := [], mwPipe := [], workers := List.replicate workers .top,
    connections := ∅, currentConnections := 0, maxConnections := 0, acceptConnection := true,
    shutdownNow := false, sigHandler := .waiting, crashed := false }

/-- `FD_SET`, which may raise `fd_max`. -/
def fdSet (s : Dispatcher) (fd : Nat) : Dispatcher :=
  { s with set := insert fd s.set, fdMax := max s.fdMax fd }

/-- `FD_CLR`, after which `fd_max` is lowered by one if it was the descriptor. -/
def fdClr (s : Dispatcher) (fd : Nat) : Dispatcher :=
  { s with set := s.set.erase fd, fdMax := if (fd : Int) = s.fdMax then s.fdMax - 1 else s.fdMax }

theorem countP_set {α : Type} (p : α → Bool) {l : List α} {i : Nat} {a b : α}
    (h : l[i]? = some a) :
    (l.set i b).countP p + (if p a then 1 else 0) = l.countP p + if p b then 1 else 0 := by
  obtain ⟨hi, rfl⟩ := List.getElem?_eq_some_iff.mp h
  have hset := List.countP_set (p := p) (a := b) hi
  have hpos : (if p l[i] then 1 else 0) ≤ l.countP p := by
    by_cases hp : p l[i] = true
    · have := List.countP_pos_iff.mpr ⟨l[i], List.getElem_mem hi, hp⟩
      simp only [hp, if_true]
      omega
    · simp [hp]
  omega

def goto (s : Dispatcher) (l : MainLoc) : Dispatcher := { s with main := l }

def move (s : Dispatcher) (i : Nat) (w : WorkerLoc) : Dispatcher :=
  { s with workers := s.workers.set i w }

/-- The second half of the loop body, which reads from the pipe whenever `select` has reported
it. -/
def visited (d : Descriptors) (s : Dispatcher) (fd : Nat) (rdset : Finset Nat) : Dispatcher :=
  s.goto (if d.mwPipe ∈ rdset then .readPipe fd rdset else .visit (fd + 1) rdset)

/-- The workers after `pthread_cond_signal`: one sleeper, if there is one, is woken. -/
def signal (workers : List WorkerLoc) : Option Nat → Option (List WorkerLoc)
  | some i => if workers[i]? = some .asleep then some (workers.set i .ready) else none
  | none => if .asleep ∈ workers then none else some workers

/-- `list_insert_tail(request_queue, x)` and the signal after it. -/
def enqueue (s : Dispatcher) (x : Token) (inserted : Bool) (woken : Option Nat) :
    Option Dispatcher :=
  (signal s.workers woken).map fun ws =>
    { s with requestQueue := if inserted then s.requestQueue ++ [x] else s.requestQueue,
             workers := ws }

/-- A new client: `accept` has returned `fd`. -/
def accepted (s : Dispatcher) (fd : Nat) : Dispatcher :=
  { s.fdSet fd with
    connections := insert fd s.connections
    currentConnections := s.currentConnections + 1
    maxConnections := max s.maxConnections (s.currentConnections + 1) }

/-- The test for a new client. -/
def NewClient (d : Descriptors) (s : Dispatcher) (fd : Nat) : Prop :=
  fd = d.socketFd ∧ d.socketFd ∈ s.set ∧ s.acceptConnection = true

instance (d : Descriptors) (s : Dispatcher) (fd : Nat) : Decidable (NewClient d s fd) :=
  inferInstanceAs (Decidable (_ ∧ _ ∧ _))

/-- A descriptor the kernel can give to a new client. -/
def Fresh (d : Descriptors) (s : Dispatcher) (fd : Nat) : Prop :=
  fd ∉ s.connections ∧ fd ∉ [d.signalPipe, d.lockManagerPipe, d.mwPipe, d.socketFd]

instance (d : Descriptors) (s : Dispatcher) (fd : Nat) : Decidable (Fresh d s fd) :=
  inferInstanceAs (Decidable (_ ∧ _))

def mainStep (d : Descriptors) (s : Dispatcher) (a : MainAction) : Option Dispatcher :=
  match s.main, a with
  | .head, .head =>
    some (s.goto (if s.shutdownNow then .terminate s.workers.length else .select))
  | .select, .select rdset =>
    if rdset ⊆ s.set then
      if d.signalPipe ∈ rdset then some (((s.fdClr d.signalPipe).fdClr d.socketFd).goto .head)
      else some (s.goto (.visit 0 rdset))
    else none
  | .visit fd rdset, .skip =>
    if s.fdMax < fd then some (s.goto .endTest)
    else if fd ∉ rdset then some (s.goto (.visit (fd + 1) rdset))
    else if fd = d.mwPipe then some (visited d s fd rdset)
    else none
  | .visit fd rdset, .accept clientFd =>
    if fd ≤ s.fdMax ∧ fd ∈ rdset ∧ fd ≠ d.mwPipe ∧ NewClient d s fd then
      match clientFd with
      | none => some (s.goto (.visit (fd + 1) rdset))
      | some c => if Fresh d s c then some (visited d (s.accepted c) fd rdset) else none
    else none
  | .visit fd rdset, .dispatch inserted woken =>
    if fd ≤ s.fdMax ∧ fd ∈ rdset ∧ fd ≠ d.mwPipe ∧ ¬NewClient d s fd then
      (s.enqueue (some fd) inserted woken).map fun t => visited d (t.fdClr fd) fd rdset
    else none
  | .readPipe fd rdset, .read =>
    match s.mwPipe with
    | [] => none
    | none :: rest => some ({ s with mwPipe := rest }.goto (.visit (fd + 1) rdset))
    | some newFd :: rest =>
      some (({ s with mwPipe := rest }.fdSet newFd).goto (.visit (fd + 1) rdset))
  | .readPipe fd rdset, .readFails => some (s.goto (.visit (fd + 1) rdset))
  | .endTest, .test =>
    if s.acceptConnection = false ∧ s.currentConnections = 0 then
      some ({ s with shutdownNow := true }.goto .head)
    else some (s.goto .head)
  | .terminate (left + 1), .terminate inserted woken =>
    (s.enqueue none inserted woken).map fun t => t.goto (.terminate left)
  | _, _ => none

def workerStep (s : Dispatcher) (i : Nat) (a : WorkerAction) : Option Dispatcher :=
  match s.workers[i]?, a with
  | some .top, .enter => some (s.move i (if s.shutdownNow then .exited else .ready))
  | some .ready, .take =>
    match s.requestQueue with
    | [] => some (s.move i .asleep)
    | none :: rest => some ({ s with requestQueue := rest }.move i .exited)
    | some fd :: rest => some ({ s with requestQueue := rest }.move i (.serving fd))
  | some .asleep, .wake => some (s.move i .ready)
  | some (.serving fd), .serve =>
    if fd ∈ s.connections then some (s.move i (.returning (some fd))) else none
  | some (.serving fd), .close =>
    if fd ∈ s.connections then
      some ({ s with connections := s.connections.erase fd }.move i .closed)
    else none
  | some (.serving fd), .fail =>
    some ({ s with connections := s.connections.erase fd }.move i .failed)
  | some .closed, .decrement =>
    some ({ s with currentConnections := s.currentConnections - 1 }.move i (.returning none))
  | some (.returning x), .write => some ({ s with mwPipe := s.mwPipe ++ [x] }.move i .bottom)
  | some (.returning _), .writeFails => some (s.move i .exited)
  -- the request is NULL when its type is looked at
  | some .failed, .write =>
    some ({ s with mwPipe := s.mwPipe ++ [none], crashed := true }.move i .exited)
  | some .failed, .writeFails => some ({ s with crashed := true }.move i .exited)
  | some .bottom, .loop => some (s.move i (if s.shutdownNow then .exited else .top))
  | _, _ => none

def handlerStep (s : Dispatcher) (a : HandlerAction) : Option Dispatcher :=
  match s.sigHandler, a with
  | .waiting, .sighup => some { s with acceptConnection := false, sigHandler := .closing }
  | .waiting, .sigint => some { s with shutdownNow := true, sigHandler := .closing }
  | .closing, .closePipe => some { s with sigHandler := .finished }
  | _, _ => none

/-- One step of one thread; a process that has crashed takes none. -/
def step (d : Descriptors) (s : Dispatcher) (a : Action) : Option Dispatcher :=
  if s.crashed then none
  else match a with
    | .main a => mainStep d s a
    | .worker i a => workerStep s i a
    | .handler a => handlerStep s a

/-! ### What a step can be -/

theorem signal_cases {ws ws' : List WorkerLoc} {woken : Option Nat}
    (h : signal ws woken = some ws') :
    (.asleep ∉ ws ∧ ws' = ws) ∨ ∃ i, ws[i]? = some .asleep ∧ ws' = ws.set i .ready := by
  cases woken with
  | some i =>
    simp only [signal] at h
    split at h
    · exact .inr ⟨i, ‹_›, (Option.some.inj h).symm⟩
    · cases h
  | none =>
    simp only [signal] at h
    split at h
    · cases h
    · exact .inl ⟨‹_›, (Option.some.inj h).symm⟩

theorem enqueue_cases {s t : Dispatcher} {x : Token} {inserted : Bool} {woken : Option Nat}
    (h : s.enqueue x inserted woken = some t) : ∃ ws, signal s.workers woken = some ws ∧
      t = { s with
        requestQueue := if inserted then s.requestQueue ++ [x] else s.requestQueue
        workers := ws } := by
  obtain ⟨ws, hs, rfl⟩ := Option.map_eq_some_iff.mp h
  exact ⟨ws, hs, rfl⟩

inductive MainStep (d : Descriptors) (s : Dispatcher) : MainAction → Dispatcher → Prop where
  | loop (hm : s.main = .head) (hs : s.shutdownNow = false) : MainStep d s .head (s.goto .select)
  | leave (hm : s.main = .head) (hs : s.shutdownNow = true) :
      MainStep d s .head (s.goto (.terminate s.workers.length))
  | signalled {rdset : Finset Nat} (hm : s.main = .select) (hr : rdset ⊆ s.set)
      (hd : d.signalPipe ∈ rdset) :
      MainStep d s (.select rdset) (((s.fdClr d.signalPipe).fdClr d.socketFd).goto .head)
  | selected {rdset : Finset Nat} (hm : s.main = .select) (hr : rdset ⊆ s.set)
      (hd : d.signalPipe ∉ rdset) : MainStep d s (.select rdset) (s.goto (.visit 0 rdset))
  | exhausted {fd : Nat} {rdset : Finset Nat} (hm : s.main = .visit fd rdset) :
      MainStep d s .skip (s.goto .endTest)
  | skip {fd : Nat} {rdset : Finset Nat} (hm : s.main = .visit fd rdset) (hf : fd ∉ rdset) :
      MainStep d s .skip (s.goto (.visit (fd + 1) rdset))
  | pipe {rdset : Finset Nat} (hm : s.main = .visit d.mwPipe rdset) (hf : d.mwPipe ∈ rdset) :
      MainStep d s .skip (s.goto (.readPipe d.mwPipe rdset))
  | refused {rdset : Finset Nat} (hm : s.main = .visit d.socketFd rdset) :
      MainStep d s (.accept none) (s.goto (.visit (d.socketFd + 1) rdset))
  | accepted {rdset : Finset Nat} {c : Nat} (hm : s.main = .visit d.socketFd rdset)
      (hf : d.socketFd ∈ rdset) (hn : NewClient d s d.socketFd) (hc : Fresh d s c) :
      MainStep d s (.accept (some c)) (visited d (s.accepted c) d.socketFd rdset)
  | dispatched {fd : Nat} {rdset : Finset Nat} {inserted : Bool} {woken : Option Nat}
      {t : Dispatcher} (hm : s.main = .visit fd rdset) (hf : fd ∈ rdset) (hp : fd ≠ d.mwPipe)
      (hn : ¬NewClient d s fd) (ht : s.enqueue (some fd) inserted woken = some t) :
      MainStep d s (.dispatch inserted woken) (visited d (t.fdClr fd) fd rdset)
  | readNone {fd : Nat} {rdset : Finset Nat} {rest : List Token}
      (hm : s.main = .readPipe fd rdset) (hp : s.mwPipe = none :: rest) :
      MainStep d s .read ({ s with mwPipe := rest }.goto (.visit (fd + 1) rdset))
  | read {fd newFd : Nat} {rdset : Finset Nat} {rest : List Token}
      (hm : s.main = .readPipe fd rdset) (hp : s.mwPipe = some newFd :: rest) :
      MainStep d s .read (({ s with mwPipe := rest }.fdSet newFd).goto (.visit (fd + 1) rdset))
  | readFails {fd : Nat} {rdset : Finset Nat} (hm : s.main = .readPipe fd rdset) :
      MainStep d s .readFails (s.goto (.visit (fd + 1) rdset))
  | drained (hm : s.main = .endTest) (ha : s.acceptConnection = false)
      (hc : s.currentConnections = 0) :
      MainStep d s .test ({ s with shutdownNow := true }.goto .head)
  | again (hm : s.main = .endTest)
      (hc : ¬(s.acceptConnection = false ∧ s.currentConnections = 0)) :
      MainStep d s .test (s.goto .head)
  | terminate {left : Nat} {inserted : Bool} {woken : Option Nat} {t : Dispatcher}
      (hm : s.main = .terminate (left + 1)) (ht : s.enqueue none inserted woken = some t) :
      MainStep d s (.terminate inserted woken) (t.goto (.terminate left))

theorem mainStep_cases {d : Descriptors} {s t : Dispatcher} {a : MainAction}
    (h : mainStep d s a = some t) : MainStep d s a t := by
  unfold mainStep at h
  split at h
  · rename_i hm
    obtain rfl := Option.some.inj h
    by_cases hs : s.shutdownNow = true
    · simpa [hs] using MainStep.leave hm hs
    · simpa [hs] using MainStep.loop hm (by simpa using hs)
  · rename_i rdset hm
    by_cases hr : rdset ⊆ s.set
    · rw [if_pos hr] at h
      by_cases hd : d.signalPipe ∈ rdset
      · rw [if_pos hd] at h
        exact Option.some.inj h ▸ .signalled hm hr hd
      · rw [if_neg hd] at h
        exact Option.some.inj h ▸ .selected hm hr hd
    · rw [if_neg hr] at h
      cases h
  · rename_i fd rdset hm
    by_cases hover : s.fdMax < fd
    · rw [if_pos hover] at h
      exact Option.some.inj h ▸ .exhausted hm
    · rw [if_neg hover] at h
      by_cases hf : fd ∈ rdset
      · rw [if_neg (by simpa using hf)] at h
        by_cases hp : fd = d.mwPipe
        · subst hp
          rw [if_pos rfl, visited, if_pos hf] at h
          exact Option.some.inj h ▸ .pipe hm hf
        · rw [if_neg hp] at h
          cases h
      · rw [if_pos hf] at h
        exact Option.some.inj h ▸ .skip hm hf
  · rename_i fd rdset clientFd hm
    split at h
    · rename_i hc
      obtain ⟨-, hf, -, hn⟩ := hc
      obtain rfl := hn.1
      cases clientFd with
      | none => exact Option.some.inj h ▸ .refused hm
      | some c =>
        by_cases hc : Fresh d s c
        · simp only [if_pos hc] at h
          exact Option.some.inj h ▸ .accepted hm hf hn hc
        · simp [hc] at h
    · cases h
  · rename_i fd rdset inserted woken hm
    split at h
    · rename_i hc
      obtain ⟨-, hf, hp, hn⟩ := hc
      obtain ⟨t, ht, rfl⟩ := Option.map_eq_some_iff.mp h
      exact .dispatched hm hf hp hn ht
    · cases h
  · rename_i fd rdset hm
    split at h
    · cases h
    · exact Option.some.inj h ▸ .readNone hm ‹_›
    · exact Option.some.inj h ▸ .read hm ‹_›
  · rename_i fd rdset hm
    exact Option.some.inj h ▸ .readFails hm
  · rename_i hm
    by_cases hc : s.acceptConnection = false ∧ s.currentConnections = 0
    · rw [if_pos hc] at h
      exact Option.some.inj h ▸ .drained hm hc.1 hc.2
    · rw [if_neg hc] at h
      exact Option.some.inj h ▸ .again hm hc
  · rename_i left inserted woken hm
    obtain ⟨t, ht, rfl⟩ := Option.map_eq_some_iff.mp h
    exact .terminate hm ht
  · cases h

inductive WorkerStep (s : Dispatcher) (i : Nat) : WorkerAction → Dispatcher → Prop where
  | enter (hw : s.workers[i]? = some .top) (hs : s.shutdownNow = false) :
      WorkerStep s i .enter (s.move i .ready)
  | stop (hw : s.workers[i]? = some .top) (hs : s.shutdownNow = true) :
      WorkerStep s i .enter (s.move i .exited)
  | sleep (hw : s.workers[i]? = some .ready) (hq : s.requestQueue = []) :
      WorkerStep s i .take (s.move i .asleep)
  | token {rest : List Token} (hw : s.workers[i]? = some .ready)
      (hq : s.requestQueue = none :: rest) :
      WorkerStep s i .take ({ s with requestQueue := rest }.move i .exited)
  | take {fd : Nat} {rest : List Token} (hw : s.workers[i]? = some .ready)
      (hq : s.requestQueue = some fd :: rest) :
      WorkerStep s i .take ({ s with requestQueue := rest }.move i (.serving fd))
  | wake (hw : s.workers[i]? = some .asleep) : WorkerStep s i .wake (s.move i .ready)
  | serve {fd : Nat} (hw : s.workers[i]? = some (.serving fd)) (hc : fd ∈ s.connections) :
      WorkerStep s i .serve (s.move i (.returning (some fd)))
  | close {fd : Nat} (hw : s.workers[i]? = some (.serving fd)) (hc : fd ∈ s.connections) :
      WorkerStep s i .close ({ s with connections := s.connections.erase fd }.move i .closed)
  | fail {fd : Nat} (hw : s.workers[i]? = some (.serving fd)) :
      WorkerStep s i .fail ({ s with connections := s.connections.erase fd }.move i .failed)
  | decrement (hw : s.workers[i]? = some .closed) :
      WorkerStep s i .decrement
        ({ s with currentConnections := s.currentConnections - 1 }.move i (.returning none))
  | write {x : Token} (hw : s.workers[i]? = some (.returning x)) :
      WorkerStep s i .write ({ s with mwPipe := s.mwPipe ++ [x] }.move i .bottom)
  | writeFails {x : Token} (hw : s.workers[i]? = some (.returning x)) :
      WorkerStep s i .writeFails (s.move i .exited)
  | crash (hw : s.workers[i]? = some .failed) :
      WorkerStep s i .write
        ({ s with mwPipe := s.mwPipe ++ [none], crashed := true }.move i .exited)
  | crashSilent (hw : s.workers[i]? = some .failed) :
      WorkerStep s i .writeFails ({ s with crashed := true }.move i .exited)
  | loop (hw : s.workers[i]? = some .bottom) (hs : s.shutdownNow = false) :
      WorkerStep s i .loop (s.move i .top)
  | finish (hw : s.workers[i]? = some .bottom) (hs : s.shutdownNow = true) :
      WorkerStep s i .loop (s.move i .exited)

theorem workerStep_cases {s t : Dispatcher} {i : Nat} {a : WorkerAction}
    (h : workerStep s i a = some t) : WorkerStep s i a t := by
  unfold workerStep at h
  split at h
  · rename_i hw
    obtain rfl := Option.some.inj h
    by_cases hs : s.shutdownNow = true
    · simpa [hs] using WorkerStep.stop hw hs
    · simpa [hs] using WorkerStep.enter hw (by simpa using hs)
  · rename_i hw
    split at h
    · exact Option.some.inj h ▸ .sleep hw ‹_›
    · exact Option.some.inj h ▸ .token hw ‹_›
    · exact Option.some.inj h ▸ .take hw ‹_›
  · exact Option.some.inj h ▸ .wake ‹_›
  · rename_i fd hw
    by_cases hc : fd ∈ s.connections
    · rw [if_pos hc] at h
      exact Option.some.inj h ▸ .serve hw hc
    · rw [if_neg hc] at h
      cases h
  · rename_i fd hw
    by_cases hc : fd ∈ s.connections
    · rw [if_pos hc] at h
      exact Option.some.inj h ▸ .close hw hc
    · rw [if_neg hc] at h
      cases h
  · exact Option.some.inj h ▸ .fail ‹_›
  · exact Option.some.inj h ▸ .decrement ‹_›
  · exact Option.some.inj h ▸ .write ‹_›
  · exact Option.some.inj h ▸ .writeFails ‹_›
  · exact Option.some.inj h ▸ .crash ‹_›
  · exact Option.some.inj h ▸ .crashSilent ‹_›
  · rename_i hw
    obtain rfl := Option.some.inj h
    by_cases hs : s.shutdownNow = true
    · simpa [hs] using WorkerStep.finish hw hs
    · simpa [hs] using WorkerStep.loop hw (by simpa using hs)
  · cases h

inductive HandlerStep (s : Dispatcher) : HandlerAction → Dispatcher → Prop where
  | sighup (hh : s.sigHandler = .waiting) :
      HandlerStep s .sighup { s with acceptConnection := false, sigHandler := .closing }
  | sigint (hh : s.sigHandler = .waiting) :
      HandlerStep s .sigint { s with shutdownNow := true, sigHandler := .closing }
  | closePipe (hh : s.sigHandler = .closing) :
      HandlerStep s .closePipe { s with sigHandler := .finished }

theorem handlerStep_cases {s t : Dispatcher} {a : HandlerAction}
    (h : handlerStep s a = some t) : HandlerStep s a t := by
  unfold handlerStep at h
  split at h
  · exact Option.some.inj h ▸ .sighup ‹_›
  · exact Option.some.inj h ▸ .sigint ‹_›
  · exact Option.some.inj h ▸ .closePipe ‹_›
  · cases h

inductive Step (d : Descriptors) (s : Dispatcher) : Action → Dispatcher → Prop where
  | main {a : MainAction} {t : Dispatcher} (h : MainStep d s a t) : Step d s (.main a) t
  | worker {i : Nat} {a : WorkerAction} {t : Dispatcher} (h : WorkerStep s i a t) :
      Step d s (.worker i a) t
  | handler {a : HandlerAction} {t : Dispatcher} (h : HandlerStep s a t) : Step d s (.handler a) t

theorem step_cases {d : Descriptors} {s t : Dispatcher} {a : Action} (h : step d s a = some t) :
    s.crashed = false ∧ Step d s a t := by
  unfold step at h
  by_cases hc : s.crashed = true
  · simp [hc] at h
  · rw [if_neg hc] at h
    refine ⟨by simpa using hc, ?_⟩
    cases a with
    | main a => exact .main (mainStep_cases h)
    | worker i a => exact .worker (workerStep_cases h)
    | handler a => exact .handler (handlerStep_cases h)

end Dispatcher

end FileStorage
