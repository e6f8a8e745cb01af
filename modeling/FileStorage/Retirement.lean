import FileStorage.Conservation
import FileStorage.Worker

/-! Clients whose peer has closed its end: whether the worker that meets the end of the stream
retires the connection. -/

namespace FileStorage

open Channel

/-- The peer has closed its end, and `recv_request` comes upon it; no read fails. -/
structure Vanished (c : Source UInt8) : Prop where
  ended : (recvRequest c).calls.any SystemCall.ended = true
  reads : (recvRequest c).calls.any SystemCall.readError = false

namespace Dispatcher

open Machine

/-- Between `s` and `t` a client has been closed, it has not been given back to `main`, and the
connections have been counted down once. -/
structure Retired (s t : Dispatcher) (fd : Nat) : Prop where
  closed : fd ∉ t.connections
  returned : some fd ∉ t.mwPipe.drop s.mwPipe.length
  counted : t.currentConnections = s.currentConnections - 1

/-- These actions of a worker retire the client. -/
def Retires (d : Descriptors) (s : Dispatcher) (i fd : Nat) (actions : List WorkerAction) : Prop :=
  ∃ t, play (Dispatcher.step d) (fun _ _ => True) s (actions.map (.worker i)) = some t ∧
    s.Retired t fd

variable {d : Descriptors} {s : Dispatcher} {i fd : Nat}

theorem steps_of_retires {a b : WorkerAction} (h : s.Retires d i fd [a, b]) :
    ∃ u t, WorkerStep s i a u ∧ WorkerStep u i b t ∧ s.Retired t fd := by
  obtain ⟨t, ht, hr⟩ := h
  obtain ⟨-, u, hu, ht⟩ := play_cons.mp ht
  obtain ⟨-, v, hv, ht⟩ := play_cons.mp ht
  obtain rfl : v = t := Option.some.inj ht
  cases (step_cases hu).2 with
  | worker hu =>
    cases (step_cases hv).2 with
    | worker hv => exact ⟨u, v, hu, hv, hr⟩

theorem not_retires_serve (hc : fd ∈ s.connections) : ¬s.Retires d i fd [.serve, .write] := by
  intro h
  obtain ⟨u, t, hu, ht, hr⟩ := steps_of_retires h
  cases hu with
  | serve _ _ =>
    cases ht with
    | write _ => exact hr.closed hc
    | crash _ => exact hr.closed hc

theorem not_retires_fail : ¬s.Retires d i fd [.fail, .write] := by
  intro h
  obtain ⟨u, t, hu, ht, hr⟩ := steps_of_retires h
  have hcount := hr.counted
  cases hu with
  | fail _ =>
    cases ht with
    | write _ =>
      simp only [move] at hcount
      omega
    | crash _ =>
      simp only [move] at hcount
      omega

theorem not_retires_nil (hc : fd ∈ s.connections) : ¬s.Retires d i fd [] := by
  rintro ⟨t, ht, hr⟩
  obtain rfl : s = t := Option.some.inj ht
  exact hr.closed hc

theorem step_worker {a : WorkerAction} (hs : s.crashed = false) :
    Dispatcher.step d s (.worker i a) = workerStep s i a := by
  simp [Dispatcher.step, hs]

theorem location_move {w : WorkerLoc} (hi : i < s.workers.length) :
    (s.move i w).workers[i]? = some w := by
  rw [move, List.getElem?_set_self hi]

theorem retires_close (hs : s.crashed = false) (hw : s.workers[i]? = some (.serving fd))
    (hc : fd ∈ s.connections) : s.Retires d i fd [.close, .decrement, .write] := by
  have hi : i < s.workers.length := (List.getElem?_eq_some_iff.mp hw).1
  obtain ⟨u, hu⟩ : ∃ u, u = { s with connections := s.connections.erase fd }.move i .closed :=
    ⟨_, rfl⟩
  obtain ⟨v, hv⟩ : ∃ v : Dispatcher,
      v = { u with currentConnections := u.currentConnections - 1 }.move i (.returning none) :=
    ⟨_, rfl⟩
  obtain ⟨t, ht⟩ : ∃ t : Dispatcher, t = { v with mwPipe := v.mwPipe ++ [none] }.move i .bottom :=
    ⟨_, rfl⟩
  have hwu : u.workers[i]? = some .closed := by
    rw [hu]
    exact location_move hi
  have hwv : v.workers[i]? = some (.returning none) := by
    rw [hv]
    exact location_move (List.getElem?_eq_some_iff.mp hwu).1
  have hclose : Dispatcher.step d s (.worker i .close) = some u := by
    rw [step_worker hs, hu]
    simp only [workerStep, hw, if_pos hc]
  have hdecrement : Dispatcher.step d u (.worker i .decrement) = some v := by
    rw [step_worker (by rw [hu]; exact hs), hv]
    simp only [workerStep, hwu]
  have hwrite : Dispatcher.step d v (.worker i .write) = some t := by
    rw [step_worker (by rw [hv, hu]; exact hs), ht]
    simp only [workerStep, hwv]
  refine ⟨t, play_cons.mpr ⟨trivial, u, hclose, play_cons.mpr ⟨trivial, v, hdecrement,
    play_cons.mpr ⟨trivial, t, hwrite, rfl⟩⟩⟩, ?_, ?_, ?_⟩
  · simp [ht, hv, hu, move]
  · simp [ht, hv, hu, move]
  · simp [ht, hv, hu, move]

/-- The worker retires a client that has gone exactly when the client went in the middle of a
`CLOSE_CONNECTION` request and the memory for the request is granted. -/
theorem retires_vanished_iff (hs : s.crashed = false) (hw : s.workers[i]? = some (.serving fd))
    (hc : fd ∈ s.connections) {c : Source UInt8} (hv : Vanished c) (env : List Bool)
    (w : StorageWorld) :
    s.Retires d i fd (workerIteration s fd (recvRequest c).result env w).actions ↔
      (c.delivers 4).map fieldValue = some RequestCode.closeConnection.code ∧
      (recvRequest c).calls.any SystemCall.refused = false := by
  have hstrict := strict_recvRequest c
  rw [SystemCall.any_failed, hv.reads, Bool.false_or] at hstrict
  rw [← hstrict]
  cases hr : (recvRequest c).result with
  | none =>
    constructor
    · intro h
      exact absurd h not_retires_fail
    · rintro ⟨-, h⟩
      cases h
  | some request =>
    rw [recvRequest_type hr]
    constructor
    · intro h
      refine ⟨?_, rfl⟩
      by_contra hne
      rcases workerIteration_actions fun heq => hne (congrArg some heq) with ha | ha
      · rw [ha] at h
        exact not_retires_serve hc h
      · rw [ha] at h
        exact not_retires_nil hc h
    · rintro ⟨htype, -⟩
      have ha : (workerIteration s fd (some request) env w).actions = [.close, .decrement, .write] := by
        rw [workerIteration, Option.some.inj htype, RequestCode.ofCode_code]
      rw [ha]
      exact retires_close hs hw hc

/-- The steps by which a client is accepted, and dispatched to a worker. -/
def dispatched : List Action :=
  pass 10 11 (.accept (some 11)) ++ [.worker 0 .enter, .worker 0 .take] ++
    pass 11 10 (.dispatch true (some 0)) ++ [.worker 0 .take]

theorem exists_dispatched : ∃ h s, Reaches (Dispatcher.step descriptors) (fun _ _ => True)
    (Dispatcher.init descriptors 1) h s ∧ s.crashed = false ∧
    s.workers[0]? = some (.serving 11) ∧ 11 ∈ s.connections := by
  obtain ⟨h, s, hr, -, hp⟩ := exists_run (Dispatcher.step descriptors) (fun _ _ => True)
    (Dispatcher.init descriptors 1) dispatched
    (fun s : Dispatcher =>
      decide (s.crashed = false ∧ s.workers[0]? = some (WorkerLoc.serving 11) ∧ 11 ∈ s.connections))
    (by decide)
  exact ⟨h, s, hr, of_decide_eq_true hp⟩

theorem retires_vanished_closing : ∃ h s, Reaches (Dispatcher.step descriptors) (fun _ _ => True)
    (Dispatcher.init descriptors 1) h s ∧ ∀ w, s.Retires descriptors 0 11
      (workerIteration s 11 (recvRequest ⟨[101, 0], [], []⟩).result [] w).actions := by
  obtain ⟨h, s, hr, hs, hw, hc⟩ := exists_dispatched
  refine ⟨h, s, hr, fun w => ?_⟩
  exact (retires_vanished_iff hs hw hc ⟨by decide, by decide⟩ [] w).mpr (by decide)

/-- A client that goes without a word is given back to `main`, open as before. -/
theorem vanished_returned : ∃ h s, Reaches (Dispatcher.step descriptors) (fun _ _ => True)
    (Dispatcher.init descriptors 1) h s ∧ s.workers[0]? = some (.serving 11) ∧
    11 ∈ s.connections ∧ Vanished ⟨[], [], []⟩ ∧ ∀ w,
      (workerIteration s 11 (recvRequest ⟨[], [], []⟩).result [] w).actions = [.serve, .write] ∧
      ¬s.Retires descriptors 0 11
        (workerIteration s 11 (recvRequest ⟨[], [], []⟩).result [] w).actions := by
  obtain ⟨h, s, hr, -, hw, hc⟩ := exists_dispatched
  refine ⟨h, s, hr, hw, hc, ⟨by decide, by decide⟩, fun w => ?_⟩
  have ha : (workerIteration s 11 (recvRequest ⟨[], [], []⟩).result [] w).actions =
      [.serve, .write] := rfl
  rw [ha]
  exact ⟨rfl, not_retires_serve hc⟩

end Dispatcher

end FileStorage
