import FileStorage.Queueing
import FileStorage.PipeReads

/-! Graceful shutdown: whether `main` can be left in a `select` that nothing will end. -/

namespace FileStorage

/-- `main` is between two passes. -/
def MainLoc.Idle (l : MainLoc) : Prop := l = .head ∨ l = .select

instance (l : MainLoc) : Decidable l.Idle := inferInstanceAs (Decidable (_ ∨ _))

namespace Dispatcher

open Machine

variable {d : Descriptors} {s t : Dispatcher} {a : Action} {i : Nat}

/-- Something will wake `main`: an open connection, or an `int` in the pipe or on its way. -/
def Wakeable (s : Dispatcher) : Prop := s.currentConnections ≠ 0 ∨ 0 < s.supply

instance (s : Dispatcher) : Decidable s.Wakeable := inferInstanceAs (Decidable (_ ∨ _))

/-- `main` is in `select` although it has seen the signal, no client is left and nothing is on its
way to the pipe. -/
def Stuck (d : Descriptors) (s : Dispatcher) : Prop :=
  s.main = .select ∧ d.signalPipe ∉ s.set ∧ s.acceptConnection = false ∧
    s.currentConnections = 0 ∧ s.requestQueue = [] ∧ s.mwPipe = [] ∧
    (∀ w ∈ s.workers, w.busy = false) ∧ s.shutdownNow = false

instance (d : Descriptors) (s : Dispatcher) : Decidable (Stuck d s) :=
  inferInstanceAs (Decidable (_ ∧ _ ∧ _ ∧ _ ∧ _ ∧ _ ∧ _ ∧ _))

/-- `select` reports the signal pipe only when it has been closed. -/
def Reports (d : Descriptors) (s : Dispatcher) : Action → Prop
  | .main (.select rdset) => d.signalPipe ∈ rdset → s.sigHandler = .finished
  | _ => True

/-- Unless the shutdown is immediate, the signal is consumed while something will still wake
`main`, and after that no failed write takes the last of it. -/
def Remains (d : Descriptors) (s : Dispatcher) : Action → Prop
  | .main (.select rdset) => d.signalPipe ∈ rdset → s.shutdownNow = false → s.Wakeable
  | .worker _ .writeFails => d.signalPipe ∉ s.set → s.main.Idle → s.shutdownNow = false →
      s.currentConnections ≠ 0 ∨ 1 < s.supply
  | _ => True

instance (d : Descriptors) (s : Dispatcher) : ∀ a, Decidable (Reports d s a)
  | .main (.select rdset) =>
    inferInstanceAs (Decidable (d.signalPipe ∈ rdset → s.sigHandler = .finished))
  | .main .head | .main .skip | .main (.accept _) | .main (.dispatch _ _) | .main .read
  | .main .readFails | .main .test | .main (.terminate _ _) | .worker _ _ | .handler _ =>
    inferInstanceAs (Decidable True)

instance (d : Descriptors) (s : Dispatcher) : ∀ a, Decidable (Remains d s a)
  | .main (.select rdset) =>
    inferInstanceAs (Decidable (d.signalPipe ∈ rdset → s.shutdownNow = false → s.Wakeable))
  | .worker _ .writeFails => inferInstanceAs (Decidable (d.signalPipe ∉ s.set → s.main.Idle →
      s.shutdownNow = false → s.currentConnections ≠ 0 ∨ 1 < s.supply))
  | .main .head | .main .skip | .main (.accept _) | .main (.dispatch _ _) | .main .read
  | .main .readFails | .main .test | .main (.terminate _ _) | .worker _ .enter | .worker _ .take
  | .worker _ .wake | .worker _ .serve | .worker _ .close | .worker _ .fail | .worker _ .decrement
  | .worker _ .write | .worker _ .loop | .handler _ => inferInstanceAs (Decidable True)

/-- What the shutdown rests on. -/
structure Draining (d : Descriptors) (s : Dispatcher) : Prop where
  unsignalled : ¬s.main.Reported d.signalPipe
  tokens : TokensLast s
  told : s.sigHandler ≠ .waiting → s.acceptConnection = false ∨ s.shutdownNow = true
  consumed : d.signalPipe ∉ s.set → s.sigHandler ≠ .waiting
  wakeable : d.signalPipe ∉ s.set → s.main.Idle → s.shutdownNow = false → s.Wakeable

theorem Draining.init (d : Descriptors) (n : Nat) : Draining d (init d n) := by
  refine ⟨id, ?_, fun h => absurd rfl h, fun h => ?_, fun h => ?_⟩
  · simp [TokensLast, Dispatcher.init]
  · simp [Dispatcher.init] at h
  · simp [Dispatcher.init] at h

/-- The signal handler speaks before it closes its pipe, and nothing is taken back. -/
theorem Step.told (h : Step d s a t)
    (hs : s.sigHandler ≠ .waiting → s.acceptConnection = false ∨ s.shutdownNow = true) :
    t.sigHandler ≠ .waiting → t.acceptConnection = false ∨ t.shutdownNow = true := by
  cases h with
  | main h =>
    cases h with
    | dispatched _ _ _ _ ht =>
      obtain ⟨ws, -, rfl⟩ := enqueue_cases ht
      exact hs
    | terminate _ ht =>
      obtain ⟨ws, -, rfl⟩ := enqueue_cases ht
      exact hs
    | drained _ _ _ => exact fun _ => .inr rfl
    | _ => exact hs
  | worker h => cases h <;> exact hs
  | handler h =>
    cases h with
    | sighup _ => exact fun _ => .inl rfl
    | sigint _ => exact fun _ => .inr rfl
    | closePipe hh => exact fun _ => hs (by simp [hh])

theorem Step.consumed (h : Step d s a t) (hr : Reports d s a)
    (hu : ¬s.main.Reported d.signalPipe) (hs : d.signalPipe ∉ s.set → s.sigHandler ≠ .waiting) :
    d.signalPipe ∉ t.set → t.sigHandler ≠ .waiting := by
  cases h with
  | main h =>
    cases h with
    | signalled _ _ hd =>
      intro _ hw
      have hfin : s.sigHandler = .finished := hr hd
      exact absurd (hfin.symm.trans hw) nofun
    | accepted _ _ _ _ => exact fun hn => hs fun hm => hn (Finset.mem_insert_of_mem hm)
    | @dispatched fd rdset inserted woken t hm hf hp hn ht =>
      obtain ⟨ws, -, rfl⟩ := enqueue_cases ht
      refine fun hn => hs fun hmem => hn (Finset.mem_erase.mpr ⟨?_, hmem⟩)
      rintro rfl
      rw [hm] at hu
      exact hu hf
    | read _ _ => exact fun hn => hs fun hm => hn (Finset.mem_insert_of_mem hm)
    | terminate _ ht =>
      obtain ⟨ws, -, rfl⟩ := enqueue_cases ht
      exact hs
    | _ => exact hs
  | worker h => cases h <;> exact hs
  | handler h => cases h <;> exact fun _ => nofun

theorem supply_pos {w : WorkerLoc} (hw : s.workers[i]? = some w) (hb : w.busy = true) :
    0 < s.supply := by
  have h := List.countP_pos_iff.mpr ⟨w, List.mem_of_getElem? hw, hb⟩
  rw [supply]
  omega

/-- A worker lowers `current_connections` before it writes to the pipe. -/
theorem WorkerStep.current {b : WorkerAction} (h : WorkerStep s i b t) :
    t.currentConnections = s.currentConnections ∨ b = .decrement ∧ 0 < t.supply := by
  cases h with
  | @decrement hw =>
    refine .inr ⟨rfl, supply_pos (i := i) (w := .returning none) ?_ rfl⟩
    obtain ⟨hi, -⟩ := List.getElem?_eq_some_iff.mp hw
    simp [move, hi]
  | _ => exact .inl rfl

theorem Draining.wakeable_worker {b : WorkerAction} (hs : Draining d s) (h : WorkerStep s i b t)
    (ha : Remains d s (.worker i b)) (hset : d.signalPipe ∉ s.set) (hm : s.main.Idle)
    (hd : s.shutdownNow = false) : t.Wakeable := by
  have hw := hs.wakeable hset hm hd
  rcases h.supply with hsup | ⟨hsup, hq | rfl⟩
  · rcases h.current with hcur | ⟨-, hpos⟩
    · rw [Wakeable, hsup, hcur]
      exact hw
    · exact .inr hpos
  · obtain ⟨n, hn⟩ := hs.tokens hq
    rw [hn] at hm
    rcases hm with hm | hm <;> cases hm
  · have hleft : s.currentConnections ≠ 0 ∨ 1 < s.supply := ha hset hm hd
    rcases h.current with hcur | ⟨hb, -⟩
    · rw [Wakeable, hcur]
      exact hleft.imp_right fun h => by omega
    · cases hb

theorem Draining.wakeable_main {b : MainAction} (hs : Draining d s) (h : MainStep d s b t)
    (ha : Remains d s (.main b)) (hset : d.signalPipe ∉ t.set) (hm : t.main.Idle)
    (hd : t.shutdownNow = false) : t.Wakeable := by
  cases h with
  | loop hm' _ => exact hs.wakeable hset (.inl hm') hd
  | signalled _ _ hsig => exact ha hsig hd
  | drained _ _ _ => cases hd
  | again _ hc =>
    have hacc := (hs.told (hs.consumed hset)).resolve_right (by
      rw [show s.shutdownNow = false from hd]
      exact Bool.false_ne_true)
    exact .inl fun hz => hc ⟨hacc, hz⟩
  | accepted _ _ _ _ =>
    unfold visited goto at hm
    split at hm <;> rcases hm with hm | hm <;> cases hm
  | dispatched _ _ _ _ _ =>
    unfold visited goto at hm
    split at hm <;> rcases hm with hm | hm <;> cases hm
  | _ => rcases hm with hm | hm <;> cases hm

theorem Draining.step (hs : Draining d s) (hr : Reports d s a) (ha : Remains d s a)
    (h : Step d s a t) : Draining d t := by
  refine ⟨h.unsignalled hs.unsignalled, hs.tokens.step h, h.told hs.told,
    h.consumed hr hs.unsignalled hs.consumed, fun hset hm hd => ?_⟩
  cases h with
  | main h => exact hs.wakeable_main h ha hset hm hd
  | worker h =>
    have hsame : t.set = s.set ∧ t.main = s.main ∧ t.shutdownNow = s.shutdownNow := by
      cases h <;> exact ⟨rfl, rfl, rfl⟩
    rw [hsame.1] at hset
    rw [hsame.2.1] at hm
    rw [hsame.2.2] at hd
    exact hs.wakeable_worker h ha hset hm hd
  | handler h =>
    cases h with
    | sighup hh => exact absurd hh (hs.consumed hset)
    | sigint hh => exact absurd hh (hs.consumed hset)
    | closePipe _ => exact hs.wakeable hset hm hd

/-- In a run in which something remains to wake it, `main` is never stuck in `select`. -/
theorem never_stuck {n : Nat} {h : List (Dispatcher × Action)}
    (hr : Reaches (step d) (fun s a => Reports d s a ∧ Remains d s a) (init d n) h t) :
    ¬Stuck d t := by
  have hs : Draining d t := by
    refine hr.always (I := Draining d) (Draining.init d n) ?_
    exact fun t a u hs hc hstep => hs.step hc.1 hc.2 (step_cases hstep).2
  rintro ⟨hm, hset, -, hcur, hqueue, hpipe, hbusy, hd⟩
  have hzero : t.workers.countP WorkerLoc.busy = 0 := List.countP_eq_zero.mpr (by simpa using hbusy)
  rcases hs.wakeable hset (.inr hm) hd with h | h
  · exact h hcur
  · rw [supply, hqueue, hpipe, hzero] at h
    exact Nat.lt_irrefl 0 h

/-- The signal with which the handler thread ends. -/
def hangup : List Action := [.handler .sighup, .handler .closePipe]

theorem never_stuck_client : ∃ h t,
    Reaches (step descriptors) (fun s a => Reports descriptors s a ∧ Remains descriptors s a)
      (init descriptors 1) h t ∧
    t.main = .select ∧ descriptors.signalPipe ∉ t.set ∧ t.acceptConnection = false ∧
    ¬Stuck descriptors t := by
  obtain ⟨h, t, hr, -, hp⟩ := exists_run (step descriptors)
    (fun s a => Reports descriptors s a ∧ Remains descriptors s a) (init descriptors 1)
    (pass 10 11 (.accept (some 11)) ++ hangup ++
      [.main .head, .main (.select {4}), .main .head])
    (fun t => decide (t.main = .select ∧ descriptors.signalPipe ∉ t.set ∧
      t.acceptConnection = false)) (by decide)
  obtain ⟨hm, hset, hacc⟩ := of_decide_eq_true hp
  exact ⟨h, t, hr, hm, hset, hacc, never_stuck hr⟩

/-- `SIGHUP` comes while no client is connected. -/
theorem stuck_without_clients : ∃ h t,
    Reaches (step descriptors)
      (fun s a => Reports descriptors s a ∧ fails a = false ∧ loses a = false)
      (init descriptors 1) h t ∧ Stuck descriptors t := by
  obtain ⟨h, t, hr, -, hp⟩ := exists_run (step descriptors)
    (fun s a => Reports descriptors s a ∧ fails a = false ∧ loses a = false) (init descriptors 1)
    (hangup ++ [.main .head, .main (.select {4}), .main .head])
    (fun t => decide (Stuck descriptors t)) (by decide)
  exact ⟨h, t, hr, of_decide_eq_true hp⟩

end Dispatcher

end FileStorage
