import FileStorage.Conservation

/-! The reads of `main` from the workers. The body of the loop over the descriptors reads once
for every ready descriptor, and not only for the pipe; each read needs an `int` that a worker has
written or is about to write. -/

namespace FileStorage

/-- A worker that will write to the pipe. -/
def WorkerLoc.busy : WorkerLoc → Bool
  | .serving _ => true
  | .closed => true
  | .failed => true
  | .returning _ => true
  | _ => false

/-- The reads of the current pass that no further descriptor in the queue pays for: the one
`main` is about to do, and the one at the turn of the pipe itself. -/
def MainLoc.due (mwPipe : Nat) : MainLoc → Nat
  | .visit fd rdset => if mwPipe ∈ rdset ∧ fd ≤ mwPipe then 1 else 0
  | .readPipe fd rdset => 1 + if mwPipe ∈ rdset ∧ fd < mwPipe then 1 else 0
  | _ => 0

theorem MainLoc.due_next (m fd : Nat) (rdset : Finset Nat) :
    (MainLoc.visit (fd + 1) rdset).due m ≤ (MainLoc.visit fd rdset).due m := by
  simp only [due]
  split
  · rename_i h
    rw [if_pos ⟨h.1, by omega⟩]
  · exact Nat.zero_le _

theorem MainLoc.due_readPipe (m fd : Nat) (rdset : Finset Nat) :
    (MainLoc.readPipe fd rdset).due m = 1 + (MainLoc.visit (fd + 1) rdset).due m := rfl

theorem Descriptors.socketFd_ne_mwPipe (d : Descriptors) : d.socketFd ≠ d.mwPipe := by
  have h := d.distinct
  simp only [List.nodup_cons, List.mem_cons, List.not_mem_nil, or_false, not_or] at h
  exact Ne.symm h.2.2.1

namespace Dispatcher

open Machine

variable {d : Descriptors} {s t : Dispatcher} {c fd i : Nat} {w w' : WorkerLoc}

/-- The `int`s in the pipe and those still to come: one for each queued descriptor and for each
worker that has one in hand. -/
def supply (s : Dispatcher) : Nat :=
  s.mwPipe.length + s.requestQueue.length + s.workers.countP WorkerLoc.busy

/-- A blocking read that no worker will satisfy. -/
def OverReads (s : Dispatcher) : Prop :=
  (∃ fd rdset, s.main = .readPipe fd rdset) ∧ s.mwPipe = [] ∧ s.requestQueue = [] ∧
    ∀ w ∈ s.workers, w.busy = false

/-- There is an `int` to spare beyond the reads that are due. -/
def Spare (d : Descriptors) (s : Dispatcher) : Prop := s.main.due d.mwPipe < s.supply

instance (d : Descriptors) (s : Dispatcher) : Decidable (Spare d s) := Nat.decLt _ _

/-- `select` reports the pipe only when it holds something. -/
def Sound (d : Descriptors) (s : Dispatcher) : Action → Prop
  | .main (.select rdset) => d.mwPipe ∈ rdset → s.mwPipe ≠ []
  | _ => True

/-- The steps that need an `int` to spare: those that bring a read without one (a new connection,
or a descriptor that could not be queued, in a pass for which the pipe was reported) and those
that lose one (a failed write). -/
def Affords (d : Descriptors) (s : Dispatcher) : Action → Prop
  | .main (.accept (some _)) => s.main.Reported d.mwPipe → Spare d s
  | .main (.dispatch inserted _) => inserted = false → s.main.Reported d.mwPipe → Spare d s
  | .worker _ .writeFails => Spare d s
  | _ => True

instance (d : Descriptors) (s : Dispatcher) (a : Action) : Decidable (Sound d s a) := by
  unfold Sound
  split <;> infer_instance

instance (d : Descriptors) (s : Dispatcher) (a : Action) : Decidable (Affords d s a) := by
  unfold Affords
  split <;> infer_instance

/-- The tokens are inserted after the loop of `main`. -/
def TokensLast (s : Dispatcher) : Prop := none ∈ s.requestQueue → ∃ n, s.main = .terminate n

theorem TokensLast.step {a : Action} (hs : TokensLast s) (h : Step d s a t) : TokensLast t := by
  intro hn
  have htok : (∀ n, s.main ≠ .terminate n) → none ∉ s.requestQueue := fun hm hn => by
    obtain ⟨n, hn⟩ := hs hn
    exact hm n hn
  cases h with
  | main h =>
    cases h with
    | leave _ _ => exact ⟨_, rfl⟩
    | terminate _ _ => exact ⟨_, rfl⟩
    | @dispatched fd rdset inserted woken t hm _ _ _ ht =>
      obtain ⟨ws, -, rfl⟩ := enqueue_cases ht
      refine (htok (by simp [hm]) ?_).elim
      cases inserted <;> simpa [visited, goto, fdClr] using hn
    | loop hm _ => exact (htok (by simp [hm]) hn).elim
    | signalled hm _ _ => exact (htok (by simp [hm]) hn).elim
    | selected hm _ _ => exact (htok (by simp [hm]) hn).elim
    | exhausted hm => exact (htok (by simp [hm]) hn).elim
    | skip hm _ => exact (htok (by simp [hm]) hn).elim
    | pipe hm _ => exact (htok (by simp [hm]) hn).elim
    | refused hm => exact (htok (by simp [hm]) hn).elim
    | accepted hm _ _ _ => exact (htok (by simp [hm]) hn).elim
    | readNone hm _ => exact (htok (by simp [hm]) hn).elim
    | read hm _ => exact (htok (by simp [hm]) hn).elim
    | readFails hm => exact (htok (by simp [hm]) hn).elim
    | drained hm _ _ => exact (htok (by simp [hm]) hn).elim
    | again hm _ => exact (htok (by simp [hm]) hn).elim
  | worker h =>
    cases h with
    | token _ hq => exact hs (by rw [hq]; exact List.mem_cons_self)
    | take _ hq => exact hs (by rw [hq]; exact List.mem_cons_of_mem _ hn)
    | _ => exact hs hn
  | handler h => cases h <;> exact hs hn

/-- The reads that are due can be satisfied. -/
def Supplied (d : Descriptors) (s : Dispatcher) : Prop := s.main.due d.mwPipe ≤ s.supply

theorem supply_signal {ws ws' : List WorkerLoc} {woken : Option Nat}
    (h : signal ws woken = some ws') :
    ws'.countP WorkerLoc.busy = ws.countP WorkerLoc.busy := by
  rcases signal_cases h with ⟨-, rfl⟩ | ⟨i, hi, rfl⟩
  · rfl
  · exact countP_set WorkerLoc.busy hi

theorem due_visited (fd : Nat) (rdset : Finset Nat) (hne : fd ≠ d.mwPipe) :
    (visited d s fd rdset).main.due d.mwPipe =
      (if d.mwPipe ∈ rdset then 1 else 0) + (MainLoc.visit fd rdset).due d.mwPipe := by
  unfold visited goto
  by_cases hr : d.mwPipe ∈ rdset
  · have hlt : fd < d.mwPipe ↔ fd ≤ d.mwPipe := by omega
    simp [hr, MainLoc.due, hlt]
  · simp [hr, MainLoc.due]

theorem Supplied.mainStep {a : MainAction} (hs : Supplied d s) (hr : Sound d s (.main a))
    (ha : Affords d s (.main a)) (h : MainStep d s a t) : Supplied d t := by
  have henough := hs
  rw [Supplied] at henough
  cases h with
  | loop hm _ => exact Nat.zero_le _
  | leave hm _ => exact Nat.zero_le _
  | signalled hm _ _ => exact Nat.zero_le _
  | @selected rdset hm _ _ =>
    change (if d.mwPipe ∈ rdset ∧ 0 ≤ d.mwPipe then 1 else 0) ≤ s.supply
    by_cases hmem : d.mwPipe ∈ rdset
    · have hpos := List.length_pos_iff.mpr (hr hmem)
      simp only [supply]
      split <;> omega
    · simp [hmem]
  | exhausted hm => exact Nat.zero_le _
  | @skip fd rdset hm hf =>
    rw [hm] at henough
    exact Nat.le_trans (MainLoc.due_next _ _ _) henough
  | @pipe rdset hm hf =>
    rw [hm] at henough
    refine Nat.le_trans ?_ henough
    simp [goto, MainLoc.due, hf]
  | @refused rdset hm =>
    rw [hm] at henough
    exact Nat.le_trans (MainLoc.due_next _ _ _) henough
  | @accepted rdset c hm hf hn hc =>
    have hdue := @due_visited d (s.accepted c) d.socketFd rdset d.socketFd_ne_mwPipe
    rw [Supplied, hdue]
    change _ ≤ s.supply
    have hspare := ha
    simp only [Affords, Spare, hm, MainLoc.Reported] at hspare
    rw [hm] at henough
    split
    · have := hspare ‹_›
      omega
    · omega
  | @dispatched fd rdset inserted woken t hm hf hp hn ht =>
    obtain ⟨ws, hws, rfl⟩ := enqueue_cases ht
    have hbusy := supply_signal hws
    have hdue := fun s => @due_visited d s fd rdset hp
    rw [hm] at henough
    rw [Supplied, hdue]
    simp only [supply, visited, goto, fdClr, hbusy] at henough ⊢
    cases inserted with
    | true =>
      simp only [if_true, List.length_append, List.length_singleton]
      split <;> omega
    | false =>
      have hspare := ha
      simp only [Affords, Spare, hm, MainLoc.Reported, supply, true_implies] at hspare
      simp only [Bool.false_eq_true, if_false]
      split
      · have := hspare ‹_›
        omega
      · omega
  | @readNone fd rdset rest hm hp =>
    rw [hm, MainLoc.due_readPipe, supply, hp, List.length_cons] at henough
    change (MainLoc.visit (fd + 1) rdset).due d.mwPipe ≤
      rest.length + s.requestQueue.length + s.workers.countP WorkerLoc.busy
    omega
  | @read fd newFd rdset rest hm hp =>
    rw [hm, MainLoc.due_readPipe, supply, hp, List.length_cons] at henough
    change (MainLoc.visit (fd + 1) rdset).due d.mwPipe ≤
      rest.length + s.requestQueue.length + s.workers.countP WorkerLoc.busy
    omega
  | @readFails fd rdset hm =>
    rw [hm, MainLoc.due_readPipe] at henough
    exact Nat.le_trans (Nat.le_add_left _ _) henough
  | drained hm _ _ => exact Nat.zero_le _
  | again hm _ => exact Nat.zero_le _
  | terminate _ _ => exact Nat.zero_le _

theorem WorkerStep.main {a : WorkerAction} (h : WorkerStep s i a t) : t.main = s.main := by
  cases h <;> rfl

/-- A worker turns a queued descriptor into one in its hands and that into an `int` in the pipe. An
`int` is lost with a token and with a failed write. -/
theorem WorkerStep.supply {a : WorkerAction} (h : WorkerStep s i a t) : t.supply = s.supply ∨
    t.supply + 1 = s.supply ∧ (none ∈ s.requestQueue ∨ a = .writeFails) := by
  have hmove : ∀ {w : WorkerLoc} (w' : WorkerLoc), s.workers[i]? = some w →
      (s.workers.set i w').countP WorkerLoc.busy + (if w.busy then 1 else 0) =
        s.workers.countP WorkerLoc.busy + if w'.busy then 1 else 0 :=
    fun w' hw => countP_set WorkerLoc.busy hw
  have hsame : ∀ {w : WorkerLoc} (w' : WorkerLoc), s.workers[i]? = some w → w'.busy = w.busy →
      (s.workers.set i w').countP WorkerLoc.busy = s.workers.countP WorkerLoc.busy := by
    intro w w' hw hb
    have h := hmove w' hw
    rw [hb] at h
    exact Nat.add_right_cancel h
  have hkeep : ∀ {w : WorkerLoc} (w' : WorkerLoc), s.workers[i]? = some w → w'.busy = w.busy →
      (s.move i w').supply = s.supply := fun w' hw hb =>
    congrArg (s.mwPipe.length + s.requestQueue.length + ·) (hsame w' hw hb)
  cases h with
  | enter hw _ => exact .inl (hkeep _ hw rfl)
  | stop hw _ => exact .inl (hkeep _ hw rfl)
  | sleep hw _ => exact .inl (hkeep _ hw rfl)
  | @token rest hw hq =>
    refine .inr ⟨?_, .inl (by simp [hq])⟩
    have h := hsame .exited hw rfl
    simp only [Dispatcher.supply, move, hq, h, List.length_cons]
    omega
  | @take fd rest hw hq =>
    have h := hmove (.serving fd) hw
    simp only [WorkerLoc.busy, if_true, Bool.false_eq_true, if_false] at h
    refine .inl ?_
    simp only [Dispatcher.supply, move, hq, List.length_cons]
    omega
  | wake hw => exact .inl (hkeep _ hw rfl)
  | serve hw _ => exact .inl (hkeep _ hw rfl)
  | close hw _ => exact .inl (hkeep _ hw rfl)
  | fail hw => exact .inl (hkeep _ hw rfl)
  | decrement hw => exact .inl (hkeep _ hw rfl)
  | @write x hw =>
    have h := hmove .bottom hw
    simp only [WorkerLoc.busy, if_true, Bool.false_eq_true, if_false] at h
    refine .inl ?_
    simp only [Dispatcher.supply, move, List.length_append, List.length_singleton]
    omega
  | writeFails hw =>
    have h := hmove .exited hw
    simp only [WorkerLoc.busy, if_true, Bool.false_eq_true, if_false] at h
    refine .inr ⟨?_, .inr rfl⟩
    simp only [Dispatcher.supply, move]
    omega
  | crash hw =>
    have h := hmove .exited hw
    simp only [WorkerLoc.busy, if_true, Bool.false_eq_true, if_false] at h
    refine .inl ?_
    simp only [Dispatcher.supply, move, List.length_append, List.length_singleton]
    omega
  | crashSilent hw =>
    have h := hmove .exited hw
    simp only [WorkerLoc.busy, if_true, Bool.false_eq_true, if_false] at h
    refine .inr ⟨?_, .inr rfl⟩
    simp only [Dispatcher.supply, move]
    omega
  | loop hw _ => exact .inl (hkeep _ hw rfl)
  | finish hw _ => exact .inl (hkeep _ hw rfl)

theorem Supplied.workerStep {a : WorkerAction} (hs : Supplied d s) (hl : TokensLast s)
    (ha : Affords d s (.worker i a)) (h : WorkerStep s i a t) : Supplied d t := by
  rw [Supplied] at hs ⊢
  rw [h.main]
  rcases h.supply with heq | ⟨heq, hq | rfl⟩
  · omega
  · obtain ⟨n, hn⟩ := hl hq
    rw [hn]
    exact Nat.zero_le _
  · have hspare : Spare d s := ha
    rw [Spare] at hspare
    omega

theorem Supplied.step {a : Action} (hs : Supplied d s) (hl : TokensLast s) (hr : Sound d s a)
    (ha : Affords d s a) (h : Step d s a t) : Supplied d t := by
  cases h with
  | main h => exact hs.mainStep hr ha h
  | worker h => exact hs.workerStep hl ha h
  | handler h => cases h <;> exact hs

/-- In a run that affords its reads, `main` never waits for an `int` that no worker will write. -/
theorem never_overReads {d : Descriptors} {n : Nat} {h : List (Dispatcher × Action)}
    {t : Dispatcher}
    (hr : Reaches (step d) (fun s a => Sound d s a ∧ Affords d s a) (Dispatcher.init d n) h t) :
    ¬t.OverReads := by
  have hs : Supplied d t ∧ TokensLast t := by
    refine hr.always (I := fun t => Supplied d t ∧ TokensLast t)
      ⟨Nat.zero_le _, by simp [TokensLast, Dispatcher.init]⟩ ?_
    intro t a u hs hc hstep
    have hstep := (step_cases hstep).2
    exact ⟨hs.1.step hs.2 hc.1 hc.2 hstep, hs.2.step hstep⟩
  rintro ⟨⟨fd, rdset, hm⟩, hpipe, hqueue, hbusy⟩
  have henough := hs.1
  have hzero : t.workers.countP WorkerLoc.busy = 0 := List.countP_eq_zero.mpr (by simpa using hbusy)
  rw [Supplied, hm, MainLoc.due_readPipe, supply, hpipe, hqueue, hzero] at henough
  simp only [List.length_nil] at henough
  omega

theorem never_overReads_served : ∃ h t,
    Reaches (step descriptors) (fun s a => Sound descriptors s a ∧ Affords descriptors s a)
      (Dispatcher.init descriptors 1) h t ∧ t.main = .head ∧ t.mwPipe = [some 11] ∧
    ¬t.OverReads := by
  obtain ⟨h, t, hr, -, hp⟩ := exists_run (step descriptors)
    (fun s a => Sound descriptors s a ∧ Affords descriptors s a) (Dispatcher.init descriptors 1)
    served (fun t => decide (t.main = .head ∧ t.mwPipe = [some 11])) (by decide)
  obtain ⟨hm, hpipe⟩ : t.main = .head ∧ t.mwPipe = [some 11] := by simpa using hp
  exact ⟨h, t, hr, hm, hpipe, never_overReads hr⟩

/-- A client returns and a new one arrives in the same pass. -/
theorem overReads_new_client : ∃ h t,
    Reaches (step descriptors)
      (fun s a => Sound descriptors s a ∧ fails a = false ∧ loses a = false)
      (Dispatcher.init descriptors 1) h t ∧ 12 ∈ t.connections ∧ t.OverReads := by
  obtain ⟨h, t, hr, -, hp⟩ := exists_run (step descriptors)
    (fun s a => Sound descriptors s a ∧ fails a = false ∧ loses a = false)
    (Dispatcher.init descriptors 1)
    (served ++ [.main .head, .main (.select {8, 10})] ++ List.replicate 9 (.main .skip) ++
      [.main .read, .main .skip, .main (.accept (some 12))])
    (fun t => decide (12 ∈ t.connections ∧ t.main = .readPipe 10 {8, 10} ∧ t.mwPipe = [] ∧
      t.requestQueue = [] ∧ ∀ w ∈ t.workers, w.busy = false)) (by decide)
  obtain ⟨hc, hm, hpipe, hqueue, hbusy⟩ := of_decide_eq_true hp
  exact ⟨h, t, hr, hc, ⟨_, _, hm⟩, hpipe, hqueue, hbusy⟩

end Dispatcher

end FileStorage
