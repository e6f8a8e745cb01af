import FileStorage.Conservation

/-! `shutdown_all_threads`: once the flag is set and every worker has been sent a token, each of
them can leave its loop. -/

namespace FileStorage

/-- A worker that may still take something from the queue after the flag has been set. -/
def WorkerLoc.open : WorkerLoc → Bool
  | .ready => true
  | .asleep => true
  | _ => false

/-- The tokens still to insert when there is one for each of `n` workers. -/
def MainLoc.left (n : Nat) : MainLoc → Nat
  | .terminate k => k
  | _ => n

namespace Dispatcher

open Machine

variable {d : Descriptors} {s t : Dispatcher} {a : Action} {i n : Nat} {w w' : WorkerLoc}

def takers (s : Dispatcher) : Nat := s.workers.countP WorkerLoc.open

def sleepers (s : Dispatcher) : Nat := s.workers.countP fun w => w = .asleep

theorem sleepers_le_takers (s : Dispatcher) : s.sleepers ≤ s.takers := by
  refine List.countP_mono_left fun w _ hw => ?_
  rw [of_decide_eq_true hw]
  rfl

/-- A request that crashes the process, or a token that is not inserted. -/
def disorderly : Action → Bool
  | .worker _ .fail => true
  | .main (.terminate inserted _) => !inserted
  | _ => false

/-- After the flag has been set there are no more sleepers than tokens still to come, and no more
takers than there will be items. -/
structure Closing (n : Nat) (s : Dispatcher) : Prop where
  down : s.shutdownNow = true
  alive : s.crashed = false
  sane : .failed ∉ s.workers
  size : s.workers.length = n
  sleepers : s.sleepers ≤ s.main.left n
  enough : s.takers ≤ s.requestQueue.length + s.main.left n

theorem notMem_set {ws : List WorkerLoc} {x : WorkerLoc} (h : x ∉ ws) (hw : w' ≠ x) :
    x ∉ ws.set i w' := fun hm => (List.mem_or_eq_of_mem_set hm).elim h fun he => hw he.symm

theorem signal_length {ws ws' : List WorkerLoc} {woken : Option Nat}
    (h : signal ws woken = some ws') : ws'.length = ws.length := by
  rcases signal_cases h with ⟨-, rfl⟩ | ⟨i, -, rfl⟩
  · rfl
  · exact List.length_set

theorem signal_sane {ws ws' : List WorkerLoc} {woken : Option Nat}
    (h : signal ws woken = some ws') (hs : .failed ∉ ws) : .failed ∉ ws' := by
  rcases signal_cases h with ⟨-, rfl⟩ | ⟨i, -, rfl⟩
  · exact hs
  · exact notMem_set hs nofun

theorem signal_takers {ws ws' : List WorkerLoc} {woken : Option Nat}
    (h : signal ws woken = some ws') :
    ws'.countP WorkerLoc.open = ws.countP WorkerLoc.open := by
  rcases signal_cases h with ⟨-, rfl⟩ | ⟨i, hi, rfl⟩
  · rfl
  · have h := countP_set WorkerLoc.open (b := .ready) hi
    exact Nat.add_right_cancel h

/-- A signal wakes a sleeper if there is one. -/
theorem signal_sleepers {ws ws' : List WorkerLoc} {woken : Option Nat}
    (h : signal ws woken = some ws') :
    ws'.countP (fun w => decide (w = .asleep)) = ws.countP (fun w => decide (w = .asleep)) - 1 := by
  rcases signal_cases h with ⟨hn, heq⟩ | ⟨i, hi, rfl⟩
  · have hz : ws.countP (fun w => decide (w = .asleep)) = 0 := by
      refine List.countP_eq_zero.mpr fun w hw => ?_
      simp only [decide_eq_true_eq]
      rintro rfl
      exact hn hw
    rw [heq]
    omega
  · have h := countP_set (fun w => decide (w = .asleep)) (b := WorkerLoc.ready) hi
    simp only [decide_true, if_true, reduceCtorEq, decide_false, Bool.false_eq_true, if_false] at h
    omega

/-- A worker that is not a taker afterwards unless it was one, and sleeps only if it did. -/
theorem Closing.move (hs : Closing n s) (hw : s.workers[i]? = some w)
    (ho : w'.open = true → w.open = true) (ha : w' ≠ .asleep) (hf : w' ≠ .failed) :
    Closing n (s.move i w') := by
  have h1 := countP_set WorkerLoc.open (b := w') hw
  have h2 := countP_set (fun w => decide (w = .asleep)) (b := w') hw
  have hsl := hs.sleepers
  have hen := hs.enough
  refine ⟨hs.down, hs.alive, notMem_set hs.sane hf, List.length_set.trans hs.size, ?_, ?_⟩
  · change (s.workers.set i w').countP _ ≤ s.main.left n
    rw [Dispatcher.sleepers] at hsl
    simp only [ha, decide_false, Bool.false_eq_true, if_false] at h2
    omega
  · change (s.workers.set i w').countP _ ≤ s.requestQueue.length + s.main.left n
    rw [takers] at hen
    by_cases hw' : w'.open = true
    · rw [if_pos hw', if_pos (ho hw')] at h1
      omega
    · rw [if_neg hw'] at h1
      omega

/-- A worker that takes the head of the queue is no taker any more. -/
theorem Closing.take (hs : Closing n s) (hw : s.workers[i]? = some .ready) {x : Token}
    {rest : List Token} (hq : s.requestQueue = x :: rest) (ho : w'.open = false)
    (hf : w' ≠ .failed) : Closing n ({ s with requestQueue := rest }.move i w') := by
  have ha : w' ≠ .asleep := by
    rintro rfl
    cases ho
  have h1 := countP_set WorkerLoc.open (b := w') hw
  have h2 := countP_set (fun w => decide (w = .asleep)) (b := w') hw
  have hsl := hs.sleepers
  have hen := hs.enough
  have hr : WorkerLoc.ready.open = true := rfl
  simp only [ho, hr, if_true, Bool.false_eq_true, if_false] at h1
  simp only [ha, reduceCtorEq, decide_false, Bool.false_eq_true, if_false] at h2
  rw [Dispatcher.sleepers] at hsl
  rw [takers, hq, List.length_cons] at hen
  refine ⟨hs.down, hs.alive, notMem_set hs.sane hf, List.length_set.trans hs.size, ?_, ?_⟩
  · change (s.workers.set i w').countP _ ≤ s.main.left n
    omega
  · change (s.workers.set i w').countP _ ≤ rest.length + s.main.left n
    omega

theorem Closing.workerStep {b : WorkerAction} (hs : Closing n s)
    (hc : disorderly (.worker i b) = false) (h : WorkerStep s i b t) : Closing n t := by
  have hdown : s.shutdownNow ≠ false := by simp [hs.down]
  have hsl := hs.sleepers
  have hen := hs.enough
  cases h with
  | enter _ hf => exact absurd hf hdown
  | stop hw _ => exact hs.move hw nofun nofun nofun
  | sleep hw hq =>
    have h1 := countP_set WorkerLoc.open (b := .asleep) hw
    have htakers : (s.move i .asleep).takers = s.takers := Nat.add_right_cancel h1
    have hle := sleepers_le_takers (s.move i .asleep)
    rw [htakers] at hle
    rw [hq, List.length_nil, Nat.zero_add] at hen
    refine ⟨hs.down, hs.alive, notMem_set hs.sane nofun, List.length_set.trans hs.size,
      Nat.le_trans hle hen, ?_⟩
    rw [htakers]
    exact Nat.le_trans hen (Nat.le_add_left _ _)
  | token hw hq => exact hs.take hw hq rfl nofun
  | take hw hq => exact hs.take hw hq rfl nofun
  | wake hw => exact hs.move hw (fun _ => rfl) nofun nofun
  | serve hw _ => exact hs.move hw nofun nofun nofun
  | @close fd hw _ =>
    have h1 : Closing n { s with connections := s.connections.erase fd } :=
      ⟨hs.down, hs.alive, hs.sane, hs.size, hsl, hen⟩
    exact h1.move hw nofun nofun nofun
  | fail _ => cases hc
  | decrement hw =>
    have h1 : Closing n { s with currentConnections := s.currentConnections - 1 } :=
      ⟨hs.down, hs.alive, hs.sane, hs.size, hsl, hen⟩
    exact h1.move hw nofun nofun nofun
  | @write x hw =>
    have h1 : Closing n { s with mwPipe := s.mwPipe ++ [x] } :=
      ⟨hs.down, hs.alive, hs.sane, hs.size, hsl, hen⟩
    exact h1.move hw nofun nofun nofun
  | writeFails hw => exact hs.move hw nofun nofun nofun
  | crash hw => exact absurd (List.mem_of_getElem? hw) hs.sane
  | crashSilent hw => exact absurd (List.mem_of_getElem? hw) hs.sane
  | loop _ hf => exact absurd hf hdown
  | finish hw _ => exact hs.move hw nofun nofun nofun

/-- A step of the loop of `main`, which may put more clients into the queue. -/
theorem Closing.of_loop (hs : Closing n s) (ht : t.workers = s.workers)
    (hq : s.requestQueue.length ≤ t.requestQueue.length) (hd : t.shutdownNow = true)
    (hc : t.crashed = s.crashed) (hl : s.main.left n ≤ t.main.left n) : Closing n t := by
  have hsl := hs.sleepers
  have hen := hs.enough
  refine ⟨hd, hc.trans hs.alive, ht ▸ hs.sane, ht ▸ hs.size, ?_, ?_⟩
  · rw [Dispatcher.sleepers, ht]
    exact Nat.le_trans hsl hl
  · rw [takers, ht]
    exact Nat.le_trans hen (Nat.add_le_add hq hl)

theorem Closing.enqueue (hs : Closing n s) {x : Token} {inserted : Bool} {woken : Option Nat}
    (h : s.enqueue x inserted woken = some t) :
    t.shutdownNow = true ∧ t.crashed = false ∧ .failed ∉ t.workers ∧ t.workers.length = n ∧
      t.sleepers = s.sleepers - 1 ∧ t.takers = s.takers ∧ t.main = s.main ∧
      t.requestQueue = if inserted then s.requestQueue ++ [x] else s.requestQueue := by
  obtain ⟨ws, hws, rfl⟩ := enqueue_cases h
  exact ⟨hs.down, hs.alive, signal_sane hws hs.sane, (signal_length hws).trans hs.size,
    signal_sleepers hws, signal_takers hws, rfl, rfl⟩

theorem Closing.mainStep {b : MainAction} (hs : Closing n s)
    (hc : disorderly (.main b) = false) (h : MainStep d s b t) : Closing n t := by
  have hsl := hs.sleepers
  have hen := hs.enough
  have hleft : ∀ l : MainLoc, (∀ k, l ≠ .terminate k) → l.left n = n := by
    intro l hl
    cases l with
    | terminate k => exact absurd rfl (hl k)
    | _ => rfl
  have hloop : ∀ u : Dispatcher, u.workers = s.workers → u.requestQueue = s.requestQueue →
      u.shutdownNow = true → u.crashed = s.crashed → (∀ k, s.main ≠ .terminate k) →
      u.main.left n = n → Closing n u := by
    intro u hw hq hd hcr hm hl
    exact hs.of_loop hw (Nat.le_of_eq (by rw [hq])) hd hcr (by rw [hleft _ hm, hl])
  cases h with
  | loop hm hf => exact hloop _ rfl rfl hs.down rfl (by simp [hm]) rfl
  | leave hm _ => exact hloop _ rfl rfl hs.down rfl (by simp [hm]) hs.size
  | signalled hm _ _ => exact hloop _ rfl rfl hs.down rfl (by simp [hm]) rfl
  | selected hm _ _ => exact hloop _ rfl rfl hs.down rfl (by simp [hm]) rfl
  | exhausted hm => exact hloop _ rfl rfl hs.down rfl (by simp [hm]) rfl
  | skip hm _ => exact hloop _ rfl rfl hs.down rfl (by simp [hm]) rfl
  | pipe hm _ => exact hloop _ rfl rfl hs.down rfl (by simp [hm]) rfl
  | refused hm => exact hloop _ rfl rfl hs.down rfl (by simp [hm]) rfl
  | accepted hm _ _ _ =>
    refine hloop _ rfl rfl hs.down rfl (by simp [hm]) (hleft _ fun k => ?_)
    unfold visited goto
    split <;> nofun
  | @dispatched fd rdset inserted woken t hm _ _ _ ht =>
    obtain ⟨h1, h2, h3, h4, h5, h6, h7, h8⟩ := hs.enqueue ht
    have hl : (visited d (t.fdClr fd) fd rdset).main.left n = n := by
      refine hleft _ fun k => ?_
      unfold visited goto
      split <;> nofun
    rw [hm] at hsl hen
    refine ⟨h1, h2, h3, h4, ?_, ?_⟩
    · rw [hl]
      change t.sleepers ≤ n
      change s.sleepers ≤ n at hsl
      omega
    · rw [hl]
      change t.takers ≤ t.requestQueue.length + n
      change s.takers ≤ s.requestQueue.length + n at hen
      rw [h6, h8]
      split
      · rw [List.length_append]
        omega
      · exact hen
  | readNone hm _ => exact hloop _ rfl rfl hs.down rfl (by simp [hm]) rfl
  | read hm _ => exact hloop _ rfl rfl hs.down rfl (by simp [hm]) rfl
  | readFails hm => exact hloop _ rfl rfl hs.down rfl (by simp [hm]) rfl
  | drained hm _ _ => exact hloop _ rfl rfl rfl rfl (by simp [hm]) rfl
  | again hm _ => exact hloop _ rfl rfl hs.down rfl (by simp [hm]) rfl
  | @terminate left inserted woken t hm ht =>
    obtain ⟨h1, h2, h3, h4, h5, h6, h7, h8⟩ := hs.enqueue ht
    obtain rfl : inserted = true := by simpa [disorderly] using hc
    rw [hm] at hsl hen
    refine ⟨h1, h2, h3, h4, ?_, ?_⟩
    · change t.sleepers ≤ left
      change s.sleepers ≤ left + 1 at hsl
      omega
    · change t.takers ≤ t.requestQueue.length + left
      change s.takers ≤ s.requestQueue.length + (left + 1) at hen
      rw [h6, h8, if_pos rfl, List.length_append, List.length_singleton]
      omega

theorem Closing.step (hs : Closing n s) (hc : disorderly a = false) (h : Step d s a t) :
    Closing n t := by
  cases h with
  | main h => exact hs.mainStep hc h
  | worker h => exact hs.workerStep hc h
  | handler h =>
    cases h with
    | sigint _ => exact ⟨rfl, hs.alive, hs.sane, hs.size, hs.sleepers, hs.enough⟩
    | _ => exact ⟨hs.down, hs.alive, hs.sane, hs.size, hs.sleepers, hs.enough⟩

/-! ### What each worker takes -/

/-- How many items worker `i` has taken in a run. -/
def taken (i : Nat) (h : List (Dispatcher × Action)) : Nat :=
  h.countP fun x => x.2 = .worker i .take ∧ x.1.requestQueue ≠ []

/-- A worker that has taken something is no taker. -/
def TakesOnce (i : Nat) (h : List (Dispatcher × Action)) (s : Dispatcher) : Prop :=
  taken i h ≤ 1 ∧ ∀ w, s.workers[i]? = some w → w.open = true → taken i h = 0

theorem taken_snoc (i : Nat) (h : List (Dispatcher × Action)) (s : Dispatcher) (a : Action) :
    taken i (h ++ [(s, a)]) =
      taken i h + if a = .worker i .take ∧ s.requestQueue ≠ [] then 1 else 0 := by
  simp only [taken, List.countP_append, List.countP_singleton, decide_eq_true_eq]

theorem getElem?_set_cases {ws : List WorkerLoc} {i j : Nat} (h : (ws.set j w)[i]? = some w') :
    (i = j ∧ w' = w) ∨ i ≠ j ∧ ws[i]? = some w' := by
  rw [List.getElem?_set] at h
  by_cases hij : j = i
  · rw [if_pos hij] at h
    split at h
    · exact .inl ⟨hij.symm, (Option.some.inj h).symm⟩
    · cases h
  · rw [if_neg hij] at h
    exact .inr ⟨Ne.symm hij, h⟩

/-- No step makes a taker of a worker that is none or that has just taken something. -/
theorem WorkerStep.opened {j : Nat} {b : WorkerAction} (h : WorkerStep s j b t)
    (hd : s.shutdownNow = true) (hw' : t.workers[i]? = some w') (ho : w'.open = true) :
    ∃ w, s.workers[i]? = some w ∧ w.open = true ∧ (j = i → b = .take → s.requestQueue = []) := by
  have hmove : ∀ x : WorkerLoc, (s.workers.set j x)[i]? = some w' → x.open = false →
      ∃ w, s.workers[i]? = some w ∧ w.open = true ∧ (j = i → b = .take → s.requestQueue = []) := by
    intro x hx hno
    rcases getElem?_set_cases hx with ⟨-, rfl⟩ | ⟨hne, hw⟩
    · rw [hno] at ho
      cases ho
    · exact ⟨w', hw, ho, fun h => absurd h.symm hne⟩
  cases h with
  | enter _ hf => rw [hd] at hf; cases hf
  | sleep hw hq =>
    rcases getElem?_set_cases hw' with ⟨rfl, -⟩ | ⟨hne, hw⟩
    · exact ⟨_, hw, rfl, fun _ _ => hq⟩
    · exact ⟨w', hw, ho, fun h => absurd h.symm hne⟩
  | wake hw =>
    rcases getElem?_set_cases hw' with ⟨rfl, -⟩ | ⟨hne, hw⟩
    · exact ⟨_, hw, rfl, fun _ => nofun⟩
    · exact ⟨w', hw, ho, fun h => absurd h.symm hne⟩
  | loop _ hf => rw [hd] at hf; cases hf
  | _ => exact hmove _ hw' rfl

theorem MainStep.opened {b : MainAction} (h : MainStep d s b t) (hw' : t.workers[i]? = some w')
    (ho : w'.open = true) : ∃ w, s.workers[i]? = some w ∧ w.open = true := by
  have hsig : ∀ {woken : Option Nat} {ws : List WorkerLoc}, signal s.workers woken = some ws →
      ws[i]? = some w' → ∃ w, s.workers[i]? = some w ∧ w.open = true := by
    intro woken ws hws hw
    rcases signal_cases hws with ⟨-, rfl⟩ | ⟨j, hj, rfl⟩
    · exact ⟨w', hw, ho⟩
    · rcases getElem?_set_cases hw with ⟨rfl, -⟩ | ⟨-, hw⟩
      · exact ⟨_, hj, rfl⟩
      · exact ⟨w', hw, ho⟩
  cases h with
  | dispatched _ _ _ _ ht =>
    obtain ⟨ws, hws, rfl⟩ := enqueue_cases ht
    exact hsig hws hw'
  | terminate _ ht =>
    obtain ⟨ws, hws, rfl⟩ := enqueue_cases ht
    exact hsig hws hw'
  | _ => exact ⟨w', hw', ho⟩

theorem TakesOnce.step {h : List (Dispatcher × Action)} (hs : TakesOnce i h s)
    (hd : s.shutdownNow = true) (hst : Step d s a t) : TakesOnce i (h ++ [(s, a)]) t := by
  obtain ⟨hle, hopen⟩ := hs
  rw [TakesOnce, taken_snoc]
  cases hst with
  | main hm =>
    rw [if_neg (by simp)]
    refine ⟨hle, fun w' hw' ho => ?_⟩
    obtain ⟨w, hw, ho⟩ := hm.opened hw' ho
    exact hopen w hw ho
  | handler hh =>
    rw [if_neg (by simp)]
    cases hh <;> exact ⟨hle, hopen⟩
  | @worker j b _ hwk =>
    by_cases htake : Action.worker j b = .worker i .take ∧ s.requestQueue ≠ []
    · obtain ⟨heq, hq⟩ := htake
      obtain ⟨rfl, rfl⟩ : j = i ∧ b = .take := by simpa using heq
      have hready : s.workers[j]? = some .ready := by cases hwk <;> assumption
      have hzero := hopen _ hready rfl
      rw [if_pos ⟨rfl, hq⟩]
      refine ⟨by omega, fun w' hw' ho => ?_⟩
      obtain ⟨-, -, -, hnil⟩ := hwk.opened hd hw' ho
      exact absurd (hnil rfl rfl) hq
    · rw [if_neg htake]
      refine ⟨hle, fun w' hw' ho => ?_⟩
      obtain ⟨w, hw, ho, -⟩ := hwk.opened hd hw' ho
      exact hopen w hw ho

/-! ### The end of the workers -/

/-- A worker that has not exited can do something, unless it waits for a signal. -/
theorem exists_step (d : Descriptors) (hc : s.crashed = false) (hw : s.workers[i]? = some w)
    (hx : w ≠ .exited) (ha : w ≠ .asleep) :
    ∃ b, b ≠ .wake ∧ (step d s (.worker i b)).isSome = true := by
  cases w with
  | top => exact ⟨.enter, nofun, by simp [step, hc, workerStep, hw]⟩
  | ready =>
    refine ⟨.take, nofun, ?_⟩
    rw [step, if_neg (by simp [hc])]
    simp only [workerStep, hw]
    rcases s.requestQueue with _ | ⟨_ | fd, rest⟩ <;> rfl
  | asleep => exact absurd rfl ha
  | serving fd => exact ⟨.fail, nofun, by simp [step, hc, workerStep, hw]⟩
  | closed => exact ⟨.decrement, nofun, by simp [step, hc, workerStep, hw]⟩
  | failed => exact ⟨.write, nofun, by simp [step, hc, workerStep, hw]⟩
  | returning x => exact ⟨.write, nofun, by simp [step, hc, workerStep, hw]⟩
  | bottom => exact ⟨.loop, nofun, by simp [step, hc, workerStep, hw]⟩
  | exited => exact absurd rfl hx

/-- Neither `main` nor a worker can go on: only spurious wake-ups are possible. -/
def Quiescent (d : Descriptors) (s : Dispatcher) : Prop :=
  (∀ a, step d s (.main a) = none) ∧ ∀ i a, a ≠ .wake → step d s (.worker i a) = none

theorem Closing.exited (hs : Closing n s) {k : Nat} (hm : s.main = .terminate k)
    (hq : Quiescent d s) : ∀ w ∈ s.workers, w = .exited := by
  intro w hmem
  obtain ⟨i, hi⟩ := List.getElem?_of_mem hmem
  by_contra hx
  have hawake : ∀ w', w' ∈ s.workers → w' ≠ .exited → w' = .asleep := by
    intro w' hmem' hx'
    obtain ⟨j, hj⟩ := List.getElem?_of_mem hmem'
    by_contra ha
    obtain ⟨b, hb, hsome⟩ := exists_step d hs.alive hj hx' ha
    rw [hq.2 j b hb] at hsome
    cases hsome
  obtain rfl := hawake w hmem hx
  cases k with
  | zero =>
    have hpos : 0 < s.sleepers := List.countP_pos_iff.mpr ⟨_, hmem, by simp⟩
    have hle := hs.sleepers
    rw [hm] at hle
    exact absurd hpos (Nat.not_lt.mpr hle)
  | succ k =>
    -- the next token can be inserted, and its signal wakes this worker
    have hnone := hq.1 (.terminate true (some i))
    simp [Dispatcher.step, hs.alive, Dispatcher.mainStep, hm, Dispatcher.enqueue, signal, hi]
      at hnone

/-- From any state in which the flag is set and no token has been inserted: when all tokens are
in, no worker sleeps; when nothing more can happen, all have exited; and each has taken at most one
item. -/
theorem workers_terminate {h : List (Dispatcher × Action)} (hd : s.shutdownNow = true)
    (hc : s.crashed = false) (hf : .failed ∉ s.workers)
    (hm : s.main.left s.workers.length = s.workers.length)
    (hr : Reaches (step d) (fun _ a => disorderly a = false) s h t) :
    t.workers.length = s.workers.length ∧
    (t.main = .terminate 0 → .asleep ∉ t.workers) ∧
    (∀ k, t.main = .terminate k → Quiescent d t → ∀ w ∈ t.workers, w = .exited) ∧
    ∀ i, taken i h ≤ 1 := by
  have hstart : Closing s.workers.length s := by
    refine ⟨hd, hc, hf, rfl, ?_, ?_⟩
    · rw [hm]
      exact List.countP_le_length
    · rw [hm]
      exact Nat.le_trans List.countP_le_length (Nat.le_add_left _ _)
  have hinv := hr.invariant
    (I := fun h t => Closing s.workers.length t ∧ ∀ i, TakesOnce i h t)
    ⟨hstart, fun i => ⟨Nat.zero_le _, fun _ _ _ => rfl⟩⟩
    fun h t a u hi hc hstep =>
      ⟨hi.1.step hc (step_cases hstep).2, fun i => (hi.2 i).step hi.1.down (step_cases hstep).2⟩
  obtain ⟨hs, htake⟩ := hinv
  refine ⟨hs.size, fun hm0 hmem => ?_, fun k hk hq => hs.exited hk hq, fun i => (htake i).1⟩
  have hpos : 0 < t.sleepers := List.countP_pos_iff.mpr ⟨_, hmem, by simp⟩
  have hle := hs.sleepers
  rw [hm0] at hle
  exact absurd hpos (Nat.not_lt.mpr hle)

/-- A request is left in the queue and one of the two workers sleeps when the tokens come. -/
theorem workers_terminate_leftover : ∃ h t,
    Reaches (step descriptors) (fun _ a => disorderly a = false)
      { init descriptors 2 with
        shutdownNow := true, main := .terminate 2, requestQueue := [some 11],
        connections := {11}, workers := [.asleep, .ready] } h t ∧
    t.main = .terminate 0 ∧ t.workers = [.exited, .exited] ∧ t.requestQueue = [none] ∧
    taken 0 h ≤ 1 := by
  obtain ⟨h, t, hr, -, hp⟩ := exists_run (step descriptors) (fun _ a => disorderly a = false)
    { init descriptors 2 with
      shutdownNow := true, main := .terminate 2, requestQueue := [some 11],
      connections := {11}, workers := [.asleep, .ready] }
    [.worker 1 .take, .main (.terminate true (some 0)), .worker 0 .take,
      .main (.terminate true none), .worker 1 .serve, .worker 1 .write, .worker 1 .loop]
    (fun t => decide (t.main = .terminate 0 ∧ t.workers = [.exited, .exited] ∧
      t.requestQueue = [none])) (by decide)
  obtain ⟨hm, hw, hq⟩ := of_decide_eq_true hp
  obtain ⟨-, -, -, h4⟩ := workers_terminate rfl rfl (by decide) rfl hr
  exact ⟨h, t, hr, hm, hw, hq, h4 0⟩

end Dispatcher

end FileStorage
