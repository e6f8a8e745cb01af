import FileStorage.Dispatcher

/-! Every open client connection is in one place: the select set, the request queue, the hands of
one worker or the pipe; and `current_connections` counts them. -/

namespace FileStorage

/-- What a worker holds. -/
def WorkerLoc.holds : WorkerLoc → Token
  | .serving fd => some fd
  | .returning x => x
  | _ => none

/-- The descriptors the current pass has still to look at. -/
def MainLoc.Ahead : MainLoc → Nat → Prop
  | .visit fd rdset, c => c ∈ rdset ∧ fd ≤ c
  | .readPipe fd rdset, c => c ∈ rdset ∧ fd < c
  | _, _ => False

/-- Whether `select` has reported the descriptor to the current pass. -/
def MainLoc.Reported : MainLoc → Nat → Prop
  | .visit _ rdset, fd => fd ∈ rdset
  | .readPipe _ rdset, fd => fd ∈ rdset
  | _, _ => False

instance (l : MainLoc) (fd : Nat) : Decidable (l.Reported fd) :=
  match l with
  | .visit _ rdset => inferInstanceAs (Decidable (fd ∈ rdset))
  | .readPipe _ rdset => inferInstanceAs (Decidable (fd ∈ rdset))
  | .head => inferInstanceAs (Decidable False)
  | .select => inferInstanceAs (Decidable False)
  | .endTest => inferInstanceAs (Decidable False)
  | .terminate _ => inferInstanceAs (Decidable False)

/-! ### The four places -/

section Places

variable {set : Finset Nat} {queue pipe : List Token} {workers workers' : List WorkerLoc}
  {c fd i : Nat} {w w' : WorkerLoc} {x : Token}

/-- Whether a token is the descriptor `c`, as a number. -/
def tally (x : Token) (c : Nat) : Nat := if x = some c then 1 else 0

@[simp] theorem tally_none : tally none c = 0 := rfl

theorem tally_some : tally (some fd) c = if c = fd then 1 else 0 := by
  simp [tally, eq_comm]

/-- In how many hands a descriptor is. -/
def inHands (workers : List WorkerLoc) (c : Nat) : Nat :=
  workers.countP fun w => w.holds = some c

/-- In how many places a descriptor is. -/
def placesOf (set : Finset Nat) (queue : List Token) (workers : List WorkerLoc)
    (pipe : List Token) (c : Nat) : Nat :=
  (if c ∈ set then 1 else 0) + queue.count (some c) + inHands workers c + pipe.count (some c)

theorem placesOf_insert (h : fd ∉ set) :
    placesOf (insert fd set) queue workers pipe c =
      placesOf set queue workers pipe c + if c = fd then 1 else 0 := by
  by_cases hc : c = fd
  · subst hc
    simp only [placesOf, Finset.mem_insert_self, if_true, if_neg h]
    omega
  · simp [placesOf, hc]

theorem placesOf_erase (h : fd ∈ set) :
    placesOf (set.erase fd) queue workers pipe c + (if c = fd then 1 else 0) =
      placesOf set queue workers pipe c := by
  by_cases hc : c = fd
  · subst hc
    simp only [placesOf, Finset.notMem_erase, if_false, if_true, if_pos h]
    omega
  · simp [placesOf, hc]

theorem placesOf_erase_of_ne (h : c ≠ fd) :
    placesOf (set.erase fd) queue workers pipe c = placesOf set queue workers pipe c := by
  simp [placesOf, h]

theorem placesOf_push :
    placesOf set (queue ++ [x]) workers pipe c =
      placesOf set queue workers pipe c + tally x c := by
  simp only [placesOf, tally, List.count_append, List.count_singleton, beq_iff_eq]
  omega

theorem placesOf_pop :
    placesOf set (x :: queue) workers pipe c =
      placesOf set queue workers pipe c + tally x c := by
  simp only [placesOf, tally, List.count_cons, beq_iff_eq]
  omega

theorem placesOf_pipe_push :
    placesOf set queue workers (pipe ++ [x]) c =
      placesOf set queue workers pipe c + tally x c := by
  simp only [placesOf, tally, List.count_append, List.count_singleton, beq_iff_eq]
  omega

theorem placesOf_pipe_pop :
    placesOf set queue workers (x :: pipe) c =
      placesOf set queue workers pipe c + tally x c := by
  simp only [placesOf, tally, List.count_cons, beq_iff_eq]
  omega

theorem placesOf_move (hw : workers[i]? = some w) :
    placesOf set queue (workers.set i w') pipe c + tally w.holds c =
      placesOf set queue workers pipe c + tally w'.holds c := by
  have h := Dispatcher.countP_set (fun w => decide (w.holds = some c)) (b := w') hw
  simp only [decide_eq_true_eq] at h
  simp only [placesOf, inHands, tally]
  omega

theorem placesOf_signal {woken : Option Nat} (h : Dispatcher.signal workers woken = some workers') :
    placesOf set queue workers' pipe c = placesOf set queue workers pipe c := by
  rcases Dispatcher.signal_cases h with ⟨-, rfl⟩ | ⟨i, hi, rfl⟩
  · rfl
  · have hm := @placesOf_move set queue pipe workers c i _ .ready hi
    exact hm

end Places

namespace Dispatcher

variable {d : Descriptors} {s t : Dispatcher} {c fd i : Nat} {w w' : WorkerLoc}

def places (s : Dispatcher) (c : Nat) : Nat :=
  placesOf s.set s.requestQueue s.workers s.mwPipe c

def IsClient (d : Descriptors) (c : Nat) : Prop := c ∉ [d.signalPipe, d.mwPipe, d.socketFd]

theorem Fresh.isClient (h : Fresh d s c) : IsClient d c := by
  obtain ⟨-, h⟩ := h
  simp only [List.mem_cons, List.not_mem_nil, or_false, not_or] at h
  simp [IsClient, h]

theorem ahead_visited {rdset : Finset Nat} (h : (visited d s fd rdset).main.Ahead c) :
    c ∈ rdset ∧ fd < c := by
  unfold visited goto at h
  split at h <;> exact h

/-- The clients of `kept` are each in one place, and no other client is in any. -/
structure Tracked (d : Descriptors) (kept : Finset Nat) (s : Dispatcher) : Prop where
  connected : kept ⊆ s.connections
  clients : ∀ c ∈ s.connections, IsClient d c
  once : ∀ c, IsClient d c → s.places c = if c ∈ kept then 1 else 0
  ahead : ∀ c, s.main.Ahead c → c ∈ s.set

theorem Tracked.init (d : Descriptors) (n : Nat) : Tracked d ∅ (init d n) := by
  refine ⟨by simp, by simp [Dispatcher.init], fun c hc => ?_, fun c h => h.elim⟩
  have hset : c ∉ (Dispatcher.init d n).set := by
    simp only [IsClient, List.mem_cons, List.not_mem_nil, or_false, not_or] at hc
    simp [Dispatcher.init, hc]
  rw [places, placesOf, if_neg hset]
  simp [inHands, Dispatcher.init, List.countP_replicate, WorkerLoc.holds]

theorem Tracked.of_mem_set {kept : Finset Nat} (hs : Tracked d kept s) (hc : IsClient d c)
    (hset : c ∈ s.set) : c ∈ kept := by
  by_contra hn
  have h := hs.once c hc
  rw [if_neg hn, places, placesOf, if_pos hset] at h
  omega

/-- A change that leaves the set and every client where they are. -/
theorem Tracked.of_eq {kept : Finset Nat} (hs : Tracked d kept s) (hset : t.set = s.set)
    (hconn : t.connections = s.connections) (hp : ∀ c, IsClient d c → t.places c = s.places c)
    (hm : ∀ c, t.main.Ahead c → s.main.Ahead c) : Tracked d kept t :=
  ⟨hconn ▸ hs.connected, hconn ▸ hs.clients, fun c hc => by rw [hp c hc, hs.once c hc],
    fun c hc => hset ▸ hs.ahead c (hm c hc)⟩

/-- A worker that keeps what it holds. -/
theorem Tracked.move {kept : Finset Nat} (hs : Tracked d kept s) (hw : s.workers[i]? = some w)
    (hh : w'.holds = w.holds) : Tracked d kept (s.move i w') := by
  refine hs.of_eq rfl rfl (fun c _ => ?_) fun _ h => h
  have h := @placesOf_move s.set s.requestQueue s.mwPipe s.workers c i w w' hw
  rw [hh] at h
  exact Nat.add_right_cancel h

/-- A client that leaves its place. -/
theorem once_erase {kept : Finset Nat} {n m fd : Nat} (hn : n = if c ∈ kept then 1 else 0)
    (hm : m + (if c = fd then 1 else 0) = n) : m = if c ∈ kept.erase fd then 1 else 0 := by
  by_cases hc : c = fd
  · subst hc
    rw [if_neg (Finset.notMem_erase _ _)]
    rw [if_pos rfl] at hm
    split at hn <;> omega
  · rw [if_neg hc] at hm
    simp only [Finset.mem_erase, ne_eq, hc, not_false_eq_true, true_and]
    omega

/-- A request that is not received, or a failure of the pipe. -/
def fails : Action → Bool
  | .main .readFails => true
  | .worker _ .fail => true
  | .worker _ .writeFails => true
  | _ => false

/-- A ready descriptor that `list_insert_tail` does not insert in the queue. -/
def loses : Action → Bool
  | .main (.dispatch inserted _) => !inserted
  | _ => false

/-- A change of `main_thread` that leaves every client in its place. -/
theorem Tracked.goto {kept : Finset Nat} {loc : MainLoc} (hs : Tracked d kept s)
    (hl : ∀ c, (s.goto loc).main.Ahead c → s.main.Ahead c) : Tracked d kept (s.goto loc) :=
  hs.of_eq rfl rfl (fun _ _ => rfl) hl

/-- A new client is put into the set. -/
theorem Tracked.accept {kept rdset : Finset Nat} (hs : Tracked d kept s)
    (hm : s.main = .visit d.socketFd rdset) (hc : Fresh d s c) :
    Tracked d (insert c kept) (visited d (s.accepted c) d.socketFd rdset) := by
  have hk : c ∉ kept := fun h => hc.1 (hs.connected h)
  have h0 : c ∉ s.set := fun h => hk (hs.of_mem_set hc.isClient h)
  refine ⟨Finset.insert_subset_insert c hs.connected, fun c' h => ?_, fun c' hcl => ?_, fun c' h => ?_⟩
  · rcases Finset.mem_insert.mp h with rfl | h
    · exact hc.isClient
    · exact hs.clients c' h
  · change placesOf (insert c s.set) s.requestQueue s.workers s.mwPipe c' = _
    have h := hs.once c' hcl
    rw [placesOf_insert h0]
    change s.places c' + _ = _
    rw [h]
    by_cases hce : c' = c
    · subst hce
      simp [hk]
    · simp [hce]
  · obtain ⟨h1, h2⟩ := ahead_visited h
    exact Finset.mem_insert_of_mem (hs.ahead c' (by rw [hm]; exact ⟨h1, Nat.le_of_lt h2⟩))

/-- A ready client goes from the set to the queue, or is in no place where the insertion fails. -/
theorem Tracked.dispatch {kept rdset : Finset Nat} {inserted : Bool} {woken : Option Nat}
    (hs : Tracked d kept s) (hm : s.main = .visit fd rdset) (hf : fd ∈ rdset)
    (ht : s.enqueue (some fd) inserted woken = some t) :
    Tracked d (if inserted then kept else kept.erase fd) (visited d (t.fdClr fd) fd rdset) := by
  obtain ⟨ws, hws, rfl⟩ := enqueue_cases ht
  have hfd : fd ∈ s.set := hs.ahead fd (by rw [hm]; exact ⟨hf, Nat.le_refl _⟩)
  have hahead : ∀ c, (visited d s fd rdset).main.Ahead c → c ∈ s.set.erase fd := by
    intro c h
    obtain ⟨h1, h2⟩ := ahead_visited h
    refine Finset.mem_erase.mpr ⟨Nat.ne_of_gt h2, hs.ahead c ?_⟩
    rw [hm]
    exact ⟨h1, Nat.le_of_lt h2⟩
  have hsig := fun queue c => @placesOf_signal s.set queue s.mwPipe _ _ c _ hws
  have hclr := fun queue c => @placesOf_erase s.set queue s.mwPipe ws c fd hfd
  cases inserted with
  | true =>
    refine ⟨hs.connected, hs.clients, fun c hcl => ?_, hahead⟩
    change placesOf (s.set.erase fd) (s.requestQueue ++ [some fd]) ws s.mwPipe c = _
    have h1 := hclr (s.requestQueue ++ [some fd]) c
    have h2 := @placesOf_push s.set s.requestQueue s.mwPipe s.workers c (some fd)
    rw [hsig] at h1
    rw [tally_some] at h2
    rw [if_pos rfl, ← hs.once c hcl, places]
    omega
  | false =>
    refine ⟨fun c h => hs.connected (Finset.mem_of_mem_erase h), hs.clients,
      fun c hcl => once_erase (hs.once c hcl) ?_, hahead⟩
    have h1 := hclr s.requestQueue c
    rw [hsig] at h1
    exact h1

/-- A client goes from the pipe back to the set. -/
theorem Tracked.read {kept rdset : Finset Nat} {newFd : Nat} {rest : List Token}
    (hs : Tracked d kept s) (hm : s.main = .readPipe fd rdset) (hp : s.mwPipe = some newFd :: rest) :
    Tracked d kept (({ s with mwPipe := rest }.fdSet newFd).goto (.visit (fd + 1) rdset)) := by
  refine ⟨hs.connected, hs.clients, fun c hcl => ?_, fun c h => ?_⟩
  · change placesOf (insert newFd s.set) s.requestQueue s.workers rest c = _
    have h := hs.once c hcl
    have hpop := @placesOf_pipe_pop s.set s.requestQueue rest s.workers c (some newFd)
    rw [← hp, tally_some] at hpop
    rw [places] at h
    by_cases hc : c = newFd
    · subst hc
      rw [if_pos rfl] at hpop
      have hset : c ∉ s.set := by
        intro hset
        have hge : 1 ≤ placesOf s.set s.requestQueue s.workers rest c := by
          rw [placesOf, if_pos hset]
          omega
        split at h <;> omega
      rw [placesOf_insert hset, if_pos rfl]
      omega
    · rw [if_neg hc] at hpop
      have hins : placesOf (insert newFd s.set) s.requestQueue s.workers rest c =
          placesOf s.set s.requestQueue s.workers rest c := by
        simp [placesOf, hc]
      omega
  · exact Finset.mem_insert_of_mem (hs.ahead c (by rw [hm]; exact h))

/-- The tokens that end the workers are no clients. -/
theorem Tracked.terminate {kept : Finset Nat} {left : Nat} {inserted : Bool} {woken : Option Nat}
    (hs : Tracked d kept s) (ht : s.enqueue none inserted woken = some t) :
    Tracked d kept (t.goto (.terminate left)) := by
  obtain ⟨ws, hws, rfl⟩ := enqueue_cases ht
  refine hs.of_eq rfl rfl (fun c _ => ?_) fun _ h => h.elim
  have hsig := fun queue => @placesOf_signal s.set queue s.mwPipe _ _ c _ hws
  cases inserted with
  | true =>
    change placesOf s.set (s.requestQueue ++ [none]) ws s.mwPipe c = _
    rw [hsig, placesOf_push]
    rfl
  | false => exact hsig _

theorem Tracked.mainStep {kept : Finset Nat} {a : MainAction} (hs : Tracked d kept s)
    (h : MainStep d s a t) : ∃ kept', Tracked d kept' t ∧
      (loses (.main a) = false → kept = s.connections → kept' = t.connections) := by
  cases h with
  | loop _ _ => exact ⟨kept, hs.goto fun _ h => h.elim, fun _ h => h⟩
  | leave _ _ => exact ⟨kept, hs.goto fun _ h => h.elim, fun _ h => h⟩
  | signalled _ _ _ =>
    refine ⟨kept, ⟨hs.connected, hs.clients, fun c hc => ?_, fun _ h => h.elim⟩, fun _ h => h⟩
    have hne := hc
    simp only [IsClient, List.mem_cons, List.not_mem_nil, or_false, not_or] at hne
    have hp : placesOf ((s.set.erase d.signalPipe).erase d.socketFd) s.requestQueue s.workers
        s.mwPipe c = s.places c := by
      rw [placesOf_erase_of_ne hne.2.2, placesOf_erase_of_ne hne.1, places]
    exact hp.trans (hs.once c hc)
  | selected _ hr _ =>
    exact ⟨kept, ⟨hs.connected, hs.clients, hs.once, fun c h => hr h.1⟩, fun _ h => h⟩
  | exhausted hm => exact ⟨kept, hs.goto fun _ h => h.elim, fun _ h => h⟩
  | skip hm _ => exact ⟨kept, hs.goto fun c h => hm ▸ ⟨h.1, Nat.le_of_lt h.2⟩, fun _ h => h⟩
  | pipe hm _ => exact ⟨kept, hs.goto fun c h => hm ▸ ⟨h.1, Nat.le_of_lt h.2⟩, fun _ h => h⟩
  | refused hm => exact ⟨kept, hs.goto fun c h => hm ▸ ⟨h.1, Nat.le_of_lt h.2⟩, fun _ h => h⟩
  | @accepted rdset c0 hm hf hn hc =>
    exact ⟨insert c0 kept, hs.accept hm hc, fun _ h => congrArg (insert c0) h⟩
  | @dispatched fd rdset inserted woken t hm hf hp hn ht =>
    have htracked := hs.dispatch hm hf ht
    obtain ⟨ws, hws, rfl⟩ := enqueue_cases ht
    refine ⟨_, htracked, fun hl h => ?_⟩
    have hinserted : inserted = true := by simpa [loses] using hl
    rw [hinserted, if_pos rfl]
    exact h
  | @readNone fd rdset rest hm hp =>
    refine ⟨kept, hs.of_eq rfl rfl (fun c _ => ?_) fun c h => ?_, fun _ h => h⟩
    · rw [places, places, hp, placesOf_pipe_pop]
      rfl
    · rw [hm]
      exact h
  | read hm hp => exact ⟨kept, hs.read hm hp, fun _ h => h⟩
  | readFails hm => exact ⟨kept, hs.goto fun c h => hm ▸ h, fun _ h => h⟩
  | drained _ _ _ => exact ⟨kept, hs.of_eq rfl rfl (fun _ _ => rfl) fun _ h => h.elim, fun _ h => h⟩
  | again _ _ => exact ⟨kept, hs.goto fun _ h => h.elim, fun _ h => h⟩
  | @terminate left inserted woken t hm ht =>
    refine ⟨kept, hs.terminate ht, fun _ h => ?_⟩
    obtain ⟨ws, hws, rfl⟩ := enqueue_cases ht
    exact h

/-- A worker that lets go of a descriptor, which may be closed as well. -/
theorem Tracked.drop {kept : Finset Nat} (hs : Tracked d kept s) (hw : s.workers[i]? = some w)
    (hh : w.holds = some fd) (hh' : w'.holds = none) {conns : Finset Nat}
    (hc : s.connections.erase fd ⊆ conns) (hc' : conns ⊆ s.connections) :
    Tracked d (kept.erase fd) ({ s with connections := conns }.move i w') := by
  refine ⟨(Finset.erase_subset_erase fd hs.connected).trans hc,
    fun c h => hs.clients c (hc' h), fun c hcl => once_erase (hs.once c hcl) ?_, hs.ahead⟩
  have h := @placesOf_move s.set s.requestQueue s.mwPipe s.workers c i w w' hw
  rw [hh, hh', tally_some] at h
  exact h

theorem Tracked.workerStep {kept : Finset Nat} {a : WorkerAction} (hs : Tracked d kept s)
    (h : WorkerStep s i a t) : ∃ kept', Tracked d kept' t ∧
      (fails (.worker i a) = false → kept = s.connections → kept' = t.connections) := by
  cases h with
  | enter hw _ => exact ⟨kept, hs.move hw rfl, fun _ h => h⟩
  | stop hw _ => exact ⟨kept, hs.move hw rfl, fun _ h => h⟩
  | sleep hw _ => exact ⟨kept, hs.move hw rfl, fun _ h => h⟩
  | @token rest hw hq =>
    have h1 : Tracked d kept { s with requestQueue := rest } := by
      refine hs.of_eq rfl rfl (fun c _ => ?_) fun _ h => h
      rw [places, places, hq, placesOf_pop]
      rfl
    exact ⟨kept, h1.move hw rfl, fun _ h => h⟩
  | @take fd rest hw hq =>
    refine ⟨kept, hs.of_eq rfl rfl (fun c _ => ?_) fun _ h => h, fun _ h => h⟩
    have h1 := @placesOf_move s.set rest s.mwPipe s.workers c i _ (.serving fd) hw
    have h2 := @placesOf_pop s.set rest s.mwPipe s.workers c (some fd)
    rw [← hq] at h2
    exact h1.trans h2.symm
  | wake hw => exact ⟨kept, hs.move hw rfl, fun _ h => h⟩
  | serve hw _ => exact ⟨kept, hs.move hw rfl, fun _ h => h⟩
  | @close fd hw hc =>
    exact ⟨kept.erase fd, hs.drop hw rfl rfl (Finset.Subset.refl _) (Finset.erase_subset _ _),
      fun _ h => by rw [h]; rfl⟩
  | @fail fd hw =>
    exact ⟨kept.erase fd, hs.drop hw rfl rfl (Finset.Subset.refl _) (Finset.erase_subset _ _), nofun⟩
  | @decrement hw =>
    have h1 : Tracked d kept { s with currentConnections := s.currentConnections - 1 } :=
      hs.of_eq rfl rfl (fun _ _ => rfl) fun _ h => h
    exact ⟨kept, h1.move hw rfl, fun _ h => h⟩
  | @write x hw =>
    refine ⟨kept, hs.of_eq rfl rfl (fun c _ => ?_) fun _ h => h, fun _ h => h⟩
    have h1 := @placesOf_move s.set s.requestQueue (s.mwPipe ++ [x]) s.workers c i _ .bottom hw
    have h2 := @placesOf_pipe_push s.set s.requestQueue s.mwPipe s.workers c x
    exact Nat.add_right_cancel (h1.trans h2)
  | @writeFails x hw =>
    cases x with
    | none => exact ⟨kept, hs.move hw rfl, nofun⟩
    | some fd =>
      exact ⟨kept.erase fd, hs.drop hw rfl rfl (Finset.erase_subset _ _) (Finset.Subset.refl _), nofun⟩
  | crash hw =>
    have h1 : Tracked d kept { s with mwPipe := s.mwPipe ++ [none], crashed := true } := by
      refine hs.of_eq rfl rfl (fun c _ => ?_) fun _ h => h
      change placesOf s.set s.requestQueue s.workers (s.mwPipe ++ [none]) c = _
      rw [placesOf_pipe_push]
      rfl
    exact ⟨kept, h1.move hw rfl, fun _ h => h⟩
  | crashSilent hw =>
    have h1 : Tracked d kept { s with crashed := true } :=
      hs.of_eq rfl rfl (fun _ _ => rfl) fun _ h => h
    exact ⟨kept, h1.move hw rfl, fun _ h => h⟩
  | loop hw _ => exact ⟨kept, hs.move hw rfl, fun _ h => h⟩
  | finish hw _ => exact ⟨kept, hs.move hw rfl, fun _ h => h⟩

/-- A step that neither fails nor loses a descriptor keeps every connection in its place. -/
theorem Tracked.step {kept : Finset Nat} {a : Action} (hs : Tracked d kept s)
    (h : Step d s a t) : ∃ kept', Tracked d kept' t ∧
      (fails a = false → loses a = false → kept = s.connections → kept' = t.connections) := by
  cases h with
  | main h =>
    obtain ⟨kept', h1, h2⟩ := hs.mainStep h
    exact ⟨kept', h1, fun _ => h2⟩
  | worker h =>
    obtain ⟨kept', h1, h2⟩ := hs.workerStep h
    exact ⟨kept', h1, fun hk _ => h2 hk⟩
  | handler h =>
    cases h <;> exact ⟨kept, hs.of_eq rfl rfl (fun _ _ => rfl) fun _ h => h, fun _ _ h => h⟩

/-- A worker that holds a connection is the only one. -/
theorem holder_unique {workers : List WorkerLoc} {j : Nat} (h1 : inHands workers c ≤ 1)
    (hi : workers[i]? = some w) (hj : workers[j]? = some w') (hwi : w.holds = some c)
    (hwj : w'.holds = some c) : i = j := by
  by_contra hne
  have hset := countP_set (fun w => decide (w.holds = some c)) (b := WorkerLoc.top) hi
  have hj' : (workers.set i .top)[j]? = some w' := by
    rw [List.getElem?_set_ne hne]
    exact hj
  have hpos : 0 < (workers.set i .top).countP fun w => decide (w.holds = some c) :=
    List.countP_pos_iff.mpr ⟨w', List.mem_of_getElem? hj', by simpa using hwj⟩
  have htop : (WorkerLoc.top.holds = some c) = False := by simp [WorkerLoc.holds]
  simp only [hwi, htop, decide_true, decide_false, if_true, Bool.false_eq_true, if_false] at hset
  rw [inHands] at h1
  omega

/-! ### The counters -/

/-- How many workers are between `close` and the decrement. -/
def closing (workers : List WorkerLoc) : Nat := workers.countP fun w => w = .closed

/-- `current_connections` counts the open connections, and those whose worker has not lowered it
yet. -/
def Counted (s : Dispatcher) : Prop :=
  s.currentConnections = s.connections.card + closing s.workers

theorem closing_move {workers : List WorkerLoc} (hw : workers[i]? = some w) (h : w ≠ .closed)
    (h' : w' ≠ .closed) : closing (workers.set i w') = closing workers := by
  have hc := countP_set (fun w => decide (w = .closed)) (b := w') hw
  simp only [h, h', decide_false, Bool.false_eq_true, if_false] at hc
  exact hc

theorem closing_signal {workers workers' : List WorkerLoc} {woken : Option Nat}
    (h : signal workers woken = some workers') : closing workers' = closing workers := by
  rcases signal_cases h with ⟨-, rfl⟩ | ⟨i, hi, rfl⟩
  · rfl
  · exact closing_move hi nofun nofun

theorem Counted.move (hs : Counted s) (hw : s.workers[i]? = some w) (h : w ≠ .closed)
    (h' : w' ≠ .closed) : Counted (s.move i w') := by
  change s.currentConnections = s.connections.card + closing (s.workers.set i w')
  rw [closing_move hw h h']
  exact hs

theorem Counted.workerStep {a : WorkerAction} (hs : Counted s) (hk : fails (.worker i a) = false)
    (h : WorkerStep s i a t) : Counted t := by
  cases h with
  | enter hw _ => exact hs.move hw nofun nofun
  | stop hw _ => exact hs.move hw nofun nofun
  | sleep hw _ => exact hs.move hw nofun nofun
  | token hw _ => exact Counted.move (s := { s with requestQueue := _ }) hs hw nofun nofun
  | take hw _ => exact Counted.move (s := { s with requestQueue := _ }) hs hw nofun nofun
  | wake hw => exact hs.move hw nofun nofun
  | serve hw _ => exact hs.move hw nofun nofun
  | @close fd hw hc =>
    have h := countP_set (fun w => decide (w = .closed)) (b := WorkerLoc.closed) hw
    have hcard := Finset.card_erase_add_one hc
    simp only [reduceCtorEq, decide_false, decide_true, Bool.false_eq_true, if_false, if_true] at h
    change s.currentConnections = (s.connections.erase fd).card + closing (s.workers.set i .closed)
    rw [Counted, closing] at hs
    rw [closing]
    omega
  | fail _ => cases hk
  | decrement hw =>
    have h := countP_set (fun w => decide (w = .closed)) (b := WorkerLoc.returning none) hw
    simp only [reduceCtorEq, decide_false, decide_true, Bool.false_eq_true, if_false, if_true] at h
    change s.currentConnections - 1 =
      s.connections.card + closing (s.workers.set i (.returning none))
    rw [Counted, closing] at hs
    rw [closing]
    omega
  | write hw => exact Counted.move (s := { s with mwPipe := _ }) hs hw nofun nofun
  | writeFails _ => cases hk
  | crash hw =>
    exact Counted.move (s := { s with mwPipe := _, crashed := true }) hs hw nofun nofun
  | crashSilent _ => cases hk
  | loop hw _ => exact hs.move hw nofun nofun
  | finish hw _ => exact hs.move hw nofun nofun

theorem Counted.mainStep {a : MainAction} (hs : Counted s) (h : MainStep d s a t) : Counted t := by
  cases h with
  | @accepted rdset c hm hf hn hc =>
    have hcard := Finset.card_insert_of_notMem hc.1
    change s.currentConnections + 1 = ((insert c s.connections).card : Int) + closing s.workers
    rw [Counted] at hs
    omega
  | dispatched _ _ _ _ ht =>
    obtain ⟨ws, hws, rfl⟩ := enqueue_cases ht
    change s.currentConnections = s.connections.card + closing ws
    rw [closing_signal hws]
    exact hs
  | terminate _ ht =>
    obtain ⟨ws, hws, rfl⟩ := enqueue_cases ht
    change s.currentConnections = s.connections.card + closing ws
    rw [closing_signal hws]
    exact hs
  | _ => exact hs

theorem Counted.step {a : Action} (hs : Counted s) (hk : fails a = false) (h : Step d s a t) :
    Counted t := by
  cases h with
  | main h => exact hs.mainStep h
  | worker h => exact hs.workerStep hk h
  | handler h => cases h <;> exact hs

/-- `max_connections` follows `current_connections` upwards. -/
theorem Step.max {a : Action} (h : Step d s a t) :
    (t.currentConnections ≤ s.currentConnections ∧ t.maxConnections = s.maxConnections) ∨
      t.maxConnections = Max.max s.maxConnections t.currentConnections := by
  cases h with
  | main h =>
    cases h with
    | accepted _ _ _ _ => exact .inr rfl
    | dispatched _ _ _ _ ht =>
      obtain ⟨ws, -, rfl⟩ := enqueue_cases ht
      exact .inl ⟨Int.le_refl _, rfl⟩
    | terminate _ ht =>
      obtain ⟨ws, -, rfl⟩ := enqueue_cases ht
      exact .inl ⟨Int.le_refl _, rfl⟩
    | _ => exact .inl ⟨Int.le_refl _, rfl⟩
  | worker h =>
    cases h with
    | decrement _ => exact .inl ⟨Int.sub_le_self _ (by decide), rfl⟩
    | _ => exact .inl ⟨Int.le_refl _, rfl⟩
  | handler h => cases h <;> exact .inl ⟨Int.le_refl _, rfl⟩

/-- `max_connections` is the greatest number of connections in the states of a run. -/
def Peak (h : List (Dispatcher × Action)) (t : Dispatcher) : Prop :=
  (∀ u ∈ h.map Prod.fst ++ [t], u.currentConnections ≤ t.maxConnections) ∧
    ∃ u ∈ h.map Prod.fst ++ [t], u.currentConnections = t.maxConnections

theorem Peak.step {h : List (Dispatcher × Action)} {a : Action} (hp : Peak h s)
    (hst : Step d s a t) : Peak (h ++ [(s, a)]) t := by
  have hv : (h ++ [(s, a)]).map Prod.fst ++ [t] = (h.map Prod.fst ++ [s]) ++ [t] := by simp
  obtain ⟨hle, u, hu, hmax⟩ := hp
  have hs := hle s (by simp)
  rw [Peak, hv]
  rcases hst.max with ⟨hcur, heq⟩ | heq
  · refine ⟨fun v hv => ?_, u, List.mem_append_left _ hu, by omega⟩
    rcases List.mem_append.mp hv with hv | hv
    · have := hle v hv
      omega
    · obtain rfl := List.mem_singleton.mp hv
      omega
  · refine ⟨fun v hv => ?_, ?_⟩
    · rcases List.mem_append.mp hv with hv | hv
      · have := hle v hv
        omega
      · obtain rfl := List.mem_singleton.mp hv
        omega
    · by_cases hlt : s.maxConnections ≤ t.currentConnections
      · exact ⟨t, by simp, by omega⟩
      · exact ⟨u, List.mem_append_left _ hu, by omega⟩

/-! ### Every run -/

open Machine

/-- While the environment works and every ready descriptor is queued, each open connection is in
one place and the counters are right. -/
theorem clients_conserved {d : Descriptors} {n : Nat} {h : List (Dispatcher × Action)}
    {t : Dispatcher}
    (hr : Reaches (step d) (fun _ a => fails a = false ∧ loses a = false) (Dispatcher.init d n) h t) :
    (∀ c ∈ t.connections, t.places c = 1) ∧
    (∀ c ∈ t.connections, ∀ (i j : Nat) (w w' : WorkerLoc), t.workers[i]? = some w →
      t.workers[j]? = some w' → w.holds = some c → w'.holds = some c → i = j) ∧
    t.currentConnections = t.connections.card + closing t.workers ∧ 0 ≤ t.currentConnections ∧
    Peak h t := by
  have hinv : Tracked d t.connections t ∧ Counted t := by
    refine hr.always (I := fun t => Tracked d t.connections t ∧ Counted t)
      ⟨Tracked.init d n, ?_⟩ ?_
    · simp [Counted, Dispatcher.init, closing, List.countP_replicate]
    · intro t a u ⟨hs, hc⟩ ⟨hk, hq⟩ hstep
      obtain ⟨kept, hs', heq⟩ := hs.step (step_cases hstep).2
      exact ⟨heq hk hq rfl ▸ hs', hc.step hk (step_cases hstep).2⟩
  obtain ⟨hs, hc⟩ := hinv
  have hone : ∀ c ∈ t.connections, t.places c = 1 := fun c hmem => by
    rw [hs.once c (hs.clients c hmem), if_pos hmem]
  refine ⟨hone, fun c hmem i j w w' hi hj hwi hwj => ?_, hc, ?_, ?_⟩
  · have h1 := hone c hmem
    rw [places, placesOf] at h1
    exact holder_unique (by omega) hi hj hwi hwj
  · rw [Counted] at hc
    omega
  · refine hr.invariant (I := Peak) ?_ fun h t a u hp _ hstep => hp.step (step_cases hstep).2
    simp [Peak, Dispatcher.init]

/-- The descriptors as the kernel numbers them when the log file has the number 3. -/
def descriptors : Descriptors := ⟨4, 6, 8, 10, by decide⟩

/-- A pass of the loop that finds `fd` ready and does `a` with it. -/
def pass (fd fdMax : Nat) (a : MainAction) : List Action :=
  [.main .head, .main (.select {fd})] ++ List.replicate fd (.main .skip) ++ [.main a] ++
    List.replicate (fdMax - fd + 1) (.main .skip) ++ [.main .test]

/-- A client that is served once. -/
def served : List Action :=
  pass 10 11 (.accept (some 11)) ++ [.worker 0 .enter, .worker 0 .take] ++
    pass 11 10 (.dispatch true (some 0)) ++
    [.worker 0 .take, .worker 0 .serve, .worker 0 .write]

theorem clients_conserved_served : ∃ h t,
    Reaches (step descriptors) (fun _ a => fails a = false ∧ loses a = false)
      (Dispatcher.init descriptors 1) h t ∧
    t.mwPipe = [some 11] ∧ t.connections = {11} ∧ t.places 11 = 1 ∧ Peak h t := by
  obtain ⟨h, t, hr, -, hp⟩ := exists_run (step descriptors)
    (fun _ a => fails a = false ∧ loses a = false) (Dispatcher.init descriptors 1) served
    (fun t => decide (t.mwPipe = [some 11] ∧ t.connections = {11})) (by decide)
  obtain ⟨hpipe, hconn⟩ : t.mwPipe = [some 11] ∧ t.connections = {11} := by simpa using hp
  obtain ⟨h1, -, -, -, h5⟩ := clients_conserved hr
  exact ⟨h, t, hr, hpipe, hconn, h1 11 (by simp [hconn]), h5⟩

/-- A failed insertion in the queue loses the client. -/
theorem client_lost : ∃ h t,
    Reaches (step descriptors) (fun _ a => fails a = false) (Dispatcher.init descriptors 1) h t ∧
    11 ∈ t.connections ∧ t.places 11 = 0 := by
  obtain ⟨h, t, hr, -, hp⟩ := exists_run (step descriptors) (fun _ a => fails a = false)
    (Dispatcher.init descriptors 1)
    (pass 10 11 (.accept (some 11)) ++ pass 11 10 (.dispatch false none))
    (fun t => decide (11 ∈ t.connections ∧ t.places 11 = 0)) (by decide)
  exact ⟨h, t, hr, by simpa using hp⟩

end Dispatcher

end FileStorage
