import FileStorage.Conservation

/-! What `main` and the shutdown put in the request queue. The branch for old clients takes every
ready descriptor that is not a new connection at that moment. -/

namespace FileStorage

/-- The descriptor `main` is looking at. -/
def MainLoc.visiting : MainLoc → Option Nat
  | .visit fd _ => some fd
  | _ => none

namespace Dispatcher

open Machine

variable {d : Descriptors} {s t u : Dispatcher} {a : Action} {x : Token} {fd : Nat}

/-- `main` dispatches the listening socket only while connections are accepted. -/
def Listens (d : Descriptors) (s : Dispatcher) : Action → Prop
  | .main (.dispatch _ _) => s.main.visiting = some d.socketFd → s.acceptConnection = true
  | _ => True

theorem reported_visited {rdset : Finset Nat} {c : Nat} :
    (visited d s fd rdset).main.Reported c ↔ c ∈ rdset := by
  unfold visited goto
  split <;> rfl

/-- A pass that scans the descriptors has not seen the signal pipe. -/
theorem Step.unsignalled (h : Step d s a t) (hs : ¬s.main.Reported d.signalPipe) :
    ¬t.main.Reported d.signalPipe := by
  cases h with
  | main h =>
    cases h with
    | loop _ _ => exact id
    | leave _ _ => exact id
    | signalled _ _ _ => exact id
    | selected _ _ hd => exact hd
    | exhausted _ => exact id
    | skip hm _ =>
      rw [hm] at hs
      exact hs
    | pipe hm _ =>
      rw [hm] at hs
      exact hs
    | refused hm =>
      rw [hm] at hs
      exact hs
    | accepted hm _ _ _ =>
      rw [hm] at hs
      exact fun h => hs (reported_visited.mp h)
    | dispatched hm _ _ _ _ =>
      rw [hm] at hs
      exact fun h => hs (reported_visited.mp h)
    | readNone hm _ =>
      rw [hm] at hs
      exact hs
    | read hm _ =>
      rw [hm] at hs
      exact hs
    | readFails hm =>
      rw [hm] at hs
      exact hs
    | drained _ _ _ => exact id
    | again _ _ => exact id
    | terminate _ _ => exact id
  | worker h => cases h <;> exact hs
  | handler h => cases h <;> exact hs

theorem ne_append_singleton {l : List Token} : l ≠ l ++ [x] := by
  intro h
  have := congrArg List.length h
  simp at this

/-- Where an insertion in the queue comes from. -/
theorem Step.inserts (h : Step d s a t) (hx : t.requestQueue = s.requestQueue ++ [x]) :
    (∃ b woken, a = .main (.terminate b woken) ∧ x = none) ∨
      ∃ fd rdset b woken, a = .main (.dispatch b woken) ∧ x = some fd ∧
        s.main = .visit fd rdset ∧ fd ∈ rdset ∧ fd ≠ d.mwPipe ∧ ¬NewClient d s fd := by
  have hpop : ∀ (y : Token) (rest : List Token), rest ≠ y :: rest ++ [x] := by
    intro y rest h
    have := congrArg List.length h
    simp at this
    omega
  cases h with
  | main h =>
    cases h with
    | @dispatched fd rdset inserted woken t hm hf hp hn ht =>
      obtain ⟨ws, -, rfl⟩ := enqueue_cases ht
      cases inserted with
      | true =>
        have hlast : [some fd] = [x] := List.append_cancel_left hx
        exact .inr ⟨fd, rdset, _, _, rfl, (List.singleton_inj.mp hlast).symm, hm, hf, hp, hn⟩
      | false => exact absurd hx ne_append_singleton
    | @terminate left inserted woken t hm ht =>
      obtain ⟨ws, -, rfl⟩ := enqueue_cases ht
      cases inserted with
      | true =>
        have hlast : [none] = [x] := List.append_cancel_left hx
        exact .inl ⟨_, _, rfl, (List.singleton_inj.mp hlast).symm⟩
      | false => exact absurd hx ne_append_singleton
    | _ => exact absurd hx ne_append_singleton
  | worker h =>
    cases h with
    | token _ hq => exact absurd (hq ▸ hx) (hpop _ _)
    | take _ hq => exact absurd (hq ▸ hx) (hpop _ _)
    | _ => exact absurd hx ne_append_singleton
  | handler h => cases h <;> exact absurd hx ne_append_singleton

/-- In every state of every run, what goes into the queue is an open client connection or the
token exactly when `main` does not take the listening socket for a client. -/
theorem queued_open_iff {C : Dispatcher → Action → Prop} {n : Nat}
    {h : List (Dispatcher × Action)} (hr : Reaches (step d) C (init d n) h t)
    (hs : step d t a = some u) (hx : u.requestQueue = t.requestQueue ++ [x]) :
    (x = none ∨ ∃ c ∈ t.connections, x = some c) ↔ Listens d t a := by
  obtain ⟨⟨kept, hk⟩, hsig⟩ : (∃ kept, Tracked d kept t) ∧ ¬t.main.Reported d.signalPipe := by
    refine hr.always (I := fun t => (∃ kept, Tracked d kept t) ∧ ¬t.main.Reported d.signalPipe)
      ⟨⟨_, Tracked.init d n⟩, id⟩ ?_
    rintro t a u ⟨⟨kept, hk⟩, hsig⟩ - hstep
    obtain ⟨kept', hk', -⟩ := hk.step (step_cases hstep).2
    exact ⟨⟨kept', hk'⟩, (step_cases hstep).2.unsignalled hsig⟩
  rcases (step_cases hs).2.inserts hx with
    ⟨b, woken, rfl, rfl⟩ | ⟨fd, rdset, b, woken, rfl, rfl, hm, hf, hp, hn⟩
  · exact iff_of_true (.inl rfl) trivial
  · have hset : fd ∈ t.set := hk.ahead fd (by rw [hm]; exact ⟨hf, Nat.le_refl _⟩)
    have hne : fd ≠ d.signalPipe := by
      rintro rfl
      rw [hm] at hsig
      exact hsig hf
    by_cases hsock : fd = d.socketFd
    · subst hsock
      refine iff_of_false ?_ fun hl => hn ⟨rfl, hset, hl (by rw [hm]; rfl)⟩
      rintro (h | ⟨c, hc, h⟩)
      · cases h
      · obtain rfl := Option.some.inj h
        exact hk.clients _ hc (by simp)
    · have hcl : IsClient d fd := by simp [IsClient, hne, hp, hsock]
      refine iff_of_true (.inr ⟨fd, hk.connected (hk.of_mem_set hcl hset), rfl⟩) fun hv => ?_
      rw [hm] at hv
      exact absurd (Option.some.inj hv) hsock

theorem queued_open_iff_client : ∃ h t u,
    Reaches (step descriptors) (fun _ _ => True) (init descriptors 1) h t ∧
    step descriptors t (.main (.dispatch true none)) = some u ∧
    u.requestQueue = t.requestQueue ++ [some 11] ∧
    Listens descriptors t (.main (.dispatch true none)) := by
  obtain ⟨h, t, hr, -, hp⟩ := exists_run (step descriptors) (fun _ _ => True)
    (init descriptors 1)
    (pass 10 11 (.accept (some 11)) ++ [.main .head, .main (.select {11})] ++
      List.replicate 11 (.main .skip))
    (fun t => decide (11 ∈ t.connections ∧
      (step descriptors t (.main (.dispatch true none))).any fun u =>
        u.requestQueue = t.requestQueue ++ [some 11])) (by decide)
  obtain ⟨hc, hu⟩ := of_decide_eq_true hp
  obtain ⟨u, hs, hx⟩ := (Option.any_eq_true _ _).mp hu
  have hx : u.requestQueue = t.requestQueue ++ [some 11] := of_decide_eq_true hx
  exact ⟨h, t, u, hr, hs, hx, (queued_open_iff hr hs hx).mp (.inr ⟨11, hc, rfl⟩)⟩

/-- `SIGHUP` comes after `select` has reported a client at the listening socket. -/
theorem queued_listening_socket : ∃ h t u,
    Reaches (step descriptors) (fun _ _ => True) (init descriptors 1) h t ∧
    step descriptors t (.main (.dispatch true none)) = some u ∧
    u.requestQueue = t.requestQueue ++ [some descriptors.socketFd] ∧
    descriptors.socketFd ∉ t.connections := by
  obtain ⟨h, t, hr, -, hp⟩ := exists_run (step descriptors) (fun _ _ => True)
    (init descriptors 1)
    ([.main .head, .main (.select {10}), .handler .sighup] ++ List.replicate 10 (.main .skip))
    (fun t => decide (10 ∉ t.connections ∧
      (step descriptors t (.main (.dispatch true none))).any fun u =>
        u.requestQueue = t.requestQueue ++ [some 10])) (by decide)
  obtain ⟨hc, hu⟩ := of_decide_eq_true hp
  obtain ⟨u, hs, hx⟩ := (Option.any_eq_true _ _).mp hu
  exact ⟨h, t, u, hr, hs, of_decide_eq_true hx, hc⟩

end Dispatcher

end FileStorage
