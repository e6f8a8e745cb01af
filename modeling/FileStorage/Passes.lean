import FileStorage.PipeReads

/-! The passes of `main` over the descriptors. `fd_max` is kept by hand, and it bounds the loop
while the loop changes it. -/

namespace FileStorage.Dispatcher

open Machine

variable {d : Descriptors} {s t u : Dispatcher} {fd : Nat} {rdset : Finset Nat}

/-- `fd_max` bounds the select set. -/
def Below (s : Dispatcher) : Prop := ∀ fd ∈ s.set, (fd : Int) ≤ s.fdMax

theorem Below.init (d : Descriptors) (n : Nat) : (init d n).Below := by
  intro fd hfd
  have hmax : (Dispatcher.init d n).fdMax =
      (max (max d.signalPipe d.lockManagerPipe) (max d.mwPipe d.socketFd) : Int) := rfl
  have hset : (Dispatcher.init d n).set = {d.signalPipe, d.mwPipe, d.socketFd} := rfl
  simp only [hset, Finset.mem_insert, Finset.mem_singleton] at hfd
  omega

theorem Below.congr (h : s.Below) (hset : t.set = s.set) (hmax : t.fdMax = s.fdMax) : t.Below := by
  intro fd hfd
  rw [hmax]
  exact h fd (hset ▸ hfd)

theorem Below.fdSet (h : s.Below) (c : Nat) : (s.fdSet c).Below := by
  intro fd hfd
  have hmax : (s.fdSet c).fdMax = max s.fdMax c := rfl
  rcases Finset.mem_insert.mp hfd with rfl | hfd
  · omega
  · have := h fd hfd
    omega

/-- Only the largest descriptor can be `fd_max`, and it is the one that goes. -/
theorem Below.fdClr (h : s.Below) (c : Nat) : (s.fdClr c).Below := by
  intro fd hfd
  obtain ⟨hne, hmem⟩ := Finset.mem_erase.mp hfd
  have hle := h fd hmem
  have hmax : (s.fdClr c).fdMax = if (c : Int) = s.fdMax then s.fdMax - 1 else s.fdMax := rfl
  rw [hmax]
  split <;> omega

theorem Below.mainStep {a : MainAction} (hs : s.Below) (h : MainStep d s a t) : t.Below := by
  have hvisit : ∀ {u : Dispatcher} (fd : Nat) (rdset : Finset Nat), u.Below →
      (visited d u fd rdset).Below := fun fd rdset hu => hu.congr rfl rfl
  cases h with
  | signalled => exact ((hs.fdClr d.signalPipe).fdClr d.socketFd).congr rfl rfl
  | accepted => exact hvisit _ _ ((hs.fdSet _).congr rfl rfl)
  | dispatched _ _ _ _ ht =>
    obtain ⟨ws, -, rfl⟩ := enqueue_cases ht
    exact hvisit _ _ ((hs.congr rfl rfl).fdClr _)
  | readNone => exact hs.congr rfl rfl
  | @read fd newFd rdset rest _ _ =>
    have hrest : Below { s with mwPipe := rest } := hs.congr rfl rfl
    exact (hrest.fdSet newFd).congr rfl rfl
  | terminate _ ht =>
    obtain ⟨ws, -, rfl⟩ := enqueue_cases ht
    exact hs.congr rfl rfl
  | _ => exact hs.congr rfl rfl

theorem Below.step {a : Action} (hs : s.Below) (h : Step d s a t) : t.Below := by
  cases h with
  | main h => exact hs.mainStep h
  | worker h => cases h <;> exact hs.congr rfl rfl
  | handler h => cases h <;> exact hs.congr rfl rfl

/-! ### One pass -/

/-- `main` is in the loop over the descriptors that `select` has reported as `rdset`. -/
def Passing (rdset : Finset Nat) (s : Dispatcher) (_ : Action) : Prop :=
  match s.main with
  | .visit _ r => r = rdset
  | .readPipe _ r => r = rdset
  | _ => False

instance (rdset : Finset Nat) (s : Dispatcher) (a : Action) : Decidable (Passing rdset s a) := by
  unfold Passing
  split <;> infer_instance

/-- The descriptor for which a step begins the body of the loop. -/
def body (s : Dispatcher) : Action → Option Nat
  | .main _ =>
    match s.main with
    | .visit fd _ => if (fd : Int) ≤ s.fdMax then some fd else none
    | _ => none
  | _ => none

/-- The descriptors a pass has visited. -/
def visits (p : List (Dispatcher × Action)) : List Nat := p.filterMap fun x => x.1.body x.2

theorem visits_snoc (p : List (Dispatcher × Action)) (s : Dispatcher) (a : Action) :
    visits (p ++ [(s, a)]) = visits p ++ (s.body a).toList := by
  rw [visits, List.filterMap_append]
  cases hb : s.body a <;> simp [visits, hb]

/-- The body runs for `fd` while `fd` is not beyond `fd_max`. -/
theorem visit_cases {a : MainAction} (hm : s.main = .visit fd rdset)
    (h : mainStep d s a = some t) :
    (s.fdMax < fd ∧ t.main = .endTest) ∨
      ((fd : Int) ≤ s.fdMax ∧ (t.main = .visit (fd + 1) rdset ∨ t.main = .readPipe fd rdset)) := by
  have hvisited : ∀ u : Dispatcher, (visited d u fd rdset).main = .visit (fd + 1) rdset ∨
      (visited d u fd rdset).main = .readPipe fd rdset := by
    intro u
    unfold visited goto
    split
    · exact .inr rfl
    · exact .inl rfl
  cases a with
  | skip =>
    simp only [mainStep, hm] at h
    by_cases hover : s.fdMax < fd
    · rw [if_pos hover] at h
      exact .inl ⟨hover, by rw [← Option.some.inj h]; rfl⟩
    · rw [if_neg hover] at h
      refine .inr ⟨by omega, ?_⟩
      split at h
      · exact .inl (by rw [← Option.some.inj h]; rfl)
      · split at h
        · rw [← Option.some.inj h]
          exact hvisited s
        · cases h
  | accept clientFd =>
    simp only [mainStep, hm] at h
    split at h
    · rename_i hc
      refine .inr ⟨hc.1, ?_⟩
      cases clientFd with
      | none => exact .inl (by rw [← Option.some.inj h]; rfl)
      | some c =>
        dsimp only at h
        split at h
        · rw [← Option.some.inj h]
          exact hvisited _
        · cases h
    · cases h
  | dispatch inserted woken =>
    simp only [mainStep, hm] at h
    split at h
    · rename_i hc
      obtain ⟨u, -, rfl⟩ := Option.map_eq_some_iff.mp h
      exact .inr ⟨hc.1, hvisited _⟩
    · cases h
  | _ => simp [mainStep, hm] at h

theorem readPipe_cases {a : MainAction} (hm : s.main = .readPipe fd rdset)
    (h : MainStep d s a t) : t.main = .visit (fd + 1) rdset := by
  cases h with
  | readNone hm' _ =>
    obtain ⟨rfl, rfl⟩ : _ ∧ _ := by simpa using hm'.symm.trans hm
    rfl
  | read hm' _ =>
    obtain ⟨rfl, rfl⟩ : _ ∧ _ := by simpa using hm'.symm.trans hm
    rfl
  | readFails hm' =>
    obtain ⟨rfl, rfl⟩ : _ ∧ _ := by simpa using hm'.symm.trans hm
    rfl
  | loop hm' => simp [hm] at hm'
  | leave hm' => simp [hm] at hm'
  | signalled hm' => simp [hm] at hm'
  | selected hm' => simp [hm] at hm'
  | exhausted hm' => simp [hm] at hm'
  | skip hm' => simp [hm] at hm'
  | pipe hm' => simp [hm] at hm'
  | refused hm' => simp [hm] at hm'
  | accepted hm' => simp [hm] at hm'
  | dispatched hm' => simp [hm] at hm'
  | drained hm' => simp [hm] at hm'
  | again hm' => simp [hm] at hm'
  | terminate hm' => simp [hm] at hm'

/-- What a pass has visited: all descriptors up to where `main` is. A descriptor that is still to
come is in the select set, hence within `fd_max`. -/
inductive Swept (rdset : Finset Nat) (s : Dispatcher) (l : List Nat) : Prop where
  | visit {fd : Nat} (hm : s.main = .visit fd rdset) (hl : l = List.range fd)
  | read {fd : Nat} (hm : s.main = .readPipe fd rdset) (hl : l = List.range (fd + 1))
  | finished {fd : Nat} (hm : s.main = .endTest) (hl : l = List.range fd)
      (hr : ∀ c ∈ rdset, c < fd)

theorem HandlerStep.main {a : HandlerAction} (h : HandlerStep s a t) : t.main = s.main := by
  cases h <;> rfl

theorem Swept.congr {l : List Nat} (hs : Swept rdset s l) (hm : t.main = s.main) :
    Swept rdset t l := by
  cases hs with
  | visit h hl => exact .visit (hm.trans h) hl
  | read h hl => exact .read (hm.trans h) hl
  | finished h hl hr => exact .finished (hm.trans h) hl hr

theorem Swept.mainStep {a : MainAction} {l : List Nat} (hs : Swept rdset s l) (hb : s.Below)
    (hahead : ∀ c, s.main.Ahead c → c ∈ s.set) (hp : Passing rdset s (.main a))
    (h : Dispatcher.mainStep d s a = some t) : Swept rdset t (l ++ (s.body (.main a)).toList) := by
  cases hs with
  | @visit fd hm hl =>
    rcases visit_cases hm h with ⟨hover, hend⟩ | ⟨hle, hnext⟩
    · have hbody : s.body (.main a) = none := by
        simp [body, hm, hover]
      have hvisited : l ++ (s.body (.main a)).toList = List.range fd := by
        simp [hbody, hl]
      refine .finished hend hvisited fun c hc => ?_
      by_contra hlt
      have hin := hb c (hahead c (by rw [hm]; exact ⟨hc, by omega⟩))
      omega
    · have hbody : l ++ (s.body (.main a)).toList = List.range (fd + 1) := by
        simp [body, hm, hl, hle, List.range_succ]
      rcases hnext with hnext | hnext
      · exact .visit hnext hbody
      · exact .read hnext hbody
  | @read fd hm hl =>
    exact .visit (readPipe_cases hm (mainStep_cases h)) (by simp [body, hm, hl])
  | finished hm => simp [Passing, hm] at hp

theorem Swept.step {a : Action} {l : List Nat} (hs : Swept rdset s l) (hb : s.Below)
    (hahead : ∀ c, s.main.Ahead c → c ∈ s.set) (hp : Passing rdset s a)
    (h : Dispatcher.step d s a = some t) : Swept rdset t (l ++ (s.body a).toList) := by
  have hcrash := (step_cases h).1
  cases a with
  | main a =>
    rw [Dispatcher.step, if_neg (by simp [hcrash])] at h
    exact hs.mainStep hb hahead hp h
  | worker i a =>
    cases (step_cases h).2 with
    | worker hw => simpa [body] using hs.congr hw.main
  | handler a =>
    cases (step_cases h).2 with
    | handler hh => simpa [body] using hs.congr hh.main

/-- Every descriptor of the select set is within `fd_max`, and a pass that comes to its end has
visited each descriptor that `select` reported once. -/
theorem pass_visits_once {d : Descriptors} {n : Nat} {h : List (Dispatcher × Action)}
    {t : Dispatcher} (hr : Reaches (step d) (fun _ _ => True) (Dispatcher.init d n) h t) :
    (∀ fd ∈ t.set, (fd : Int) ≤ t.fdMax) ∧
      ∀ (rdset : Finset Nat) (u v : Dispatcher) (p : List (Dispatcher × Action)),
        step d t (.main (.select rdset)) = some u → Reaches (step d) (Passing rdset) u p v →
        v.main = .endTest → ∀ fd ∈ rdset, (visits p).count fd = 1 := by
  let I : Dispatcher → Prop := fun t => t.Below ∧ ∃ kept, Tracked d kept t
  have hstep : ∀ t a u, I t → step d t a = some u → I u := by
    rintro t a u ⟨hb, kept, hk⟩ hstep
    obtain ⟨kept', hk', -⟩ := hk.step (step_cases hstep).2
    exact ⟨hb.step (step_cases hstep).2, kept', hk'⟩
  have ht : I t := hr.always (I := I) ⟨Below.init d n, _, Tracked.init d n⟩
    fun t a u hI _ => hstep t a u hI
  refine ⟨ht.1, fun rdset u v p hsel hpass hend fd hfd => ?_⟩
  have hstart : Swept rdset u [] ∨ u.main = .head := by
    cases (step_cases hsel).2 with
    | main hmain =>
      cases hmain with
      | signalled => exact .inr rfl
      | selected => exact .inl (.visit rfl rfl)
  have hinv : I v ∧ (Swept rdset v (visits p) ∨ v.main = .head) := by
    refine hpass.invariant (I := fun p v => I v ∧ (Swept rdset v (visits p) ∨ v.main = .head))
      ⟨hstep _ _ _ ht hsel, hstart⟩ ?_
    rintro p v a w ⟨hI, hs⟩ hp hvw
    refine ⟨hstep _ _ _ hI hvw, .inl ?_⟩
    rcases hs with hs | hm
    · obtain ⟨hb, kept, hk⟩ := hI
      rw [visits_snoc]
      exact hs.step hb hk.ahead hp hvw
    · simp [Passing, hm] at hp
  rcases hinv.2 with hs | hm
  · cases hs with
    | visit hm _ => simp [hend] at hm
    | read hm _ => simp [hend] at hm
    | @finished m _ hl hlt =>
      rw [hl, List.count_eq_one_of_mem List.nodup_range (List.mem_range.mpr (hlt fd hfd))]
  · simp [hend] at hm

/-- A new client on 10 and a request on 11. -/
def acceptThenDispatch : List Action :=
  List.replicate 10 (.main .skip) ++ [.main (.accept (some 12)), .main (.dispatch true none)] ++
    List.replicate 2 (.main .skip)

/-- A pass that finds two descriptors ready and raises `fd_max` on the way. -/
theorem pass_visits_once_accept : ∃ h t u p v,
    Reaches (step descriptors) (fun _ _ => True) (Dispatcher.init descriptors 1) h t ∧
    step descriptors t (.main (.select {10, 11})) = some u ∧
    Reaches (step descriptors) (Passing {10, 11}) u p v ∧ v.main = .endTest ∧
    t.fdMax = 11 ∧ v.fdMax = 12 ∧ (visits p).count 10 = 1 ∧ (visits p).count 11 = 1 := by
  obtain ⟨h, t, hr, -, hp⟩ := exists_run (step descriptors) (fun _ _ => True)
    (Dispatcher.init descriptors 1) (pass 10 11 (.accept (some 11)) ++ [.main .head])
    (fun t : Dispatcher => decide (t.fdMax = 11) &&
      (step descriptors t (.main (.select {10, 11}))).any fun u : Dispatcher =>
        (play (step descriptors) (Passing {10, 11}) u acceptThenDispatch).any fun v : Dispatcher =>
          decide (v.main = .endTest ∧ v.fdMax = 12)) (by decide)
  rw [Bool.and_eq_true, decide_eq_true_eq] at hp
  obtain ⟨u, hu, hp'⟩ := (Option.any_eq_true _ _).mp hp.2
  obtain ⟨v, hv, hp'⟩ := (Option.any_eq_true _ _).mp hp'
  obtain ⟨p, hpass, -⟩ := reaches_of_play hv
  obtain ⟨hend, hmax⟩ := of_decide_eq_true hp'
  have hone := (pass_visits_once hr).2 _ u v p hu hpass hend
  exact ⟨h, t, u, p, v, hr, hu, hpass, hend, hp.1, hmax, hone 10 (by decide), hone 11 (by decide)⟩

end FileStorage.Dispatcher
