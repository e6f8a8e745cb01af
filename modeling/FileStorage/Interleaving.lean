import FileStorage.Discipline
import FileStorage.Machine

/-! Threads that share the state under the mutex. The scheduler lets a thread run until it has
released the mutex or has come to its end; between two such steps the others may do anything that
keeps an invariant of the state. -/

namespace FileStorage

namespace Prog

variable {σ ε μ α β : Type}

/-- The result of a program that has ended. -/
def result : Prog σ ε μ α → Option α
  | ret a => some a
  | _ => none

/-- A program until it has released the mutex or has ended, with what is left of it. -/
def toRelease : Prog σ ε μ α → List Bool → World σ ε μ →
    Option (Prog σ ε μ α × World σ ε μ × List Bool)
  | ret a, env, w => some (ret a, w, env)
  | crash, _, _ => none
  | lock k, env, w => if w.held then none else k.toRelease env w.locked
  | unlock k, env, w => some (k, w.unlocked, env)
  | access es f k, env, w => (k w.state).toRelease env (w.accessed es f)
  | choose k, env, w => (k (env.headD true)).toRelease env.tail w
  | send m k, env, w => (k (env.headD true)).toRelease env.tail (w.posted m (env.headD true))

/-- With no one in between, the pieces of a program make up its run. -/
theorem run_toRelease {p p' : Prog σ ε μ α} {env env' : List Bool} {w w' : World σ ε μ}
    (h : p.toRelease env w = some (p', w', env')) : p.run env w = p'.run env' w' := by
  induction p generalizing env w with
  | ret a =>
    obtain ⟨rfl, rfl, rfl⟩ := by simpa [toRelease] using h
    rfl
  | crash => cases h
  | lock k ih =>
    by_cases hw : w.held = true
    · simp [toRelease, hw] at h
    · rw [toRelease, if_neg hw] at h
      rw [run, if_neg hw]
      exact ih h
  | unlock k ih =>
    obtain ⟨rfl, rfl, rfl⟩ := by simpa [toRelease] using h
    rfl
  | access es f k ih => exact ih _ h
  | choose k ih => exact ih _ h
  | send m k ih => exact ih _ h

/-! ### What a program does in its sections -/

section Sections

variable {I : σ → Prop} {R : Nat → σ → σ → Prop} {Q : α → Nat → σ → World σ ε μ → Prop} {n : Nat}
  {s : σ} {w : World σ ε μ}

/-- The section with number `n`, which has begun in the state `s`, is in the world `w`. Every
section leads from the state at its beginning to a state related by `R`, each next one begins in
any state that meets `I`, and `Q` holds where the program ends. -/
def sections (I : σ → Prop) (R : Nat → σ → σ → Prop) :
    Prog σ ε μ α → (α → Nat → σ → World σ ε μ → Prop) → Nat → σ → World σ ε μ → Prop
  | ret a, Q, n, s, w => Q a n s w
  | crash, _, _, _, _ => True
  | lock k, Q, n, s, w => w.held = false → k.sections I R Q n s w.locked
  | unlock k, Q, n, s, w => R n s w.state ∧
      ∀ w', I w'.state → k.sections I R Q (n + 1) w'.state w'
  | access es f k, Q, n, s, w => (k w.state).sections I R Q n s (w.accessed es f)
  | choose k, Q, n, s, w => ∀ b, (k b).sections I R Q n s w
  | send m k, Q, n, s, w => ∀ b, (k b).sections I R Q n s (w.posted m b)

theorem sections_bind {p : Prog σ ε μ β} {g : β → Prog σ ε μ α} :
    (p.bind g).sections I R Q n s w ↔
      p.sections I R (fun b n s w => (g b).sections I R Q n s w) n s w := by
  induction p generalizing n s w with
  | ret b => rfl
  | crash => rfl
  | lock k ih => simp only [bind, sections, ih]
  | unlock k ih => simp only [bind, sections, ih]
  | access es f k ih => simp only [bind, sections, ih]
  | choose k ih => simp only [bind, sections, ih]
  | send m k ih => simp only [bind, sections, ih]

theorem sections.mono {S : α → Nat → σ → World σ ε μ → Prop} {p : Prog σ ε μ α}
    (h : p.sections I R Q n s w) (hQ : ∀ a n s w, Q a n s w → S a n s w) :
    p.sections I R S n s w := by
  induction p generalizing n s w with
  | ret a => exact hQ _ _ _ _ h
  | crash => trivial
  | lock k ih => exact fun hw => ih (h hw)
  | unlock k ih => exact ⟨h.1, fun w' hw => ih (h.2 w' hw)⟩
  | access es f k ih => exact ih _ h
  | choose k ih => exact fun b => ih b (h b)
  | send m k ih => exact fun b => ih b (h b)

/-- A piece without mutex operations stays in its section. -/
theorem plain.sections {p : Prog σ ε μ α} (hp : p.plain)
    (h : p.returns (fun _ => True) (fun a w' => Q a n s w') w) : p.sections I R Q n s w := by
  induction p generalizing w with
  | ret a =>
    have hq := returns_ret.mp h
    exact hq
  | crash => trivial
  | lock k => exact hp.elim
  | unlock k => exact hp.elim
  | access es f k ih => exact ih _ (hp _) h
  | choose k ih => exact fun b => ih b (hp b) (h b trivial)
  | send m k ih => exact fun b => ih b (hp b) (h b trivial)

/-- In its section the program does what it does when it runs alone, and ends with it. -/
def alone (I : σ → Prop) (R : Nat → σ → σ → Prop) (Q : α → Nat → σ → World σ ε μ → Prop)
    (p : Prog σ ε μ α) : Prop :=
  ∀ n s w, (∀ a w', I w'.state → Q a (n + 1) w'.state w') →
    p.returns (fun _ => True) (fun _ w' => R n s w'.state) w → p.sections I R Q n s w

theorem alone_crash : (crash : Prog σ ε μ α).alone I R Q := fun _ _ _ _ _ => trivial

theorem alone_ret {a : α} (hQ : ∀ n s w, R n s w.state → Q a n s w) :
    (ret a : Prog σ ε μ α).alone I R Q :=
  fun n s w _ h => hQ n s w (h a rfl)

theorem alone_leave (a : α) : (unlockReturn.bind fun _ => ret a : Prog σ ε μ α).alone I R Q :=
  fun _ _ _ hQ h => ⟨h a rfl, fun w' hw => hQ a w' hw⟩

theorem alone.enter {p : Prog σ ε μ α} (h : p.alone I R Q) :
    (lockReturn.bind fun _ => p).alone I R Q :=
  fun n s w hQ hr hw => h n s w.locked hQ (hr.2 hw)

theorem plain.alone_bind {p : Prog σ ε μ β} {g : β → Prog σ ε μ α} (hp : p.plain)
    (h : ∀ b, (g b).alone I R Q) : (p.bind g).alone I R Q := by
  intro n s w hQ hr
  rw [sections_bind]
  exact hp.sections ((returns_bind.mp hr).mono fun b w' hb => h b n s w' hQ hb)

theorem alone.map {p : Prog σ ε μ β} {f : β → α} (h : p.alone I R fun b => Q (f b)) :
    (p.bind fun b => ret (f b)).alone I R Q := by
  intro n s w hQ hr
  rw [sections_bind]
  refine h n s w (fun b => hQ (f b)) ?_
  exact (returns_bind.mp hr).mono fun _ _ hb => returns_ret.mp hb

/-- The program leaves the state as it is. -/
def readOnly : Prog σ ε μ α → Prop
  | ret _ => True
  | crash => True
  | lock k => k.readOnly
  | unlock k => k.readOnly
  | access _ f k => f = id ∧ ∀ s, (k s).readOnly
  | choose k => ∀ b, (k b).readOnly
  | send _ k => ∀ b, (k b).readOnly

theorem readOnly.bind {p : Prog σ ε μ β} {g : β → Prog σ ε μ α} (hp : p.readOnly)
    (hg : ∀ b, (g b).readOnly) : (p.bind g).readOnly := by
  induction p with
  | ret b => exact hg b
  | crash => trivial
  | lock k ih => exact ih hp
  | unlock k ih => exact ih hp
  | access es f k ih => exact ⟨hp.1, fun s => ih s (hp.2 s)⟩
  | choose k ih => exact fun b => ih b (hp b)
  | send m k ih => exact fun b => ih b (hp b)

theorem readOnly.ite {c : Prop} [Decidable c] {p q : Prog σ ε μ α} (hp : p.readOnly)
    (hq : q.readOnly) : (if c then p else q).readOnly := by
  by_cases h : c <;> simp [h, hp, hq]

theorem readOnly.returns {ok : Bool → Prop} {p : Prog σ ε μ α} (hp : p.readOnly) :
    p.returns ok (fun _ w' => w'.state = w.state) w := by
  suffices hs : ∀ u : World σ ε μ, u.state = w.state →
      p.returns ok (fun _ w' => w'.state = w.state) u from hs w rfl
  induction p with
  | ret a => exact fun u hu => returns_ret.mpr hu
  | crash => exact fun u _ => returns_crash
  | lock k ih => exact fun u hu => ⟨fun _ _ h => (by cases h), fun _ => ih hp u.locked hu⟩
  | unlock k ih => exact fun u hu => ih hp u.unlocked hu
  | access es f k ih =>
    obtain ⟨rfl, hk⟩ := hp
    exact fun u hu => ih u.state (hk u.state) (u.accessed es id) hu
  | choose k ih => exact fun u hu b _ => ih b (hp b) u hu
  | send m k ih => exact fun u hu b _ => ih b (hp b) (u.posted m b) (by rw [World.posted_state, hu])

theorem readOnly.sections {p : Prog σ ε μ α} (hp : p.readOnly) (hR : ∀ n s, I s → R n s s)
    (hQ : ∀ a n w', I w'.state → Q a n w'.state w') (hs : I s) (hw : w.state = s) :
    p.sections I R Q n s w := by
  induction p generalizing n s w with
  | ret a =>
    subst hw
    exact hQ a n w hs
  | crash => trivial
  | lock k ih => exact fun _ => ih hp hs hw
  | unlock k ih =>
    subst hw
    exact ⟨hR n _ hs, fun w' hw' => ih hp hw' rfl⟩
  | access es f k ih =>
    obtain ⟨rfl, hk⟩ := hp
    exact ih _ (hk _) hs hw
  | choose k ih => exact fun b => ih b (hp b) hs hw
  | send m k ih => exact fun b => ih b (hp b) hs (by rw [World.posted_state, hw])

/-- A first piece that only reads, of a program that runs to `S` when it runs alone. -/
theorem sections_after {S : α → World σ ε μ → Prop} {p : Prog σ ε μ β} {g : β → Prog σ ε μ α}
    (hp : p.plain) (hr : p.readOnly) (h : (p.bind g).returns (fun _ => True) S w)
    (hg : ∀ b w', w'.state = w.state → (g b).returns (fun _ => True) S w' →
      (g b).sections I R Q n s w') : (p.bind g).sections I R Q n s w := by
  rw [sections_bind]
  refine hp.sections (((returns_bind.mp h).and hr.returns).mono fun b w' hw' => ?_)
  exact hg b w' hw'.2 hw'.1

theorem sections_enter {S : α → World σ ε μ → Prop} {p : Prog σ ε μ α}
    (h : (lockReturn.bind fun _ => p).returns (fun _ => True) S w)
    (hp : ∀ w', w'.state = w.state → p.returns (fun _ => True) S w' → p.sections I R Q n s w') :
    (lockReturn.bind fun _ => p).sections I R Q n s w :=
  fun hw => hp w.locked rfl (h.2 hw)

/-- What `sections` says of the steps of the scheduler. -/
theorem sections.toRelease {p p' : Prog σ ε μ α} {env env' : List Bool} {w' : World σ ε μ}
    (h : p.sections I R (fun _ n s w => R n s w.state) n s w)
    (hR : ∀ n s, I s → R n s s) (ht : p.toRelease env w = some (p', w', env')) :
    R n s w'.state ∧ ∀ u, I u.state →
      p'.sections I R (fun _ n s w => R n s w.state) (n + 1) u.state u := by
  induction p generalizing env w with
  | ret a =>
    obtain ⟨rfl, rfl, rfl⟩ := by simpa [Prog.toRelease] using ht
    exact ⟨h, fun u hu => hR _ _ hu⟩
  | crash => cases ht
  | lock k ih =>
    by_cases hw : w.held = true
    · simp [Prog.toRelease, hw] at ht
    · rw [Prog.toRelease, if_neg hw] at ht
      exact ih (h (by simpa using hw)) ht
  | unlock k ih =>
    obtain ⟨rfl, rfl, rfl⟩ := by simpa [Prog.toRelease] using ht
    exact h
  | access es f k ih => exact ih _ h ht
  | choose k ih => exact ih _ (h _) ht
  | send m k ih => exact ih _ (h _) ht

end Sections

end Prog

/-! ### The scheduler -/

/-- A program under way: what it was started for, the sections it has been through, and the rest
of it. -/
structure Thread (κ σ ε μ α : Type) where
  label : κ
  done : Nat
  rest : Prog σ ε μ α

structure Pool (κ σ ε μ α : Type) where
  world : World σ ε μ
  threads : List (Thread κ σ ε μ α)

inductive Schedule (κ : Type) where
  | start (c : κ)
  | run (i : Nat) (env : List Bool)
  deriving DecidableEq

namespace Pool

variable {κ σ ε μ α : Type} {prog : κ → Prog σ ε μ α} {I : σ → Prop}
  {R : κ → Nat → σ → σ → Prop}

/-- One step of the scheduler: a new thread, or a thread that goes on until it has released the
mutex. A thread that is blocked or has ended makes no step. -/
def step (prog : κ → Prog σ ε μ α) (s : Pool κ σ ε μ α) : Schedule κ → Option (Pool κ σ ε μ α)
  | .start c => some { s with threads := s.threads ++ [⟨c, 0, prog c⟩] }
  | .run i env =>
    match s.threads[i]? with
    | none => none
    | some t =>
      if t.rest.result.isSome then none
      else (t.rest.toRelease env s.world).map fun r =>
        ⟨r.2.1, s.threads.set i ⟨t.label, t.done + 1, r.1⟩⟩

inductive Steps (prog : κ → Prog σ ε μ α) (s : Pool κ σ ε μ α) :
    Schedule κ → Pool κ σ ε μ α → Prop where
  | start (c : κ) : Steps prog s (.start c) { s with threads := s.threads ++ [⟨c, 0, prog c⟩] }
  | run {i : Nat} {env env' : List Bool} {t : Thread κ σ ε μ α} {p : Prog σ ε μ α}
      {w : World σ ε μ} (ht : s.threads[i]? = some t)
      (hr : t.rest.toRelease env s.world = some (p, w, env')) :
      Steps prog s (.run i env) ⟨w, s.threads.set i ⟨t.label, t.done + 1, p⟩⟩

theorem step_cases {s s' : Pool κ σ ε μ α} {a : Schedule κ} (h : step prog s a = some s') :
    Steps prog s a s' := by
  cases a with
  | start c =>
    obtain rfl := Option.some.inj h
    exact .start c
  | run i env =>
    simp only [step] at h
    split at h
    · cases h
    · split at h
      · cases h
      · obtain ⟨r, hr, rfl⟩ := Option.map_eq_some_iff.mp h
        exact .run ‹_› hr

/-- Every program keeps the invariant, and every section of it meets `R`. -/
structure Guarantees (prog : κ → Prog σ ε μ α) (I : σ → Prop) (R : κ → Nat → σ → σ → Prop) :
    Prop where
  keeps : ∀ c n s s', I s → R c n s s' → I s'
  refl : ∀ c n s, I s → R c n s s
  sections : ∀ c (w : World σ ε μ), I w.state →
    (prog c).sections I (R c) (fun _ n s w => R c n s w.state) 0 w.state w

/-- The invariant holds, and the threads will keep it. -/
structure Kept (I : σ → Prop) (R : κ → Nat → σ → σ → Prop) (s : Pool κ σ ε μ α) : Prop where
  inv : I s.world.state
  threads : ∀ t ∈ s.threads, ∀ w : World σ ε μ, I w.state →
    t.rest.sections I (R t.label) (fun _ n s w => R t.label n s w.state) t.done w.state w

theorem Kept.init (w : World σ ε μ) (hI : I w.state) :
    Kept I R (⟨w, []⟩ : Pool κ σ ε μ α) := ⟨hI, by simp⟩

theorem Guarantees.run (hg : Guarantees prog I R) {s : Pool κ σ ε μ α} (hs : Kept I R s) {i : Nat}
    {env env' : List Bool} {t : Thread κ σ ε μ α} {p : Prog σ ε μ α} {w : World σ ε μ}
    (ht : s.threads[i]? = some t) (hr : t.rest.toRelease env s.world = some (p, w, env')) :
    R t.label t.done s.world.state w.state ∧
      Kept I R ⟨w, s.threads.set i ⟨t.label, t.done + 1, p⟩⟩ := by
  have hsec := hs.threads t (List.mem_of_getElem? ht) s.world hs.inv
  obtain ⟨hR, hrest⟩ := hsec.toRelease (hg.refl t.label) hr
  refine ⟨hR, hg.keeps _ _ _ _ hs.inv hR, fun u hu v hv => ?_⟩
  rcases List.mem_or_eq_of_mem_set hu with hu | rfl
  · exact hs.threads u hu v hv
  · exact hrest v hv

theorem Guarantees.kept (hg : Guarantees prog I R) {s s' : Pool κ σ ε μ α} {a : Schedule κ}
    (hs : Kept I R s) (h : step prog s a = some s') : Kept I R s' := by
  cases step_cases h with
  | start c =>
    refine ⟨hs.inv, fun u hu v hv => ?_⟩
    rcases List.mem_append.mp hu with hu | hu
    · exact hs.threads u hu v hv
    · obtain rfl := List.mem_singleton.mp hu
      exact hg.sections c v hv
  | run ht hr => exact (hg.run hs ht hr).2

/-- What the scheduler does to the state is nothing, or a section of some thread. -/
theorem Guarantees.moves (hg : Guarantees prog I R) {s s' : Pool κ σ ε μ α} {a : Schedule κ}
    (hs : Kept I R s) (h : step prog s a = some s') : s'.world = s.world ∨
      ∃ i env t, a = .run i env ∧ s.threads[i]? = some t ∧
        R t.label t.done s.world.state s'.world.state := by
  cases step_cases h with
  | start c => exact .inl rfl
  | @run i env env' t p w ht hr => exact .inr ⟨i, env, t, rfl, ht, (hg.run hs ht hr).1⟩

end Pool

end FileStorage
