import FileStorage.Interleaving

/-! Programs with one section. A thread that runs such a program may be thought of as running all of
it at the moment when it goes through its section. -/

namespace FileStorage

namespace World

variable {σ ε μ : Type}

/-- The two worlds have the same state, and the mutex is held in both or in neither. -/
def Same (u v : World σ ε μ) : Prop := u.state = v.state ∧ u.held = v.held

theorem Same.refl (w : World σ ε μ) : w.Same w := ⟨rfl, rfl⟩

theorem Same.symm {u v : World σ ε μ} (h : u.Same v) : v.Same u := ⟨h.1.symm, h.2.symm⟩

theorem Same.trans {u v w : World σ ε μ} (h : u.Same v) (h' : v.Same w) : u.Same w :=
  ⟨h.1.trans h'.1, h.2.trans h'.2⟩

theorem same_posted (w : World σ ε μ) (m : μ) (b : Bool) : (w.posted m b).Same w := by
  cases b <;> exact ⟨rfl, rfl⟩

end World

namespace Prog

variable {σ ε μ α β : Type}

/-- What a run does to the state does not depend on what was sent or noted before. -/
theorem run_congr {p : Prog σ ε μ α} {env : List Bool} {u v : World σ ε μ} (h : u.Same v) :
    (p.run env u).1 = (p.run env v).1 ∧ (p.run env u).2.1.Same (p.run env v).2.1 := by
  induction p generalizing env u v with
  | ret a => exact ⟨rfl, h⟩
  | crash => exact ⟨rfl, h⟩
  | lock k ih =>
    by_cases hu : u.held = true
    · have hv : v.held = true := h.2 ▸ hu
      rw [run, run, if_pos hu, if_pos hv]
      exact ⟨rfl, h⟩
    · have hv : ¬v.held = true := h.2 ▸ hu
      simp only [run, hu, hv]
      exact ih ⟨h.1, rfl⟩
  | unlock k ih => exact ih ⟨h.1, rfl⟩
  | access es f k ih =>
    simp only [run, h.1]
    exact ih v.state ⟨congrArg f h.1, h.2⟩
  | choose k ih => exact ih _ h
  | send m k ih => exact ih _ ((World.same_posted u m _).trans (h.trans (World.same_posted v m _).symm))

/-- The program only ends, with a result in `P`: it neither changes the state nor uses the mutex. -/
def idles (P : α → Prop) : Prog σ ε μ α → Prop
  | ret a => P a
  | crash => False
  | lock _ => False
  | unlock _ => False
  | access _ f k => f = id ∧ ∀ s, (k s).idles P
  | choose k => ∀ b, (k b).idles P
  | send _ k => ∀ b, (k b).idles P

/-- After the first release nothing is left but to return. -/
def single : Prog σ ε μ α → Prop
  | ret _ => True
  | crash => True
  | lock k => k.single
  | unlock k => ∃ a, k.idles fun b => b = a
  | access _ _ k => ∀ s, (k s).single
  | choose k => ∀ b, (k b).single
  | send _ k => ∀ b, (k b).single

/-- The same for the steps of the scheduler that start from `w`. -/
def atomic (p : Prog σ ε μ α) (w : World σ ε μ) : Prop :=
  ∀ env p' w' env', p.toRelease env w = some (p', w', env') → ∃ a, p'.idles fun b => b = a

section Idles

variable {P : α → Prop} {Q : β → Prop} {p p' : Prog σ ε μ α} {g : α → Prog σ ε μ β}
  {env env' : List Bool} {w w' : World σ ε μ} {a : α}

theorem idles.bind (hp : p.idles P) (hg : ∀ a, P a → (g a).idles Q) : (p.bind g).idles Q := by
  induction p with
  | ret a => exact hg a hp
  | crash => exact hp.elim
  | lock k => exact hp.elim
  | unlock k => exact hp.elim
  | access es f k ih => exact ⟨hp.1, fun s => ih s (hp.2 s)⟩
  | choose k ih => exact fun b => ih b (hp b)
  | send m k ih => exact fun b => ih b (hp b)

theorem idles.run (hp : p.idles P) (env : List Bool) (w : World σ ε μ) :
    ∃ a, P a ∧ (p.run env w).1 = .done a ∧ (p.run env w).2.1.Same w := by
  induction p generalizing env w with
  | ret a => exact ⟨a, hp, rfl, .refl w⟩
  | crash => exact hp.elim
  | lock k => exact hp.elim
  | unlock k => exact hp.elim
  | access es f k ih =>
    obtain ⟨rfl, hk⟩ := hp
    exact ih w.state (hk w.state) env (w.accessed es id)
  | choose k ih => exact ih _ (hp _) _ w
  | send m k ih =>
    obtain ⟨a, ha, hrun, hsame⟩ := ih (env.headD true) (hp _) env.tail (w.posted m (env.headD true))
    exact ⟨a, ha, hrun, hsame.trans (World.same_posted w m _)⟩

theorem idles.toRelease (hp : p.idles P) (h : p.toRelease env w = some (p', w', env')) :
    p'.idles P ∧ w'.Same w := by
  induction p generalizing env w with
  | ret a =>
    obtain ⟨rfl, rfl, rfl⟩ := by simpa [Prog.toRelease] using h
    exact ⟨hp, .refl w⟩
  | crash => exact hp.elim
  | lock k => exact hp.elim
  | unlock k => exact hp.elim
  | access es f k ih =>
    obtain ⟨rfl, hk⟩ := hp
    exact @ih w.state env (w.accessed es id) (hk w.state) h
  | choose k ih => exact ih _ (hp _) h
  | send m k ih =>
    obtain ⟨hp', hsame⟩ := ih _ (hp _) h
    exact ⟨hp', hsame.trans (World.same_posted w m _)⟩

theorem idles.result (hp : p.idles P) (h : p.result = some a) : P a := by
  cases p with
  | ret b =>
    obtain rfl := Option.some.inj h
    exact hp
  | _ => cases h

end Idles

section Single

variable {p : Prog σ ε μ β} {g : β → Prog σ ε μ α} {q : Prog σ ε μ α} {w : World σ ε μ}

theorem plain.single_bind (hp : p.plain) (hg : ∀ b, (g b).single) : (p.bind g).single := by
  induction p with
  | ret b => exact hg b
  | crash => trivial
  | lock k => exact hp.elim
  | unlock k => exact hp.elim
  | access es f k ih => exact fun s => ih s (hp s)
  | choose k ih => exact fun b => ih b (hp b)
  | send m k ih => exact fun b => ih b (hp b)

theorem single.map {f : β → α} (hp : p.single) : (p.bind fun b => ret (f b)).single := by
  induction p with
  | ret b => trivial
  | crash => trivial
  | lock k ih => exact ih hp
  | unlock k ih =>
    obtain ⟨b, hb⟩ := hp
    exact ⟨f b, hb.bind fun c hc => congrArg f hc⟩
  | access es h k ih => exact fun s => ih s (hp s)
  | choose k ih => exact fun b => ih b (hp b)
  | send m k ih => exact fun b => ih b (hp b)

theorem toRelease_map {f : β → α} (env : List Bool) (w : World σ ε μ) :
    (p.bind fun b => ret (f b)).toRelease env w =
      (p.toRelease env w).map fun r => (r.1.bind fun b => ret (f b), r.2) := by
  induction p generalizing env w with
  | ret b => rfl
  | crash => rfl
  | lock k ih =>
    simp only [bind, toRelease, ih]
    split <;> rfl
  | unlock k ih => rfl
  | access es g k ih => exact ih _ _ _
  | choose k ih => exact ih _ _ _
  | send m k ih => exact ih _ _ _

theorem atomic.map {f : β → α} (hp : p.atomic w) : (p.bind fun b => ret (f b)).atomic w := by
  intro env q w' env' h
  rw [toRelease_map] at h
  obtain ⟨⟨p', w1, env1⟩, hp', heq⟩ := Option.map_eq_some_iff.mp h
  obtain ⟨rfl, rfl, rfl⟩ := by simpa using heq
  obtain ⟨b, hb⟩ := hp env p' w1 env1 hp'
  exact ⟨f b, hb.bind fun c hc => congrArg f hc⟩

theorem single.atomic (hq : q.single) (w : World σ ε μ) : q.atomic w := by
  intro env q' w' env' h
  induction q generalizing env w with
  | ret a =>
    obtain ⟨rfl, rfl, rfl⟩ := by simpa [toRelease] using h
    exact ⟨a, rfl⟩
  | crash => cases h
  | lock k ih =>
    by_cases hw : w.held = true
    · simp [toRelease, hw] at h
    · rw [toRelease, if_neg hw] at h
      exact ih hq _ _ h
  | unlock k ih =>
    obtain ⟨rfl, rfl, rfl⟩ := by simpa [toRelease] using h
    exact hq
  | access es f k ih => exact ih _ (hq _) _ _ h
  | choose k ih => exact ih _ (hq _) _ _ h
  | send m k ih => exact ih _ (hq _) _ _ h

/-- A first piece that only reads. -/
theorem atomic_after (hp : p.plain) (hr : p.readOnly)
    (hg : ∀ b w', w'.state = w.state → (g b).atomic w') : (p.bind g).atomic w := by
  suffices hs : ∀ u : World σ ε μ, u.state = w.state → (p.bind g).atomic u from hs w rfl
  induction p with
  | ret b => exact fun u hu => hg b u hu
  | crash =>
    intro u _ env q' w' env' h
    cases h
  | lock k => exact hp.elim
  | unlock k => exact hp.elim
  | access es f k ih =>
    obtain ⟨rfl, hk⟩ := hr
    exact fun u hu env => ih u.state (hp _) (hk _) (u.accessed es id) hu env
  | choose k ih => exact fun u hu env => ih _ (hp _) (hr _) u hu env.tail
  | send m k ih =>
    intro u hu env
    exact ih _ (hp _) (hr _) (u.posted m (env.headD true)) ((World.posted_state _ _ _).trans hu) env.tail

theorem atomic_read {es : σ → List ε} {f : σ → β} (h : (g (f w.state)).atomic (w.accessed es id)) :
    ((Prog.read es f).bind g).atomic w := h

theorem atomic_enter (h : ∀ w', w'.state = w.state → q.atomic w') :
    (lockReturn.bind fun _ => q).atomic w := by
  intro env q' w' env' ht
  by_cases hw : w.held = true
  · simp [lockReturn, bind, toRelease, hw] at ht
  · simp only [lockReturn, bind, toRelease, if_neg hw] at ht
    exact h w.locked rfl env q' w' env' ht

/-- In its step the thread does what the whole program does in a world of its own. -/
theorem atomic.run {q' : Prog σ ε μ α} {env env' : List Bool} {v w' : World σ ε μ} (hq : q.atomic w)
    (h : q.toRelease env w = some (q', w', env')) (hv : v.Same w) :
    ∃ a, (q'.idles fun b => b = a) ∧ (q.run env v).1 = .done a ∧ (q.run env v).2.1.Same w' := by
  obtain ⟨a, ha⟩ := hq env q' w' env' h
  obtain ⟨b, rfl, hrun, hsame⟩ := ha.run env' w'
  rw [← run_toRelease h] at hrun hsame
  obtain ⟨hout, hworld⟩ := @run_congr _ _ _ _ q env _ _ hv
  exact ⟨b, ha, hout.trans hrun, hworld.trans hsame⟩

end Single

end Prog

end FileStorage
