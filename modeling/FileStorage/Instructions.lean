import FileStorage.Atomic

/-! Threads that may be interrupted after every single instruction. Where they use the state in their
sections only, they do what threads do that are interrupted only when they have released the mutex. -/

namespace FileStorage

namespace Prog

variable {σ ε μ α β : Type}

/-- One instruction, with the answer of the environment should it be asked. A program that has ended
makes none, nor does one that waits for the mutex. -/
def instr : Prog σ ε μ α → Bool → World σ ε μ → Option (Prog σ ε μ α × World σ ε μ)
  | ret _, _, _ => none
  | crash, _, _ => none
  | lock k, _, w => if w.held then none else some (k, w.locked)
  | unlock k, _, w => some (k, w.unlocked)
  | access es f k, _, w => some (k w.state, w.accessed es f)
  | choose k, b, w => some (k b, w)
  | send m k, b, w => some (k b, w.posted m b)

/-- After an instruction that leads to `p'` the program has released the mutex or is at its end. -/
def ends : Prog σ ε μ α → Prog σ ε μ α → Bool
  | unlock _, _ => true
  | _, p' => p'.result.isSome

/-- The program uses the state only while it holds the mutex. Outside it reads only what is the same
in all states in `I`; or, once it has released the mutex, has nothing left but to return. -/
def fenced (I : σ → Prop) : Prog σ ε μ α → Bool → Prop
  | ret _, _ => True
  | crash, _ => True
  | lock k, held => held = false → k.fenced I true
  | unlock k, held => held = true ∧ (k.fenced I false ∨ ∃ a, k.idles fun b => b = a)
  | access _ f k, held =>
    if held then ∀ s, I s → (k s).fenced I true
    else f = id ∧ (∀ s t, I s → I t → k s = k t) ∧ ∀ s, I s → (k s).fenced I false
  | choose k, held => ∀ b, (k b).fenced I held
  | send _ k, held => ∀ b, (k b).fenced I held

/-- No access leads out of `I`. -/
def preserves (I : σ → Prop) : Prog σ ε μ α → Prop
  | ret _ => True
  | crash => True
  | lock k => k.preserves I
  | unlock k => k.preserves I
  | access _ f k => (∀ s, I s → I (f s)) ∧ ∀ s, (k s).preserves I
  | choose k => ∀ b, (k b).preserves I
  | send _ k => ∀ b, (k b).preserves I

section Preserves

variable {I : σ → Prop} {p p' : Prog σ ε μ α} {b : Bool} {w w' : World σ ε μ}

theorem preserves.bind {p : Prog σ ε μ β} {g : β → Prog σ ε μ α} (hp : p.preserves I)
    (hg : ∀ b, (g b).preserves I) : (p.bind g).preserves I := by
  induction p with
  | ret b => exact hg b
  | crash => trivial
  | lock k ih => exact ih hp
  | unlock k ih => exact ih hp
  | access es f k ih => exact ⟨hp.1, fun s => ih s (hp.2 s)⟩
  | choose k ih => exact fun b => ih b (hp b)
  | send m k ih => exact fun b => ih b (hp b)

theorem preserves.map {p : Prog σ ε μ β} {f : β → α} (hp : p.preserves I) :
    (p.bind fun b => ret (f b)).preserves I :=
  hp.bind fun _ => trivial

theorem preserves.ite {c : Prop} [Decidable c] {p q : Prog σ ε μ α} (hp : p.preserves I)
    (hq : q.preserves I) : (if c then p else q).preserves I := by
  split
  · exact hp
  · exact hq

theorem readOnly.preserves (h : p.readOnly) : p.preserves I := by
  induction p with
  | ret a => trivial
  | crash => trivial
  | lock k ih => exact ih h
  | unlock k ih => exact ih h
  | access es f k ih =>
    obtain ⟨rfl, hk⟩ := h
    exact ⟨fun s hs => hs, fun s => ih s (hk s)⟩
  | choose k ih => exact fun b => ih b (h b)
  | send m k ih => exact fun b => ih b (h b)

theorem preserves_modify {es : σ → List ε} {f : σ → σ} (h : ∀ s, I s → I (f s)) :
    (modify es f : Prog σ ε μ Unit).preserves I :=
  ⟨h, fun _ => trivial⟩

theorem preserves_update {es : σ → List ε} {f : σ → σ} {g : Unit → Prog σ ε μ α}
    (hf : ∀ s, I s → I (f s)) (hg : ∀ u, (g u).preserves I) : ((modify es f).bind g).preserves I :=
  ⟨hf, fun _ => hg ()⟩

theorem preserves.instr (h : p.preserves I) (hw : I w.state) (hp : p.instr b w = some (p', w')) :
    I w'.state ∧ p'.preserves I := by
  cases p with
  | ret a => cases hp
  | crash => cases hp
  | lock k =>
    simp only [Prog.instr] at hp
    split at hp
    · cases hp
    · obtain ⟨rfl, rfl⟩ := Prod.mk.inj (Option.some.inj hp)
      exact ⟨hw, h⟩
  | unlock k =>
    obtain ⟨rfl, rfl⟩ := Prod.mk.inj (Option.some.inj hp)
    exact ⟨hw, h⟩
  | access es f k =>
    obtain ⟨rfl, rfl⟩ := Prod.mk.inj (Option.some.inj hp)
    exact ⟨h.1 _ hw, h.2 _⟩
  | choose k =>
    obtain ⟨rfl, rfl⟩ := Prod.mk.inj (Option.some.inj hp)
    exact ⟨hw, h b⟩
  | send m k =>
    obtain ⟨rfl, rfl⟩ := Prod.mk.inj (Option.some.inj hp)
    exact ⟨by rwa [World.posted_state], h b⟩

end Preserves

section Fenced

variable {I : σ → Prop} {p : Prog σ ε μ α} {g : α → Prog σ ε μ β} {held : Bool}

theorem plain.fenced_bind (hp : p.plain) (hg : ∀ a, (g a).fenced I true) : (p.bind g).fenced I true := by
  induction p with
  | ret a => exact hg a
  | crash => trivial
  | lock k => exact hp.elim
  | unlock k => exact hp.elim
  | access es f k ih => exact fun s _ => ih s (hp s)
  | choose k ih => exact fun b => ih b (hp b)
  | send m k ih => exact fun b => ih b (hp b)

theorem fenced.ite {c : Prop} [Decidable c] {p q : Prog σ ε μ α} (hp : p.fenced I held)
    (hq : q.fenced I held) : (if c then p else q).fenced I held := by
  split
  · exact hp
  · exact hq

theorem fenced_read {es : σ → List ε} {f : σ → α} (h : ∀ s, I s → (g (f s)).fenced I true) :
    ((read es f).bind g).fenced I true := h

/-- A read outside the sections, of what does not change. -/
theorem fenced_parameter {es : σ → List ε} {f : σ → α} (hc : ∀ s t, I s → I t → g (f s) = g (f t))
    (h : ∀ s, I s → (g (f s)).fenced I false) : ((read es f).bind g).fenced I false :=
  ⟨rfl, hc, h⟩

theorem fenced_leave (b : β) : (unlockReturn.bind fun _ => ret b : Prog σ ε μ β).fenced I true :=
  ⟨rfl, .inl trivial⟩

theorem fenced.map {f : α → β} (hp : p.fenced I held) : (p.bind fun a => ret (f a)).fenced I held := by
  induction p generalizing held with
  | ret a => trivial
  | crash => trivial
  | lock k ih => exact fun hh => ih (hp hh)
  | unlock k ih =>
    refine ⟨hp.1, hp.2.imp (fun h => ih h) fun h => ?_⟩
    obtain ⟨a, ha⟩ := h
    exact ⟨f a, ha.bind fun b hb => congrArg f hb⟩
  | access es h k ih =>
    cases held with
    | true => exact fun s hs => ih s (hp s hs)
    | false =>
      refine ⟨hp.1, fun s t hs ht => ?_, fun s hs => ih s (hp.2.2 s hs)⟩
      simp only [hp.2.1 s t hs ht]
  | choose k ih => exact fun b => ih b (hp b)
  | send m k ih => exact fun b => ih b (hp b)

end Fenced

/-! ### From one release to the next -/

/-- What a step of the scheduler leaves of a program, with the state and the mutex. -/
def stretch (p : Prog σ ε μ α) (env : List Bool) (w : World σ ε μ) :
    Option (Prog σ ε μ α × σ × Bool × List Bool) :=
  (p.toRelease env w).map fun r => (r.1, r.2.1.state, r.2.1.held, r.2.2)

section Stretch

variable {I : σ → Prop} {p p' q : Prog σ ε μ α} {b : Bool} {env : List Bool} {v w w' W : World σ ε μ}
  {a : α}

theorem stretch_congr (h : v.Same w) : p.stretch env v = p.stretch env w := by
  induction p generalizing env v w with
  | ret a => simp only [stretch, toRelease, Option.map_some, h.1, h.2]
  | crash => rfl
  | lock k ih =>
    simp only [stretch, toRelease, h.2]
    split
    · rfl
    · exact ih ⟨h.1, rfl⟩
  | unlock k ih =>
    simp only [stretch, toRelease, Option.map_some, World.unlocked_state, World.unlocked_held, h.1]
  | access es f k ih =>
    have hk := @ih w.state env (v.accessed es f) (w.accessed es f) ⟨congrArg f h.1, h.2⟩
    rw [← h.1] at hk
    exact hk.trans (by rw [h.1]; rfl)
  | choose k ih => exact ih _ h
  | send m k ih => exact ih _ ((World.same_posted v m _).trans (h.trans (World.same_posted w m _).symm))

theorem stretch_lock {k : Prog σ ε μ α} (h : w.held = false) :
    (lock k).stretch env w = k.stretch env w.locked := by
  rw [stretch, toRelease, if_neg (by simp [h])]
  rfl

theorem toRelease_of_stretch {s : σ} {held : Bool} {env' : List Bool}
    (h : p.stretch env w = some (p', s, held, env')) :
    ∃ w', p.toRelease env w = some (p', w', env') ∧ w'.state = s ∧ w'.held = held := by
  obtain ⟨⟨p1, w1, env1⟩, hr, heq⟩ := Option.map_eq_some_iff.mp h
  obtain ⟨rfl, rfl, rfl, rfl⟩ := by simpa using heq
  exact ⟨w1, hr, rfl, rfl⟩

theorem idles.instr {P : α → Prop} (h : p.idles P) (hp : p.instr b w = some (p', w')) :
    p'.idles P ∧ w'.Same w ∧ p.ends p' = p'.result.isSome := by
  cases p with
  | ret a => cases hp
  | crash => cases hp
  | lock k => exact h.elim
  | unlock k => exact h.elim
  | access es f k =>
    obtain ⟨rfl, hk⟩ := h
    obtain ⟨rfl, rfl⟩ := Prod.mk.inj (Option.some.inj hp)
    exact ⟨hk _, ⟨rfl, rfl⟩, rfl⟩
  | choose k =>
    obtain ⟨rfl, rfl⟩ := Prod.mk.inj (Option.some.inj hp)
    exact ⟨h b, .refl _, rfl⟩
  | send m k =>
    obtain ⟨rfl, rfl⟩ := Prod.mk.inj (Option.some.inj hp)
    exact ⟨h b, World.same_posted w m b, rfl⟩

theorem idles.stretch (h : p.idles fun b => b = a) (env : List Bool) (w : World σ ε μ) :
    ∃ env', p.stretch env w = some (ret a, w.state, w.held, env') := by
  induction p generalizing env w with
  | ret b =>
    obtain rfl := h
    exact ⟨env, rfl⟩
  | crash => exact h.elim
  | lock k => exact h.elim
  | unlock k => exact h.elim
  | access es f k ih =>
    obtain ⟨rfl, hk⟩ := h
    exact ih w.state (hk w.state) env (w.accessed es id)
  | choose k ih => exact ih _ (h _) env.tail w
  | send m k ih =>
    obtain ⟨env', hr⟩ := ih (env.headD true) (h _) env.tail (w.posted m (env.headD true))
    rw [World.posted_state, World.posted_held] at hr
    exact ⟨env', hr⟩

/-- Outside of its sections: in every state in `I` there are answers with which `q` comes to where `p`
is, but for a last part that only returns. -/
def Leads (I : σ → Prop) (q p : Prog σ ε μ α) : Prop :=
  ∃ u p₀, (∀ w : World σ ε μ, I w.state → ∀ env, q.stretch (u ++ env) w = p₀.stretch env w) ∧
    (p = p₀ ∧ p.fenced I false ∨ ∃ a, (p₀.idles fun b => b = a) ∧ p.idles fun b => b = a)

/-- In a section that `q` enters in the world `W`: there are answers with which it comes to where `p` is
in the world `w`. -/
def Arrives (q : Prog σ ε μ α) (W : World σ ε μ) (p : Prog σ ε μ α) (w : World σ ε μ) : Prop :=
  ∃ u, ∀ env, q.stretch (u ++ env) W = p.stretch env w

theorem Leads.refl (h : p.fenced I false ∨ ∃ a, p.idles fun b => b = a) : Leads I p p := by
  refine ⟨[], p, fun w _ env => rfl, h.imp (fun h => ⟨rfl, h⟩) fun h => ?_⟩
  obtain ⟨a, ha⟩ := h
  exact ⟨a, ha, ha⟩

theorem Leads.ret (h : Leads I q (ret a)) :
    ∃ u, ∀ w : World σ ε μ, I w.state → ∃ env', q.stretch u w = some (.ret a, w.state, w.held, env') := by
  obtain ⟨u, p₀, hu, h⟩ := h
  refine ⟨u, fun w hw => ?_⟩
  have hrun := hu w hw []
  rw [List.append_nil] at hrun
  rw [hrun]
  rcases h with ⟨rfl, -⟩ | ⟨b, hb, rfl⟩
  · exact ⟨[], rfl⟩
  · exact hb.stretch [] w

/-- Outside of its sections a program enters the next one, or does nothing to the state. -/
theorem Leads.instr (h : Leads I q p) (hw : I w.state) (hp : p.instr b w = some (p', w')) :
    p.ends p' = p'.result.isSome ∧
      ((w.held = false ∧ w'.Same w.locked ∧ p'.fenced I true ∧
          ∀ W : World σ ε μ, I W.state → W.Same w → Arrives q W p' w') ∨ w'.Same w ∧ Leads I q p') := by
  obtain ⟨u, p₀, hu, ⟨rfl, hf⟩ | ⟨a, h0, ha⟩⟩ := h
  · cases p with
    | ret a => cases hp
    | crash => cases hp
    | lock k =>
      simp only [Prog.instr] at hp
      split at hp
      · cases hp
      · rename_i hheld
        obtain ⟨rfl, rfl⟩ := Prod.mk.inj (Option.some.inj hp)
        have hfree : w.held = false := by simpa using hheld
        refine ⟨rfl, .inl ⟨hfree, .refl _, hf rfl, fun W hW hsame => ⟨u, fun env => ?_⟩⟩⟩
        rw [hu W hW env, stretch_congr hsame, stretch_lock hfree]
    | unlock k => cases hf.1
    | access es f k =>
      obtain ⟨rfl, hc, hk⟩ := hf
      obtain ⟨rfl, rfl⟩ := Prod.mk.inj (Option.some.inj hp)
      refine ⟨rfl, .inr ⟨⟨rfl, rfl⟩, u, k w.state, fun W hW env => ?_, .inl ⟨rfl, hk _ hw⟩⟩⟩
      rw [hu W hW env, hc w.state W.state hw hW]
      show (k W.state).stretch env (W.accessed es id) = _
      exact stretch_congr ⟨rfl, rfl⟩
    | choose k =>
      obtain ⟨rfl, rfl⟩ := Prod.mk.inj (Option.some.inj hp)
      refine ⟨rfl, .inr ⟨.refl _, u ++ [b], k b, fun W hW env => ?_, .inl ⟨rfl, hf b⟩⟩⟩
      rw [List.append_assoc]
      exact hu W hW (b :: env)
    | send m k =>
      obtain ⟨rfl, rfl⟩ := Prod.mk.inj (Option.some.inj hp)
      refine ⟨rfl, .inr ⟨World.same_posted w m b, u ++ [b], k b, fun W hW env => ?_, .inl ⟨rfl, hf b⟩⟩⟩
      rw [List.append_assoc]
      exact (hu W hW (b :: env)).trans (stretch_congr (World.same_posted W m b))
  · obtain ⟨ha', hsame, hends⟩ := ha.instr hp
    exact ⟨hends, .inr ⟨hsame, u, p₀, hu, .inr ⟨a, h0, ha'⟩⟩⟩

theorem Arrives.congr {V : World σ ε μ} (h : Arrives q W p w) (hW : V.Same W) (hw : v.Same w) :
    Arrives q V p v := by
  obtain ⟨u, hu⟩ := h
  exact ⟨u, fun env => by rw [stretch_congr hW, stretch_congr hw, hu]⟩

/-- In its section a program goes on, or it leaves the section. -/
theorem Arrives.instr (h : Arrives q W p w) (hf : p.fenced I true) (hw : I w.state)
    (hheld : w.held = true) (hp : p.instr b w = some (p', w')) :
    (p.ends p' = true ∧ w'.Same w.unlocked ∧ Leads I p' p' ∧
        ∃ u, q.stretch u W = some (p', w.state, false, [])) ∨
      p.ends p' = p'.result.isSome ∧ w'.held = true ∧ p'.fenced I true ∧ Arrives q W p' w' := by
  obtain ⟨u, hu⟩ := h
  cases p with
  | ret a => cases hp
  | crash => cases hp
  | lock k =>
    rw [Prog.instr, if_pos hheld] at hp
    cases hp
  | unlock k =>
    obtain ⟨rfl, rfl⟩ := Prod.mk.inj (Option.some.inj hp)
    have hrun := hu []
    rw [List.append_nil] at hrun
    exact .inl ⟨rfl, .refl _, .refl hf.2, u, hrun⟩
  | access es f k =>
    obtain ⟨rfl, rfl⟩ := Prod.mk.inj (Option.some.inj hp)
    exact .inr ⟨rfl, hheld, hf _ hw, u, fun env => hu env⟩
  | choose k =>
    obtain ⟨rfl, rfl⟩ := Prod.mk.inj (Option.some.inj hp)
    refine .inr ⟨rfl, hheld, hf b, u ++ [b], fun env => ?_⟩
    rw [List.append_assoc]
    exact hu (b :: env)
  | send m k =>
    obtain ⟨rfl, rfl⟩ := Prod.mk.inj (Option.some.inj hp)
    refine .inr ⟨rfl, by rwa [World.posted_held], hf b, u ++ [b], fun env => ?_⟩
    rw [List.append_assoc]
    exact hu (b :: env)

theorem result_of_instr {r : Prog σ ε μ α × World σ ε μ} (h : p.instr b w = some r) : p.result = none := by
  cases p with
  | ret a => cases h
  | _ => rfl

theorem eq_ret_of_result (h : p.result.isSome) : ∃ a, p = ret a := by
  cases p with
  | ret a => exact ⟨a, rfl⟩
  | _ => cases h

end Stretch

end Prog

/-! ### The scheduler -/

inductive Tick (κ : Type) where
  | start (c : κ)
  | instr (i : Nat) (b : Bool)
  deriving DecidableEq

namespace Pool

open Prog

variable {κ σ ε μ α : Type} {prog : κ → Prog σ ε μ α} {I : σ → Prop} {owner owner' : Option Nat}
  {c c' s s' : Pool κ σ ε μ α} {i : Nat} {b : Bool} {env env' : List Bool} {W V w v : World σ ε μ}
  {t u : Thread κ σ ε μ α} {p q : Prog σ ε μ α}

/-- A new thread, or one instruction of a thread. It counts the sections that it has been through. -/
def tick (prog : κ → Prog σ ε μ α) (s : Pool κ σ ε μ α) : Tick κ → Option (Pool κ σ ε μ α)
  | .start c => some { s with threads := s.threads ++ [⟨c, 0, prog c⟩] }
  | .instr i b => s.threads[i]?.bind fun t => (t.rest.instr b s.world).map fun r =>
      ⟨r.2, s.threads.set i ⟨t.label, t.done + (t.rest.ends r.1).toNat, r.1⟩⟩

/-- The section that an instruction ends: its thread, what the thread was started for, and how many
sections it has been through before. -/
def ended (s : Pool κ σ ε μ α) : Tick κ → Option (Nat × κ × Nat)
  | .start _ => none
  | .instr i b => s.threads[i]?.bind fun t => (t.rest.instr b s.world).bind fun r =>
      if t.rest.ends r.1 then some (i, t.label, t.done) else none

/-- The same for a step of the scheduler that waits for the end of the section. -/
def ran (s : Pool κ σ ε μ α) : Schedule κ → Option (Nat × κ × Nat)
  | .start _ => none
  | .run i _ => s.threads[i]?.map fun t => (i, t.label, t.done)

/-- A thread `t` that is stopped anywhere, and the same thread `u` as it was at its last release. -/
structure Paired (I : σ → Prop) (W w : World σ ε μ) (inside : Prop) (u t : Thread κ σ ε μ α) : Prop where
  label : u.label = t.label
  done : u.done = t.done
  keeps : t.rest.preserves I
  result : u.rest.result = t.rest.result
  outside : ¬inside → Leads I u.rest t.rest
  inside : inside → t.rest.result = none ∧ t.rest.fenced I true ∧ Arrives u.rest W t.rest w

/-- `c` is where `s` was when the mutex was free the last time; `owner` is in its section since. -/
structure Follows (I : σ → Prop) (owner : Option Nat) (c s : Pool κ σ ε μ α) : Prop where
  length : c.threads.length = s.threads.length
  inv : I s.world.state
  inv' : I c.world.state
  free : owner = none → c.world.Same s.world
  held : owner ≠ none → s.world.held = true
  started : ∀ j, owner = some j → j < s.threads.length
  threads : ∀ i u t, c.threads[i]? = some u → s.threads[i]? = some t →
    Paired I c.world s.world (owner = some i) u t

theorem Paired.move {inside : Prop} (h : Paired I W w inside u t)
    (hw : inside → V.Same W ∧ v.Same w) : Paired I V v inside u t := by
  refine { h with inside := fun hi => ?_ }
  obtain ⟨hr, hf, ha⟩ := h.inside hi
  exact ⟨hr, hf, ha.congr (hw hi).1 (hw hi).2⟩

theorem Follows.init (hI : I w.state) : Follows I none (⟨w, []⟩ : Pool κ σ ε μ α) ⟨w, []⟩ where
  length := rfl
  inv := hI
  inv' := hI
  free _ := .refl w
  held h := absurd rfl h
  started j h := by cases h
  threads i u t hu := by cases hu

/-- The thread `i` goes on. -/
theorem Follows.update (hs : Follows I owner c s) (hi : i < s.threads.length) (hI : I v.state) (hI' : I V.state)
    (hfree : owner' = none → V.Same v) (hheld : owner' ≠ none → v.held = true)
    (hother : ∀ j, j ≠ i → (owner' = some j ↔ owner = some j))
    (hworld : ∀ j, j ≠ i → owner = some j → V.Same c.world ∧ v.Same s.world)
    (hp : Paired I V v (owner' = some i) u t) :
    Follows I owner' ⟨V, c.threads.set i u⟩ ⟨v, s.threads.set i t⟩ where
  length := by simp only [List.length_set, hs.length]
  inv := hI
  inv' := hI'
  free := hfree
  held := hheld
  started j ho := by
    rw [List.length_set]
    by_cases hj : j = i
    · exact hj ▸ hi
    · exact hs.started j ((hother j hj).mp ho)
  threads j u' t' hu ht := by
    by_cases hj : i = j
    · subst hj
      rw [List.getElem?_set_self (hs.length ▸ hi)] at hu
      rw [List.getElem?_set_self hi] at ht
      obtain rfl := Option.some.inj hu
      obtain rfl := Option.some.inj ht
      exact hp
    · rw [List.getElem?_set_ne hj] at hu ht
      have hpair := hs.threads j u' t' hu ht
      rw [← hother j (Ne.symm hj)] at hpair
      exact hpair.move fun ho => hworld j (Ne.symm hj) ((hother j (Ne.symm hj)).mp ho)

theorem set_self (hu : c.threads[i]? = some u) : ⟨c.world, c.threads.set i u⟩ = c := by
  obtain ⟨hi, rfl⟩ := List.getElem?_eq_some_iff.mp hu
  rw [List.set_getElem_self]

/-- The scheduler can run the thread to where it is. -/
theorem step_of_stretch {st : σ} {held : Bool} (hu : c.threads[i]? = some u) (hr : u.rest.result = none)
    (h : u.rest.stretch env c.world = some (q, st, held, env')) :
    ∃ W, step prog c (.run i env) = some ⟨W, c.threads.set i ⟨u.label, u.done + 1, q⟩⟩ ∧
      W.state = st ∧ W.held = held := by
  obtain ⟨W, hrel, hst, hheld⟩ := toRelease_of_stretch h
  refine ⟨W, ?_, hst, hheld⟩
  simp only [step, hu]
  rw [if_neg (by simp [hr]), hrel, Option.map_some]

/-- What `s` does, `c` follows. -/
def Simulated (prog : κ → Prog σ ε μ α) (I : σ → Prop) (c : Pool κ σ ε μ α) (i : Nat)
    (ended : Option (Nat × κ × Nat)) (s' : Pool κ σ ε μ α) : Prop :=
  ∃ owner c', Follows I owner c' s' ∧
    (c' = c ∧ ended = none ∨ ∃ env, step prog c (.run i env) = some c' ∧ ended = c.ran (.run i env))

section Thread

variable (hs : Follows I owner c s) (hu : c.threads[i]? = some u) (ht : s.threads[i]? = some t)
include hs hu ht

/-- The thread has left its section, or has come to its end in it. -/
theorem Follows.leave {st : σ} {held : Bool} (halone : ∀ j, owner = some j → j = i)
    (hr : u.rest.result = none) (hst : u.rest.stretch env c.world = some (q, st, held, env'))
    (hv : v.state = st ∧ v.held = held) (hI : I v.state) (hk : q.preserves I) (hl : Leads I q q) :
    Simulated prog I c i (some (i, t.label, t.done)) ⟨v, s.threads.set i ⟨t.label, t.done + 1, q⟩⟩ := by
  obtain ⟨W, hstep, hstate, hheld⟩ := @step_of_stretch _ _ _ _ _ prog _ _ _ _ _ _ _ _ hu hr hst
  have hp := hs.threads i u t hu ht
  have hi : i < s.threads.length := (List.getElem?_eq_some_iff.mp ht).1
  have hsame : W.Same v := ⟨hstate.trans hv.1.symm, hheld.trans hv.2.symm⟩
  have hfree : ∀ j, j ≠ i → owner ≠ some j := fun j hj ho => hj (halone j ho)
  refine ⟨none, _, ?_, .inr ⟨env, hstep, ?_⟩⟩
  · refine hs.update hi hI (hsame.1 ▸ hI) (fun _ => hsame) (by simp) ?_ ?_ ?_
    · exact fun j hj => ⟨by simp, fun ho => absurd ho (hfree j hj)⟩
    · exact fun j hj ho => absurd ho (hfree j hj)
    · exact ⟨hp.label, congrArg (· + 1) hp.done, hk, rfl, fun _ => hl, by simp⟩
  · rw [ran, hu, Option.map_some, hp.label, hp.done]

/-- The thread goes on in its section. -/
theorem Follows.stay (halone : ∀ j, owner = some j → j = i) (hr : u.rest.result = none)
    (hv : v.held = true) (hI : I v.state) (hk : q.preserves I) (hq : q.result = none)
    (hf : q.fenced I true) (ha : Arrives u.rest c.world q v) :
    Simulated prog I c i none ⟨v, s.threads.set i ⟨t.label, t.done, q⟩⟩ := by
  have hp := hs.threads i u t hu ht
  have hi : i < s.threads.length := (List.getElem?_eq_some_iff.mp ht).1
  have hfree : ∀ j, j ≠ i → owner ≠ some j := fun j hj ho => hj (halone j ho)
  refine ⟨some i, c, ?_, .inl ⟨rfl, rfl⟩⟩
  rw [← set_self hu]
  refine hs.update hi hI hs.inv' (by simp) (fun _ => hv) ?_ ?_ ?_
  · exact fun j hj => ⟨fun ho => absurd (Option.some.inj ho).symm hj, fun ho => absurd ho (hfree j hj)⟩
  · exact fun j hj ho => absurd ho (hfree j hj)
  · exact ⟨hp.label, hp.done, hk, hr.trans hq.symm, fun hn => absurd rfl hn, fun _ => ⟨hq, hf, ha⟩⟩

/-- The thread has come to its end outside of its sections. -/
theorem Follows.finish {a : α} (ho : owner ≠ some i) (hr : u.rest.result = none)
    (hv : v.Same s.world) (hl : Leads I u.rest (ret a)) :
    Simulated prog I c i (some (i, t.label, t.done)) ⟨v, s.threads.set i ⟨t.label, t.done + 1, ret a⟩⟩ := by
  obtain ⟨env, hu'⟩ := hl.ret
  obtain ⟨env', hst⟩ := hu' c.world hs.inv'
  obtain ⟨W, hstep, hstate, hheld⟩ := @step_of_stretch _ _ _ _ _ prog _ _ _ _ _ _ _ _ hu hr hst
  have hp := hs.threads i u t hu ht
  have hi : i < s.threads.length := (List.getElem?_eq_some_iff.mp ht).1
  have hsame : W.Same c.world := ⟨hstate, hheld⟩
  refine ⟨owner, _, ?_, .inr ⟨env, hstep, ?_⟩⟩
  · refine hs.update hi (hv.1 ▸ hs.inv) (hsame.1 ▸ hs.inv') ?_ (fun h => hv.2 ▸ hs.held h)
      (fun j _ => .rfl) (fun j _ _ => ⟨hsame, hv⟩) ?_
    · exact fun h => hsame.trans ((hs.free h).trans hv.symm)
    · exact ⟨hp.label, congrArg (· + 1) hp.done, trivial, rfl, fun _ => .refl (.inl trivial),
        fun h => absurd h ho⟩
  · rw [ran, hu, Option.map_some, hp.label, hp.done]

/-- The thread goes on outside of its sections. -/
theorem Follows.pass (ho : owner ≠ some i) (hr : u.rest.result = none) (hv : v.Same s.world)
    (hk : q.preserves I) (hq : q.result = none) (hl : Leads I u.rest q) :
    Simulated prog I c i none ⟨v, s.threads.set i ⟨t.label, t.done, q⟩⟩ := by
  have hp := hs.threads i u t hu ht
  have hi : i < s.threads.length := (List.getElem?_eq_some_iff.mp ht).1
  refine ⟨owner, c, ?_, .inl ⟨rfl, rfl⟩⟩
  rw [← set_self hu]
  refine hs.update hi (hv.1 ▸ hs.inv) hs.inv' (fun h => (hs.free h).trans hv.symm)
    (fun h => hv.2 ▸ hs.held h) (fun j _ => .rfl) (fun j _ _ => ⟨.refl _, hv⟩) ?_
  exact ⟨hp.label, hp.done, hk, hr.trans hq.symm, fun _ => hl, fun h => absurd h ho⟩

end Thread

theorem Follows.start (hs : Follows I owner c s) {x : κ} (hf : (prog x).fenced I false)
    (hk : (prog x).preserves I) : Follows I owner ⟨c.world, c.threads ++ [⟨x, 0, prog x⟩]⟩
      ⟨s.world, s.threads ++ [⟨x, 0, prog x⟩]⟩ where
  length := by simp only [List.length_append, hs.length, List.length_singleton]
  inv := hs.inv
  inv' := hs.inv'
  free := hs.free
  held := hs.held
  started j ho := by
    rw [List.length_append]
    exact Nat.lt_add_right _ (hs.started j ho)
  threads i u t hu ht := by
    rcases Nat.lt_or_ge i s.threads.length with hi | hi
    · rw [List.getElem?_append_left (hs.length ▸ hi)] at hu
      rw [List.getElem?_append_left hi] at ht
      exact hs.threads i u t hu ht
    · rw [List.getElem?_append_right (hs.length ▸ hi), hs.length] at hu
      rw [List.getElem?_append_right hi] at ht
      have hone : i - s.threads.length = 0 := by
        have := (List.getElem?_eq_some_iff.mp ht).1
        simp only [List.length_singleton] at this
        omega
      rw [hone] at hu ht
      obtain rfl := Option.some.inj hu
      obtain rfl := Option.some.inj ht
      have hout : owner ≠ some i := fun ho => absurd (hs.started i ho) (by omega)
      exact ⟨rfl, rfl, hk, rfl, fun _ => .refl (.inl hf), fun ho => absurd ho hout⟩

theorem Follows.instr (hs : Follows I owner c s) (h : tick prog s (.instr i b) = some s') :
    Simulated prog I c i (s.ended (.instr i b)) s' := by
  obtain ⟨t, ht, h⟩ := Option.bind_eq_some_iff.mp h
  obtain ⟨⟨q, v⟩, hq, rfl⟩ := Option.map_eq_some_iff.mp h
  have hi : i < c.threads.length := hs.length ▸ (List.getElem?_eq_some_iff.mp ht).1
  have hu : c.threads[i]? = some c.threads[i] := List.getElem?_eq_getElem hi
  have hp := hs.threads i _ t hu ht
  have hr : c.threads[i].rest.result = none := hp.result.trans (result_of_instr hq)
  obtain ⟨hI, hk⟩ := hp.keeps.instr hs.inv hq
  have hended : s.ended (.instr i b) = if t.rest.ends q then some (i, t.label, t.done) else none := by
    rw [ended, ht, Option.bind_some, hq, Option.bind_some]
  rw [hended]
  -- an instruction in a section, or one that enters it
  have hinside : (∀ j, owner = some j → j = i) → v.held = true → q.fenced I true →
      Arrives c.threads[i].rest c.world q v → t.rest.ends q = q.result.isSome →
      Simulated prog I c i (if t.rest.ends q then some (i, t.label, t.done) else none)
        ⟨v, s.threads.set i ⟨t.label, t.done + (t.rest.ends q).toNat, q⟩⟩ := by
    intro halone hv hf ha hends
    rw [hends]
    cases hres : q.result with
    | none => exact hs.stay hu ht halone hr hv hI hk hres hf ha
    | some a =>
      obtain ⟨a, rfl⟩ := eq_ret_of_result (p := q) (by rw [hres]; rfl)
      obtain ⟨env, henv⟩ := ha
      have hst := henv []
      exact hs.leave hu ht halone hr hst ⟨rfl, rfl⟩ hI hk (.refl (.inl trivial))
  by_cases ho : owner = some i
  · have halone : ∀ j, owner = some j → j = i := fun j hj => Option.some.inj (hj.symm.trans ho)
    obtain ⟨-, hf, ha⟩ := hp.inside ho
    rcases ha.instr hf hs.inv (hs.held (by simp [ho])) hq with
      ⟨hends, hsame, hl, env, hst⟩ | ⟨hends, hv, hf', ha'⟩
    · rw [hends]
      exact hs.leave hu ht halone hr hst hsame hI hk hl
    · exact hinside halone hv hf' ha' hends
  · obtain ⟨hends, ⟨hfree, hsame, hf, ha⟩ | ⟨hsame, hl⟩⟩ := (hp.outside ho).instr hs.inv hq
    · have hnone : owner = none := Decidable.byContradiction fun hne =>
        absurd (hs.held hne) (by simp [hfree])
      exact hinside (by simp [hnone]) hsame.2 hf (ha c.world hs.inv' (hs.free hnone)) hends
    · rw [hends]
      cases hres : q.result with
      | none => exact hs.pass hu ht ho hr hsame hk hres hl
      | some a =>
        obtain ⟨a, rfl⟩ := eq_ret_of_result (p := q) (by rw [hres]; rfl)
        exact hs.finish hu ht ho hr hsame hl

/-- A thread of `s` that has ended has ended in `c`. -/
theorem Follows.result {a : α} (hs : Follows I owner c s) (ht : s.threads[i]? = some t)
    (ha : t.rest.result = some a) :
    ∃ u, c.threads[i]? = some u ∧ u.label = t.label ∧ u.rest.result = some a := by
  have hi : i < c.threads.length := hs.length ▸ (List.getElem?_eq_some_iff.mp ht).1
  have hu : c.threads[i]? = some c.threads[i] := List.getElem?_eq_getElem hi
  have hp := hs.threads i _ t hu ht
  exact ⟨_, hu, hp.label, hp.result.trans ha⟩

theorem Follows.same (hs : Follows I owner c s) (h : s.world.held = false) : c.world.Same s.world :=
  hs.free (Decidable.byContradiction fun hne => absurd (hs.held hne) (by simp [h]))

/-- Whatever instructions the threads are interrupted at, they are followed by a run in which each
thread goes on to the end of its section, in the order in which the sections end. -/
theorem exists_follows {K : κ → Prop} {h : List (Pool κ σ ε μ α × Tick κ)} (hI : I w.state)
    (hprog : ∀ x, K x → (prog x).fenced I false ∧ (prog x).preserves I)
    (hr : Machine.Reaches (tick prog) (fun _ a => ∀ x, a = .start x → K x) ⟨w, []⟩ h s) :
    ∃ k c owner, Machine.Reaches (step prog) (fun _ a => ∀ x, a = .start x → K x) ⟨w, []⟩ k c ∧
      Follows I owner c s ∧ (k.filterMap fun x => x.1.ran x.2) = h.filterMap fun x => x.1.ended x.2 := by
  induction hr with
  | nil => exact ⟨[], _, none, .nil, .init hI, rfl⟩
  | @snoc h s s' a _ ha hstep ih =>
    obtain ⟨k, c, owner, hk, hs, hends⟩ := ih
    simp only [List.filterMap_append, List.filterMap_cons, List.filterMap_nil, ← hends]
    cases a with
    | start x =>
      obtain rfl := Option.some.inj hstep
      obtain ⟨hf, hp⟩ := hprog x (ha x rfl)
      refine ⟨k ++ [(c, .start x)], _, owner, .snoc hk ?_ rfl, hs.start hf hp, ?_⟩
      · exact fun y hy => Schedule.start.inj hy ▸ ha x rfl
      · rw [List.filterMap_append]
        rfl
    | instr i b =>
      obtain ⟨owner', c', hs', ⟨rfl, hnone⟩ | ⟨env, hc, hran⟩⟩ := hs.instr hstep
      · exact ⟨k, c', owner', hk, hs', by rw [hnone]; exact (List.append_nil _).symm⟩
      · refine ⟨k ++ [(c, .run i env)], c', owner', .snoc hk (by simp) hc, hs', ?_⟩
        rw [List.filterMap_append, hran]
        rfl

end Pool

end FileStorage
