import FileStorage.Program

/-! Programs all of whose accesses are permitted in the state they are made in. -/

namespace FileStorage

namespace Prog

variable {σ ε μ α β : Type}

/-- The accesses of a run, each with the state it is made in. -/
def accesses : Prog σ ε μ α → List Bool → World σ ε μ → List (σ × ε)
  | ret _, _, _ => []
  | crash, _, _ => []
  | lock k, env, w => if w.held then [] else k.accesses env w.locked
  | unlock k, env, w => k.accesses env w.unlocked
  | access es f k, env, w =>
    (es w.state).map (fun e => (w.state, e)) ++ (k w.state).accesses env (w.accessed es f)
  | choose k, env, w => (k (env.headD true)).accesses env.tail w
  | send m k, env, w => (k (env.headD true)).accesses env.tail (w.posted m (env.headD true))

/-- `p.guarded G R s`: every access that `p` makes from `s` is permitted by `G`, whatever the
environment answers, and `R` holds of its result. -/
def guarded (G : σ → ε → Prop) : Prog σ ε μ α → (α → σ → Prop) → σ → Prop
  | ret a, R, s => R a s
  | crash, _, _ => True
  | lock k, R, s => k.guarded G R s
  | unlock k, R, s => k.guarded G R s
  | access es f k, R, s => (∀ e ∈ es s, G s e) ∧ (k s).guarded G R (f s)
  | choose k, R, s => ∀ b, (k b).guarded G R s
  | send _ k, R, s => ∀ b, (k b).guarded G R s

section Guarded

variable {G : σ → ε → Prop} {R : α → σ → Prop} {s : σ}

@[simp] theorem guarded_ret {a : α} : (ret a : Prog σ ε μ α).guarded G R s ↔ R a s := Iff.rfl

@[simp] theorem guarded_crash : (crash : Prog σ ε μ α).guarded G R s := trivial

theorem guarded_bind {p : Prog σ ε μ β} {g : β → Prog σ ε μ α} :
    (p.bind g).guarded G R s ↔ p.guarded G (fun b s' => (g b).guarded G R s') s := by
  induction p generalizing s with
  | ret b => rfl
  | crash => rfl
  | lock k ih => exact ih
  | unlock k ih => exact ih
  | access es f k ih => simp only [bind, guarded, ih]
  | choose k ih => simp only [bind, guarded, ih]
  | send m k ih => simp only [bind, guarded, ih]

theorem guarded_read {es : σ → List ε} {f : σ → α} :
    (read es f : Prog σ ε μ α).guarded G R s ↔ (∀ e ∈ es s, G s e) ∧ R (f s) s := Iff.rfl

theorem guarded_modify {es : σ → List ε} {f : σ → σ} {R : Unit → σ → Prop} :
    (modify es f : Prog σ ε μ Unit).guarded G R s ↔ (∀ e ∈ es s, G s e) ∧ R () (f s) := Iff.rfl

theorem guarded_alloc {R : Bool → σ → Prop} :
    (alloc : Prog σ ε μ Bool).guarded G R s ↔ ∀ b, R b s := Iff.rfl

theorem guarded_ite {c : Prop} [Decidable c] {p q : Prog σ ε μ α} :
    (if c then p else q).guarded G R s ↔ (c → p.guarded G R s) ∧ (¬c → q.guarded G R s) := by
  by_cases h : c <;> simp [h]

theorem guarded.mono {p : Prog σ ε μ α} {S : α → σ → Prop} (h : p.guarded G R s)
    (hR : ∀ a s', R a s' → S a s') : p.guarded G S s := by
  induction p generalizing s with
  | ret a => exact hR a s h
  | crash => trivial
  | lock k ih => exact ih h
  | unlock k ih => exact ih h
  | access es f k ih => exact ⟨h.1, ih s h.2⟩
  | choose k ih => exact fun b => ih b (h b)
  | send m k ih => exact fun b => ih b (h b)

theorem guarded.bind {p : Prog σ ε μ β} {g : β → Prog σ ε μ α} {S : β → σ → Prop}
    (h : p.guarded G S s) (hg : ∀ b s', S b s' → (g b).guarded G R s') : (p.bind g).guarded G R s :=
  guarded_bind.mpr (h.mono hg)

/-- Whether a run returns or not, its accesses have been permitted. -/
theorem guarded.accesses {p : Prog σ ε μ α} {env : List Bool} {w : World σ ε μ}
    (h : p.guarded G R w.state) : ∀ a ∈ p.accesses env w, G a.1 a.2 := by
  induction p generalizing env w with
  | ret a => exact fun _ ha => absurd ha List.not_mem_nil
  | crash => exact fun _ ha => absurd ha List.not_mem_nil
  | lock k ih =>
    intro a ha
    by_cases hw : w.held = true
    · rw [Prog.accesses, if_pos hw] at ha
      exact absurd ha List.not_mem_nil
    · rw [Prog.accesses, if_neg hw] at ha
      exact ih (w := w.locked) h a ha
  | unlock k ih => exact ih (w := w.unlocked) h
  | access es f k ih =>
    intro a ha
    rcases List.mem_append.mp ha with ha | ha
    · obtain ⟨e, he, rfl⟩ := List.mem_map.mp ha
      exact h.1 e he
    · exact ih _ (w := w.accessed es f) h.2 a ha
  | choose k ih => exact ih _ (h _)
  | send m k ih =>
    exact ih _ (w := w.posted m (env.headD true)) (by rw [World.posted_state]; exact h _)

theorem guarded.of_run {p : Prog σ ε μ α} {env env' : List Bool} {w w' : World σ ε μ} {a : α}
    (h : p.guarded G R w.state) (hr : p.run env w = (.done a, w', env')) : R a w'.state := by
  have hreturns : p.returns (fun _ => True) (fun a w' => R a w'.state) w := by
    clear hr
    induction p generalizing w with
    | ret a => exact returns_ret.mpr h
    | crash => exact returns_crash
    | lock k ih => exact ⟨nofun, fun _ => ih (w := w.locked) h⟩
    | unlock k ih => exact ih (w := w.unlocked) h
    | access es f k ih => exact ih _ (w := w.accessed es f) h.2
    | choose k ih => exact fun b _ => ih b (h b)
    | send m k ih =>
      exact fun b _ => ih b (w := w.posted m b) (by rw [World.posted_state]; exact h b)
  exact hreturns.of_run hr

end Guarded

end Prog

end FileStorage
