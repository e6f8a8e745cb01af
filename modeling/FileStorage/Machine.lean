import Mathlib.Logic.Basic

/-! Machines given by a partial step function: the states they reach by steps that meet a
condition, and what holds in all of them. -/

namespace FileStorage.Machine

variable {σ α : Type} {step : σ → α → Option σ} {C D : σ → α → Prop} {s t u : σ} {a : α}
  {h : List (σ × α)}

/-- `Reaches step C s h t`: the steps of `h`, each of which meets `C` in the state it is listed
with and starts from, lead from `s` to `t`. -/
inductive Reaches (step : σ → α → Option σ) (C : σ → α → Prop) (s : σ) :
    List (σ × α) → σ → Prop where
  | nil : Reaches step C s [] s
  | snoc {h : List (σ × α)} {t u : σ} {a : α} (hr : Reaches step C s h t) (hc : C t a)
      (hs : step t a = some u) : Reaches step C s (h ++ [(t, a)]) u

/-- What holds at the start and survives every step holds of every run. -/
theorem Reaches.invariant {I : List (σ × α) → σ → Prop} (h0 : I [] s)
    (hstep : ∀ h t a u, I h t → C t a → step t a = some u → I (h ++ [(t, a)]) u)
    (hr : Reaches step C s h t) : I h t := by
  induction hr with
  | nil => exact h0
  | snoc _ hc hs ih => exact hstep _ _ _ _ ih hc hs

/-- The same for a property of the state alone. -/
theorem Reaches.always {I : σ → Prop} (h0 : I s)
    (hstep : ∀ t a u, I t → C t a → step t a = some u → I u) (hr : Reaches step C s h t) : I t :=
  hr.invariant (I := fun _ => I) h0 fun _ => hstep

theorem Reaches.mono (hr : Reaches step C s h t) (hCD : ∀ t a, C t a → D t a) :
    Reaches step D s h t := by
  induction hr with
  | nil => exact .nil
  | snoc _ hc hs ih => exact .snoc ih (hCD _ _ hc) hs

theorem Reaches.cons (hc : C s a) (hs : step s a = some t) (hr : Reaches step C t h u) :
    Reaches step C s ((s, a) :: h) u := by
  induction hr with
  | nil => exact .snoc .nil hc hs
  | snoc _ hc' hs' ih => exact .snoc ih hc' hs'

/-- The state after some actions, if each is possible and meets `C`. -/
def play (step : σ → α → Option σ) (C : σ → α → Prop) [∀ s a, Decidable (C s a)] (s : σ) :
    List α → Option σ
  | [] => some s
  | a :: as => if C s a then (step s a).bind fun t => play step C t as else none

theorem play_cons [∀ s a, Decidable (C s a)] {as : List α} :
    play step C s (a :: as) = some t ↔
      C s a ∧ ∃ u, step s a = some u ∧ play step C u as = some t := by
  rw [play]
  split
  · rename_i hc
    simp [hc, Option.bind_eq_some_iff]
  · rename_i hc
    simp [hc]

theorem reaches_of_play [∀ s a, Decidable (C s a)] {as : List α}
    (hp : play step C s as = some t) :
    ∃ h, Reaches step C s h t ∧ h.map Prod.snd = as := by
  induction as generalizing s with
  | nil =>
    obtain rfl := Option.some.inj hp
    exact ⟨[], .nil, rfl⟩
  | cons a as ih =>
    obtain ⟨hc, u, hs, hp⟩ := play_cons.mp hp
    obtain ⟨h, hr, hm⟩ := ih hp
    exact ⟨(s, a) :: h, .cons hc hs hr, by simp [hm]⟩

/-- A run found by playing it. -/
theorem exists_run (step : σ → α → Option σ) (C : σ → α → Prop) [∀ s a, Decidable (C s a)] (s : σ)
    (as : List α) (p : σ → Bool)
    (hp : (play step C s as).any p = true) :
    ∃ h t, Reaches step C s h t ∧ h.map Prod.snd = as ∧ p t = true := by
  obtain ⟨t, ht, hp⟩ := (Option.any_eq_true _ _).mp hp
  obtain ⟨h, hr, hm⟩ := reaches_of_play ht
  exact ⟨h, t, hr, hm, hp⟩

end FileStorage.Machine
