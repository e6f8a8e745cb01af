import FileStorage.Interleaving

/-! Programs that change the state only once their answer is settled: whoever gets another answer
finds the state as it was. -/

namespace FileStorage

namespace Prog

variable {σ ε μ α β : Type} {A : α → Prop}

/-- All results of the program are in `A`, whatever it finds in the state. -/
def answers (A : α → Prop) : Prog σ ε μ α → Prop
  | ret a => A a
  | crash => True
  | lock k => k.answers A
  | unlock k => k.answers A
  | access _ _ k => ∀ s, (k s).answers A
  | choose k => ∀ b, (k b).answers A
  | send _ k => ∀ b, (k b).answers A

/-- The program changes the state only where its result is sure to be in `A`. -/
def commits (A : α → Prop) : Prog σ ε μ α → Prop
  | ret _ => True
  | crash => True
  | lock k => k.commits A
  | unlock k => k.commits A
  | access _ f k => f = id ∧ (∀ s, (k s).commits A) ∨ ∀ s, (k s).answers A
  | choose k => ∀ b, (k b).commits A
  | send _ k => ∀ b, (k b).commits A

theorem answers_bind {p : Prog σ ε μ β} {g : β → Prog σ ε μ α} :
    (p.bind g).answers A ↔ p.answers fun b => (g b).answers A := by
  induction p with
  | ret b => rfl
  | crash => rfl
  | lock k ih => simpa only [bind, answers] using ih
  | unlock k ih => simpa only [bind, answers] using ih
  | access es f k ih => simp only [bind, answers, ih]
  | choose k ih => simp only [bind, answers, ih]
  | send m k ih => simp only [bind, answers, ih]

theorem answers_of_forall {p : Prog σ ε μ α} (h : ∀ a, A a) : p.answers A := by
  induction p with
  | ret a => exact h a
  | crash => trivial
  | lock k ih => exact ih
  | unlock k ih => exact ih
  | access es f k ih => exact ih
  | choose k ih => exact ih
  | send m k ih => exact ih

theorem answers.mono {B : α → Prop} {p : Prog σ ε μ α} (hp : p.answers A) (h : ∀ a, A a → B a) :
    p.answers B := by
  induction p with
  | ret a => exact h a hp
  | crash => trivial
  | lock k ih => exact ih hp
  | unlock k ih => exact ih hp
  | access es f k ih => exact fun s => ih s (hp s)
  | choose k ih => exact fun b => ih b (hp b)
  | send m k ih => exact fun b => ih b (hp b)

/-- Only the last piece of a sequence matters. -/
theorem answers_after {p : Prog σ ε μ β} {g : β → Prog σ ε μ α} (h : ∀ b, (g b).answers A) :
    (p.bind g).answers A :=
  answers_bind.mpr (answers_of_forall h)

theorem answers_ite {c : Prop} [Decidable c] {p q : Prog σ ε μ α} (hp : p.answers A)
    (hq : q.answers A) : (if c then p else q).answers A := by
  by_cases h : c <;> simp [h, hp, hq]

theorem answers.returns {ok : Bool → Prop} {p : Prog σ ε μ α} (h : p.answers A)
    {w : World σ ε μ} : p.returns ok (fun a _ => A a) w := by
  induction p generalizing w with
  | ret a => exact returns_ret.mpr h
  | crash => exact returns_crash
  | lock k ih => exact ⟨fun _ _ hb => (by cases hb), fun _ => ih h⟩
  | unlock k ih => exact ih h
  | access es f k ih => exact ih _ (h _)
  | choose k ih => exact fun b _ => ih b (h b)
  | send m k ih => exact fun b _ => ih b (h b)

theorem answers.commits {p : Prog σ ε μ α} (h : p.answers A) : p.commits A := by
  induction p with
  | ret a => trivial
  | crash => trivial
  | lock k ih => exact ih h
  | unlock k ih => exact ih h
  | access es f k ih => exact .inr h
  | choose k ih => exact fun b => ih b (h b)
  | send m k ih => exact fun b => ih b (h b)

theorem readOnly.commits_bind {p : Prog σ ε μ β} {g : β → Prog σ ε μ α} (hp : p.readOnly)
    (hg : ∀ b, (g b).commits A) : (p.bind g).commits A := by
  induction p with
  | ret b => exact hg b
  | crash => trivial
  | lock k ih => exact ih hp
  | unlock k ih => exact ih hp
  | access es f k ih => exact .inl ⟨hp.1, fun s => ih s (hp.2 s)⟩
  | choose k ih => exact fun b => ih b (hp b)
  | send m k ih => exact fun b => ih b (hp b)

theorem readOnly.commits {p : Prog σ ε μ α} (hp : p.readOnly) : p.commits A := by
  induction p with
  | ret a => trivial
  | crash => trivial
  | lock k ih => exact ih hp
  | unlock k ih => exact ih hp
  | access es f k ih => exact .inl ⟨hp.1, fun s => ih s (hp.2 s)⟩
  | choose k ih => exact fun b => ih b (hp b)
  | send m k ih => exact fun b => ih b (hp b)

theorem commits_ite {c : Prop} [Decidable c] {p q : Prog σ ε μ α} (hp : p.commits A)
    (hq : q.commits A) : (if c then p else q).commits A := by
  by_cases h : c <;> simp [h, hp, hq]

/-- An answer outside `A` comes with the state as it was. -/
theorem commits.returns {ok : Bool → Prop} {p : Prog σ ε μ α} (h : p.commits A)
    {w : World σ ε μ} : p.returns ok (fun a w' => A a ∨ w'.state = w.state) w := by
  suffices hs : ∀ u : World σ ε μ, u.state = w.state →
      p.returns ok (fun a w' => A a ∨ w'.state = w.state) u from hs w rfl
  induction p with
  | ret a => exact fun u hu => returns_ret.mpr (.inr hu)
  | crash => exact fun u _ => returns_crash
  | lock k ih => exact fun u hu => ⟨fun _ _ hb => (by cases hb), fun _ => ih h u.locked hu⟩
  | unlock k ih => exact fun u hu => ih h u.unlocked hu
  | access es f k ih =>
    intro u hu
    rcases h with ⟨rfl, hk⟩ | hk
    · exact ih u.state (hk u.state) (u.accessed es id) hu
    · exact (hk u.state).returns.mono fun _ _ ha => .inl ha
  | choose k ih => exact fun u hu b _ => ih b (h b) u hu
  | send m k ih => exact fun u hu b _ => ih b (h b) (u.posted m b) (by rw [World.posted_state, hu])

end Prog

end FileStorage
