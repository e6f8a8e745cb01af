import FileStorage.Interleaving

/-! Programs whose messages all arrive, and the receivers of what a program sends. -/

namespace FileStorage.Prog

variable {σ ε μ α β : Type}

/-- No send fails in the run. -/
def delivers : Prog σ ε μ α → List Bool → World σ ε μ → Bool
  | ret _, _, _ => true
  | crash, _, _ => true
  | lock k, env, w => w.held || k.delivers env w.locked
  | unlock k, env, w => k.delivers env w.unlocked
  | access es f k, env, w => (k w.state).delivers env (w.accessed es f)
  | choose k, env, w => (k (env.headD true)).delivers env.tail w
  | send m k, env, w => env.headD true && (k true).delivers env.tail (w.posted m true)

/-- What holds of the result of every run in which no send fails. -/
def delivered (R : α → World σ ε μ → Prop) : Prog σ ε μ α → World σ ε μ → Prop
  | ret a, w => R a w
  | crash, _ => True
  | lock k, w => w.held = false → k.delivered R w.locked
  | unlock k, w => k.delivered R w.unlocked
  | access es f k, w => (k w.state).delivered R (w.accessed es f)
  | choose k, w => ∀ b, (k b).delivered R w
  | send m k, w => (k true).delivered R (w.posted m true)

/-- `p` sends only such messages. -/
def posts (P : μ → Prop) : Prog σ ε μ α → Prop
  | ret _ => True
  | crash => True
  | lock k => k.posts P
  | unlock k => k.posts P
  | access _ _ k => ∀ s, (k s).posts P
  | choose k => ∀ b, (k b).posts P
  | send m k => P m ∧ ∀ b, (k b).posts P

section Delivered

variable {p : Prog σ ε μ α} {w w' : World σ ε μ} {R S : α → World σ ε μ → Prop}
  {env env' : List Bool}

theorem delivered_bind {p : Prog σ ε μ β} {g : β → Prog σ ε μ α} :
    delivered R (p.bind g) w ↔ delivered (fun b w' => delivered R (g b) w') p w := by
  induction p generalizing w with
  | ret b => rfl
  | crash => rfl
  | lock k ih => simp only [bind, delivered, ih]
  | unlock k ih => exact ih
  | access es f k ih => exact ih w.state
  | choose k ih => simp only [bind, delivered, ih]
  | send m k ih => exact ih true

theorem delivered.mono (h : delivered R p w) (hR : ∀ a w', R a w' → S a w') : delivered S p w := by
  induction p generalizing w with
  | ret a => exact hR _ _ h
  | crash => trivial
  | lock k ih => exact fun hw => ih (h hw)
  | unlock k ih => exact ih h
  | access es f k ih => exact ih w.state h
  | choose k ih => exact fun b => ih b (h b)
  | send m k ih => exact ih true h

theorem delivered.and (hR : delivered R p w) (hS : delivered S p w) :
    delivered (fun a w' => R a w' ∧ S a w') p w := by
  induction p generalizing w with
  | ret a => exact ⟨hR, hS⟩
  | crash => trivial
  | lock k ih => exact fun hw => ih (hR hw) (hS hw)
  | unlock k ih => exact ih hR hS
  | access es f k ih => exact ih w.state hR hS
  | choose k ih => exact fun b => ih b (hR b) (hS b)
  | send m k ih => exact ih true hR hS

theorem delivered_ite {c : Prop} [Decidable c] {p q : Prog σ ε μ α} :
    delivered R (if c then p else q) w ↔ (c → delivered R p w) ∧ (¬c → delivered R q w) := by
  by_cases h : c <;> simp [h]

theorem delivered_read {es : σ → List ε} {f : σ → α} :
    delivered R (Prog.read es f) w ↔ R (f w.state) (w.accessed es id) := Iff.rfl

theorem returns.delivered (h : p.returns (fun _ => True) R w) : delivered R p w := by
  induction p generalizing w with
  | ret a =>
    rw [returns_ret] at h
    exact h
  | crash => trivial
  | lock k ih => exact fun hw => ih (h.2 hw)
  | unlock k ih => exact ih h
  | access es f k ih => exact ih w.state h
  | choose k ih => exact fun b => ih b (h b trivial)
  | send m k ih => exact ih true (h true trivial)

/-- A first piece that neither sends nor writes. -/
theorem delivered_after {p : Prog σ ε μ β} {g : β → Prog σ ε μ α} (hs : p.silent) (hr : p.readOnly)
    (h : ∀ b w', w'.state = w.state → w'.sent = w.sent → delivered R (g b) w') :
    delivered R (p.bind g) w := by
  refine delivered_bind.mpr ?_
  exact (hr.returns.and hs.returns).delivered.mono fun b w' hw => h b w' hw.1 hw.2

theorem delivers_bind {p : Prog σ ε μ β} {g : β → Prog σ ε μ α} {b : β} (hr : p.run env w = (.done b, w', env'))
    (hd : (p.bind g).delivers env w = true) : (g b).delivers env' w' = true := by
  induction p generalizing w env with
  | ret c =>
    cases hr
    exact hd
  | crash => cases hr
  | lock k ih =>
    by_cases hw : w.held = true
    · simp [run, hw] at hr
    · rw [run, if_neg hw] at hr
      simp only [bind, delivers, hw, Bool.false_or] at hd
      exact ih hr hd
  | unlock k ih => exact ih hr hd
  | access es f k ih => exact ih _ hr hd
  | choose k ih => exact ih _ hr hd
  | send m k ih =>
    obtain ⟨hb, hd⟩ := Bool.and_eq_true_iff.mp hd
    rw [run, hb] at hr
    exact ih _ hr hd

theorem delivered.of_run (h : delivered R p w) (hd : p.delivers env w = true) {a : α}
    (hr : p.run env w = (.done a, w', env')) : R a w' := by
  induction p generalizing w env with
  | ret b =>
    cases hr
    exact h
  | crash => cases hr
  | lock k ih =>
    by_cases hw : w.held = true
    · simp [run, hw] at hr
    · rw [run, if_neg hw] at hr
      simp only [Prog.delivers, hw, Bool.false_or] at hd
      exact ih (h (by simpa using hw)) hd hr
  | unlock k ih => exact ih h hd hr
  | access es f k ih => exact ih _ h hd hr
  | choose k ih => exact ih _ (h _) hd hr
  | send m k ih =>
    obtain ⟨hb, hd⟩ := Bool.and_eq_true_iff.mp hd
    rw [run, hb] at hr
    exact ih _ h hd hr

end Delivered

section Posts

variable {P : μ → Prop} {p : Prog σ ε μ α}

theorem posts.bind {p : Prog σ ε μ β} {g : β → Prog σ ε μ α} (h : p.posts P)
    (hg : ∀ b, (g b).posts P) : (p.bind g).posts P := by
  induction p with
  | ret b => exact hg b
  | crash => trivial
  | lock k ih => exact ih h
  | unlock k ih => exact ih h
  | access es f k ih => exact fun s => ih s (h s)
  | choose k ih => exact fun b => ih b (h b)
  | send m k ih => exact ⟨h.1, fun b => ih b (h.2 b)⟩

theorem posts.ite {c : Prop} [Decidable c] {p q : Prog σ ε μ α} (hp : p.posts P) (hq : q.posts P) :
    (if c then p else q).posts P := by
  by_cases h : c <;> simp [h, hp, hq]

theorem silent.posts (h : p.silent) : p.posts P := by
  induction p with
  | ret a => trivial
  | crash => trivial
  | lock k ih => exact ih h
  | unlock k ih => exact ih h
  | access es f k ih => exact fun s => ih s (h s)
  | choose k ih => exact fun b => ih b (h b)
  | send m k => exact h.elim

theorem posts.returns {ok : Bool → Prop} {w : World σ ε μ} (h : p.posts P) :
    p.returns ok (fun _ w' => ∀ m ∈ w'.sent, m ∈ w.sent ∨ P m) w := by
  suffices hs : ∀ u : World σ ε μ, (∀ m ∈ u.sent, m ∈ w.sent ∨ P m) →
      p.returns ok (fun _ w' => ∀ m ∈ w'.sent, m ∈ w.sent ∨ P m) u from hs w fun m hm => .inl hm
  induction p with
  | ret a => exact fun u hu => returns_ret.mpr hu
  | crash => exact fun u _ => returns_crash
  | lock k ih => exact fun u hu => ⟨nofun, fun _ => ih h u.locked hu⟩
  | unlock k ih => exact fun u hu => ih h u.unlocked hu
  | access es f k ih => exact fun u hu => ih u.state (h u.state) (u.accessed es f) hu
  | choose k ih => exact fun u hu b _ => ih b (h b) u hu
  | send m k ih =>
    intro u hu b _
    refine ih b (h.2 b) (u.posted m b) fun n hn => ?_
    cases b with
    | false => exact hu n hn
    | true =>
      rcases List.mem_append.mp hn with hn | hn
      · exact hu n hn
      · exact .inr (List.mem_singleton.mp hn ▸ h.1)

end Posts

end FileStorage.Prog
