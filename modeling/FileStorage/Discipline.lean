import FileStorage.Program

/-! Rules about what a thread may do while it holds the mutex and while it does not. A rule
judges every event together with the state of the mutex it happens in. -/

namespace FileStorage

section Traces

variable {σ ε μ : Type} {A : Bool → Event ε → Prop}

def Event.after (held : Bool) : Event ε → Bool
  | lock => true
  | unlock => false
  | access _ => held

/-- The mutex after a log that starts with it in a given state. -/
def heldAfter (held : Bool) (t : List (Event ε)) : Bool := t.foldl Event.after held

/-- Every event of a log is allowed where it happens. -/
def Allowed (A : Bool → Event ε → Prop) : Bool → List (Event ε) → Prop
  | _, [] => True
  | held, e :: t => A held e ∧ Allowed A (e.after held) t

instance [∀ held e, Decidable (A held e)] : ∀ held t, Decidable (Allowed A held t)
  | _, [] => inferInstanceAs (Decidable True)
  | held, e :: t =>
    have : Decidable (Allowed A (e.after held) t) := instDecidableAllowed (e.after held) t
    inferInstanceAs (Decidable (A held e ∧ Allowed A (e.after held) t))

theorem heldAfter_append (held : Bool) (t u : List (Event ε)) :
    heldAfter held (t ++ u) = heldAfter (heldAfter held t) u :=
  List.foldl_append

theorem allowed_append {held : Bool} {t u : List (Event ε)} :
    Allowed A held (t ++ u) ↔ Allowed A held t ∧ Allowed A (heldAfter held t) u := by
  induction t generalizing held with
  | nil => simp [Allowed, heldAfter]
  | cons e t ih =>
    have hh : heldAfter held (e :: t) = heldAfter (e.after held) t := rfl
    simp only [List.cons_append, Allowed, ih, hh, and_assoc]

theorem heldAfter_accesses (held : Bool) (es : List ε) :
    heldAfter held (es.map Event.access) = held := by
  induction es with
  | nil => rfl
  | cons e es ih => exact ih

theorem allowed_accesses {held : Bool} {es : List ε} :
    Allowed A held (es.map Event.access) ↔ ∀ e ∈ es, A held (.access e) := by
  induction es with
  | nil => simp [Allowed]
  | cons e es ih => simp [Allowed, Event.after, ih]

/-- The log of `w` is allowed, and it tells the state of the mutex. -/
structure World.Follows (A : Bool → Event ε → Prop) (w : World σ ε μ) : Prop where
  allowed : Allowed A false w.trace
  held : heldAfter false w.trace = w.held

namespace World.Follows

variable {w : World σ ε μ}

theorem locked (h : w.Follows A) (ha : A w.held .lock) : w.locked.Follows A where
  allowed := allowed_append.mpr ⟨h.allowed, by rw [h.held]; exact ⟨ha, trivial⟩⟩
  held := heldAfter_append _ _ _

theorem unlocked (h : w.Follows A) (ha : A w.held .unlock) : w.unlocked.Follows A where
  allowed := allowed_append.mpr ⟨h.allowed, by rw [h.held]; exact ⟨ha, trivial⟩⟩
  held := heldAfter_append _ _ _

theorem accessed (h : w.Follows A) {es : σ → List ε} {f : σ → σ}
    (ha : ∀ e ∈ es w.state, A w.held (.access e)) : (w.accessed es f).Follows A where
  allowed := allowed_append.mpr ⟨h.allowed, by rw [h.held]; exact allowed_accesses.mpr ha⟩
  held := by rw [accessed_trace, heldAfter_append, heldAfter_accesses, h.held, accessed_held]

theorem of_trace (h : w.Follows A) {w' : World σ ε μ} (ht : w'.trace = w.trace)
    (hh : w'.held = w.held) : w'.Follows A where
  allowed := ht ▸ h.allowed
  held := by rw [ht, hh, h.held]

theorem posted (h : w.Follows A) (m : μ) (b : Bool) : (w.posted m b).Follows A :=
  h.of_trace (posted_trace w m b) (posted_held w m b)

end World.Follows

end Traces

namespace Prog

section Safe

variable {σ ε μ α β : Type} {A : Bool → Event ε → Prop}

/-- Whatever the state holds and however the environment answers, every event of `p` is allowed,
from the mutex in a given state, and what `p` returns satisfies `Q` with the mutex it leaves. -/
def safe (A : Bool → Event ε → Prop) :
    Prog σ ε μ α → (α → Bool → Prop) → Bool → Prop
  | ret a, Q, held => Q a held
  | crash, _, _ => True
  | lock k, Q, held => A held .lock ∧ k.safe A Q true
  | unlock k, Q, held => A held .unlock ∧ k.safe A Q false
  | access es _ k, Q, held => ∀ s, (∀ e ∈ es s, A held (.access e)) ∧ (k s).safe A Q held
  | choose k, Q, held => ∀ b, (k b).safe A Q held
  | send _ k, Q, held => ∀ b, (k b).safe A Q held

/-- `p` neither locks nor unlocks. -/
def plain : Prog σ ε μ α → Prop
  | ret _ => True
  | crash => True
  | lock _ => False
  | unlock _ => False
  | access _ _ k => ∀ s, (k s).plain
  | choose k => ∀ b, (k b).plain
  | send _ k => ∀ b, (k b).plain

variable {Q : α → Bool → Prop} {held : Bool}

@[simp] theorem safe_ret {a : α} : (ret a : Prog σ ε μ α).safe A Q held ↔ Q a held := Iff.rfl

@[simp] theorem safe_crash : (crash : Prog σ ε μ α).safe A Q held := trivial

theorem safe_bind {p : Prog σ ε μ β} {g : β → Prog σ ε μ α} :
    (p.bind g).safe A Q held ↔ p.safe A (fun b held' => (g b).safe A Q held') held := by
  induction p generalizing held with
  | ret b => rfl
  | crash => rfl
  | lock k ih => simp only [bind, safe, ih]
  | unlock k ih => simp only [bind, safe, ih]
  | access es f k ih => simp only [bind, safe, ih]
  | choose k ih => simp only [bind, safe, ih]
  | send m k ih => simp only [bind, safe, ih]

theorem safe.mono {p : Prog σ ε μ α} {R : α → Bool → Prop} (h : p.safe A Q held)
    (hQ : ∀ a held', Q a held' → R a held') : p.safe A R held := by
  induction p generalizing held with
  | ret a => exact hQ _ _ h
  | crash => trivial
  | lock k ih => exact ⟨h.1, ih h.2⟩
  | unlock k ih => exact ⟨h.1, ih h.2⟩
  | access es f k ih => exact fun s => ⟨(h s).1, ih s (h s).2⟩
  | choose k ih => exact fun b => ih b (h b)
  | send m k ih => exact fun b => ih b (h b)

theorem safe.bind {p : Prog σ ε μ β} {g : β → Prog σ ε μ α} {R : β → Bool → Prop}
    (h : p.safe A R held) (hg : ∀ b held', R b held' → (g b).safe A Q held') :
    (p.bind g).safe A Q held :=
  safe_bind.mpr (h.mono hg)

theorem safe_ite {c : Prop} [Decidable c] {p q : Prog σ ε μ α} :
    (if c then p else q).safe A Q held ↔ (c → p.safe A Q held) ∧ (¬c → q.safe A Q held) := by
  by_cases h : c <;> simp [h]

/-- A program without mutex operations stays in the state of the mutex it is in. -/
theorem plain.safe {p : Prog σ ε μ α} (h : p.plain) (ha : ∀ e, A held (.access e))
    (hQ : ∀ a, Q a held) : p.safe A Q held := by
  induction p with
  | ret a => exact hQ a
  | crash => trivial
  | lock k => exact h.elim
  | unlock k => exact h.elim
  | access es f k ih => exact fun s => ⟨fun e _ => ha e, ih s (h s)⟩
  | choose k ih => exact fun b => ih b (h b)
  | send m k ih => exact fun b => ih b (h b)

theorem plain.bind {p : Prog σ ε μ β} {g : β → Prog σ ε μ α} (h : p.plain)
    (hg : ∀ b, (g b).plain) : (p.bind g).plain := by
  induction p with
  | ret b => exact hg b
  | crash => trivial
  | lock k => exact h.elim
  | unlock k => exact h.elim
  | access es f k ih => exact fun s => ih s (h s)
  | choose k ih => exact fun b => ih b (h b)
  | send m k ih => exact fun b => ih b (h b)

theorem plain.ite {c : Prop} [Decidable c] {p q : Prog σ ε μ α} (hp : p.plain) (hq : q.plain) :
    (if c then p else q).plain := by
  by_cases h : c <;> simp [h, hp, hq]

theorem plain_ret (a : α) : (ret a : Prog σ ε μ α).plain := trivial
theorem plain_crash : (crash : Prog σ ε μ α).plain := trivial
theorem plain_alloc : (alloc : Prog σ ε μ Bool).plain := fun _ => trivial
theorem plain_sendMsg (m : μ) : (sendMsg m : Prog σ ε μ Bool).plain := fun _ => trivial
theorem plain_read (es : σ → List ε) (f : σ → α) : (read es f : Prog σ ε μ α).plain :=
  fun _ => trivial
theorem plain_modify (es : σ → List ε) (f : σ → σ) : (modify es f : Prog σ ε μ Unit).plain :=
  fun _ => trivial

/-- `p` sends nothing. -/
def silent : Prog σ ε μ α → Prop
  | ret _ => True
  | crash => True
  | lock k => k.silent
  | unlock k => k.silent
  | access _ _ k => ∀ s, (k s).silent
  | choose k => ∀ b, (k b).silent
  | send _ _ => False

theorem silent.bind {p : Prog σ ε μ β} {g : β → Prog σ ε μ α} (h : p.silent)
    (hg : ∀ b, (g b).silent) : (p.bind g).silent := by
  induction p with
  | ret b => exact hg b
  | crash => trivial
  | lock k ih => exact ih h
  | unlock k ih => exact ih h
  | access es f k ih => exact fun s => ih s (h s)
  | choose k ih => exact fun b => ih b (h b)
  | send m k => exact h.elim

theorem silent.ite {c : Prop} [Decidable c] {p q : Prog σ ε μ α} (hp : p.silent) (hq : q.silent) :
    (if c then p else q).silent := by
  by_cases h : c <;> simp [h, hp, hq]

theorem silent.returns {ok : Bool → Prop} {p : Prog σ ε μ α} {w : World σ ε μ} (h : p.silent) :
    p.returns ok (fun _ w' => w'.sent = w.sent) w := by
  suffices hs : ∀ u : World σ ε μ, p.returns ok (fun _ w' => w'.sent = u.sent) u from hs w
  induction p with
  | ret a => exact fun u => returns_ret.mpr rfl
  | crash => exact fun u => returns_crash
  | lock k ih => exact fun u => ⟨nofun, fun _ => ih h u.locked⟩
  | unlock k ih => exact fun u => ih h u.unlocked
  | access es f k ih => exact fun u => ih u.state (h u.state) (u.accessed es f)
  | choose k ih => exact fun u b _ => ih b (h b) u
  | send m k => exact h.elim

/-- A run only adds to the log. -/
theorem run_trace (p : Prog σ ε μ α) (env : List Bool) (w : World σ ε μ) :
    ∃ t, (p.run env w).2.1.trace = w.trace ++ t := by
  induction p generalizing w env with
  | ret a => exact ⟨[], (List.append_nil _).symm⟩
  | crash => exact ⟨[], (List.append_nil _).symm⟩
  | lock k ih =>
    by_cases hb : w.held = true
    · exact ⟨[], by simp [run, hb]⟩
    · obtain ⟨t, ht⟩ := ih env w.locked
      exact ⟨.lock :: t, by simp [run, hb, ht]⟩
  | unlock k ih =>
    obtain ⟨t, ht⟩ := ih env w.unlocked
    exact ⟨.unlock :: t, by simp [run, ht]⟩
  | access es f k ih =>
    obtain ⟨t, ht⟩ := ih w.state env (w.accessed es f)
    exact ⟨(es w.state).map .access ++ t, by simp [run, ht]⟩
  | choose k ih => exact ih _ _ w
  | send m k ih =>
    obtain ⟨t, ht⟩ := ih (env.headD true) env.tail (w.posted m (env.headD true))
    exact ⟨t, by rw [run, ht, World.posted_trace]⟩

/-- A safe program keeps to the rule in every run. -/
theorem safe.follows {p : Prog σ ε μ α} {w : World σ ε μ} (h : p.safe A Q w.held)
    (hw : w.Follows A) (env : List Bool) : (p.run env w).2.1.Follows A := by
  induction p generalizing w env with
  | ret a => exact hw
  | crash => exact hw
  | lock k ih =>
    by_cases hb : w.held = true
    · simpa only [run, if_pos hb] using hw
    · simpa only [run, if_neg hb] using ih (w := w.locked) h.2 (hw.locked h.1) env
  | unlock k ih => exact ih (w := w.unlocked) h.2 (hw.unlocked h.1) env
  | access es f k ih =>
    obtain ⟨he, hk⟩ := h w.state
    exact ih w.state (w := w.accessed es f) hk (hw.accessed he) env
  | choose k ih => exact ih _ (h _) hw _
  | send m k ih =>
    refine ih _ (w := w.posted m (env.headD true)) ?_ (hw.posted _ _) _
    rw [World.posted_held]
    exact h _

/-- What a safe program returns is as it should be. -/
theorem safe.result {p : Prog σ ε μ α} {w : World σ ε μ} (h : p.safe A Q w.held)
    {env : List Bool} {a : α} (hr : (p.run env w).1 = .done a) : Q a (p.run env w).2.1.held := by
  induction p generalizing w env with
  | ret b =>
    cases hr
    exact h
  | crash => cases hr
  | lock k ih =>
    by_cases hb : w.held = true
    · simp only [run, if_pos hb] at hr
      cases hr
    · simp only [run, if_neg hb] at hr ⊢
      exact ih (w := w.locked) h.2 hr
  | unlock k ih => exact ih (w := w.unlocked) h.2 hr
  | access es f k ih => exact ih w.state (w := w.accessed es f) (h w.state).2 hr
  | choose k ih => exact ih _ (h _) hr
  | send m k ih =>
    refine ih _ (w := w.posted m (env.headD true)) ?_ hr
    rw [World.posted_held]
    exact h _

/-- The log of every run tells the state of the mutex. -/
theorem run_heldAfter {p : Prog σ ε μ α} {w : World σ ε μ} (h : heldAfter false w.trace = w.held)
    (env : List Bool) : heldAfter false (p.run env w).2.1.trace = (p.run env w).2.1.held := by
  have hs : p.safe (fun _ _ => True) (fun _ _ => True) w.held := by
    generalize w.held = held
    induction p generalizing held with
    | ret a => trivial
    | crash => trivial
    | lock k ih => exact ⟨trivial, ih _⟩
    | unlock k ih => exact ⟨trivial, ih _⟩
    | access es f k ih => exact fun s => ⟨fun _ _ => trivial, ih s held⟩
    | choose k ih => exact fun b => ih b held
    | send m k ih => exact fun b => ih b held
  refine (hs.follows ⟨?_, h⟩ env).held
  generalize false = held
  induction w.trace generalizing held with
  | nil => trivial
  | cons e t ih => exact ⟨trivial, ih _⟩

/-- A safe program whose rule allows a lock on the free mutex only is never blocked. -/
theorem safe.not_blocked {p : Prog σ ε μ α} {w : World σ ε μ} (h : p.safe A Q w.held)
    (hA : ¬A true .lock) (env : List Bool) : (p.run env w).1 ≠ .blocked := by
  induction p generalizing w env with
  | ret a => simp [run]
  | crash => simp [run]
  | lock k ih =>
    by_cases hb : w.held = true
    · exact absurd (hb ▸ h.1) hA
    · simp only [run, if_neg hb]
      exact ih (w := w.locked) h.2 env
  | unlock k ih => exact ih (w := w.unlocked) h.2 env
  | access es f k ih => exact ih w.state (w := w.accessed es f) (h w.state).2 env
  | choose k ih => exact ih _ (h _) _
  | send m k ih =>
    refine ih _ (w := w.posted m (env.headD true)) ?_ _
    rw [World.posted_held]
    exact h _

end Safe

end Prog

end FileStorage
