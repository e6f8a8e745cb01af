import Mathlib.Logic.Basic

/-! Programs over a state that is shared under one mutex. A program is a tree of
elementary actions; the environment answers every allocation and every send. -/

namespace FileStorage

/-- What one thread does to the shared state `σ`: it takes and releases the mutex, accesses
the state (the accesses `ε` are logged), asks the environment for an allocation, and sends
messages `μ`. `crash` is a fault of the process, such as a NULL dereference. -/
inductive Prog (σ ε μ α : Type) where
  | ret (a : α)
  | crash
  | lock (k : Prog σ ε μ α)
  | unlock (k : Prog σ ε μ α)
  | access (es : σ → List ε) (f : σ → σ) (k : σ → Prog σ ε μ α)
  | choose (k : Bool → Prog σ ε μ α)
  | send (m : μ) (k : Bool → Prog σ ε μ α)

namespace Prog

variable {σ ε μ α β γ : Type}

def bind : Prog σ ε μ α → (α → Prog σ ε μ β) → Prog σ ε μ β
  | ret a, g => g a
  | crash, _ => crash
  | lock k, g => lock (k.bind g)
  | unlock k, g => unlock (k.bind g)
  | access es f k, g => access es f fun s => (k s).bind g
  | choose k, g => choose fun b => (k b).bind g
  | send m k, g => send m fun b => (k b).bind g

instance : Monad (Prog σ ε μ) where
  pure := ret
  bind := bind

@[simp] theorem pure_eq (a : α) : (pure a : Prog σ ε μ α) = ret a := rfl

@[simp] theorem bind_eq (p : Prog σ ε μ α) (g : α → Prog σ ε μ β) : p >>= g = p.bind g := rfl

theorem bind_assoc (p : Prog σ ε μ α) (g : α → Prog σ ε μ β) (h : β → Prog σ ε μ γ) :
    (p.bind g).bind h = p.bind fun a => (g a).bind h := by
  induction p with
  | ret a => rfl
  | crash => rfl
  | lock k ih => simp only [bind, ih]
  | unlock k ih => simp only [bind, ih]
  | access es f k ih => simp only [bind, ih]
  | choose k ih => simp only [bind, ih]
  | send m k ih => simp only [bind, ih]

/-- `lock_return` on the mutex of the shared state. -/
def lockReturn : Prog σ ε μ Unit := lock (ret ())

/-- `unlock_return` on the mutex of the shared state. -/
def unlockReturn : Prog σ ε μ Unit := unlock (ret ())

def read (es : σ → List ε) (f : σ → α) : Prog σ ε μ α := access es id fun s => ret (f s)

def modify (es : σ → List ε) (f : σ → σ) : Prog σ ε μ Unit := access es f fun _ => ret ()

/-- An allocation: `false` is the NULL pointer. -/
def alloc : Prog σ ε μ Bool := choose ret

/-- A message to a client: `false` is a failed write on its socket. -/
def sendMsg (m : μ) : Prog σ ε μ Bool := send m ret

def whenever (c : Prop) [Decidable c] (p : Prog σ ε μ Unit) : Prog σ ε μ Unit :=
  if c then p else ret ()

end Prog

inductive Event (ε : Type) where
  | lock
  | unlock
  | access (e : ε)
  deriving DecidableEq

/-- The shared state with what has happened to it: whether the mutex is held, the log of
mutex operations and accesses, and the messages sent. -/
structure World (σ ε μ : Type) where
  state : σ
  held : Bool
  trace : List (Event ε)
  sent : List μ

/-- How a run ends. A thread that locks a mutex which is not free is `blocked`. -/
inductive Outcome (α : Type) where
  | done (a : α)
  | crashed
  | blocked
  deriving DecidableEq

namespace World

variable {σ ε μ : Type}

def init (s : σ) : World σ ε μ := ⟨s, false, [], []⟩

def locked (w : World σ ε μ) : World σ ε μ := { w with held := true, trace := w.trace ++ [.lock] }

def unlocked (w : World σ ε μ) : World σ ε μ :=
  { w with held := false, trace := w.trace ++ [.unlock] }

def accessed (w : World σ ε μ) (es : σ → List ε) (f : σ → σ) : World σ ε μ :=
  { w with state := f w.state, trace := w.trace ++ (es w.state).map .access }

def posted (w : World σ ε μ) (m : μ) (b : Bool) : World σ ε μ :=
  if b then { w with sent := w.sent ++ [m] } else w

end World

namespace Prog

variable {σ ε μ α β : Type}

/-- Run a program to its end. `env` holds the environment's answers in the order in which
they are asked for; when it is used up, everything succeeds. -/
def run : Prog σ ε μ α → List Bool → World σ ε μ → Outcome α × World σ ε μ × List Bool
  | ret a, env, w => (.done a, w, env)
  | crash, env, w => (.crashed, w, env)
  | lock k, env, w => if w.held then (.blocked, w, env) else k.run env w.locked
  | unlock k, env, w => k.run env w.unlocked
  | access es f k, env, w => (k w.state).run env (w.accessed es f)
  | choose k, env, w => (k (env.headD true)).run env.tail w
  | send m k, env, w => (k (env.headD true)).run env.tail (w.posted m (env.headD true))

theorem run_bind (p : Prog σ ε μ α) (g : α → Prog σ ε μ β) (env : List Bool)
    (w : World σ ε μ) :
    (p.bind g).run env w =
      match p.run env w with
      | (.done a, w', env') => (g a).run env' w'
      | (.crashed, w', env') => (.crashed, w', env')
      | (.blocked, w', env') => (.blocked, w', env') := by
  induction p generalizing env w with
  | ret a => rfl
  | crash => rfl
  | lock k ih => by_cases h : w.held <;> simp [bind, run, h, ih]
  | unlock k ih => simp [bind, run, ih]
  | access es f k ih => simp [bind, run, ih]
  | choose k ih => simp [bind, run, ih]
  | send m k ih => simp [bind, run, ih]

/-! ### Weakest preconditions -/

/-- `p.wp ok Q w`: however the environment answers within `ok`, the run of `p` from `w` ends
in an outcome and a world that satisfy `Q`. -/
def wp (ok : Bool → Prop) : Prog σ ε μ α → (Outcome α → World σ ε μ → Prop) →
    World σ ε μ → Prop
  | ret a, Q, w => Q (.done a) w
  | crash, Q, w => Q .crashed w
  | lock k, Q, w => (w.held = true → Q .blocked w) ∧ (w.held = false → k.wp ok Q w.locked)
  | unlock k, Q, w => k.wp ok Q w.unlocked
  | access es f k, Q, w => (k w.state).wp ok Q (w.accessed es f)
  | choose k, Q, w => ∀ b, ok b → (k b).wp ok Q w
  | send m k, Q, w => ∀ b, ok b → (k b).wp ok Q (w.posted m b)

/-- The postcondition of the first part of a sequence. -/
def follow (Q : Outcome β → World σ ε μ → Prop) (g : α → World σ ε μ → Prop) :
    Outcome α → World σ ε μ → Prop
  | .done a, w => g a w
  | .crashed, w => Q .crashed w
  | .blocked, w => Q .blocked w

theorem wp_bind {ok : Bool → Prop} {p : Prog σ ε μ α} {g : α → Prog σ ε μ β}
    {Q : Outcome β → World σ ε μ → Prop} {w : World σ ε μ} :
    (p.bind g).wp ok Q w ↔ p.wp ok (follow Q fun a => (g a).wp ok Q) w := by
  induction p generalizing w with
  | ret a => rfl
  | crash => rfl
  | lock k ih => simp only [bind, wp, ih, follow]
  | unlock k ih => simp only [bind, wp, ih]
  | access es f k ih => simp only [bind, wp, ih]
  | choose k ih => simp only [bind, wp, ih]
  | send m k ih => simp only [bind, wp, ih]

theorem wp.mono {ok : Bool → Prop} {p : Prog σ ε μ α} {Q R : Outcome α → World σ ε μ → Prop}
    {w : World σ ε μ} (h : p.wp ok Q w) (hQ : ∀ o w', Q o w' → R o w') : p.wp ok R w := by
  induction p generalizing w with
  | ret a => exact hQ _ _ h
  | crash => exact hQ _ _ h
  | lock k ih => exact ⟨fun hw => hQ _ _ (h.1 hw), fun hw => ih (h.2 hw)⟩
  | unlock k ih => exact ih h
  | access es f k ih => exact ih _ h
  | choose k ih => exact fun b hb => ih b (h b hb)
  | send m k ih => exact fun b hb => ih b (h b hb)

theorem wp_of_forall {ok : Bool → Prop} {p : Prog σ ε μ α} {Q : Outcome α → World σ ε μ → Prop}
    {w : World σ ε μ} (h : ∀ o w', Q o w') : p.wp ok Q w := by
  induction p generalizing w with
  | ret a => exact h _ _
  | crash => exact h _ _
  | lock k ih => exact ⟨fun _ => h _ _, fun _ => ih⟩
  | unlock k ih => exact ih
  | access es f k ih => exact ih _
  | choose k ih => exact fun b _ => ih b
  | send m k ih => exact fun b _ => ih b

theorem wp.and {ok : Bool → Prop} {p : Prog σ ε μ α} {Q R : Outcome α → World σ ε μ → Prop}
    {w : World σ ε μ} (hQ : p.wp ok Q w) (hR : p.wp ok R w) :
    p.wp ok (fun o w' => Q o w' ∧ R o w') w := by
  induction p generalizing w with
  | ret a => exact ⟨hQ, hR⟩
  | crash => exact ⟨hQ, hR⟩
  | lock k ih => exact ⟨fun hw => ⟨hQ.1 hw, hR.1 hw⟩, fun hw => ih (hQ.2 hw) (hR.2 hw)⟩
  | unlock k ih => exact ih hQ hR
  | access es f k ih => exact ih _ hQ hR
  | choose k ih => exact fun b hb => ih b (hQ b hb) (hR b hb)
  | send m k ih => exact fun b hb => ih b (hQ b hb) (hR b hb)

theorem wp.sound {ok : Bool → Prop} (hok : ok true) {p : Prog σ ε μ α}
    {Q : Outcome α → World σ ε μ → Prop} {w : World σ ε μ} (h : p.wp ok Q w)
    {env : List Bool} (henv : ∀ b ∈ env, ok b) :
    Q (p.run env w).1 (p.run env w).2.1 := by
  induction p generalizing env w with
  | ret a => exact h
  | crash => exact h
  | lock k ih =>
    by_cases hw : w.held = true
    · simpa only [run, if_pos hw] using h.1 hw
    · simpa only [run, if_neg hw] using ih (h.2 (by simpa using hw)) henv
  | unlock k ih => exact ih h henv
  | access es f k ih => exact ih _ h henv
  | choose k ih =>
    cases env with
    | nil => exact ih true (h true hok) (by simp)
    | cons b env => exact ih b (h b (henv b List.mem_cons_self)) fun c hc => henv c (List.mem_cons_of_mem _ hc)
  | send m k ih =>
    cases env with
    | nil => exact ih true (h true hok) (by simp)
    | cons b env => exact ih b (h b (henv b List.mem_cons_self)) fun c hc => henv c (List.mem_cons_of_mem _ hc)

/-! ### Partial correctness -/

/-- `p.returns ok R w`: whenever the run of `p` from `w` returns, `R` holds of its result. -/
def returns (ok : Bool → Prop) (p : Prog σ ε μ α) (R : α → World σ ε μ → Prop)
    (w : World σ ε μ) : Prop :=
  p.wp ok (fun o w' => ∀ a, o = .done a → R a w') w

section Returns

variable {ok : Bool → Prop} {R : α → World σ ε μ → Prop} {w : World σ ε μ}

@[simp] theorem returns_ret {a : α} : (ret a).returns ok R w ↔ R a w := by
  simp [returns, wp]

@[simp] theorem returns_crash : (crash : Prog σ ε μ α).returns ok R w := by
  simp [returns, wp]

theorem returns_bind {p : Prog σ ε μ β} {g : β → Prog σ ε μ α} :
    (p.bind g).returns ok R w ↔ p.returns ok (fun b w' => (g b).returns ok R w') w := by
  rw [returns, wp_bind, returns]
  constructor <;> refine fun h => h.mono fun o w' ho => ?_
  · rintro b rfl
    exact ho
  · cases o with
    | done b => exact ho b rfl
    | crashed => simp [follow]
    | blocked => simp [follow]

theorem returns_lockReturn {R : Unit → World σ ε μ → Prop} :
    lockReturn.returns ok R w ↔ (w.held = false → R () w.locked) :=
  ⟨fun h hw => h.2 hw () rfl, fun h => ⟨nofun, fun hw _ _ => h hw⟩⟩

theorem returns_unlockReturn {R : Unit → World σ ε μ → Prop} :
    unlockReturn.returns ok R w ↔ R () w.unlocked :=
  ⟨fun h => h () rfl, fun h _ _ => h⟩

theorem returns_access {es : σ → List ε} {f : σ → σ} {k : σ → Prog σ ε μ α} :
    (access es f k).returns ok R w ↔ (k w.state).returns ok R (w.accessed es f) :=
  Iff.rfl

theorem returns_read {es : σ → List ε} {f : σ → α} :
    (read es f).returns ok R w ↔ R (f w.state) (w.accessed es id) := by
  simp [returns, Prog.read, wp]

theorem returns_modify {es : σ → List ε} {f : σ → σ} {R : Unit → World σ ε μ → Prop} :
    (modify es f).returns ok R w ↔ R () (w.accessed es f) :=
  ⟨fun h => h () rfl, fun h _ _ => h⟩

theorem returns_alloc {R : Bool → World σ ε μ → Prop} :
    alloc.returns ok R w ↔ ∀ b, ok b → R b w := by
  simp [returns, alloc, wp]

theorem returns_sendMsg {m : μ} {R : Bool → World σ ε μ → Prop} :
    (sendMsg m).returns ok R w ↔ ∀ b, ok b → R b (w.posted m b) := by
  simp [returns, sendMsg, wp]

theorem returns_ite {c : Prop} [Decidable c] {p q : Prog σ ε μ α} :
    (if c then p else q).returns ok R w ↔
      (c → p.returns ok R w) ∧ (¬c → q.returns ok R w) := by
  by_cases h : c <;> simp [h]

theorem returns.mono {p : Prog σ ε μ α} {S : α → World σ ε μ → Prop}
    (h : p.returns ok R w) (hR : ∀ a w', R a w' → S a w') : p.returns ok S w :=
  wp.mono h fun _ w' ho a ha => hR a w' (ho a ha)

theorem returns_of_forall {p : Prog σ ε μ α} (h : ∀ a w', R a w') : p.returns ok R w :=
  wp_of_forall fun _ w' a _ => h a w'

theorem returns.and {p : Prog σ ε μ α} {S : α → World σ ε μ → Prop}
    (h : p.returns ok R w) (h' : p.returns ok S w) :
    p.returns ok (fun a w' => R a w' ∧ S a w') w :=
  (wp.and h h').mono fun _ _ ho a ha => ⟨ho.1 a ha, ho.2 a ha⟩

theorem returns.bind {p : Prog σ ε μ β} {g : β → Prog σ ε μ α}
    {S : β → World σ ε μ → Prop} (h : p.returns ok S w)
    (hg : ∀ b w', S b w' → (g b).returns ok R w') : (p.bind g).returns ok R w :=
  returns_bind.mpr (h.mono hg)

theorem returns.sound (hok : ok true) {p : Prog σ ε μ α} (h : p.returns ok R w)
    {env : List Bool} (henv : ∀ b ∈ env, ok b) {a : α} {w' : World σ ε μ} {env' : List Bool}
    (hr : p.run env w = (.done a, w', env')) : R a w' := by
  have hs := wp.sound hok h henv a
  rw [hr] at hs
  exact hs rfl

/-- The same where nothing fails. -/
theorem returns.of_run_true {p : Prog σ ε μ α} (h : p.returns (fun b => b = true) R w)
    {env env' : List Bool} {a : α} {w' : World σ ε μ} (henv : false ∉ env)
    (hr : p.run env w = (.done a, w', env')) : R a w' := by
  refine h.sound ?_ (fun b hb => ?_) hr
  · rfl
  · cases b with
    | true => rfl
    | false => exact absurd hb henv

/-- The same whatever the environment answers. -/
theorem returns.of_run {p : Prog σ ε μ α} (h : p.returns (fun _ => True) R w) {env env' : List Bool}
    {a : α} {w' : World σ ε μ} (hr : p.run env w = (.done a, w', env')) : R a w' :=
  h.sound trivial (fun _ _ => trivial) hr

end Returns

/-! ### Total correctness -/

/-- `p.attains ok R w`: the run of `p` from `w` returns, and `R` holds of its result. -/
def attains (ok : Bool → Prop) (p : Prog σ ε μ α) (R : α → World σ ε μ → Prop)
    (w : World σ ε μ) : Prop :=
  p.wp ok (fun o w' => ∃ a, o = .done a ∧ R a w') w

section Attains

variable {ok : Bool → Prop} {R : α → World σ ε μ → Prop} {w : World σ ε μ}

@[simp] theorem attains_ret {a : α} : (ret a).attains ok R w ↔ R a w := by
  simp [attains, wp]

theorem attains_bind {p : Prog σ ε μ β} {g : β → Prog σ ε μ α} :
    (p.bind g).attains ok R w ↔ p.attains ok (fun b w' => (g b).attains ok R w') w := by
  rw [attains, wp_bind, attains]
  constructor <;> refine fun h => h.mono fun o w' ho => ?_
  · cases o with
    | done b => exact ⟨b, rfl, ho⟩
    | crashed => simp [follow] at ho
    | blocked => simp [follow] at ho
  · obtain ⟨b, rfl, hb⟩ := ho
    exact hb

theorem attains_lockReturn {R : Unit → World σ ε μ → Prop} :
    lockReturn.attains ok R w ↔ w.held = false ∧ R () w.locked := by
  constructor
  · intro h
    cases hw : w.held with
    | true =>
      obtain ⟨_, ho, -⟩ := h.1 hw
      cases ho
    | false =>
      obtain ⟨_, -, hR⟩ := h.2 hw
      exact ⟨rfl, hR⟩
  · rintro ⟨hw, hR⟩
    exact ⟨fun h => absurd (h.symm.trans hw) (by simp), fun _ => ⟨(), rfl, hR⟩⟩

theorem attains_unlockReturn {R : Unit → World σ ε μ → Prop} :
    unlockReturn.attains ok R w ↔ R () w.unlocked :=
  ⟨fun ⟨_, _, h⟩ => h, fun h => ⟨(), rfl, h⟩⟩

theorem attains_access {es : σ → List ε} {f : σ → σ} {k : σ → Prog σ ε μ α} :
    (access es f k).attains ok R w ↔ (k w.state).attains ok R (w.accessed es f) :=
  Iff.rfl

theorem attains_read {es : σ → List ε} {f : σ → α} :
    (read es f).attains ok R w ↔ R (f w.state) (w.accessed es id) := by
  simp [attains, Prog.read, wp]

theorem attains_modify {es : σ → List ε} {f : σ → σ} {R : Unit → World σ ε μ → Prop} :
    (modify es f).attains ok R w ↔ R () (w.accessed es f) :=
  ⟨fun ⟨_, _, h⟩ => h, fun h => ⟨(), rfl, h⟩⟩

theorem attains_alloc {R : Bool → World σ ε μ → Prop} :
    alloc.attains ok R w ↔ ∀ b, ok b → R b w := by
  simp [attains, alloc, wp]

theorem attains_sendMsg {m : μ} {R : Bool → World σ ε μ → Prop} :
    (sendMsg m).attains ok R w ↔ ∀ b, ok b → R b (w.posted m b) := by
  simp [attains, sendMsg, wp]

theorem attains_ite {c : Prop} [Decidable c] {p q : Prog σ ε μ α} :
    (if c then p else q).attains ok R w ↔
      (c → p.attains ok R w) ∧ (¬c → q.attains ok R w) := by
  by_cases h : c <;> simp [h]

theorem attains.mono {p : Prog σ ε μ α} {S : α → World σ ε μ → Prop} (h : p.attains ok R w)
    (hR : ∀ a w', R a w' → S a w') : p.attains ok S w := by
  refine wp.mono h fun _ w' ho => ?_
  obtain ⟨a, rfl, ha⟩ := ho
  exact ⟨a, rfl, hR a w' ha⟩

theorem attains.and_returns {p : Prog σ ε μ α} {S : α → World σ ε μ → Prop}
    (h : p.attains ok R w) (h' : p.returns ok S w) :
    p.attains ok (fun a w' => R a w' ∧ S a w') w := by
  refine (wp.and h h').mono fun _ w' ho => ?_
  obtain ⟨⟨a, rfl, ha⟩, hs⟩ := ho
  exact ⟨a, rfl, ha, hs a rfl⟩

theorem attains.sound (hok : ok true) {p : Prog σ ε μ α} (h : p.attains ok R w)
    {env : List Bool} (henv : ∀ b ∈ env, ok b) :
    ∃ a w' env', p.run env w = (.done a, w', env') ∧ R a w' := by
  obtain ⟨a, ha, hR⟩ := wp.sound hok h henv
  exact ⟨a, _, _, by rw [← ha], hR⟩

/-- Where nothing fails. -/
theorem attains.run_nil {p : Prog σ ε μ α} (h : p.attains (fun b => b = true) R w) :
    ∃ a w' env', p.run [] w = (.done a, w', env') ∧ R a w' := by
  refine h.sound ?_ (by simp)
  rfl

end Attains

/-! ### Runs of the elementary actions -/

section Run

variable {σ ε μ α β : Type} (env : List Bool) (w : World σ ε μ)

@[simp] theorem run_ret (a : α) : (ret a : Prog σ ε μ α).run env w = (.done a, w, env) := rfl

@[simp] theorem run_crash : (crash : Prog σ ε μ α).run env w = (.crashed, w, env) := rfl

theorem run_bind_done {p : Prog σ ε μ α} {g : α → Prog σ ε μ β} {env env' : List Bool}
    {w w' : World σ ε μ} {a : α} (h : p.run env w = (.done a, w', env')) :
    (p.bind g).run env w = (g a).run env' w' := by
  rw [run_bind, h]

theorem run_bind_crashed {p : Prog σ ε μ α} {g : α → Prog σ ε μ β} {env env' : List Bool}
    {w w' : World σ ε μ} (h : p.run env w = (.crashed, w', env')) :
    (p.bind g).run env w = (.crashed, w', env') := by
  rw [run_bind, h]

theorem run_lockReturn (h : w.held = false) :
    lockReturn.run env w = (.done (), w.locked, env) := by
  simp [lockReturn, run, h]

theorem run_unlockReturn : unlockReturn.run env w = (.done (), w.unlocked, env) := rfl

theorem run_pos {c : Prop} [Decidable c] {p q : Prog σ ε μ α} {env : List Bool}
    {w : World σ ε μ} (h : c) : (if c then p else q).run env w = p.run env w := by
  rw [if_pos h]

theorem run_neg {c : Prop} [Decidable c] {p q : Prog σ ε μ α} {env : List Bool}
    {w : World σ ε μ} (h : ¬c) : (if c then p else q).run env w = q.run env w := by
  rw [if_neg h]

theorem run_read (es : σ → List ε) (f : σ → α) :
    (read es f).run env w = (.done (f w.state), w.accessed es id, env) := rfl

theorem run_alloc : (alloc : Prog σ ε μ Bool).run env w =
    (.done (env.headD true), w, env.tail) := rfl

end Run

section Yields

variable {σ ε μ α β : Type} {p : Prog σ ε μ α} {g : α → Prog σ ε μ β} {env env' : List Bool}
  {w w' : World σ ε μ} {R : α → World σ ε μ → Prop} {S : β → World σ ε μ → Prop} {a : α}

/-- If the run of `p` with the given answers returns, `R` holds of its result. -/
def yields (p : Prog σ ε μ α) (env : List Bool) (R : α → World σ ε μ → Prop)
    (w : World σ ε μ) : Prop :=
  ∀ a, (p.run env w).1 = .done a → R a (p.run env w).2.1

theorem yields_ret : (ret a).yields env R w ↔ R a w := by
  simp [yields]

theorem yields_crash : (crash : Prog σ ε μ α).yields env R w := by
  simp [yields]

theorem yields_bind (h : p.run env w = (.done a, w', env')) :
    (p.bind g).yields env S w ↔ (g a).yields env' S w' := by
  rw [yields, run_bind_done h, yields]

theorem yields_bind_crashed (h : p.run env w = (.crashed, w', env')) :
    (p.bind g).yields env S w := by
  rw [yields, run_bind_crashed h]
  exact nofun

theorem yields_bind_of_not_done (h : ∀ a, (p.run env w).1 ≠ .done a) : (p.bind g).yields env S w := by
  intro b hb
  rw [run_bind] at hb
  split at hb
  · rename_i a _ _ hr
    exact absurd (congrArg Prod.fst hr) (h a)
  · cases hb
  · cases hb

theorem yields_pos {c : Prop} [Decidable c] {q : Prog σ ε μ α} (h : c) :
    (if c then p else q).yields env R w ↔ p.yields env R w := by
  rw [if_pos h]

theorem yields_neg {c : Prop} [Decidable c] {q : Prog σ ε μ α} (h : ¬c) :
    (if c then p else q).yields env R w ↔ q.yields env R w := by
  rw [if_neg h]

theorem yields_bind_pos {c : Prop} [Decidable c] {q : Prog σ ε μ α} (h : c) :
    ((if c then p else q).bind g).yields env S w ↔ (p.bind g).yields env S w := by
  rw [if_pos h]

theorem yields_bind_neg {c : Prop} [Decidable c] {q : Prog σ ε μ α} (h : ¬c) :
    ((if c then p else q).bind g).yields env S w ↔ (q.bind g).yields env S w := by
  rw [if_neg h]

theorem yields_map {f : α → β} (hg : ∀ a, g a = ret (f a)) :
    (p.bind g).yields env S w ↔ p.yields env (fun a w' => S (f a) w') w := by
  simp only [yields, run_bind]
  rcases p.run env w with ⟨b | _ | _, w', env'⟩
  · simp [hg]
  · simp
  · simp

theorem yields_of_returns (h : p.returns (fun _ => True) R w) : p.yields env R w :=
  fun a ha =>
    have hr : p.run env w = (.done a, (p.run env w).2.1, (p.run env w).2.2) := by rw [← ha]
    h.sound trivial (fun _ _ => trivial) hr

end Yields

end Prog

namespace World

variable {σ ε μ : Type} (w : World σ ε μ)

@[simp] theorem accessed_state (es : σ → List ε) (f : σ → σ) :
    (w.accessed es f).state = f w.state := rfl
@[simp] theorem accessed_held (es : σ → List ε) (f : σ → σ) :
    (w.accessed es f).held = w.held := rfl
@[simp] theorem accessed_trace (es : σ → List ε) (f : σ → σ) :
    (w.accessed es f).trace = w.trace ++ (es w.state).map .access := rfl
@[simp] theorem locked_state : w.locked.state = w.state := rfl
@[simp] theorem locked_held : w.locked.held = true := rfl
@[simp] theorem locked_trace : w.locked.trace = w.trace ++ [.lock] := rfl
@[simp] theorem unlocked_state : w.unlocked.state = w.state := rfl
@[simp] theorem unlocked_held : w.unlocked.held = false := rfl
@[simp] theorem unlocked_trace : w.unlocked.trace = w.trace ++ [.unlock] := rfl
@[simp] theorem posted_state (m : μ) (b : Bool) : (w.posted m b).state = w.state := by
  cases b <;> rfl
@[simp] theorem posted_held (m : μ) (b : Bool) : (w.posted m b).held = w.held := by
  cases b <;> rfl
@[simp] theorem posted_trace (m : μ) (b : Bool) : (w.posted m b).trace = w.trace := by
  cases b <;> rfl

end World

/-! ### What the environment grants -/

section Answered

variable {α β : Type}

/-- The elements that are granted when the environment is asked for one after the other. -/
def answered : List Bool → List α → List α
  | _, [] => []
  | env, a :: as => if env.headD true then a :: answered env.tail as else answered env.tail as

theorem answered_sublist (env : List Bool) (as : List α) : (answered env as).Sublist as := by
  induction as generalizing env with
  | nil => exact .slnil
  | cons a as ih =>
    rw [answered]
    split
    · exact (ih _).cons_cons a
    · exact (ih _).cons a

theorem answered_eq_self_iff {env : List Bool} {as : List α} :
    answered env as = as ↔ ∀ j < as.length, env.getD j true = true := by
  induction as generalizing env with
  | nil => simp [answered]
  | cons a as ih =>
    have hhead : env.getD 0 true = env.headD true := by cases env <;> rfl
    have htail : ∀ j, env.getD (j + 1) true = env.tail.getD j true := by
      intro j
      cases env <;> rfl
    rw [List.length_cons, Nat.forall_lt_succ_left, hhead, answered]
    simp only [htail]
    cases env.headD true with
    | true => rw [if_pos rfl, List.cons_inj_right, ih, and_iff_right rfl]
    | false =>
      refine iff_of_false (fun h => ?_) fun h => Bool.false_ne_true h.1
      have hle := (answered_sublist env.tail as).length_le
      rw [if_neg Bool.false_ne_true] at h
      rw [h, List.length_cons] at hle
      omega

theorem length_answered_iff {env : List Bool} {as : List α} :
    (answered env as).length = as.length ↔ answered env as = as :=
  ⟨(answered_sublist env as).eq_of_length, congrArg List.length⟩

theorem answered_map (f : α → β) (env : List Bool) (as : List α) :
    answered env (as.map f) = (answered env as).map f := by
  induction as generalizing env with
  | nil => rfl
  | cons a as ih =>
    rw [List.map_cons, answered, answered, ih]
    split <;> rfl

end Answered

end FileStorage
