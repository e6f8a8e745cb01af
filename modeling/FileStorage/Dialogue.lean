import Mathlib.Logic.Basic
import Mathlib.Tactic.Common

/-! Programs that work on global variables and put questions to the system they run on. A run is
told by its trace: the questions with the answers they got. -/

namespace FileStorage

inductive Dialogue {Q : Type} (A : Q → Type) (σ α : Type) where
  | ret (a : α)
  | crash
  | access (f : σ → σ) (k : σ → Dialogue A σ α)
  | ask (q : Q) (k : A q → Dialogue A σ α)

namespace Dialogue

variable {Q : Type} {A : Q → Type} {σ α β γ : Type}

def bind (x : Dialogue A σ α) (g : α → Dialogue A σ β) : Dialogue A σ β :=
  match x with
  | ret a => g a
  | crash => crash
  | access f k => access f fun s => (k s).bind g
  | ask q k => ask q fun x => (k x).bind g

instance : Monad (Dialogue A σ) where
  pure := ret
  bind := bind

def get : Dialogue A σ σ := access id ret

def modify (f : σ → σ) : Dialogue A σ Unit := access f fun _ => ret ()

/-- Put a question and use its answer. -/
def question (q : Q) : Dialogue A σ (A q) := ask q ret

/-- `Runs x s t a s'`: from `s`, with the answers of `t`, the program returns `a` and leaves `s'`.
A program that crashes has no run. -/
inductive Runs : Dialogue A σ α → σ → List (Sigma A) → α → σ → Prop where
  | ret {a : α} {s : σ} : Runs (ret a) s [] a s
  | access {f : σ → σ} {k : σ → Dialogue A σ α} {s s' : σ} {t : List (Sigma A)} {a : α}
      (h : Runs (k s) (f s) t a s') : Runs (access f k) s t a s'
  | ask {q : Q} {k : A q → Dialogue A σ α} {s s' : σ} {t : List (Sigma A)} {a : α} (x : A q)
      (h : Runs (k x) s t a s') : Runs (ask q k) s (⟨q, x⟩ :: t) a s'

variable {s s' : σ} {t : List (Sigma A)} {a b : α}

theorem runs_ret : Runs (.ret a : Dialogue A σ α) s t b s' ↔ t = [] ∧ b = a ∧ s' = s := by
  constructor
  · intro h
    cases h
    exact ⟨rfl, rfl, rfl⟩
  · rintro ⟨rfl, rfl, rfl⟩
    exact .ret

theorem runs_pure : Runs (pure a : Dialogue A σ α) s t b s' ↔ t = [] ∧ b = a ∧ s' = s := runs_ret

theorem not_runs_crash : ¬Runs (.crash : Dialogue A σ α) s t a s' := by
  intro h
  cases h

theorem runs_access {f : σ → σ} {k : σ → Dialogue A σ α} :
    Runs (.access f k) s t a s' ↔ Runs (k s) (f s) t a s' := by
  constructor
  · intro h
    cases h with
    | access h => exact h
  · exact .access

theorem runs_ask {q : Q} {k : A q → Dialogue A σ α} :
    Runs (.ask q k) s t a s' ↔ ∃ x u, t = ⟨q, x⟩ :: u ∧ Runs (k x) s u a s' := by
  constructor
  · intro h
    cases h with
    | ask x h => exact ⟨x, _, rfl, h⟩
  · rintro ⟨x, u, rfl, h⟩
    exact .ask x h

theorem runs_bind {x : Dialogue A σ α} {g : α → Dialogue A σ β} {b : β} :
    Runs (x >>= g) s t b s' ↔
      ∃ a u r u', t = u ++ u' ∧ Runs x s u a r ∧ Runs (g a) r u' b s' := by
  show Runs (x.bind g) s t b s' ↔ _
  induction x generalizing s t with
  | ret a =>
    constructor
    · intro h
      exact ⟨a, [], s, t, rfl, .ret, h⟩
    · rintro ⟨a', u, r, u', rfl, hx, hg⟩
      obtain ⟨rfl, rfl, rfl⟩ := runs_ret.mp hx
      exact hg
  | crash =>
    constructor
    · intro h
      exact absurd h not_runs_crash
    · rintro ⟨a, u, r, u', -, hx, -⟩
      exact absurd hx not_runs_crash
  | access f k ih =>
    rw [bind, runs_access, ih]
    constructor
    · rintro ⟨a, u, r, u', rfl, hx, hg⟩
      exact ⟨a, u, r, u', rfl, .access hx, hg⟩
    · rintro ⟨a, u, r, u', rfl, hx, hg⟩
      exact ⟨a, u, r, u', rfl, runs_access.mp hx, hg⟩
  | ask q k ih =>
    rw [bind, runs_ask]
    constructor
    · rintro ⟨x, v, rfl, h⟩
      obtain ⟨a, u, r, u', rfl, hx, hg⟩ := (ih x).mp h
      exact ⟨a, ⟨q, x⟩ :: u, r, u', rfl, .ask x hx, hg⟩
    · rintro ⟨a, u, r, u', rfl, hx, hg⟩
      obtain ⟨x, v, rfl, hk⟩ := runs_ask.mp hx
      exact ⟨x, v ++ u', rfl, (ih x).mpr ⟨a, v, r, u', rfl, hk, hg⟩⟩

theorem runs_get {r : σ} :
    Runs (get : Dialogue A σ σ) s t r s' ↔ t = [] ∧ r = s ∧ s' = s := by
  rw [get, runs_access, runs_ret]
  rfl

theorem runs_modify {f : σ → σ} {u : Unit} :
    Runs (modify f : Dialogue A σ Unit) s t u s' ↔ t = [] ∧ s' = f s := by
  rw [modify, runs_access, runs_ret]
  simp

theorem runs_question {q : Q} {x : A q} :
    Runs (question q : Dialogue A σ (A q)) s t x s' ↔ t = [⟨q, x⟩] ∧ s' = s := by
  rw [question, runs_ask]
  constructor
  · rintro ⟨y, u, rfl, h⟩
    obtain ⟨rfl, rfl, rfl⟩ := runs_ret.mp h
    exact ⟨rfl, rfl⟩
  · rintro ⟨rfl, rfl⟩
    exact ⟨x, [], rfl, .ret⟩

/-! The same for the steps of a program that goes on. -/

section

variable {g : α → Dialogue A σ β} {b : β}

theorem runs_get_bind {g : σ → Dialogue A σ β} :
    Runs (get >>= g) s t b s' ↔ Runs (g s) s t b s' := runs_access

theorem runs_modify_bind {f : σ → σ} {g : Unit → Dialogue A σ β} :
    Runs (modify f >>= g) s t b s' ↔ Runs (g ()) (f s) t b s' := runs_access

theorem runs_question_bind {q : Q} {g : A q → Dialogue A σ β} :
    Runs (question q >>= g) s t b s' ↔ ∃ x u, t = ⟨q, x⟩ :: u ∧ Runs (g x) s u b s' := runs_ask

end

/-! ### Programs on a script of answers -/

/-- Run the program on a list of answers, which has to be for the questions it puts. -/
def replay [DecidableEq Q] : Dialogue A σ α → σ → List (Sigma A) → Option (α × σ)
  | .ret a, s, t => if t.isEmpty then some (a, s) else none
  | .crash, _, _ => none
  | .access f k, s, t => (k s).replay (f s) t
  | .ask _ _, _, [] => none
  | .ask q k, s, x :: t => if h : x.1 = q then (k (h ▸ x.2)).replay s t else none

theorem runs_of_replay [DecidableEq Q] {x : Dialogue A σ α} (h : x.replay s t = some (a, s')) :
    Runs x s t a s' := by
  induction x generalizing s t with
  | ret b =>
    rw [replay] at h
    split at h
    · rename_i ht
      obtain ⟨rfl, rfl⟩ := Prod.mk.inj (Option.some.inj h)
      obtain rfl := List.isEmpty_iff.mp ht
      exact .ret
    · cases h
  | crash => cases h
  | access f k ih => exact .access (ih s h)
  | ask q k ih =>
    cases t with
    | nil => cases h
    | cons x t =>
      obtain ⟨q', x⟩ := x
      rw [replay] at h
      split at h
      · rename_i hq
        obtain rfl : q' = q := hq
        exact .ask x (ih x h)
      · cases h

/-! ### Programs on a system that answers -/

variable {τ : Type}

/-- Run the program on a system with a state of its own, which may leave a question unanswered. -/
def execute (answer : (q : Q) → τ → Option (A q × τ)) :
    Dialogue A σ α → σ → τ → Option (α × σ × τ)
  | .ret a, s, u => some (a, s, u)
  | .crash, _, _ => none
  | .access f k, s, u => (k s).execute answer (f s) u
  | .ask q k, s, u => (answer q u).bind fun r => (k r.1).execute answer s r.2

section Execute

variable {answer : (q : Q) → τ → Option (A q × τ)} {u u' : τ}

@[simp] theorem execute_pure : (pure a : Dialogue A σ α).execute answer s u = some (a, s, u) := rfl

@[simp] theorem execute_crash : (.crash : Dialogue A σ α).execute answer s u = none := rfl

@[simp] theorem execute_get : (get : Dialogue A σ σ).execute answer s u = some (s, s, u) := rfl

@[simp] theorem execute_modify {f : σ → σ} :
    (modify f : Dialogue A σ Unit).execute answer s u = some ((), f s, u) := rfl

@[simp] theorem execute_question {q : Q} : (question q : Dialogue A σ (A q)).execute answer s u =
    (answer q u).map fun r => (r.1, s, r.2) := by
  show ((answer q u).bind fun r => some (r.1, s, r.2)) = _
  cases answer q u <;> rfl

@[simp] theorem execute_bind {x : Dialogue A σ α} {g : α → Dialogue A σ β} :
    (x >>= g).execute answer s u =
      (x.execute answer s u).bind fun r => (g r.1).execute answer r.2.1 r.2.2 := by
  show (x.bind g).execute answer s u = _
  induction x generalizing s u with
  | ret a => rfl
  | crash => rfl
  | access f k ih => exact ih s
  | ask q k ih => simp only [bind, execute, ih, Option.bind_assoc]

end Execute

/-- The program does not crash on the system, and what it ends with satisfies `P`. -/
def Meets (answer : (q : Q) → τ → Option (A q × τ)) (x : Dialogue A σ α) (P : α → σ → τ → Prop)
    (s : σ) (u : τ) : Prop :=
  ∃ r, x.execute answer s u = some r ∧ P r.1 r.2.1 r.2.2

section Meets

variable {answer : (q : Q) → τ → Option (A q × τ)} {P : α → σ → τ → Prop} {u : τ}

theorem meets_iff_of_execute {x : Dialogue A σ α} {r : α × σ × τ}
    (h : x.execute answer s u = some r) : x.Meets answer P s u ↔ P r.1 r.2.1 r.2.2 := by
  constructor
  · rintro ⟨r', h', hp⟩
    obtain rfl := Option.some.inj (h.symm.trans h')
    exact hp
  · intro hp
    exact ⟨r, h, hp⟩

@[simp] theorem meets_pure : (pure a : Dialogue A σ α).Meets answer P s u ↔ P a s u :=
  meets_iff_of_execute execute_pure

@[simp] theorem meets_crash : ¬(.crash : Dialogue A σ α).Meets answer P s u := by
  rintro ⟨r, h, -⟩
  cases h

@[simp] theorem meets_get {P : σ → σ → τ → Prop} :
    (get : Dialogue A σ σ).Meets answer P s u ↔ P s s u :=
  meets_iff_of_execute execute_get

@[simp] theorem meets_modify {f : σ → σ} {P : Unit → σ → τ → Prop} :
    (modify f : Dialogue A σ Unit).Meets answer P s u ↔ P () (f s) u :=
  meets_iff_of_execute execute_modify

theorem meets_question {q : Q} {x : A q} {u' : τ} {P : A q → σ → τ → Prop}
    (h : answer q u = some (x, u')) :
    (question q : Dialogue A σ (A q)).Meets answer P s u ↔ P x s u' :=
  meets_iff_of_execute (r := (x, s, u')) (by rw [execute_question, h]; rfl)

@[simp] theorem meets_bind {x : Dialogue A σ α} {g : α → Dialogue A σ β} {P : β → σ → τ → Prop} :
    (x >>= g).Meets answer P s u ↔ x.Meets answer (fun a s' u' => (g a).Meets answer P s' u') s u := by
  constructor
  · rintro ⟨r, h, hp⟩
    rw [execute_bind] at h
    obtain ⟨r', hx, hg⟩ := Option.bind_eq_some_iff.mp h
    exact ⟨r', hx, r, hg, hp⟩
  · rintro ⟨r', hx, r, hg, hp⟩
    exact ⟨r, by rw [execute_bind, hx]; exact hg, hp⟩

theorem meets_ite {c : Prop} [Decidable c] {x y : Dialogue A σ α} :
    (if c then x else y).Meets answer P s u ↔
      (c → x.Meets answer P s u) ∧ (¬c → y.Meets answer P s u) := by
  by_cases h : c <;> simp [h]

end Meets

/-- From a system whose `f` can grow by `l` within `total`, the program does not crash, keeps what `I`
says, and `f` grows by `l`. -/
def Emits {β : Type} (answer : (q : Q) → τ → Option (A q × τ)) (I : σ → Prop) (f : τ → List β)
    (total : List β) (x : Dialogue A σ α) (l : List β) : Prop :=
  ∀ s u, I s → f u ++ l <+: total → x.Meets answer (fun _ s' u' => I s' ∧ f u' = f u ++ l) s u

section Emits

variable {answer : (q : Q) → τ → Option (A q × τ)} {I : σ → Prop} {f : τ → List γ}
  {total l l' : List γ}

theorem emits_pure (a : α) : (pure a : Dialogue A σ α).Emits answer I f total [] := by
  intro s u hs _
  rw [meets_pure]
  exact ⟨hs, (List.append_nil _).symm⟩

theorem Emits.bind {x : Dialogue A σ α} {g : α → Dialogue A σ β} (hx : x.Emits answer I f total l)
    (hg : ∀ a, (g a).Emits answer I f total l') : (x >>= g).Emits answer I f total (l ++ l') := by
  intro s u hs hp
  rw [← List.append_assoc] at hp
  obtain ⟨r, hr, hi, hl⟩ := hx s u hs ((List.prefix_append _ _).trans hp)
  obtain ⟨r', hr', hi', hl'⟩ := hg r.1 r.2.1 r.2.2 hi (hl ▸ hp)
  refine ⟨r', ?_, hi', ?_⟩
  · rw [execute_bind, hr]
    exact hr'
  · rw [hl', hl, List.append_assoc]

/-- After a step that emits nothing. -/
theorem Emits.after {x : Dialogue A σ α} {g : α → Dialogue A σ β} (hx : x.Emits answer I f total [])
    (hg : ∀ a, (g a).Emits answer I f total l) : (x >>= g).Emits answer I f total l := by
  simpa using hx.bind hg

/-- Before a step that emits nothing. -/
theorem Emits.before {x : Dialogue A σ α} {g : α → Dialogue A σ β} (hx : x.Emits answer I f total l)
    (hg : ∀ a, (g a).Emits answer I f total []) : (x >>= g).Emits answer I f total l := by
  simpa using hx.bind hg

theorem emits_modify {h : σ → σ} (hh : ∀ s, I s → I (h s)) :
    (modify h : Dialogue A σ Unit).Emits answer I f total [] := by
  intro s u hs _
  rw [meets_modify]
  exact ⟨hh s hs, (List.append_nil _).symm⟩

/-- What the program reads of its state satisfies what it keeps. -/
theorem Emits.get {g : σ → Dialogue A σ β} (hg : ∀ s, I s → (g s).Emits answer I f total l) :
    (Dialogue.get >>= g).Emits answer I f total l := by
  intro s u hs hp
  rw [meets_bind, meets_get]
  exact hg s hs s u hs hp

/-- A question with an answer that satisfies `R`. -/
theorem Emits.ask {q : Q} {g : A q → Dialogue A σ β} (R : A q → Prop)
    (hq : ∀ u, f u ++ l <+: total → ∃ a u', answer q u = some (a, u') ∧ R a ∧ f u' = f u ++ l)
    (hg : ∀ a, R a → (g a).Emits answer I f total l') :
    (question q >>= g).Emits answer I f total (l ++ l') := by
  intro s u hs hp
  rw [← List.append_assoc] at hp
  obtain ⟨a, u₁, ha, hr, hl⟩ := hq u ((List.prefix_append _ _).trans hp)
  obtain ⟨r, hx, hi, hl'⟩ := hg a hr s u₁ hs (hl ▸ hp)
  rw [meets_bind, meets_question ha]
  exact ⟨r, hx, hi, by rw [hl', hl, List.append_assoc]⟩

/-- A question that leaves the system as it is and has one answer. -/
theorem Emits.known {q : Q} {g : A q → Dialogue A σ β} {a : A q}
    (hq : ∀ u, answer q u = some (a, u)) (hg : (g a).Emits answer I f total l) :
    (question q >>= g).Emits answer I f total l := by
  have h : (question q >>= g).Emits answer I f total ([] ++ l) :=
    Emits.ask (fun b => b = a) (fun u _ => ⟨a, u, hq u, rfl, (List.append_nil _).symm⟩)
      fun b hb => hb ▸ hg
  simpa using h

theorem Emits.ite {c : Prop} [Decidable c] {x y : Dialogue A σ α}
    (hx : c → x.Emits answer I f total l) (hy : ¬c → y.Emits answer I f total l) :
    (if c then x else y).Emits answer I f total l := by
  split
  · exact hx ‹_›
  · exact hy ‹_›

end Emits

/-- Whatever it is answered, the program puts only such questions. -/
def Asks (P : Q → Prop) : Dialogue A σ α → Prop
  | .ret _ => True
  | .crash => True
  | .access _ k => ∀ s, (k s).Asks P
  | .ask q k => P q ∧ ∀ x, (k x).Asks P

section Asks

variable {P : Q → Prop} {answer : (q : Q) → τ → Option (A q × τ)} {u u' : τ}

theorem Asks.mono {P' : Q → Prop} {x : Dialogue A σ α} (hx : x.Asks P) (h : ∀ q, P q → P' q) :
    x.Asks P' := by
  induction x with
  | ret a => trivial
  | crash => trivial
  | access f k ih => exact fun s => ih s (hx s)
  | ask q k ih => exact ⟨h q hx.1, fun a => ih a (hx.2 a)⟩

theorem Asks.bind {x : Dialogue A σ α} {g : α → Dialogue A σ β} (hx : x.Asks P)
    (hg : ∀ a, (g a).Asks P) : (x >>= g).Asks P := by
  show (x.bind g).Asks P
  induction x with
  | ret a => exact hg a
  | crash => trivial
  | access f k ih => exact fun s => ih s (hx s)
  | ask q k ih => exact ⟨hx.1, fun a => ih a (hx.2 a)⟩

theorem Asks.ite {c : Prop} [Decidable c] {x y : Dialogue A σ α} (hx : x.Asks P) (hy : y.Asks P) :
    (if c then x else y).Asks P := by
  split
  · exact hx
  · exact hy

theorem Asks.get {g : σ → Dialogue A σ β} (hg : ∀ s, (g s).Asks P) : (Dialogue.get >>= g).Asks P := hg

/-- What the answers to its questions preserve, the program preserves. -/
theorem Asks.execute {I : τ → Prop} (hI : ∀ q u a u', P q → I u → answer q u = some (a, u') → I u')
    {x : Dialogue A σ α} (hx : x.Asks P) (hu : I u)
    (h : x.execute answer s u = some (a, s', u')) : I u' := by
  induction x generalizing s u with
  | ret b =>
    obtain ⟨-, -, rfl⟩ := by simpa [Dialogue.execute] using h
    exact hu
  | crash => cases h
  | access f k ih => exact ih s (hx s) hu h
  | ask q k ih =>
    obtain ⟨r, hr, h⟩ := Option.bind_eq_some_iff.mp h
    exact ih r.1 (hx.2 r.1) (hI q u r.1 r.2 hx.1 hu hr) h

/-- In any run, whatever the answers. -/
theorem Asks.runs {x : Dialogue A σ α} (hx : x.Asks P) {t : List (Sigma A)} {a : α}
    (h : Runs x s t a s') : ∀ y ∈ t, P y.1 := by
  induction h with
  | ret => simp
  | access h ih => exact ih (hx _)
  | ask x h ih =>
    intro y hy
    rcases List.mem_cons.mp hy with rfl | hy
    · exact hx.1
    · exact ih (hx.2 x) y hy

end Asks

/-! ### Programs on a system with several answers -/

/-- A system that allows some questions in its state, with the answers it may give. -/
structure Service (A : Q → Type) (τ : Type) where
  allows : Q → τ → Prop
  gives : (q : Q) → τ → A q → τ → Prop

/-- Whatever it is answered, the program puts only questions that are allowed, and `P` holds where
it returns. -/
def Copes (S : Service A τ) : Dialogue A σ α → (α → τ → Prop) → τ → Prop
  | .ret a, P, u => P a u
  | .crash, _, _ => True
  | .access _ k, P, u => ∀ s, (k s).Copes S P u
  | .ask q k, P, u => S.allows q u ∧ ∀ x u', S.gives q u x u' → (k x).Copes S P u'

section Copes

variable {S : Service A τ} {P : α → τ → Prop} {u : τ}

theorem copes_bind {x : Dialogue A σ α} {g : α → Dialogue A σ β} {P : β → τ → Prop} :
    (x >>= g).Copes S P u ↔ x.Copes S (fun a u' => (g a).Copes S P u') u := by
  show (x.bind g).Copes S P u ↔ _
  induction x generalizing u with
  | ret a => rfl
  | crash => rfl
  | access f k ih => simp only [bind, Copes, ih]
  | ask q k ih => simp only [bind, Copes, ih]

theorem Copes.mono {R : α → τ → Prop} {x : Dialogue A σ α} (h : x.Copes S P u)
    (hP : ∀ a u', P a u' → R a u') : x.Copes S R u := by
  induction x generalizing u with
  | ret a => exact hP _ _ h
  | crash => trivial
  | access f k ih => exact fun s => ih s (h s)
  | ask q k ih => exact ⟨h.1, fun a u' hg => ih a (h.2 a u' hg)⟩

theorem Copes.bind {R : α → τ → Prop} {x : Dialogue A σ α} {g : α → Dialogue A σ β}
    {P : β → τ → Prop} (hx : x.Copes S R u) (hg : ∀ a u', R a u' → (g a).Copes S P u') :
    (x >>= g).Copes S P u :=
  copes_bind.mpr (hx.mono hg)

theorem Copes.ite {c : Prop} [Decidable c] {x y : Dialogue A σ α} (hx : c → x.Copes S P u)
    (hy : ¬c → y.Copes S P u) : (if c then x else y).Copes S P u := by
  split
  · exact hx ‹_›
  · exact hy ‹_›

/-- Questions that are always allowed and leave the system as it is. -/
theorem Asks.copes {C : Q → Prop} (hC : ∀ q u, C q → S.allows q u ∧ ∀ x u', S.gives q u x u' → u' = u)
    {x : Dialogue A σ α} (hx : x.Asks C) (hP : ∀ a, P a u) : x.Copes S P u := by
  induction x with
  | ret a => exact hP a
  | crash => trivial
  | access f k ih => exact fun s => ih s (hx s)
  | ask q k ih =>
    obtain ⟨hallows, hgives⟩ := hC q u hx.1
    refine ⟨hallows, fun a u' hg => ?_⟩
    obtain rfl := hgives a u' hg
    exact ih a (hx.2 a)

end Copes

/-! ### What all runs have in common -/

/-- No run changes what `f` reads. -/
def Keeps (f : σ → γ) (x : Dialogue A σ α) : Prop := ∀ s t a s', Runs x s t a s' → f s' = f s

section

variable {f : σ → γ}

theorem keeps_pure : (pure a : Dialogue A σ α).Keeps f := by
  intro s t b s' h
  obtain ⟨-, -, rfl⟩ := runs_pure.mp h
  rfl

theorem keeps_crash : (.crash : Dialogue A σ α).Keeps f := fun _ _ _ _ h => absurd h not_runs_crash

theorem keeps_get : (get : Dialogue A σ σ).Keeps f := by
  intro s t r s' h
  obtain ⟨-, -, rfl⟩ := runs_get.mp h
  rfl

theorem keeps_modify {g : σ → σ} (hg : ∀ s, f (g s) = f s) : (modify g : Dialogue A σ Unit).Keeps f := by
  intro s t u s' h
  obtain ⟨-, rfl⟩ := runs_modify.mp h
  exact hg s

theorem keeps_question (q : Q) : (question q : Dialogue A σ (A q)).Keeps f := by
  intro s t x s' h
  obtain ⟨-, rfl⟩ := runs_question.mp h
  rfl

theorem Keeps.bind {x : Dialogue A σ α} {g : α → Dialogue A σ β} (hx : x.Keeps f)
    (hg : ∀ a, (g a).Keeps f) : (x >>= g).Keeps f := by
  intro s t b s' h
  obtain ⟨a, u, r, u', -, h1, h2⟩ := runs_bind.mp h
  exact (hg a _ _ _ _ h2).trans (hx _ _ _ _ h1)

theorem Keeps.ite {c : Prop} [Decidable c] {x y : Dialogue A σ α} (hx : x.Keeps f)
    (hy : y.Keeps f) : (if c then x else y).Keeps f := by
  split
  · exact hx
  · exact hy

end

end Dialogue

end FileStorage
