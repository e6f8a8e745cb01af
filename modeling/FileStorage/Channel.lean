import Mathlib.Algebra.Order.Ring.Nat
import Mathlib.Tactic.Common

/-! Programs that read from a stream until its writer has closed it, and allocate memory. The
system decides how much each read delivers and which allocations it grants. -/

namespace FileStorage.Channel

variable {β α γ : Type}

/-- What is left of a stream, and the answers of the system: for a read the most that it delivers,
or `none` when it fails, and for an allocation whether it is granted. When the answers are used up,
everything asked for is delivered and granted. -/
structure Source (β : Type) where
  incoming : List β
  reads : List (Option Nat)
  allocations : List Bool

/-- What the next read delivers. At least one item comes while there are any; an empty answer is
the end of the stream. -/
def Source.delivers (s : Source β) (count : Nat) : Option (List β) :=
  (s.reads.headD (some count)).map fun most => s.incoming.take (min count (max 1 most))

/-- A call to the system with its answer. -/
inductive SystemCall (β : Type) where
  | read (count : Nat) (data : Option (List β))
  | alloc (granted : Bool)
  deriving DecidableEq

namespace SystemCall

/-- A read that has returned -1. -/
def readError : SystemCall β → Bool
  | read _ data => data.isNone
  | alloc _ => false

/-- A read that has met the end of the stream. -/
def ended : SystemCall β → Bool
  | read _ data => data.elim false List.isEmpty
  | alloc _ => false

/-- An allocation that has returned NULL. -/
def refused : SystemCall β → Bool
  | read _ _ => false
  | alloc granted => !granted

def failed (c : SystemCall β) : Bool := c.readError || c.refused

theorem any_failed (calls : List (SystemCall β)) :
    calls.any failed = (calls.any readError || calls.any refused) := by
  induction calls with
  | nil => rfl
  | cons c calls ih =>
    simp only [List.any_cons, failed, ih]
    cases c.readError <;> cases c.refused <;> simp

end SystemCall

/-- How a program ends: `none` is a program that has given up. -/
structure Ran (β α : Type) where
  result : Option α
  source : Source β
  calls : List (SystemCall β)

/-- A program that gives up at its first call that fails. -/
def Reader (β α : Type) := Source β → Ran β α

namespace Reader

def ret (a : α) : Reader β α := fun s => ⟨some a, s, []⟩

def bind (x : Reader β α) (g : α → Reader β γ) : Reader β γ := fun s =>
  match (x s).result with
  | none => ⟨none, (x s).source, (x s).calls⟩
  | some a => ⟨(g a (x s).source).result, (g a (x s).source).source,
      (x s).calls ++ (g a (x s).source).calls⟩

instance : Monad (Reader β) where
  pure := ret
  bind := bind

def read (count : Nat) : Reader β (List β) := fun s =>
  ⟨s.delivers count,
    ⟨s.incoming.drop ((s.delivers count).elim 0 List.length), s.reads.tail, s.allocations⟩,
    [.read count (s.delivers count)]⟩

def alloc : Reader β Unit := fun s =>
  ⟨if s.allocations.headD true then some () else none,
    ⟨s.incoming, s.reads, s.allocations.tail⟩, [.alloc (s.allocations.headD true)]⟩

/-- The program gives up exactly when one of its calls fails. -/
def Strict (x : Reader β α) : Prop :=
  ∀ s, (x s).result.isNone = (x s).calls.any SystemCall.failed

theorem strict_ret (a : α) : (ret a : Reader β α).Strict := fun _ => rfl

theorem strict_read (count : Nat) : (read count : Reader β (List β)).Strict := by
  intro s
  simp [read, SystemCall.failed, SystemCall.readError, SystemCall.refused]

theorem strict_alloc : (alloc : Reader β Unit).Strict := by
  intro s
  simp only [alloc]
  cases s.allocations.headD true <;> rfl

theorem Strict.bind {x : Reader β α} {g : α → Reader β γ} (hx : x.Strict) (hg : ∀ a, (g a).Strict) :
    (x.bind g).Strict := by
  intro s
  have hcalls := hx s
  rw [Reader.bind]
  split
  · rename_i h
    rw [← hcalls, h]
    rfl
  · rename_i a h
    rw [h, Option.isNone_some] at hcalls
    rw [List.any_append, ← hcalls, Bool.false_or]
    exact hg a (x s).source

theorem Strict.ite {c : Prop} [Decidable c] {x y : Reader β α} (hx : x.Strict) (hy : y.Strict) :
    (if c then x else y).Strict := by
  split
  · exact hx
  · exact hy

theorem result_bind {x : Reader β α} {g : α → Reader β γ} {s : Source β} {b : γ} :
    (x.bind g s).result = some b ↔
      ∃ a, (x s).result = some a ∧ (g a (x s).source).result = some b := by
  rw [bind]
  split
  · rename_i h
    simp [h]
  · rename_i a h
    simp [h]

/-! ### Reads that deliver everything -/

/-- The program returns `a` and leaves `s'`. -/
def Gets (x : Reader β α) (s : Source β) (a : α) (s' : Source β) : Prop :=
  (x s).result = some a ∧ (x s).source = s'

theorem gets_ret (a : α) (s : Source β) : (ret a).Gets s a s := ⟨rfl, rfl⟩

theorem bind_of_result {x : Reader β α} {g : α → Reader β γ} {s : Source β} {a : α}
    (h : (x s).result = some a) : x.bind g s = ⟨(g a (x s).source).result,
      (g a (x s).source).source, (x s).calls ++ (g a (x s).source).calls⟩ := by
  rw [bind]
  split
  · rename_i h'
    rw [h] at h'
    cases h'
  · rename_i a' h'
    obtain rfl : a = a' := Option.some.inj (h.symm.trans h')
    rfl

theorem Gets.bind {x : Reader β α} {g : α → Reader β γ} {s s' s'' : Source β} {a : α} {b : γ}
    (hx : x.Gets s a s') (hg : (g a).Gets s' b s'') : (x.bind g).Gets s b s'' := by
  obtain ⟨h1, rfl⟩ := hx
  obtain ⟨h2, rfl⟩ := hg
  rw [Gets, bind_of_result h1]
  exact ⟨h2, rfl⟩

theorem Gets.unique {x : Reader β α} {s s1 s2 : Source β} {a1 a2 : α} (h1 : x.Gets s a1 s1)
    (h2 : x.Gets s a2 s2) : a1 = a2 ∧ s1 = s2 :=
  ⟨Option.some.inj (h1.1.symm.trans h2.1), h1.2.symm.trans h2.2⟩

end Reader

/-! ### Reads that deliver less than they are asked for -/

/-- A stream that does not fail, with the most that each of the next reads delivers. Where the list
ends, everything asked for is delivered. -/
def Source.chopped (incoming : List β) (mosts : List Nat) : Source β :=
  ⟨incoming, mosts.map some, []⟩

/-- A stream whose reads deliver all they are asked for. -/
def Source.full (incoming : List β) : Source β := .chopped incoming []

@[simp] theorem Source.incoming_full (incoming : List β) : (full incoming).incoming = incoming :=
  rfl

/-- Reads that ask for `counts` get all of it. -/
def Uncut : List Nat → List Nat → Prop
  | count :: counts, most :: mosts => count ≤ max 1 most ∧ Uncut counts mosts
  | [], _ => True
  | _, [] => True

theorem uncut_nil (counts : List Nat) : Uncut counts [] := by
  cases counts <;> trivial

theorem uncut_append {counts counts' mosts : List Nat} :
    Uncut (counts ++ counts') mosts ↔
      Uncut counts mosts ∧ Uncut counts' (mosts.drop counts.length) := by
  induction counts generalizing mosts with
  | nil => simp [Uncut]
  | cons count counts ih =>
    cases mosts with
    | nil => simp [uncut_nil]
    | cons most mosts =>
      rw [List.cons_append, List.length_cons, List.drop_succ_cons, Uncut, Uncut, ih, and_assoc]

namespace Reader

theorem gets_read {bs : List β} {mosts : List Nat} (rest : List β)
    (h : Uncut [bs.length] mosts) :
    (read bs.length).Gets (.chopped (bs ++ rest) mosts) bs (.chopped rest (mosts.drop 1)) := by
  have hd : (Source.chopped (bs ++ rest) mosts).delivers bs.length = some bs := by
    cases mosts with
    | nil =>
      have hmin : min bs.length (max 1 bs.length) = bs.length := by omega
      show some ((bs ++ rest).take (min bs.length (max 1 bs.length))) = some bs
      rw [hmin, List.take_left]
    | cons most mosts =>
      have hmin : min bs.length (max 1 most) = bs.length := Nat.min_eq_left h.1
      show some ((bs ++ rest).take (min bs.length (max 1 most))) = some bs
      rw [hmin, List.take_left]
  constructor
  · exact hd
  · have hdrop : (bs ++ rest).drop bs.length = rest := List.drop_left
    simp only [read, hd, Option.elim_some]
    simp only [Source.chopped, hdrop, List.drop_one, List.map_tail]

theorem gets_read_full (bs rest : List β) :
    (read bs.length).Gets (.full (bs ++ rest)) bs (.full rest) := gets_read rest (uncut_nil _)

theorem gets_alloc (bs : List β) (mosts : List Nat) :
    alloc.Gets (.chopped bs mosts) () (.chopped bs mosts) := ⟨rfl, rfl⟩

end Reader

/-! ### What a program asks for -/

/-- The count of a read. -/
def SystemCall.asked : SystemCall β → Option Nat
  | read count _ => some count
  | alloc _ => none

def asks (calls : List (SystemCall β)) : List Nat := calls.filterMap SystemCall.asked

theorem asks_append (cs ds : List (SystemCall β)) : asks (cs ++ ds) = asks cs ++ asks ds :=
  List.filterMap_append

/-- The calls that lead from one source to another. -/
inductive Source.Calls : Source β → List (SystemCall β) → Source β → Prop where
  | nil {s : Source β} : Calls s [] s
  | read {s s' : Source β} {calls : List (SystemCall β)} (count : Nat)
      (h : Calls (Reader.read count s).source calls s') :
      Calls s (.read count (s.delivers count) :: calls) s'
  | alloc {s s' : Source β} {calls : List (SystemCall β)}
      (h : Calls (Reader.alloc s).source calls s') :
      Calls s (.alloc (s.allocations.headD true) :: calls) s'

theorem Source.Calls.append {s s' s'' : Source β} {cs ds : List (SystemCall β)}
    (h : Calls s cs s') (h' : Calls s' ds s'') : Calls s (cs ++ ds) s'' := by
  induction h with
  | nil => exact h'
  | read count _ ih => exact .read count (ih h')
  | alloc _ ih => exact .alloc (ih h')

namespace Reader

/-- The program touches its source with its calls only. -/
def Traced (x : Reader β α) : Prop := ∀ s, Source.Calls s (x s).calls (x s).source

theorem traced_ret (a : α) : (ret a : Reader β α).Traced := fun _ => .nil

theorem traced_read (count : Nat) : (read count : Reader β (List β)).Traced := fun _ =>
  .read count .nil

theorem traced_alloc : (alloc : Reader β Unit).Traced := fun _ => .alloc .nil

theorem Traced.bind {x : Reader β α} {g : α → Reader β γ} (hx : x.Traced)
    (hg : ∀ a, (g a).Traced) : (x.bind g).Traced := by
  intro s
  rw [Reader.bind]
  split
  · exact hx s
  · exact (hx s).append (hg _ _)

theorem asks_bind {x : Reader β α} {g : α → Reader β γ} {s : Source β} {b : γ}
    (h : (x.bind g s).result = some b) :
    ∃ a, (x s).result = some a ∧ (g a (x s).source).result = some b ∧
      asks (x.bind g s).calls = asks (x s).calls ++ asks (g a (x s).source).calls := by
  obtain ⟨a, hx, hg⟩ := result_bind.mp h
  refine ⟨a, hx, hg, ?_⟩
  rw [bind_of_result hx, asks_append]

end Reader

namespace Source.Calls

variable {s s' : Source β} {calls : List (SystemCall β)}

theorem length_le (h : s.Calls calls s') :
    s.incoming.length ≤ s'.incoming.length + (asks calls).sum := by
  induction h with
  | nil => omega
  | @read s s' calls count _ ih =>
    have hsum : (asks (.read count (s.delivers count) :: calls)).sum = count + (asks calls).sum := by
      simp [asks, SystemCall.asked]
    have hdrop : (Reader.read count s).source.incoming =
      s.incoming.drop ((s.delivers count).elim 0 List.length) := rfl
    have hle : (s.delivers count).elim 0 List.length ≤ count := by
      cases hd : s.delivers count with
      | none => exact Nat.zero_le _
      | some data =>
        obtain ⟨most, -, rfl⟩ := Option.map_eq_some_iff.mp hd
        rw [Option.elim_some, List.length_take]
        omega
    rw [hdrop, List.length_drop] at ih
    omega
  | alloc _ ih => exact ih

/-- Where the stream has lost all that was asked for, no read has come back with less. -/
theorem uncut (h : s.Calls calls s') {mosts : List Nat} (hs : s.reads = mosts.map some)
    (hlen : s.incoming.length = s'.incoming.length + (asks calls).sum) :
    Uncut (asks calls) mosts := by
  induction h generalizing mosts with
  | nil => trivial
  | @read s s' calls count h ih =>
    have hasks : asks (.read count (s.delivers count) :: calls) = count :: asks calls := rfl
    rw [hasks, List.sum_cons] at hlen
    rw [hasks]
    cases mosts with
    | nil => exact uncut_nil _
    | cons most mosts =>
      have hd : s.delivers count = some (s.incoming.take (min count (max 1 most))) := by
        rw [Source.delivers, hs]
        rfl
      have hrest : (Reader.read count s).source.incoming.length =
          s.incoming.length - min (min count (max 1 most)) s.incoming.length := by
        simp only [Reader.read, hd, Option.elim_some, List.length_take, List.length_drop]
      have hle := h.length_le
      have htail : (Reader.read count s).source.reads = mosts.map some := by
        show s.reads.tail = mosts.map some
        rw [hs]
        rfl
      exact ⟨by omega, ih htail (by omega)⟩
  | alloc _ ih => exact ih hs hlen

end Source.Calls

/-! ### Programs that do not mind -/

theorem Source.Calls.full {incoming : List β} {s' : Source β} {calls : List (SystemCall β)}
    (h : (Source.full incoming).Calls calls s') : s' = .full s'.incoming := by
  generalize hs : Source.full incoming = s at h
  have hempty : s.reads = [] ∧ s.allocations = [] := by
    rw [← hs]
    exact ⟨rfl, rfl⟩
  clear hs
  induction h with
  | @nil s => 
    obtain ⟨incoming, reads, allocations⟩ := s
    obtain ⟨rfl, rfl⟩ := hempty
    rfl
  | @read s s' calls count _ ih =>
    refine ih ⟨?_, hempty.2⟩
    show s.reads.tail = []
    rw [hempty.1]
    rfl
  | @alloc s s' calls _ ih =>
    refine ih ⟨hempty.1, ?_⟩
    show s.allocations.tail = []
    rw [hempty.2]
    rfl

namespace Reader

/-- What the program gets from reads that deliver everything, it gets from all reads that deliver
what it asks for. -/
structure Patient (x : Reader β α) : Prop where
  traced : x.Traced
  gets : ∀ incoming rest a mosts, x.Gets (.full incoming) a (.full rest) →
    incoming.length = rest.length + (asks (x (.full incoming)).calls).sum →
    Uncut (asks (x (.full incoming)).calls) mosts →
    x.Gets (.chopped incoming mosts) a
      (.chopped rest (mosts.drop (asks (x (.full incoming)).calls).length))

theorem patient_ret (a : α) : (ret a : Reader β α).Patient := by
  refine ⟨traced_ret a, ?_⟩
  rintro incoming rest a' mosts ⟨ha, hrest⟩ - -
  obtain rfl : a = a' := Option.some.inj ha
  obtain rfl : incoming = rest := congrArg Source.incoming hrest
  exact gets_ret a _

theorem patient_read (count : Nat) : (read count : Reader β (List β)).Patient := by
  refine ⟨traced_read count, ?_⟩
  rintro incoming rest data mosts hdata hlen hu
  have hasks : asks (read count (Source.full incoming)).calls = [count] := rfl
  rw [hasks] at hlen hu ⊢
  rw [List.sum_singleton] at hlen
  have hcount : count ≤ incoming.length := by omega
  have htake : (incoming.take count).length = count := List.length_take_of_le hcount
  have hfull := gets_read_full (incoming.take count) (incoming.drop count)
  have hchopped := gets_read (incoming.drop count) (htake.symm ▸ hu)
  rw [htake, List.take_append_drop] at hfull hchopped
  obtain ⟨rfl, hsame⟩ := hfull.unique hdata
  obtain rfl : incoming.drop count = rest := congrArg Source.incoming hsame
  exact hchopped

theorem patient_alloc : (alloc : Reader β Unit).Patient := by
  refine ⟨traced_alloc, ?_⟩
  rintro incoming rest _ mosts ⟨-, hrest⟩ - -
  obtain rfl : incoming = rest := congrArg Source.incoming hrest
  exact gets_alloc incoming mosts

theorem Patient.bind {x : Reader β α} {g : α → Reader β γ} (hx : x.Patient)
    (hg : ∀ a, (g a).Patient) : (x.bind g).Patient := by
  refine ⟨hx.traced.bind fun a => (hg a).traced, ?_⟩
  rintro incoming rest b mosts ⟨hb, hrest⟩ hlen hu
  obtain ⟨a, ha, hgb, hasks⟩ := asks_bind hb
  obtain ⟨mid, hmid⟩ : ∃ mid, (x (.full incoming)).source = .full mid :=
    ⟨_, (hx.traced _).full⟩
  have hlen1 := (hx.traced (.full incoming)).length_le
  have hlen2 := ((hg a).traced (.full mid)).length_le
  rw [bind_of_result ha] at hrest
  dsimp only at hrest
  rw [hmid] at hlen1 hgb hrest hasks
  rw [hrest] at hlen2
  rw [hasks, List.sum_append] at hlen
  rw [hasks, uncut_append] at hu
  rw [hasks, List.length_append, ← List.drop_drop]
  simp only [Source.incoming_full] at hlen1 hlen2
  -- together they have lost all that they asked for, and so has each of them
  have h1 := hx.gets incoming mid a mosts ⟨ha, hmid⟩ (by omega) hu.1
  exact h1.bind ((hg a).gets mid rest b _ ⟨hgb, hrest⟩ (by omega) hu.2)

theorem Patient.ite {c : Prop} [Decidable c] {x y : Reader β α} (hx : x.Patient)
    (hy : y.Patient) : (if c then x else y).Patient := by
  split
  · exact hx
  · exact hy

end Reader

end FileStorage.Channel
