import FileStorage.Instructions

/-! The log of `server/logger.c`. Its functions write a record in three calls of `fprintf`, under the
mutex `log_file_mtx`. -/

namespace FileStorage

open Machine Prog

/-- `loglevel`. -/
inductive LogLevel where
  | fatal
  | error
  | info
  | warning
  | debug
  deriving DecidableEq

def LogLevel.toNat : LogLevel → Nat
  | fatal => 0
  | error => 1
  | info => 2
  | warning => 3
  | debug => 4

/-- `log_level`, and what has been written to the stream `log_file`, be it flushed or not. -/
structure LogFile where
  level : LogLevel
  text : String

abbrev LogM := Prog LogFile Unit Unit

/-- The local time of a call of `ftime`. -/
structure Clock where
  hour : Nat
  minute : Nat
  second : Nat
  milli : Nat
  deriving DecidableEq

/-- A number as `%0nu` prints it. -/
def padded (n value : Nat) : String :=
  let digits := Nat.toDigits 10 value
  String.ofList (List.replicate (n - digits.length) '0' ++ digits)

def getTimestamp (now : Clock) : String :=
  padded 2 now.hour ++ ":" ++ padded 2 now.minute ++ ":" ++ padded 2 now.second ++ "." ++
    padded 3 now.milli

def fprintf (text : String) : LogM Unit :=
  modify (fun _ => []) fun s => { s with text := s.text ++ text }

/-- What is flushed has been written before. -/
def fflush : LogM Unit := modify (fun _ => []) id

/-- What the functions of the log share. -/
def writeRecord (now : Clock) (head message : String) : LogM Int := do
  lockReturn
  fprintf (getTimestamp now ++ " ")
  fprintf head
  fprintf message
  unlockReturn
  fflush
  return 0

def atLevel (level : LogLevel) (p : LogM Int) : LogM Int := do
  let s ← read (fun _ => []) id
  if s.level.toNat ≥ level.toNat then p else return 0

def logfatal (file : String) (line : Int) (now : Clock) (message : String) : LogM Int :=
  writeRecord now (file ++ ":" ++ toString line ++ ": [ FATAL ERROR ] ") message

/-- The record of an error does not name the place it is made at. -/
def logerror (_ : String) (_ : Int) (now : Clock) (message : String) : LogM Int :=
  atLevel .error (writeRecord now "[ ERROR ] " message)

def loginfo (now : Clock) (message : String) : LogM Int :=
  atLevel .info (writeRecord now "[ INFO ] " message)

def logwarning (file : String) (line : Int) (now : Clock) (message : String) : LogM Int :=
  atLevel .warning (writeRecord now (file ++ ":" ++ toString line ++ ": [ WARNING ] ") message)

def logdebug (file : String) (line : Int) (now : Clock) (message : String) : LogM Int :=
  atLevel .debug (writeRecord now (file ++ ":" ++ toString line ++ ": ") message)

/-- A call of one of these functions, with its message as it is printed and the time at which it is. -/
structure LogCall where
  level : LogLevel
  file : String
  line : Int
  now : Clock
  message : String
  deriving DecidableEq

namespace LogCall

def prog (c : LogCall) : LogM Int :=
  match c.level with
  | .fatal => logfatal c.file c.line c.now c.message
  | .error => logerror c.file c.line c.now c.message
  | .info => loginfo c.now c.message
  | .warning => logwarning c.file c.line c.now c.message
  | .debug => logdebug c.file c.line c.now c.message

def head (c : LogCall) : String :=
  match c.level with
  | .fatal => c.file ++ ":" ++ toString c.line ++ ": [ FATAL ERROR ] "
  | .error => "[ ERROR ] "
  | .info => "[ INFO ] "
  | .warning => c.file ++ ":" ++ toString c.line ++ ": [ WARNING ] "
  | .debug => c.file ++ ":" ++ toString c.line ++ ": "

/-- The record of a call. -/
def record (c : LogCall) : String := getTimestamp c.now ++ " " ++ c.head ++ c.message

/-- A call at this level writes a record. -/
def Passes (level : LogLevel) (c : LogCall) : Prop := c.level.toNat ≤ level.toNat

instance (level : LogLevel) (c : LogCall) : Decidable (c.Passes level) :=
  inferInstanceAs (Decidable (_ ≤ _))

theorem prog_eq (c : LogCall) : c.prog = writeRecord c.now c.head c.message ∧ c.level = .fatal ∨
    c.prog = atLevel c.level (writeRecord c.now c.head c.message) := by
  obtain ⟨level, file, line, now, message⟩ := c
  cases level with
  | fatal => exact .inl ⟨rfl, rfl⟩
  | _ => exact .inr rfl

end LogCall

section Records

variable {level : LogLevel} {c : LogCall} {env : List Bool} {w : World LogFile Unit Unit}

theorem fenced_writeRecord (now : Clock) (head message : String) :
    (writeRecord now head message).fenced (fun s => s.level = level) false :=
  fun _ _ _ _ _ _ _ => ⟨rfl, .inr ⟨0, rfl, fun _ => rfl⟩⟩

theorem LogCall.fenced_prog (c : LogCall) : c.prog.fenced (fun s => s.level = level) false := by
  rcases c.prog_eq with ⟨h, -⟩ | h
  · rw [h]
    exact fenced_writeRecord _ _ _
  · rw [h]
    refine fenced_parameter (fun s t hs ht => ?_) fun s hs => .ite (fenced_writeRecord _ _ _) trivial
    simp only [id, hs, ht]

theorem preserves_writeRecord (now : Clock) (head message : String) :
    (writeRecord now head message).preserves fun s => s.level = level :=
  ⟨fun _ hs => hs, fun _ => ⟨fun _ hs => hs, fun _ => ⟨fun _ hs => hs, fun _ =>
    ⟨fun _ hs => hs, fun _ => trivial⟩⟩⟩⟩

theorem LogCall.preserves_prog (c : LogCall) : c.prog.preserves fun s => s.level = level := by
  rcases c.prog_eq with ⟨h, -⟩ | h
  · rw [h]
    exact preserves_writeRecord _ _ _
  · rw [h]
    refine preserves.bind (readOnly.preserves ⟨rfl, fun _ => trivial⟩) fun s => ?_
    exact .ite (preserves_writeRecord _ _ _) trivial

theorem toRelease_writeRecord {now : Clock} {head message : String} {q : LogM Int}
    {w' : World LogFile Unit Unit} {env' : List Bool} (hheld : w.held = false)
    (h : (writeRecord now head message).toRelease env w = some (q, w', env')) :
    w'.state = { w.state with text := w.state.text ++ (getTimestamp now ++ " " ++ head ++ message) } ∧
      w'.held = false ∧ q.idles fun r => r = 0 := by
  simp only [writeRecord, bind_eq, lockReturn, Prog.bind, toRelease, hheld, Bool.false_eq_true, if_false]
    at h
  obtain ⟨rfl, rfl, rfl⟩ := by simpa [fprintf, Prog.modify, Prog.bind, unlockReturn, toRelease] using h
  exact ⟨by simp [String.append_assoc], rfl, rfl, fun _ => rfl⟩

/-- What a call does in its section. -/
theorem LogCall.toRelease_prog {q : LogM Int} {w' : World LogFile Unit Unit} {env' : List Bool}
    (hlevel : w.state.level = level) (hheld : w.held = false)
    (h : c.prog.toRelease env w = some (q, w', env')) :
    w'.state = ⟨level, w.state.text ++ if c.Passes level then c.record else ""⟩ ∧ w'.held = false ∧
      q.idles fun r => r = 0 := by
  subst hlevel
  rcases c.prog_eq with ⟨hp, hfatal⟩ | hp
  · rw [hp] at h
    have hpass : c.Passes w.state.level := by
      rw [Passes, hfatal]
      exact Nat.zero_le _
    rw [if_pos hpass]
    exact toRelease_writeRecord hheld h
  · rw [hp] at h
    by_cases hpass : c.Passes w.state.level
    · rw [if_pos hpass]
      have hif : w.state.level.toNat ≥ c.level.toNat := hpass
      simp only [atLevel, Prog.read, bind_eq, Prog.bind, toRelease, id, if_pos hif] at h
      exact toRelease_writeRecord (w := w.accessed (fun _ => []) id) hheld h
    · rw [if_neg hpass]
      have hif : ¬w.state.level.toNat ≥ c.level.toNat := hpass
      simp only [atLevel, Prog.read, bind_eq, Prog.bind, toRelease, id, if_neg hif] at h
      obtain ⟨rfl, rfl, rfl⟩ := by simpa [toRelease] using h
      exact ⟨by simp [World.accessed], hheld, rfl⟩

end Records

/-! ### Runs -/

abbrev LogPool := Pool LogCall LogFile Unit Unit Int

namespace LogPool

def start (level : LogLevel) : LogPool := ⟨.init ⟨level, ""⟩, []⟩

def tick : LogPool → Tick LogCall → Option LogPool := Pool.tick LogCall.prog

/-- The calls among these that have written a record, each with its thread. -/
def recordsOf (level : LogLevel) (ended : List (Nat × LogCall × Nat)) : List (Nat × LogCall) :=
  ended.filterMap fun e => if e.2.2 = 0 ∧ e.2.1.Passes level then some (e.1, e.2.1) else none

/-- The calls that have written a record, in the order in which they have released the mutex. -/
def records (level : LogLevel) (h : List (LogPool × Tick LogCall)) : List (Nat × LogCall) :=
  recordsOf level (h.filterMap fun x => x.1.ended x.2)

/-- The records of a log have been written by the threads that have been through their section. -/
structure Logged (n : LogLevel) (log : List (Nat × LogCall)) (c : LogPool) : Prop where
  level : c.world.state.level = n
  free : c.world.held = false
  text : c.world.state.text = String.join (log.map fun e => e.2.record)
  fresh : ∀ (i : Nat) (t : Thread LogCall LogFile Unit Unit Int), c.threads[i]? = some t →
    t.done = 0 → t.rest = t.label.prog
  idle : ∀ (i : Nat) (t : Thread LogCall LogFile Unit Unit Int), c.threads[i]? = some t →
    t.done ≠ 0 → t.rest.idles fun r => r = 0
  written : ∀ (i : Nat) (t : Thread LogCall LogFile Unit Unit Int), c.threads[i]? = some t →
    (log.filter fun e => e.1 = i) = if t.done ≠ 0 ∧ t.label.Passes n then [(i, t.label)] else []
  nodup : (log.map Prod.fst).Nodup
  started : ∀ e ∈ log, e.1 < c.threads.length

section

variable {level : LogLevel} {log : List (Nat × LogCall)} {c c' : LogPool} {a : Schedule LogCall}

theorem join_append (xs ys : List String) :
    String.join (xs ++ ys) = String.join xs ++ String.join ys := by
  induction xs with
  | nil => simp
  | cons x xs ih => rw [List.cons_append, String.join_cons, ih, String.join_cons, String.append_assoc]

theorem recordsOf_singleton (i n : Nat) (x : LogCall) :
    recordsOf level [(i, x, n)] = if n = 0 ∧ x.Passes level then [(i, x)] else [] := by
  by_cases h : n = 0 ∧ x.Passes level <;> simp [recordsOf, h]

theorem Logged.init (level : LogLevel) : Logged level [] (start level) where
  level := rfl
  free := rfl
  text := rfl
  fresh i t h := by cases h
  idle i t h := by cases h
  written i t h := by cases h
  nodup := .nil
  started e he := by cases he

theorem Logged.start (hl : Logged level log c) (x : LogCall) :
    Logged level log ⟨c.world, c.threads ++ [⟨x, 0, x.prog⟩]⟩ := by
  have hcases : ∀ (i : Nat) (t : Thread LogCall LogFile Unit Unit Int),
      (c.threads ++ [⟨x, 0, x.prog⟩])[i]? = some t →
        c.threads[i]? = some t ∨ i = c.threads.length ∧ t = ⟨x, 0, x.prog⟩ := by
    intro i t ht
    rcases Nat.lt_or_ge i c.threads.length with hi | hi
    · rw [List.getElem?_append_left hi] at ht
      exact .inl ht
    · have hlen := (List.getElem?_eq_some_iff.mp ht).1
      simp only [List.length_append, List.length_singleton] at hlen
      obtain rfl : i = c.threads.length := by omega
      rw [List.getElem?_concat_length] at ht
      exact .inr ⟨rfl, (Option.some.inj ht).symm⟩
  refine ⟨hl.level, hl.free, hl.text, fun i t ht hd => ?_, fun i t ht hd => ?_, fun i t ht => ?_,
    hl.nodup, fun e he => ?_⟩
  · rcases hcases i t ht with h | ⟨-, rfl⟩
    · exact hl.fresh i t h hd
    · rfl
  · rcases hcases i t ht with h | ⟨-, rfl⟩
    · exact hl.idle i t h hd
    · exact absurd rfl hd
  · rcases hcases i t ht with h | ⟨rfl, rfl⟩
    · exact hl.written i t h
    · rw [if_neg (by simp), List.filter_eq_nil_iff]
      intro e he
      have := hl.started e he
      simp only [decide_eq_true_eq]
      omega
  · rw [List.length_append]
    exact Nat.lt_add_right _ (hl.started e he)

/-- A section writes the record of its call, and what comes after it nothing. -/
theorem Logged.section (hl : Logged level log c) {i : Nat} {env env' : List Bool}
    {t : Thread LogCall LogFile Unit Unit Int} {q : LogM Int} {w : World LogFile Unit Unit}
    (ht : c.threads[i]? = some t) (h : t.rest.toRelease env c.world = some (q, w, env')) :
    w.state.level = level ∧ w.held = false ∧ (q.idles fun r => r = 0) ∧
      w.state.text = c.world.state.text ++
        String.join ((recordsOf level [(i, t.label, t.done)]).map fun e => e.2.record) := by
  by_cases hd : t.done = 0
  · rw [hl.fresh i t ht hd] at h
    obtain ⟨hstate, hfree, hq⟩ := LogCall.toRelease_prog hl.level hl.free h
    refine ⟨by rw [hstate], hfree, hq, ?_⟩
    rw [hstate, recordsOf_singleton]
    by_cases hpass : t.label.Passes level <;> simp [hd, hpass]
  · obtain ⟨hq, hsame⟩ := (hl.idle i t ht hd).toRelease h
    refine ⟨by rw [hsame.1, hl.level], by rw [hsame.2, hl.free], hq, ?_⟩
    rw [hsame.1, recordsOf_singleton, if_neg fun h => hd h.1]
    simp

theorem Logged.step (hl : Logged level log c) (h : Pool.step LogCall.prog c a = some c') :
    Logged level (log ++ recordsOf level (c.ran a).toList) c' := by
  cases Pool.step_cases h with
  | start x =>
    have hnone : log ++ recordsOf level (c.ran (.start x)).toList = log := List.append_nil log
    rw [hnone]
    exact hl.start x
  | @run i env env' t q w ht hr =>
    have hi := (List.getElem?_eq_some_iff.mp ht).1
    have hran : (c.ran (.run i env)).toList = [(i, t.label, t.done)] := by
      rw [Pool.ran, ht]
      rfl
    obtain ⟨hlevel, hfree, hq, htext⟩ := hl.section ht hr
    rw [hran]
    have hset : ∀ (j : Nat) (u : Thread LogCall LogFile Unit Unit Int),
        (c.threads.set i ⟨t.label, t.done + 1, q⟩)[j]? = some u →
          i = j ∧ u = ⟨t.label, t.done + 1, q⟩ ∨ i ≠ j ∧ c.threads[j]? = some u := by
      intro j u hu
      by_cases hj : i = j
      · subst hj
        rw [List.getElem?_set_self hi] at hu
        exact .inl ⟨rfl, (Option.some.inj hu).symm⟩
      · rw [List.getElem?_set_ne hj] at hu
        exact .inr ⟨hj, hu⟩
    have hmore : ∀ e ∈ recordsOf level [(i, t.label, t.done)], e.1 = i := by
      intro e he
      rw [recordsOf_singleton] at he
      split at he
      · rw [List.mem_singleton.mp he]
      · cases he
    refine ⟨hlevel, hfree, ?_, fun j u hu hd => ?_, fun j u hu hd => ?_, fun j u hu => ?_, ?_,
      fun e he => ?_⟩
    · rw [htext, hl.text, List.map_append, join_append]
    · rcases hset j u hu with ⟨-, rfl⟩ | ⟨-, hu⟩
      · cases hd
      · exact hl.fresh j u hu hd
    · rcases hset j u hu with ⟨-, rfl⟩ | ⟨-, hu⟩
      · exact hq
      · exact hl.idle j u hu hd
    · rw [List.filter_append]
      rcases hset j u hu with ⟨rfl, rfl⟩ | ⟨hj, hu⟩
      · rw [hl.written i t ht, recordsOf_singleton]
        by_cases hd : t.done = 0 <;> by_cases hpass : t.label.Passes level <;> simp [hd, hpass]
      · have hnone : ((recordsOf level [(i, t.label, t.done)]).filter fun e => e.1 = j) = [] := by
          rw [List.filter_eq_nil_iff]
          intro e he
          rw [hmore e he]
          simpa using hj
        rw [hnone, List.append_nil, hl.written j u hu]
    · rw [List.map_append, recordsOf_singleton]
      split
      · rename_i hnew
        have hnone := hl.written i t ht
        rw [if_neg fun h => h.1 hnew.1, List.filter_eq_nil_iff] at hnone
        refine List.nodup_append.mpr ⟨hl.nodup, by simp, fun a ha b hb => ?_⟩
        obtain ⟨e, he, rfl⟩ := List.mem_map.mp ha
        obtain rfl : b = i := by simpa using hb
        simpa using hnone e he
      · simpa using hl.nodup
    · rw [List.length_set]
      rcases List.mem_append.mp he with he | he
      · exact hl.started e he
      · rw [hmore e he]
        exact hi

/-- The log of a run that is not interrupted in a section. -/
theorem logged_of_reaches {k : List (LogPool × Schedule LogCall)} {C : LogPool → Schedule LogCall → Prop}
    (hr : Reaches (Pool.step LogCall.prog) C (start level) k c) :
    Logged level (recordsOf level (k.filterMap fun x => x.1.ran x.2)) c := by
  refine hr.invariant (I := fun k c => Logged level (recordsOf level (k.filterMap fun x => x.1.ran x.2)) c)
    (.init level) ?_
  intro k t a u ht _ hs
  have hstep := ht.step hs
  rw [List.filterMap_append, recordsOf, List.filterMap_append]
  have hone : ([(t, a)] : List (LogPool × Schedule LogCall)).filterMap (fun x => x.1.ran x.2) =
      (t.ran a).toList := by
    rw [List.filterMap_cons, List.filterMap_nil]
    cases t.ran a <;> rfl
  rw [hone]
  exact hstep

end

/-- However the threads are interrupted, the log consists of whole records, in the order in which their
calls have released the mutex, and a call that has returned has written one if its level passes. -/
theorem log_records {level : LogLevel} {h : List (LogPool × Tick LogCall)} {s : LogPool}
    (hr : Reaches tick (fun _ _ => True) (start level) h s) :
    (s.world.held = false →
      s.world.state = ⟨level, String.join ((records level h).map fun e => e.2.record)⟩) ∧
    ((records level h).map Prod.fst).Nodup ∧
    ∀ i t r, s.threads[i]? = some t → t.rest.result = some r → r = 0 ∧
      ((records level h).filter fun e => e.1 = i) = if t.label.Passes level then [(i, t.label)] else [] := by
  have hlevel : (start level).world.state.level = level := rfl
  obtain ⟨k, c, owner, hk, hs, hends⟩ := Pool.exists_follows (I := fun s => s.level = level) hlevel
    (K := fun _ => True) (fun x _ => ⟨x.fenced_prog, x.preserves_prog⟩) (hr.mono fun _ _ _ _ _ => trivial)
  have hl := logged_of_reaches hk
  rw [hends] at hl
  refine ⟨fun hfree => ?_, hl.nodup, fun i t r ht hres => ?_⟩
  · rw [← (hs.same hfree).1, records, ← hl.text, ← hl.level]
  · obtain ⟨u, hu, hlabel, hres'⟩ := hs.result ht hres
    have hdone : u.done ≠ 0 := by
      intro hd
      rw [hl.fresh i u hu hd] at hres'
      rcases u.label.prog_eq with ⟨hp, -⟩ | hp <;> rw [hp] at hres' <;> cases hres'
    refine ⟨(hl.idle i u hu hdone).result hres', ?_⟩
    rw [records, hl.written i u hu, hlabel]
    simp [hdone]

def interrupted : List (Tick LogCall) :=
  [.start ⟨.info, "", 0, ⟨9, 30, 0, 7⟩, "new client"⟩, .start ⟨.error, "", 0, ⟨9, 30, 0, 8⟩, "no memory"⟩,
    .start ⟨.debug, "worker.c", 162, ⟨9, 30, 0, 9⟩, "opening"⟩] ++ List.replicate 3 (.instr 0 true) ++
    [.instr 1 true, .instr 2 true] ++ List.replicate 4 (.instr 0 true) ++ List.replicate 6 (.instr 1 true)

/-- A call is interrupted in its record by another one, which has to wait, and by one that is not of the
level of the log. -/
theorem log_records_interrupted : ∃ h s, Reaches tick (fun _ _ => True) (start .info) h s ∧
    h.map Prod.snd = interrupted ∧
    s.world.state = ⟨.info, String.join ((records .info h).map fun e => e.2.record)⟩ := by
  obtain ⟨h, s, hr, hm, hl⟩ := exists_run tick (fun _ _ => True) (start .info) interrupted
    (fun s : LogPool => !s.world.held) (by decide)
  exact ⟨h, s, hr, hm, (log_records hr).1 (by simpa using hl)⟩

end LogPool

end FileStorage
