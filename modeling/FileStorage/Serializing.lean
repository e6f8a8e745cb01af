import FileStorage.Atomic
import FileStorage.CreateAndLock
import FileStorage.Link

/-! Requests that run at the same time. Whatever the order in which they go through their critical
sections, the storage is as after a sequence of calls, one for each section. -/

namespace FileStorage

open Machine Prog

/-! ### The sections of a call -/

/-- `OPEN_FILE` with one flag for each section of the request. -/
def Request.parts (req : Request) : List Request :=
  ((readInt req.body).elim [] fun flags => [oCreate, oLock, oNoflag].filter fun flag =>
    chkFlag flags flag).map fun flag => { req with body := intBytes flag.toInt }

/-- The call that a call is in its section with this number. -/
def Call.piece : Call → Nat → Option Call
  | .lockManager, n => if n = 0 then some .lockManager else none
  | .request fd req, n =>
    if req.type = .openFile then req.parts[n]?.map (.request fd)
    else if n = 0 then some (.request fd req) else none

/-- The call is not a write that is too big for the storage, which removes the file after it has
released the mutex. -/
def Call.FitsIn (maxSize : Nat) : Call → Prop
  | .request _ req => req.type = .writeFile → req.body.length ≤ maxSize
  | .lockManager => True

instance (maxSize : Nat) : (c : Call) → Decidable (c.FitsIn maxSize)
  | .request _ req => inferInstanceAs (Decidable (req.type = .writeFile → req.body.length ≤ maxSize))
  | .lockManager => inferInstanceAs (Decidable True)

theorem sectional_single : Sectional fun _ p _ => p.single where
  crash _ := trivial
  map _ h := h.map
  enter h := h
  inside hp h := hp.single_bind h
  leave b := ⟨b, rfl⟩

section Handlers

variable {fd : Int} {req : Request} {w : StorageWorld}

theorem single_readFileHandler (req : Request) : (readFileHandler req).single := by
  refine (plain_requestPath req).single_bind fun path => sectional_single.enter ?_
  refine (plain_storageGetFile path).single_bind fun r => ?_
  cases r with
  | none => trivial
  | some i =>
    refine (plain_load i _).single_bind fun f => plain_alloc.single_bind fun b => ?_
    cases b with
    | false => trivial
    | true =>
      refine (plain_load i _).single_bind fun g => ?_
      cases copyBytes true g.contents f.size with
      | none => trivial
      | some buffer => exact ⟨_, rfl⟩

theorem idles_sendResponse (fd : Int) (status : ResponseCode) (filePath body : Bytes) :
    (sendResponse fd status filePath body).idles fun _ => True := by
  unfold sendResponse
  split
  · trivial
  · exact fun _ => trivial

theorem idles_sendFiles (fd : Int) (files : List FileId) :
    (sendFiles fd files).idles fun _ => True := by
  induction files with
  | nil => trivial
  | cons i files ih => exact ⟨rfl, fun s => (idles_sendResponse _ _ _ _).bind fun _ _ => ih⟩

theorem single_readNFilesHandler (fd : Int) (req : Request) : (readNFilesHandler fd req).single := by
  unfold readNFilesHandler
  cases readInt req.body with
  | none => trivial
  | some n =>
    refine fun s s' => (plain_collectFiles _ _).single_bind fun r => ?_
    by_cases hr : r.1 = true
    · refine ⟨(.success, []), ?_⟩
      simp only [hr, if_true]
      exact (idles_sendResponse _ _ _ _).bind fun _ _ => (idles_sendFiles fd r.2).bind fun _ _ => rfl
    · refine ⟨(.internalError, r.2), ?_⟩
      simp only [hr]
      rfl

theorem atomic_writeFileHandler (h : req.body.length ≤ w.state.maxSize) :
    (writeFileHandler fd req).atomic w := by
  refine atomic_after (plain_requestPath req) (readOnly_requestPath req) fun path w1 h1 => ?_
  by_cases hb : req.body = []
  · rw [if_pos hb]
    exact single.atomic (q := ret _) trivial w1
  rw [if_neg hb]
  refine atomic_enter fun w2 h2 => ?_
  refine atomic_after (plain_storageGetFile path) (readOnly_storageGetFile path) fun r w3 h3 => ?_
  cases r with
  | none => exact (sectional_single.leave _).atomic w3
  | some i =>
    refine atomic_after (plain_load i _) (readOnly_load i _) fun f w4 h4 => ?_
    by_cases hl : f.lockedBy ≠ fd
    · rw [if_pos hl]
      exact (sectional_single.leave _).atomic w4
    rw [if_neg hl]
    refine atomic_read ?_
    have hsame : w4.state = w.state := by rw [h4, h3, h2, h1]
    have hfits : ¬req.body.length > w4.state.maxSize := by
      rw [hsame]
      omega
    rw [id, if_neg hfits]
    exact (sectional_single.writeFileFitting fd i req.body).atomic _

end Handlers

/-- A call that has no sections but one. -/
theorem Call.atomic_prog {c : Call} {w : StorageWorld} (hf : c.FitsIn w.state.maxSize)
    (ho : ∀ fd req, c = .request fd req → req.type ≠ .openFile) : c.prog.atomic w := by
  cases c with
  | lockManager => exact sectional_single.lockManagerPass.map.atomic w
  | request fd req =>
    have hone : ∀ {α : Type} {p : ServerM α} {f : α → Reply}, p.single →
        ((p.bind fun a => ret (f a)).bind fun reply => ret (some reply)).atomic w :=
      fun hp => hp.map.map.atomic w
    simp only [prog, handle, bind_eq, pure_eq]
    cases ht : req.type with
    | openFile => exact absurd ht (ho fd req rfl)
    | closeFile => exact hone (sectional_single.closeFileHandler fd req)
    | writeFile => exact (atomic_writeFileHandler (hf ht)).map.map
    | appendToFile =>
      refine hone (sectional_single.appendToFileHandler (fun _ => trivial) (fun h => ?_) fd req)
      exact (plain_read _ _).single_bind h
    | readFile => exact hone (single_readFileHandler req)
    | readNFiles => exact hone (single_readNFilesHandler fd req)
    | removeFile => exact hone (sectional_single.removeFileHandler fd req)
    | lockFile => exact hone (sectional_single.lockFileHandler (fun _ => trivial) fd req)
    | unlockFile => exact hone (sectional_single.unlockFileHandler fd req)
    | openConnection => exact single.atomic (q := ret _) trivial w
    | closeConnection => exact single.atomic (q := ret _) trivial w

/-! ### The sections of `OPEN_FILE` -/

def openPart (fd : Int) (path : Option Path) (flag : Flags) : ServerM (Option ResponseCode) :=
  if flag = oCreate then openFileCreate path
  else if flag = oLock then openFileLock fd path
  else openFileNoflag path

/-- What is left of the request with these flags to come. -/
def openRest (fd : Int) (path : Option Path) : List Flags → ServerM ResponseCode
  | [] => ret .success
  | flag :: flags => (openPart fd path flag).bind fun r => r.elim (openRest fd path flags) ret

/-- The reply of a handler that has only a status, as the result of a call. -/
def replied (p : ServerM ResponseCode) : ServerM (Option Reply) :=
  (p.bind fun status => ret ⟨status, []⟩).bind fun reply => ret (some reply)

def flagsIn (flags : Flags) : List Flags := [oCreate, oLock, oNoflag].filter fun flag =>
  chkFlag flags flag

theorem closes_openPart (fd : Int) (path : Option Path) (flag : Flags) :
    (openPart fd path flag).closes := by
  unfold openPart
  split
  · exact sectional_closes.openFileCreate path
  · split
    · exact sectional_closes.openFileLock fd path
    · exact sectional_closes.openFileNoflag path

theorem result_openPart {α : Type} (fd : Int) (path : Option Path) (flag : Flags)
    (g : Option ResponseCode → ServerM α) : ((openPart fd path flag).bind g).result = none := by
  unfold openPart
  split
  · rfl
  · split <;> rfl

section Open

variable {fd : Nat} {req : Request} {path : Option Path} {flags : Flags}

theorem openFilePart_eq (flag : Bool) (part : ServerM (Option ResponseCode)) (rest : ServerM ResponseCode) :
    openFilePart flag part rest = if flag then part.bind fun r => r.elim rest ret else rest := by
  unfold openFilePart
  split
  · show part.bind _ = part.bind _
    congr 1
    funext r
    cases r <;> rfl
  · rfl

theorem prog_openFile (ht : req.type = .openFile) (hp : req.path = some path)
    (hb : readInt req.body = some flags) :
    (Call.request fd req).prog = replied (openRest fd path (flagsIn flags)) := by
  simp only [Call.prog, handle, ht, openFileHandler, openFileHandlerBy, requestPath, hp, hb,
    bind_eq, pure_eq, Prog.bind,
    openFilePart_eq, replied, flagsIn, List.filter_cons, List.filter_nil]
  cases chkFlag flags oCreate <;> cases chkFlag flags oLock <;> cases chkFlag flags oNoflag <;> rfl

theorem flagsIn_flag {flag : Flags} (h : flag ∈ flagsIn flags) :
    readInt (intBytes flag.toInt) = some flag ∧ flagsIn flag = [flag] := by
  have hmem := (List.mem_filter.mp h).1
  simp only [List.mem_cons, List.not_mem_nil, or_false] at hmem
  rcases hmem with rfl | rfl | rfl <;> decide

/-- One section of the request is the request with one flag. -/
theorem openRest_toRelease {flag : Flags} {rest : List Flags} {env env' : List Bool}
    {w w' : StorageWorld} {q : ServerM (Option Reply)}
    (h : (replied (openRest fd path (flag :: rest))).toRelease env w = some (q, w', env')) :
    ∃ r : Option ResponseCode, q = replied (r.elim (openRest fd path rest) ret) ∧
      (replied (openRest fd path [flag])).run env w = (.done (some ⟨r.getD .success, []⟩), w', env') := by
  simp only [replied, openRest, Prog.bind_assoc] at h ⊢
  obtain ⟨r, rfl, -, hrun⟩ := (closes_openPart fd path flag).toRelease_bind h
  refine ⟨r, rfl, ?_⟩
  rw [run_bind_done hrun]
  cases r <;> rfl

end Open

/-! ### Threads -/

/-- What is left of a call after so many sections, with the last reply that one of them would have
given as a call of its own. -/
inductive Stage (c : Call) (n : Nat) : ServerM (Option Reply) → Option (Option Reply) → Prop where
  | fresh (hn : n = 0) : Stage c n c.prog none
  | opening {fd : Nat} {req : Request} {path : Option Path} {flags : Flags} (hc : c = .request fd req)
      (ht : req.type = .openFile) (hp : req.path = some path) (hb : readInt req.body = some flags) :
      Stage c n (replied (openRest fd path ((flagsIn flags).drop n))) (some (some ⟨.success, []⟩))
  | ended {p : ServerM (Option Reply)} {r : Option Reply} (hp : p.idles fun b => b = r)
      (hd : p.result.isSome ∨ ∀ m, n ≤ m → c.piece m = none) : Stage c n p (some r)

section Stage

variable {c : Call} {n : Nat} {p q : ServerM (Option Reply)} {last : Option (Option Reply)}
  {env env' : List Bool} {v w w' : StorageWorld}

/-- A section of `OPEN_FILE`. -/
theorem stage_opening {fd : Nat} {req : Request} {path : Option Path} {flags : Flags}
    (ht : req.type = .openFile) (hp : req.path = some path) (hb : readInt req.body = some flags)
    (hres : (replied (openRest fd path ((flagsIn flags).drop n))).result = none)
    (h : (replied (openRest fd path ((flagsIn flags).drop n))).toRelease env w = some (q, w', env'))
    (hv : v.Same w) : ∃ d r, (Call.request fd req).piece n = some d ∧
      (d.prog.run env v).1 = .done r ∧ (d.prog.run env v).2.1.Same w' ∧
        Stage (.request fd req) (n + 1) q (some r) := by
  cases hd : (flagsIn flags).drop n with
  | nil =>
    rw [hd] at hres
    cases hres
  | cons flag rest =>
    rw [hd] at h
    obtain ⟨r, rfl, hrun⟩ := openRest_toRelease h
    have hget : (flagsIn flags)[n]? = some flag := by
      rw [← List.head?_drop, hd, List.head?_cons]
    have hmem : flag ∈ flagsIn flags := List.mem_of_getElem? hget
    obtain ⟨hread, hflags⟩ := flagsIn_flag hmem
    let part : Request := { req with body := intBytes flag.toInt }
    have hpart : req.parts[n]? = some part := by
      rw [Request.parts, hb]
      exact (List.getElem?_map ..).trans (congrArg _ hget)
    have hprog : (Call.request fd part).prog = replied (openRest fd path [flag]) := by
      have hone : (Call.request fd part).prog = replied (openRest fd path (flagsIn flag)) :=
        prog_openFile ht hp hread
      rw [hone, hflags]
    obtain ⟨hout, hsame⟩ := @run_congr _ _ _ _ (Call.request fd part).prog env _ _ hv
    rw [hprog, hrun] at hout hsame
    refine ⟨.request fd part, some ⟨r.getD .success, []⟩, ?_, ?_, ?_, ?_⟩
    · rw [Call.piece, if_pos ht, hpart, Option.map_some]
    · rw [hprog]
      exact hout
    · rw [hprog]
      exact hsame
    · cases r with
      | some status => exact .ended rfl (.inl rfl)
      | none =>
        have hrest : rest = (flagsIn flags).drop (n + 1) := by
          rw [← List.tail_drop, hd, List.tail_cons]
        rw [hrest]
        exact .opening rfl ht hp hb

/-- A step of a thread is a call, or nothing that the storage shows. -/
theorem Stage.step (hs : Stage c n p last) (hf : c.FitsIn w.state.maxSize) (hres : p.result = none)
    (h : p.toRelease env w = some (q, w', env')) (hv : v.Same w) :
    (c.piece n = none ∧ w'.Same w ∧ Stage c (n + 1) q last) ∨
      ∃ d r, c.piece n = some d ∧ (d.prog.run env v).1 = .done r ∧
        (d.prog.run env v).2.1.Same w' ∧ Stage c (n + 1) q (some r) := by
  cases hs with
  | fresh hn =>
    subst hn
    refine .inr ?_
    by_cases ho : ∃ fd req, c = .request fd req ∧ req.type = .openFile
    · obtain ⟨fd, req, rfl, ht⟩ := ho
      cases hp : req.path with
      | none =>
        simp [Call.prog, handle, ht, openFileHandler, openFileHandlerBy, requestPath, hp,
          Prog.bind, toRelease] at h
      | some path =>
        cases hb : readInt req.body with
        | none =>
          simp [Call.prog, handle, ht, openFileHandler, openFileHandlerBy, requestPath, hp, hb,
            Prog.bind, toRelease] at h
        | some flags =>
          rw [prog_openFile ht hp hb] at h hres
          exact stage_opening (n := 0) ht hp hb hres h hv
    · have hother : ∀ fd req, c = .request fd req → req.type ≠ .openFile := fun fd req hc ht =>
        ho ⟨fd, req, hc, ht⟩
      have hpiece : ∀ m, c.piece m = if m = 0 then some c else none := by
        intro m
        cases c with
        | lockManager => rfl
        | request fd req => rw [Call.piece, if_neg (hother fd req rfl)]
      obtain ⟨r, hr, hout, hsame⟩ := (Call.atomic_prog hf hother).run h hv
      refine ⟨c, r, hpiece 0, hout, hsame, .ended hr (.inr fun m hm => ?_)⟩
      rw [hpiece, if_neg (by omega)]
  | opening hc ht hp hb =>
    subst hc
    exact .inr (stage_opening ht hp hb hres h hv)
  | ended hp hd =>
    obtain ⟨hq, hsame⟩ := hp.toRelease h
    have hnone := hd.resolve_left (by simp [hres])
    exact .inl ⟨hnone n (Nat.le_refl n), hsame, .ended hq (.inr fun m hm => hnone m (by omega))⟩

/-- The reply of a thread that has ended. -/
theorem Stage.reply {r : Option Reply} (hs : Stage c n p last) (h : p.result = some r) :
    last = some r ∨ last = none ∧ c.prog = ret r := by
  cases hs with
  | fresh hn =>
    refine .inr ⟨rfl, ?_⟩
    cases hc : c.prog with
    | ret a =>
      rw [hc] at h
      exact congrArg _ (Option.some.inj h)
    | _ =>
      rw [hc] at h
      cases h
  | @opening fd req path flags hc ht hp hb =>
    refine .inl ?_
    cases hd : (flagsIn flags).drop n with
    | nil =>
      rw [hd] at h
      exact h
    | cons flag rest =>
      rw [hd, replied, openRest, Prog.bind_assoc, Prog.bind_assoc, result_openPart] at h
      cases h
  | ended hp hd => exact .inl (congrArg some (hp.result h).symm)

end Stage

/-! ### Interleavings -/

namespace CallPool

/-- The storage with the mutex, without the calls that are under way. -/
def server (s : CallPool) : Server := .ofWorld s.world

/-- The call that a step of the scheduler amounts to, with the thread that runs it. -/
def takes (s : CallPool) : Schedule Call → Option (Nat × Step)
  | .start _ => none
  | .run i env => (s.threads[i]?.bind fun t => t.label.piece t.done).map fun c => (i, ⟨c, env⟩)

/-- The calls of a run, in the order of the sections. -/
def serialized (h : List (CallPool × Schedule Call)) : List (Nat × Step) :=
  h.filterMap fun x => x.1.takes x.2

/-- No call is started that is too big for the storage, and the sections meet `C` as calls. -/
def Serially (C : Server → Step → Prop) (s : CallPool) : Schedule Call → Prop
  | .start c => c.FitsIn s.world.state.maxSize
  | .run i env => ∀ x ∈ s.takes (.run i env), C s.server x.2

/-- The replies to the calls of a thread. -/
def repliesTo (i : Nat) (log : List (Nat × Record)) : List (Option Reply) :=
  (log.filter fun x => x.1 = i).map fun x => x.2.reply

/-- The calls that make up a run, each with its thread. -/
structure Serialization (C : Server → Step → Prop) (server : Server)
    (h : List (CallPool × Schedule Call)) (s : CallPool) (log : List (Nat × Record)) : Prop where
  run : Run C server (log.map Prod.snd) s.server
  steps : (log.map fun x => (x.1, x.2.step)) = serialized h
  threads : ∀ i t, s.threads[i]? = some t →
    Stage t.label t.done t.rest (repliesTo i log).getLast? ∧ t.label.FitsIn server.storage.maxSize
  maxSize : s.world.state.maxSize = server.storage.maxSize
  started : ∀ x ∈ log, x.1 < s.threads.length

section

variable {C : Server → Step → Prop} {server : Server} {h : List (CallPool × Schedule Call)}
  {s s' : CallPool} {log : List (Nat × Record)}

theorem repliesTo_snoc (i : Nat) (log : List (Nat × Record)) (x : Nat × Record) :
    repliesTo i (log ++ [x]) = repliesTo i log ++ if x.1 = i then [x.2.reply] else [] := by
  rw [repliesTo, List.filter_append, List.map_append]
  by_cases hx : x.1 = i <;> simp [repliesTo, hx]

theorem serialized_snoc (h : List (CallPool × Schedule Call)) (s : CallPool) (a : Schedule Call) :
    serialized (h ++ [(s, a)]) = serialized h ++ (s.takes a).toList := by
  rw [serialized, serialized, List.filterMap_append, List.filterMap_cons, List.filterMap_nil]
  cases s.takes a <;> rfl

/-- A thread that goes on. -/
theorem step_run {i : Nat} {env : List Bool} (h : step s (.run i env) = some s') :
    ∃ t q w env', s.threads[i]? = some t ∧ t.rest.result = none ∧
      t.rest.toRelease env s.world = some (q, w, env') ∧
      s' = ⟨w, s.threads.set i ⟨t.label, t.done + 1, q⟩⟩ := by
  simp only [step, Pool.step] at h
  split at h
  · cases h
  · rename_i t ht
    split at h
    · cases h
    · rename_i hres
      obtain ⟨⟨q, w, env'⟩, hr, rfl⟩ := Option.map_eq_some_iff.mp h
      exact ⟨t, q, w, env', ht, by simpa using hres, hr, rfl⟩

theorem Serialization.start (hs : Serialization C server h s log) {c : Call}
    (hc : c.FitsIn s.world.state.maxSize) :
    Serialization C server (h ++ [(s, .start c)]) { s with threads := s.threads ++ [⟨c, 0, c.prog⟩] } log where
  run := hs.run
  steps := by
    rw [hs.steps, serialized_snoc]
    exact (List.append_nil _).symm
  threads i t ht := by
    rcases Nat.lt_or_ge i s.threads.length with hi | hi
    · rw [List.getElem?_append_left hi] at ht
      exact hs.threads i t ht
    · have hone : i - s.threads.length = 0 := by
        have := (List.getElem?_eq_some_iff.mp ht).1
        simp only [List.length_append, List.length_singleton] at this
        omega
      rw [List.getElem?_append_right hi, hone] at ht
      obtain rfl : ⟨c, 0, c.prog⟩ = t := Option.some.inj ht
      have hnone : repliesTo i log = [] := by
        rw [repliesTo, List.filter_eq_nil_iff.mpr, List.map_nil]
        intro x hx
        have := hs.started x hx
        simp only [decide_eq_true_eq]
        omega
      rw [hnone]
      exact ⟨.fresh rfl, hs.maxSize ▸ hc⟩
  maxSize := hs.maxSize
  started x hx := by
    have := hs.started x hx
    simp only [List.length_append]
    omega

theorem Serialization.threads_set (hs : Serialization C server h s log) {i : Nat}
    {t : Thread Call Storage Access (Int × Response) (Option Reply)} {q : ServerM (Option Reply)}
    {more : List (Nat × Record)} (ht : s.threads[i]? = some t) (hmore : ∀ x ∈ more, x.1 = i)
    (hq : Stage t.label (t.done + 1) q (repliesTo i (log ++ more)).getLast?) :
    ∀ j u, (s.threads.set i ⟨t.label, t.done + 1, q⟩)[j]? = some u →
      Stage u.label u.done u.rest (repliesTo j (log ++ more)).getLast? ∧
        u.label.FitsIn server.storage.maxSize := by
  intro j u hu
  have hi := (List.getElem?_eq_some_iff.mp ht).1
  by_cases hj : i = j
  · subst hj
    rw [List.getElem?_set_self hi] at hu
    obtain rfl := Option.some.inj hu
    exact ⟨hq, (hs.threads i t ht).2⟩
  · rw [List.getElem?_set_ne hj] at hu
    have hnone : (more.filter fun x => x.1 = j) = [] := by
      refine List.filter_eq_nil_iff.mpr fun x hx => ?_
      rw [hmore x hx]
      simpa using hj
    have hsame : repliesTo j (log ++ more) = repliesTo j log := by
      rw [repliesTo, List.filter_append, hnone, List.append_nil, repliesTo]
    rw [hsame]
    exact hs.threads j u hu

theorem Serialization.step (hi : server.Initial) (hs : Serialization C server h s log)
    {a : Schedule Call} (hc : s.Serially C a) (hstep : CallPool.step s a = some s') :
    ∃ log, Serialization C server (h ++ [(s, a)]) s' log := by
  cases a with
  | start c =>
    obtain rfl := Option.some.inj hstep
    exact ⟨log, hs.start hc⟩
  | run i env =>
    obtain ⟨t, q, w, env', ht, hres, hrel, rfl⟩ := step_run hstep
    obtain ⟨hstage, hfits⟩ := hs.threads i t ht
    have hv : s.server.world.Same s.world := ⟨rfl, rfl⟩
    have hlength : (s.threads.set i ⟨t.label, t.done + 1, q⟩).length = s.threads.length :=
      List.length_set
    rcases hstage.step (hs.maxSize ▸ hfits) hres hrel hv with
      ⟨hnone, hsame, hq⟩ | ⟨d, r, hpiece, hout, hsame, hq⟩
    · have htakes : s.takes (.run i env) = none := by
        rw [takes, ht, Option.bind_some, hnone, Option.map_none]
      refine ⟨log, ⟨?_, ?_, ?_, ?_, ?_⟩⟩
      · have hserver : Server.ofWorld w = s.server := by
          show (⟨w.state, w.held⟩ : Server) = ⟨s.world.state, s.world.held⟩
          rw [hsame.1, hsame.2]
        show Run C server _ (.ofWorld w)
        rw [hserver]
        exact hs.run
      · rw [hs.steps, serialized_snoc, htakes]
        exact (List.append_nil _).symm
      · have hset := @Serialization.threads_set _ _ _ _ _ hs _ _ q [] ht (by simp) (by rwa [List.append_nil])
        rwa [List.append_nil] at hset
      · show w.state.maxSize = _
        rw [hsame.1, hs.maxSize]
      · intro x hx
        rw [hlength]
        exact hs.started x hx
    · have htakes : s.takes (.run i env) = some (i, ⟨d, env⟩) := by
        rw [takes, ht, Option.bind_some, hpiece, Option.map_some]
      let world := (d.prog.run env s.server.world).2.1
      have hexec : s.server.exec ⟨d, env⟩ = some (r, world) := by
        rw [Server.exec]
        split
        · rename_i r' w1 env1 hrun
          have hr := congrArg Prod.fst hrun
          rw [hout] at hr
          obtain rfl := Outcome.done.inj hr
          exact congrArg (fun x => some (r, x.2.1)) hrun.symm
        · rename_i hno
          exact (hno r _ _ (Prod.ext hout rfl)).elim
      have hsound := hi.reachable_sound hs.run
      have hrun := Run.snoc hs.run (hc _ htakes) hexec
      have hserver : Server.ofWorld world = .ofWorld w := by
        rw [Server.ofWorld, Server.ofWorld, hsame.1, hsame.2]
      have hlast : (repliesTo i (log ++ [(i, ⟨⟨d, env⟩, r, world⟩)])).getLast? = some r := by
        rw [repliesTo_snoc, if_pos rfl, List.getLast?_append, List.getLast?_singleton, Option.some_or]
      refine ⟨log ++ [(i, ⟨⟨d, env⟩, r, world⟩)], ⟨?_, ?_, ?_, ?_, ?_⟩⟩
      · rw [List.map_append, List.map_singleton]
        show Run C server _ (.ofWorld w)
        rw [← hserver]
        exact hrun
      · rw [List.map_append, List.map_singleton, hs.steps, serialized_snoc, htakes]
        rfl
      · exact hs.threads_set ht (by simp) (by rwa [hlast])
      · have hmax : world.state.maxSize = s.server.storage.maxSize :=
          Catalog.Effect.maxSize (Server.exec_done hsound hexec).2
        show w.state.maxSize = _
        rw [← hsame.1, hmax]
        exact hs.maxSize
      · intro x hx
        rw [hlength]
        rcases List.mem_append.mp hx with hx | hx
        · exact hs.started x hx
        · rw [List.mem_singleton.mp hx]
          exact (List.getElem?_eq_some_iff.mp ht).1

end

theorem reaches_serialization {C : Server → Step → Prop} {server : Server} {s : CallPool}
    {h : List (CallPool × Schedule Call)} (hi : server.Initial)
    (hr : Reaches step (Serially C) (start server) h s) : ∃ log, Serialization C server h s log := by
  refine hr.invariant (I := fun h s => ∃ log, Serialization C server h s log) ?_ ?_
  · exact ⟨[], ⟨.nil, rfl, by simp [start], rfl, by simp⟩⟩
  · exact fun h t a u ht hc hstep => ht.elim fun log hs => hs.step hi hc hstep

/-- Requests that run at the same time leave the storage as the calls of their sections do, one after
the other, and reply as the last of these; an `OPEN_FILE` has a section for each of its flags, the
others have one. -/
theorem serializable {C : Server → Step → Prop} {server : Server} {s : CallPool}
    {h : List (CallPool × Schedule Call)} (hi : server.Initial)
    (hr : Reaches step (Serially C) (start server) h s) :
    ∃ log : List (Nat × Record), Run C server (log.map Prod.snd) s.server ∧
      (log.map fun x => (x.1, x.2.step)) = serialized h ∧
      ∀ i t r, s.threads[i]? = some t → t.rest.result = some r →
        (repliesTo i log).getLast? = some r ∨ repliesTo i log = [] ∧ t.label.prog = ret r := by
  obtain ⟨log, hs⟩ := reaches_serialization hi hr
  refine ⟨log, hs.run, hs.steps, fun i t r ht hres => ?_⟩
  rcases (hs.threads i t ht).1.reply hres with hlast | ⟨hnone, hprog⟩
  · exact .inl hlast
  · exact .inr ⟨List.getLast?_eq_none_iff.mp hnone, hprog⟩

instance (C : Server → Step → Prop) [∀ s x, Decidable (C s x)] (s : CallPool) :
    (a : Schedule Call) → Decidable (s.Serially C a)
  | .start c => inferInstanceAs (Decidable (c.FitsIn s.world.state.maxSize))
  | .run i env => inferInstanceAs (Decidable (∀ x ∈ s.takes (.run i env), C s.server x.2))

/-- Between the two sections of an open, another client locks the new file. -/
def overtaking : List (Schedule Call) :=
  [.start (Step.openFile 5 (slash 'a') 6).call, .start (Step.lockFile 7 (slash 'a')).call, .run 0 [],
    .run 1 [], .run 0 []]

theorem serializable_overtaken : ∃ (server : Server) (h : List (CallPool × Schedule Call))
    (s : CallPool) (log : List (Nat × Record)), server.Initial ∧
    Reaches step (Serially anyStep) (start server) h s ∧ h.map Prod.snd = overtaking ∧
    Run anyStep server (log.map Prod.snd) s.server ∧
    (log.map fun x => (x.1, x.2.step)) = serialized h ∧
    (s.catalog.get (slash 'a')).map File.lockedBy = some 5 := by
  obtain ⟨server, hi, hs⟩ := Server.exists_start 100 4 (fun server : Server =>
    (play step (Serially anyStep) (start server) overtaking).any fun s : CallPool =>
      decide ((s.catalog.get (slash 'a')).map File.lockedBy = some 5)) (by decide) (by decide)
  obtain ⟨h, s, hr, hm, hl⟩ := exists_run _ _ _ _ _ hs
  obtain ⟨log, hrun, hsteps, -⟩ := serializable hi hr
  exact ⟨server, h, s, log, hi, hr, hm, hrun, hsteps, of_decide_eq_true hl⟩

end CallPool

end FileStorage
