import FileStorage.Client
import Mathlib.Logic.Relation

/-! `openConnection` and `closeConnection`, and what they leave in `socket_fd`. -/

namespace FileStorage

open Dialogue

namespace Api

/-- `sizeof(serveraddr.sun_path)`. -/
def sunPathSize : Nat := 108

/-- The loop of `openConnection`, for at most some number of rounds. `none` is a return from the
loop, and a number the value of `result` after it. -/
def connectLoop (abstime : Int) : Nat → Int → ClientM (Option Int)
  | 0, _ => crash
  | rounds + 1, currentTime => do
    -- `result` is the value of the comparison with -1, and not that of `connect`
    match ← connect with
    | .ok _ => return some 0
    | .error e => do
      setErrno e
      if currentTime < abstime then do
        match ← nanosleep with
        | .error e => do
          setErrno e
          setSocketFd (-1)
          return none
        | .ok _ => do
          match ← clockGettime with
          | .error e => do
            setErrno e
            setSocketFd (-1)
            return none
          | .ok now => connectLoop abstime rounds now
      else return some 1

/-- The time before the loop. The result of `clock_gettime` is not looked at. -/
def firstTime : ClientM Int := do
  match ← clockGettime with
  | .ok now => return now
  | .error e => do
    setErrno e
    indeterminate

def handshake (sockname : Path) : ClientM Int :=
  exchange ⟨.openConnection, [], []⟩ fun response =>
    match response.status with
    | .success => do
      if ← malloc then do
        setOpenedFiles (.live [])
        -- the copy of the name is written without a check
        if ← malloc then do
          modify fun c => { c with socketPath := some sockname }
          return 0
        else crash
      else do
        setOpenedFiles .null
        failWith .enomem
    | .internalError => failWith .econnaborted
    | _ => failWith .eprotonosupport

/-- `openConnection`; of `abstime` it looks at the seconds only. A name that does not fit
`sun_path` is copied over the end of it. -/
def openConnection (sockname : Option Path) (msec abstime : Int) (rounds : Nat) : ClientM Int :=
  match sockname with
  | none => failWith .einval
  | some sockname => do
    if msec < 0 then failWith .einval
    else if (← get).socketFd ≠ -1 then failWith .eisconn
    else checked socket fun fd =>
      if sockname.length < sunPathSize then do
        setSocketFd fd
        let currentTime ← firstTime
        match ← connectLoop abstime rounds currentTime with
        | none => return -1
        | some result => if result < 0 then failWith .econnrefused else handshake sockname
      else crash

def closeEach : List Path → ClientM Unit
  | [] => return ()
  | pathname :: rest => do
    setOpenedFiles (.live rest)
    let _ ← closeFile (some pathname)
    closeEach rest

/-- The loop of `closeConnection`. -/
def closeOpened : Pointer (List Path) → ClientM Unit
  | .null => return ()
  | .freed => crash
  | .live l => closeEach l

/-- `list_destroy(opened_files)`. -/
def destroyOpened : ClientM Unit := do
  let _ ← openedList
  setOpenedFiles .freed

def closeConnection (sockname : Option Path) : ClientM Int := do
  let c ← get
  match sockname, c.socketPath with
  | some name, some path =>
    if name ≠ path then failWith .einval
    else if c.socketFd = -1 then failWith .enotconn
    else do
      closeOpened c.openedFiles
      match ← sendRequest ⟨.closeConnection, [], []⟩ with
      | .error e => do
        setErrno e
        destroyOpened
        return -1
      | .ok _ => do
        destroyOpened
        return 0
  -- `strcmp` of the NULL pointer
  | _, _ => crash

end Api

inductive ConnectionCall where
  | openConnection (sockname : Option Path) (msec abstime : Int) (rounds : Nat)
  | closeConnection (sockname : Option Path)

def ConnectionCall.prog : ConnectionCall → ClientM Int
  | openConnection sockname msec abstime rounds => Api.openConnection sockname msec abstime rounds
  | closeConnection sockname => Api.closeConnection sockname

/-! ### What the system answers -/

/-- Every attempt to connect fails until the time is `abstime`; the first is made at `now`. -/
inductive TimesOut (abstime : Int) : Int → List Exchange → Prop where
  | last {now : Int} {e : Errno} {t : List Exchange} (h : ¬now < abstime) :
      TimesOut abstime now (⟨.connect, .error e⟩ :: t)
  | next {now now' : Int} {e : Errno} {t : List Exchange} (h : now < abstime)
      (ht : TimesOut abstime now' t) : TimesOut abstime now
        (⟨.connect, .error e⟩ :: ⟨.nanosleep, .ok ()⟩ :: ⟨.clockGettime, .ok now'⟩ :: t)

/-- An attempt to connect succeeds; the first is made at `now`. -/
inductive Connects (abstime : Int) : Int → List Exchange → Prop where
  | first {now : Int} {t : List Exchange} : Connects abstime now (⟨.connect, .ok ()⟩ :: t)
  | next {now now' : Int} {e : Errno} {t : List Exchange} (h : now < abstime)
      (ht : Connects abstime now' t) : Connects abstime now
        (⟨.connect, .error e⟩ :: ⟨.nanosleep, .ok ()⟩ :: ⟨.clockGettime, .ok now'⟩ :: t)

/-- `P` from the start of `openConnection`, which does not look at the result of its first
`clock_gettime`. -/
inductive FromStart (P : Int → List Exchange → Prop) : List Exchange → Prop where
  | clock {fd : Nat} {now : Int} {t : List Exchange} (h : P now t) :
      FromStart P (⟨.socket, .ok fd⟩ :: ⟨.clockGettime, .ok now⟩ :: t)
  | noClock {fd : Nat} {e : Errno} {now : Int} {t : List Exchange} (h : P now t) :
      FromStart P (⟨.socket, .ok fd⟩ :: ⟨.clockGettime, .error e⟩ :: ⟨.indeterminate, now⟩ :: t)

def Unreachable (abstime : Int) : List Exchange → Prop := FromStart (TimesOut abstime)

def Connected (abstime : Int) : List Exchange → Prop := FromStart (Connects abstime)

/-- A request is put on the socket. -/
def Sends (t : List Exchange) : Prop := ∃ request answer, ⟨.sendRequest request, answer⟩ ∈ t

/-- The handshake is sent and answered with `SUCCESS`, and there is memory for the rest. -/
def Welcomed (t : List Exchange) : Prop :=
  ∃ u response, response.status = .success ∧ t = u ++ [⟨.sendRequest ⟨.openConnection, [], []⟩, .ok ()⟩,
    ⟨.recvResponse, .ok response⟩, ⟨.alloc, true⟩, ⟨.alloc, true⟩]

/-- What a call promises: a connection that could not be opened, or has been closed, is gone, and a
server that cannot be reached is not sent anything. -/
def ConnectionCall.Honest (call : ConnectionCall) (c : Client) (t : List Exchange) (r : Int)
    (c' : Client) : Prop :=
  match call with
  | openConnection _ _ abstime _ => c.socketFd = -1 →
      (r = -1 → c'.socketFd = -1) ∧
        (Unreachable abstime t → r = -1 ∧ c'.errno = .econnrefused ∧ ¬Sends t)
  | closeConnection _ => c'.socketFd = -1

/-- No connection is closed. The attempts to connect do not fail until the time is up, and one that
succeeds is followed by a welcome. -/
def ConnectionCall.Untroubled (call : ConnectionCall) (c : Client) (t : List Exchange) : Prop :=
  match call with
  | openConnection _ _ abstime _ => c.socketFd = -1 →
      ¬Unreachable abstime t ∧ (Connected abstime t → Welcomed t)
  | closeConnection _ => c.socketFd = -1

theorem Sends.append {t u : List Exchange} : Sends (t ++ u) ↔ Sends t ∨ Sends u := by
  simp only [Sends, List.mem_append, exists_or]

theorem sends_cons {x : Exchange} {t : List Exchange} :
    Sends (x :: t) ↔ (∃ request answer, x = ⟨.sendRequest request, answer⟩) ∨ Sends t := by
  simp only [Sends, List.mem_cons, exists_or, eq_comm]

section

variable {c c' : Client} {t : List Exchange} {abstime now : Int}

/-- The three ways out of the loop. -/
theorem runs_connectLoop {rounds : Nat} {result : Option Int}
    (h : (Api.connectLoop abstime rounds now).Runs c t result c') :
    (∀ rest, TimesOut abstime now (t ++ rest) ↔ result = some 1) ∧
      (∀ rest, Connects abstime now (t ++ rest) ↔ result = some 0) ∧
      (result = none ∧ c'.socketFd = -1 ∨
        (result = some 0 ∨ result = some 1) ∧ c'.socketFd = c.socketFd) := by
  induction rounds generalizing now c t with
  | zero => exact absurd h not_runs_crash
  | succ rounds ih =>
    rw [Api.connectLoop, Api.connect, runs_question_bind] at h
    obtain ⟨x, t, rfl, h⟩ := h
    cases x with
    | ok _ =>
      obtain ⟨rfl, rfl, rfl⟩ := runs_pure.mp h
      refine ⟨fun rest => ?_, fun rest => ?_, .inr ⟨.inl rfl, rfl⟩⟩
      · refine iff_of_false (fun ht => ?_) (by simp)
        cases ht
      · exact iff_of_true .first rfl
    | error e =>
      dsimp only at h
      rw [Api.setErrno, runs_modify_bind] at h
      by_cases hnow : now < abstime
      · rw [if_pos hnow, Api.nanosleep, runs_question_bind] at h
        obtain ⟨x, t, rfl, h⟩ := h
        cases x with
        | error e' =>
          dsimp only at h
          rw [Api.setErrno, runs_modify_bind, Api.setSocketFd, runs_modify_bind] at h
          obtain ⟨rfl, rfl, rfl⟩ := runs_pure.mp h
          refine ⟨fun rest => ?_, fun rest => ?_, .inl ⟨rfl, rfl⟩⟩
          · refine iff_of_false (fun ht => ?_) (by simp)
            cases ht with
            | last hlast => exact hlast hnow
          · refine iff_of_false (fun ht => ?_) (by simp)
            cases ht
        | ok _ =>
          dsimp only at h
          rw [Api.clockGettime, runs_question_bind] at h
          obtain ⟨x, t, rfl, h⟩ := h
          cases x with
          | error e' =>
            dsimp only at h
            rw [Api.setErrno, runs_modify_bind, Api.setSocketFd, runs_modify_bind] at h
            obtain ⟨rfl, rfl, rfl⟩ := runs_pure.mp h
            refine ⟨fun rest => ?_, fun rest => ?_, .inl ⟨rfl, rfl⟩⟩
            · refine iff_of_false (fun ht => ?_) (by simp)
              cases ht with
              | last hlast => exact hlast hnow
            · refine iff_of_false (fun ht => ?_) (by simp)
              cases ht
          | ok now' =>
            obtain ⟨htime, hconnects, hends⟩ := ih h
            refine ⟨fun rest => ?_, fun rest => ?_, hends⟩
            · rw [← htime rest]
              constructor
              · intro ht
                cases ht with
                | last hlast => exact absurd hnow hlast
                | next _ ht => exact ht
              · exact fun ht => .next hnow ht
            · rw [← hconnects rest]
              constructor
              · intro ht
                cases ht with
                | next _ ht => exact ht
              · exact fun ht => .next hnow ht
      · rw [if_neg hnow] at h
        obtain ⟨rfl, rfl, rfl⟩ := runs_pure.mp h
        refine ⟨fun rest => iff_of_true (.last hnow) rfl,
          fun rest => iff_of_false (fun ht => ?_) (by simp), .inr ⟨.inr rfl, rfl⟩⟩
        cases ht with
        | next hnext _ => exact hnow hnext

theorem not_welcomed_of_getLast {x : Exchange} (h : t.getLast? = some x) (hx : x ≠ ⟨.alloc, true⟩)
    (u : List Exchange) : ¬Welcomed (u ++ t) := by
  rintro ⟨v, response, -, he⟩
  have hlast := congrArg List.getLast? he
  rw [List.getLast?_append, h, List.getLast?_append] at hlast
  exact hx (Option.some.inj hlast)

/-- The handshake returns 0 when it is welcomed, and -1 otherwise. -/
theorem runs_handshake {sockname : Path} {r : Int} (h : (Api.handshake sockname).Runs c t r c') :
    c'.socketFd = c.socketFd ∧ Sends t ∧ (r = 0 ∨ r = -1) ∧ ∀ u, Welcomed (u ++ t) ↔ r = 0 := by
  rw [Api.handshake, Api.runs_exchange] at h
  rcases h with ⟨e, rfl | rfl, rfl, rfl⟩ | ⟨response, t, rfl, h⟩
  · refine ⟨rfl, ⟨_, _, List.mem_cons_self⟩, .inr rfl, fun u => iff_of_false ?_ (by simp)⟩
    exact not_welcomed_of_getLast rfl (by simp) u
  · refine ⟨rfl, ⟨_, _, List.mem_cons_self⟩, .inr rfl, fun u => iff_of_false ?_ (by simp)⟩
    exact not_welcomed_of_getLast rfl (by simp) u
  · by_cases hs : response.status = .success
    · rw [hs] at h
      dsimp only at h
      rw [Api.malloc, runs_question_bind] at h
      obtain ⟨granted, t, rfl, h⟩ := h
      cases granted with
      | false =>
        rw [if_neg Bool.false_ne_true, Api.setOpenedFiles, runs_modify_bind] at h
        obtain ⟨rfl, rfl, rfl⟩ := Api.runs_failWith.mp h
        refine ⟨rfl, ⟨_, _, List.mem_cons_self⟩, .inr rfl, fun u => iff_of_false ?_ (by simp)⟩
        exact not_welcomed_of_getLast rfl (by simp) u
      | true =>
        rw [if_pos rfl, Api.setOpenedFiles, runs_modify_bind, runs_question_bind] at h
        obtain ⟨granted, t, rfl, h⟩ := h
        cases granted with
        | false =>
          rw [if_neg Bool.false_ne_true] at h
          exact absurd h not_runs_crash
        | true =>
          rw [if_pos rfl, runs_modify_bind] at h
          obtain ⟨rfl, rfl, rfl⟩ := runs_pure.mp h
          exact ⟨rfl, ⟨_, _, List.mem_cons_self⟩, .inl rfl, fun u =>
            iff_of_true ⟨u, response, hs, rfl⟩ rfl⟩
    · have hfail : ∃ e, (Api.failWith e).Runs c t r c' := by
        cases hst : response.status <;> rw [hst] at h <;> first
          | exact absurd hst hs
          | exact ⟨_, h⟩
      obtain ⟨e, hfail⟩ := hfail
      obtain ⟨rfl, rfl, rfl⟩ := Api.runs_failWith.mp hfail
      refine ⟨rfl, ⟨_, _, List.mem_cons_self⟩, .inr rfl, fun u => iff_of_false ?_ (by simp)⟩
      exact not_welcomed_of_getLast rfl (by simp) u

theorem runs_firstTime (h : Api.firstTime.Runs c t now c') :
    c'.socketFd = c.socketFd ∧ ∀ (P : Int → List Exchange → Prop) fd u,
      FromStart P (⟨.socket, .ok fd⟩ :: (t ++ u)) ↔ P now u := by
  rw [Api.firstTime, Api.clockGettime, runs_question_bind] at h
  obtain ⟨x, t, rfl, h⟩ := h
  cases x with
  | ok now' =>
    obtain ⟨rfl, rfl, rfl⟩ := runs_pure.mp h
    refine ⟨rfl, fun P fd u => ⟨fun hu => ?_, .clock⟩⟩
    cases hu with
    | clock hu => exact hu
  | error e =>
    dsimp only at h
    rw [Api.setErrno, runs_modify_bind] at h
    obtain ⟨rfl, rfl⟩ := runs_question.mp h
    refine ⟨rfl, fun P fd u => ⟨fun hu => ?_, .noClock⟩⟩
    cases hu with
    | noClock hu => exact hu

theorem not_fromStart_nil {P : Int → List Exchange → Prop} : ¬FromStart P [] := by
  intro h
  cases h

/-- A call that is disconnected before the handshake. -/
theorem honest_of_disconnected {r : Int} (hfd : c'.socketFd = -1) (hu : ¬Unreachable abstime t)
    (hc : ¬Connected abstime t) :
    ((r = -1 → c'.socketFd = -1) ∧
      (Unreachable abstime t → r = -1 ∧ c'.errno = .econnrefused ∧ ¬Sends t)) ↔
      (¬Unreachable abstime t ∧ (Connected abstime t → Welcomed t)) :=
  iff_of_true ⟨fun _ => hfd, fun h => absurd h hu⟩ ⟨hu, fun h => absurd h hc⟩

/-- `openConnection` of a client that is not connected keeps its promise exactly when the server is
not given up, and welcomes the client that has reached it. -/
theorem honest_openConnection {sockname : Option Path} {msec : Int} {rounds : Nat} {r : Int}
    (h : (Api.openConnection sockname msec abstime rounds).Runs c t r c') :
    (ConnectionCall.openConnection sockname msec abstime rounds).Honest c t r c' ↔
      (ConnectionCall.openConnection sockname msec abstime rounds).Untroubled c t := by
  refine forall_congr' fun hc => ?_
  cases sockname with
  | none =>
    obtain ⟨rfl, -, rfl⟩ := Api.runs_failWith.mp h
    exact honest_of_disconnected hc not_fromStart_nil not_fromStart_nil
  | some sockname =>
    rw [Api.openConnection] at h
    by_cases hm : msec < 0
    · rw [if_pos hm] at h
      obtain ⟨rfl, -, rfl⟩ := Api.runs_failWith.mp h
      exact honest_of_disconnected hc not_fromStart_nil not_fromStart_nil
    · rw [if_neg hm, runs_get_bind, if_neg (not_not.mpr hc), Api.runs_checked Api.puts_socket] at h
      rcases h with ⟨e, rfl, -, rfl⟩ | ⟨fd, t, rfl, h⟩
      · have hnone : ∀ {P : Int → List Exchange → Prop}, ¬FromStart P [⟨.socket, .error e⟩] := by
          intro P hu
          cases hu
        exact honest_of_disconnected hc hnone hnone
      · by_cases hlen : sockname.length < Api.sunPathSize
        · rw [if_pos hlen, Api.setSocketFd, runs_modify_bind] at h
          obtain ⟨now, u, c1, v, rfl, hnow, h⟩ := runs_bind.mp h
          obtain ⟨result, w, c2, t', rfl, hloop, h'⟩ := runs_bind.mp h
          obtain ⟨hfd1, hstart⟩ := runs_firstTime hnow
          obtain ⟨htime, hconnects, hends⟩ := runs_connectLoop hloop
          have hun := (hstart (TimesOut abstime) fd (w ++ t')).trans (htime t')
          have hco := (hstart (Connects abstime) fd (w ++ t')).trans (hconnects t')
          rcases hends with ⟨rfl, hfd2⟩ | ⟨hresult, hfd2⟩
          · obtain ⟨rfl, rfl, rfl⟩ := runs_pure.mp h'
            exact honest_of_disconnected hfd2 (fun hu => absurd (hun.mp hu) (by simp))
              fun hu => absurd (hco.mp hu) (by simp)
          · have hshake : (Api.handshake sockname).Runs c2 t' r c' := by
              rcases hresult with rfl | rfl
              · exact h'
              · exact h'
            obtain ⟨hfd3, hs3, hr, hwelcomed⟩ := runs_handshake hshake
            have hopen : c'.socketFd ≠ -1 := by
              have hfd : c'.socketFd = fd := hfd3.trans (hfd2.trans hfd1)
              omega
            have hw : Welcomed (⟨.socket, .ok fd⟩ :: (u ++ (w ++ t'))) ↔ r = 0 := by
              have happ : (⟨.socket, .ok fd⟩ :: (u ++ (w ++ t')) : List Exchange) =
                  ⟨.socket, .ok fd⟩ :: (u ++ w) ++ t' := by simp
              rw [happ]
              exact hwelcomed _
            have hsend : Sends (⟨.socket, .ok fd⟩ :: (u ++ (w ++ t'))) := by
              simp [sends_cons, Sends.append, hs3]
            rw [hw]
            constructor
            · rintro ⟨hret, hun'⟩
              exact ⟨fun hu => (hun' hu).2.2 hsend, fun _ => hr.resolve_right fun h => hopen (hret h)⟩
            · rintro ⟨hun', hall⟩
              have hreached : result = some 0 :=
                hresult.resolve_right fun h => hun' (hun.mpr h)
              have h0 := hall (hco.mpr hreached)
              exact ⟨fun h => by omega, fun hu => absurd hu hun'⟩
        · rw [if_neg hlen] at h
          exact absurd h not_runs_crash

theorem keeps_closeEach (l : List Path) : (Api.closeEach l).Keeps Client.socketFd := by
  induction l with
  | nil => exact keeps_pure
  | cons p l ih =>
    have hset : (Api.setOpenedFiles (.live l)).Keeps Client.socketFd := keeps_modify fun _ => rfl
    exact hset.bind fun _ => (Api.keeps_closeFile _).bind fun _ => ih

theorem keeps_closeOpened (l : Pointer (List Path)) : (Api.closeOpened l).Keeps Client.socketFd := by
  cases l with
  | null => exact keeps_pure
  | freed => exact keeps_crash
  | live l => exact keeps_closeEach l

theorem keeps_destroyOpened : Api.destroyOpened.Keeps Client.socketFd := by
  have hlist : Api.openedList.Keeps Client.socketFd := by
    refine keeps_get.bind fun c => ?_
    cases c.openedFiles with
    | live l => exact keeps_pure
    | null => exact keeps_crash
    | freed => exact keeps_crash
  have hset : (Api.setOpenedFiles .freed).Keeps Client.socketFd := keeps_modify fun _ => rfl
  exact hlist.bind fun _ => hset

theorem keeps_closeConnection (sockname : Option Path) :
    (Api.closeConnection sockname).Keeps Client.socketFd := by
  refine keeps_get.bind fun c => ?_
  cases sockname with
  | none => exact keeps_crash
  | some name =>
    cases c.socketPath with
    | none => exact keeps_crash
    | some path =>
      refine (Api.keeps_failWith _).ite ((Api.keeps_failWith _).ite ?_)
      refine (keeps_closeOpened _).bind fun _ => (keeps_question _).bind fun x => ?_
      cases x with
      | error e =>
        have hset : (Api.setErrno e).Keeps Client.socketFd := keeps_modify fun _ => rfl
        exact hset.bind fun _ => keeps_destroyOpened.bind fun _ => keeps_pure
      | ok _ => exact keeps_destroyOpened.bind fun _ => keeps_pure

end

/-! ### Sequences of calls -/

/-- Calls of `openConnection` and `closeConnection`, one after the other. -/
abbrev ConnectionSession := CallRun ConnectionCall.prog

/-- In a sequence of calls, those keep their promise that find nothing to close, and those that do
not run out of time and are welcomed where they connect. -/
theorem ConnectionSession.honest_iff {c c' : Client} {l : List (CallRecord ConnectionCall)}
    (h : ConnectionSession c l c') :
    ∀ x ∈ l, x.call.Honest x.before x.trace x.result x.after ↔
      x.call.Untroubled x.before x.trace := by
  induction h with
  | nil => simp
  | @cons c c' c'' call t r l hr h ih =>
    rw [List.forall_mem_cons]
    refine ⟨?_, ih⟩
    cases call with
    | openConnection sockname msec abstime rounds => exact honest_openConnection hr
    | closeConnection sockname =>
      have hkeep := keeps_closeConnection sockname _ _ _ _ hr
      show c'.socketFd = -1 ↔ c.socketFd = -1
      rw [hkeep]

/-- The server is away: the only attempt to connect fails when the time is up, and so does the
handshake that is sent all the same. -/
def refusedRecord : CallRecord ConnectionCall where
  call := .openConnection (some [0x73]) 0 0 1
  before := .init
  trace := [⟨.socket, .ok 3⟩, ⟨.clockGettime, .ok 1⟩, ⟨.connect, .error .econnrefused⟩,
    ⟨.sendRequest ⟨.openConnection, [], []⟩, .error .enotconn⟩]
  result := -1
  after := ⟨3, none, .null, .enotconn⟩

theorem runs_refusedRecord :
    refusedRecord.call.prog.Runs .init refusedRecord.trace (-1) refusedRecord.after :=
  runs_of_replay rfl

theorem honest_iff_refusedRecord :
    refusedRecord.call.Honest refusedRecord.before refusedRecord.trace refusedRecord.result
      refusedRecord.after ↔ refusedRecord.call.Untroubled refusedRecord.before refusedRecord.trace :=
  ConnectionSession.honest_iff (.cons runs_refusedRecord .nil) refusedRecord List.mem_cons_self

theorem not_honest_refusedRecord :
    ConnectionSession .init [refusedRecord] refusedRecord.after ∧
      ¬refusedRecord.call.Honest refusedRecord.before refusedRecord.trace refusedRecord.result
        refusedRecord.after := by
  refine ⟨.cons runs_refusedRecord .nil, fun h => ?_⟩
  have hfd : refusedRecord.after.socketFd = -1 := (h rfl).1 rfl
  exact absurd hfd (by decide)

end FileStorage
