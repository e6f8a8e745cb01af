import FileStorage.Realpath

/-! When the calls of the API come through a lost server and a path that is not on the disk. -/

namespace FileStorage

open Dialogue

/-! ### What has to come from outside -/

namespace Outside

/-- The response to a request, if it is sent and answered. -/
def exchange (o : Outside) : Option (Response × Outside) :=
  match o.sent, o.afterSend.response with
  | .ok _, .ok response => some (response, o.afterSend.afterResponse)
  | _, _ => none

/-- The list of opened files once `p` is in it, unless it could not be opened. -/
def opened (o : Outside) (l : List Path) (p : Path) : Option (List Path × Outside) :=
  if p ∈ l then some (l, o)
  else match o.exchange with
    | some (response, o') => if response.status = .success then some (l ++ [p], o') else none
    | none => none

def announced (o : Outside) (body : Bytes) : Nat × Outside :=
  match readInt body with
  | some n => (n.toInt.toNat, o)
  | none => ((o.indeterminate.headD 0).toNat, o.afterIndeterminate)

theorem announced_responses (o : Outside) (body : Bytes) :
    (o.announced body).2.responses = o.responses := by
  unfold announced
  split <;> rfl

/-- The list of opened files without a received one. -/
def without (o : Outside) (l : List Path) (file : Response) : List Path × Outside :=
  match file.path with
  | some none => (l, o)
  | some (some p) => (l.erase p, o)
  | none =>
    let index := o.indeterminate.headD 0
    (if 0 ≤ index ∧ index < l.length then l.eraseIdx index.toNat else l, o.afterIndeterminate)

/-- Every file that comes has a path, unless no file is open any more; a final response comes, and
it reports no success when a file has not come. -/
def Delivers (o : Outside) (l : List Path) : Nat → Prop
  | 0 => ∃ final, o.response = .ok final
  | n + 1 =>
    match o.response with
    | .error _ => ∃ final, o.afterResponse.response = .ok final ∧ final.status ≠ .success
    | .ok file => (file.filePath = [] → l = []) ∧
      (o.afterResponse.without l file).2.Delivers (o.afterResponse.without l file).1 n

/-- A response that announces expelled files says how many, and they are delivered. -/
def Expels (o : Outside) (l : List Path) (dirname : Option Path) (response : Response) : Prop :=
  response.status = .filesExpelled → (dirname = none ∨ o.directory = true) →
    response.body ≠ [] ∧
      (o.announced response.body).2.Delivers l (o.announced response.body).1

end Outside

/-- The path can be compared with the files that are open. -/
def Client.Comparable (c : Client) (absolutePath : Option Path) : Prop :=
  ∃ l, c.openedFiles = .live l ∧ (absolutePath = none → l = [])

namespace ApiCall

/-- The checks at the start of the call fail. -/
def Refused (c : Client) : ApiCall → Prop
  | readNFiles N _ => N < 0 ∨ c.socketFd = -1
  | appendToFile pathname _ buf _ => buf = none ∨ pathname = none ∨ c.socketFd = -1
  | readFile pathname _ | writeFile pathname _ _ | lockFile pathname _ | unlockFile pathname _
  | removeFile pathname _ | closeFile pathname _ => pathname = none ∨ c.socketFd = -1

/-- What the call needs once the checks are passed. -/
def Safe (c : Client) (o : Outside) : ApiCall → Prop
  | readFile _ absolutePath | lockFile _ absolutePath | unlockFile _ absolutePath
  | removeFile _ absolutePath => c.Comparable absolutePath
  | closeFile _ absolutePath => absolutePath ≠ none
  | readNFiles _ dirname => ∀ response o', o.exchange = some (response, o') →
      response.status = .success → (dirname = none ∨ o'.directory = true) →
        response.body ≠ [] ∧ ∀ k < (o'.announced response.body).1,
          ∃ file, o'.responses[k]? = some (.ok file)
  | writeFile _ absolutePath dirname => absolutePath = none ∨ (∃ e, o.disk = .error e) ∨
      ∃ l, c.openedFiles = .live l ∧ ∀ p, absolutePath = some p →
        ∀ l' o', o.opened l p = some (l', o') →
          ∀ response o'', o'.exchange = some (response, o'') → o''.Expels l' dirname response
  | appendToFile _ absolutePath _ dirname =>
      ∃ l, c.openedFiles = .live l ∧ (absolutePath = none → l = []) ∧
        ∀ p, absolutePath = some p → ∀ l' o', o.opened l p = some (l', o') →
          ∀ response o'', o'.exchange = some (response, o'') → o''.Expels l' dirname response

end ApiCall

/-! ### The parts -/

/-- The call completes with the last response. -/
def Seen.Granted (seen : Seen) : Prop :=
  seen.failed = false ∧ ∃ response, seen.received.getLast? = some response ∧ response.status = .success

theorem Seen.granted_receives {seen : Seen} {response : Response} :
    (seen.receives response).Granted ↔ seen.failed = false ∧ response.status = .success := by
  simp [Seen.Granted, Seen.receives]

namespace Realpath

open Api

variable {P : Int → Client → Outside × Seen → Prop} {c : Client} {o : Outside} {seen : Seen}
  {u : Outside × Seen}

theorem meets_setErrno {e : Errno} {P : Unit → Client → Outside × Seen → Prop} :
    (setErrno e).Meets answer P c u ↔ P () { c with errno := e } u := meets_modify

theorem meets_setOpenedFiles {l : Pointer (List Path)} {P : Unit → Client → Outside × Seen → Prop} :
    (setOpenedFiles l).Meets answer P c u ↔ P () { c with openedFiles := l } u := meets_modify

theorem meets_malloc {P : Bool → Client → Outside × Seen → Prop} :
    malloc.Meets answer P c u ↔ P true c u := meets_question rfl

theorem meets_note {e : FileEvent} {P : Unit → Client → Outside × Seen → Prop} :
    (note e).Meets answer P c u ↔ P () c u := meets_question rfl

theorem meets_failWith (hP : ∀ c u, P (-1) c u) (e : Errno) : (failWith e).Meets answer P c u := by
  rw [failWith, meets_bind, meets_setErrno, meets_pure]
  exact hP _ _

theorem meets_openedList {P : List Path → Client → Outside × Seen → Prop} :
    openedList.Meets answer P c u ↔ ∃ l, c.openedFiles = .live l ∧ P l c u := by
  rw [openedList, meets_bind, meets_get]
  cases c.openedFiles with
  | live l => simp
  | _ => simp

theorem meets_onFile (hP : ∀ c u, P (-1) c u) {pathname : Option Path} {k : Path → ClientM Int} :
    (onFile pathname k).Meets answer P c u ↔
      ∀ p, pathname = some p → c.socketFd ≠ -1 → (k p).Meets answer P c u := by
  cases pathname with
  | none => simp [onFile, meets_failWith hP]
  | some p =>
    rw [onFile, meets_bind, meets_get, meets_ite]
    simp [meets_failWith hP]

theorem meets_switch (hP : ∀ c u, P (-1) c u) {response : Response} {success : ClientM Int}
    {arms : List (ResponseCode × Errno)} :
    (switch response success arms).Meets answer P c u ↔
      (response.status = .success → success.Meets answer P c u) := by
  rw [switch, meets_ite]
  simp [meets_failWith hP]

theorem meets_recvResponse_error {P : Except Errno Response → Client → Outside × Seen → Prop} {e : Errno}
    (h : o.response = .error e) :
    recvResponse.Meets answer P c (o, seen) ↔ P (.error e) c (o.afterResponse, seen.fails) :=
  meets_question (by rw [answer, h])

theorem meets_recvResponse_ok {P : Except Errno Response → Client → Outside × Seen → Prop}
    {response : Response} (h : o.response = .ok response) : recvResponse.Meets answer P c (o, seen) ↔
      P (.ok response) c (o.afterResponse, seen.receives response) :=
  meets_question (by rw [answer, h])

theorem meets_exchange (hP : ∀ c u, P (-1) c u) {request : Request} {k : Response → ClientM Int} :
    (exchange request k).Meets answer P c (o, seen) ↔ ∀ response o', o.exchange = some (response, o') →
      (k response).Meets answer P c (o', seen.receives response) := by
  have hsend : answer (.sendRequest request) (o, seen) = some (o.sent, o.afterSend, seen.after o.sent) :=
    rfl
  rw [exchange, checked, meets_bind, sendRequest, meets_question hsend, Outside.exchange]
  cases hs : o.sent with
  | error e => simp [meets_failWith hP]
  | ok x =>
    simp only [checked, meets_bind, Seen.after]
    cases hr : o.afterSend.response with
    | error e =>
      rw [meets_recvResponse_error hr]
      simp [meets_failWith hP]
    | ok response =>
      rw [meets_recvResponse_ok hr]
      simp

theorem meets_listFind_null {P : Bool → Client → Outside × Seen → Prop} :
    (listFind none).Meets answer P c u ↔
      c.openedFiles = .live [] ∧ P false { c with errno := .enoent } u := by
  rw [listFind, meets_bind, meets_openedList]
  constructor
  · rintro ⟨l, hl, h⟩
    rw [meets_ite, meets_bind, meets_setErrno, meets_pure] at h
    have hnil : l = [] := by
      by_contra hne
      exact meets_crash (h.2 hne)
    exact ⟨hnil ▸ hl, h.1 hnil⟩
  · rintro ⟨hl, h⟩
    exact ⟨[], hl, by simpa [meets_setErrno] using h⟩

theorem meets_listFind {P : Bool → Client → Outside × Seen → Prop} {p : Path} :
    (listFind (some p)).Meets answer P c u ↔ ∃ l, c.openedFiles = .live l ∧ (p ∈ l → P true c u) ∧
      (p ∉ l → P false { c with errno := .enoent } u) := by
  rw [listFind, meets_bind, meets_openedList]
  refine exists_congr fun l => and_congr_right fun _ => ?_
  rw [meets_ite, meets_pure, meets_bind, meets_setErrno, meets_pure]

theorem meets_insertOpened {P : Bool → Client → Outside × Seen → Prop} {l : List Path} {p : Path}
    (hl : c.openedFiles = .live l) :
    (insertOpened p).Meets answer P c u ↔ P true { c with openedFiles := .live (l ++ [p]) } u := by
  rw [insertOpened, meets_bind, meets_get, hl]
  simp [meets_malloc, meets_setOpenedFiles]

theorem meets_openFile (hP : ∀ c u, P (-1) c u) {l : List Path} {absolutePath : Option Path}
    {flags : Int} (hl : c.openedFiles = .live l) (hc : c.socketFd ≠ -1) :
    (openFile absolutePath flags).Meets answer P c (o, seen) ↔
      ∀ p, absolutePath = some p → ∀ response o', o.exchange = some (response, o') →
        response.status = .success →
          P 0 { c with openedFiles := .live (l ++ [p]) } (o', seen.receives response) := by
  rw [openFile, meets_onFile hP]
  simp only [meets_exchange hP, meets_switch hP, meets_bind, meets_malloc, meets_insertOpened hl,
    meets_note, meets_pure, if_true]
  exact forall₂_congr fun p hp => ⟨fun h => h hc, fun h _ => h⟩

theorem meets_openFile_bind (hP : ∀ c u, P (-1) c u) {l : List Path} {absolutePath : Option Path}
    {flags : Int} {k : ClientM Int} (hl : c.openedFiles = .live l) (hc : c.socketFd ≠ -1) :
    (openFile absolutePath flags >>= fun result => if result ≠ 0 then pure (-1) else k).Meets answer P c
        (o, seen) ↔
      ∀ p, absolutePath = some p → ∀ response o', o.exchange = some (response, o') →
        response.status = .success →
          k.Meets answer P { c with openedFiles := .live (l ++ [p]) } (o', seen.receives response) := by
  let R : Int → Client → Outside × Seen → Prop := fun result c u =>
    (if result ≠ 0 then pure (-1) else k).Meets answer P c u
  have hR : ∀ c u, R (-1) c u := fun c u => meets_pure.mpr (hP c u)
  rw [meets_bind]
  exact meets_openFile hR hl hc

/-- The rest of the call, when it needs the same whatever `errno` is and whichever responses have
come. -/
theorem meets_ensureOpened (hP : ∀ c u, P (-1) c u) {absolutePath : Option Path} {flags : Int}
    {k : Path → ClientM Int} {Q : Path → List Path → Outside → Prop} (hc : c.socketFd ≠ -1)
    (hseen : seen.failed = false)
    (hk : ∀ p l c' o' seen', absolutePath = some p → c'.openedFiles = .live l →
      seen'.failed = false → ((k p).Meets answer P c' (o', seen') ↔ Q p l o')) :
    (ensureOpened absolutePath flags k).Meets answer P c (o, seen) ↔
      ∃ l, c.openedFiles = .live l ∧ (absolutePath = none → l = []) ∧
        ∀ p, absolutePath = some p → ∀ l' o', o.opened l p = some (l', o') → Q p l' o' := by
  rw [ensureOpened, meets_bind]
  cases absolutePath with
  | none =>
    rw [meets_listFind_null]
    constructor
    · rintro ⟨hl, -⟩
      exact ⟨[], hl, fun _ => rfl, by simp⟩
    · rintro ⟨l, hl, hnil, -⟩
      obtain rfl := hnil rfl
      have hl' : ({ c with errno := .enoent } : Client).openedFiles = .live [] := hl
      refine ⟨hl, ?_⟩
      rw [if_neg Bool.false_ne_true]
      exact (meets_openFile_bind hP hl' hc).mpr (by simp)
  | some p =>
    rw [meets_listFind]
    refine exists_congr fun l => and_congr_right fun hl => ?_
    have hl' : ({ c with errno := .enoent } : Client).openedFiles = .live l := hl
    have hopen := @meets_openFile_bind P _ o seen hP l (some p) flags (k p) hl' hc
    simp only [if_true, Bool.false_eq_true, if_false, reduceCtorEq, false_implies, true_and,
      Option.some.injEq, forall_eq', strlen] at hopen ⊢
    rw [hopen, Outside.opened]
    by_cases hp : p ∈ l
    · simp [hp, hk p l c o seen rfl hl hseen]
    · simp only [hp, false_implies, true_and, not_false_eq_true, true_implies, if_false]
      cases hx : o.exchange with
      | none => simp
      | some x =>
        obtain ⟨response, o'⟩ := x
        by_cases hs : response.status = .success
        · have hkeep := hk p (l ++ [p]) { c with errno := .enoent, openedFiles := .live (l ++ [p]) } o'
            (seen.receives response) rfl rfl hseen
          simp [hs, hkeep]
        · simp [hs]

theorem meets_writeFileInDirectory {P : Unit → Client → Outside × Seen → Prop}
    {dirname : Option Path} : (writeFileInDirectory dirname).Meets answer P c u ↔ P () c u := by
  cases dirname with
  | none => exact meets_pure
  | some d =>
    rw [writeFileInDirectory, meets_bind, meets_malloc, if_pos rfl]
    exact meets_pure

/-- The rest, when it needs the same whatever `errno` is. -/
theorem meets_removeReceived {P : Unit → Client → Outside × Seen → Prop} {l : List Path}
    {file : Response} {need : Prop} (hl : c.openedFiles = .live l)
    (hneed : ∀ c', c'.openedFiles = .live (o.without l file).1 →
      (P () c' ((o.without l file).2, seen) ↔ need)) :
    (removeReceived file).Meets answer P c (o, seen) ↔ (file.filePath = [] → l = []) ∧ need := by
  have hnull : file.path = some none ↔ file.filePath = [] := by
    unfold Response.path Request.path
    split
    · simp_all
    · split <;> simp_all
  unfold removeReceived
  cases hpath : file.path with
  | none =>
    have hpath' : file.filePath ≠ [] := by simp [← hnull, hpath]
    have hindex : answer .indeterminate (o, seen) =
      some (o.indeterminate.headD 0, o.afterIndeterminate, seen) := rfl
    simp only [meets_bind, meets_openedList, indeterminate]
    simp only [meets_question hindex, meets_ite, meets_bind, meets_setOpenedFiles, meets_note,
      meets_setErrno]
    simp only [Outside.without, hpath] at hneed
    simp only [hpath', false_implies, true_and, hl, Pointer.live.injEq, exists_eq_left']
    by_cases hi : 0 ≤ o.indeterminate.headD 0 ∧ o.indeterminate.headD 0 < l.length
    · simp only [hi, and_self, true_implies, not_true_eq_false, false_implies, and_true, if_true] at hneed ⊢
      exact hneed _ rfl
    · simp only [hi, not_false_eq_true, true_implies, false_implies, true_and, if_false] at hneed ⊢
      exact hneed _ rfl
  | some path =>
    cases path with
    | none =>
      have hpath' : file.filePath = [] := hnull.mp hpath
      simp only [Outside.without, hpath] at hneed
      simp only [removeOpened, meets_bind, meets_openedList, hl, Pointer.live.injEq, exists_eq_left']
      simp only [meets_ite, meets_setErrno, hpath', true_implies]
      constructor
      · rintro ⟨h, hcrash⟩
        have hnil : l = [] := by
          by_contra hne
          exact meets_crash (hcrash hne)
        exact ⟨hnil, (hneed { c with errno := .enoent } hl).mp (h hnil)⟩
      · rintro ⟨hnil, h⟩
        exact ⟨fun _ => (hneed { c with errno := .enoent } hl).mpr h, fun hne => absurd hnil hne⟩
    | some p =>
      have hpath' : file.filePath ≠ [] := by simp [← hnull, hpath]
      simp only [Outside.without, hpath] at hneed
      simp only [removeOpened, meets_bind, meets_openedList, hl, Pointer.live.injEq, exists_eq_left']
      simp only [meets_ite, meets_setErrno, meets_setOpenedFiles, meets_note, hpath', false_implies,
        true_and]
      by_cases hp : p ∈ l
      · simpa [hp] using hneed _ rfl
      · rw [List.erase_of_not_mem hp] at hneed
        simpa [hp] using hneed { c with errno := .enoent } hl

variable {arms : List (ResponseCode × Errno)} {dirname : Option Path} {l : List Path}

theorem meets_recvFinal (hP : ∀ result c u, P result c u ↔ (¬u.2.Granted → result = -1)) :
    (recvFinal arms).Meets answer P c (o, seen) ↔
      ∃ final, o.response = .ok final ∧ (seen.failed = true → final.status ≠ .success) := by
  have hP' : ∀ c u, P (-1) c u := by simp [hP]
  rw [recvFinal, meets_bind]
  cases hr : o.response with
  | error e =>
    rw [meets_recvResponse_error hr]
    simp
  | ok final =>
    rw [meets_recvResponse_ok hr]
    simp only [meets_switch hP', meets_pure, hP, Seen.granted_receives, Except.ok.injEq, exists_eq_left']
    cases seen.failed <;> simp

theorem meets_recvExpelled (hP : ∀ result c u, P result c u ↔ (¬u.2.Granted → result = -1)) (n : Nat)
    (hl : c.openedFiles = .live l) (hseen : seen.failed = false) :
    (recvExpelled dirname n >>= fun _ => recvFinal arms).Meets answer P c (o, seen) ↔
      o.Delivers l n := by
  induction n generalizing c o seen l with
  | zero => simp [recvExpelled, meets_recvFinal hP, hseen, Outside.Delivers]
  | succ n ih =>
    rw [recvExpelled, meets_bind, meets_bind, Outside.Delivers]
    cases hr : o.response with
    | error e =>
      rw [meets_recvResponse_error hr]
      simp [meets_setErrno, meets_recvFinal hP, Seen.fails]
    | ok file =>
      rw [meets_recvResponse_ok hr]
      simp only [meets_bind, meets_writeFileInDirectory]
      refine meets_removeReceived hl fun c' hl' => ?_
      rw [← meets_bind]
      exact ih hl' hseen

theorem meets_makeDirectory {P : Bool → Client → Outside × Seen → Prop} :
    (makeDirectory dirname).Meets answer P c (o, seen) ↔
      (dirname = none ∨ o.directory = true → P true c (o, seen)) ∧
      (dirname ≠ none → o.directory = false → P false c (o, seen.fails)) := by
  cases dirname with
  | none => simp [makeDirectory]
  | some d =>
    have hmk : answer (.mkdirP d) (o, seen) =
      some (o.directory, o, if o.directory then seen else seen.fails) := rfl
    rw [makeDirectory, mkdirP, meets_question hmk]
    cases o.directory <;> simp

theorem meets_howMany {Q : Nat → Outside → Prop} {body : Bytes}
    (hQ : ∀ n o', P n c (o', seen) ↔ Q n.toNat o') :
    (howMany body).Meets answer P c (o, seen) ↔
      body ≠ [] ∧ Q (o.announced body).1 (o.announced body).2 := by
  have hindet : answer .indeterminate (o, seen) =
    some (o.indeterminate.headD 0, o.afterIndeterminate, seen) := rfl
  rw [howMany, Outside.announced]
  by_cases hb : body = []
  · simp [hb]
  · cases hn : readInt body with
    | none => simp [hb, indeterminate, meets_question hindet, hQ]
    | some n => simp [hb, hQ]

theorem meets_filesExpelled (hP : ∀ result c u, P result c u ↔ (¬u.2.Granted → result = -1))
    {response : Response} (hl : c.openedFiles = .live l) (hseen : seen.failed = false)
    (hs : response.status = .filesExpelled) :
    (filesExpelled response dirname arms).Meets answer P c (o, seen) ↔
      o.Expels l dirname response := by
  have hP' : ∀ c u, P (-1) c u := by simp [hP]
  rw [filesExpelled, meets_bind, meets_makeDirectory]
  simp only [if_true, Bool.false_eq_true, if_false, meets_pure, hP', implies_true, and_true]
  rw [Outside.Expels]
  simp only [hs, true_implies]
  refine forall_congr' fun _ => ?_
  rw [meets_bind]
  exact meets_howMany (Q := fun k o' => o'.Delivers l k) fun n o' =>
    meets_recvExpelled hP n.toNat hl hseen

theorem response_eq_ok {response : Response} (h : o.response = .ok response) :
    o.responses = .ok response :: o.responses.tail := by
  unfold Outside.response at h
  cases hr : o.responses with
  | nil => simp [hr] at h
  | cons x rest =>
    rw [hr, List.headD_cons] at h
    rw [h, List.tail_cons]

theorem response_eq_error {e : Errno} (h : o.response = .error e) (file : Response) :
    o.responses[0]? ≠ some (.ok file) := by
  unfold Outside.response at h
  cases hr : o.responses with
  | nil => simp
  | cons x rest =>
    rw [hr, List.headD_cons] at h
    simp [h]

/-- The loop goes on to the end only when every file comes. -/
theorem meets_recvFiles {response : Response} (n : Nat)
    (hP : ∀ c o seen, seen.received.head? = some response → (P 0 c (o, seen) ↔ seen.failed = false))
    (hseen : seen.failed = false) (hhead : seen.received.head? = some response) :
    (recvFiles dirname n >>= fun _ => pure 0).Meets answer P c (o, seen) ↔
      ∀ k < n, ∃ file, o.responses[k]? = some (.ok file) := by
  induction n generalizing c o seen with
  | zero => simp [recvFiles, hP _ _ _ hhead, hseen]
  | succ n ih =>
    rw [recvFiles, meets_bind, meets_bind]
    cases hr : o.response with
    | error e =>
      rw [meets_recvResponse_error hr]
      have hfails : seen.fails.received.head? = some response := hhead
      simp only [meets_setErrno, meets_pure, hP _ _ _ hfails]
      constructor
      · intro h
        cases h
      · intro h
        obtain ⟨file, hfile⟩ := h 0 (Nat.succ_pos n)
        exact absurd hfile (response_eq_error hr file)
    | ok file =>
      rw [meets_recvResponse_ok hr]
      have hnext : (seen.receives file).received.head? = some response := by
        simp [Seen.receives, List.head?_append, hhead]
      simp only [meets_bind, meets_writeFileInDirectory]
      rw [← meets_bind, ih (show (seen.receives file).failed = false from hseen) hnext, response_eq_ok hr]
      constructor
      · intro h k hk
        cases k with
        | zero => exact ⟨file, rfl⟩
        | succ k => exact h k (by omega)
      · intro h k hk
        exact h (k + 1) (by omega)

/-- A request with an answer that ends the call. -/
theorem meets_request (hP : ∀ result c u, P result c u ↔ (¬u.2.Granted → result = -1))
    {request : Request} {success : ClientM Int}
    (hsuccess : ∀ u, u.2.Granted → success.Meets answer P c u) (hseen : seen.failed = false) :
    (exchange request fun response => switch response success arms).Meets answer P c (o, seen) := by
  have hP' : ∀ c u, P (-1) c u := by simp [hP]
  rw [meets_exchange hP']
  intro response o' _
  rw [meets_switch hP']
  intro hs
  exact hsuccess _ (Seen.granted_receives.mpr ⟨hseen, hs⟩)

/-- A request that may be answered with expelled files. -/
theorem meets_writeRequest (hP : ∀ result c u, P result c u ↔ (¬u.2.Granted → result = -1))
    {request : Request} {arms' : List (ResponseCode × Errno)} (hl : c.openedFiles = .live l)
    (hseen : seen.failed = false) :
    (exchange request fun response =>
      if response.status = .filesExpelled then filesExpelled response dirname arms
      else switch response (pure 0) arms').Meets answer P c (o, seen) ↔
        ∀ response o', o.exchange = some (response, o') → o'.Expels l dirname response := by
  have hP' : ∀ c u, P (-1) c u := by simp [hP]
  rw [meets_exchange hP']
  refine forall₂_congr fun response o' => forall_congr' fun _ => ?_
  by_cases hs : response.status = .filesExpelled
  · rw [if_pos hs]
    exact meets_filesExpelled hP hl hseen hs
  · rw [if_neg hs, meets_switch hP', meets_pure, hP, Seen.granted_receives]
    simp [Outside.Expels, hs, hseen]

/-- After the checks at the start. -/
theorem meets_onFile_iff (hP : ∀ c u, P (-1) c u) {pathname : Option Path} {x : ClientM Int} {Q : Prop}
    (hx : c.socketFd ≠ -1 → (x.Meets answer P c u ↔ Q)) :
    (onFile pathname fun _ => x).Meets answer P c u ↔ (pathname = none ∨ c.socketFd = -1) ∨ Q := by
  rw [meets_onFile hP]
  cases pathname with
  | none => simp
  | some p =>
    by_cases hc : c.socketFd = -1
    · simp [hc]
    · simp [hc, hx hc]

/-- A call that opens the file and puts a request that is answered at once. -/
theorem meets_opened_request (hP' : ∀ c u, P (-1) c u) {absolutePath : Option Path} {flags : Int}
    {request : Path → Request} {success : Path → ClientM Int} (hseen : seen.failed = false)
    (hP : absolutePath ≠ none → ∀ result c u, P result c u ↔ (¬u.2.Granted → result = -1))
    (hsuccess : ∀ p c' l u, absolutePath = some p → c'.openedFiles = .live l → u.2.Granted →
      (success p).Meets answer P c' u) (hc : c.socketFd ≠ -1) :
    (ensureOpened absolutePath flags fun p =>
      exchange (request p) fun response => switch response (success p) arms).Meets answer P c (o, seen) ↔
        c.Comparable absolutePath := by
  rw [meets_ensureOpened (Q := fun _ _ _ => True) hP' hc hseen]
  · simp [Client.Comparable]
  · intro p l c' o' seen' hp hl hseen'
    have hP := hP (by simp [hp])
    exact iff_true_intro (meets_request hP (fun u hu => hsuccess p c' l u hp hl hu) hseen')

end Realpath

namespace ApiCall

variable {call : ApiCall} {c : Client} {o : Outside}

theorem completed_iff_granted {seen : Seen} (hcall : ∀ N dirname, call ≠ readNFiles N dirname)
    (hpath : call.absolutePath ≠ some none) : call.Completed seen ↔ seen.Granted := by
  cases call with
  | readNFiles N dirname => exact absurd rfl (hcall N dirname)
  | _ => simp [Completed, Seen.Granted, verdict, hpath]

theorem honest_minus_one (call : ApiCall) (c : Client) (u : Outside × Seen) : call.Honest (-1) c u :=
  fun _ => rfl

/-- With a path, the outcome of a call rests on the last response. -/
theorem honest_iff_granted (hcall : ∀ N dirname, call ≠ readNFiles N dirname)
    (hpath : call.absolutePath ≠ some none) (result : Int) (c : Client) (u : Outside × Seen) :
    call.Honest result c u ↔ (¬u.2.Granted → result = -1) := by
  rw [Honest, completed_iff_granted hcall hpath]

theorem honest_zero {u : Outside × Seen} (hcall : ∀ N dirname, call ≠ readNFiles N dirname)
    (hpath : call.absolutePath ≠ some none) (hu : u.2.Granted) : call.Honest 0 c u :=
  (honest_iff_granted hcall hpath 0 c u).mpr fun h => absurd hu h

section Calls

variable (pathname absolutePath dirname : Option Path)

theorem survives_readFile_iff : (readFile pathname absolutePath).Survives c o ↔
    (pathname = none ∨ c.socketFd = -1) ∨ c.Comparable absolutePath := by
  refine Realpath.meets_onFile_iff (honest_minus_one _) fun hc =>
    Realpath.meets_opened_request (honest_minus_one _) rfl ?_ ?_ hc
  · intro hpath
    exact honest_iff_granted (by simp) (by simpa [ApiCall.absolutePath] using hpath)
  · intro p c' l u hp hl hu
    rw [meets_bind, Realpath.meets_malloc, if_pos rfl, meets_pure]
    exact honest_zero (by simp) (by simp [ApiCall.absolutePath, hp]) hu

theorem survives_lockFile_iff : (lockFile pathname absolutePath).Survives c o ↔
    (pathname = none ∨ c.socketFd = -1) ∨ c.Comparable absolutePath := by
  refine Realpath.meets_onFile_iff (honest_minus_one _) fun hc =>
    Realpath.meets_opened_request (honest_minus_one _) rfl ?_ ?_ hc
  · intro hpath
    exact honest_iff_granted (by simp) (by simpa [ApiCall.absolutePath] using hpath)
  · intro p c' l u hp hl hu
    exact meets_pure.mpr (honest_zero (by simp) (by simp [ApiCall.absolutePath, hp]) hu)

theorem survives_removeFile_iff : (removeFile pathname absolutePath).Survives c o ↔
    (pathname = none ∨ c.socketFd = -1) ∨ c.Comparable absolutePath := by
  refine Realpath.meets_onFile_iff (honest_minus_one _) fun hc =>
    Realpath.meets_opened_request (honest_minus_one _) rfl ?_ ?_ hc
  · intro hpath
    exact honest_iff_granted (by simp) (by simpa [ApiCall.absolutePath] using hpath)
  · intro p c' l u hp hl hu
    have hzero : ∀ c, (removeFile pathname absolutePath).Honest 0 c u := fun c =>
      honest_zero (by simp) (by simp [ApiCall.absolutePath, hp]) hu
    simp only [Api.removeOpened, meets_bind, Realpath.meets_openedList, meets_ite,
      Realpath.meets_setOpenedFiles, Realpath.meets_setErrno, Realpath.meets_note, meets_pure, hzero]
    exact ⟨l, hl, fun _ => trivial, fun _ => trivial⟩

theorem survives_unlockFile_iff : (unlockFile pathname absolutePath).Survives c o ↔
    (pathname = none ∨ c.socketFd = -1) ∨ c.Comparable absolutePath := by
  refine Realpath.meets_onFile_iff (honest_minus_one _) fun hc => ?_
  rw [meets_bind]
  cases absolutePath with
  | none =>
    rw [Realpath.meets_listFind_null, if_neg Bool.false_ne_true]
    simp [Client.Comparable, Realpath.meets_failWith (honest_minus_one _)]
  | some p =>
    have hP := @honest_iff_granted (unlockFile pathname (some p)) (by simp) (by simp [ApiCall.absolutePath])
    rw [Realpath.meets_listFind]
    simp only [if_true, Bool.false_eq_true, if_false, Realpath.meets_failWith (honest_minus_one _),
      implies_true, and_true, Client.Comparable, reduceCtorEq, false_implies]
    refine exists_congr fun l => and_iff_left fun hp => ?_
    exact Realpath.meets_request hP (fun u hu => meets_pure.mpr ((hP _ _ _).mpr fun h => absurd hu h)) rfl

theorem survives_closeFile_iff : (closeFile pathname absolutePath).Survives c o ↔
    (pathname = none ∨ c.socketFd = -1) ∨ absolutePath ≠ none := by
  refine Realpath.meets_onFile_iff (honest_minus_one _) fun hc => ?_
  cases absolutePath with
  | none => simp [Realpath.strlen]
  | some p =>
    have hP := @honest_iff_granted (closeFile pathname (some p)) (by simp) (by simp [ApiCall.absolutePath])
    refine iff_of_true ?_ (by simp)
    refine Realpath.meets_request hP (fun u hu => ?_) rfl
    rw [meets_bind, Realpath.meets_note]
    exact meets_pure.mpr ((hP _ _ _).mpr fun h => absurd hu h)

theorem survives_appendToFile_iff (buf : Option Bytes) :
    (appendToFile pathname absolutePath buf dirname).Survives c o ↔
      (buf = none ∨ pathname = none ∨ c.socketFd = -1) ∨
        Safe c o (appendToFile pathname absolutePath buf dirname) := by
  cases buf with
  | none => exact iff_of_true (Realpath.meets_failWith (honest_minus_one _) _) (.inl (.inl rfl))
  | some b =>
    have hrefused : (some b = none ∨ pathname = none ∨ c.socketFd = -1) ↔
        (pathname = none ∨ c.socketFd = -1) := by simp
    rw [hrefused]
    refine Realpath.meets_onFile_iff (honest_minus_one _) fun hc =>
      Realpath.meets_ensureOpened (honest_minus_one _) hc rfl fun p l c' o' seen' hp hl hseen => ?_
    have hP := @honest_iff_granted (appendToFile pathname absolutePath (some b) dirname) (by simp)
      (by simp [ApiCall.absolutePath, hp])
    exact Realpath.meets_writeRequest hP hl hseen

theorem survives_writeFile_iff : (writeFile pathname absolutePath dirname).Survives c o ↔
    (pathname = none ∨ c.socketFd = -1) ∨ Safe c o (writeFile pathname absolutePath dirname) := by
  refine Realpath.meets_onFile_iff (honest_minus_one _) fun hc => ?_
  cases absolutePath with
  | none => exact iff_of_true (Realpath.meets_failWith (honest_minus_one _) _) (.inl rfl)
  | some p =>
    have hdisk : answer (.readDisk p) (o, .init) = some (o.disk, o, Seen.init.after o.disk) := rfl
    have hP := @honest_iff_granted (writeFile pathname (some p) dirname) (by simp) (by simp [ApiCall.absolutePath])
    simp only [Api.checked, meets_bind, Api.readDisk, meets_question hdisk, Safe]
    cases hd : o.disk with
    | error e => simp [Realpath.meets_failWith (honest_minus_one _)]
    | ok fileData =>
      simp only [reduceCtorEq, exists_false, false_or]
      refine (Realpath.meets_ensureOpened (honest_minus_one _) hc rfl
        fun q l c' o' seen' hq hl hseen => Realpath.meets_writeRequest hP hl hseen).trans ?_
      simp

theorem survives_readNFiles_iff (N : Int) : (readNFiles N dirname).Survives c o ↔
    (N < 0 ∨ c.socketFd = -1) ∨ Safe c o (readNFiles N dirname) := by
  have hfail : ∀ e, (Api.failWith e).Meets answer (readNFiles N dirname).Honest c (o, .init) :=
    Realpath.meets_failWith (honest_minus_one _)
  unfold Survives program Realpath.readNFiles
  by_cases hN : N < 0
  · simp [hN, hfail]
  · by_cases hc : c.socketFd = -1
    · simp [hN, hc, hfail]
    · simp only [hN, hc, if_false, meets_bind, meets_get, false_or, or_false]
      rw [Realpath.meets_exchange (honest_minus_one _), Safe]
      refine forall₂_congr fun response o' => forall_congr' fun _ => ?_
      rw [Realpath.meets_switch (honest_minus_one _)]
      refine forall_congr' fun hs => ?_
      have hP : ∀ c o seen, seen.received.head? = some response →
          ((readNFiles N dirname).Honest 0 c (o, seen) ↔ seen.failed = false) := by
        intro c o seen hhead
        simp [Honest, Completed, absolutePath, verdict, hhead, hs]
      rw [meets_bind, Realpath.meets_makeDirectory]
      simp only [if_true, Bool.false_eq_true, if_false, meets_pure, honest_minus_one, implies_true, and_true]
      refine forall_congr' fun _ => ?_
      rw [meets_bind, ← o'.announced_responses response.body]
      exact Realpath.meets_howMany (Q := fun n o'' => ∀ k < n, ∃ file, o''.responses[k]? = some (.ok file))
        fun n o'' => Realpath.meets_recvFiles n.toNat hP rfl rfl

end Calls

end ApiCall

end FileStorage
