import FileStorage.Commits
import FileStorage.Execution
import FileStorage.Rounds
import FileStorage.Threads

/-! Requests that are refused. A handler that answers neither `SUCCESS` nor `AWAITING` is to leave
the files, the queue and the counters alone; only a body that is too big takes the file that was
created for it away. -/

namespace FileStorage

open Prog

def ResponseCode.Refused (status : ResponseCode) : Prop := status ≠ .success ∧ status ≠ .awaiting

instance (status : ResponseCode) : Decidable status.Refused := inferInstanceAs (Decidable (_ ∧ _))

/-- A file that was never written is gone, and is not counted any more. -/
def Catalog.withdrawn (v : Catalog) (p : Path) : Catalog :=
  { v with stored := v.stored.filter fun f => f.path ≠ p, noOfFiles := v.noOfFiles - 1 }

/-- What is to be left after the refusal of a request. -/
def Catalog.refused (v : Catalog) (req : Request) (status : ResponseCode) : Catalog :=
  match req.type, status, req.path.join with
  | .writeFile, .fileTooBig, some p =>
    if (v.get p).any fun f => chkFlag f.flags oCreate then v.withdrawn p else v
  | _, _, _ => v

/-- A new file is allocated for a path of `MAX_PATH` bytes or more, and `strcpy` runs on behind its
`path`. -/
def Request.Overruns (s : Storage) (env : List Bool) (req : Request) : Prop :=
  req.type = .openFile ∧ ∃ p flags, req.path = some (some p) ∧ readInt req.body = some flags ∧
    chkFlag flags oCreate = true ∧ s.lookup (some p) = some none ∧ maxPath ≤ p.length ∧
    env.headD true = true

/-- The call takes the mutex and overruns a record. -/
def Server.Overruns (s : Server) (x : Step) : Prop :=
  s.held = false ∧ ∃ clientFd req, x.call = .request clientFd req ∧ req.Overruns s.storage x.env

/-- A request that is refused has changed nothing but what its refusal is to change, and no request
writes beyond the path of a record. -/
structure Server.Intact (s : Server) (x : Step) : Prop where
  refusal : ∀ clientFd req reply w, x.call = .request clientFd req → s.exec x = some (some reply, w) →
    reply.status.Refused → w.state.catalog = s.storage.catalog.refused req reply.status
  within : ¬s.Overruns x

/-! ### Where a refusal does change the storage -/

/-- The record of the file that the body of the request is meant for, which the client has
locked. -/
def Request.Targets (s : Storage) (clientFd : Int) (req : Request) (i : FileId) : Prop :=
  req.body ≠ [] ∧ req.path.bind s.lookup = some (some i) ∧ (s.heap i).lockedBy = clientFd

/-- The body is too big, and the file is taken out; or files have been expelled for the body when
the copy of one of them or the announcement of their number fails. -/
def Request.SpoilsWrite (s : Storage) (clientFd : Int) (env : List Bool) (req : Request) : Prop :=
  ∃ i, req.Targets s clientFd i ∧
    (req.body.length > s.maxSize ∧ s.Removable (s.heap i).path ∨
      req.body.length ≤ s.maxSize ∧ chkFlag (s.heap i).flags oCreate = true ∧
        sizeAdd s.currentSize req.body.length > s.maxSize ∧
        ∃ all env', s.catalog.Drains req.body.length env all env' ∧
          (all = false ∨ env'.headD true = false))

/-- `realloc` fails, and its result has replaced the block of the contents. -/
def Request.SpoilsAppend (s : Storage) (clientFd : Int) (env : List Bool) (req : Request) : Prop :=
  ∃ i, req.Targets s clientFd i ∧ req.body.length ≤ s.maxSize ∧ (s.heap i).contents ≠ none ∧
    env.headD true = false

/-- A file has made room for the new one, which then finds no place in the table; a later flag of
the request reports that it is missing. -/
def Request.SpoilsOpen (s : Storage) (env : List Bool) (req : Request) : Prop :=
  ∃ p flags q, req.path = some (some p) ∧ readInt req.body = some flags ∧
    chkFlag flags oCreate = true ∧ (chkFlag flags oLock = true ∨ chkFlag flags oNoflag = true) ∧
    s.lookup (some p) = some none ∧ p.length < maxPath ∧ s.noOfFiles + 1 > s.maxFiles ∧
    s.fifoQueue.head? = some q ∧ s.dequeue.Removable q.path ∧
    env.headD true = true ∧ env.tail.tail.headD true = false

def Request.Spoils (s : Storage) (clientFd : Int) (env : List Bool) (req : Request) : Prop :=
  match req.type with
  | .openFile => req.SpoilsOpen s env
  | .writeFile => req.SpoilsWrite s clientFd env
  | .appendToFile => req.SpoilsAppend s clientFd env
  | _ => False

/-- The mutex is free, and the refusal of the request spoils the storage, or its path is too long for
a record. -/
def Server.Spoils (s : Server) (x : Step) : Prop :=
  s.held = false ∧ ∃ clientFd req, x.call = .request clientFd req ∧
    (req.Spoils s.storage clientFd x.env ∨ req.Overruns s.storage x.env)

/-! ### Handlers that are sure before they change anything -/

def ResponseCode.Granted (status : ResponseCode) : Prop := ¬status.Refused

theorem granted_success : ResponseCode.Granted .success := fun h => h.1 rfl

theorem granted_awaiting : ResponseCode.Granted .awaiting := fun h => h.2 rfl

section Handlers

variable {fd : Int} {req : Request}

theorem commits_closeFileHandler : (closeFileHandler fd req).commits ResponseCode.Granted := by
  refine (readOnly_requestPath req).commits_bind fun path => ?_
  refine (readOnly_storageGetFile path).commits_bind fun r => ?_
  cases r with
  | none => trivial
  | some i =>
    refine (readOnly_load i _).commits_bind fun f => commits_ite ?_ trivial
    exact .inr fun _ _ => answers_after fun _ => answers_after fun _ => granted_success

theorem commits_unlockFileHandler : (unlockFileHandler fd req).commits ResponseCode.Granted := by
  refine (readOnly_requestPath req).commits_bind fun path => ?_
  refine (readOnly_storageGetFile path).commits_bind fun r => ?_
  cases r with
  | none => trivial
  | some i =>
    refine (readOnly_load i _).commits_bind fun f => commits_ite trivial ?_
    refine (readOnly_load i _).commits_bind fun f => commits_ite ?_ trivial
    exact .inr fun _ _ => answers_after fun _ => answers_after fun _ => granted_success

theorem commits_removeFileHandler : (removeFileHandler fd req).commits ResponseCode.Granted := by
  refine (readOnly_requestPath req).commits_bind fun path => ?_
  refine (readOnly_storageGetFile path).commits_bind fun r => ?_
  cases r with
  | none => trivial
  | some i =>
    refine (readOnly_load i _).commits_bind fun f => commits_ite trivial ?_
    exact answers.commits (answers_after fun _ => granted_success)

theorem commits_lockFileHandler : (lockFileHandler fd req).commits ResponseCode.Granted := by
  refine (readOnly_requestPath req).commits_bind fun path => ?_
  refine (readOnly_storageGetFile path).commits_bind fun r => ?_
  cases r with
  | none => trivial
  | some i =>
    refine (readOnly_load i _).commits_bind fun f => commits_ite ?_ ?_
    · exact .inr fun _ _ => answers_after fun _ => answers_after fun _ => granted_success
    · refine (readOnly_load i _).commits_bind fun f => commits_ite trivial fun b => commits_ite ?_ trivial
      refine (readOnly_load i _).commits_bind fun f => ?_
      cases f.waitingOnLock with
      | none => trivial
      | some list =>
        refine fun b => commits_ite ?_ trivial
        exact .inr fun _ => answers_after fun _ => answers_after fun _ => granted_awaiting

theorem commits_openFileLock {path : Option Path} :
    (openFileLock fd path).commits fun r => r = none := by
  refine (readOnly_storageGetFile path).commits_bind fun r => ?_
  cases r with
  | none => trivial
  | some i =>
    refine (readOnly_load i _).commits_bind fun f => commits_ite trivial ?_
    exact .inr fun _ _ => answers_after fun _ => answers_after fun _ => rfl

theorem answers_writeFileUpdate (i : FileId) (body : Bytes) :
    (writeFileUpdate i body).answers fun status => status = .success :=
  fun _ _ _ => answers_ite (fun _ => answers_after fun _ => answers_after fun _ =>
    answers_after fun _ _ => rfl) trivial

end Handlers

/-! ### What the handlers leave -/

/-- What a call may leave when it answers with the status. -/
def Catalog.Spares (v : Catalog) (req : Request) (status : ResponseCode) (v' : Catalog) : Prop :=
  status.Refused → v' = v.refused req status

namespace Catalog

variable {v v' : Catalog} {req : Request} {status : ResponseCode}

theorem refused_of_ne (h : req.type ≠ .writeFile ∨ status ≠ .fileTooBig) :
    v.refused req status = v := by
  unfold refused
  split
  · rename_i ht _
    rcases h with h | h
    · exact absurd ht h
    · exact absurd rfl h
  · rfl

theorem spares_granted (h : status.Granted) : v.Spares req status v' := fun hr => absurd hr h

theorem spares_self (h : req.type ≠ .writeFile ∨ status ≠ .fileTooBig) :
    v.Spares req status v := fun _ => (refused_of_ne h).symm

theorem spares_iff (hr : status.Refused) (h : req.type ≠ .writeFile ∨ status ≠ .fileTooBig) :
    v.Spares req status v' ↔ v' = v := by
  rw [Spares, refused_of_ne h]
  exact ⟨fun hs => hs hr, fun he _ => he⟩

theorem put_eq_self_iff (hd : v.paths.Nodup) {p : Path} {f g : File} (hf : v.get p = some f) :
    v.put p g = v ↔ g = f := by
  obtain ⟨hm, hp⟩ := get_eq_some hf
  constructor
  · intro h
    have hs : v.stored.map (putFile p g) = v.stored.map id := by
      rw [List.map_id]
      exact congrArg stored h
    have hfg := List.map_inj_left.mp hs f hm
    rwa [putFile, if_pos hp] at hfg
  · rintro rfl
    refine v.relabel_id fun k hk => ?_
    by_cases hkp : k.path = p
    · have hget := (get_eq_some_iff hd).mpr ⟨hk, hkp⟩
      rw [putFile, if_pos hkp]
      exact Option.some.inj (hf.symm.trans hget)
    · exact if_neg hkp

theorem discard_noOfFiles (p : Path) (f : File) : (v.discard p f).noOfFiles = v.noOfFiles - 1 := by
  unfold discard
  split <;> rfl

theorem discard_ne_withdrawn {p : Path} {f : File} (hf : v.get p = some f) :
    v.discard p f ≠ v.withdrawn p := by
  intro h
  unfold discard at h
  split at h
  · rename_i hq
    have hlen := congrArg (fun u : Catalog => u.queue.length) h
    have hpos := List.length_pos_of_mem hq
    simp only [wipe, withdrawn, List.length_erase_of_mem hq] at hlen
    omega
  · have hst := congrArg stored h
    obtain ⟨hm, hp⟩ := get_eq_some hf
    have hm' : f ∈ (v.withdrawn p).stored := hst ▸ hm
    simp [withdrawn, hp] at hm'

/-- Whatever the refusal of a body that is too big takes away, it is not just the new file. -/
theorem discard_ne_refused {p : Path} {f : File} (hp : req.path.join = some p)
    (hf : v.get p = some f) : v.discard p f ≠ v.refused req status := by
  have hne : v.discard p f ≠ v := by
    intro h
    have hn := congrArg noOfFiles h
    rw [discard_noOfFiles] at hn
    omega
  unfold refused
  split
  · rename_i q _ hq
    obtain rfl : p = q := Option.some.inj (hp.symm.trans hq)
    split
    · exact discard_ne_withdrawn hf
    · exact hne
  · exact hne

theorem Evicts.noOfFiles {n : Nat} {qs : List Path} {ns : List Access} (h : v.Evicts n qs ns v') :
    v'.noOfFiles = v.noOfFiles - qs.length := by
  induction h with
  | done => simp
  | round _ _ _ _ ih =>
    rw [ih, List.length_cons]
    simp only [expel, wipe, discount]
    omega

/-- Where room has to be made, a file has left. -/
theorem Evicts.ne {n : Nat} {qs : List Path} {ns : List Access} (h : v.Evicts n qs ns v')
    (hover : sizeAdd v.currentSize n > v.maxSize) : v' ≠ v := by
  intro he
  have hn := h.noOfFiles
  rw [he] at hn
  cases h with
  | done hfit => exact hfit hover
  | round =>
    rw [List.length_cons] at hn
    omega

end Catalog

section Walks

variable {clientFd : Nat} {req : Request} {env : List Bool} {w : StorageWorld}

theorem yields_of_commits {α : Type} {p : ServerM α} {g : α → Reply}
    (hp : p.commits fun a => (g a).status.Granted) (ht : req.type ≠ .writeFile) :
    (p.bind fun a => ret (g a)).yields env
      (fun reply w' => w.state.catalog.Spares req reply.status w'.state.catalog) w := by
  refine (yields_map fun _ => rfl).mpr (yields_of_returns (hp.returns.mono fun a w' h => ?_))
  rcases h with h | h
  · exact Catalog.spares_granted h
  · rw [h]
    exact Catalog.spares_self (.inl ht)

theorem yields_of_granted {w' : StorageWorld} {p : ServerM (ResponseCode × List File)}
    (hp : p.answers fun r => r.1.Granted) :
    p.yields env (fun r w'' => w.state.catalog.Spares req r.1 w''.state.catalog) w' :=
  yields_of_returns (hp.returns.mono fun _ _ h => Catalog.spares_granted h)

theorem yields_appendToFileHandler (hs : w.state.Sound) (hw : w.held = false)
    (ht : req.type = .appendToFile) :
    (appendToFileHandler clientFd req).yields env
      (fun status w' => w.state.catalog.Spares req status w'.state.catalog) w ↔
      ¬req.SpoilsAppend w.state clientFd env := by
  have htype : req.type ≠ .writeFile := by simp [ht]
  have hself : ∀ status, w.state.catalog.Spares req status w.state.catalog :=
    fun _ => Catalog.spares_self (.inl htype)
  unfold appendToFileHandler requestPath Request.SpoilsAppend Request.Targets
  cases hp : req.path with
  | none => exact iff_of_true yields_crash (by simp)
  | some path =>
    by_cases hb : req.body = []
    · exact (yields_pos hb).trans (iff_of_true (yields_ret.mpr (hself _)) (by simp [hb]))
    refine (yields_neg hb).trans ((yields_bind (run_read env w _ _)).trans ?_)
    by_cases hl : req.body.length > w.state.maxSize
    · refine (yields_pos hl).trans (iff_of_true (yields_ret.mpr (hself _)) ?_)
      rintro ⟨i, -, hle, -⟩
      exact absurd hl (Nat.not_lt.mpr hle)
    refine (yields_neg hl).trans ((yields_lookup (w := w.accessed (fun _ => []) id) hw).trans ?_)
    rw [World.accessed_state, id, Option.bind_some]
    cases hlook : w.state.lookup path with
    | none => exact iff_of_true (by simp) (by simp)
    | some r =>
      simp only [Option.some.injEq, forall_eq']
      cases r with
      | none => exact iff_of_true ((yields_bind (run_unlockReturn _ _)).mpr
          (yields_ret.mpr (hself _))) (by simp)
      | some i =>
        obtain ⟨p, rfl⟩ := path_of_lookup hlook
        obtain ⟨-, hg⟩ := get_of_lookup hlook
        refine (yields_bind (run_load _ _ _ _)).trans ?_
        by_cases hc : (w.state.heap i).lockedBy ≠ clientFd
        · refine (yields_pos hc).trans (iff_of_true ((yields_bind (run_unlockReturn _ _)).mpr
            (yields_ret.mpr (hself _))) ?_)
          rintro ⟨j, ⟨-, hj, hown⟩, -⟩
          obtain rfl : i = j := by simpa using hj
          exact hc hown
        refine (yields_neg hc).trans ((yields_bind (run_load _ _ _ _)).trans ?_)
        refine (yields_bind (run_alloc _ _)).trans ?_
        cases ha : env.headD true with
        | true =>
          refine (yields_pos rfl).trans (iff_of_true ?_ (by simp))
          refine yields_of_returns (answers.returns ?_ |>.mono fun _ _ h => Catalog.spares_granted h)
          exact fun _ _ => answers_after fun _ => answers_after fun _ => answers_after fun _ =>
            granted_success
        | false =>
          refine (yields_neg (by simp)).trans ((yields_bind (run_modify _ _ _ _)).trans ?_)
          refine (yields_bind (run_unlockReturn _ _)).trans (yields_ret.trans ?_)
          have hcat := hs.catalog_setFile (f := { w.state.heap i with contents := none }) hg
          refine (Catalog.spares_iff (by decide) (.inl htype)).trans ?_
          change (w.state.setFile i { w.state.heap i with contents := none }).catalog = _ ↔ _
          rw [hcat, Catalog.put_eq_self_iff hs.nodup (hs.catalog_get hg)]
          constructor
          · rintro h ⟨j, ⟨-, hj, -⟩, -, hcon, -⟩
            obtain rfl : i = j := by simpa using hj
            exact hcon (congrArg File.contents h).symm
          · intro h
            have hcon : (w.state.heap i).contents = none := by
              by_contra hne
              exact h ⟨i, ⟨hb, rfl, not_not.mp hc⟩, Nat.not_lt.mp hl, hne, rfl⟩
            rw [← hcon]

/-- `write_file_handler` with a body that fits. -/
theorem yields_writeFileFitting {i : FileId} {body : Bytes} (hs : w.state.Sound) :
    (writeFileFitting clientFd i body).yields env
      (fun r w' => w.state.catalog.Spares req r.1 w'.state.catalog) w ↔
      ¬(chkFlag (w.state.heap i).flags oCreate = true ∧
        sizeAdd w.state.currentSize body.length > w.state.maxSize ∧
        ∃ all env', w.state.catalog.Drains body.length env all env' ∧
          (all = false ∨ env'.headD true = false)) := by
  have hupdate : ((writeFileUpdate i body).bind fun status => ret (status, ([] : List File))).answers
      fun r => r.1.Granted := by
    refine answers_bind.mpr ((answers_writeFileUpdate i body).mono ?_)
    rintro _ rfl
    exact granted_success
  unfold writeFileFitting
  refine (yields_bind (run_load _ _ _ _)).trans ?_
  cases hc : chkFlag (w.state.heap i).flags oCreate with
  | false =>
    refine (yields_pos rfl).trans (iff_of_true ?_ (by simp))
    refine (yields_bind (run_unlockReturn _ _)).mpr (yields_ret.mpr ?_)
    exact Catalog.spares_self (.inr (by decide))
  | true =>
    refine (yields_neg (by simp)).trans ((yields_bind (run_read _ _ _ _)).trans ?_)
    by_cases hover : sizeAdd w.state.currentSize body.length > w.state.maxSize
    · refine (yields_pos hover).trans ?_
      let w0 := (w.accessed (fun _ => [Field.flags].map (Access.readField i)) id).accessed
        (fun _ => [Access.readCurrentSize]) id
      let w1 := w0.accessed (fun _ => []) id
      by_cases hd : ∃ all env', w.state.catalog.Drains body.length env all env'
      · obtain ⟨all, env', hd⟩ := hd
        obtain ⟨r, w2, hrun, hle, hall⟩ := run_fifoReplaceLoop (w := w1) hd hs rfl (Nat.lt_succ_self _)
        have hexp := (@returns_fifoReplaceLoop (fun _ => True) w1 body.length _ hs).of_run hrun
        obtain ⟨_, _, -, hev⟩ := hexp.evicts
        have hne : w2.state.catalog ≠ w.state.catalog := hev.ne hover
        have hbad : ∀ w3 : StorageWorld, w3.state = w2.state →
            ¬w.state.catalog.Spares req .internalError w3.state.catalog := by
          intro w3 hst h
          rw [hst, Catalog.spares_iff (by decide) (.inr (by decide))] at h
          exact hne h
        have hbad' : ∀ (w3 : StorageWorld) (env3 : List Bool), w3.state = w2.state →
            ¬(unlockReturn.bind fun _ => ret (ResponseCode.internalError, r.2)).yields env3
              (fun r w' => w.state.catalog.Spares req r.1 w'.state.catalog) w3 := by
          intro w3 env3 hst h
          have h1 := (yields_bind (run_unlockReturn env3 w3)).mp h
          exact hbad w3.unlocked hst (yields_ret.mp h1)
        replace hrun : (storageFIFOReplace body.length).run env w0 = (.done r, w2, env') := hrun
        refine (yields_bind hrun).trans ?_
        cases all with
        | false =>
          have hcount : r.1 ≠ r.2.length := fun h => by simpa using hall.mp h
          refine (yields_pos hcount).trans (iff_of_false (hbad' w2 env' rfl) (not_not.mpr ?_))
          exact ⟨rfl, hover, false, env', hd, .inl rfl⟩
        | true =>
          refine (yields_neg (not_not.mpr (hall.mpr rfl))).trans ?_
          refine (yields_bind (run_sendResponse_client _ _ _ _ _ _)).trans ?_
          cases hsent : env'.headD true with
          | false =>
            refine (yields_neg (by simp)).trans (iff_of_false (hbad' _ _ rfl) (not_not.mpr ?_))
            exact ⟨rfl, hover, true, env', hd, .inr hsent⟩
          | true =>
            refine (yields_pos rfl).trans (iff_of_true ?_ ?_)
            · exact yields_of_granted (answers_after fun _ => hupdate)
            · rintro ⟨-, -, all, env2, hd', h⟩
              obtain ⟨rfl, rfl⟩ := hd.unique hd'
              rcases h with h | h
              · cases h
              · rw [hsent] at h
                cases h
      · refine iff_of_true ?_ fun h => hd (h.2.2.imp fun all h => h.imp fun _ h => h.1)
        refine yields_bind_of_not_done fun r hr => hd ?_
        change ((fifoReplaceLoop _ (w.state.fifoQueue.length + 1)).run env w1).1 = .done r at hr
        obtain ⟨all, hdr, -⟩ := drains_of_done (w := w1) hs (Prod.ext hr rfl)
        exact ⟨all, _, hdr⟩
    · refine (yields_neg hover).trans (iff_of_true (yields_of_granted hupdate) ?_)
      exact fun h => hover h.2.1

theorem yields_writeFileHandler (hs : w.state.Sound) (hw : w.held = false) :
    (writeFileHandler clientFd req).yields env
      (fun r w' => w.state.catalog.Spares req r.1 w'.state.catalog) w ↔
      ¬req.SpoilsWrite w.state clientFd env := by
  have hself : ∀ status, status ≠ .fileTooBig →
      w.state.catalog.Spares req status w.state.catalog := fun _ h => Catalog.spares_self (.inr h)
  unfold writeFileHandler requestPath Request.SpoilsWrite Request.Targets
  cases hp : req.path with
  | none => exact iff_of_true yields_crash (by simp)
  | some path =>
    by_cases hb : req.body = []
    · exact (yields_pos hb).trans (iff_of_true (yields_ret.mpr (hself _ (by decide))) (by simp [hb]))
    refine (yields_neg hb).trans ((yields_lookup hw).trans ?_)
    rw [Option.bind_some]
    cases hlook : w.state.lookup path with
    | none => exact iff_of_true (by simp) (by simp)
    | some r =>
      simp only [Option.some.injEq, forall_eq']
      cases r with
      | none => exact iff_of_true ((yields_bind (run_unlockReturn _ _)).mpr
          (yields_ret.mpr (hself _ (by decide)))) (by simp)
      | some i =>
        obtain ⟨p, rfl⟩ := path_of_lookup hlook
        obtain ⟨hn, hg⟩ := get_of_lookup hlook
        refine (yields_bind (run_load _ _ _ _)).trans ?_
        by_cases hc : (w.state.heap i).lockedBy ≠ clientFd
        · refine (yields_pos hc).trans (iff_of_true ((yields_bind (run_unlockReturn _ _)).mpr
            (yields_ret.mpr (hself _ (by decide)))) ?_)
          rintro ⟨j, ⟨-, hj, hown⟩, -⟩
          obtain rfl : i = j := by simpa using hj
          exact hc hown
        refine (yields_neg hc).trans ((yields_bind (run_read _ _ _ _)).trans ?_)
        let w0 := ((w.locked.accessed (lookupAccesses (some p)) id).accessed
          (fun _ => [Field.lockedBy].map (Access.readField i)) id).accessed (fun _ => []) id
        have htarget : ∀ P : FileId → Prop, (∃ j, (req.body ≠ [] ∧ some i = some j ∧
            (w.state.heap j).lockedBy = clientFd) ∧ P j) ↔ P i := by
          intro P
          constructor
          · rintro ⟨j, ⟨-, hj, -⟩, h⟩
            obtain rfl := Option.some.inj hj
            exact h
          · exact fun h => ⟨i, ⟨hb, rfl, not_not.mp hc⟩, h⟩
        rw [htarget]
        by_cases hbig : req.body.length > w.state.maxSize
        · refine (yields_pos hbig).trans ((yields_bind (run_unlockReturn _ _)).trans ?_)
          have hpath : (w.state.heap i).path = p := (hs.get_mem hg).2
          by_cases hr : w.state.Removable p
          · obtain ⟨b, w2, hrun, -, hst⟩ := @run_storageRemoveFile p env w0.unlocked hn hr
            refine (yields_bind hrun).trans (yields_ret.trans (iff_of_false (fun h => ?_) ?_))
            · have hst' : w2.state = w.state.removed p i := by
                rw [hst]
                exact congrArg (Option.elim · w.state (w.state.removed p)) hg
              have hspare := h (by decide)
              rw [hst', (hs.removed hg).2] at hspare
              exact Catalog.discard_ne_refused (by rw [hp, Option.join_some]) (hs.catalog_get hg) hspare
            · exact not_not.mpr (.inl ⟨hbig, hpath.symm ▸ hr⟩)
          · obtain ⟨w2, hrun⟩ := @run_storageRemoveFile_crashed p env w0.unlocked hn hr
            refine iff_of_true (yields_bind_crashed hrun) ?_
            rintro (⟨-, h⟩ | ⟨h, -⟩)
            · exact hr (hpath ▸ h)
            · exact absurd hbig (Nat.not_lt.mpr h)
        · refine (yields_neg hbig).trans ?_
          refine (yields_writeFileFitting (w := w0) hs).trans (not_congr ?_)
          constructor
          · exact fun h => .inr ⟨Nat.not_lt.mp hbig, h⟩
          · rintro (⟨h, -⟩ | ⟨-, h⟩)
            · exact absurd h hbig
            · exact h

/-! ### Opening -/

theorem returns_openFileLock_found {ok : Bool → Prop} {fd : Int} {path : Option Path}
    (hs : w.state.Sound) : (openFileLock fd path).returns ok (fun r _ => r = none →
      ∃ p f, path = some p ∧ w.state.catalog.get p = some f) w := by
  simp only [openFileLock, bind_eq, pure_eq, returns_bind, returns_lockReturn]
  refine fun _ => returns_storageGetFile fun _ => ?_
  rw [World.locked_state]
  cases hg : w.state.find path with
  | none => simp [returns_unlockReturn, returns_bind]
  | some i =>
    obtain ⟨p, rfl, hg⟩ := Storage.find_eq_some hg
    refine (answers_of_forall (A := fun r => r = none → _) fun _ _ => ?_).returns
    exact ⟨p, _, rfl, hs.catalog_get hg⟩

theorem answers_openFileCreate (path : Option Path) :
    (openFileCreate path).answers fun r => (∀ status, r = some status → status.Refused) ∧
      (r = none → ∃ p, path = some p ∧ p.length < maxPath) := by
  have hleave : ∀ status : ResponseCode, status.Refused →
      ((unlockReturn : ServerM Unit).bind fun _ => ret (some status)).answers fun r =>
        (∀ status, r = some status → status.Refused) ∧
          (r = none → ∃ p, path = some p ∧ p.length < maxPath) := by
    intro status hst
    refine ⟨?_, by simp⟩
    rintro _ ⟨⟩
    exact hst
  have hadd : ∀ i : FileId, (∃ p, path = some p ∧ p.length < maxPath) →
      ((storageAddFile i).bind fun _ => unlockReturn.bind fun _ =>
        ret (none : Option ResponseCode)).answers fun r =>
          (∀ status, r = some status → status.Refused) ∧
            (r = none → ∃ p, path = some p ∧ p.length < maxPath) := by
    intro i hp
    exact answers_after fun _ => answers_after fun _ => ⟨by simp, fun _ => hp⟩
  have hcreate : (storageCreateFile path).answers fun r => r.isSome = true →
      ∃ p, path = some p ∧ p.length < maxPath := by
    refine answers_bind.mpr (answers_of_forall fun b => answers_ite ?_ (by simp [answers]))
    cases path with
    | none => trivial
    | some p =>
      by_cases hp : p.length < maxPath
      · exact answers_of_forall fun _ _ => ⟨p, rfl, hp⟩
      · simp only [if_neg hp, answers]
  unfold openFileCreate openFileCreateBy
  simp only [bind_eq, pure_eq]
  refine answers_bind.mpr (answers_of_forall fun _ => answers_bind.mpr (answers_of_forall fun r => ?_))
  cases r with
  | some i => exact hleave _ (by decide)
  | none =>
    refine answers_bind.mpr (hcreate.mono fun r hr => ?_)
    cases r with
    | none => exact hleave _ (by decide)
    | some i =>
      have hp := hr rfl
      refine answers_bind.mpr (answers_of_forall fun s => answers_ite ?_ (hadd i hp))
      refine answers_bind.mpr (answers_of_forall fun r => ?_)
      cases r with
      | none => exact hleave _ (by decide)
      | some q => exact answers_after fun _ => hadd i hp

theorem answers_openFileLock (fd : Int) (path : Option Path) :
    (openFileLock fd path).answers fun r => ∀ status, r = some status → status.Refused := by
  unfold openFileLock
  simp only [bind_eq, pure_eq]
  refine answers_bind.mpr (answers_of_forall fun _ => answers_bind.mpr (answers_of_forall fun r => ?_))
  cases r with
  | none => exact answers_after fun _ => by simp [answers]; decide
  | some i =>
    refine answers_bind.mpr (answers_of_forall fun f => answers_ite ?_ ?_)
    · exact answers_after fun _ => by simp [answers]; decide
    · exact answers_after fun _ => answers_after fun _ => answers_after fun _ =>
        answers_after fun _ => by simp [answers]

/-- The last two parts of `open_file_handler` change nothing, or all goes well. -/
theorem returns_openRest_spares {ok : Bool → Prop} {path : Option Path} {lock noflag : Bool}
    (hs : w.state.Sound) :
    (openFilePart lock (openFileLock clientFd path)
      (openFilePart noflag (openFileNoflag path) (ret .success))).returns ok
      (fun r w' => r = .success ∨ w'.state.catalog = w.state.catalog) w := by
  rw [returns_openFilePart]
  refine ⟨?_, ?_⟩
  · rintro rfl
    refine ((commits_openFileLock.returns.and (returns_openFileLock hs)).and
      (returns_openFileLock_found hs)).mono fun r w1 h => ?_
    obtain ⟨⟨hsame, hq, -⟩, hfound⟩ := h
    refine ⟨fun status hr => ?_, fun hr => ?_⟩
    · rcases hsame with h | h
      · rw [h] at hr
        cases hr
      · exact .inr (congrArg _ h)
    · obtain ⟨p, f, rfl, hf⟩ := hfound hr
      have hq1 : Quiet w w1 := hq.quiet fun f _ =>
        Catalog.sameData_onPath _ (fun f => f.sameData_opened clientFd) f
      obtain ⟨f', hf', -⟩ := hq1.relabeled.get_some hs.nodup hf
      rw [returns_openFilePart]
      refine ⟨fun _ => (returns_openFileNoflag hq.sound).mono fun r w2 h2 => ?_,
        fun _ => returns_ret.mpr (.inl rfl)⟩
      have hnone := h2.2 p rfl (by rw [hq.sound.get_isSome, hf']; rfl)
      refine ⟨fun status hst => ?_, fun _ => returns_ret.mpr (.inl rfl)⟩
      rw [hnone] at hst
      cases hst
  · rintro rfl
    rw [returns_openFilePart]
    refine ⟨fun _ => (returns_openFileNoflag hs).mono fun r w2 h2 => ?_,
      fun _ => returns_ret.mpr (.inl rfl)⟩
    have hcat : w2.state.catalog = w.state.catalog := by
      rw [h2.1.catalog]
      exact Catalog.relabel_id (g := id) _ fun _ _ => rfl
    exact ⟨fun _ _ => .inr hcat, fun _ => returns_ret.mpr (.inl rfl)⟩

theorem yields_openRest {v : Catalog} {path : Option Path} {lock noflag : Bool}
    (ht : req.type ≠ .writeFile) (hs : w.state.Sound) (hv : w.state.catalog = v) :
    (openFilePart lock (openFileLock clientFd path)
      (openFilePart noflag (openFileNoflag path) (ret .success))).yields env
      (fun status w' => v.Spares req status w'.state.catalog) w := by
  refine yields_of_returns ((returns_openRest_spares hs).mono fun status w' h => ?_)
  rcases h with rfl | h
  · exact Catalog.spares_granted granted_success
  · rw [h, hv]
    exact Catalog.spares_self (.inl ht)

theorem openFilePart_true (part : ServerM (Option ResponseCode)) (rest : ServerM ResponseCode) :
    openFilePart true part rest = part.bind fun r => r.elim rest ret := by
  unfold openFilePart
  rw [if_pos rfl, bind_eq]
  congr 1
  funext r
  cases r <;> rfl

/-- The last two parts of `open_file_handler` where the file is missing. -/
theorem yields_openRest_absent {v : Catalog} {p : Path} {lock noflag : Bool}
    (ht : req.type ≠ .writeFile) (hw : w.held = false) (hl : w.state.lookup (some p) = some none)
    (hv : w.state.catalog ≠ v) :
    (openFilePart lock (openFileLock clientFd (some p))
      (openFilePart noflag (openFileNoflag (some p)) (ret .success))).yields env
      (fun status w' => v.Spares req status w'.state.catalog) w ↔ ¬(lock = true ∨ noflag = true) := by
  have hbad : ∀ w' : StorageWorld, w'.state = w.state → ¬v.Spares req .notFound w'.state.catalog := by
    intro w' hst h
    rw [hst, Catalog.spares_iff (by decide) (.inl ht)] at h
    exact hv h
  have hpart : ∀ part : ServerM (Option ResponseCode), (∃ w', w'.state = w.state ∧
      part.run env w = (.done (some .notFound), w', env)) → ∀ rest : ServerM ResponseCode,
      ¬(openFilePart true part rest).yields env
        (fun status w' => v.Spares req status w'.state.catalog) w := by
    rintro part ⟨w', hst, hrun⟩ rest h
    rw [openFilePart_true, yields_bind hrun] at h
    exact hbad w' hst (yields_ret.mp h)
  have hlook := run_storageGetFile (some p) env w.locked
  rw [World.locked_state, hl] at hlook
  let w2 := (w.locked.accessed (lookupAccesses (some p)) id).unlocked
  cases lock with
  | true =>
    refine iff_of_false (hpart _ ⟨w2, rfl, ?_⟩ _) (by simp)
    unfold openFileLock
    simp only [bind_eq, pure_eq]
    rw [run_bind_done (run_lockReturn env w hw), run_bind_done hlook]
    rfl
  | false =>
    cases noflag with
    | true =>
      refine iff_of_false (hpart _ ⟨w2, rfl, ?_⟩ _) (by simp)
      unfold openFileNoflag
      simp only [bind_eq, pure_eq]
      rw [run_bind_done (run_lockReturn env w hw), run_bind_done hlook]
      rfl
    | false => exact iff_of_true (yields_ret.mpr (Catalog.spares_granted granted_success)) (by simp)

namespace Storage

variable {s : Storage}

/-- The head of the queue is taken out of the queue and then removed. -/
theorem Sound.replaced (hs : s.Sound) (q : Path) :
    let t := (s.dequeue.get q).elim s.dequeue (s.dequeue.removed q)
    t.Sound ∧ t.catalog = s.catalog.replaceHead q ∧ t.heap = s.heap ∧ t.next = s.next := by
  have hs1 : s.dequeue.Sound := hs.of_eq rfl rfl rfl
  have hc1 : s.dequeue.catalog = { s.catalog with queue := s.catalog.queue.tail } := by
    simp [catalog, dequeue, stored]
  cases hg : s.dequeue.get q with
  | none =>
    have hn := hs1.catalog_get_none hg
    rw [hc1] at hn
    refine ⟨hs1, ?_, rfl, rfl⟩
    simp [Catalog.replaceHead, hn, hc1]
  | some i =>
    have hf := hs1.catalog_get hg
    rw [hc1] at hf
    obtain ⟨h1, h2⟩ := hs1.removed hg
    refine ⟨h1, ?_, removed_heap _ _ _, removed_next _ _ _⟩
    simp [Catalog.replaceHead, hf, h2, hc1]

theorem Sound.removable_newFile (hs : s.Sound) (f : File) (p : Path) :
    (s.newFile f).dequeue.Removable p ↔ s.dequeue.Removable p := by
  refine forall_congr' fun i => imp_congr_right fun hg => imp_congr_right fun _ => ?_
  have hi : i ≠ s.next := Nat.ne_of_lt (hs.lt_next hg)
  change (Function.update s.heap s.next f i).waitingOnLock ≠ none ↔ _
  rw [Function.update_of_ne hi]
  rfl

end Storage

theorem Catalog.replaceHead_nBuckets (v : Catalog) (q : Path) :
    (v.replaceHead q).nBuckets = v.nBuckets := by
  simp only [replaceHead]
  split
  · unfold discard
    split <;> rfl
  · rfl

theorem Catalog.replaceHead_ne {v : Catalog} {q : Path} (hq : v.queue.head? = some q) :
    v.replaceHead q ≠ v := by
  intro h
  obtain ⟨rest, hrest⟩ := List.head?_eq_some_iff.mp hq
  have hlen := congrArg (fun u : Catalog => u.queue.length) h
  have hle : (v.replaceHead q).queue.length ≤ v.queue.tail.length := by
    simp only [replaceHead]
    split
    · unfold discard
      split <;> exact List.length_erase_le
    · exact Nat.le_refl _
  simp only [hrest, List.tail_cons, List.length_cons] at hlen hle
  omega

/-- A new file that finds its place in the table is opened. -/
theorem yields_openRest_created {v : Catalog} {p : Path} {list lock noflag : Bool} (hs : w.state.Sound)
    (hf : w.state.catalog.get p = some (File.fresh p list)) :
    (openFilePart lock (openFileLock clientFd (some p))
      (openFilePart noflag (openFileNoflag (some p)) (ret .success))).yields env
      (fun status w' => v.Spares req status w'.state.catalog) w := by
  refine yields_of_returns ((returns_openRest hs).mono fun status w' h => ?_)
  have hflag : chkFlag (setFlag 0 oCreate) oLock = false := by decide
  exact Catalog.spares_granted (h.2 p _ rfl hf hflag ▸ granted_success)

/-- The end of the first part of `open_file_handler`, with the parts after it. -/
theorem yields_addCreated {v : Catalog} {p : Path} {i : FileId} {list lock noflag : Bool}
    (ht : req.type ≠ .writeFile) (hs : w.state.Sound) (hl : w.state.lookup (some p) = some none)
    (hi : i < w.state.next) (hh : w.state.heap i = File.fresh p list) :
    ((storageAddFile i).bind fun _ => unlockReturn.bind fun _ =>
      openFilePart lock (openFileLock clientFd (some p))
        (openFilePart noflag (openFileNoflag (some p)) (ret .success))).yields env
      (fun status w' => v.Spares req status w'.state.catalog) w ↔
      env.headD true = true ∨ w.state.catalog = v ∨ ¬(lock = true ∨ noflag = true) := by
  have hpath : (w.state.heap i).path = p := by rw [hh]; rfl
  obtain ⟨-, hg⟩ := get_of_lookup hl
  obtain ⟨w1, hrun, -, hst⟩ := @run_storageAddFile i env w (hpath.symm ▸ hl)
  have hadd := (@returns_storageAddFile (fun _ => True) w p i list hs hg hi hh
    (fun b w' => b = true → w'.state.Sound ∧ w.state.catalog.Created p w'.state.catalog)
    (fun _ h1 h2 _ _ => ⟨h1, h2⟩) (by simp)).of_run hrun
  refine (yields_bind hrun).trans ((yields_bind (run_unlockReturn _ _)).trans ?_)
  cases hb : env.headD true with
  | true =>
    obtain ⟨h1, hc⟩ := hadd hb
    obtain ⟨list', hf⟩ := hc.get h1.nodup
    exact iff_of_true (yields_openRest_created (w := w1.unlocked) h1 hf) (.inl rfl)
  | false =>
    rw [hb, if_neg Bool.false_ne_true] at hst
    rw [or_iff_right Bool.false_ne_true]
    by_cases hv : w.state.catalog = v
    · refine iff_of_true (yields_openRest (w := w1.unlocked) ht (hst ▸ hs) ?_) (.inl hv)
      rw [World.unlocked_state, hst, hv]
    · rw [or_iff_right hv]
      refine yields_openRest_absent (w := w1.unlocked) ht rfl (hst ▸ hl) ?_
      rw [World.unlocked_state, hst]
      exact hv

/-- At the limit of files: the head of the queue is removed, and the new file takes its place. -/
theorem yields_replaceHead {s : Storage} {p : Path} {q : PathPtr} {list lock noflag : Bool}
    (ht : req.type ≠ .writeFile) (hs : s.Sound) (hl : s.lookup (some p) = some none)
    (hq : s.fifoQueue.head? = some q) (hst : w.state = (s.newFile (File.fresh p list)).dequeue) :
    ((storageRemoveFile q.path).bind fun _ => (storageAddFile s.next).bind fun _ =>
      unlockReturn.bind fun _ => openFilePart lock (openFileLock clientFd (some p))
        (openFilePart noflag (openFileNoflag (some p)) (ret .success))).yields env
      (fun status w' => s.catalog.Spares req status w'.state.catalog) w ↔
      (s.dequeue.Removable q.path → env.headD true = true ∨ ¬(lock = true ∨ noflag = true)) := by
  have hs2 : (s.newFile (File.fresh p list)).Sound := hs.newFile _
  have hbuckets : s.files.nBuckets ≠ 0 := (get_of_lookup hl).1
  have hn : w.state.files.nBuckets ≠ 0 := by
    rw [hst]
    exact hbuckets
  have hremovable : w.state.Removable q.path ↔ s.dequeue.Removable q.path := by
    rw [hst]
    exact hs.removable_newFile _ _
  by_cases hrem : s.dequeue.Removable q.path
  · rw [forall_prop_of_true hrem]
    obtain ⟨b, w1, hrun, -, hst1⟩ := @run_storageRemoveFile _ env _ hn (hremovable.mpr hrem)
    obtain ⟨hs1, hc1, hh1, hn1⟩ := hs2.replaced q.path
    rw [← hst, ← hst1] at hs1 hc1 hh1 hn1
    rw [hs.catalog_newFile] at hc1
    have hl1 : w1.state.lookup (some p) = some none := by
      have hb := congrArg Catalog.nBuckets hc1
      rw [Catalog.replaceHead_nBuckets] at hb
      have hb1 : w1.state.files.nBuckets = s.files.nBuckets := hb
      rw [lookup_eq_get (hb1 ▸ hbuckets)]
      refine congrArg some (hs1.get_none_of_catalog (hc1 ▸ ?_))
      exact Catalog.get_none_of_subset (Catalog.replaceHead_subset _ _)
        (hs.catalog_get_none (get_of_lookup hl).2)
    have hi1 : s.next < w1.state.next := by
      rw [hn1]
      exact Nat.lt_succ_self _
    have hfresh : w1.state.heap s.next = File.fresh p list := by
      rw [hh1]
      exact Function.update_self _ _ _
    have hqueue : s.catalog.queue.head? = some q.path := by simp [Storage.catalog, hq]
    have hne : w1.state.catalog ≠ s.catalog := hc1 ▸ Catalog.replaceHead_ne hqueue
    refine (yields_bind hrun).trans ((yields_addCreated ht hs1 hl1 hi1 hfresh).trans ?_)
    rw [or_iff_right hne]
  · obtain ⟨w1, hrun⟩ := @run_storageRemoveFile_crashed _ env _ hn fun h => hrem (hremovable.mp h)
    exact iff_of_true (yields_bind_crashed hrun) fun h => absurd h hrem

theorem yields_openFileHandler (hs : w.state.Sound) (hw : w.held = false) (ht : req.type = .openFile) :
    (openFileHandler clientFd req).yields env
      (fun status w' => w.state.catalog.Spares req status w'.state.catalog) w ↔
      ¬req.SpoilsOpen w.state env := by
  have htype : req.type ≠ .writeFile := by simp [ht]
  unfold openFileHandler openFileHandlerBy requestPath Request.SpoilsOpen
  cases hp : req.path with
  | none => exact iff_of_true yields_crash (by simp)
  | some path =>
    dsimp only [bind_eq, pure_eq, Prog.bind]
    cases hb : readInt req.body with
    | none => exact iff_of_true yields_crash (by simp)
    | some flags =>
      dsimp only
      cases hc : chkFlag flags oCreate with
      | false => exact iff_of_true (yields_openRest htype hs rfl) (by simp [hc])
      | true =>
        rw [openFilePart_true]
        unfold openFileCreate openFileCreateBy
        simp only [bind_eq, pure_eq, bind_assoc]
        refine (yields_lookup hw).trans ?_
        cases hlook : w.state.lookup path with
        | none => exact iff_of_true (by simp) (by rintro ⟨p, _, _, h, -, -, -, hl, -⟩; simp_all)
        | some r =>
          simp only [Option.some.injEq, forall_eq']
          have hself : ∀ (w1 : StorageWorld) (env1 : List Bool) (status : ResponseCode),
              w1.state.catalog = w.state.catalog →
              (unlockReturn.bind fun _ => ret status).yields env1
                (fun status w' => w.state.catalog.Spares req status w'.state.catalog) w1 := by
            intro w1 env1 status h1
            refine (yields_bind (run_unlockReturn _ _)).mpr (yields_ret.mpr ?_)
            rw [World.unlocked_state, h1]
            exact Catalog.spares_self (.inl htype)
          cases r with
          | some i =>
            refine iff_of_true (hself _ _ _ rfl) ?_
            rintro ⟨p, _, _, h, -, -, -, hl, -⟩
            simp_all
          | none =>
            simp only [bind_assoc]
            let w1 := w.locked.accessed (lookupAccesses path) id
            cases ha : env.headD true with
            | false =>
              refine (yields_bind (run_storageCreateFile_none (w := w1) ha)).trans ?_
              exact iff_of_true (hself _ _ _ rfl) (by simp)
            | true =>
              by_cases hlen : ∃ p, path = some p ∧ p.length < maxPath
              · obtain ⟨p, rfl, hlen⟩ := hlen
                refine (yields_bind (run_storageCreateFile (w := w1) ha hlen)).trans ?_
                simp only [bind_assoc]
                refine (yields_bind (run_read _ _ _ _)).trans ?_
                let s2 := w.state.newFile (File.fresh p (env.tail.headD true))
                let w2 := (w1.accessed (fun _ => []) fun s =>
                  s.newFile (File.fresh p (env.tail.headD true))).accessed
                    (fun _ => [Access.readNoOfFiles]) id
                have hs2 : s2.Sound := hs.newFile _
                have hc2 : s2.catalog = w.state.catalog := hs.catalog_newFile _
                have hi2 : w.state.next < s2.next := Nat.lt_succ_self _
                have hh2 : s2.heap w.state.next = File.fresh p (env.tail.headD true) :=
                  Function.update_self _ _ _
                by_cases hfull : w.state.noOfFiles + 1 > w.state.maxFiles
                · refine (yields_bind_pos hfull).trans ?_
                  simp only [bind_assoc]
                  obtain ⟨w3, hrun3, hst3, -⟩ := run_queueRemoveHead env.tail.tail w2
                  replace hst3 : w3.state = s2.dequeue := hst3
                  refine (yields_bind hrun3).trans ?_
                  cases hq : w.state.fifoQueue.head? with
                  | none =>
                    have hnil : s2.fifoQueue = [] := List.head?_eq_none_iff.mp hq
                    have hhead : w2.state.fifoQueue.head? = none := hq
                    rw [hhead]
                    refine iff_of_true (hself _ _ _ ?_) (by simp)
                    rw [hst3, Storage.dequeue_of_nil hnil, hc2]
                  | some q =>
                    have hhead : w2.state.fifoQueue.head? = some q := hq
                    rw [hhead]
                    simp only [bind_assoc]
                    refine (yields_replaceHead htype hs hlook hq hst3).trans ?_
                    constructor
                    · rintro h ⟨_, flags', _, -, hflags, -, hpart, -, -, -, hq', hrem, -, hfail⟩
                      obtain rfl := hflags
                      obtain rfl := Option.some.inj hq'
                      rcases h hrem with h | h
                      · rw [h] at hfail
                        cases hfail
                      · exact h hpart
                    · intro h hrem
                      by_contra hcon
                      obtain ⟨hfail, hpart⟩ := not_or.mp hcon
                      exact h ⟨p, flags, q, rfl, rfl, hc, not_not.mp hpart, hlook, hlen, hfull, rfl,
                        hrem, trivial, Bool.eq_false_iff.mpr hfail⟩
                · refine (yields_bind_neg hfull).trans ?_
                  simp only [bind_assoc]
                  refine (yields_addCreated (w := w2) htype hs2 hlook hi2 hh2).trans
                    (iff_of_true ?_ ?_)
                  · exact .inr (.inl hc2)
                  · rintro ⟨_, _, _, -, -, -, -, -, -, h, -⟩
                    exact hfull h
              · have hfit : ∀ p, path = some p → maxPath ≤ p.length := by
                  intro p hp
                  exact Nat.not_lt.mp fun h => hlen ⟨p, hp, h⟩
                refine iff_of_true (yields_bind_crashed (run_storageCreateFile_crashed (w := w1) ha hfit)) ?_
                rintro ⟨p, _, _, h, -, -, -, -, hlt, -⟩
                exact hlen ⟨p, h, hlt⟩

theorem yields_handle (hs : w.state.Sound) (hw : w.held = false) :
    (handle clientFd req).yields env
      (fun reply w' => w.state.catalog.Spares req reply.status w'.state.catalog) w ↔
      ¬req.Spoils w.state clientFd env := by
  unfold handle Request.Spoils
  cases ht : req.type with
  | openFile => exact (yields_map fun _ => rfl).trans (yields_openFileHandler hs hw ht)
  | writeFile => exact (yields_map fun _ => rfl).trans (yields_writeFileHandler hs hw)
  | appendToFile => exact (yields_map fun _ => rfl).trans (yields_appendToFileHandler hs hw ht)
  | closeFile => exact iff_of_true (yields_of_commits commits_closeFileHandler (by simp [ht])) id
  | removeFile => exact iff_of_true (yields_of_commits commits_removeFileHandler (by simp [ht])) id
  | lockFile => exact iff_of_true (yields_of_commits commits_lockFileHandler (by simp [ht])) id
  | unlockFile => exact iff_of_true (yields_of_commits commits_unlockFileHandler (by simp [ht])) id
  | readFile =>
    exact iff_of_true (yields_of_commits (readOnly_readFileHandler req).commits (by simp [ht])) id
  | readNFiles =>
    exact iff_of_true (yields_of_commits (readOnly_readNFilesHandler _ req).commits (by simp [ht])) id
  | openConnection => exact iff_of_true (yields_ret.mpr (Catalog.spares_granted granted_success)) id
  | closeConnection => exact iff_of_true (yields_ret.mpr (Catalog.spares_granted granted_success)) id

/-- A call that finds the mutex taken returns before it has changed anything, if it does. -/
theorem yields_handle_held (hs : w.state.Sound) (hw : w.held = true) :
    (handle clientFd req).yields env
      (fun reply w' => w.state.catalog.Spares req reply.status w'.state.catalog) w := by
  unfold handle
  cases ht : req.type with
  | openFile =>
    refine (yields_map fun _ => rfl).mpr ?_
    unfold openFileHandler openFileHandlerBy requestPath
    cases hp : req.path with
    | none => exact yields_crash
    | some path =>
      dsimp only [bind_eq, pure_eq, Prog.bind]
      cases hb : readInt req.body with
      | none => exact yields_crash
      | some flags =>
        dsimp only
        cases hc : chkFlag flags oCreate with
        | false => exact yields_openRest (by simp [ht]) hs rfl
        | true =>
          rw [openFilePart_true]
          unfold openFileCreate openFileCreateBy
          simp only [bind_eq, bind_assoc]
          exact yields_blocked hw
  | writeFile =>
    refine (yields_map fun _ => rfl).mpr ?_
    unfold writeFileHandler requestPath
    cases hp : req.path with
    | none => exact yields_crash
    | some path =>
      by_cases hb : req.body = []
      · exact (yields_pos hb).mpr (yields_ret.mpr (Catalog.spares_self (.inr (by decide))))
      · exact (yields_neg hb).mpr (yields_blocked hw)
  | appendToFile =>
    refine (yields_map fun _ => rfl).mpr ?_
    unfold appendToFileHandler requestPath
    cases hp : req.path with
    | none => exact yields_crash
    | some path =>
      by_cases hb : req.body = []
      · exact (yields_pos hb).mpr (yields_ret.mpr (Catalog.spares_self (.inr (by decide))))
      refine (yields_neg hb).mpr ((yields_bind (run_read env w _ _)).mpr ?_)
      by_cases hl : req.body.length > w.state.maxSize
      · exact (yields_pos hl).mpr (yields_ret.mpr (Catalog.spares_self (.inl (by simp [ht]))))
      · exact (yields_neg hl).mpr (yields_blocked (w := w.accessed (fun _ => []) id) hw)
  | closeFile => exact yields_of_commits commits_closeFileHandler (by simp [ht])
  | removeFile => exact yields_of_commits commits_removeFileHandler (by simp [ht])
  | lockFile => exact yields_of_commits commits_lockFileHandler (by simp [ht])
  | unlockFile => exact yields_of_commits commits_unlockFileHandler (by simp [ht])
  | readFile => exact yields_of_commits (readOnly_readFileHandler req).commits (by simp [ht])
  | readNFiles => exact yields_of_commits (readOnly_readNFilesHandler _ req).commits (by simp [ht])
  | openConnection => exact yields_ret.mpr (Catalog.spares_granted granted_success)
  | closeConnection => exact yields_ret.mpr (Catalog.spares_granted granted_success)

end Walks

namespace Server

theorem exec_request {s : Server} {x : Step} {clientFd : Nat} {req : Request} {reply : Reply}
    {w : StorageWorld} (hx : x.call = .request clientFd req) :
    s.exec x = some (some reply, w) ↔ ((handle clientFd req).run x.env s.world).1 = .done reply ∧
      ((handle clientFd req).run x.env s.world).2.1 = w := by
  unfold exec
  simp only [hx, Call.prog, bind_eq, pure_eq, run_bind]
  rcases (handle clientFd req).run x.env s.world with ⟨_ | _ | _, _, _⟩ <;> simp

theorem refusal_iff {t : Server} (hs : t.storage.Sound) {x : Step} {clientFd : Nat} {req : Request}
    (hx : x.call = .request clientFd req) :
    (∀ fd rq reply w, x.call = .request fd rq → t.exec x = some (some reply, w) →
      reply.status.Refused → w.state.catalog = t.storage.catalog.refused rq reply.status) ↔
    (t.held = false → ¬req.Spoils t.storage clientFd x.env) := by
  have hyields : (∀ fd rq reply w, x.call = .request fd rq → t.exec x = some (some reply, w) →
      reply.status.Refused → w.state.catalog = t.storage.catalog.refused rq reply.status) ↔
      (handle clientFd req).yields x.env
        (fun reply w' => t.storage.catalog.Spares req reply.status w'.state.catalog) t.world := by
    constructor
    · exact fun h reply hrep => h clientFd req reply _ hx ((exec_request hx).mpr ⟨hrep, rfl⟩)
    · rintro h _ _ reply _ hc he
      obtain ⟨rfl, rfl⟩ := Call.request.inj (hx.symm.trans hc)
      obtain ⟨hrep, rfl⟩ := (exec_request hx).mp he
      exact h reply hrep
  rw [hyields]
  cases hw : t.held with
  | true => exact iff_of_true (yields_handle_held hs hw) (by simp)
  | false =>
    refine (yields_handle (w := t.world) hs hw).trans ?_
    simp [world]

end Server

end FileStorage
