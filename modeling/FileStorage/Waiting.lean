import FileStorage.Discipline
import FileStorage.Ownership

/-! The clients that wait for a lock: each is in the waiting list of its file until the lock
manager has answered it. -/

namespace FileStorage

open Prog

/-- How often a client is in the waiting list of a file. -/
def File.waiters (f : File) (clientFd : Nat) : Nat :=
  (f.waitingOnLock.getD []).count (clientFd : Int)

/-- The client to which the lock manager gives the lock. -/
def File.grantee (f : File) : Option Int :=
  if chkFlag f.flags oLock = false then (f.waitingOnLock.getD []).head? else none

theorem File.waiters_granted (f : File) (clientFd : Nat) :
    f.granted.waiters clientFd + (if f.grantee = some (clientFd : Int) then 1 else 0) =
      f.waiters clientFd := by
  rcases hw : f.waitingOnLock with _ | _ | ⟨c, waiting⟩
  · simp [granted, grantee, waiters, hw]
  · simp [granted, grantee, waiters, hw]
  · by_cases hl : chkFlag f.flags oLock = false
    · simp [granted, grantee, waiters, hw, hl, List.count_cons]
    · simp [granted, grantee, waiters, hw, hl]

namespace Catalog

def waiters (v : Catalog) (p : Path) (clientFd : Nat) : Nat :=
  (v.get p).elim 0 fun f => f.waiters clientFd

theorem get_relabel {v : Catalog} {g : File → File} (hg : ∀ f, (g f).path = f.path) (p : Path) :
    (v.relabel g).get p = (v.get p).map g := by
  have hp : (fun f : File => decide (f.path = p)) ∘ g = fun f => decide (f.path = p) := by
    funext f
    simp [hg]
  rw [get, relabel, List.find?_map, hp, get]

/-- Files that leave take no one along. -/
theorem Within.waiters {u v : Catalog} (h : u.Within v) (hd : v.paths.Nodup) {p : Path}
    {clientFd : Nat} (hleft : ∀ f, v.get p = some f → f ∉ u.stored → f.waiters clientFd = 0) :
    u.waiters p clientFd = v.waiters p clientFd := by
  unfold Catalog.waiters
  cases hv : v.get p with
  | none => rw [get_none_of_subset h.stored.subset hv]
  | some f =>
    obtain ⟨hf, hp⟩ := get_eq_some hv
    by_cases hm : f ∈ u.stored
    · rw [(get_eq_some_iff (h.nodup hd)).mpr ⟨hm, hp⟩]
    · have hu : u.get p = none := by
        cases hu : u.get p with
        | none => rfl
        | some g =>
          obtain rfl : f = g := Option.some.inj (hv.symm.trans (h.get hd hu))
          exact absurd (get_eq_some hu).1 hm
      rw [hu, Option.elim_none, Option.elim_some, hleft f hv hm]

end Catalog

/-! ### The lock manager -/

/-- The response of the lock manager to a client that waited for the lock of `p`. -/
def grantMessage (clientFd : Int) (p : Path) : Int × Response :=
  (clientFd, ⟨.success, stringBytes p, []⟩)

theorem grantMessage_inj {c c' : Int} {p p' : Path} :
    grantMessage c p = grantMessage c' p' ↔ c = c' ∧ p = p' := by
  simp [grantMessage, stringBytes]

section LockManager

variable {ok : Bool → Prop} {w : StorageWorld}

theorem silent_storageGetFile (path : Option Path) : (storageGetFile path).silent := by
  intro s
  refine silent.ite trivial ?_
  cases path with
  | some p => exact trivial
  | none => exact silent.ite trivial trivial

theorem silent_storageUpdateFile (i : FileId) : (storageUpdateFile i).silent := by
  unfold storageUpdateFile filesInsert
  refine silent.bind (fun _ => trivial) fun file => (silent_storageGetFile _).bind fun r => ?_
  cases r with
  | some j => exact fun _ => trivial
  | none => exact fun b => silent.ite (fun _ => trivial) trivial

theorem returns_lockManagerGrant_sent (hok : ¬ok false) {i : FileId} {f : File} (hc : f.Coherent) :
    (lockManagerGrant i f).returns ok (fun _ w' =>
      w'.sent = w.sent ++ f.grantee.toList.map fun c => grantMessage c f.path) w := by
  unfold lockManagerGrant
  split
  · rename_i clientFd waiting hw
    simp only [whenever, bind_eq, pure_eq, returns_ite, returns_bind, returns_store, returns_ret]
    refine ⟨fun hl => ?_, fun hl => by simp [File.grantee, hl]⟩
    have hpos : ¬clientFd < 0 := Int.not_lt.mpr (hc.waiting _ hw clientFd List.mem_cons_self)
    refine (silent_storageUpdateFile i).returns.mono fun _ w1 h1 => ?_
    rw [sendResponse, if_neg hpos, returns_sendMsg]
    intro b hb
    obtain rfl : b = true := by
      cases b with
      | true => rfl
      | false => exact absurd hb hok
    simp [World.posted, h1, File.grantee, hl, hw, grantMessage]
    rfl
  · rename_i hw
    have hnone : f.grantee = none := by
      unfold File.grantee
      split
      · rcases hf : f.waitingOnLock with _ | _ | ⟨c, waiting⟩
        · rfl
        · rfl
        · exact absurd hf (hw c waiting)
      · rfl
    rw [hnone]
    exact returns_ret.mpr (by simp)

/-- The responses that were sent and the clients that still wait. -/
def World.accounted (w : StorageWorld) (p : Path) (clientFd : Nat) : Nat :=
  w.sent.count (grantMessage clientFd p) + w.state.catalog.waiters p clientFd

/-- What the lock manager takes out of the waiting list of one file it answers. -/
theorem accounted_grant {w1 : StorageWorld} {p : Path} {i : FileId} (hs : w.state.Sound)
    (hg : w.state.get p = some i) (h : Relocked (Catalog.onPath (some p) File.granted) w w1)
    (hsent : w1.sent = w.sent ++ (w.state.heap i).grantee.toList.map fun c =>
      grantMessage c (w.state.heap i).path) (q : Path) (clientFd : Nat) :
    w1.accounted q clientFd = w.accounted q clientFd := by
  have hp : (w.state.heap i).path = p := (hs.get_mem hg).2
  have hpath : ∀ f, (Catalog.onPath (some p) File.granted f).path = f.path := fun f =>
    (Catalog.sameData_onPath (some p) File.sameData_granted f).path
  have hget := Catalog.get_relabel (v := w.state.catalog) hpath q
  rw [← h.catalog] at hget
  have hmsg : ((w.state.heap i).grantee.toList.map fun c => grantMessage c p).count
      (grantMessage clientFd q) =
      if p = q ∧ (w.state.heap i).grantee = some (clientFd : Int) then 1 else 0 := by
    cases (w.state.heap i).grantee with
    | none => simp
    | some c => simp [List.count_cons, grantMessage_inj, and_comm]
  simp only [World.accounted, Catalog.waiters, hget, hsent, hp, List.count_append, hmsg]
  by_cases hq : p = q
  · subst hq
    have hf := hs.catalog_get hg
    have hw := (w.state.heap i).waiters_granted clientFd
    simp only [hf, Option.map_some, Option.elim_some, Catalog.onPath, hp, if_true, true_and]
    omega
  · simp only [hq, false_and, if_false, Nat.add_zero]
    cases hf : w.state.catalog.get q with
    | none => rfl
    | some f =>
      have hfq := (Catalog.get_eq_some hf).2
      simp [Catalog.onPath, hfq, hq]

theorem returns_lockManagerVisit_accounted (hok : ¬ok false) {queue : List PathPtr}
    (hs : w.state.Sound) (hc : ∀ f ∈ w.state.catalog.stored, f.Coherent) :
    (lockManagerVisit queue).returns ok (fun _ w' =>
      ∀ p clientFd, w'.accounted p clientFd = w.accounted p clientFd) w := by
  induction queue generalizing w with
  | nil => exact returns_ret.mpr fun _ _ => rfl
  | cons curr rest ih =>
    simp only [lockManagerVisit, bind_eq, returns_bind]
    refine returns_storageGetFile fun _ => ?_
    cases hg : w.state.find (some curr.path) with
    | none => exact returns_ret.mpr fun _ _ => rfl
    | some i =>
      have hcoh : (w.state.heap i).Coherent := hc _ (hs.get_mem hg).1
      simp only [returns_bind, returns_load]
      refine returns.mono (returns.and (returns_lockManagerGrant hs hg rfl)
        (returns_lockManagerGrant_sent hok hcoh)) fun _ w1 h => ?_
      obtain ⟨h1, h2⟩ := h
      have hr : Relocked (Catalog.onPath (some curr.path) File.granted) w w1 :=
        h1.before rfl (by simp)
      have hc1 : ∀ f ∈ w1.state.catalog.stored, f.Coherent := by
        rw [hr.catalog]
        intro f hf
        obtain ⟨g, hgm, rfl⟩ := List.mem_map.mp hf
        unfold Catalog.onPath
        split
        · exact (hc g hgm).granted
        · exact hc g hgm
      refine (ih h1.sound hc1).mono fun _ w' h p clientFd => ?_
      rw [h p clientFd, accounted_grant hs hg hr h2]

theorem returns_lockManagerPass_accounted (hok : ¬ok false) (hs : w.state.Sound)
    (hc : ∀ f ∈ w.state.catalog.stored, f.Coherent) :
    lockManagerPass.returns ok (fun _ w' =>
      ∀ p clientFd, w'.accounted p clientFd = w.accounted p clientFd) w := by
  simp only [lockManagerPass, bind_eq, returns_bind, returns_lockReturn, returns_read]
  intro _
  refine (returns_lockManagerVisit_accounted hok (w := w.locked.accessed _ id) hs hc).mono
    fun _ w1 h => ?_
  rw [returns_unlockReturn]
  exact h

end LockManager

/-! ### The other calls -/

/-- The call is a request for the lock of `p` whose reply says that the client waits. -/
def Call.awaits (c : Call) (r : Option Reply) (p : Path) (clientFd : Nat) : Bool :=
  match c with
  | .request fd req => decide (fd = clientFd ∧ req.type = .lockFile ∧ req.path.join = some p ∧
      r.map Reply.status = some .awaiting)
  | .lockManager => false

namespace Catalog

variable {v v' : Catalog} {c : Call} {r : Option Reply} {p : Path} {clientFd : Nat}

@[simp] theorem waiters_locked (f : File) (fd : Int) :
    (f.locked fd).waiters clientFd = f.waiters clientFd := rfl

@[simp] theorem waiters_unlocked (f : File) : f.unlocked.waiters clientFd = f.waiters clientFd :=
  rfl

theorem waiters_opened (f : File) (fd : Int) :
    (f.opened fd).waiters clientFd = f.waiters clientFd := by
  unfold File.opened
  split <;> rfl

theorem waiters_closed (f : File) (fd : Int) :
    (f.closed fd).waiters clientFd = f.waiters clientFd := by
  unfold File.closed
  split <;> rfl

theorem waiters_asked (f : File) (fd : Nat) (status : ResponseCode)
    (h : status = .awaiting → f.Waits fd) :
    (f.asked fd status).waiters clientFd =
      f.waiters clientFd + if fd = clientFd ∧ status = .awaiting then 1 else 0 := by
  by_cases hst : status = .awaiting
  · obtain ⟨hl, -, hw⟩ := h hst
    obtain ⟨waiting, hw⟩ := Option.ne_none_iff_exists'.mp hw
    simp [File.asked, hl, hst, File.waiters, hw, List.count_cons]
  · by_cases hl : chkFlag f.flags oLock = false
    · simp [File.asked, hl, hst]
    · simp [File.asked, hl, hst]

theorem waiters_relock {fd : Nat} {req : Request} (f : File)
    (h : (Call.request fd req).awaits r f.path fd = true → f.Waits fd) :
    (v.relock (.request fd req) r f).waiters clientFd =
      f.waiters clientFd + if (Call.request fd req).awaits r f.path clientFd then 1 else 0 := by
  by_cases hp : req.path.join = some f.path
  · by_cases hl : req.type = .lockFile
    · cases r with
      | none => simp [relock, hp, hl, Call.awaits]
      | some reply =>
        have hask : (f.asked fd reply.status).waiters clientFd = _ :=
          waiters_asked f fd reply.status fun hst => h (by simp [Call.awaits, hl, hp, hst])
        simp [relock, hp, hl, Call.awaits, hask]
    · have hno : (Call.request fd req).awaits r f.path clientFd = false := by
        simp [Call.awaits, hl]
      rw [hno]
      simp only [relock, if_pos hp, Bool.false_eq_true, if_false, Nat.add_zero]
      split
      · split
        · exact waiters_opened f fd
        · rfl
      · exact waiters_closed f fd
      · exact waiters_closed f fd
      · rename_i ht
        exact absurd ht hl
      · rfl
  · simp [relock, hp, Call.awaits]

/-! ### Files that leave -/

/-- No one waits for a file of the bucket of `q`. -/
def Unawaited (v : Catalog) (q : Path) : Prop :=
  ∀ f ∈ v.stored, v.bucket f.path = v.bucket q → f.waitingOnLock.getD [] = []

instance (v : Catalog) (q : Path) : Decidable (v.Unawaited q) :=
  inferInstanceAs (Decidable (∀ f ∈ v.stored, _))

/-- The changes that leave no waiting client without its file: what is removed, or expelled by an
open or a write, takes files along for which no one waits. The written file is put back, unless
something is refused to the write, and must not be expelled itself. -/
def KeepsWaiters (v : Catalog) (fail : Prop) : Deed → Prop
  | .other => True
  | .create _ => True
  | .replace _ q => q ∈ v.queue.tail → (v.get q).isSome → v.Unawaited q
  | .discard p _ => p ∈ v.queue → v.Unawaited p
  | .write p _ body => ∀ q ∈ v.victims body.length, ∀ f ∈ v.stored,
      v.bucket f.path = v.bucket q →
      f.path = p ∧ q ≠ p ∧ ¬fail ∨ f.waitingOnLock.getD [] = []
  | .append _ _ _ => True

instance (v : Catalog) (fail : Prop) [Decidable fail] : ∀ d, Decidable (v.KeepsWaiters fail d)
  | .other => inferInstanceAs (Decidable True)
  | .create _ => inferInstanceAs (Decidable True)
  | .replace _ q =>
    inferInstanceAs (Decidable (q ∈ v.queue.tail → (v.get q).isSome → v.Unawaited q))
  | .discard p _ => inferInstanceAs (Decidable (p ∈ v.queue → v.Unawaited p))
  | .write p _ body => inferInstanceAs (Decidable (∀ q ∈ v.victims body.length, ∀ f ∈ v.stored,
      v.bucket f.path = v.bucket q →
      f.path = p ∧ q ≠ p ∧ ¬fail ∨ f.waitingOnLock.getD [] = []))
  | .append _ _ _ => inferInstanceAs (Decidable True)

theorem waiters_eq_zero {f : File} (h : f.waitingOnLock.getD [] = []) :
    f.waiters clientFd = 0 := by
  rw [File.waiters, h, List.count_nil]

theorem waiters_wipe (hd : v.paths.Nodup) {q : Path} (hq : v.Unawaited q) :
    (v.wipe q).waiters p clientFd = v.waiters p clientFd := by
  refine (within_wipe v q).waiters hd fun f hf hleft => waiters_eq_zero ?_
  obtain ⟨hm, -⟩ := get_eq_some hf
  refine hq f hm ?_
  by_contra hb
  exact hleft (List.mem_filter.mpr ⟨hm, decide_eq_true hb⟩)

theorem waiters_discard (hd : v.paths.Nodup) {q : Path} (f : File)
    (hq : q ∈ v.queue → v.Unawaited q) :
    (v.discard q f).waiters p clientFd = v.waiters p clientFd := by
  by_cases hm : q ∈ v.queue
  · have he : v.discard q f = { v.discount f with queue := v.queue.erase q }.wipe q := if_pos hm
    rw [he]
    exact waiters_wipe (v := { v.discount f with queue := v.queue.erase q }) hd (hq hm)
  · have he : v.discard q f = { v.discount f with queue := v.queue.erase q } := if_neg hm
    rw [he]
    rfl

theorem waiters_replaceHead (hd : v.paths.Nodup) {q : Path}
    (hq : q ∈ v.queue.tail → (v.get q).isSome → v.Unawaited q) :
    (v.replaceHead q).waiters p clientFd = v.waiters p clientFd := by
  simp only [replaceHead]
  split
  · rename_i f hf
    have hsome : (v.get q).isSome := Option.isSome_iff_exists.mpr ⟨f, hf⟩
    exact waiters_discard (v := { v with queue := v.queue.tail }) hd f fun hm => hq hm hsome
  · rfl

theorem Created.waiters (h : v.Created p v') (hd : v.paths.Nodup) (hd' : v'.paths.Nodup)
    (q : Path) : v'.waiters q clientFd = v.waiters q clientFd := by
  obtain ⟨list, hget⟩ := h.get_eq hd hd' q
  by_cases hq : q = p
  · subst hq
    rw [if_pos rfl] at hget
    have hnone : (File.fresh q list).waitingOnLock.getD [] = [] := by cases list <;> rfl
    simp [Catalog.waiters, hget, h.absent, waiters_eq_zero hnone]
  · rw [if_neg hq] at hget
    rw [Catalog.waiters, hget, Catalog.waiters]

/-- A file that a write has expelled was in the bucket of a victim. -/
theorem Evicts.left {n : Nat} {qs : List Path} {ns : List Access} (h : v.Evicts n qs ns v')
    (hd : v.paths.Nodup) {f : File} (hf : v.get p = some f) (hleft : f ∉ v'.stored) :
    ∃ q ∈ qs, v.bucket f.path = v.bucket q := by
  by_contra hno
  have hp := (get_eq_some hf).2
  have hkeep := h.keeps hd hf fun q hq hb => hno ⟨q, hq, hp ▸ hb⟩
  exact hleft (get_eq_some hkeep).1

/-! ### Requests -/

theorem awaits_of_deed {fd : Nat} {req : Request} (h : v.deed (.request fd req) ≠ .other) :
    (Call.request fd req).awaits r p clientFd = false := by
  have hdue := deed_due v (.request fd req)
  have hne : req.type ≠ .lockFile := by
    generalize v.deed (.request fd req) = d at h hdue
    cases hdue with
    | other => exact absurd rfl h
    | create ht _ _ _ _ _ => simp [ht]
    | replace ht _ _ _ _ _ _ => simp [ht]
    | refuse ht _ _ _ _ _ => simp [ht]
    | remove ht _ _ _ _ => simp [ht]
    | write ht _ _ _ _ _ _ => simp [ht]
    | append ht _ _ _ _ _ => simp [ht]
  simp [Call.awaits, hne]

theorem waiters_relabel_of_deed {u : Catalog} {fd : Nat} {req : Request}
    (h : v.deed (.request fd req) ≠ .other) :
    (u.relabel (v.relock (.request fd req) r)).waiters p clientFd = u.waiters p clientFd := by
  have hget := get_relabel (v := u) (fun f => (v.sameData_relock (.request fd req) r f).path) p
  rw [waiters, hget, waiters]
  cases u.get p with
  | none => rfl
  | some f =>
    have hno : (Call.request fd req).awaits r f.path clientFd = false := awaits_of_deed h
    have hrel : (v.relock (.request fd req) r f).waiters clientFd = _ :=
      waiters_relock f fun ha => by
        rw [awaits_of_deed h] at ha
        cases ha
    simpa [hno] using hrel

theorem waiters_write {fail : Prop} {f : File} {body : Bytes} {ns : List Access} {w : Catalog}
    {qs : List Path} {q : Path} (hd : v.paths.Nodup) (hd' : v'.paths.Nodup)
    (hf : v.get p = some f) (hev : v.Evicts body.length qs ns w)
    (hfin : w.Finished fail p (f.wrote body) v' ∨ fail ∧ v' = w)
    (hk : ∀ q ∈ qs, ∀ g ∈ v.stored, v.bucket g.path = v.bucket q →
      g.path = p ∧ q ≠ p ∧ ¬fail ∨ g.waitingOnLock.getD [] = []) :
    v'.waiters q clientFd = v.waiters q clientFd := by
  have hw : q ≠ p ∨ fail → w.waiters q clientFd = v.waiters q clientFd := by
    intro hcase
    refine hev.within.waiters hd fun g hg hleft => ?_
    obtain ⟨victim, hm, hb⟩ := hev.left hd hg hleft
    obtain ⟨hgm, hgq⟩ := get_eq_some hg
    rcases hk victim hm g hgm hb with ⟨hp, -, hnf⟩ | hno
    · rcases hcase with hne | hf
      · exact absurd (hgq.symm.trans hp) hne
      · exact absurd hf hnf
    · exact waiters_eq_zero hno
  rcases hfin with hfin | ⟨hfail, rfl⟩
  · rcases hfin.stored with hperm | ⟨hfail, -, heq⟩
    · have hp : (f.wrote body).path = p := (get_eq_some hf).2
      have hget := get_of_perm_filter (hev.within.nodup hd) hd' hp hperm q
      by_cases hq : q = p
      · rw [if_pos hq] at hget
        subst hq
        rw [waiters, hget, waiters, hf]
        rfl
      · rw [if_neg hq] at hget
        rw [waiters, hget]
        exact hw (.inl hq)
    · have hget : v'.get q = w.get q := by rw [Catalog.get, heq, Catalog.get]
      rw [waiters, hget]
      exact hw (.inr hfail)
  · exact hw (.inr hfail)

/-- A request changes who waits only by its own reply. -/
theorem waiters_request {fail : Prop} {fd : Nat} {req : Request} {ns : List Access}
    (hd : v.paths.Nodup) (hd' : v'.paths.Nodup) (he : Effect fail v (.request fd req) r ns v')
    (hl : v.Locking fail (.request fd req) r v')
    (hk : v.KeepsWaiters fail (v.deed (.request fd req)))
    (hw : ∀ q, (Call.request fd req).awaits r q fd = true → ∃ f, v.get q = some f ∧ f.Waits fd) :
    v'.waiters p clientFd =
      v.waiters p clientFd + if (Call.request fd req).awaits r p clientFd then 1 else 0 := by
  by_cases hother : v.deed (.request fd req) = .other
  · simp only [Locking, hother] at hl
    have hget := get_relabel (v := v) (fun f => (v.sameData_relock (.request fd req) r f).path) p
    have hfd : (Call.request fd req).awaits r p clientFd = true →
        (Call.request fd req).awaits r p fd = true := by
      simp +contextual [Call.awaits]
    rw [hl, waiters, hget, waiters]
    cases hg : v.get p with
    | none =>
      have hno : (Call.request fd req).awaits r p clientFd = false := by
        rw [Bool.eq_false_iff]
        intro ha
        obtain ⟨f, hf, -⟩ := hw p (hfd ha)
        rw [hg] at hf
        cases hf
      simp [hno]
    | some f =>
      have hp := (get_eq_some hg).2
      rw [← hp] at hfd ⊢
      refine waiters_relock f fun ha => ?_
      obtain ⟨f', hf', hwaits⟩ := hw f.path ha
      rw [hp, hg] at hf'
      exact Option.some.inj hf' ▸ hwaits
  · rw [awaits_of_deed hother]
    simp only [Bool.false_eq_true, if_false, Nat.add_zero]
    have hu : ∀ u : Catalog, v' = u.relabel (v.relock (.request fd req) r) → u.paths.Nodup := by
      rintro u rfl
      rwa [relabel_paths fun f _ => v.sameData_relock _ _ f] at hd'
    unfold Locking at hl
    unfold Effect at he
    cases hdeed : v.deed (.request fd req) with
    | other => exact absurd hdeed hother
    | create q =>
      simp only [hdeed] at hl
      obtain ⟨u, hcr, hv'⟩ := hl
      rw [hv', waiters_relabel_of_deed hother]
      rcases hcr with hcr | ⟨-, rfl⟩
      · exact hcr.waiters hd (hu u hv') p
      · rfl
    | replace q victim =>
      simp only [hdeed] at hl hk
      obtain ⟨u, hcr, hv'⟩ := hl
      have hrep : (v.replaceHead victim).waiters p clientFd = v.waiters p clientFd :=
        waiters_replaceHead hd hk
      have hdr : (v.replaceHead victim).paths.Nodup := (within_replaceHead v victim).nodup hd
      rw [hv', waiters_relabel_of_deed hother]
      rcases hcr with hcr | ⟨-, rfl | rfl⟩
      · exact (hcr.waiters hdr (hu u hv') p).trans hrep
      · exact hrep
      · rfl
    | discard q f =>
      simp only [hdeed] at he hk
      obtain ⟨-, rfl, -⟩ := he
      exact waiters_discard hd f hk
    | write q f body =>
      simp only [hdeed] at he hk
      obtain ⟨w, qs, hev, hfin⟩ := he
      have hf : v.get q = some f := get_of_target (by rw [hdeed]; rfl)
      refine waiters_write hd hd' hf hev (hfin.imp And.left fun h => ⟨h.1, h.2.1⟩) ?_
      rw [hev.eq_victims hd]
      exact hk
    | append q f body =>
      simp only [hdeed] at he
      have hf : v.get q = some f := get_of_target (by rw [hdeed]; rfl)
      have hput : ∀ g : File, g.path = q → g.waitingOnLock = f.waitingOnLock →
          (v.put q g).waiters p clientFd = v.waiters p clientFd := by
        intro g hg hwait
        rw [waiters, get_put hd hf hg, waiters]
        by_cases hpq : p = q
        · subst hpq
          rw [if_pos rfl, hf, Option.elim_some, Option.elim_some, File.waiters, hwait, File.waiters]
        · rw [if_neg hpq]
      have hpath := (get_eq_some hf).2
      obtain ⟨-, ⟨rfl, -⟩ | ⟨-, rfl, -⟩⟩ := he
      · exact hput (f.appended body) hpath rfl
      · exact hput { f with contents := none } hpath rfl

end Catalog

/-! ### Runs -/

/-- A client that is told to wait has found the file locked by another one. -/
theorem Server.exec_waits {s : Server} {x : Step} {r : Option Reply} {w : StorageWorld}
    (hs : s.storage.Sound) (he : s.exec x = some (r, w)) {clientFd : Nat} {p : Path}
    (ha : x.call.awaits r p clientFd = true) :
    ∃ f, s.storage.catalog.get p = some f ∧ f.Waits clientFd := by
  cases hc : x.call with
  | lockManager =>
    rw [hc] at ha
    cases ha
  | request fd req =>
    simp only [hc, Call.awaits, decide_eq_true_eq] at ha
    obtain ⟨rfl, ht, hp, hst⟩ := ha
    have hret : x.call.prog.returns (fun b => b = false → false ∈ x.env)
        (fun r _ => r.map Reply.status = some .awaiting → ∃ p f, req.path.join = some p ∧
          s.storage.catalog.get p = some f ∧ f.Waits fd) s.world := by
      simp only [hc, Call.prog, handle, ht, bind_eq, pure_eq, returns_bind, returns_ret]
      refine (returns_lockFileHandler hs).mono fun status w' h hst => h.2 ?_
      simpa using hst
    obtain ⟨p', f, hp', hf, hwaits⟩ := exec_returns hret he hst
    obtain rfl := Option.some.inj (hp.symm.trans hp')
    exact ⟨f, hf, hwaits⟩

def Record.awaits (x : Record) (p : Path) (clientFd : Nat) : Bool :=
  x.step.call.awaits x.reply p clientFd

/-- The responses of the lock manager to a client about a path. -/
def Record.responses (x : Record) (p : Path) (clientFd : Nat) : Nat :=
  match x.step.call with
  | .lockManager => x.world.sent.count (grantMessage clientFd p)
  | .request _ _ => 0

/-- The calls that leave no waiting client behind, from the state they start in. -/
def AnswersStep (s : Server) (x : Step) : Prop :=
  s.storage.catalog.KeepsWaiters (false ∈ x.env) (s.storage.catalog.deed x.call) ∧
    (x.call = .lockManager → false ∉ x.env)

instance (s : Server) (x : Step) : Decidable (AnswersStep s x) :=
  inferInstanceAs (Decidable (_ ∧ _))

/-- One call moves a waiting client from the list to the responses, or adds it to the list. -/
theorem Server.waiters_step {t : Server} {x : Step} {r : Option Reply} {w : StorageWorld}
    (hs : t.storage.Sound) (hc : ∀ f ∈ t.storage.catalog.stored, f.Coherent)
    (ha : AnswersStep t x) (he : t.exec x = some (r, w)) (p : Path) (clientFd : Nat) :
    (Record.mk x r w).responses p clientFd + w.state.catalog.waiters p clientFd =
      t.storage.catalog.waiters p clientFd +
        if (Record.mk x r w).awaits p clientFd then 1 else 0 := by
  obtain ⟨hkeep, hsends⟩ := ha
  obtain ⟨hs', heff⟩ := exec_done hs he
  have hlock := exec_locking hs he
  cases hcall : x.call with
  | request fd req =>
    rw [hcall] at heff hlock hkeep
    have hw : ∀ q, (Call.request fd req).awaits r q fd = true →
        ∃ f, t.storage.catalog.get q = some f ∧ f.Waits fd :=
      fun q hq => exec_waits hs he (hcall ▸ hq)
    simp only [Record.responses, Record.awaits, hcall, Nat.zero_add]
    exact Catalog.waiters_request hs.nodup hs'.nodup heff hlock hkeep hw
  | lockManager =>
    have hret : x.call.prog.returns (fun b => b = false → false ∈ x.env)
        (fun _ w' => ∀ p clientFd, w'.accounted p clientFd = t.world.accounted p clientFd)
        t.world := by
      simp only [hcall, Call.prog, bind_eq, pure_eq, returns_bind, returns_ret]
      exact returns_lockManagerPass_accounted (fun h => hsends hcall (h rfl)) hs hc
    have h := exec_returns hret he p clientFd
    simpa [World.accounted, Record.responses, Record.awaits, Call.awaits, hcall, world] using h

end FileStorage
