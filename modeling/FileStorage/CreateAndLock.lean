import FileStorage.Appending
import FileStorage.Turns

/-! `OPEN_FILE` with `O_CREATE` and `O_LOCK`, which creates the file in one critical section and
locks it in the next. -/

namespace FileStorage

open Machine Prog

namespace Prog

variable {σ ε μ α β : Type}

/-- The program releases the mutex as the last thing it does. -/
def closes : Prog σ ε μ α → Prop
  | ret _ => False
  | crash => True
  | lock k => k.closes
  | unlock k => ∃ a, k = ret a
  | access _ _ k => ∀ s, (k s).closes
  | choose k => ∀ b, (k b).closes
  | send _ k => ∀ b, (k b).closes

/-- The step of a thread ends where such a part of its program ends. -/
theorem closes.toRelease_bind {p : Prog σ ε μ β} {g : β → Prog σ ε μ α} {q : Prog σ ε μ α}
    {env env' : List Bool} {w w' : World σ ε μ} (hp : p.closes)
    (h : (p.bind g).toRelease env w = some (q, w', env')) :
    ∃ b, q = g b ∧ w'.held = false ∧ p.run env w = (.done b, w', env') := by
  induction p generalizing env w with
  | ret b => exact hp.elim
  | crash => cases h
  | lock k ih =>
    by_cases hw : w.held = true
    · simp [bind, toRelease, hw] at h
    · rw [bind, toRelease, if_neg hw] at h
      rw [run, if_neg hw]
      exact ih hp h
  | unlock k ih =>
    obtain ⟨b, rfl⟩ := hp
    simp only [bind, toRelease, Option.some.injEq, Prod.mk.injEq] at h
    obtain ⟨rfl, rfl, rfl⟩ := h
    exact ⟨b, rfl, rfl, rfl⟩
  | access es f k ih => exact ih _ (hp _) h
  | choose k ih => exact ih _ (hp _) h
  | send m k ih => exact ih _ (hp _) h

/-- Where such a part returns, it can be taken. -/
theorem closes.toRelease_of_run {p : Prog σ ε μ β} {g : β → Prog σ ε μ α} {env env' : List Bool}
    {w w' : World σ ε μ} {b : β} (hp : p.closes) (h : p.run env w = (.done b, w', env')) :
    (p.bind g).toRelease env w = some (g b, w', env') := by
  induction p generalizing env w with
  | ret b => exact hp.elim
  | crash => cases h
  | lock k ih =>
    by_cases hw : w.held = true
    · simp [run, hw] at h
    · rw [run, if_neg hw] at h
      rw [bind, toRelease, if_neg hw]
      exact ih hp h
  | unlock k ih =>
    obtain ⟨b, rfl⟩ := hp
    simp only [run, Prod.mk.injEq, Outcome.done.injEq] at h
    obtain ⟨rfl, rfl, rfl⟩ := h
    rfl
  | access es f k ih => exact ih _ (hp _) h
  | choose k ih => exact ih _ (hp _) h
  | send m k ih => exact ih _ (hp _) h

theorem plain.closes_bind {p : Prog σ ε μ β} {g : β → Prog σ ε μ α} (hp : p.plain)
    (hg : ∀ b, (g b).closes) : (p.bind g).closes := by
  induction p with
  | ret b => exact hg b
  | crash => trivial
  | lock k => exact hp.elim
  | unlock k => exact hp.elim
  | access es f k ih => exact fun s => ih s (hp s)
  | choose k ih => exact fun b => ih b (hp b)
  | send m k ih => exact fun b => ih b (hp b)

theorem closes.map {p : Prog σ ε μ β} {f : β → α} (hp : p.closes) :
    (p.bind fun b => ret (f b)).closes := by
  induction p with
  | ret b => exact hp.elim
  | crash => trivial
  | lock k ih => exact ih hp
  | unlock k ih =>
    obtain ⟨b, rfl⟩ := hp
    exact ⟨f b, rfl⟩
  | access es g k ih => exact fun s => ih s (hp s)
  | choose k ih => exact fun b => ih b (hp b)
  | send m k ih => exact fun b => ih b (hp b)

end Prog

theorem sectional_closes : Sectional fun _ p _ => p.closes where
  crash _ := trivial
  map _ h := h.map
  enter h := h
  inside hp h := hp.closes_bind h
  leave b := ⟨b, rfl⟩

/-- A request to create a file, whose path fits into the record, and to lock it. -/
structure Request.CreatesLocked (req : Request) (p : Path) (flags : Flags) : Prop where
  type : req.type = .openFile
  path : req.path = some (some p)
  fits : p.length < maxPath
  body : readInt req.body = some flags
  create : chkFlag flags oCreate = true
  lock : chkFlag flags oLock = true
  noflag : chkFlag flags oNoflag = false

/-- What is left of the call after its first section. -/
def lockPart (clientFd : Nat) (p : Path) : ServerM (Option Reply) :=
  (openFileLock clientFd (some p)).bind fun r => ret (some ⟨r.getD .success, []⟩)

theorem prog_createsLocked {clientFd : Nat} {req : Request} {p : Path} {flags : Flags}
    (h : req.CreatesLocked p flags) :
    (Call.request clientFd req).prog = (openFileCreate (some p)).bind fun r =>
      r.elim (lockPart clientFd p) fun status => ret (some ⟨status, []⟩) := by
  obtain ⟨ht, hp, -, hb, hc, hl, hn⟩ := h
  simp only [Call.prog, handle, ht, openFileHandler, openFileHandlerBy, requestPath, hp, hb,
    bind_eq, pure_eq, Prog.bind,
    hc, hl, hn, openFilePart_true, bind_assoc]
  congr 1
  funext r
  cases r with
  | some status => rfl
  | none =>
    simp only [Option.elim, bind_assoc, lockPart, openFilePart]
    congr 1
    funext r
    cases r <;> rfl

section Parts

variable {clientFd : Nat} {req : Request} {p : Path} {flags : Flags} {env env' : List Bool}
  {w w' : StorageWorld} {r : Option ResponseCode}

theorem openFileCreate_entered {path : Option Path}
    (hrun : (openFileCreate path).run env w = (.done r, w', env')) :
    w.held = false ∧ w.state.files.nBuckets ≠ 0 := by
  have hw : w.held = false := by
    by_contra hheld
    rw [Bool.not_eq_false] at hheld
    simp [openFileCreate, openFileCreateBy, lockReturn, Prog.bind, run, hheld] at hrun
  refine ⟨hw, fun hn => ?_⟩
  have hlook := run_storageGetFile path env w.locked
  have hnone : w.locked.state.lookup path = none := by
    simp [Storage.lookup, hn]
  rw [hnone] at hlook
  unfold openFileCreate openFileCreateBy at hrun
  simp only [bind_eq, pure_eq] at hrun
  rw [run_bind_done (run_lockReturn env w hw), run_bind_crashed hlook] at hrun
  cases hrun

/-- The first section of a request that creates the file and locks it. -/
theorem openFileCreate_done (hreq : req.CreatesLocked p flags) (hs : w.state.Sound)
    (hw' : w'.held = false) (hsp : ¬req.SpoilsOpen w.state env)
    (hrun : (openFileCreate (some p)).run env w = (.done r, w', env')) :
    w'.state.Sound ∧
      ((∃ status, r = some status ∧ status.Refused ∧ w'.state.catalog = w.state.catalog) ∨
        r = none ∧ w.state.catalog.get p = none ∧
          ((∃ list, w'.state.catalog.get p = some (File.fresh p list)) ∨
            w'.state.catalog = w.state.catalog)) := by
  obtain ⟨hw, hn₀⟩ := openFileCreate_entered hrun
  have hsame : Relocked id w w' → w'.state.catalog = w.state.catalog := fun h =>
    h.catalog.trans (Catalog.relabel_id (g := id) _ fun _ _ => rfl)
  obtain ⟨hanswer, -⟩ := (answers_openFileCreate (some p)).returns.of_run hrun
  have hstill : Relocked id w w' → w.state.catalog.get p = none → w'.state.Sound ∧
      ((∃ status, r = some status ∧ status.Refused ∧ w'.state.catalog = w.state.catalog) ∨
        r = none ∧ w.state.catalog.get p = none ∧
          ((∃ list, w'.state.catalog.get p = some (File.fresh p list)) ∨
            w'.state.catalog = w.state.catalog)) := by
    intro hq hg
    refine ⟨hq.sound, ?_⟩
    cases hr : r with
    | none => exact .inr ⟨rfl, hg, .inr (hsame hq)⟩
    | some status => exact .inl ⟨status, rfl, hanswer status hr, hsame hq⟩
  have hcreated : OpenCreated True (some p) w r w' :=
    (returns_openFileCreate hs).of_run hrun
  cases hcreated with
  | @present q _ hp hg hq =>
    exact ⟨hq.sound, .inl ⟨_, rfl, hanswer _ rfl, hsame hq⟩⟩
  | full hp hg _ _ hq =>
    obtain rfl := Option.some.inj hp
    exact hstill hq hg
  | failed _ hg hq => exact hstill hq (hg p rfl)
  | created hp _ hs' _ hc =>
    obtain rfl := Option.some.inj hp
    exact ⟨hs', .inr ⟨rfl, hc.absent, .inl (hc.get hs'.nodup)⟩⟩
  | @replaced _ q _ hp hg _ _ hs' _ hc =>
    obtain rfl := Option.some.inj hp
    refine ⟨hs', .inr ⟨rfl, hg, ?_⟩⟩
    rcases hc with hc | ⟨-, hc⟩
    · exact .inl (hc.get hs'.nodup)
    · -- the request would report that the file is missing, after another one has made room for it
      refine .inr (by_contra fun hne => ?_)
      have hy := (@yields_openFileHandler 0 req env w hs hw hreq.type).mpr hsp
      simp only [openFileHandler, openFileHandlerBy, requestPath, hreq.path, hreq.body, bind_eq,
        pure_eq, Prog.bind,
        hreq.create] at hy
      rw [openFilePart_true, yields_bind hrun, hreq.lock] at hy
      have hn : w'.state.files.nBuckets = w.state.files.nBuckets := by
        have hb := congrArg Catalog.nBuckets hc
        rwa [Catalog.replaceHead_nBuckets] at hb
      have hg' : w'.state.get p = none := hs'.get_none_of_catalog (hc ▸
        Catalog.get_none_of_subset (Catalog.replaceHead_subset _ _) hg)
      have hl : w'.state.lookup (some p) = some none := by
        rw [lookup_eq_get (hn ▸ hn₀), hg']
      exact (yields_openRest_absent (by simp [hreq.type]) hw' hl hne).mp hy (.inl rfl)

/-- The second section comes to its end. -/
theorem run_openFileLock (hw : w.held = false) (hs : w.state.Sound) (hn : w.state.files.nBuckets ≠ 0)
    (env : List Bool) :
    ∃ r w' env', (openFileLock clientFd (some p)).run env w = (.done r, w', env') := by
  have hreturns : (openFileLock clientFd (some p)).attains (fun _ => True) (fun _ _ => True) w := by
    cases hg : w.state.get p with
    | some i => exact (attains_openFileLock hw hs hg).mono fun _ _ _ => trivial
    | none =>
      have hnone : w.locked.state.get p = none := hg
      have hlocked : w.locked.state.files.nBuckets ≠ 0 := hn
      simp only [openFileLock, bind_eq, pure_eq, attains_bind, attains_lockReturn]
      refine ⟨hw, ?_⟩
      rw [storageGetFile, attains_access, if_neg hlocked, attains_ret, hnone]
      exact ⟨_, rfl, trivial⟩
  obtain ⟨r, w', env', hrun, -⟩ := hreturns.sound trivial fun b (_ : b ∈ env) => trivial
  exact ⟨r, w', env', hrun⟩

/-- The second section where the file is missing. -/
theorem openFileLock_absent {fd : Int} (hs : w.state.Sound) (hg : w.state.catalog.get p = none)
    (hrun : (openFileLock fd (some p)).run env w = (.done r, w', env')) :
    ∃ status, r = some status ∧ status.Refused ∧ w'.state.catalog = w.state.catalog := by
  have hall := ((@commits_openFileLock fd (some p)).returns.and
    ((returns_openFileLock_found hs).and (answers_openFileLock fd (some p)).returns)).of_run hrun
  obtain ⟨hsame, hfound, hanswer⟩ := hall
  cases r with
  | none =>
    obtain ⟨q, f, hq, hf⟩ := hfound rfl
    obtain rfl := Option.some.inj hq
    rw [hg] at hf
    cases hf
  | some status =>
    refine ⟨status, rfl, hanswer status rfl, ?_⟩
    rcases hsame with h | h
    · cases h
    · exact congrArg Storage.catalog h

/-- The second section where nobody has the lock. -/
theorem openFileLock_free {f : File} (hs : w.state.Sound) (hg : w.state.catalog.get p = some f)
    (hf : chkFlag f.flags oLock = false)
    (hrun : (openFileLock clientFd (some p)).run env w = (.done r, w', env')) :
    r = none ∧ ∃ g, w'.state.catalog.get p = some g ∧ g.lockedBy = clientFd := by
  have hall := (returns_openFileLock hs).of_run hrun
  obtain ⟨hq, hr⟩ := hall
  refine ⟨hr p f rfl hg hf, f.opened clientFd, ?_, ?_⟩
  · have hp : (f.opened clientFd).path = p :=
      (f.sameData_opened clientFd).path.trans (Catalog.get_eq_some hg).2
    rw [hq.catalog, Catalog.relabel_onPath_get hs.nodup hg, Catalog.get_put hs.nodup hg hp, if_pos rfl]
  · have hown : ¬f.Owned clientFd := fun h => by simp [h.1] at hf
    rw [File.opened, if_neg hown]
    rfl

end Parts

/-- A request of a client that comes upon the file, by its path or in the queue. -/
def Call.Meets (v : Catalog) (p : Path) : Call → Prop
  | .lockManager => False
  | .request _ req => req.path.join = some p ∨ req.type = .readNFiles ∧ p ∈ v.queue

instance (v : Catalog) (p : Path) : ∀ c : Call, Decidable (c.Meets v p)
  | .lockManager => inferInstanceAs (Decidable False)
  | .request _ _ => inferInstanceAs (Decidable (_ ∨ _))

/-- A section of a call that does not name the file leaves its lock, which nobody waits for. -/
theorem Call.Alters.fresh {c : Call} {n : Nat} {s s' : Storage} {p : Path} {list : Bool} {f g : File}
    (h : c.Alters n s s') (hs : s.Sound) (hf : s.catalog.get p = some f)
    (hfresh : SameLock (File.fresh p list) f) (hg : s'.catalog.get p = some g)
    (hc : ¬c.Meets s.catalog p) : SameLock (File.fresh p list) g := by
  obtain ⟨hmg, hpath⟩ := Catalog.get_eq_some hg
  rcases h.locks g hmg with ⟨f', hf', k, hk, hsame⟩ | ⟨hn, -, -⟩
  · have hp : f'.path = p := by rw [← hk.path, ← hsame.path, hpath]
    have hget := (Catalog.get_eq_some_iff hs.nodup).mpr ⟨hf', hp⟩
    obtain rfl : f = f' := Option.some.inj (hf.symm.trans hget)
    have hstill : k = f := by
      cases hk with
      | still => rfl
      | closed hr _ => exact absurd (.inl (hp ▸ hr)) hc
      | asked hr _ _ => exact absurd (.inl (hp ▸ hr)) hc
      | opened hr _ _ _ => exact absurd (.inl (hp ▸ hr)) hc
      | granted =>
        have hw : f.waitingOnLock = (File.fresh p list).waitingOnLock := hfresh.waiting
        unfold File.granted
        rw [hw]
        cases list <;> rfl
    subst hstill
    exact ⟨hsame.path.trans hfresh.path, hsame.flag.trans hfresh.flag,
      hsame.lockedBy.trans hfresh.lockedBy, hsame.waiting.trans hfresh.waiting⟩
  · rw [hpath, hf] at hn
    cases hn

namespace CallPool

/-- The status that the thread with number `i` has answered with. -/
def status (s : CallPool) (i : Nat) : Option ResponseCode :=
  s.threads[i]?.bind fun t => t.rest.result.bind fun r => r.map Reply.status

/-- The thread `i` has to wait, no other client comes upon `p`, and `p` is stored after the step
if and only if it was before. -/
structure Undisturbed (i : Nat) (p : Path) (s : CallPool) (x : Schedule Call) : Prop where
  others : ∀ env, x ≠ .run i env
  unmet : ∀ j env t, x = .run j env → s.threads[j]? = some t → ¬t.label.Meets s.catalog p
  stays : ∀ u, step s x = some u → (u.catalog.get p).isSome = (s.catalog.get p).isSome

instance (i : Nat) (p : Path) (s : CallPool) :
    ∀ x : Schedule Call, Decidable (s.Undisturbed i p x)
  | .start c =>
    decidable_of_iff (∀ u ∈ step s (.start c), (u.catalog.get p).isSome = (s.catalog.get p).isSome)
      ⟨fun h => ⟨by simp, by simp, h⟩, fun h => h.stays⟩
  | .run j env =>
    decidable_of_iff (j ≠ i ∧ (∀ t ∈ s.threads[j]?, ¬t.label.Meets s.catalog p) ∧
        ∀ u ∈ step s (.run j env), (u.catalog.get p).isSome = (s.catalog.get p).isSome)
      ⟨fun h => ⟨by rintro _ ⟨⟩; exact h.1 rfl, by rintro _ _ t ⟨⟩ ht; exact h.2.1 t ht, h.2.2⟩,
        fun h => ⟨by rintro rfl; exact h.others env rfl, fun t ht => h.unmet j env t rfl ht, h.stays⟩⟩

/-- What the request of `a` to create `p` and lock it has made of `s` in its first section, with
which `s₁` is reached, and what it makes of `s₂` in its second, which it comes to. -/
inductive OpensLocked (i : Nat) (p : Path) (a : Nat) (s s₁ s₂ : CallPool) : Prop where
  | refused {status : ResponseCode} (hs : s₁.status i = some status) (hr : status.Refused)
      (hc : s₁.catalog = s.catalog)
  | created {f : File} (hs : s₁.status i = none) (hn : s.catalog.get p = none)
      (hf : s₂.catalog.get p = some f) (hl : f.lockedBy = -1)
      (next : ∀ env, ∃ s₃, step s₂ (.run i env) = some s₃ ∧ s₃.status i = some .success ∧
        ∃ g, s₃.catalog.get p = some g ∧ g.lockedBy = a)
  | failed (hs : s₁.status i = none) (hc : s₁.catalog = s.catalog)
      (next : ∀ env, ∃ s₃ status, step s₂ (.run i env) = some s₃ ∧ s₃.status i = some status ∧
        status.Refused ∧ s₃.catalog = s₂.catalog)

/-- The request has been through its first section, and what holds of the file until its second. -/
structure Between (i : Nat) (p : Path) (a : Nat) (req : Request) (s s₁ t : CallPool) : Prop where
  kept : Pool.Kept Storage.Orderly Call.Alters t
  thread : t.threads[i]? = some ⟨.request a req, 1, lockPart a p⟩
  file : (∃ list f, t.catalog.get p = some f ∧ SameLock (File.fresh p list) f) ∨
    s₁.catalog = s.catalog ∧ t.catalog.get p = none
  buckets : t.world.state.files.nBuckets ≠ 0

theorem status_set {s : CallPool} {i n : Nat} {t : Thread Call Storage Access (Int × Response) (Option Reply)}
    {c : Call} {p : ServerM (Option Reply)} {w : StorageWorld} (ht : s.threads[i]? = some t) :
    status ⟨w, s.threads.set i ⟨c, n, p⟩⟩ i = p.result.bind fun r => r.map Reply.status := by
  have hi := (List.getElem?_eq_some_iff.mp ht).1
  simp [status, hi]

theorem between_step {i a : Nat} {p : Path} {req : Request} {s s₁ t u : CallPool} {x : Schedule Call}
    (ht : Between i p a req s s₁ t) (hx : t.Undisturbed i p x) (h : step t x = some u) :
    Between i p a req s s₁ u := by
  have hstays := hx.stays u h
  refine ⟨guarantees_prog.kept ht.kept h, ?_, ?_, ?_⟩
  · have hi := (List.getElem?_eq_some_iff.mp ht.thread).1
    cases Pool.step_cases h with
    | start c => exact (List.getElem?_append_left hi).trans ht.thread
    | @run j env env' th q w hj hr =>
      have hne : j ≠ i := by
        rintro rfl
        exact hx.others env rfl
      simpa [List.getElem?_set, hne] using ht.thread
  · rcases ht.file with ⟨list, f, hf, hfresh⟩ | ⟨hc, hn⟩
    · rw [hf, Option.isSome_some] at hstays
      obtain ⟨g, hg⟩ := Option.isSome_iff_exists.mp hstays
      refine .inl ⟨list, g, hg, ?_⟩
      rcases guarantees_prog.moves ht.kept h with hw | ⟨j, env, th, rfl, hj, hal⟩
      · have hcat : u.catalog = t.catalog := by rw [catalog, hw, catalog]
        rw [hcat, hf] at hg
        exact Option.some.inj hg ▸ hfresh
      · exact hal.fresh ht.kept.inv.sound hf hfresh hg (hx.unmet j env th rfl hj)
    · rw [hn, Option.isSome_none] at hstays
      exact .inr ⟨hc, Option.isSome_eq_false_iff.mp hstays |> Option.isNone_iff_eq_none.mp⟩
  · rcases guarantees_prog.moves ht.kept h with hw | ⟨j, env, th, rfl, hj, hal⟩
    · rw [hw]
      exact ht.buckets
    · rw [hal.nBuckets]
      exact ht.buckets

/-- The first section of the request. -/
theorem first_section {s s₁ : CallPool} {i a : Nat} {p : Path} {req : Request} {flags : Flags}
    {env : List Bool} (hs : Pool.Kept Storage.Orderly Call.Alters s) (hreq : req.CreatesLocked p flags)
    (ht : s.threads[i]? = some ⟨.request a req, 0, (Call.request a req).prog⟩)
    (h : step s (.run i env) = some s₁) (hsp : ¬req.SpoilsOpen s.world.state env) :
    (∃ status, s₁.status i = some status ∧ status.Refused ∧ s₁.catalog = s.catalog) ∨
      s₁.status i = none ∧ s.catalog.get p = none ∧ Between i p a req s s₁ s₁ := by
  have hkept := guarantees_prog.kept hs h
  cases Pool.step_cases h with
  | @run _ _ env' th q w hj hr =>
    obtain rfl := Option.some.inj (hj.symm.trans ht)
    have hi := (List.getElem?_eq_some_iff.mp ht).1
    rw [prog_createsLocked hreq] at hr
    obtain ⟨r, rfl, hheld, hrun⟩ := (sectional_closes.openFileCreate (some p)).toRelease_bind hr
    obtain ⟨hsound, hdone⟩ := openFileCreate_done hreq hs.inv.sound hheld hsp hrun
    rcases hdone with ⟨status, rfl, hst, hc⟩ | ⟨rfl, hn, hfile⟩
    · exact .inl ⟨status, status_set ht, hst, hc⟩
    · refine .inr ⟨status_set ht, hn, hkept, by simp [hi], ?_, ?_⟩
      · rcases hfile with ⟨list, hf⟩ | hc
        · exact .inl ⟨list, _, hf, .refl _⟩
        · exact .inr ⟨hc, by rw [catalog, hc]; exact hn⟩
      · rw [(guarantees_prog.run hs ht (prog_createsLocked hreq ▸ hr)).1.nBuckets]
        exact (openFileCreate_entered hrun).2

/-- The second section of the request, when the mutex is free. -/
theorem second_section {s s₁ s₂ : CallPool} {i a : Nat} {p : Path} {req : Request}
    (hb : Between i p a req s s₁ s₂) (hfree : s₂.world.held = false) (env : List Bool) :
    ∃ s₃ status, step s₂ (.run i env) = some s₃ ∧ s₃.status i = some status ∧
      ((∃ f, s₂.catalog.get p = some f) → status = .success ∧
        ∃ g, s₃.catalog.get p = some g ∧ g.lockedBy = a) ∧
      (s₂.catalog.get p = none → status.Refused ∧ s₃.catalog = s₂.catalog) := by
  have hs := hb.kept.inv.sound
  obtain ⟨r, w, env', hrun⟩ := @run_openFileLock a p s₂.world hfree hs hb.buckets env
  have hrelease : (lockPart a p).toRelease env s₂.world =
      some (ret (some ⟨r.getD .success, []⟩), w, env') :=
    (sectional_closes.openFileLock a (some p)).toRelease_of_run hrun
  have hstep : step s₂ (.run i env) =
      some ⟨w, s₂.threads.set i ⟨.request a req, 2, ret (some ⟨r.getD .success, []⟩)⟩⟩ := by
    have hrest : (lockPart a p).result.isSome = false := rfl
    simp only [step, Pool.step, hb.thread, hrest, Bool.false_eq_true, if_false]
    exact congrArg (Option.map _) hrelease
  refine ⟨_, _, hstep, status_set hb.thread, fun hf => ?_, fun hn => ?_⟩
  · rcases hb.file with ⟨list, f, hf, hfresh⟩ | ⟨-, hn⟩
    · have hunlocked : chkFlag f.flags oLock = false :=
        hfresh.flag.trans (show chkFlag (setFlag 0 oCreate) oLock = false by decide)
      obtain ⟨rfl, hg⟩ := openFileLock_free hs hf hunlocked hrun
      exact ⟨rfl, hg⟩
    · obtain ⟨f, hf⟩ := hf
      rw [hn] at hf
      cases hf
  · obtain ⟨status, rfl, hst, hc⟩ := openFileLock_absent hs hn hrun
    exact ⟨hst, hc⟩

/-- Where no other client comes upon the file between the two sections, the mutex is free again for
the second, and nothing is spoilt in the first, creating and locking a file is one step. -/
theorem create_and_lock {server : Server} (hi : server.Initial)
    {h k : List (CallPool × Schedule Call)} {s s₁ s₂ : CallPool}
    (hr : Reaches step (fun _ _ => True) (start server) h s) {i a : Nat} {p : Path} {req : Request}
    {flags : Flags} {env : List Bool} (hreq : req.CreatesLocked p flags)
    (ht : s.threads[i]? = some ⟨.request a req, 0, (Call.request a req).prog⟩)
    (h₁ : step s (.run i env) = some s₁) (hsp : ¬req.SpoilsOpen s.world.state env)
    (hk : Reaches step (Undisturbed i p) s₁ k s₂) (hfree : s₂.world.held = false) :
    OpensLocked i p a s s₁ s₂ := by
  have hs : Pool.Kept Storage.Orderly Call.Alters s :=
    hr.always (start_kept hi) fun _ _ _ hs _ h => guarantees_prog.kept hs h
  rcases first_section hs hreq ht h₁ hsp with ⟨status, hst, hr, hc⟩ | ⟨hst, hn, hb⟩
  · exact .refused hst hr hc
  · have hb₂ : Between i p a req s s₁ s₂ :=
      hk.always hb fun _ _ _ hb hx h => between_step hb hx h
    rcases hb₂.file with ⟨list, f, hf, hfresh⟩ | ⟨hc, hn₂⟩
    · refine .created hst hn hf hfresh.lockedBy fun env => ?_
      obtain ⟨s₃, status, h₃, hst₃, hdone, -⟩ := second_section hb₂ hfree env
      obtain ⟨rfl, hg⟩ := hdone ⟨f, hf⟩
      exact ⟨s₃, h₃, hst₃, hg⟩
    · refine .failed hst hc fun env => ?_
      obtain ⟨s₃, status, h₃, hst₃, -, hdone⟩ := second_section hb₂ hfree env
      exact ⟨s₃, status, h₃, hst₃, hdone hn₂⟩

/-- A client opens `/a` with both flags. -/
def opening : Call := (Step.openFile 5 (slash 'a') 6).call

/-- The storage with nothing but this call under way. -/
def opened (server : Server) : CallPool := ⟨server.world, [⟨opening, 0, opening.prog⟩]⟩

theorem reaches_opened (server : Server) : Reaches step (fun _ _ => True) (start server)
    [(start server, .start opening)] (opened server) :=
  .snoc .nil trivial rfl

theorem createsLocked_opening : Request.CreatesLocked
    ⟨.openFile, stringBytes (slash 'a'), intBytes 6⟩ (slash 'a') 6 := by
  constructor <;> decide

/-- In between, another client asks for the lock of another file. -/
theorem create_and_lock_other : ∃ server s₁ k s₂, server.Initial ∧
    step (opened server) (.run 0 []) = some s₁ ∧
    Reaches step (Undisturbed 0 (slash 'a')) s₁ k s₂ ∧
    k.map Prod.snd = [.start (Step.lockFile 7 (slash 'b')).call, .run 1 []] ∧
    OpensLocked 0 (slash 'a') 5 (opened server) s₁ s₂ := by
  obtain ⟨server, hi, hp⟩ := Server.exists_start 100 4
    (fun server : Server => (step (opened server) (.run 0 [])).any fun s : CallPool =>
      (play step (Undisturbed 0 (slash 'a')) s
        [.start (Step.lockFile 7 (slash 'b')).call, .run 1 []]).any fun t : CallPool => !t.world.held)
    (by decide) (by decide)
  obtain ⟨s₁, h₁, hp⟩ := (Option.any_eq_true _ _).mp hp
  obtain ⟨k, s₂, hk, hm, hfree⟩ := exists_run step (Undisturbed 0 (slash 'a')) s₁ _ _ hp
  refine ⟨server, s₁, k, s₂, hi, h₁, hk, hm, ?_⟩
  refine create_and_lock hi (reaches_opened server) createsLocked_opening rfl h₁ ?_ hk
    (by simpa using hfree)
  rintro ⟨_, _, _, -, -, -, -, -, -, -, -, -, -, h⟩
  cases h

/-- In between, another client asks for the lock of the new file and gets it. -/
theorem not_create_and_lock : ∃ server s₁ k s₂ s₃ f g, server.Initial ∧
    Reaches step (fun _ _ => True) (start server) [(start server, .start opening)] (opened server) ∧
    step (opened server) (.run 0 []) = some s₁ ∧ Reaches step (fun _ _ => True) s₁ k s₂ ∧
    k.map Prod.snd = [.start (Step.lockFile 7 (slash 'a')).call, .run 1 []] ∧
    s₂.status 1 = some .success ∧ s₂.catalog.get (slash 'a') = some f ∧ f.lockedBy = 7 ∧
    step s₂ (.run 0 []) = some s₃ ∧ s₃.status 0 = some .success ∧
    s₃.catalog.get (slash 'a') = some g ∧ g.lockedBy = 5 ∧
    ¬OpensLocked 0 (slash 'a') 5 (opened server) s₁ s₂ := by
  obtain ⟨server, hi, hp⟩ := Server.exists_start 100 4
    (fun server : Server => (step (opened server) (.run 0 [])).any fun s : CallPool =>
      decide (s.status 0 = none ∧ s.catalog ≠ (opened server).catalog) &&
      (play step (fun _ _ => True) s
        [.start (Step.lockFile 7 (slash 'a')).call, .run 1 []]).any fun t : CallPool =>
          decide (t.status 1 = some .success) &&
          ((t.catalog.get (slash 'a')).any fun f : File => decide (f.lockedBy = 7)) &&
          (step t (.run 0 [])).any fun u : CallPool => decide (u.status 0 = some .success) &&
            (u.catalog.get (slash 'a')).any fun g : File => decide (g.lockedBy = 5))
    (by decide) (by decide)
  obtain ⟨s₁, h₁, hp⟩ := (Option.any_eq_true _ _).mp hp
  obtain ⟨hst, hp⟩ := Bool.and_eq_true_iff.mp hp
  obtain ⟨hst, hne⟩ := of_decide_eq_true hst
  obtain ⟨k, s₂, hk, hm, hp⟩ := exists_run step (fun _ _ => True) s₁ _ _ hp
  obtain ⟨hp, hnext⟩ := Bool.and_eq_true_iff.mp hp
  obtain ⟨hother, hf⟩ := Bool.and_eq_true_iff.mp hp
  obtain ⟨f, hf, hl⟩ := (Option.any_eq_true _ _).mp hf
  obtain ⟨s₃, h₃, hp⟩ := (Option.any_eq_true _ _).mp hnext
  obtain ⟨hst₃, hg⟩ := Bool.and_eq_true_iff.mp hp
  obtain ⟨g, hg, hlg⟩ := (Option.any_eq_true _ _).mp hg
  have hl : f.lockedBy = 7 := of_decide_eq_true hl
  refine ⟨server, s₁, k, s₂, s₃, f, g, hi, reaches_opened server, h₁, hk, hm,
    of_decide_eq_true hother, hf, hl, h₃, of_decide_eq_true hst₃, hg, of_decide_eq_true hlg, ?_⟩
  intro h
  cases h with
  | refused hs => simp [hst] at hs
  | created _ _ hf' hl' =>
    obtain rfl := Option.some.inj (hf.symm.trans hf')
    omega
  | failed _ hc => exact hne hc

end CallPool

end FileStorage
