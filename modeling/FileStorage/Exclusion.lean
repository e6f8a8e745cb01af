import FileStorage.Threads

/-! Mutual exclusion of the file locks, however the critical sections of the requests and of the
lock manager are interleaved. -/

namespace FileStorage

open Machine

theorem guarantees_prog : Pool.Guarantees Call.prog Storage.Orderly Call.Alters where
  keeps _ _ _ _ hs h := h.orderly hs
  refl c n _ hs := .refl c n hs.sound
  sections c w hw := c.sections_prog w hw

/-- The storage with the calls that are under way. -/
abbrev CallPool := Pool Call Storage Access (Int × Response) (Option Reply)

/-- The section of `open_file_handler` for `O_LOCK` finds the file locked by another client. -/
def Call.seizes (v : Catalog) (done : Nat) : Call → Bool
  | .lockManager => false
  | .request clientFd req =>
    match req.type, readInt req.body, req.path.join with
    | .openFile, some flags, some p =>
      chkFlag flags oLock && decide (done = (chkFlag flags oCreate).toNat) &&
        (v.get p).any fun f => decide (f.lockedBy ≠ -1 ∧ f.lockedBy ≠ (clientFd : Int))
    | _, _, _ => false

/-- A request of a client that gives up its lock of a path. -/
def Call.Releases (p : Path) (clientFd : Nat) (c : Call) : Prop :=
  ∃ req, c = .request clientFd req ∧ req.path.join = some p ∧
    (req.type = .closeFile ∨ req.type = .unlockFile)

instance (p : Path) (clientFd : Nat) : ∀ c : Call, Decidable (c.Releases p clientFd)
  | .lockManager => .isFalse (by simp [Call.Releases])
  | .request fd req =>
    decidable_of_iff (fd = clientFd ∧ req.path.join = some p ∧
        (req.type = .closeFile ∨ req.type = .unlockFile)) (by simp [Call.Releases])

namespace CallPool

def catalog (s : CallPool) : Catalog := s.world.state.catalog

def start (server : Server) : CallPool := ⟨server.world, []⟩

def step : CallPool → Schedule Call → Option CallPool := Pool.step Call.prog

/-- No open takes a lock from its owner. -/
def Respects (s : CallPool) : Schedule Call → Prop
  | .start _ => True
  | .run i _ => (s.threads[i]?.any fun t => t.label.seizes s.catalog t.done) = false

instance (s : CallPool) : ∀ a, Decidable (s.Respects a)
  | .start _ => inferInstanceAs (Decidable True)
  | .run _ _ => inferInstanceAs (Decidable (_ = false))

/-- The client does not give up its lock of `p`, and the file stays in the storage. -/
structure Retains (p : Path) (clientFd : Nat) (s : CallPool) (a : Schedule Call) : Prop where
  kept : ∀ i env t, a = .run i env → s.threads[i]? = some t → ¬t.label.Releases p clientFd
  stored : ∀ u, step s a = some u → (u.catalog.get p).isSome

instance (p : Path) (clientFd : Nat) (s : CallPool) :
    ∀ a : Schedule Call, Decidable (s.Retains p clientFd a)
  | .start c =>
    decidable_of_iff (∀ u ∈ step s (.start c), (u.catalog.get p).isSome)
      ⟨fun h => ⟨by simp, h⟩, fun h => h.stored⟩
  | .run i env =>
    decidable_of_iff ((∀ t ∈ s.threads[i]?, ¬t.label.Releases p clientFd) ∧
        ∀ u ∈ step s (.run i env), (u.catalog.get p).isSome)
      ⟨fun h => ⟨by rintro _ _ t ⟨⟩ ht; exact h.1 t ht, h.2⟩,
        fun h => ⟨fun t ht => h.kept i env t rfl ht, h.stored⟩⟩

theorem start_kept {server : Server} (hi : server.Initial) :
    Pool.Kept Storage.Orderly Call.Alters (start server) := by
  obtain ⟨_, _, _, -, -, hc⟩ := hi.catalog
  exact .init _ ⟨hi.sound, by simp [Server.world, hc]⟩

end CallPool

/-- What a section leaves of a lock that is held. -/
theorem Call.Touches.lockedBy {c : Call} {n : Nat} {v : Catalog} {f k : File} {clientFd : Nat}
    (h : c.Touches f n k) (hf : v.get f.path = some f) (hc : f.Coherent)
    (hl : f.lockedBy = clientFd) (hs : c.seizes v n = false)
    (hr : ¬c.Releases f.path clientFd) : k.lockedBy = clientFd := by
  have hne : f.lockedBy ≠ -1 := by omega
  have hflag : chkFlag f.flags oLock = true := hc.flag.mpr hne
  cases h with
  | still => exact hl
  | @closed fd n req hp ht =>
    have hown : ¬f.Owned fd := by
      rintro ⟨-, ho⟩
      obtain rfl : clientFd = fd := by omega
      exact hr ⟨req, rfl, hp, ht⟩
    rw [File.closed, if_neg hown, hl]
  | asked hp ht status =>
    rw [File.asked, if_neg (by simp [hflag])]
    split
    · exact hl
    · exact hl
  | @opened fd req flags hp ht hb hlock =>
    by_cases hown : f.Owned fd
    · rw [File.opened, if_pos hown, hl]
    · have hother : f.lockedBy ≠ fd := fun h => hown ⟨hflag, h⟩
      simp [Call.seizes, ht, hb, hp, hlock, hf, hne, hother] at hs
  | granted =>
    unfold File.granted
    split
    · rw [if_neg (by simp [hflag]), hl]
    · exact hl

/-- The owner of a lock after a section that does not take it from another client. -/
theorem Call.Alters.lockedBy {c : Call} {n : Nat} {s s' : Storage} {p : Path} {f g : File}
    {clientFd : Nat} (h : c.Alters n s s') (hs : s.Orderly) (hf : s.catalog.get p = some f)
    (hl : f.lockedBy = clientFd) (hg : s'.catalog.get p = some g)
    (hsz : c.seizes s.catalog n = false) (hr : ¬c.Releases p clientFd) :
    g.lockedBy = clientFd := by
  obtain ⟨hm, rfl⟩ := Catalog.get_eq_some hf
  obtain ⟨hmg, hpath⟩ := Catalog.get_eq_some hg
  rcases h.locks g hmg with ⟨f', hf', k, hk, hsame⟩ | ⟨hn, -, -⟩
  · have hp : f'.path = f.path := by rw [← hk.path, ← hsame.path, hpath]
    have hget := (Catalog.get_eq_some_iff hs.sound.nodup).mpr ⟨hf', hp⟩
    obtain rfl : f = f' := Option.some.inj (hf.symm.trans hget)
    rw [hsame.lockedBy]
    exact hk.lockedBy hf (hs.coherent f hm) hl hsz hr
  · rw [hpath, hf] at hn
    cases hn

namespace CallPool

theorem lockedBy_step {s t : CallPool} {a : Schedule Call} {p : Path} {f g : File}
    {clientFd : Nat} (hs : Pool.Kept Storage.Orderly Call.Alters s) (h : step s a = some t)
    (ha : s.Respects a) (hk : s.Retains p clientFd a) (hf : s.catalog.get p = some f)
    (hl : f.lockedBy = clientFd) (hg : t.catalog.get p = some g) : g.lockedBy = clientFd := by
  rcases guarantees_prog.moves hs h with hw | ⟨i, env, th, rfl, ht, hal⟩
  · have hsame : t.catalog = s.catalog := by rw [catalog, hw, catalog]
    rw [hsame, hf] at hg
    exact Option.some.inj hg ▸ hl
  · have hsz : th.label.seizes s.catalog th.done = false := by simpa [Respects, ht] using ha
    exact hal.lockedBy hs.inv hf hl hg hsz (hk.kept i env th rfl ht)

end CallPool

end FileStorage
