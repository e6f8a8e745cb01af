import FileStorage.Exclusion

/-! The order in which a lock is handed over. The lock manager takes the clients in the order in
which they have asked, but a request that finds the lock free, or opens the file with `O_LOCK`,
goes past all that wait. -/

namespace FileStorage

open Machine

/-- The client `a` waits for the lock, `b` neither has it nor waits before `a`. -/
def File.Ahead (a b : Nat) (f : File) : Prop :=
  (∃ before after, f.waitingOnLock = some (before ++ (a : Int) :: after) ∧ (b : Int) ∉ before) ∧
    f.lockedBy ≠ b

/-- A section of a request of `clientFd` gives it a lock for which another client is the next. -/
def File.jumped (f : File) (clientFd : Nat) : Bool :=
  f.waitingOnLock.any (fun waiting => waiting.head?.any fun c => decide (c ≠ (clientFd : Int))) &&
    decide (f.lockedBy ≠ (clientFd : Int))

/-- The section with number `done` of a call takes the lock of the file out of turn. -/
def Call.jumps (v : Catalog) (p : Path) (done : Nat) : Call → Bool
  | .lockManager => false
  | .request clientFd req =>
    decide (req.path.join = some p) && (v.get p).any fun f => f.jumped clientFd &&
      match req.type, readInt req.body with
      | .lockFile, _ => !chkFlag f.flags oLock
      | .openFile, some flags =>
        chkFlag flags oLock && decide (done = (chkFlag flags oCreate).toNat)
      | _, _ => false

theorem File.Ahead.jumped {a b : Nat} {f : File} (h : f.Ahead a b) (hne : a ≠ b) :
    f.jumped b = true := by
  obtain ⟨⟨before, after, hw, hb⟩, hl⟩ := h
  have hhead : ((before ++ (a : Int) :: after).head?.any fun c => decide (c ≠ (b : Int))) = true := by
    cases before with
    | nil => simpa using hne
    | cons c before =>
      obtain ⟨hc, -⟩ := not_or.mp fun h => hb (List.mem_cons.mpr h)
      simpa using Ne.symm hc
  rw [File.jumped, hw, Option.any_some, hhead, Bool.true_and]
  exact decide_eq_true hl

/-- Where nobody takes the lock out of turn, a section leaves those that wait in their order. -/
theorem Call.Touches.ahead {c : Call} {n : Nat} {v : Catalog} {f k : File} {a b : Nat}
    (h : c.Touches f n k) (hf : v.get f.path = some f) (hne : a ≠ b) (hab : f.Ahead a b)
    (hj : c.jumps v f.path n = false) (ha : k.lockedBy ≠ a) : k.Ahead a b := by
  obtain ⟨⟨before, after, hw, hb⟩, hl⟩ := id hab
  cases h with
  | still => exact hab
  | @closed fd n req hp ht =>
    unfold File.closed
    split
    · exact ⟨⟨before, after, hw, hb⟩, by show (-1 : Int) ≠ b; omega⟩
    · exact hab
  | @asked fd n req hp ht status =>
    unfold File.asked
    split
    · rename_i hfree
      refine ⟨⟨before, after, hw, hb⟩, fun hfd => ?_⟩
      obtain rfl : fd = b := Int.ofNat_inj.mp hfd
      simp [Call.jumps, hp, hf, ht, hab.jumped hne, hfree] at hj
    · split
      · refine ⟨⟨before, after ++ [(fd : Int)], ?_, hb⟩, hl⟩
        simp [hw]
      · exact hab
  | @opened fd req flags hp ht hbody hlock =>
    unfold File.opened
    split
    · exact hab
    · refine ⟨⟨before, after, hw, hb⟩, fun hfd => ?_⟩
      obtain rfl : fd = b := Int.ofNat_inj.mp hfd
      simp [Call.jumps, hp, hf, ht, hbody, hab.jumped hne, hlock] at hj
  | granted =>
    unfold File.granted at ha ⊢
    rw [hw] at ha ⊢
    cases before with
    | nil =>
      dsimp only [List.nil_append] at ha ⊢
      split at ha
      · exact absurd rfl ha
      · rename_i hflag
        rw [if_neg hflag]
        exact hab
    | cons c before =>
      dsimp only [List.cons_append] at ha ⊢
      split
      · refine ⟨⟨before, after, rfl, fun h => hb (List.mem_cons_of_mem _ h)⟩, fun hc => ?_⟩
        exact hb (List.mem_cons.mpr (.inl hc.symm))
      · exact hab

theorem SameLock.ahead {f g : File} {a b : Nat} (h : SameLock f g) (hf : f.Ahead a b) :
    g.Ahead a b := by
  obtain ⟨⟨before, after, hw, hb⟩, hl⟩ := hf
  exact ⟨⟨before, after, h.waiting.trans hw, hb⟩, h.lockedBy.symm ▸ hl⟩

/-- The queue of a file after a section in which nobody jumps it. -/
theorem Call.Alters.ahead {c : Call} {n : Nat} {s s' : Storage} {p : Path} {f g : File}
    {a b : Nat} (h : c.Alters n s s') (hs : s.Orderly) (hf : s.catalog.get p = some f)
    (hne : a ≠ b) (hab : f.Ahead a b) (hg : s'.catalog.get p = some g)
    (hj : c.jumps s.catalog p n = false) (ha : g.lockedBy ≠ a) : g.Ahead a b := by
  obtain ⟨hm, rfl⟩ := Catalog.get_eq_some hf
  obtain ⟨hmg, hpath⟩ := Catalog.get_eq_some hg
  rcases h.locks g hmg with ⟨f', hf', k, hk, hsame⟩ | ⟨hn, -, -⟩
  · have hp : f'.path = f.path := by rw [← hk.path, ← hsame.path, hpath]
    have hget := (Catalog.get_eq_some_iff hs.sound.nodup).mpr ⟨hf', hp⟩
    obtain rfl : f = f' := Option.some.inj (hf.symm.trans hget)
    exact hsame.ahead (hk.ahead hf hne hab hj (hsame.lockedBy ▸ ha))
  · rw [hpath, hf] at hn
    cases hn

namespace CallPool

/-- The file stays in the storage, and `a` does not get its lock. -/
def Stays (p : Path) (a : Nat) (s : CallPool) (x : Schedule Call) : Prop :=
  ∀ u, step s x = some u → ∃ f, u.catalog.get p = some f ∧ f.lockedBy ≠ a

instance (p : Path) (a : Nat) (s : CallPool) (x : Schedule Call) : Decidable (s.Stays p a x) :=
  decidable_of_iff (∀ u ∈ step s x, ∃ f ∈ u.catalog.get p, f.lockedBy ≠ a) (by simp [Stays])

/-- Nobody takes the lock of `p` out of turn. -/
def InTurn (p : Path) (s : CallPool) : Schedule Call → Prop
  | .start _ => True
  | .run i _ => (s.threads[i]?.any fun t => t.label.jumps s.catalog p t.done) = false

instance (p : Path) (s : CallPool) : ∀ x, Decidable (s.InTurn p x)
  | .start _ => inferInstanceAs (Decidable True)
  | .run _ _ => inferInstanceAs (Decidable (_ = false))

theorem ahead_step {s t : CallPool} {x : Schedule Call} {p : Path} {f : File} {a b : Nat}
    (hs : Pool.Kept Storage.Orderly Call.Alters s) (h : step s x = some t) (hw : s.InTurn p x)
    (hst : s.Stays p a x) (hne : a ≠ b) (hf : s.catalog.get p = some f) (hab : f.Ahead a b) :
    ∃ g, t.catalog.get p = some g ∧ g.Ahead a b := by
  obtain ⟨g, hg, hga⟩ := hst t h
  refine ⟨g, hg, ?_⟩
  rcases guarantees_prog.moves hs h with hsame | ⟨i, env, th, rfl, ht, hal⟩
  · have hcat : t.catalog = s.catalog := by rw [catalog, hsame, catalog]
    rw [hcat, hf] at hg
    exact Option.some.inj hg ▸ hab
  · have hj : th.label.jumps s.catalog p th.done = false := by simpa [InTurn, ht] using hw
    exact hal.ahead hs.inv hf hne hab hg hj hga

/-- Where nobody takes the lock out of turn, a client that asks for it after another one has been
told to wait does not get it before. -/
theorem handed_over_in_order {server : Server} (hi : server.Initial)
    {h k : List (CallPool × Schedule Call)} {s t : CallPool}
    (hr : Reaches step (fun _ _ => True) (start server) h s) {p : Path} {f : File} {a b : Nat}
    (hf : s.catalog.get p = some f) (hne : a ≠ b) (hab : f.Ahead a b)
    (hk : Reaches step (fun s x => s.InTurn p x ∧ s.Stays p a x) s k t) :
    ∃ g, t.catalog.get p = some g ∧ g.lockedBy ≠ b := by
  have hs : Pool.Kept Storage.Orderly Call.Alters s :=
    hr.always (start_kept hi) fun _ _ _ hs _ h => guarantees_prog.kept hs h
  have hinv : Pool.Kept Storage.Orderly Call.Alters t ∧
      ∃ g, t.catalog.get p = some g ∧ g.Ahead a b := by
    refine hk.always (I := fun t : CallPool => Pool.Kept Storage.Orderly Call.Alters t ∧
      ∃ g, t.catalog.get p = some g ∧ g.Ahead a b) ⟨hs, f, hf, hab⟩ ?_
    rintro s x t ⟨hs, f, hf, hab⟩ ⟨hw, hst⟩ h
    exact ⟨guarantees_prog.kept hs h, ahead_step hs h hw hst hne hf hab⟩
  obtain ⟨-, g, hg, -, hl⟩ := hinv
  exact ⟨g, hg, hl⟩

/-- A client owns a file, and another one waits for its lock. -/
def queueing : List (Schedule Call) :=
  [.start (Step.openFile 5 (slash 'a') 6).call, .run 0 [], .run 0 [],
    .start (Step.lockFile 7 (slash 'a')).call, .run 1 []]

/-- A third client asks for the lock as well, and is not given it. -/
theorem handed_over_in_order_asked : ∃ server h s k t g, server.Initial ∧
    Reaches step (fun _ _ => True) (start server) h s ∧ h.map Prod.snd = queueing ∧
    Reaches step (fun s x => s.InTurn (slash 'a') x ∧ s.Stays (slash 'a') 7 x) s k t ∧
    k.map Prod.snd = [.start (Step.lockFile 9 (slash 'a')).call, .run 2 []] ∧
    t.catalog.get (slash 'a') = some g ∧ g.lockedBy ≠ (9 : Nat) := by
  obtain ⟨server, hi, hp⟩ := Server.exists_start 100 4
    (fun server : Server => (play step (fun _ _ => True) (start server) queueing).any
      fun s : CallPool => ((s.catalog.get (slash 'a')).any fun f : File =>
          decide (f.waitingOnLock = some [7] ∧ f.lockedBy = 5)) &&
        (play step (fun s x => s.InTurn (slash 'a') x ∧ s.Stays (slash 'a') 7 x) s
          [.start (Step.lockFile 9 (slash 'a')).call, .run 2 []]).any fun _ : CallPool => true)
    (by decide) (by decide)
  obtain ⟨h, s, hr, hm, hp⟩ := exists_run step (fun _ _ => True) (start server) _ _ hp
  obtain ⟨hf, hp⟩ := Bool.and_eq_true_iff.mp hp
  obtain ⟨f, hf, hl⟩ := (Option.any_eq_true _ _).mp hf
  obtain ⟨hw, hl⟩ := of_decide_eq_true hl
  obtain ⟨k, t, hk, hmk, -⟩ := exists_run step
    (fun s x => s.InTurn (slash 'a') x ∧ s.Stays (slash 'a') 7 x) s _ _ hp
  have hab : f.Ahead 7 9 := ⟨⟨[], [], hw, by simp⟩, by rw [hl]; decide⟩
  obtain ⟨g, hg, hl⟩ := handed_over_in_order hi hr hf (by decide) hab hk
  exact ⟨server, h, s, k, t, g, hi, hr, hm, hk, hmk, hg, hl⟩

/-- The owner gives up the lock, and a client that asks for it before the next pass of the lock
manager gets it. -/
theorem handed_over_out_of_order : ∃ server h s k t f g, server.Initial ∧
    Reaches step (fun _ _ => True) (start server) h s ∧ h.map Prod.snd = queueing ∧
    s.catalog.get (slash 'a') = some f ∧ f.Ahead 7 9 ∧
    Reaches step (fun s x => s.Stays (slash 'a') 7 x) s k t ∧
    k.map Prod.snd = [.start (Call.request 5 ⟨.unlockFile, stringBytes (slash 'a'), []⟩), .run 2 [],
      .start (Step.lockFile 9 (slash 'a')).call, .run 3 []] ∧
    t.catalog.get (slash 'a') = some g ∧ g.lockedBy = (9 : Nat) := by
  obtain ⟨server, hi, hp⟩ := Server.exists_start 100 4
    (fun server : Server => (play step (fun _ _ => True) (start server) queueing).any
      fun s : CallPool => ((s.catalog.get (slash 'a')).any fun f : File =>
          decide (f.waitingOnLock = some [7] ∧ f.lockedBy = 5)) &&
        (play step (fun s x => s.Stays (slash 'a') 7 x) s
          [.start (Call.request 5 ⟨.unlockFile, stringBytes (slash 'a'), []⟩), .run 2 [],
            .start (Step.lockFile 9 (slash 'a')).call, .run 3 []]).any fun t : CallPool =>
          (t.catalog.get (slash 'a')).any fun g : File => decide (g.lockedBy = (9 : Nat)))
    (by decide) (by decide)
  obtain ⟨h, s, hr, hm, hp⟩ := exists_run step (fun _ _ => True) (start server) _ _ hp
  obtain ⟨hf, hp⟩ := Bool.and_eq_true_iff.mp hp
  obtain ⟨f, hf, hl⟩ := (Option.any_eq_true _ _).mp hf
  obtain ⟨hw, hl⟩ := of_decide_eq_true hl
  obtain ⟨k, t, hk, hmk, hg⟩ := exists_run step (fun s x => s.Stays (slash 'a') 7 x) s _ _ hp
  obtain ⟨g, hg, hlg⟩ := (Option.any_eq_true _ _).mp hg
  exact ⟨server, h, s, k, t, f, g, hi, hr, hm, hf, ⟨⟨[], [], hw, by simp⟩, by rw [hl]; decide⟩, hk,
    hmk, hg, of_decide_eq_true hlg⟩

end CallPool

end FileStorage
