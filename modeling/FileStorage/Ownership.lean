import FileStorage.Bookkeeping
import FileStorage.LongPaths

/-! Where the locks and the data of a stored file come from: a file that is there after a call was
there before or is new, and only some calls change its locks or its data. -/

namespace FileStorage

open Machine Server

namespace Catalog

variable {v v' : Catalog} {c : Call} {r : Option Reply} {f g : File}

/-- `g` is what a call with reply `r` makes of the stored file `f`. -/
structure Survives (v : Catalog) (c : Call) (r : Option Reply) (f g : File) : Prop where
  path : g.path = f.path
  flag : chkFlag g.flags oLock = chkFlag (v.relock c r f).flags oLock
  lockedBy : g.lockedBy = (v.relock c r f).lockedBy
  waiting : g.waitingOnLock = (v.relock c r f).waitingOnLock
  data : (g.size = f.size ∧ g.contents = f.contents) ∨
    ∃ body, v.deed c = .write f.path f body ∨ v.deed c = .append f.path f body

theorem survives_relock (v : Catalog) (c : Call) (r : Option Reply) (f : File) :
    v.Survives c r f (v.relock c r f) := by
  have h := v.sameData_relock c r f
  exact ⟨h.path, rfl, rfl, rfl, .inl ⟨h.size, h.contents⟩⟩

/-- A call that changes a stored file leaves the locks alone. -/
theorem relock_of_target (h : (v.deed c).target ≠ none) (r : Option Reply) (f : File) :
    v.relock c r f = f := by
  have hdue := deed_due v c
  cases c with
  | lockManager => exact absurd rfl h
  | request clientFd req =>
    have hne : req.type ∉ [.openFile, .closeFile, .lockFile, .unlockFile] := by
      generalize v.deed (.request clientFd req) = d at h hdue
      cases hdue with
      | other => exact absurd rfl h
      | create _ _ _ _ _ _ => exact absurd rfl h
      | replace _ _ _ _ _ _ _ => exact absurd rfl h
      | refuse ht _ _ _ _ _ => simp [ht]
      | remove ht _ _ _ _ => simp [ht]
      | write ht _ _ _ _ _ _ => simp [ht]
      | append ht _ _ _ _ _ => simp [ht]
    exact relock_eq_self hne r f

theorem survives_self (h : (v.deed c).target ≠ none) (r : Option Reply) (f : File) :
    v.Survives c r f f := by
  have hs := v.survives_relock c r f
  rwa [relock_of_target h] at hs

/-- Every file after a call was there before or is fresh. -/
theorem origin {fail : Prop} {ns : List Access} (he : Effect fail v c r ns v')
    (hl : v.Locking fail c r v') (hg : g ∈ v'.stored) :
    (∃ f ∈ v.stored, v.Survives c r f g) ∨
      v.get g.path = none ∧ c.type = some .openFile ∧
        ∃ list, g = v.relock c r (File.fresh g.path list) := by
  have hrelock : ∀ u : Catalog, u.stored ⊆ v.stored → g ∈ (u.relabel (v.relock c r)).stored →
      ∃ f ∈ v.stored, v.Survives c r f g := by
    intro u hu hm
    obtain ⟨f, hf, rfl⟩ := List.mem_map.mp hm
    exact ⟨f, hu hf, v.survives_relock c r f⟩
  have hcreated : ∀ (p : Path) (u w : Catalog), c.type = some .openFile →
      u.stored ⊆ v.stored → v.get p = none →
      u.Created p w → g ∈ (w.relabel (v.relock c r)).stored →
      (∃ f ∈ v.stored, v.Survives c r f g) ∨
        v.get g.path = none ∧ c.type = some .openFile ∧
          ∃ list, g = v.relock c r (File.fresh g.path list) := by
    intro p u w ht hu hp hw hm
    obtain ⟨f, hf, rfl⟩ := List.mem_map.mp hm
    obtain ⟨list, hperm⟩ := hw.stored
    rcases List.mem_cons.mp (hperm.mem_iff.mp hf) with rfl | hf
    · have hpath : (v.relock c r (File.fresh p list)).path = p := (v.sameData_relock c r _).path
      exact .inr ⟨by rw [hpath, hp], ht, list, by rw [hpath]⟩
    · exact .inl ⟨f, hu hf, v.survives_relock c r f⟩
  have hdue := deed_due v c
  unfold Effect at he
  unfold Locking at hl
  cases hd : v.deed c with
  | other =>
    simp only [hd] at hl
    subst hl
    exact .inl (hrelock v (List.Subset.refl _) hg)
  | create p =>
    simp only [hd] at hl
    simp only [hd] at hdue
    have ht : c.type = some .openFile := by
      cases hdue with
      | create ht _ _ _ _ _ => exact congrArg some ht
    obtain ⟨u, hu | ⟨-, rfl⟩, rfl⟩ := hl
    · exact hcreated p v u ht (List.Subset.refl _) hu.absent hu hg
    · exact .inl (hrelock u (List.Subset.refl _) hg)
  | replace p q =>
    simp only [hd] at hl hdue
    obtain ⟨u, hu | ⟨-, rfl | rfl⟩, rfl⟩ := hl
    · obtain ⟨ht, hp⟩ : c.type = some .openFile ∧ v.get p = none := by
        cases hdue with
        | replace ht _ _ _ hg _ _ => exact ⟨congrArg some ht, hg⟩
      exact hcreated p _ u ht (replaceHead_subset v q) hp hu hg
    · exact .inl (hrelock _ (replaceHead_subset v q) hg)
    · exact .inl (hrelock u (List.Subset.refl _) hg)
  | discard p f =>
    simp only [hd] at he
    obtain ⟨-, rfl, -⟩ := he
    have ht : (v.deed c).target ≠ none := by simp [hd, Deed.target]
    exact .inl ⟨g, discard_subset v p f hg, survives_self ht r g⟩
  | write p f body =>
    have ht : (v.deed c).target = some (p, f) := by rw [hd]; rfl
    have hself : ∀ k : File, v.Survives c r k k := survives_self (by simp [ht]) r
    obtain ⟨hf, hp⟩ := get_eq_some (get_of_target ht)
    simp only [hd] at he
    obtain ⟨w, qs, hev, hfin⟩ := he
    have hsub := hev.within.stored.subset
    have hold : g ∈ w.stored → ∃ k ∈ v.stored, v.Survives c r k g :=
      fun hm => ⟨g, hsub hm, hself g⟩
    rcases hfin with ⟨hfin, -⟩ | ⟨-, rfl, -⟩
    · rcases hfin.stored with hperm | ⟨-, -, heq⟩
      · rcases List.mem_cons.mp (hperm.mem_iff.mp hg) with rfl | hm
        · have h := hself f
          refine .inl ⟨f, hf, rfl, ?_, h.lockedBy, h.waiting, .inr ⟨body, .inl (hp ▸ hd)⟩⟩
          rw [← h.flag]
          exact chkFlag_clrFlag_oCreate_oLock _
        · exact .inl (hold (List.mem_of_mem_filter hm))
      · exact .inl (hold (heq ▸ hg))
    · exact .inl (hold hg)
  | append p f body =>
    have ht : (v.deed c).target = some (p, f) := by rw [hd]; rfl
    have hself : ∀ k : File, v.Survives c r k k := survives_self (by simp [ht]) r
    obtain ⟨hf, hp⟩ := get_eq_some (get_of_target ht)
    simp only [hd] at he
    have hput : ∀ f' : File, g ∈ (v.put p f').stored → f'.path = f.path → f'.flags = f.flags →
        f'.lockedBy = f.lockedBy → f'.waitingOnLock = f.waitingOnLock →
        ∃ k ∈ v.stored, v.Survives c r k g := by
      intro f' hm h1 h2 h3 h4
      obtain ⟨k, hk, rfl⟩ := List.mem_map.mp hm
      by_cases hkp : k.path = p
      · have h := hself f
        rw [putFile, if_pos hkp]
        exact ⟨f, hf, h1, by rw [h2, ← h.flag], h3.trans h.lockedBy, h4.trans h.waiting,
          .inr ⟨body, .inr (hp ▸ hd)⟩⟩
      · rw [putFile, if_neg hkp]
        exact ⟨k, hk, hself k⟩
    obtain ⟨-, ⟨rfl, -⟩ | ⟨-, rfl, -⟩⟩ := he
    · exact .inl (hput (f.appended body) hg rfl rfl rfl rfl)
    · exact .inl (hput { f with contents := none } hg rfl rfl rfl rfl)

end Catalog

/-! ### What changes a file that stays -/

/-- A write or an append of a client to a path. -/
def Call.Writes (p : Path) (clientFd : Nat) (c : Call) : Prop :=
  ∃ req, c = .request clientFd req ∧ req.path.join = some p ∧
    (req.type = .writeFile ∨ req.type = .appendToFile)

/-- The calls that may change the lock of a path. -/
inductive Call.Locks (p : Path) : Call → Prop where
  | lockManager : Locks p .lockManager
  | request {clientFd : Nat} {req : Request} (hp : req.path.join = some p)
      (ht : req.type ∈ [.closeFile, .lockFile, .unlockFile]) : Locks p (.request clientFd req)
  | opens {clientFd : Nat} {req : Request} {flags : Flags} (hp : req.path.join = some p)
      (ht : req.type = .openFile) (hb : readInt req.body = some flags)
      (hl : chkFlag flags oLock = true) : Locks p (.request clientFd req)

theorem Catalog.relock_cases (v : Catalog) (c : Call) (r : Option Reply) (f : File) :
    v.relock c r f = f ∨ c.Locks f.path := by
  cases c with
  | lockManager => exact .inr .lockManager
  | request clientFd req =>
    by_cases hp : req.path.join = some f.path
    · by_cases ht : req.type = .openFile
      · by_cases ho : v.opensLocked f.path req.body = true
        · obtain ⟨flags, hb, hl⟩ : ∃ flags, readInt req.body = some flags ∧
              chkFlag flags oLock = true := by
            unfold opensLocked at ho
            split at ho
            · cases ho
            · exact ⟨_, ‹_›, (Bool.and_eq_true_iff.mp ho).1⟩
          exact .inr (.opens hp ht hb hl)
        · simp [relock, ht, ho]
      · by_cases hl : req.type ∈ [.closeFile, .lockFile, .unlockFile]
        · exact .inr (.request hp hl)
        · exact .inl (relock_eq_self (by simp_all) r f)
    · simp [relock, hp]

theorem Catalog.Survives.writes {v : Catalog} {c : Call} {r : Option Reply} {f g : File}
    (h : v.Survives c r f g) (hne : g.size ≠ f.size ∨ g.contents ≠ f.contents) :
    ∃ clientFd, c.Writes f.path clientFd ∧ f.lockedBy = clientFd := by
  have hdue := deed_due v c
  rcases h.data with ⟨hs, hc⟩ | ⟨body, hd | hd⟩
  · rcases hne with hne | hne
    · exact absurd hs hne
    · exact absurd hc hne
  · rw [hd] at hdue
    cases hdue with
    | write ht hp _ _ hl _ _ => exact ⟨_, ⟨_, rfl, hp, .inl ht⟩, hl⟩
  · rw [hd] at hdue
    cases hdue with
    | append ht hp _ _ hl _ => exact ⟨_, ⟨_, rfl, hp, .inr ht⟩, hl⟩

/-- A path of `MAX_PATH` bytes and one more, which is copied into the flags. -/
def longPath (letter : Char) : Path := List.replicate maxPath 0x61 ++ [letter.val.toUInt8]

namespace File

/-- The flag is set exactly when there is an owner, and only clients wait. -/
structure Coherent (f : File) : Prop where
  flag : chkFlag f.flags oLock = true ↔ f.lockedBy ≠ -1
  waiting : ∀ waiting, f.waitingOnLock = some waiting → ∀ clientFd ∈ waiting, 0 ≤ clientFd

variable {f : File} {clientFd : Int}

theorem coherent_fresh (p : Path) (list : Bool) : (File.fresh p list).Coherent := by
  refine ⟨?_, fun waiting hw => ?_⟩
  · have h : chkFlag (File.fresh p list).flags oLock = false := by
      show chkFlag (setFlag 0 oCreate) oLock = false
      decide
    rw [h]
    simp [File.fresh]
  · cases list with
    | true =>
      obtain rfl := Option.some.inj hw
      simp
    | false => cases hw

theorem Coherent.locked (hf : f.Coherent) (hc : 0 ≤ clientFd) : (f.locked clientFd).Coherent := by
  refine ⟨?_, hf.waiting⟩
  simp only [File.locked, chkFlag_setFlag_oLock, true_iff]
  omega

theorem Coherent.unlocked (hf : f.Coherent) : f.unlocked.Coherent :=
  ⟨by simp [File.unlocked], hf.waiting⟩

theorem Coherent.opened (hf : f.Coherent) (hc : 0 ≤ clientFd) : (f.opened clientFd).Coherent := by
  unfold File.opened
  split
  · exact hf
  · exact hf.locked hc

theorem Coherent.closed (hf : f.Coherent) : (f.closed clientFd).Coherent := by
  unfold File.closed
  split
  · exact hf.unlocked
  · exact hf

theorem Coherent.asked (hf : f.Coherent) (hc : 0 ≤ clientFd) (status : ResponseCode) :
    (f.asked clientFd status).Coherent := by
  unfold File.asked
  split
  · exact hf.locked hc
  · split
    · refine ⟨hf.flag, fun waiting hw => ?_⟩
      obtain ⟨ws, hws, rfl⟩ := Option.map_eq_some_iff.mp hw
      intro c hm
      rcases List.mem_append.mp hm with hm | hm
      · exact hf.waiting ws hws c hm
      · obtain rfl := List.mem_singleton.mp hm
        exact hc
    · exact hf

theorem Coherent.granted (hf : f.Coherent) : f.granted.Coherent := by
  unfold File.granted
  split
  · rename_i c waiting hw
    have hall := hf.waiting _ hw
    split
    · have hl := hf.locked (hall c List.mem_cons_self)
      refine ⟨hl.flag, fun ws hws => ?_⟩
      obtain rfl := Option.some.inj hws
      exact fun k hk => hall k (List.mem_cons_of_mem _ hk)
    · exact hf
  · exact hf

end File

theorem Catalog.coherent_relock {f : File} (hf : f.Coherent) (v : Catalog) (c : Call)
    (r : Option Reply) : (v.relock c r f).Coherent := by
  cases c with
  | lockManager =>
    simp only [relock]
    split
    · exact hf.granted
    · exact hf
  | request clientFd req =>
    have hc : (0 : Int) ≤ clientFd := Int.natCast_nonneg clientFd
    simp only [relock]
    split
    · split
      · split
        · exact hf.opened hc
        · exact hf
      · exact hf.closed
      · exact hf.closed
      · cases r with
        | none => exact hf
        | some reply => exact hf.asked hc reply.status
      · exact hf
    · exact hf

theorem Catalog.Survives.coherent {v : Catalog} {c : Call} {r : Option Reply} {f g : File}
    (h : v.Survives c r f g) (hf : f.Coherent) : g.Coherent := by
  have hc := coherent_relock hf v c r
  refine ⟨?_, ?_⟩
  · rw [h.flag, h.lockedBy]
    exact hc.flag
  · rw [h.waiting]
    exact hc.waiting

theorem Server.coherent_step {t : Server} {x : Step} {r : Option Reply} {w : StorageWorld}
    (hs : t.storage.Sound) (hc : ∀ f ∈ t.storage.catalog.stored, f.Coherent)
    (he : t.exec x = some (r, w)) : ∀ f ∈ w.state.catalog.stored, f.Coherent := by
  intro g hg
  rcases Catalog.origin (exec_done hs he).2 (exec_locking hs he) hg with
    ⟨f, hf, hsur⟩ | ⟨-, -, list, heq⟩
  · exact hsur.coherent (hc f hf)
  · rw [heq]
    exact Catalog.coherent_relock (File.coherent_fresh _ _) _ _ _

theorem Server.Initial.coherent {C : Server → Step → Prop} {s t : Server} {h : List Record}
    (hi : s.Initial) (hr : Run C s h t) : ∀ f ∈ t.storage.catalog.stored, f.Coherent := by
  have hinv : t.storage.Sound ∧ ∀ f ∈ t.storage.catalog.stored, f.Coherent := by
    refine Run.invariant
      (I := fun _ t => t.storage.Sound ∧ ∀ f ∈ t.storage.catalog.stored, f.Coherent) ?_ ?_ hr
    · obtain ⟨_, _, _, -, -, hc⟩ := hi.catalog
      exact ⟨hi.sound, by simp [hc]⟩
    · intro _ t x r w ⟨hs, hc⟩ _ he
      exact ⟨(exec_done hs he).1, coherent_step hs hc he⟩
  exact hinv.2

end FileStorage
