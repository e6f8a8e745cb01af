import FileStorage.Execution

/-! Sums over the stored files, the files that share a bucket, and the files that have to leave
before a write fits. -/

namespace FileStorage

namespace Catalog

/-- The sum of `φ` over the stored files. -/
def total (φ : File → Nat) (v : Catalog) : Nat := (v.stored.map φ).sum

/-- The other files in the bucket of a path. -/
def neighbours (v : Catalog) (p : Path) : List File :=
  v.stored.filter fun f => v.bucket f.path = v.bucket p ∧ f.path ≠ p

theorem mem_neighbours {v : Catalog} {p : Path} {f : File} :
    f ∈ v.neighbours p ↔ f ∈ v.stored ∧ v.bucket f.path = v.bucket p ∧ f.path ≠ p := by
  simp [neighbours]

/-- `u` holds some of the files of `v`. -/
structure Within (u v : Catalog) : Prop where
  stored : u.stored.Sublist v.stored
  nBuckets : u.nBuckets = v.nBuckets
  maxSize : u.maxSize = v.maxSize
  maxFiles : u.maxFiles = v.maxFiles

theorem Within.refl (v : Catalog) : v.Within v := ⟨.refl _, rfl, rfl, rfl⟩

theorem Within.trans {u v w : Catalog} (h : u.Within v) (h' : v.Within w) : u.Within w :=
  ⟨h.stored.trans h'.stored, h.nBuckets.trans h'.nBuckets, h.maxSize.trans h'.maxSize,
    h.maxFiles.trans h'.maxFiles⟩

theorem Within.nodup {u v : Catalog} (h : u.Within v) (hd : v.paths.Nodup) : u.paths.Nodup :=
  hd.sublist (h.stored.map _)

theorem Within.get {u v : Catalog} (h : u.Within v) (hd : v.paths.Nodup) {p : Path} {f : File}
    (hf : u.get p = some f) : v.get p = some f := by
  obtain ⟨hm, hp⟩ := get_eq_some hf
  exact (get_eq_some_iff hd).mpr ⟨h.stored.subset hm, hp⟩

theorem Within.neighbours {u v : Catalog} (h : u.Within v) {p : Path} {f : File}
    (hf : f ∈ u.neighbours p) : f ∈ v.neighbours p := by
  obtain ⟨hm, hb, hp⟩ := mem_neighbours.mp hf
  refine mem_neighbours.mpr ⟨h.stored.subset hm, ?_, hp⟩
  simpa [bucket, h.nBuckets] using hb

theorem within_wipe (v : Catalog) (p : Path) : (v.wipe p).Within v :=
  ⟨List.filter_sublist, rfl, rfl, rfl⟩

theorem within_expel (v : Catalog) (q : Path) (f : File) : (v.expel q f).Within v :=
  ⟨List.filter_sublist, rfl, rfl, rfl⟩

theorem within_discard (v : Catalog) (p : Path) (f : File) : (v.discard p f).Within v := by
  unfold discard
  split
  · exact ⟨List.filter_sublist, rfl, rfl, rfl⟩
  · exact ⟨.refl _, rfl, rfl, rfl⟩

theorem within_replaceHead (v : Catalog) (q : Path) : (v.replaceHead q).Within v := by
  have hw : Within { v with queue := v.queue.tail } v := ⟨.refl _, rfl, rfl, rfl⟩
  simp only [replaceHead]
  split
  · exact (within_discard _ q _).trans hw
  · exact hw

/-! ### Sums -/

theorem bytes_eq_total (v : Catalog) : v.bytes = v.total File.size := rfl

theorem sum_filter (P : File → Bool) (φ : File → Nat) (l : List File) :
    (l.map φ).sum = ((l.filter P).map φ).sum + ((l.filter fun f => !P f).map φ).sum := by
  have hp := ((List.filter_append_perm P l).map φ).sum_nat
  rw [← hp, List.map_append, List.sum_append_nat]

/-- A sum with one file singled out. -/
theorem sum_eq_add_filter {l : List File} (hd : (l.map File.path).Nodup) {f : File} (hf : f ∈ l)
    (φ : File → Nat) :
    (l.map φ).sum = φ f + ((l.filter fun g => g.path ≠ f.path).map φ).sum := by
  have hp := (map_putFile_perm (g := f) hd hf rfl).map φ
  have he : l.map (putFile f.path f) = l := by
    rw [List.map_congr_left fun g hg => show putFile f.path f g = id g from ?_, List.map_id]
    by_cases h : g.path = f.path
    · rw [putFile, if_pos h, List.inj_on_of_nodup_map hd hg hf h, id]
    · rw [putFile, if_neg h, id]
  rw [he] at hp
  simpa using hp.sum_nat

/-- The bucket of a stored path holds its file and its neighbours. -/
theorem total_wipe {v : Catalog} (hd : v.paths.Nodup) {p : Path} {f : File}
    (hf : v.get p = some f) (φ : File → Nat) :
    v.total φ = (v.wipe p).total φ + φ f + ((v.neighbours p).map φ).sum := by
  obtain ⟨hm, rfl⟩ := get_eq_some hf
  let inBucket := fun g : File => decide (v.bucket g.path = v.bucket f.path)
  have hb : f ∈ v.stored.filter inBucket := List.mem_filter.mpr ⟨hm, by simp [inBucket]⟩
  have hdb : ((v.stored.filter inBucket).map File.path).Nodup :=
    hd.sublist (List.filter_sublist.map _)
  have hsplit := sum_filter inBucket φ v.stored
  have hone := sum_eq_add_filter hdb hb φ
  have hn : (v.stored.filter inBucket).filter (fun g => decide (g.path ≠ f.path)) =
      v.neighbours f.path := by
    rw [List.filter_filter, neighbours]
    refine List.filter_congr fun g _ => ?_
    by_cases h : g.path = f.path <;> simp [inBucket, h]
  have hw : v.stored.filter (fun g => !inBucket g) = (v.wipe f.path).stored := by
    refine List.filter_congr fun g _ => ?_
    simp [inBucket]
  rw [hn] at hone
  rw [hw] at hsplit
  simp only [total]
  omega

theorem total_wipe_of_neighbours {v : Catalog} (hd : v.paths.Nodup) {p : Path} {f : File}
    (hf : v.get p = some f) {φ : File → Nat} (hn : ∀ g ∈ v.neighbours p, φ g = 0) :
    v.total φ = (v.wipe p).total φ + φ f := by
  have hz : ((v.neighbours p).map φ).sum = 0 := by
    rw [List.sum_eq_zero_iff_forall_eq_nat]
    simpa using hn
  have := total_wipe hd hf φ
  omega

theorem le_total {v : Catalog} {p : Path} {f : File} (hf : v.get p = some f) (φ : File → Nat) :
    φ f ≤ v.total φ := by
  obtain ⟨l, r, hl⟩ := List.append_of_mem (get_eq_some hf).1
  simp only [total, hl, List.map_append, List.map_cons, List.sum_append_nat, List.sum_cons]
  omega

theorem Relabeled.total {v v' : Catalog} (h : v.Relabeled v') {φ : File → Nat}
    (hφ : ∀ f g, SameData f g → φ g = φ f) : v'.total φ = v.total φ := by
  obtain ⟨g, hg, rfl⟩ := h
  simp only [Catalog.total, List.map_map]
  exact congrArg List.sum (List.map_congr_left fun f hf => hφ f (g f) (hg f hf))

theorem Created.total {v v' : Catalog} {p : Path} (h : v.Created p v') (φ : File → Nat) :
    ∃ list, v'.total φ = φ (File.fresh p list) + v.total φ := by
  obtain ⟨list, hl⟩ := h.stored
  exact ⟨list, by simpa [Catalog.total] using (hl.map φ).sum_nat⟩

/-- The measure that counts nothing for one path. -/
def except (p : Path) (φ : File → Nat) (f : File) : Nat := if f.path = p then 0 else φ f

theorem total_except (v : Catalog) (p : Path) (φ : File → Nat) :
    v.total (except p φ) = ((v.stored.filter fun f => f.path ≠ p).map φ).sum := by
  rw [total, sum_filter (fun f => decide (f.path = p)) (except p φ)]
  have h1 : ((v.stored.filter fun f => decide (f.path = p)).map (except p φ)).sum = 0 := by
    rw [List.sum_eq_zero_iff_forall_eq_nat]
    simp +contextual [except]
  have h2 : (v.stored.filter fun f => !decide (f.path = p)).map (except p φ) =
      (v.stored.filter fun f => decide (f.path ≠ p)).map φ := by
    rw [List.filter_congr (q := fun f => decide (f.path ≠ p)) (by simp)]
    exact List.map_congr_left fun f hf => if_neg (by simpa using (List.mem_filter.mp hf).2)
  rw [h1, h2, Nat.zero_add]

theorem total_eq_except {v : Catalog} (hd : v.paths.Nodup) {p : Path} {f : File}
    (hf : v.get p = some f) (φ : File → Nat) :
    v.total φ = φ f + v.total (except p φ) := by
  obtain ⟨hm, rfl⟩ := get_eq_some hf
  rw [total_except]
  exact sum_eq_add_filter hd hm φ

theorem total_except_of_absent {v : Catalog} {p : Path} (h : v.get p = none) (φ : File → Nat) :
    v.total (except p φ) = v.total φ := by
  rw [total_except, filter_ne_of_absent h, total]

theorem total_except_le (v : Catalog) (p : Path) (φ : File → Nat) :
    v.total (except p φ) ≤ v.total φ := by
  rw [total_except, total, sum_filter (fun f => decide (f.path ≠ p)) φ v.stored]
  omega

theorem total_put {v : Catalog} (hd : v.paths.Nodup) {p : Path} {f g : File}
    (hf : v.get p = some f) (φ : File → Nat) :
    (v.put p g).total φ = φ g + v.total (except p φ) := by
  obtain ⟨hm, hp⟩ := get_eq_some hf
  rw [total_except]
  simpa [total, put] using ((map_putFile_perm hd hm hp).map φ).sum_nat

/-! ### Lookups after a change -/

theorem get_wipe {v : Catalog} (hd : v.paths.Nodup) (p q : Path) :
    (v.wipe p).get q = if v.bucket q = v.bucket p then none else v.get q := by
  have hd' := (within_wipe v p).nodup hd
  by_cases hb : v.bucket q = v.bucket p
  · rw [if_pos hb, get_eq_none_iff]
    intro hm
    obtain ⟨f, hf, rfl⟩ := List.mem_map.mp hm
    have := (List.mem_filter.mp hf).2
    simp [hb] at this
  · rw [if_neg hb]
    cases hg : v.get q with
    | none => exact get_none_of_subset (wipe_subset v p) hg
    | some f =>
      obtain ⟨hm, rfl⟩ := get_eq_some hg
      exact (get_eq_some_iff hd').mpr ⟨List.mem_filter.mpr ⟨hm, by simpa using hb⟩, rfl⟩

theorem get_of_perm_filter {v w : Catalog} (hd : v.paths.Nodup) (hd' : w.paths.Nodup) {p : Path}
    {g : File} (hg : g.path = p) (hs : w.stored.Perm (g :: v.stored.filter fun f => f.path ≠ p))
    (q : Path) : w.get q = if q = p then some g else v.get q := by
  by_cases hq : q = p
  · rw [if_pos hq, get_eq_some_iff_of_perm hd' hs]
    exact ⟨List.mem_cons_self, hg.trans hq.symm⟩
  · rw [if_neg hq]
    refine Option.ext fun k => ?_
    rw [get_eq_some_iff_of_perm hd' hs, get_eq_some_iff hd, List.mem_cons, List.mem_filter,
      decide_eq_true_eq]
    constructor
    · rintro ⟨rfl | ⟨hk, -⟩, hkq⟩
      · exact absurd (hkq.symm.trans hg) hq
      · exact ⟨hk, hkq⟩
    · rintro ⟨hk, rfl⟩
      exact ⟨.inr ⟨hk, hq⟩, rfl⟩

theorem get_put {v : Catalog} (hd : v.paths.Nodup) {p : Path} {f g : File}
    (hf : v.get p = some f) (hg : g.path = p) (q : Path) :
    (v.put p g).get q = if q = p then some g else v.get q := by
  have hd' : (v.put p g).paths.Nodup := by rwa [put_paths hg]
  obtain ⟨hm, hp⟩ := get_eq_some hf
  have hs : (v.put p g).stored.Perm (g :: v.stored.filter fun f => f.path ≠ p) :=
    map_putFile_perm hd hm hp
  exact get_of_perm_filter hd hd' hg hs q

theorem Created.get_eq {v w : Catalog} {p : Path} (h : v.Created p w) (hd : v.paths.Nodup)
    (hd' : w.paths.Nodup) (q : Path) :
    ∃ list, w.get q = if q = p then some (File.fresh p list) else v.get q := by
  obtain ⟨list, hl⟩ := h.stored
  rw [← filter_ne_of_absent h.absent] at hl
  exact ⟨list, get_of_perm_filter hd hd' rfl hl q⟩

theorem Finished.get {fail : Prop} {v w : Catalog} {p : Path} {g : File}
    (hf : v.Finished fail p g w) (hd : v.paths.Nodup) (hd' : w.paths.Nodup) (hg : g.path = p)
    (hp : fail → p ∈ v.paths) (q : Path) : w.get q = if q = p then some g else v.get q := by
  rcases hf.stored with hs | ⟨h, hno, -⟩
  · exact get_of_perm_filter hd hd' hg hs q
  · exact absurd (hp h) hno

/-! ### The files that have to leave -/

def sizeOf (v : Catalog) (q : Path) : Nat := ((v.get q).map File.size).getD 0

/-- The paths of a queue that have to leave before `n` bytes fit beside `current` bytes. -/
def victimsFrom (v : Catalog) (n : Nat) : Nat → List Path → List Path
  | _, [] => []
  | current, q :: queue =>
    if sizeAdd current n > v.maxSize then
      q :: v.victimsFrom n (sizeSub current (v.sizeOf q)) queue
    else []

def victims (v : Catalog) (n : Nat) : List Path := v.victimsFrom n v.currentSize v.queue

theorem Evicts.within {n : Nat} {v w : Catalog} {qs : List Path} {ns : List Access}
    (h : v.Evicts n qs ns w) : w.Within v := by
  induction h with
  | done _ => exact .refl _
  | round _ _ _ _ ih => exact ih.trans (within_expel _ _ _)

/-- What the rounds have noted. -/
theorem Evicts.victim_iff {n : Nat} {v w : Catalog} {qs : List Path} {ns : List Access} {p : Path}
    (h : v.Evicts n qs ns w) : .victim p ∈ ns ↔ p ∈ qs := by
  induction h with
  | done => simp
  | round _ _ _ _ ih => simp [ih]

theorem Evicts.eq_victimsFrom {n : Nat} {u v w : Catalog} {qs : List Path} {ns : List Access}
    (h : u.Evicts n qs ns w) (hd : v.paths.Nodup) (hu : u.Within v) :
    qs = v.victimsFrom n u.currentSize u.queue := by
  induction h with
  | done hfit =>
    rename_i u
    cases hq : u.queue with
    | nil => rfl
    | cons q queue => rw [victimsFrom, if_neg (by rwa [← hu.maxSize])]
  | round hover hq hf _ ih =>
    rename_i u _ q _ _ f _
    obtain ⟨queue, hqueue⟩ : ∃ queue, u.queue = q :: queue := List.head?_eq_some_iff.mp hq
    have hs : v.sizeOf q = f.size := by simp [sizeOf, hu.get hd hf]
    rw [hqueue, victimsFrom, if_pos (by rwa [← hu.maxSize]), hs,
      ih ((within_expel u q f).trans hu)]
    simp [expel, wipe, discount, hqueue]

theorem Evicts.eq_victims {n : Nat} {v w : Catalog} {qs : List Path} {ns : List Access}
    (h : v.Evicts n qs ns w) (hd : v.paths.Nodup) : qs = v.victims n :=
  h.eq_victimsFrom hd (.refl v)

/-- What each round keeps is kept. -/
theorem Evicts.preserves {n : Nat} {v w : Catalog} {qs : List Path} {ns : List Access}
    (h : v.Evicts n qs ns w) {J : Catalog → Prop} (hv : J v)
    (hstep : ∀ u q f, J u → u.Within v → q ∈ qs → u.get q = some f → u.queue.head? = some q →
      sizeAdd u.currentSize n > u.maxSize → J (u.expel q f)) : J w := by
  suffices ∀ u, u.Within v → ∀ qs' ns', u.Evicts n qs' ns' w → qs' ⊆ qs → J u → J w from
    this v (.refl v) qs ns h (List.Subset.refl _) hv
  clear h hv
  intro u hu qs' ns' he
  induction he with
  | done _ => exact fun _ hJ => hJ
  | round hover hq hf _ ih =>
    intro hsub hJ
    obtain ⟨hq', hqs'⟩ := List.cons_subset.mp hsub
    exact ih ((within_expel _ _ _).trans hu) hqs' (hstep _ _ _ hJ hu hq' hf hq hover)

/-! ### The bounds of the storage -/

/-- What `storage_create` sets once and for all. -/
def bounds (v : Catalog) : Nat × Int × Nat := (v.maxSize, v.maxFiles, v.nBuckets)

theorem Within.bounds {u v : Catalog} (h : u.Within v) : u.bounds = v.bounds := by
  simp [Catalog.bounds, h.maxSize, h.maxFiles, h.nBuckets]

theorem Relabeled.bounds {v v' : Catalog} (h : v.Relabeled v') : v'.bounds = v.bounds := by
  obtain ⟨g, -, rfl⟩ := h
  rfl

theorem Created.bounds {v v' : Catalog} {p : Path} (h : v.Created p v') : v'.bounds = v.bounds := by
  rw [h.rest]
  rfl

theorem Effect.bounds {fail : Prop} {v v' : Catalog} {c : Call} {r : Option Reply}
    {ns : List Access} (h : Effect fail v c r ns v') : v'.bounds = v.bounds := by
  unfold Effect at h
  cases hd : v.deed c with
  | other =>
    rw [hd] at h
    exact h.2.1.bounds
  | create p =>
    rw [hd] at h
    rcases h.2 with ⟨w, hc, hw, -⟩ | ⟨-, hv⟩
    · exact hw.bounds.trans hc.bounds
    · exact hv.bounds
  | replace p q =>
    rw [hd] at h
    have hq := (within_replaceHead v q).bounds
    rcases h with ⟨w, hc, hw⟩ | ⟨-, hv | hv⟩
    · exact hw.bounds.trans (hc.bounds.trans hq)
    · exact hv.bounds.trans hq
    · exact hv.bounds
  | discard p f =>
    rw [hd] at h
    rw [h.2.1]
    exact (within_discard v p f).bounds
  | write p f body =>
    rw [hd] at h
    obtain ⟨w, qs, hev, ⟨hfin, -⟩ | ⟨-, rfl, -⟩⟩ := h
    · have hw : v'.bounds = w.bounds := by
        rw [hfin.rest]
        rfl
      exact hw.trans hev.within.bounds
    · exact hev.within.bounds
  | append p f body =>
    rw [hd] at h
    rcases h.2 with ⟨rfl, -⟩ | ⟨-, rfl, -⟩ <;> rfl

/-- A path that shares its bucket with no victim stays. -/
theorem Evicts.keeps {n : Nat} {v w : Catalog} {qs : List Path} {ns : List Access}
    (he : v.Evicts n qs ns w) (hd : v.paths.Nodup) {p : Path} {f : File} (hf : v.get p = some f)
    (hb : ∀ q ∈ qs, v.bucket p ≠ v.bucket q) : w.get p = some f := by
  refine he.preserves (J := fun u => u.get p = some f) hf fun u q g hu hw hq _ _ _ => ?_
  obtain ⟨hm, hp⟩ := get_eq_some hu
  refine (get_eq_some_iff ((within_expel u q g).nodup (hw.nodup hd))).mpr ⟨?_, hp⟩
  refine List.mem_filter.mpr ⟨hm, decide_eq_true ?_⟩
  have := hb q hq
  simpa [bucket, hp, hw.nBuckets, discount] using this

end Catalog

end FileStorage
