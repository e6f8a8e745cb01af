import FileStorage.Fifo

/-! File counting: whether `no_of_files` is the number of stored files, and their quota. -/

namespace FileStorage

namespace Catalog

def count (v : Catalog) : Nat := v.total fun _ => 1

theorem count_eq_length (v : Catalog) : v.count = v.stored.length := by
  simp [count, total]

/-- The stored files but the one of a path. -/
def others (v : Catalog) (p : Path) : Nat := v.total (except p fun _ => 1)

theorem count_eq_others {v : Catalog} (hd : v.paths.Nodup) {p : Path} {f : File}
    (hf : v.get p = some f) : v.count = 1 + v.others p :=
  total_eq_except hd hf _

/-- Taking a path out of the table takes one file, or its neighbours with it. -/
theorem others_wipe {v : Catalog} (hd : v.paths.Nodup) {p q : Path} {g : File}
    (hg : v.get q = some g) (hqp : q ≠ p) (hn : ∀ k ∈ v.neighbours q, k.path = p) :
    v.others p = (v.wipe q).others p + 1 := by
  have hz : ∀ k ∈ v.neighbours q, except p (fun _ => 1) k = 0 := fun k hk => if_pos (hn k hk)
  have hone : except p (fun _ => 1) g = 1 := if_neg fun h => hqp ((get_eq_some hg).2.symm.trans h)
  have := total_wipe_of_neighbours hd hg hz
  simp only [others]
  omega

theorem Finished.count {fail : Prop} {v v' : Catalog} {p : Path} {g : File}
    (hf : v.Finished fail p g v') (hp : fail → p ∈ v.paths) : v'.count = 1 + v.others p := by
  rcases hf.stored with hs | ⟨h, hno, -⟩
  · rw [others, total_except, count_eq_length, hs.length_eq]
    simp [Nat.add_comm]
  · exact absurd (hp h) hno

theorem victimsFrom_subset (v : Catalog) (n current : Nat) (queue : List Path) :
    v.victimsFrom n current queue ⊆ queue := by
  induction queue generalizing current with
  | nil => simp [victimsFrom]
  | cons q queue ih =>
    unfold victimsFrom
    split
    · exact List.cons_subset_cons q (ih _)
    · exact List.nil_subset _

/-- `no_of_files` counts the stored files within the quota, and the queue holds written files,
each once. -/
structure Counted (v : Catalog) : Prop where
  exact : v.noOfFiles = v.count
  quota : v.noOfFiles ≤ v.maxFiles
  nodup : v.queue.Nodup
  queued : ∀ q ∈ v.queue, v.written q = true

/-- The changes that keep the count: no file is replaced at the limit of files or removed, and what a
write expels is alone in its bucket but for the written file, and really alone where something is
refused to the write. -/
def KeepsCount (v : Catalog) (fail : Prop) : Deed → Prop
  | .other => True
  | .create _ => True
  | .replace _ _ => False
  | .discard _ _ => False
  | .write p _ body =>
      ∀ q ∈ v.victims body.length, ∀ g ∈ v.neighbours q, g.path = p ∧ ¬fail
  | .append _ _ _ => True

instance (v : Catalog) (fail : Prop) [Decidable fail] : ∀ d, Decidable (v.KeepsCount fail d)
  | .other => inferInstanceAs (Decidable True)
  | .create _ => inferInstanceAs (Decidable True)
  | .replace _ _ => inferInstanceAs (Decidable False)
  | .discard _ _ => inferInstanceAs (Decidable False)
  | .write p _ body => inferInstanceAs (Decidable
      (∀ q ∈ v.victims body.length, ∀ g ∈ v.neighbours q, g.path = p ∧ ¬fail))
  | .append _ _ _ => inferInstanceAs (Decidable True)

theorem Counted.congr {v w : Catalog} (h : v.Counted) (hn : w.noOfFiles = v.noOfFiles)
    (hm : w.maxFiles = v.maxFiles) (hc : w.count = v.count) (hq : w.queue = v.queue)
    (hw : ∀ p, w.written p = v.written p) : w.Counted where
  exact := by rw [hn, hc, h.exact]
  quota := by rw [hn, hm]; exact h.quota
  nodup := hq ▸ h.nodup
  queued := fun q hm => (hw q).trans (h.queued q (hq ▸ hm))

theorem Counted.relabeled {v w : Catalog} (h : v.Counted) (hd : v.paths.Nodup)
    (hr : v.Relabeled w) : w.Counted := by
  have hc : w.count = v.count := hr.total fun _ _ _ => rfl
  have hw := hr.written hd
  obtain ⟨g, -, rfl⟩ := hr
  exact h.congr rfl rfl hc rfl hw

theorem Counted.create {v w : Catalog} {p : Path} (h : v.Counted) (hd : v.paths.Nodup)
    (hd' : w.paths.Nodup) (hl : v.noOfFiles + 1 ≤ v.maxFiles) (hc : v.Created p w) :
    w.Counted := by
  obtain ⟨list, ht⟩ := hc.total fun _ => 1
  have hn : w.noOfFiles = v.noOfFiles + 1 := by rw [hc.rest]
  have hq : w.queue = v.queue := by rw [hc.rest]
  have hm : w.maxFiles = v.maxFiles := by rw [hc.rest]
  have hx := h.exact
  refine ⟨?_, by omega, hq ▸ h.nodup, fun q hq' => ?_⟩
  · simp only [count] at hx ⊢
    omega
  · rw [hc.written hd hd']
    exact h.queued q (hq ▸ hq')

/-- What the rounds of `storage_FIFO_replace` keep while `p` is about to be written. -/
structure Draining (v : Catalog) (p : Path) (u : Catalog) : Prop where
  count : u.noOfFiles = u.others p + 1
  quota : u.noOfFiles ≤ v.noOfFiles
  nodup : u.queue.Nodup
  queued : ∀ q ∈ u.queue, u.written q = true

theorem Draining.expel {v u : Catalog} {p q : Path} {f g : File} (h : v.Draining p u)
    (hu : u.Within v) (hd : v.paths.Nodup) (hf : v.get p = some f)
    (hc : chkFlag f.flags oCreate = true) (hg : u.get q = some g) (hq : u.queue.head? = some q)
    (hn : ∀ k ∈ v.neighbours q, k.path = p) : v.Draining p (u.expel q g) := by
  have hdu := hu.nodup hd
  obtain ⟨queue, hqueue⟩ : ∃ queue, u.queue = q :: queue := List.head?_eq_some_iff.mp hq
  have hnd := h.nodup
  rw [hqueue, List.nodup_cons] at hnd
  have hqw := h.queued q (by simp [hqueue])
  have hqp : q ≠ p := by
    rintro rfl
    obtain ⟨k, hk, hkc⟩ := written_iff.mp hqw
    obtain rfl : f = k := Option.some.inj (hf.symm.trans (hu.get hd hk))
    simp [hc] at hkc
  have hnu : ∀ k ∈ u.neighbours q, k.path = p := fun k hk => hn k (hu.neighbours hk)
  have hfresh : ∀ k ∈ u.neighbours q, chkFlag k.flags oCreate = true := by
    intro k hk
    have hkv := hu.stored.subset (mem_neighbours.mp hk).1
    have hkf : v.get p = some k := (get_eq_some_iff hd).mpr ⟨hkv, hnu k hk⟩
    exact Option.some.inj (hf.symm.trans hkf) ▸ hc
  have ho := others_wipe hdu hg hqp hnu
  have hcount := h.count
  have hquota := h.quota
  refine ⟨?_, ?_, ?_, fun q' hq' => ?_⟩
  · change u.noOfFiles - 1 = (u.wipe q).others p + 1
    omega
  · change u.noOfFiles - 1 ≤ v.noOfFiles
    omega
  · change u.queue.tail.Nodup
    rw [hqueue]
    exact hnd.2
  · replace hq' : q' ∈ queue := by
      change q' ∈ u.queue.tail at hq'
      rwa [hqueue] at hq'
    have hne : q' ≠ q := fun he => hnd.1 (he ▸ hq')
    have := written_wipe hdu hfresh q'
    change (u.wipe q).written q' = true
    simpa [h.queued q' (by simp [hqueue, hq']), hne] using this

/-- One call keeps the count. -/
theorem Counted.step {fail : Prop} {v v' : Catalog} {c : Call} {r : Option Reply}
    {ns : List Access} (h : v.Counted) (hd : v.paths.Nodup) (hd' : v'.paths.Nodup)
    (hc : v.KeepsCount fail (v.deed c)) (he : Effect fail v c r ns v') : v'.Counted := by
  have hdue := deed_due v c
  unfold Effect at he
  cases hdeed : v.deed c with
  | other =>
    simp only [hdeed] at he
    exact h.relabeled hd he.2.1
  | create p =>
    simp only [hdeed] at he hdue
    obtain ⟨-, ⟨w, hcr, hrel, -⟩ | ⟨-, hrel⟩⟩ := he
    · have hdw : w.paths.Nodup := hrel.paths ▸ hd'
      have hl : v.noOfFiles + 1 ≤ v.maxFiles := by cases hdue; assumption
      exact (h.create hd hdw hl hcr).relabeled hdw hrel
    · exact h.relabeled hd hrel
  | replace p q => simp [hdeed, KeepsCount] at hc
  | discard p f => simp [hdeed, KeepsCount] at hc
  | write p f body =>
    simp only [hdeed] at he hc hdue
    obtain ⟨w, qs, hev, hfin⟩ := he
    obtain ⟨hf, hfresh⟩ : v.get p = some f ∧ chkFlag f.flags oCreate = true := by
      cases hdue
      exact ⟨‹_›, ‹_›⟩
    have hqs := hev.eq_victims hd
    have hx := h.exact
    have hone := count_eq_others hd hf
    have hstart : v.Draining p v := ⟨by omega, Int.le_refl _, h.nodup, h.queued⟩
    have hdrain : v.Draining p w := by
      refine hev.preserves (J := fun u => v.Draining p u) hstart ?_
      intro u q g hu hw hq hg hhead _
      exact hu.expel hw hd hf hfresh hg hhead fun k hk => (hc q (hqs ▸ hq) k hk).1
    have hdw := hev.within.nodup hd
    have hkeep : fail → w.get p = some f := by
      intro hfail
      refine hev.keeps hd hf fun q hq hb => ?_
      have hqp : p ≠ q := by
        rintro rfl
        have hqw := h.queued p (victimsFrom_subset _ _ _ _ (hqs ▸ hq))
        simp [written, hf, hfresh] at hqw
      have hm : f ∈ v.neighbours q :=
        mem_neighbours.mpr ⟨(get_eq_some hf).1, by rw [(get_eq_some hf).2, hb],
          by rwa [(get_eq_some hf).2]⟩
      exact (hc q (hqs ▸ hq) f hm).2 hfail
    have hcount := hdrain.count
    have hquota := hdrain.quota
    have hlimit := h.quota
    have hmax := hev.within.maxFiles
    rcases hfin with ⟨hfin, -⟩ | ⟨hfail, rfl, -⟩
    · have hpaths : fail → p ∈ w.paths := by
        intro hfail
        obtain ⟨hm, hp⟩ := get_eq_some (hkeep hfail)
        exact hp ▸ List.mem_map_of_mem hm
      have hvc : v'.count = 1 + w.others p := hfin.count hpaths
      have hn : v'.noOfFiles = w.noOfFiles := by rw [hfin.rest]
      have hm : v'.maxFiles = w.maxFiles := by rw [hfin.rest]
      have hnp : p ∉ w.queue := by
        intro hp
        obtain ⟨k, hk, hkc⟩ := written_iff.mp (hdrain.queued p hp)
        obtain rfl : f = k := Option.some.inj (hf.symm.trans (hev.within.get hd hk))
        simp [hfresh] at hkc
      have hw := hfin.written hdw hd' (get_eq_some hf).2 (by simp [File.wrote]) hpaths
      refine ⟨by omega, by omega, ?_, fun q hq => ?_⟩
      · rcases hfin.queue with hq | ⟨-, hq⟩
        · rw [hq]
          exact List.nodup_append.mpr ⟨hdrain.nodup, List.nodup_singleton p,
            fun a ha b hb hab => hnp (List.mem_singleton.mp hb ▸ hab ▸ ha)⟩
        · exact hq ▸ hdrain.nodup
      · rw [hw]
        have hq' : q ∈ w.queue ∨ q = p := by
          rcases hfin.queue with hx | ⟨-, hx⟩
          · simpa [hx] using hq
          · exact .inl (hx ▸ hq)
        rcases hq' with hq' | rfl
        · simp [hdrain.queued q hq']
        · simp
    · have hwc := count_eq_others hdw (hkeep hfail)
      exact ⟨by omega, by omega, hdrain.nodup, hdrain.queued⟩
  | append p f body =>
    simp only [hdeed] at he hdue
    obtain ⟨-, hfin⟩ := he
    have hf : v.get p = some f := get_of_target (by rw [hdeed]; rfl)
    have hput : ∀ g : File, (v.put p g).count = v.count := by simp [count_eq_length, put]
    rcases hfin with ⟨rfl, -⟩ | ⟨-, rfl, -⟩
    · exact h.congr rfl rfl (hput (f.appended body)) rfl (written_put hd hf rfl rfl)
    · exact h.congr rfl rfl (hput _) rfl (written_put hd hf rfl rfl)

end Catalog

/-- The calls without a fault that keep the count, from the state they start in. -/
def CountingStep (s : Server) (x : Step) : Prop :=
  s.Faultless x ∧ s.storage.catalog.KeepsCount (false ∈ x.env) (s.storage.catalog.deed x.call)

instance (s : Server) (x : Step) : Decidable (CountingStep s x) :=
  inferInstanceAs (Decidable (_ ∧ _))

/-- In a run of such calls on a storage whose quota of files is not negative, `no_of_files` stays
the number of the entries of the table and within the quota. -/
theorem noOfFiles_eq_length {s t : Server} {h : List Record} (hi : s.Initial)
    (h0 : 0 ≤ s.storage.maxFiles) (hr : Run CountingStep s h t) :
    t.storage.noOfFiles = t.storage.files.entries.length ∧
      (t.storage.files.entries.length : Int) ≤ t.storage.maxFiles := by
  have hstart : s.storage.catalog.Counted := by
    obtain ⟨maxSize, maxFiles, n, -, -, hcat⟩ := hi.catalog
    have hm : s.storage.maxFiles = toInt maxFiles := congrArg Catalog.maxFiles hcat
    rw [hcat]
    exact ⟨rfl, hm ▸ h0, List.nodup_nil, by simp⟩
  obtain ⟨-, hc⟩ : t.storage.Sound ∧ t.storage.catalog.Counted := by
    refine Run.invariant (I := fun _ t => t.storage.Sound ∧ t.storage.catalog.Counted)
      ⟨hi.sound, hstart⟩ ?_ hr
    intro h t x r w ⟨hs, hc⟩ hx he
    obtain ⟨hs', heff⟩ := Server.exec_done hs he
    exact ⟨hs', hc.step hs.nodup hs'.nodup hx.2 heff⟩
  have hlen : t.storage.catalog.count = t.storage.files.entries.length := by
    rw [Catalog.count_eq_length]
    exact List.length_map _
  have hx : t.storage.noOfFiles = t.storage.catalog.count := hc.exact
  have hl : t.storage.noOfFiles ≤ t.storage.maxFiles := hc.quota
  exact ⟨by rw [hx, hlen], by rw [← hlen, ← hx]; exact hl⟩

theorem noOfFiles_eq_length_eviction : ∃ s h t, s.Initial ∧ Run CountingStep s h t ∧
    h.map Record.step = [.openFile 5 (slash 'a') 6, .writeFile 5 (slash 'a') [1, 2],
      .openFile 5 (slash 'b') 6, .writeFile 5 (slash 'b') [3, 4, 5]] ∧
    t.storage.noOfFiles = t.storage.files.entries.length ∧
    (t.storage.files.entries.length : Int) ≤ t.storage.maxFiles := by
  obtain ⟨s, h, t, hi, hr, hx, hp⟩ := Server.exists_run CountingStep 4 3
    [.openFile 5 (slash 'a') 6, .writeFile 5 (slash 'a') [1, 2],
      .openFile 5 (slash 'b') 6, .writeFile 5 (slash 'b') [3, 4, 5]]
    (fun s _ _ => 0 ≤ s.storage.maxFiles) (by decide) (by decide)
  exact ⟨s, h, t, hi, hr, hx, noOfFiles_eq_length hi (by simpa using hp) hr⟩

/-- A file that was never written stays in the table when it is removed. -/
theorem noOfFiles_drifts : ∃ s h t, s.Initial ∧ Run anyStep s h t ∧
    h.map Record.step = [.openFile 5 (slash 'a') 6, .removeFile 5 (slash 'a'),
      .removeFile 5 (slash 'a')] ∧
    t.storage.noOfFiles = -1 ∧ t.storage.files.entries.length = 1 := by
  obtain ⟨s, h, t, hi, hr, hx, hp⟩ := Server.exists_run anyStep 4 1
    [.openFile 5 (slash 'a') 6, .removeFile 5 (slash 'a'), .removeFile 5 (slash 'a')]
    (fun _ _ t => t.storage.noOfFiles = -1 ∧ t.storage.files.entries.length = 1)
    (by decide) (by decide)
  exact ⟨s, h, t, hi, hr, hx, by simpa using hp⟩

end FileStorage
