import FileStorage.Contents
import FileStorage.Disposal

/-! The byte quota: whether the stored files stay within `max_size`. -/

namespace FileStorage

namespace Catalog

/-- The bytes of the contents of the stored files. -/
def held (v : Catalog) : Nat := v.total fun f => (f.contents.getD []).length

theorem Filled.held_le {v : Catalog} (h : v.Filled) : v.held ≤ v.bytes := by
  simp only [held, total, bytes]
  refine List.sum_le_sum fun f hf => ?_
  cases hb : f.contents with
  | none => exact Nat.zero_le _
  | some b => exact Nat.le_of_eq (h f hf b hb)

/-- `current_size` covers the stored files, which are within the quota. -/
structure Covered (v : Catalog) : Prop where
  covered : v.bytes ≤ v.currentSize
  quota : v.bytes ≤ v.maxSize
  fits : v.currentSize < sizeBound
  bounded : v.maxSize < sizeBound

/-- The changes that keep the quota: no file is replaced at the limit of files, a removed path is not
queued and its file empty, an append fits beside the stored files, and the sums stay below the
bound of `size_t`. -/
def KeepsQuota (v : Catalog) : Deed → Prop
  | .other => True
  | .create _ => True
  | .replace _ _ => False
  | .discard p f => p ∉ v.queue ∧ f.size = 0
  | .write _ _ body => v.currentSize + body.length < sizeBound
  | .append _ _ body => v.bytes + body.length ≤ v.maxSize ∧
      v.currentSize + body.length < sizeBound

instance (v : Catalog) : ∀ d, Decidable (v.KeepsQuota d)
  | .other => inferInstanceAs (Decidable True)
  | .create _ => inferInstanceAs (Decidable True)
  | .replace _ _ => inferInstanceAs (Decidable False)
  | .discard p f => inferInstanceAs (Decidable (p ∉ v.queue ∧ f.size = 0))
  | .write _ _ body => inferInstanceAs (Decidable (v.currentSize + body.length < sizeBound))
  | .append _ _ body => inferInstanceAs (Decidable (v.bytes + body.length ≤ v.maxSize ∧
      v.currentSize + body.length < sizeBound))

theorem Covered.relabeled {v w : Catalog} (h : v.Covered) (hr : v.Relabeled w) : w.Covered := by
  have hb := hr.bytes
  obtain ⟨g, -, rfl⟩ := hr
  exact ⟨hb ▸ h.covered, hb ▸ h.quota, h.fits, h.bounded⟩

/-- The counters lose the size of one file, the table all of its bucket. -/
theorem Covered.wipe {v w : Catalog} {p : Path} {f : File} (h : v.Covered) (hd : v.paths.Nodup)
    (hf : v.get p = some f) (hs : w.stored = (v.wipe p).stored)
    (hc : w.currentSize = sizeSub v.currentSize f.size) (hm : w.maxSize = v.maxSize) :
    w.Covered ∧ w.currentSize ≤ v.currentSize := by
  have ht := total_wipe hd hf File.size
  have hb : w.bytes = (v.wipe p).total File.size := by rw [bytes, hs, total]
  have hv : v.bytes = v.total File.size := rfl
  have hcov := h.covered
  have hquota := h.quota
  have hfits := h.fits
  rw [sizeSub_of_le hfits (by omega)] at hc
  exact ⟨⟨by omega, by omega, by omega, hm ▸ h.bounded⟩, by omega⟩

theorem Covered.discard {v : Catalog} (h : v.Covered) {p : Path} {f : File} (hq : p ∉ v.queue)
    (hz : f.size = 0) : (v.discard p f).Covered := by
  have hsub : sizeSub v.currentSize f.size = v.currentSize := by
    rw [hz, sizeSub_of_le h.fits (Nat.zero_le _), Nat.sub_zero]
  rw [Catalog.discard, if_neg hq]
  refine ⟨?_, h.quota, ?_, h.bounded⟩
  · change v.bytes ≤ sizeSub v.currentSize f.size
    rw [hsub]
    exact h.covered
  · exact sizeSub_lt _ _

theorem Evicts.fits {n : Nat} {v w : Catalog} {qs : List Path} {ns : List Access}
    (h : v.Evicts n qs ns w) : sizeAdd w.currentSize n ≤ w.maxSize := by
  induction h with
  | done hfit => exact Nat.le_of_not_lt hfit
  | round _ _ _ _ ih => exact ih

theorem Covered.evicts {n : Nat} {v w : Catalog} {qs : List Path} {ns : List Access}
    (he : v.Evicts n qs ns w) (hd : v.paths.Nodup) (h : v.Covered) :
    w.Covered ∧ w.currentSize ≤ v.currentSize := by
  refine he.preserves (J := fun u => u.Covered ∧ u.currentSize ≤ v.currentSize)
    ⟨h, Nat.le_refl _⟩ ?_
  intro u q f ⟨hu, hle⟩ hw _ hf _ _
  have hx := hu.wipe (w := u.expel q f) (hw.nodup hd) hf rfl rfl rfl
  exact ⟨hx.1, Nat.le_trans hx.2 hle⟩

theorem Finished.bytes_le {fail : Prop} {v w : Catalog} {p : Path} {g : File}
    (hf : v.Finished fail p g w) : w.bytes ≤ v.bytes + g.size := by
  have hle := total_except_le v p File.size
  rw [total_except] at hle
  have hv : v.bytes = v.total File.size := rfl
  rcases hf.stored with hs | ⟨-, -, hs⟩
  · have hsum := (hs.map File.size).sum_nat
    simp only [List.map_cons, List.sum_cons] at hsum
    rw [bytes, hsum]
    omega
  · rw [bytes, hs, ← bytes]
    omega

/-- One call keeps the quota. -/
theorem Covered.step {fail : Prop} {v v' : Catalog} {c : Call} {r : Option Reply}
    {ns : List Access} (h : v.Covered) (hd : v.paths.Nodup) (hc : v.KeepsQuota (v.deed c))
    (he : Effect fail v c r ns v') : v'.Covered := by
  have hdue := deed_due v c
  unfold Effect at he
  cases hdeed : v.deed c with
  | other =>
    simp only [hdeed] at he
    exact h.relabeled he.2.1
  | create p =>
    simp only [hdeed] at he
    obtain ⟨-, ⟨w, hcr, hrel, -⟩ | ⟨-, hrel⟩⟩ := he
    · refine Covered.relabeled ?_ hrel
      obtain ⟨list, ht⟩ := hcr.total File.size
      have hb : w.bytes = v.bytes := ht.trans (Nat.zero_add _)
      have hcur : w.currentSize = v.currentSize := by rw [hcr.rest]
      have hmax : w.maxSize = v.maxSize := by rw [hcr.rest]
      exact ⟨by rw [hb, hcur]; exact h.covered, by rw [hb, hmax]; exact h.quota,
        hcur ▸ h.fits, hmax ▸ h.bounded⟩
    · exact h.relabeled hrel
  | replace p q => simp [hdeed, KeepsQuota] at hc
  | discard p f =>
    simp only [hdeed] at he hc hdue
    obtain ⟨-, rfl, -⟩ := he
    exact h.discard hc.1 hc.2
  | write p f body =>
    simp only [hdeed] at he hc
    obtain ⟨w, qs, hev, hfin⟩ := he
    obtain ⟨hw, hle⟩ := Covered.evicts hev hd h
    have hfit := hev.fits
    have hc' : v.currentSize + body.length < sizeBound := hc
    rw [sizeAdd_of_lt (by omega)] at hfit
    rcases hfin with ⟨hfin, -⟩ | ⟨-, rfl, -⟩
    · have hb : v'.bytes ≤ w.bytes + body.length := hfin.bytes_le
      have hadd : sizeAdd w.currentSize body.length = w.currentSize + body.length :=
        sizeAdd_of_lt (by omega)
      have hcur : v'.currentSize = w.currentSize + body.length := by
        rw [hfin.rest]
        exact hadd
      have hmax : v'.maxSize = w.maxSize := by rw [hfin.rest]
      have hcov := hw.covered
      exact ⟨by omega, by omega, by omega, hmax ▸ hw.bounded⟩
    · exact hw
  | append p f body =>
    simp only [hdeed] at he hc hdue
    have hf : v.get p = some f := get_of_target (by rw [hdeed]; rfl)
    obtain ⟨hfit, hcur⟩ : v.bytes + body.length ≤ v.maxSize ∧
        v.currentSize + body.length < sizeBound := hc
    have hv : v.bytes = v.total File.size := rfl
    have ht := total_eq_except hd hf File.size
    have hcov := h.covered
    have hbound := h.bounded
    obtain ⟨-, ⟨rfl, -⟩ | ⟨-, rfl, -⟩⟩ := he
    · have hsz : (f.appended body).size = f.size + body.length := sizeAdd_of_lt (by omega)
      have hb : (v.put p (f.appended body)).bytes = v.bytes + body.length := by
        have hp := total_put (g := f.appended body) hd hf File.size
        rw [bytes_eq_total, hp, hsz]
        omega
      refine ⟨?_, hb ▸ hfit, sizeAdd_lt _ _, hbound⟩
      change (v.put p (f.appended body)).bytes ≤ sizeAdd v.currentSize body.length
      rw [hb, sizeAdd_of_lt hcur]
      omega
    · have hb : (v.put p { f with contents := none }).bytes = v.bytes := by
        have hp := total_put (g := { f with contents := none }) hd hf File.size
        rw [bytes_eq_total, hp]
        exact ht.symm
      exact ⟨hb ▸ h.covered, hb ▸ h.quota, h.fits, hbound⟩

end Catalog

/-- The calls without a fault that keep the quota, from the state they start in. -/
def QuotaStep (s : Server) (x : Step) : Prop :=
  s.Faultless x ∧ s.storage.catalog.KeepsQuota (s.storage.catalog.deed x.call)

instance (s : Server) (x : Step) : Decidable (QuotaStep s x) :=
  inferInstanceAs (Decidable (_ ∧ _))

/-- In a run of such calls the stored files stay within `max_size`, by the sizes they record and
by the contents they hold. -/
theorem bytes_le_maxSize {s t : Server} {h : List Record} (hi : s.Initial)
    (hr : Run QuotaStep s h t) :
    t.storage.catalog.bytes ≤ t.storage.maxSize ∧ t.storage.catalog.held ≤ t.storage.maxSize := by
  have hstart : s.storage.catalog.Covered ∧ s.storage.catalog.Filled := by
    obtain ⟨maxSize, maxFiles, n, -, hb, hcat⟩ := hi.catalog
    rw [hcat]
    exact ⟨⟨Nat.le_refl _, Nat.zero_le _, Nat.two_pow_pos 64, hb⟩, by simp [Catalog.Filled]⟩
  obtain ⟨-, hc, hf⟩ :
      t.storage.Sound ∧ t.storage.catalog.Covered ∧ t.storage.catalog.Filled := by
    refine Run.invariant
      (I := fun _ t => t.storage.Sound ∧ t.storage.catalog.Covered ∧ t.storage.catalog.Filled)
      ⟨hi.sound, hstart⟩ ?_ hr
    intro h t x r w ⟨hs, hc, hf⟩ hx he
    obtain ⟨hs', heff⟩ := Server.exec_done hs he
    refine ⟨hs', hc.step hs.nodup hx.2 heff, hf.step ?_ heff⟩
    intro p f body hdeed
    have hget : t.storage.catalog.get p = some f := Catalog.get_of_target (by rw [hdeed]; rfl)
    have hle := Catalog.le_total hget File.size
    have hfit : t.storage.catalog.bytes + body.length ≤ t.storage.catalog.maxSize := by
      have hx' : t.storage.catalog.KeepsQuota (t.storage.catalog.deed x.call) := hx.2
      rw [hdeed] at hx'
      exact hx'.1
    have hbound := hc.bounded
    rw [← Catalog.bytes_eq_total] at hle
    omega
  exact ⟨hc.quota, Nat.le_trans hf.held_le hc.quota⟩

theorem bytes_le_maxSize_append : ∃ s h t, s.Initial ∧ Run QuotaStep s h t ∧
    h.map Record.step = [.openFile 5 (slash 'a') 6, .writeFile 5 (slash 'a') [1, 2],
      .openFile 5 (slash 'b') 6, .writeFile 5 (slash 'b') [3], .appendToFile 5 (slash 'b') [4],
      .openFile 5 (slash 'c') 6, .writeFile 5 (slash 'c') [5]] ∧
    t.storage.catalog.bytes ≤ t.storage.maxSize ∧ t.storage.catalog.held ≤ t.storage.maxSize := by
  obtain ⟨s, h, t, hi, hr, hx, -⟩ := Server.exists_run QuotaStep 4 3
    [.openFile 5 (slash 'a') 6, .writeFile 5 (slash 'a') [1, 2],
      .openFile 5 (slash 'b') 6, .writeFile 5 (slash 'b') [3], .appendToFile 5 (slash 'b') [4],
      .openFile 5 (slash 'c') 6, .writeFile 5 (slash 'c') [5]]
    (fun _ _ _ => true) (by decide) (by decide)
  exact ⟨s, h, t, hi, hr, hx, bytes_le_maxSize hi hr⟩

/-- An append is checked against `max_size` alone. -/
theorem bytes_exceed_maxSize : ∃ s h t, s.Initial ∧ Run anyStep s h t ∧
    h.map Record.step = [.openFile 5 (slash 'a') 6, .writeFile 5 (slash 'a') [1, 2],
      .appendToFile 5 (slash 'a') [3, 4]] ∧
    t.storage.maxSize = 3 ∧ t.storage.catalog.bytes = 4 := by
  obtain ⟨s, h, t, hi, hr, hx, hp⟩ := Server.exists_run anyStep 3 3
    [.openFile 5 (slash 'a') 6, .writeFile 5 (slash 'a') [1, 2],
      .appendToFile 5 (slash 'a') [3, 4]]
    (fun _ _ t => t.storage.maxSize = 3 ∧ t.storage.catalog.bytes = 4) (by decide) (by decide)
  exact ⟨s, h, t, hi, hr, hx, by simpa using hp⟩

end FileStorage
