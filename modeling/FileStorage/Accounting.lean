import FileStorage.Bookkeeping
import FileStorage.Disposal

/-! Byte accounting: whether `current_size` is the sum of the sizes of the stored files. -/

namespace FileStorage

namespace Catalog

/-- `current_size` is the sum of the sizes of the stored files. -/
structure Accounted (v : Catalog) : Prop where
  exact : v.currentSize = v.bytes
  fits : v.currentSize < sizeBound

/-- The changes that keep the account: no file is replaced at the limit of files, a removed path is
not queued and its file empty, a file is written while it is empty, and the sums stay below the
bound of `size_t`. -/
def KeepsAccount (v : Catalog) (fail : Prop) : Deed → Prop
  | .other => True
  | .create _ => True
  | .replace _ _ => False
  | .discard p f => p ∉ v.queue ∧ f.size = 0
  | .write p f body => f.size = 0 ∧ v.currentSize + body.length < sizeBound ∧
      ∀ q ∈ v.victims body.length,
        (∀ g ∈ v.neighbours q, g.size = 0) ∧ (fail → v.bucket p ≠ v.bucket q)
  | .append _ _ body => v.currentSize + body.length < sizeBound

instance (v : Catalog) (fail : Prop) [Decidable fail] : ∀ d, Decidable (v.KeepsAccount fail d)
  | .other => inferInstanceAs (Decidable True)
  | .create _ => inferInstanceAs (Decidable True)
  | .replace _ _ => inferInstanceAs (Decidable False)
  | .discard p f => inferInstanceAs (Decidable (p ∉ v.queue ∧ f.size = 0))
  | .write p f body => inferInstanceAs (Decidable (f.size = 0 ∧
      v.currentSize + body.length < sizeBound ∧ ∀ q ∈ v.victims body.length,
        (∀ g ∈ v.neighbours q, g.size = 0) ∧ (fail → v.bucket p ≠ v.bucket q)))
  | .append _ _ body => inferInstanceAs (Decidable (v.currentSize + body.length < sizeBound))

/-- A file leaves together with empty files of its bucket. -/
theorem Accounted.wipe {v : Catalog} (ha : v.Accounted) (hd : v.paths.Nodup) {p : Path} {f : File}
    (hf : v.get p = some f) (hn : ∀ g ∈ v.neighbours p, g.size = 0) :
    f.size ≤ v.currentSize ∧ sizeSub v.currentSize f.size = (v.wipe p).bytes := by
  have ht := total_wipe_of_neighbours hd hf hn
  have hx := ha.exact
  rw [bytes_eq_total] at hx ⊢
  have hle : f.size ≤ v.currentSize := by omega
  refine ⟨hle, ?_⟩
  rw [sizeSub_of_le ha.fits hle]
  omega

theorem Accounted.evicts {n : Nat} {v w : Catalog} {qs : List Path} {ns : List Access}
    (he : v.Evicts n qs ns w) (hd : v.paths.Nodup) (ha : v.Accounted)
    (hn : ∀ q ∈ qs, ∀ g ∈ v.neighbours q, g.size = 0) :
    w.Accounted ∧ w.currentSize ≤ v.currentSize ∧
      ∀ old amount, .shrinkSize old amount ∈ ns → amount ≤ old := by
  induction he with
  | done _ => exact ⟨ha, Nat.le_refl _, by simp⟩
  | round _ _ hf _ ih =>
    rename_i v w q qs ns f _ _ _
    obtain ⟨hle, hsub⟩ := ha.wipe hd hf (hn q List.mem_cons_self)
    have hw := within_expel v q f
    have ha' : (v.expel q f).Accounted := ⟨hsub, by
      change sizeSub _ _ < _
      exact sizeSub_lt _ _⟩
    have hcur : (v.expel q f).currentSize ≤ v.currentSize := by
      change sizeSub v.currentSize f.size ≤ _
      rw [sizeSub_of_le ha.fits hle]
      omega
    obtain ⟨h1, h2, h3⟩ := ih (hw.nodup hd) ha' fun q' hq' g hg =>
      hn q' (List.mem_cons_of_mem _ hq') g (hw.neighbours hg)
    refine ⟨h1, Nat.le_trans h2 hcur, fun old amount hm => ?_⟩
    simp only [List.mem_cons, Access.shrinkSize.injEq, reduceCtorEq, false_or] at hm
    rcases hm with ⟨rfl, rfl⟩ | hm
    · exact hle
    · exact h3 old amount hm

theorem Accounted.discard {v : Catalog} (ha : v.Accounted) {p : Path} {f : File} (hq : p ∉ v.queue)
    (hc : f.size = 0) : (v.discard p f).Accounted ∧ f.size ≤ v.currentSize := by
  have hz : sizeSub v.currentSize f.size = v.currentSize := by
    rw [hc, sizeSub_of_le ha.fits (Nat.zero_le _), Nat.sub_zero]
  rw [Catalog.discard, if_neg hq]
  exact ⟨⟨hz.trans ha.exact, sizeSub_lt _ _⟩, by omega⟩

theorem Accounted.finish {fail : Prop} {v v' : Catalog} {p : Path} {g : File}
    (ha : v.Accounted) (hd : v.paths.Nodup) (hfit : v.currentSize + g.size < sizeBound)
    (hp : ∀ f, v.get p = some f → f.size = 0) (hfail : fail → p ∈ v.paths)
    (hf : v.Finished fail p g v') : v'.Accounted := by
  have hcur : v'.currentSize = v.currentSize + g.size := by
    rw [hf.rest, ← sizeAdd_of_lt hfit]
  have hb : v'.bytes = v.bytes + g.size := by
    rcases hf.stored with hs | ⟨h, hno, -⟩
    · have ht : v.bytes = v.total (except p File.size) := by
        rw [bytes_eq_total]
        cases hg : v.get p with
        | none => exact (total_except_of_absent hg _).symm
        | some f => rw [total_eq_except hd hg, hp f hg, Nat.zero_add]
      rw [ht, total_except]
      have hsum := (hs.map File.size).sum_nat
      simp only [List.map_cons, List.sum_cons] at hsum
      rw [bytes, hsum, Nat.add_comm]
    · exact absurd (hfail h) hno
  exact ⟨by rw [hcur, hb, ha.exact], by omega⟩

/-- One call keeps the account. -/
theorem Accounted.step {fail : Prop} {v v' : Catalog} {c : Call} {r : Option Reply}
    {ns : List Access} (ha : v.Accounted) (hd : v.paths.Nodup)
    (hc : v.KeepsAccount fail (v.deed c)) (he : Effect fail v c r ns v') :
    v'.Accounted ∧ ∀ old amount, .shrinkSize old amount ∈ ns → amount ≤ old := by
  have hsame : ∀ u : Catalog, v.Relabeled u → u.Accounted := by
    intro u hu
    refine ⟨?_, ?_⟩
    · rw [hu.bytes, ← ha.exact]
      obtain ⟨g, -, rfl⟩ := hu
      rfl
    · obtain ⟨g, -, rfl⟩ := hu
      exact ha.fits
  have hdue := deed_due v c
  unfold Effect at he
  cases hdeed : v.deed c with
  | other =>
    simp only [hdeed] at he
    obtain ⟨rfl, hrel, -⟩ := he
    exact ⟨hsame _ hrel, by simp⟩
  | create p =>
    simp only [hdeed] at he
    obtain ⟨rfl, ⟨w, hcr, hrel, -⟩ | ⟨-, hrel⟩⟩ := he
    · obtain ⟨list, ht⟩ := hcr.total File.size
      have hb : v'.bytes = v.bytes := by
        rw [hrel.bytes, bytes_eq_total, ht]
        exact Nat.zero_add _
      have hcur : v'.currentSize = v.currentSize := by
        obtain ⟨g, -, rfl⟩ := hrel
        change w.currentSize = _
        rw [hcr.rest]
      exact ⟨⟨by rw [hcur, hb, ha.exact], hcur ▸ ha.fits⟩, by simp⟩
    · exact ⟨hsame _ hrel, by simp⟩
  | replace p q => simp [hdeed, KeepsAccount] at hc
  | discard p f =>
    simp only [hdeed] at he hc hdue
    obtain ⟨rfl, rfl, -⟩ := he
    obtain ⟨h1, h2⟩ := ha.discard hc.1 hc.2
    refine ⟨h1, fun old amount hm => ?_⟩
    obtain ⟨rfl, rfl⟩ : old = v.currentSize ∧ amount = f.size := by simpa using hm
    exact h2
  | write p f body =>
    simp only [hdeed] at he hc hdue
    obtain ⟨w, qs, hev, hfin⟩ := he
    obtain ⟨hz, hfit, hq⟩ := hc
    have hf : v.get p = some f := get_of_target (by rw [hdeed]; rfl)
    have hqs := hev.eq_victims hd
    rw [← hqs] at hq
    obtain ⟨hw, hle, hns⟩ := Accounted.evicts hev hd ha fun q hm => (hq q hm).1
    refine ⟨?_, hns⟩
    rcases hfin with ⟨hfin, -⟩ | ⟨-, rfl, -⟩
    · refine hw.finish (hev.within.nodup hd) ?_ (fun g hg => ?_) (fun hfail => ?_) hfin
      · change w.currentSize + body.length < _
        omega
      · have := hf.symm.trans (hev.within.get hd hg)
        exact Option.some.inj this ▸ hz
      · have hk := hev.keeps hd hf fun q hm => (hq q hm).2 hfail
        obtain ⟨hm, hp⟩ := get_eq_some hk
        exact hp ▸ List.mem_map_of_mem hm
    · exact hw
  | append p f body =>
    simp only [hdeed] at he hc hdue
    obtain ⟨rfl, hfin⟩ := he
    have hf : v.get p = some f := get_of_target (by rw [hdeed]; rfl)
    refine ⟨?_, by simp⟩
    have hle := le_total hf File.size
    have ht := total_eq_except hd hf File.size
    have hx := ha.exact
    rw [bytes_eq_total] at hx
    have hc' : v.currentSize + body.length < sizeBound := hc
    rcases hfin with ⟨rfl, -⟩ | ⟨-, rfl, -⟩
    · have hp := total_put (g := f.appended body) hd hf File.size
      have hsz : (f.appended body).size = f.size + body.length := sizeAdd_of_lt (by omega)
      refine ⟨?_, sizeAdd_lt _ _⟩
      change sizeAdd v.currentSize body.length = (v.put p (f.appended body)).total File.size
      rw [sizeAdd_of_lt hc', hp, hsz]
      omega
    · have hp := total_put (g := { f with contents := none }) hd hf File.size
      refine ⟨?_, ha.fits⟩
      change v.currentSize = (v.put p { f with contents := none }).total File.size
      have hsz : ({ f with contents := none } : File).size = f.size := rfl
      omega

end Catalog

/-- The calls without a fault that keep the account, from the state they start in. -/
def CountedStep (s : Server) (x : Step) : Prop :=
  s.Faultless x ∧ s.storage.catalog.KeepsAccount (false ∈ x.env) (s.storage.catalog.deed x.call)

instance (s : Server) (x : Step) : Decidable (CountedStep s x) :=
  inferInstanceAs (Decidable (_ ∧ _))

theorem World.mem_notes {w : StorageWorld} {old amount : Nat}
    (h : .access (.shrinkSize old amount) ∈ w.trace) : .shrinkSize old amount ∈ w.notes :=
  List.mem_filterMap.mpr ⟨_, h, rfl⟩

/-- In a run of such calls `current_size` stays the sum of the sizes of the stored files, and no
subtraction from it wraps. -/
theorem currentSize_eq_bytes {s t : Server} {h : List Record} (hi : s.Initial)
    (hr : Run CountedStep s h t) :
    t.storage.currentSize = t.storage.catalog.bytes ∧
      ∀ x ∈ h, ∀ old amount, .access (.shrinkSize old amount) ∈ x.world.trace → amount ≤ old := by
  have hinv : t.storage.Sound ∧ t.storage.catalog.Accounted ∧
      ∀ x ∈ h, ∀ old amount, .access (.shrinkSize old amount) ∈ x.world.trace → amount ≤ old := by
    refine Run.invariant (I := fun h t => t.storage.Sound ∧ t.storage.catalog.Accounted ∧
      ∀ x ∈ h, ∀ old amount, .access (.shrinkSize old amount) ∈ x.world.trace → amount ≤ old)
      ?_ ?_ hr
    · obtain ⟨_, _, _, -, -, hc⟩ := hi.catalog
      exact ⟨hi.sound, ⟨by rw [hc]; rfl, by rw [hc]; exact Nat.two_pow_pos 64⟩, by simp⟩
    · intro h t x r w ⟨hs, ha, hh⟩ hc he
      obtain ⟨hs', heff⟩ := Server.exec_done hs he
      obtain ⟨ha', hns⟩ := ha.step hs.nodup hc.2 heff
      refine ⟨hs', ha', fun y hy old amount hm => ?_⟩
      rcases List.mem_append.mp hy with hy | hy
      · exact hh y hy old amount hm
      · obtain rfl := List.mem_singleton.mp hy
        exact hns old amount (World.mem_notes hm)
  exact ⟨hinv.2.1.exact, hinv.2.2⟩

theorem currentSize_eq_bytes_eviction : ∃ s h t, s.Initial ∧ Run CountedStep s h t ∧
    h.map Record.step = [.openFile 5 (slash 'a') 6, .writeFile 5 (slash 'a') [1, 2],
      .openFile 5 (slash 'b') 6, .writeFile 5 (slash 'b') [3, 4, 5]] ∧
    t.storage.currentSize = t.storage.catalog.bytes := by
  obtain ⟨s, h, t, hi, hr, hx, -⟩ := Server.exists_run CountedStep 4 3
    [.openFile 5 (slash 'a') 6, .writeFile 5 (slash 'a') [1, 2],
      .openFile 5 (slash 'b') 6, .writeFile 5 (slash 'b') [3, 4, 5]]
    (fun _ _ _ => true) (by decide) (by decide)
  exact ⟨s, h, t, hi, hr, hx, (currentSize_eq_bytes hi hr).1⟩

/-- An append before the first write is counted twice. -/
theorem currentSize_drifts : ∃ s h t, s.Initial ∧ Run anyStep s h t ∧
    h.map Record.step = [.openFile 5 (slash 'a') 6, .appendToFile 5 (slash 'a') [1, 2],
      .writeFile 5 (slash 'a') [3]] ∧
    t.storage.currentSize = 3 ∧ t.storage.catalog.bytes = 1 := by
  obtain ⟨s, h, t, hi, hr, hx, hp⟩ := Server.exists_run anyStep 100 4
    [.openFile 5 (slash 'a') 6, .appendToFile 5 (slash 'a') [1, 2],
      .writeFile 5 (slash 'a') [3]]
    (fun _ _ t => t.storage.currentSize = 3 ∧ t.storage.catalog.bytes = 1) (by decide) (by decide)
  exact ⟨s, h, t, hi, hr, hx, by simpa using hp⟩

end FileStorage
