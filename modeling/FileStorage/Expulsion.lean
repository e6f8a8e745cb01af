import FileStorage.Quota
import FileStorage.Removal
import FileStorage.Rounds

/-! What leaves the storage to make room: the paths at the head of the queue, as many as needed. -/

namespace FileStorage

open Prog

theorem sizeSub_zero {a : Nat} (h : a < sizeBound) : sizeSub a 0 = a := by
  rw [sizeSub_of_le h (Nat.zero_le _), Nat.sub_zero]

theorem sizeSub_sizeSub (a b c : Nat) : sizeSub (sizeSub a b) c = sizeSub a (b + c) := by
  simp only [sizeSub, sizeBound]
  omega

namespace Catalog

variable {n : Nat} {v w : Catalog} {p q : Path} {f : File} {qs : List Path} {ns : List Access}

/-- The bytes that the files of some paths free. -/
def sizesOf (v : Catalog) (qs : List Path) : Nat := (qs.map v.sizeOf).sum

/-- `current_size` without the files of some paths. -/
def sizeAfter (v : Catalog) (qs : List Path) : Nat := sizeSub v.currentSize (v.sizesOf qs)

theorem sizeOf_of_get (h : v.get q = some f) : v.sizeOf q = f.size := by
  rw [sizeOf, h]
  rfl

theorem sizeAfter_nil (hv : v.currentSize < sizeBound) : v.sizeAfter [] = v.currentSize :=
  sizeSub_zero hv

theorem get_expel (hd : v.paths.Nodup) (p q : Path) (f : File) :
    (v.expel q f).get p = if v.bucket p = v.bucket q then none else v.get p :=
  get_wipe (v := { v.discount f with queue := v.queue.tail }) hd q p

/-- The other files weigh the same after one has left. -/
theorem sizeAfter_expel (hd : v.paths.Nodup) (hf : v.get q = some f)
    (h : ∀ p ∈ qs, ((v.expel q f).get p).isSome = true) :
    (v.expel q f).sizeAfter qs = v.sizeAfter (q :: qs) := by
  have hsizes : (v.expel q f).sizesOf qs = v.sizesOf qs := by
    refine congrArg List.sum (List.map_congr_left fun p hp => ?_)
    obtain ⟨g, hg⟩ := Option.isSome_iff_exists.mp (h p hp)
    rw [sizeOf_of_get hg, sizeOf_of_get ((within_expel v q f).get hd hg)]
  have hcur : (v.expel q f).currentSize = sizeSub v.currentSize f.size := rfl
  have hcons : v.sizesOf (q :: qs) = f.size + v.sizesOf qs := by
    rw [sizesOf, List.map_cons, List.sum_cons, sizeOf_of_get hf, sizesOf]
  rw [sizeAfter, hsizes, hcur, sizeSub_sizeSub, sizeAfter, hcons]

theorem Evicts.found (h : v.Evicts n qs ns w) (hd : v.paths.Nodup) :
    ∀ q ∈ qs, (v.get q).isSome = true := by
  induction h with
  | done => simp
  | @round v _ q _ _ f _ _ hf _ ih =>
    intro p hp
    rcases List.mem_cons.mp hp with rfl | hp
    · rw [hf, Option.isSome_some]
    · obtain ⟨g, hg⟩ := Option.isSome_iff_exists.mp (ih ((within_expel v q f).nodup hd) p hp)
      rw [(within_expel v q f).get hd hg, Option.isSome_some]

theorem Evicts.apart (h : v.Evicts n qs ns w) (hd : v.paths.Nodup) :
    qs.Pairwise fun p q => v.bucket p ≠ v.bucket q := by
  induction h with
  | done => exact .nil
  | @round v _ q _ _ f _ _ _ hr ih =>
    have hd' := (within_expel v q f).nodup hd
    refine List.pairwise_cons.mpr ⟨fun p hp hb => ?_, ih hd'⟩
    have hfound := hr.found hd' p hp
    rw [get_expel hd, if_pos hb.symm] at hfound
    cases hfound

theorem Evicts.queue_eq (h : v.Evicts n qs ns w) : v.queue = qs ++ w.queue := by
  induction h with
  | done => rfl
  | round _ hq _ _ ih =>
    obtain ⟨queue, hqueue⟩ := List.head?_eq_some_iff.mp hq
    rw [hqueue, List.cons_append, ← ih]
    change _ = _ :: List.tail _
    rw [hqueue, List.tail_cons]

theorem Evicts.currentSize_eq (h : v.Evicts n qs ns w) (hd : v.paths.Nodup)
    (hv : v.currentSize < sizeBound) : w.currentSize = v.sizeAfter qs := by
  induction h with
  | done => exact (sizeAfter_nil hv).symm
  | @round v _ q _ _ f _ _ hf hr ih =>
    have hd' := (within_expel v q f).nodup hd
    rw [ih hd' (sizeSub_lt _ _), sizeAfter_expel hd hf (hr.found hd')]

theorem Evicts.noOfFiles_eq (h : v.Evicts n qs ns w) : w.noOfFiles = v.noOfFiles - qs.length := by
  induction h with
  | done => simp
  | @round v _ _ _ _ _ _ _ _ _ ih =>
    have hcount : ∀ q f, (v.expel q f).noOfFiles = v.noOfFiles - 1 := fun _ _ => rfl
    rw [ih, hcount, List.length_cons]
    omega

/-- No shorter part of the queue would do. -/
theorem Evicts.over (h : v.Evicts n qs ns w) (hd : v.paths.Nodup) (hv : v.currentSize < sizeBound) :
    ∀ k < qs.length, sizeAdd (v.sizeAfter (qs.take k)) n > v.maxSize := by
  induction h with
  | done => simp
  | @round v _ q qs _ f hover _ hf hr ih =>
    intro k hk
    have hd' := (within_expel v q f).nodup hd
    cases k with
    | zero => rwa [List.take_zero, sizeAfter_nil hv]
    | succ k =>
      have hlt := ih hd' (sizeSub_lt _ _) k (by simpa using hk)
      rw [sizeAfter_expel hd hf fun p hp => hr.found hd' p (List.mem_of_mem_take hp)] at hlt
      exact hlt

theorem Evicts.shrinkSize_iff (h : v.Evicts n qs ns w) (hd : v.paths.Nodup)
    (hv : v.currentSize < sizeBound) (old : Nat) :
    (∃ amount, .shrinkSize old amount ∈ ns) ↔
      ∃ k < qs.length, old = v.sizeAfter (qs.take k) := by
  induction h with
  | done => simp
  | @round v _ q qs ns f _ _ hf hr ih =>
    have hd' := (within_expel v q f).nodup hd
    have htake : ∀ k, (v.expel q f).sizeAfter (qs.take k) = v.sizeAfter ((q :: qs).take (k + 1)) :=
      fun k => sizeAfter_expel hd hf fun p hp => hr.found hd' p (List.mem_of_mem_take hp)
    have ih := ih hd' (sizeSub_lt _ _)
    constructor
    · rintro ⟨amount, hm⟩
      simp only [List.mem_cons, Access.shrinkSize.injEq, reduceCtorEq, false_or] at hm
      rcases hm with ⟨rfl, -⟩ | hm
      · exact ⟨0, by simp, (sizeAfter_nil hv).symm⟩
      · obtain ⟨k, hk, rfl⟩ := ih.mp ⟨amount, hm⟩
        refine ⟨k + 1, by simpa using hk, htake k⟩
    · rintro ⟨k, hk, rfl⟩
      cases k with
      | zero => exact ⟨f.size, by simp [sizeAfter_nil hv]⟩
      | succ k =>
        obtain ⟨amount, hm⟩ := ih.mpr ⟨k, by simpa using hk, (htake k).symm⟩
        exact ⟨amount, List.mem_cons_of_mem _ (List.mem_cons_of_mem _ hm)⟩

/-! ### The answers that a replacement needs -/

/-- Each round gets the record of the copy and, unless the file is empty, the block of its
contents. -/
def Granted (v : Catalog) : List Path → List Bool → Prop
  | [], _ => True
  | q :: qs, env => env.headD true = true ∧ (v.sizeOf q ≠ 0 → env.tail.headD true = true) ∧
      v.Granted qs env.tail.tail.tail

theorem Granted.of_prefix {qs' : List Path} {env : List Bool} (h : v.Granted qs env)
    (hp : qs' <+: qs) : v.Granted qs' env := by
  obtain ⟨rest, rfl⟩ := hp
  induction qs' generalizing env with
  | nil => trivial
  | cons q qs' ih => exact ⟨h.1, h.2.1, ih h.2.2⟩

theorem Granted.congr {u : Catalog} {env : List Bool} (h : ∀ q ∈ qs, u.sizeOf q = v.sizeOf q) :
    u.Granted qs env ↔ v.Granted qs env := by
  induction qs generalizing env with
  | nil => rfl
  | cons q qs ih =>
    simp only [Granted]
    rw [h q List.mem_cons_self, ih fun p hp => h p (List.mem_cons_of_mem _ hp)]

end Catalog

/-- `storage_FIFO_replace` can copy and free the file. -/
structure File.Copyable (f : File) : Prop where
  contents : f.size ≠ 0 → f.contents ≠ none
  waiting : f.waitingOnLock ≠ none

theorem copyBytes_ne_none {block : Bool} {src : Option Bytes} {n : Nat} :
    copyBytes block src n ≠ none ↔ (n ≠ 0 → block = true) ∧ (n ≠ 0 → src ≠ none) := by
  unfold copyBytes
  by_cases hn : n = 0
  · simp [hn]
  · cases block <;> cases src <;> simp [hn]

namespace Catalog

variable {n : Nat} {v w : Catalog} {p q : Path} {f : File} {qs : List Path} {ns : List Access}

/-- The rounds of a replacement come to an end where every file can be copied. -/
theorem Evicts.drains_iff (h : v.Evicts n qs ns w) (hd : v.paths.Nodup) {env : List Bool} :
    (∃ all env', v.Drains n env all env') ↔
      (∀ q ∈ qs, ∀ f, v.get q = some f → f.Copyable) ∧ v.Granted qs env := by
  induction h generalizing env with
  | done hfit => exact iff_of_true ⟨true, env, .done hfit⟩ ⟨by simp, trivial⟩
  | @round v _ q qs _ f hover hq hf hr ih =>
    have hd' := (within_expel v q f).nodup hd
    have hget : ∀ p ∈ qs, (v.expel q f).get p = v.get p := by
      intro p hp
      obtain ⟨g, hg⟩ := Option.isSome_iff_exists.mp (hr.found hd' p hp)
      rw [hg, (within_expel v q f).get hd hg]
    have hsize : ∀ p ∈ qs, (v.expel q f).sizeOf p = v.sizeOf p := by
      intro p hp
      rw [sizeOf, sizeOf, hget p hp]
    have hrest : (∀ p ∈ qs, ∀ g, (v.expel q f).get p = some g → g.Copyable) ↔
        ∀ p ∈ qs, ∀ g, v.get p = some g → g.Copyable :=
      forall₂_congr fun p hp => by rw [hget p hp]
    constructor
    · rintro ⟨all, env', hdr⟩
      cases hdr with
      | done hfit => exact absurd hover hfit
      | round _ hq' hf' ha hc hw hdr =>
        obtain rfl := Option.some.inj (hq.symm.trans hq')
        obtain rfl := Option.some.inj (hf.symm.trans hf')
        obtain ⟨hcopy, hgrant⟩ := (ih hd').mp ⟨_, _, hdr⟩
        obtain ⟨hblock, hcontents⟩ := copyBytes_ne_none.mp hc
        refine ⟨fun p hp g hg => ?_, ha, ?_, (Granted.congr hsize).mp hgrant⟩
        · rcases List.mem_cons.mp hp with rfl | hp
          · obtain rfl := Option.some.inj (hf.symm.trans hg)
            exact ⟨hcontents, hw⟩
          · exact hrest.mp hcopy p hp g hg
        · rwa [sizeOf_of_get hf]
    · rintro ⟨hcopy, ha, hblock, hgrant⟩
      rw [sizeOf_of_get hf] at hblock
      have hfirst := hcopy q List.mem_cons_self f hf
      obtain ⟨all, env', hdr⟩ := (ih hd').mpr ⟨hrest.mpr fun p hp =>
        hcopy p (List.mem_cons_of_mem _ hp), (Granted.congr hsize).mpr hgrant⟩
      exact ⟨_, _, .round hover hq hf ha (copyBytes_ne_none.mpr ⟨hblock, hfirst.contents⟩)
        hfirst.waiting hdr⟩

/-- Stored files at the head of the queue, in buckets of their own, leave one after the other. -/
theorem exists_evicts (hd : v.paths.Nodup) (hv : v.currentSize < sizeBound)
    (hq : qs <+: v.queue) (hroom : ¬sizeAdd (v.sizeAfter qs) n > v.maxSize)
    (hfound : ∀ q ∈ qs, (v.get q).isSome = true)
    (hapart : qs.Pairwise fun p q => v.bucket p ≠ v.bucket q) :
    ∃ qs' ns w, qs' <+: qs ∧ v.Evicts n qs' ns w := by
  induction qs generalizing v with
  | nil =>
    rw [sizeAfter_nil hv] at hroom
    exact ⟨[], [], v, List.prefix_rfl, .done hroom⟩
  | cons q qs ih =>
    by_cases hover : sizeAdd v.currentSize n > v.maxSize
    · obtain ⟨f, hf⟩ := Option.isSome_iff_exists.mp (hfound q List.mem_cons_self)
      obtain ⟨hne, hapart⟩ := List.pairwise_cons.mp hapart
      have hfound' : ∀ p ∈ qs, ((v.expel q f).get p).isSome = true := by
        intro p hp
        rw [get_expel hd, if_neg (hne p hp).symm]
        exact hfound p (List.mem_cons_of_mem _ hp)
      obtain ⟨rest, hrest⟩ := hq
      have hhead : v.queue.head? = some q := by rw [← hrest, List.cons_append, List.head?_cons]
      have htail : (v.expel q f).queue = qs ++ rest := by
        change v.queue.tail = _
        rw [← hrest, List.cons_append, List.tail_cons]
      rw [← sizeAfter_expel hd hf hfound'] at hroom
      obtain ⟨qs', ns, w, hp, he⟩ := ih ((within_expel v q f).nodup hd) (sizeSub_lt _ _)
        ⟨rest, htail.symm⟩ hroom hfound' hapart
      exact ⟨q :: qs', _, w, List.cons_prefix_cons.mpr ⟨rfl, hp⟩, .round hover hhead hf he⟩
    · exact ⟨[], [], v, List.nil_prefix, .done hover⟩

end Catalog

/-! ### When a replacement returns -/

section Replace

variable {n : Nat} {env env' : List Bool} {w w' : StorageWorld} {r : Nat × List File}

theorem replaced_of_done (hs : w.state.Sound)
    (hr : (storageFIFOReplace n).run env w = (.done r, w', env')) :
    (∃ all, w.state.catalog.Drains n env all env' ∧ (r.1 = r.2.length ↔ all = true)) ∧
      ∃ qs ns, w'.notes = w.notes ++ ns ∧ w.state.catalog.Evicts n qs ns w'.state.catalog := by
  have hloop : (fifoReplaceLoop n (w.state.fifoQueue.length + 1)).run env
      (w.accessed (fun _ => []) id) = (.done r, w', env') := hr
  obtain ⟨all, hdr, -, hall⟩ := drains_of_done (w := w.accessed (fun _ => []) id) hs hloop
  have hret : (fifoReplaceLoop n (w.state.fifoQueue.length + 1)).returns (fun _ => True)
      (Expelled True n (w.accessed (fun _ => []) id)) (w.accessed (fun _ => []) id) :=
    returns_fifoReplaceLoop hs
  obtain ⟨qs, ns, hns, hev⟩ := (hret.of_run hloop).evicts
  exact ⟨⟨all, hdr, hall⟩, qs, ns, by simpa using hns, hev⟩

theorem run_storageFIFOReplace (hs : w.state.Sound) {all : Bool}
    (hd : w.state.catalog.Drains n env all env') :
    ∃ r w', (storageFIFOReplace n).run env w = (.done r, w', env') := by
  obtain ⟨r, w', hr, -⟩ := run_fifoReplaceLoop (w := w.accessed (fun _ => []) id) hd hs rfl
    (Nat.lt_succ_self w.state.fifoQueue.length)
  exact ⟨r, w', hr⟩

end Replace

/-- The call of `storage_FIFO_replace` for a body of `n` bytes of the file `p` returns with room for
them: no guard wraps, and `p` has not left. -/
def Storage.MakesRoom (s : Storage) (p : Path) (n : Nat) (env : List Bool) : Prop :=
  ∀ w : StorageWorld, w.state = s → ∃ r w' env' ns,
    (storageFIFOReplace n).run env w = (.done r, w', env') ∧ w'.notes = w.notes ++ ns ∧
    .victim p ∉ ns ∧ (∀ old amount, .shrinkSize old amount ∈ ns → old + n < sizeBound) ∧
    w'.state.currentSize + n ≤ w'.state.maxSize

/-- The first paths of the queue can make room for `n` bytes of `p`: they are stored, in buckets of
their own, and can be copied. -/
structure Catalog.Yields (v : Catalog) (p : Path) (n : Nat) (env : List Bool) (qs : List Path) :
    Prop where
  queued : qs <+: v.queue
  room : v.sizeAfter qs + n ≤ v.maxSize
  fits : ∀ k < qs.length, v.sizeAfter (qs.take k) + n < sizeBound
  stored : ∀ q ∈ qs, ∃ f, v.get q = some f ∧ f.Copyable
  apart : qs.Pairwise fun p q => v.bucket p ≠ v.bucket q
  granted : v.Granted qs env
  spared : p ∉ qs

theorem sizeAdd_le (a b : Nat) : sizeAdd a b ≤ a + b := Nat.mod_le _ _

theorem Storage.Sound.makesRoom_iff {s : Storage} (hs : s.Sound) (hfit : s.currentSize < sizeBound)
    (p : Path) (n : Nat) (env : List Bool) :
    s.MakesRoom p n env ↔ ∃ qs, s.catalog.Yields p n env qs := by
  have hd := hs.nodup
  constructor
  · intro h
    obtain ⟨r, w', env', ns, hr, hns, hp, hwrap, hroom⟩ := h (World.init s) rfl
    obtain ⟨⟨all, hdr, -⟩, qs, ns', hns', hev⟩ := replaced_of_done (w := World.init s) hs hr
    obtain rfl : ns = ns' := List.append_cancel_left (hns.symm.trans hns')
    obtain ⟨hcopy, hgrant⟩ := (hev.drains_iff hd).mp ⟨all, env', hdr⟩
    have hcur : w'.state.currentSize = s.catalog.sizeAfter qs := hev.currentSize_eq hd hfit
    have hmax : w'.state.maxSize = s.maxSize := hev.within.maxSize
    refine ⟨qs, ⟨_, hev.queue_eq.symm⟩, ?_, fun k hk => ?_, fun q hq => ?_, hev.apart hd, hgrant,
      fun hm => hp (hev.victim_iff.mpr hm)⟩
    · rw [← hcur]
      exact Nat.le_trans hroom (Nat.le_of_eq hmax)
    · obtain ⟨amount, hm⟩ := (hev.shrinkSize_iff hd hfit _).mpr ⟨k, hk, rfl⟩
      exact hwrap _ amount hm
    · obtain ⟨f, hf⟩ := Option.isSome_iff_exists.mp (hev.found hd q hq)
      exact ⟨f, hf, hcopy q hq f hf⟩
  · rintro ⟨qs, h⟩ w rfl
    obtain ⟨qs', ns, u, hp, hev⟩ := Catalog.exists_evicts hd hfit h.queued
      (Nat.not_lt.mpr (Nat.le_trans (sizeAdd_le _ _) h.room))
      (fun q hq => by obtain ⟨f, hf, -⟩ := h.stored q hq; rw [hf, Option.isSome_some]) h.apart
    obtain ⟨all, env', hdr⟩ := (hev.drains_iff hd).mpr ⟨fun q hq f hf => by
      obtain ⟨g, hg, hcopy⟩ := h.stored q (hp.subset hq)
      exact Option.some.inj (hf.symm.trans hg) ▸ hcopy, h.granted.of_prefix hp⟩
    obtain ⟨r, w', hr⟩ := run_storageFIFOReplace hs hdr
    obtain ⟨-, qs'', ns', hns', hev'⟩ := replaced_of_done hs hr
    obtain rfl : qs' = qs'' := (hev.eq_victims hd).trans (hev'.eq_victims hd).symm
    have htake : ∀ k ≤ qs'.length, qs'.take k = qs.take k := by
      obtain ⟨rest, rfl⟩ := hp
      exact fun k hk => (List.take_append_of_le_length hk).symm
    refine ⟨r, w', env', ns', hr, hns', ?_, ?_, ?_⟩
    · exact fun hm => h.spared (hp.subset (hev'.victim_iff.mp hm))
    · intro old amount hm
      obtain ⟨k, hk, rfl⟩ := (hev'.shrinkSize_iff hd hfit old).mp ⟨amount, hm⟩
      rw [htake k (Nat.le_of_lt hk)]
      exact h.fits k (Nat.lt_of_lt_of_le hk hp.length_le)
    · have hcur : w'.state.currentSize = w.state.catalog.sizeAfter qs' := hev'.currentSize_eq hd hfit
      have hmax : w'.state.maxSize = w.state.maxSize := hev'.within.maxSize
      have hfits : sizeAdd w'.state.currentSize n ≤ w'.state.maxSize := hev'.fits
      rcases Nat.lt_or_eq_of_le hp.length_le with hlt | heq
      · have hwrap := h.fits _ hlt
        rw [← htake _ (Nat.le_refl _), List.take_length, ← hcur] at hwrap
        rwa [sizeAdd_of_lt hwrap] at hfits
      · obtain rfl := hp.eq_of_length heq
        rw [hcur, hmax]
        exact h.room

/-! ### The handler -/

/-- What `write_file_handler` does after `storage_FIFO_replace`. -/
def writeFileExpelled (clientFd : Int) (file : FileId) (body : Bytes) (r : Nat × List File) :
    ServerM (ResponseCode × List File) := do
  if r.1 ≠ r.2.length then do
    unlockReturn
    return (.internalError, r.2)
  else if ← sendResponse clientFd .filesExpelled [] (intBytes r.1) then do
    sendExpelled clientFd r.2
    let status ← writeFileUpdate file body
    return (status, [])
  else do
    unlockReturn
    return (.internalError, r.2)

/-- A request that passes the checks and does not fit beside the stored files gets to the call. -/
theorem run_writeFileHandler_over {clientFd : Nat} {req : Request} {p : Path} {f : File}
    {body : Bytes} {env : List Bool} {w : StorageWorld} (hs : w.state.Sound) (hw : w.held = false)
    (hd : w.state.catalog.deed (.request clientFd req) = .write p f body)
    (ho : sizeAdd w.state.currentSize body.length > w.state.maxSize) :
    ∃ i w1, w.state.get p = some i ∧ w1.state = w.state ∧ w1.sent = w.sent ∧
      (writeFileHandler clientFd req).run env w =
        ((storageFIFOReplace body.length).bind (writeFileExpelled clientFd i body)).run env w1 := by
  have hdue := w.state.catalog.deed_due (.request clientFd req)
  rw [hd] at hdue
  cases hdue with
  | write ht hp hb hg hl hsize hc =>
    obtain ⟨i, hi, rfl⟩ := hs.get_of_catalog hg
    have hpath : req.path = some (some p) := Option.join_eq_some_iff.mp hp
    have hn : w.state.files.nBuckets ≠ 0 := Nat.ne_of_gt (hs.nBuckets_pos hi)
    have hlookup := run_storageGetFile (some p) env w.locked
    rw [World.locked_state, lookup_eq_get hn, hi] at hlookup
    have hfresh : ¬chkFlag (w.state.heap i).flags oCreate = false := by simpa using hc
    have hown : ¬(w.state.heap i).lockedBy ≠ clientFd := not_not.mpr hl
    let w1 := ((((w.locked.accessed (lookupAccesses (some p)) id).accessed
      (fun _ => [Field.lockedBy].map (Access.readField i)) id).accessed (fun _ => []) id).accessed
      (fun _ => [Field.flags].map (Access.readField i)) id).accessed (fun _ => [.readCurrentSize]) id
    refine ⟨i, w1, hi, rfl, rfl, ?_⟩
    unfold writeFileHandler requestPath writeFileFitting
    simp only [hpath, bind_eq, pure_eq]
    rw [run_bind_done (run_ret _ _ _), if_neg hb, run_bind_done (run_lockReturn _ _ hw),
      run_bind_done hlookup]
    refine (run_bind_done (run_load _ _ _ _)).trans ((run_neg hown).trans ?_)
    refine (run_bind_done (run_read _ _ _ _)).trans ((run_neg (Nat.not_lt.mpr hsize)).trans ?_)
    refine (run_bind_done (run_load _ _ _ _)).trans ((run_neg hfresh).trans ?_)
    exact (run_bind_done (run_read _ _ _ _)).trans (run_pos ho)

section Room

variable {s t : Server} {h : List Record}

end Room

end FileStorage
