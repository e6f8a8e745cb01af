import FileStorage.Bookkeeping
import FileStorage.Disposal
import FileStorage.Runs

/-! `storage_remove_file` takes a file out of the table, the queue and the counters. It changes
the counters before it knows whether the path is queued, and with the element of the queue it frees
the record that it still has to find in the table. -/

namespace FileStorage

open Prog

namespace Storage

/-- The file a path leads to. -/
def fileAt (s : Storage) (q : Path) : Option File := (s.get q).map s.heap

variable {s t : Storage} {p : Path} {i : FileId}

theorem Sound.fileAt_eq (hs : s.Sound) (q : Path) : s.fileAt q = s.catalog.get q := by
  cases hg : s.get q with
  | none => rw [fileAt, hg, hs.catalog_get_none hg, Option.map_none]
  | some i => rw [fileAt, hg, hs.catalog_get hg, Option.map_some]

theorem Sound.get_eq_none_iff (hs : s.Sound) : s.get p = none ↔ s.catalog.get p = none :=
  ⟨hs.catalog_get_none, hs.get_none_of_catalog⟩

/-- `t` is `s` without the file of `p`. -/
structure RemovedOnly (s : Storage) (p : Path) (t : Storage) : Prop where
  absent : t.get p = none
  queue : t.fifoQueue = s.fifoQueue.filter fun q => q.path ≠ p
  others : ∀ q ≠ p, t.fileAt q = s.fileAt q
  count : t.noOfFiles = s.noOfFiles - 1
  size : ∀ f, s.fileAt p = some f → t.currentSize + f.size = s.currentSize

structure Untouched (s t : Storage) : Prop where
  files : ∀ q, t.fileAt q = s.fileAt q
  queue : t.fifoQueue = s.fifoQueue
  size : t.currentSize = s.currentSize
  count : t.noOfFiles = s.noOfFiles

/-- `storage_remove_file` removes `p` where it returns 0, changes nothing where it returns -1,
returns 0 if `p` is there, and uses no record that has been released. -/
structure AllOrNothing (s : Storage) (p : Path) : Prop where
  removes : ∀ env (w : StorageWorld) w' env', w.state = s →
    (storageRemoveFile p).run env w = (.done true, w', env') → s.RemovedOnly p w'.state
  keeps : ∀ env (w : StorageWorld) w' env', w.state = s →
    (storageRemoveFile p).run env w = (.done false, w', env') → s.Untouched w'.state
  succeeds : s.get p ≠ none → ∀ env (w : StorageWorld), w.state = s →
    ∃ w' env', (storageRemoveFile p).run env w = (.done true, w', env')
  live : (storageRemoveFile p).guarded Allows (fun _ _ => True) s

/-- The queue has `p` once, but not in the record `i`. `i` shares its bucket with no other file, is
covered by `current_size` and has a list of clients that wait. -/
structure Separate (s : Storage) (p : Path) (i : FileId) : Prop where
  once : (s.fifoQueue.countP fun q => q.path = p) = 1
  unqueued : i ∉ s.queuedFiles
  alone : ∀ q ≠ p, s.files.slot stringHash q = s.files.slot stringHash p → s.get q = none
  covered : (s.heap i).size ≤ s.currentSize
  list : (s.heap i).waitingOnLock ≠ none

/-- `p` is not in the table, or a record of `p` that `hash_map_remove` has dropped with its bucket is
still queued and stands in for the file. -/
def Separable (s : Storage) (p : Path) : Prop := ∀ i, s.get p = some i → s.Separate p i

theorem eraseP_eq_filter_iff {α : Type} (P : α → Bool) (l : List α) (h : ∃ a ∈ l, P a = true) :
    l.eraseP P = l.filter (fun a => !P a) ↔ l.countP P = 1 := by
  induction l with
  | nil => simp at h
  | cons a l ih =>
    cases ha : P a with
    | true =>
      have hall : (∀ b ∈ l, P b = false) ↔ l.countP P = 0 := by simp [List.countP_eq_zero]
      rw [List.eraseP_cons_of_pos ha, List.filter_cons_of_neg (by simp [ha]),
        List.countP_cons_of_pos ha, eq_comm, List.filter_eq_self]
      simp only [Bool.not_eq_true', hall]
      omega
    | false =>
      have hl : ∃ b ∈ l, P b = true := by
        obtain ⟨b, hb, hP⟩ := h
        rcases List.mem_cons.mp hb with rfl | hb
        · simp [ha] at hP
        · exact ⟨b, hb, hP⟩
      rw [List.eraseP_cons_of_neg (by simp [ha]), List.filter_cons_of_pos (by simp [ha]),
        List.countP_cons_of_neg (by simp [ha]), List.cons.injEq, ih hl]
      simp

theorem find?_eq_some_of_countP_eq_one {α : Type} {P : α → Bool} {l : List α} {a : α}
    (h : l.countP P = 1) (hmem : a ∈ l) (ha : P a = true) : l.find? P = some a := by
  rw [List.countP_eq_length_filter] at h
  obtain ⟨b, hb⟩ := List.length_eq_one_iff.mp h
  have hab : a ∈ l.filter P := List.mem_filter.mpr ⟨hmem, ha⟩
  rw [hb, List.mem_singleton] at hab
  rw [← List.head?_filter, hb, List.head?_cons, hab]

theorem queued_isSome_iff : (s.queued p).isSome = true ↔ ∃ q ∈ s.fifoQueue, q.path = p := by
  simp [queued]

theorem unqueue_fifoQueue (hq : (s.queued p).isSome = true) :
    (s.unqueue p).fifoQueue = s.fifoQueue.eraseP fun q => q.path = p := by
  obtain ⟨q, hq⟩ := Option.isSome_iff_exists.mp hq
  rw [unqueue, hq]

theorem removed_fifoQueue (hq : (s.queued p).isSome = true) :
    (s.removed p i).fifoQueue = s.fifoQueue.eraseP fun q => q.path = p := by
  have hu := @unqueue_fifoQueue ((s.addFiles (-1)).shrink (s.heap i).size) p hq
  rw [removed, if_pos hq]
  exact hu

theorem removed_counters : (s.removed p i).noOfFiles = s.noOfFiles - 1 ∧
    (s.removed p i).currentSize = sizeSub s.currentSize (s.heap i).size := by
  unfold removed unqueue
  split <;> split <;> exact ⟨rfl, rfl⟩

theorem sizeSub_add_iff {a b : Nat} (ha : a < sizeBound) : sizeSub a b + b = a ↔ b ≤ a := by
  constructor
  · omega
  · intro h
    rw [sizeSub_of_le ha h]
    omega

/-- The removal of a queued file. -/
theorem Sound.removedOnly_iff (hs : s.Sound) (hfit : s.currentSize < sizeBound)
    (hg : s.get p = some i) (hq : (s.queued p).isSome = true) :
    s.RemovedOnly p (s.removed p i) ↔
      (s.fifoQueue.countP fun q => q.path = p) = 1 ∧
      (∀ q ≠ p, s.files.slot stringHash q = s.files.slot stringHash p → s.get q = none) ∧
      (s.heap i).size ≤ s.currentSize := by
  obtain ⟨hs', hcat⟩ := hs.removed hg
  have hp : p ∈ s.catalog.queue := mem_queue.mpr hq
  have hget : ∀ q, (s.removed p i).fileAt q =
      if s.files.slot stringHash q = s.files.slot stringHash p then none else s.fileAt q := by
    intro q
    rw [hs'.fileAt_eq, hcat, Catalog.discard, if_pos hp, hs.fileAt_eq]
    exact Catalog.get_wipe (v := { s.catalog.discount (s.heap i) with
      queue := s.catalog.queue.erase p }) hs.nodup p q
  have hqueue : (s.removed p i).fifoQueue = (s.fifoQueue.filter fun q => q.path ≠ p) ↔
      (s.fifoQueue.countP fun q => q.path = p) = 1 := by
    obtain ⟨q, hmem, hqp⟩ := queued_isSome_iff.mp hq
    rw [removed_fifoQueue hq, ← eraseP_eq_filter_iff _ _ ⟨q, hmem, by simpa using hqp⟩]
    simp
  obtain ⟨hcount, hsize⟩ := @removed_counters s p i
  have hf : s.fileAt p = some (s.heap i) := by rw [fileAt, hg, Option.map_some]
  constructor
  · intro h
    refine ⟨hqueue.mp h.queue, fun q hne hslot => ?_, ?_⟩
    · have hother := h.others q hne
      rw [hget, if_pos hslot, fileAt] at hother
      simpa using hother.symm
    · have hadd := h.size _ hf
      rw [hsize] at hadd
      exact (sizeSub_add_iff hfit).mp hadd
  · rintro ⟨hone, hbucket, hle⟩
    refine ⟨?_, hqueue.mpr hone, fun q hne => ?_, hcount, fun f hf' => ?_⟩
    · have hself := hget p
      rw [if_pos rfl, fileAt] at hself
      simpa using hself
    · rw [hget]
      split
      · rw [fileAt, hbucket q hne ‹_›, Option.map_none]
      · rfl
    · obtain rfl := Option.some.inj (hf.symm.trans hf')
      rw [hsize]
      exact (sizeSub_add_iff hfit).mpr hle

theorem mem_walked {c : List (HashMapEntry Path FileId)} {e : HashMapEntry Path FileId}
    (h : findEntry p c = some e) : e ∈ walked p c := by
  induction c with
  | nil => cases h
  | cons a c ih =>
    unfold walked
    by_cases ha : a.key = p
    · rw [findEntry, List.find?_cons_of_pos (by simpa using ha)] at h
      rw [if_pos ha, ← Option.some.inj h]
      exact List.mem_singleton_self a
    · rw [findEntry, List.find?_cons_of_neg (by simpa using ha)] at h
      rw [if_neg ha]
      exact List.mem_cons_of_mem a (ih h)

/-- A lookup reads the path of the record that it finds. -/
theorem alive_of_guarded_lookup {R : Option FileId → Storage → Prop} (hg : s.get p = some i)
    (h : (storageGetFile (some p)).guarded Allows R s) : i ∉ s.released := by
  obtain ⟨e, he, rfl⟩ := Option.map_eq_some_iff.mp hg
  have hread : .readField e.value .path ∈ lookupAccesses (some p) s :=
    List.mem_cons_of_mem _ (List.mem_map_of_mem (mem_walked he))
  exact (h.1 _ hread).2 _ rfl

/-- The element of the queue is freed before the path is looked up in the table. -/
theorem ne_of_guarded_removal (hn : s.files.nBuckets ≠ 0) (hg : s.get p = some i) {q : PathPtr}
    (hq : s.queued p = some q)
    (h : (storageRemoveFile p).guarded Allows (fun _ _ => True) s) : q.file ≠ i := by
  let u := (s.addFiles (-1)).shrink (s.heap i).size
  have huq : u.queued p = some q := hq
  have hget : (u.unqueue p).get p = some i := by
    simp only [unqueue, huq]
    exact hg
  have hreleased : (u.unqueue p).released = s.released ++ [q.file] := by
    simp only [unqueue, huq]
    rfl
  have hlookup := (guarded_ite.mp (guarded_bind.mp h).2).2 hn
  simp only [hg, guarded_ret] at hlookup
  -- the two counters, then the queue
  have hqueue := (guarded_bind.mp (guarded_bind.mp (guarded_bind.mp hlookup).2).2).2
  change (if (u.queued p).isSome = true then filesRemove p else ret false).guarded Allows
    (fun _ _ => True) (u.unqueue p) at hqueue
  rw [huq, Option.isSome_some, if_pos rfl] at hqueue
  rintro rfl
  refine alive_of_guarded_lookup hget (guarded_bind.mp hqueue) ?_
  rw [hreleased]
  exact List.mem_append_right _ (List.mem_singleton_self _)

theorem Custody.allOrNothing_iff (hs : s.Custody) (hfit : s.currentSize < sizeBound) (p : Path) :
    s.AllOrNothing p ↔ s.Separable p := by
  have hdone : ∀ env (w : StorageWorld) b w' env', w.state = s →
      (storageRemoveFile p).run env w = (.done b, w', env') →
      (s.get p = none ∧ b = false ∧ w'.state = s) ∨
        ∃ i, s.get p = some i ∧ b = (s.queued p).isSome ∧ w'.state = s.removed p i := by
    rintro env w b w' env' rfl hrun
    have hret : (storageRemoveFile p).returns (fun _ => True) (fun b w' =>
        (w.state.get p = none ∧ b = false ∧ w'.state = w.state) ∨
          ∃ i, w.state.get p = some i ∧ b = (w.state.queued p).isSome ∧
            w'.state = w.state.removed p i) w := by
      refine returns_storageRemoveFile (fun hg _ w' hm => .inl ⟨hg, rfl, hm.state⟩) ?_
      exact fun i hg _ w' hm => .inr ⟨i, hg, rfl, hm.state⟩
    exact hret.of_run hrun
  have hqueued : ∀ i, s.Separate p i → ∃ q, s.queued p = some q := by
    intro i h
    have hpos : 0 < s.fifoQueue.countP fun q => q.path = p := by
      rw [h.once]
      exact Nat.one_pos
    obtain ⟨q, hmem, hqp⟩ := List.countP_pos_iff.mp hpos
    exact Option.isSome_iff_exists.mp (queued_isSome_iff.mpr ⟨q, hmem, by simpa using hqp⟩)
  constructor
  · intro h i hg
    have hn : s.files.nBuckets ≠ 0 := Nat.ne_of_gt (hs.nBuckets_pos hg)
    obtain ⟨w', env', hrun⟩ := h.succeeds (by simp [hg]) [] (World.init s) rfl
    have hremoved := h.removes _ _ _ _ rfl hrun
    rcases hdone _ _ _ _ _ rfl hrun with ⟨hnone, -, -⟩ | ⟨j, hj, hq, hst⟩
    · simp [hg] at hnone
    · obtain rfl : i = j := Option.some.inj (hg.symm.trans hj)
      rw [hst] at hremoved
      obtain ⟨h1, h2, h3⟩ := (hs.removedOnly_iff hfit hg hq.symm).mp hremoved
      refine ⟨h1, fun hi => ?_, h2, h3, fun hw => ?_⟩
      · obtain ⟨q, hmem, rfl⟩ := List.mem_map.mp hi
        have hpath : q.path = p := (hs.named q hmem).symm.trans (hs.get_mem hg).2
        have hfind := find?_eq_some_of_countP_eq_one h1 hmem (by simpa using hpath)
        exact ne_of_guarded_removal hn hg hfind h.live rfl
      have hnot : ¬(World.init s : StorageWorld).state.Removable p := fun hr => hr i hg hq.symm hw
      obtain ⟨w'', hcrash⟩ := @run_storageRemoveFile_crashed p [] (World.init s) hn hnot
      rw [hcrash] at hrun
      simp at hrun
  · intro h
    refine ⟨fun env w w' env' hw hrun => ?_, fun env w w' env' hw hrun => ?_, ?_, ?_⟩
    · rcases hdone _ _ _ _ _ hw hrun with ⟨-, hb, -⟩ | ⟨i, hg, hq, hst⟩
      · cases hb
      · have hsep := h i hg
        rw [hst]
        exact (hs.removedOnly_iff hfit hg hq.symm).mpr ⟨hsep.once, hsep.alone, hsep.covered⟩
    · rcases hdone _ _ _ _ _ hw hrun with ⟨-, -, hst⟩ | ⟨i, hg, hq, -⟩
      · rw [hst]
        exact ⟨fun _ => rfl, rfl, rfl, rfl⟩
      · obtain ⟨q, hq'⟩ := hqueued i (h i hg)
        rw [hq'] at hq
        cases hq
    · rintro hne env w rfl
      obtain ⟨i, hg⟩ := Option.ne_none_iff_exists'.mp hne
      have hn : w.state.files.nBuckets ≠ 0 := Nat.ne_of_gt (hs.nBuckets_pos hg)
      have hsep := h i hg
      obtain ⟨b, w', hrun, -⟩ := @run_storageRemoveFile p env w hn fun j hj _ => by
        obtain rfl := Option.some.inj (hg.symm.trans hj)
        exact hsep.list
      obtain ⟨q, hq⟩ := hqueued i hsep
      rcases hdone _ _ _ _ _ rfl hrun with ⟨hnone, -, -⟩ | ⟨j, -, hb, -⟩
      · simp [hg] at hnone
      · obtain rfl : b = true := by rw [hb, hq]; rfl
        exact ⟨w', env, hrun⟩
    · exact guarded_storageRemoveFile hs (fun i hg => (h i hg).unqueued) fun _ _ _ => trivial

end Storage

/-! ### Over runs -/

namespace Catalog

theorem Evicts.currentSize_lt {n : Nat} {v w : Catalog} {qs : List Path} {ns : List Access}
    (h : v.Evicts n qs ns w) (hv : v.currentSize < sizeBound) : w.currentSize < sizeBound := by
  induction h with
  | done _ => exact hv
  | round _ _ _ _ ih => exact ih (sizeSub_lt _ _)

theorem replaceHead_currentSize_lt {v : Catalog} (hv : v.currentSize < sizeBound) (q : Path) :
    (v.replaceHead q).currentSize < sizeBound := by
  have hdiscard : ∀ (u : Catalog) (f : File), (u.discard q f).currentSize < sizeBound := by
    intro u f
    unfold discard
    split <;> exact sizeSub_lt _ _
  simp only [replaceHead]
  split
  · exact hdiscard _ _
  · exact hv

theorem Effect.currentSize_lt {fail : Prop} {v v' : Catalog} {c : Call} {r : Option Reply}
    {ns : List Access} (h : Effect fail v c r ns v') (hv : v.currentSize < sizeBound) :
    v'.currentSize < sizeBound := by
  have hrel : ∀ {u u' : Catalog}, u.Relabeled u' → u'.currentSize = u.currentSize := by
    rintro u u' ⟨g, -, rfl⟩
    rfl
  have hcr : ∀ {u u' : Catalog} {p : Path}, u.Created p u' → u'.currentSize = u.currentSize := by
    intro u u' p hc
    rw [hc.rest]
  unfold Effect at h
  cases hd : v.deed c with
  | other =>
    rw [hd] at h
    rwa [hrel h.2.1]
  | create p =>
    rw [hd] at h
    rcases h.2 with ⟨w, hc, hw, -⟩ | ⟨-, hr⟩
    · rwa [hrel hw, hcr hc]
    · rwa [hrel hr]
  | replace p q =>
    rw [hd] at h
    rcases h with ⟨w, hc, hw⟩ | ⟨-, hr | hr⟩
    · rw [hrel hw, hcr hc]
      exact replaceHead_currentSize_lt hv q
    · rw [hrel hr]
      exact replaceHead_currentSize_lt hv q
    · rwa [hrel hr]
  | discard p f =>
    rw [hd] at h
    rw [h.2.1, discard]
    split <;> exact sizeSub_lt _ _
  | write p f body =>
    rw [hd] at h
    obtain ⟨w, qs, hev, ⟨hfin, -⟩ | ⟨-, rfl, -⟩⟩ := h
    · rw [hfin.rest]
      exact sizeAdd_lt _ _
    · exact hev.currentSize_lt hv
  | append p f body =>
    rw [hd] at h
    rcases h.2 with ⟨rfl, -⟩ | ⟨-, rfl, -⟩
    · exact sizeAdd_lt _ _
    · exact hv

end Catalog

/-- A request of the given type for `p`. -/
def Call.asks (type : RequestCode) (p : Path) : Call → Prop
  | .request _ req => req.type = type ∧ req.path.join = some p
  | .lockManager => False

namespace Catalog

theorem Within.get_none {u v : Catalog} (h : u.Within v) {p : Path} (hg : v.get p = none) :
    u.get p = none :=
  get_none_of_subset h.stored.subset hg

/-- Only `OPEN_FILE` for a path brings it into the table. -/
theorem Effect.absent {fail : Prop} {v v' : Catalog} {c : Call} {r : Option Reply}
    {ns : List Access} (h : Effect fail v c r ns v') {p : Path} (hg : v.get p = none)
    (hc : ¬c.asks .openFile p) : v'.get p = none := by
  have hrel : ∀ {u u' : Catalog}, u.Relabeled u' → u.get p = none → u'.get p = none :=
    fun hr hu => hr.get_none.mpr hu
  have hcr : ∀ {u u' : Catalog} {q : Path}, u.Created q u' → q ≠ p → u.get p = none →
      u'.get p = none := by
    intro u u' q hc hne hu
    obtain ⟨list, hl⟩ := hc.stored
    rw [get_eq_none_iff] at hu ⊢
    intro hm
    obtain ⟨f, hf, hfp⟩ := List.mem_map.mp hm
    rcases List.mem_cons.mp (hl.mem_iff.mp hf) with rfl | hf
    · exact hne hfp
    · exact hu (List.mem_map.mpr ⟨f, hf, hfp⟩)
  have hput : ∀ {q : Path} {f g : File}, v.get q = some f → g.path = q → (v.put q g).get p = none := by
    intro q f g hf hq
    rw [get_eq_none_iff, put_paths hq]
    exact get_eq_none_iff.mp hg
  have hdue := deed_due v c
  have htarget := @get_of_target v c
  unfold Effect at h
  generalize v.deed c = d at h hdue htarget
  cases d with
  | other => exact hrel h.2.1 hg
  | create q =>
    cases hdue with
    | create ht hp =>
      have hne : q ≠ p := fun he => hc ⟨ht, he ▸ hp⟩
      rcases h.2 with ⟨w, hc, hw, -⟩ | ⟨-, hr⟩
      · exact hrel hw (hcr hc hne hg)
      · exact hrel hr hg
  | replace q victim =>
    cases hdue with
    | replace ht hp =>
      have hne : q ≠ p := fun he => hc ⟨ht, he ▸ hp⟩
      have hw := (within_replaceHead v victim).get_none hg
      rcases h with ⟨w, hc, hr⟩ | ⟨-, hr | hr⟩
      · exact hrel hr (hcr hc hne hw)
      · exact hrel hr hw
      · exact hrel hr hg
  | discard q f =>
    rw [h.2.1]
    exact (within_discard v q f).get_none hg
  | write q f body =>
    have hf : v.get q = some f := htarget rfl
    have hne : q ≠ p := by
      rintro rfl
      simp [hg] at hf
    obtain ⟨w, qs, hev, ⟨hfin, -⟩ | ⟨-, rfl, -⟩⟩ := h
    · have hw := hev.within.get_none hg
      rcases hfin.stored with hs | ⟨-, -, hs⟩
      · rw [get_eq_none_iff] at hw ⊢
        intro hm
        obtain ⟨g, hgm, hgp⟩ := List.mem_map.mp hm
        rcases List.mem_cons.mp (hs.mem_iff.mp hgm) with rfl | hgm
        · exact hne ((get_eq_some hf).2.symm.trans hgp)
        · exact hw (List.mem_map.mpr ⟨g, (List.mem_filter.mp hgm).1, hgp⟩)
      · rw [get_eq_none_iff] at hw ⊢
        rwa [paths, hs]
    · exact hev.within.get_none hg
  | append q f body =>
    have hf : v.get q = some f := htarget rfl
    rcases h.2 with ⟨rfl, -⟩ | ⟨-, rfl, -⟩
    · exact hput hf (get_eq_some hf).2
    · exact hput hf (get_eq_some hf).2

end Catalog

/-- A request for a path that is not in the table. -/
theorem returns_readFile_absent {ok : Bool → Prop} {w : StorageWorld} {req : Request} {p : Path}
    (hp : req.path.join = some p) (hg : w.state.get p = none) :
    (readFileHandler req).returns ok (fun r _ => r = (.notFound, none)) w := by
  simp only [readFileHandler, bind_eq, pure_eq, returns_bind]
  refine returns_requestPath fun path hpath => ?_
  obtain rfl : path = some p := by simpa [hpath] using hp
  refine returns_lockReturn.mpr fun _ => returns_storageGetFile fun _ => ?_
  rw [Storage.find_some, World.locked_state, hg]
  exact returns_ret.mpr rfl

theorem returns_removeFile_absent {ok : Bool → Prop} {w : StorageWorld} {req : Request} {p : Path}
    {fd : Int} (hp : req.path.join = some p) (hg : w.state.get p = none) :
    (removeFileHandler fd req).returns ok (fun r _ => r = .notFound) w := by
  simp only [removeFileHandler, bind_eq, pure_eq, returns_bind]
  refine returns_requestPath fun path hpath => ?_
  obtain rfl : path = some p := by simpa [hpath] using hp
  refine returns_lockReturn.mpr fun _ => returns_storageGetFile fun _ => ?_
  rw [Storage.find_some, World.locked_state, hg]
  exact returns_bind.mpr (returns_unlockReturn.mpr (returns_ret.mpr rfl))

namespace Server

theorem reply_of_absent {t : Server} {x : Step} {r : Option Reply} {w : StorageWorld} {p : Path}
    (he : t.exec x = some (r, w)) (hg : t.storage.get p = none)
    (hx : x.call.asks .readFile p ∨ x.call.asks .removeFile p) : r = some ⟨.notFound, []⟩ := by
  refine exec_returns (R := fun r _ => r = some ⟨.notFound, []⟩) ?_ he
  cases hcall : x.call with
  | lockManager => simp [hcall, Call.asks] at hx
  | request fd req =>
    simp only [hcall, Call.asks] at hx
    simp only [Call.prog, handle, bind_eq, pure_eq, returns_bind, returns_ret]
    rcases hx with ⟨ht, hp⟩ | ⟨ht, hp⟩
    · rw [ht]
      refine returns_bind.mpr ((returns_readFile_absent hp hg).mono ?_)
      rintro _ _ rfl
      exact returns_ret.mpr rfl
    · rw [ht]
      refine returns_bind.mpr ((returns_removeFile_absent hp hg).mono ?_)
      rintro _ _ rfl
      exact returns_ret.mpr rfl

/-- A `REMOVE_FILE` that is answered SUCCESS removes a queued path. -/
theorem removed_of_success {t : Server} {x : Step} {w : StorageWorld} {p : Path}
    (hs : t.storage.Sound) (he : t.exec x = some (some ⟨.success, []⟩, w))
    (hx : x.call.asks .removeFile p) (hq : t.storage.Separable p) : w.state.get p = none := by
  obtain ⟨hs', heff⟩ := exec_done hs he
  have hdue := Catalog.deed_due t.storage.catalog x.call
  have htarget := @Catalog.get_of_target t.storage.catalog x.call
  have htype : x.call.type = some .removeFile := by
    cases hcall : x.call with
    | lockManager => simp [hcall, Call.asks] at hx
    | request fd req => simp [Call.type, (hcall ▸ hx : Call.asks _ _ (.request fd req)).1]
  have hacc : x.call.Accepted (some ⟨.success, []⟩) := ⟨.inr (.inr htype), rfl⟩
  unfold Effect at heff
  generalize x.call = c at hx heff hdue htarget htype hacc
  generalize t.storage.catalog.deed c = d at heff hdue htarget
  cases d with
  | other => exact absurd hacc heff.2.2
  | create q => cases hdue; simp_all [Call.type]
  | replace q victim => cases hdue; simp_all [Call.type]
  | write q f body => cases hdue; simp_all [Call.type]
  | append q f body => cases hdue; simp_all [Call.type]
  | discard q f =>
    obtain rfl : q = p := by
      cases hdue with
      | refuse _ hp => exact Option.some.inj (hp.symm.trans hx.2)
      | remove _ hp => exact Option.some.inj (hp.symm.trans hx.2)
    obtain ⟨i, hg, rfl⟩ := hs.get_of_catalog (htarget rfl)
    have hpos : 0 < t.storage.fifoQueue.countP fun y => y.path = q := by
      rw [(hq i hg).once]
      exact Nat.one_pos
    obtain ⟨y, hmem, hy⟩ := List.countP_pos_iff.mp hpos
    have hin : q ∈ t.storage.catalog.queue :=
      Storage.mem_queue.mpr (Storage.queued_isSome_iff.mpr ⟨y, hmem, by simpa using hy⟩)
    rw [hs'.get_eq_none_iff, heff.2.1, Catalog.discard, if_pos hin]
    have hw := Catalog.get_wipe (v := { t.storage.catalog.discount (t.storage.heap i) with
      queue := t.storage.catalog.queue.erase q }) hs.nodup q q
    rwa [if_pos rfl] at hw

end Server

/-- A call that brings `p` into the table. -/
def Record.Creates (p : Path) (y : Record) : Prop :=
  y.step.call.asks .openFile p ∧ (y.world.state.get p).isSome = true

/-- After a `REMOVE_FILE` for `p` with the answer SUCCESS, every `READ_FILE` and `REMOVE_FILE` for
`p` is answered NOT_FOUND until `p` is created again, whatever is asked meanwhile. -/
def Server.Forgets (t : Server) (p : Path) : Prop :=
  ∀ x w, x.call.asks .removeFile p → t.exec x = some (some ⟨.success, []⟩, w) →
    ∀ h u, Run Faultless (.ofWorld w) h u → (∀ y ∈ h, ¬y.Creates p) →
      ∀ y ∈ h, y.step.call.asks .readFile p ∨ y.step.call.asks .removeFile p →
        y.reply = some ⟨.notFound, []⟩

theorem Run.forgets {C : Server → Step → Prop} {s t : Server} {h : List Record} {p : Path}
    (hs : s.storage.Sound) (hg : s.storage.get p = none) (hr : Run C s h t)
    (hc : ∀ y ∈ h, ¬y.Creates p) :
    ∀ y ∈ h, y.step.call.asks .readFile p ∨ y.step.call.asks .removeFile p →
      y.reply = some ⟨.notFound, []⟩ := by
  have hinv : t.storage.Sound ∧ ((∀ y ∈ h, ¬y.Creates p) → t.storage.get p = none ∧
      ∀ y ∈ h, y.step.call.asks .readFile p ∨ y.step.call.asks .removeFile p →
        y.reply = some ⟨.notFound, []⟩) := by
    refine Run.invariant (I := fun h t => t.storage.Sound ∧ ((∀ y ∈ h, ¬y.Creates p) →
      t.storage.get p = none ∧ ∀ y ∈ h, y.step.call.asks .readFile p ∨
        y.step.call.asks .removeFile p → y.reply = some ⟨.notFound, []⟩))
      ⟨hs, fun _ => ⟨hg, by simp⟩⟩ ?_ hr
    rintro h t x r w ⟨hs, ih⟩ - he
    obtain ⟨hs', heff⟩ := Server.exec_done hs he
    refine ⟨hs', fun hc => ?_⟩
    obtain ⟨hg, hreply⟩ := ih fun y hy => hc y (List.mem_append_left _ hy)
    have hlast : ¬Record.Creates p ⟨x, r, w⟩ := hc _ (by simp)
    refine ⟨?_, fun y hy hask => ?_⟩
    · by_cases hopen : x.call.asks .openFile p
      · have hnot : ¬(w.state.get p).isSome = true := fun hsome => hlast ⟨hopen, hsome⟩
        show w.state.get p = none
        simpa using hnot
      · exact hs'.get_none_of_catalog (Catalog.Effect.absent heff (hs.catalog_get_none hg) hopen)
    · rcases List.mem_append.mp hy with hy | hy
      · exact hreply y hy hask
      · obtain rfl := List.mem_singleton.mp hy
        exact Server.reply_of_absent he hg hask
  exact (hinv.2 hc).2

theorem Server.Initial.reachable_fits {C : Server → Step → Prop} {s t : Server} {h : List Record}
    (hi : s.Initial) (hr : Run C s h t) : t.storage.currentSize < sizeBound := by
  have hinv : t.storage.Sound ∧ t.storage.currentSize < sizeBound := by
    refine Run.invariant (I := fun _ t => t.storage.Sound ∧ t.storage.currentSize < sizeBound)
      ⟨hi.sound, ?_⟩ ?_ hr
    · obtain ⟨_, _, _, -, -, hcat⟩ := hi.catalog
      have hzero : s.storage.currentSize = 0 := congrArg Catalog.currentSize hcat
      rw [hzero]
      exact Nat.two_pow_pos 64
    · rintro _ t x r w ⟨hs, hfit⟩ - he
      obtain ⟨hs', heff⟩ := Server.exec_done hs he
      exact ⟨hs', Catalog.Effect.currentSize_lt heff hfit⟩
  exact hinv.2

/-- In every state reached, `storage_remove_file` is all or nothing for the paths that can be
separated from the others, and for no other path. -/
theorem storageRemoveFile_allOrNothing_iff {s t : Server} {h : List Record} (hi : s.Initial)
    (hr : Run Server.Faultless s h t) (p : Path) :
    t.storage.AllOrNothing p ∧ t.Forgets p ↔ t.storage.Separable p := by
  have hs := Server.custody_of_faultless (fun _ _ => id) hi hr
  rw [hs.allOrNothing_iff (hi.reachable_fits hr) p, and_iff_left_iff_imp]
  intro hsep x w hx he h' u hr' hc
  have hs' := (Server.exec_done hs.toSound he).1
  exact Run.forgets hs' (Server.removed_of_success hs.toSound he hx hsep) hr' hc

theorem storageRemoveFile_allOrNothing_absent : ∃ s h t, s.Initial ∧ Run Server.Faultless s h t ∧
    h.map Record.step = [.openFile 5 (slash 'a') 6, .writeFile 5 (slash 'a') [1, 2]] ∧
    ¬t.storage.Separable (slash 'a') ∧
    t.storage.AllOrNothing (slash 'b') ∧ t.Forgets (slash 'b') := by
  obtain ⟨s, h, t, hi, hr, hx, hp⟩ := Server.exists_run Server.Faultless 100 4
    [.openFile 5 (slash 'a') 6, .writeFile 5 (slash 'a') [1, 2]]
    (fun _ _ t => decide (t.storage.get (slash 'a') = some 0 ∧ t.storage.get (slash 'b') = none ∧
      0 ∈ t.storage.queuedFiles))
    (by decide) (by decide)
  obtain ⟨ha, hb, hqueued⟩ := of_decide_eq_true hp
  refine ⟨s, h, t, hi, hr, hx, fun hsep => (hsep 0 ha).unqueued hqueued, ?_⟩
  refine (storageRemoveFile_allOrNothing_iff hi hr _).mpr fun i hg => ?_
  simp [hb] at hg

/-- A file that was never written is not in the queue. -/
theorem not_storageRemoveFile_allOrNothing :
    ¬∀ (s t : Server) (h : List Record), s.Initial → Run Server.Faultless s h t →
      ∀ p, t.storage.AllOrNothing p ∧ t.Forgets p := by
  intro hall
  obtain ⟨s, h, t, hi, hr, -, hp⟩ := Server.exists_run Server.Faultless 100 4
    [.openFile 5 (slash 'a') 6]
    (fun _ _ t => decide (t.storage.get (slash 'a') = some 0 ∧ t.storage.fifoQueue = []))
    (by decide) (by decide)
  obtain ⟨hg, hqueue⟩ := of_decide_eq_true hp
  have hs := Server.custody_of_faultless (fun _ _ => id) hi hr
  have hone := ((hs.allOrNothing_iff (hi.reachable_fits hr) _).mp
    (hall s t h hi hr (slash 'a')).1 0 hg).once
  simp [hqueue] at hone

end FileStorage
