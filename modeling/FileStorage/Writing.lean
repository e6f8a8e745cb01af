import FileStorage.Opening

/-! The handlers that write, append and remove. -/

namespace FileStorage

open Prog

namespace Catalog

variable {v : Catalog} {clientFd : Nat} {req : Request}

theorem deed_write (ht : req.type = .writeFile) {p : Path} (hp : req.path = some (some p)) :
    v.deed (.request clientFd req) = v.deedWrite clientFd p req.body := by
  simp [deed, hp, ht]

theorem deed_append (ht : req.type = .appendToFile) {p : Path} (hp : req.path = some (some p)) :
    v.deed (.request clientFd req) = v.deedAppend clientFd p req.body := by
  simp [deed, hp, ht]

theorem deed_remove (ht : req.type = .removeFile) {p : Path} (hp : req.path = some (some p)) :
    v.deed (.request clientFd req) = v.deedRemove clientFd p := by
  simp [deed, hp, ht]

/-- Only an open has something to do for a path that is not stored. -/
theorem deed_absent (ht : req.type ≠ .openFile)
    (hn : ∀ p, req.path = some (some p) → v.get p = none) :
    v.deed (.request clientFd req) = .other := by
  cases hp : req.path.join with
  | none => simp [deed, hp]
  | some p =>
    have hg := hn p (Option.join_eq_some_iff.mp hp)
    simp only [deed, hp]
    split
    · contradiction
    all_goals simp [deedWrite, deedAppend, deedRemove, hg]

end Catalog

theorem Storage.Sound.deed_absent {s : Storage} (hs : s.Sound) {clientFd : Nat} {req : Request}
    (ht : req.type ≠ .openFile) {path : Option Path} (hp : req.path = some path)
    (hg : s.find path = none) : s.catalog.deed (.request clientFd req) = .other := by
  refine Catalog.deed_absent ht fun p hp' => hs.catalog_get_none ?_
  obtain rfl : path = some p := by simpa [hp] using hp'
  exact hg

/-- The call has run `storage_remove_file` on a stored path. -/
theorem Settled.discard {fail : Prop} {c : Call} {w w' : StorageWorld} {r : Option Reply} {p : Path}
    {i : FileId} (hs : w.state.Sound) (hi : w.state.get p = some i)
    (hd : w.state.catalog.deed c = .discard p (w.state.heap i))
    (hst : w'.state = w.state.removed p i)
    (hn : w'.notes = w.notes ++ [.shrinkSize w.state.currentSize (w.state.heap i).size])
    (hr : r = some ⟨if c.type = some .removeFile then .success else .fileTooBig, []⟩) :
    Settled fail c w r w' := by
  have hrem := hs.removed hi
  refine .of_done ⟨hst ▸ hrem.1, _, hn, ?_⟩ (by simp [hd, Deed.target])
  simp only [Effect, hd]
  exact ⟨rfl, hst ▸ hrem.2, hr⟩

section Handlers

variable {ok : Bool → Prop} {w : StorageWorld}

theorem returns_removeFileHandler {clientFd : Nat} {req : Request} (hs : w.state.Sound)
    (ht : req.type = .removeFile) :
    (removeFileHandler clientFd req).returns ok (fun status w' =>
      Settled (ok false) (.request clientFd req) w (some ⟨status, []⟩) w') w := by
  simp only [removeFileHandler, bind_eq, pure_eq, returns_bind, returns_lockReturn]
  refine returns_requestPath fun path hp _ => returns_storageGetFile fun _ => ?_
  rw [World.locked_state]
  cases hg : w.state.find path with
  | none =>
    simp only [returns_bind, returns_unlockReturn, returns_ret]
    refine .still (.of_state hs rfl (by simp)) ?_ (by simp [Call.Accepted]) (by simp [ht])
    exact hs.deed_absent (by simp [ht]) hp hg
  | some i =>
    obtain ⟨p, rfl, hi⟩ := Storage.find_eq_some hg
    have hd : w.state.catalog.deed (.request clientFd req) =
        if chkFlag (w.state.heap i).flags oLock = false ∨ (w.state.heap i).lockedBy ≠ clientFd
        then .other else .discard p (w.state.heap i) := by
      rw [Catalog.deed_remove ht hp, Catalog.deedRemove, hs.catalog_get hi]
    simp only [returns_bind, returns_load, returns_ite, returns_unlockReturn, returns_ret]
    refine ⟨fun hc => ?_, fun hc => ?_⟩
    · exact .still (.of_state hs rfl (by simp)) (hd.trans (if_pos hc)) (by simp [Call.Accepted]) (by simp [ht])
    · refine returns_storageRemoveFile (fun h => absurd (hi.symm.trans h) (Option.some_ne_none i))
        fun j hj _ w1 h1 => ?_
      obtain rfl : i = j := Option.some.inj (hi.symm.trans hj)
      exact .discard hs hi (hd.trans (if_neg hc)) h1.state (by simp [h1.notes, List.filterMap_cons])
        (by simp [Call.type, ht])

theorem returns_appendToFileHandler {clientFd : Nat} {req : Request} (hs : w.state.Sound)
    (ht : req.type = .appendToFile) :
    (appendToFileHandler clientFd req).returns ok (fun status w' =>
      Settled (ok false) (.request clientFd req) w (some ⟨status, []⟩) w') w := by
  simp only [appendToFileHandler, bind_eq, pure_eq, returns_bind]
  refine returns_requestPath fun path hp => ?_
  have hother : (∀ p, path = some p → w.state.catalog.deedAppend clientFd p req.body = .other) →
      w.state.catalog.deed (.request clientFd req) = .other := by
    intro h
    cases path with
    | none => simp [Catalog.deed, hp]
    | some p => exact (Catalog.deed_append ht hp).trans (h p rfl)
  simp only [returns_ite, returns_bind, returns_read, returns_ret, returns_lockReturn, id]
  refine ⟨fun hb => ?_, fun hb => ⟨fun hl => ?_, fun hl _ => ?_⟩⟩
  · refine .still (.of_state hs rfl rfl) (hother fun p _ => ?_) (by simp [Call.Accepted]) (by simp [ht])
    cases hg : w.state.catalog.get p <;> simp [Catalog.deedAppend, hg, hb]
  · refine .still (.of_state hs rfl (by simp)) (hother fun p _ => ?_) (by simp [Call.Accepted]) (by simp [ht])
    have hl' : w.state.catalog.maxSize < req.body.length := hl
    cases hg : w.state.catalog.get p <;> simp [Catalog.deedAppend, hg, hl']
  · refine returns_storageGetFile fun _ => ?_
    rw [World.locked_state, World.accessed_state, id]
    cases hg : w.state.find path with
    | none =>
      simp only [returns_bind, returns_unlockReturn, returns_ret]
      refine .still (.of_state hs rfl (by simp)) ?_ (by simp [Call.Accepted]) (by simp [ht])
      exact hs.deed_absent (by simp [ht]) hp hg
    | some i =>
      obtain ⟨p, rfl, hi⟩ := Storage.find_eq_some hg
      have hd : w.state.catalog.deed (.request clientFd req) =
          if req.body = [] ∨ req.body.length > w.state.maxSize ∨ (w.state.heap i).lockedBy ≠ clientFd
          then .other else .append p (w.state.heap i) req.body := by
        rw [Catalog.deed_append ht hp, Catalog.deedAppend, hs.catalog_get hi]
        rfl
      simp only [returns_bind, returns_load, returns_ite, returns_store, returns_unlockReturn,
        returns_ret, returns_alloc]
      refine ⟨fun hc => ?_, fun hc b hb' => ?_⟩
      · refine .still (.of_state hs rfl (by simp)) (hd.trans (if_pos (.inr (.inr hc)))) ?_
          (by simp [ht])
        simp [Call.Accepted]
      · have hc' : ¬(req.body = [] ∨ req.body.length > w.state.maxSize ∨
            (w.state.heap i).lockedBy ≠ clientFd) := by
          rintro (h | h | h)
          · exact hb h
          · exact hl h
          · exact hc h
        have htarget : (w.state.catalog.deed (.request clientFd req)).target ≠ none := by
          rw [hd, if_neg hc']
          simp [Deed.target]
        refine ⟨fun _ => ?_, fun hbf => ?_⟩
        · refine returns_storageUpdateFile (f := (w.state.heap i).appended req.body) hs hi
            (hs.get_mem hi).2 (by simp [Storage.setFile_setFile, File.appended])
            fun w1 h1 h2 h3 => ?_
          simp only [growBy, returns_modify]
          refine .of_done ⟨h1.of_eq rfl rfl rfl, [], by simp [h3, List.filterMap_cons], ?_⟩ htarget
          simp only [Effect, hd.trans (if_neg hc')]
          refine ⟨trivial, .inl ⟨?_, trivial⟩⟩
          change { w1.state.catalog with
            currentSize := sizeAdd w1.state.catalog.currentSize req.body.length } = _
          rw [h2]
          rfl
        · have hf : b = false := by simpa using hbf
          have hpath : ({ w.state.heap i with contents := none } : File).path =
            (w.state.heap i).path := rfl
          refine .of_done ⟨hs.setFile hpath, [], by simp, ?_⟩ htarget
          simp only [Effect, hd.trans (if_neg hc')]
          exact ⟨trivial, .inr ⟨hf ▸ hb', hs.catalog_setFile hi, trivial⟩⟩

end Handlers

/-! ### Making room -/

/-- `storage_FIFO_replace` leads from `w` to `w'`; `r` is its result with the list of copies. -/
structure Expelled (fail : Prop) (n : Nat) (w : StorageWorld) (r : Nat × List File)
    (w' : StorageWorld) : Prop where
  sound : w'.state.Sound
  heap : w'.state.heap = w.state.heap
  next : w'.state.next = w.state.next
  get : ∀ q i, w'.state.get q = some i → w.state.get q = some i
  evicts : ∃ qs ns, w'.notes = w.notes ++ ns ∧ w.state.catalog.Evicts n qs ns w'.state.catalog
  copies : r.1 ≠ r.2.length → fail

section Evict

variable {ok : Bool → Prop} {w : StorageWorld}

/-- One round: the file `i` of the path `q` at the head of the queue is taken out. -/
theorem Storage.Sound.expel {s : Storage} (hs : s.Sound) {q : PathPtr} {i : FileId}
    (hg : s.get q.path = some i) :
    let t := ((((s.dequeue).shrink (s.heap i).size).addFiles (-1)).eraseFile q.path).release i
    t.Sound ∧ t.catalog = s.catalog.expel q.path (s.heap i) ∧
      ∀ p j, t.get p = some j → s.get p = some j := by
  have h1 : (((s.dequeue).shrink (s.heap i).size).addFiles (-1)).Sound := hs.of_eq rfl rfl rfl
  have hn : 0 < (((s.dequeue).shrink (s.heap i).size).addFiles (-1)).files.nBuckets :=
    hs.nBuckets_pos hg
  refine ⟨(h1.eraseFile hn q.path).of_eq rfl rfl rfl, ?_, fun p j h => h1.get_eraseFile hn h⟩
  have hc := h1.catalog_eraseFile hn q.path
  have hq : (((s.dequeue).shrink (s.heap i).size).addFiles (-1)).catalog =
      { s.catalog.discount (s.heap i) with queue := s.catalog.queue.tail } := by
    simp [Storage.catalog, Storage.dequeue, Storage.shrink, Storage.addFiles, Catalog.discount,
      Storage.stored, Int.sub_eq_add_neg]
  rw [hq] at hc
  exact hc

theorem returns_fifoReplaceLoop {n fuel : Nat} (hs : w.state.Sound) :
    (fifoReplaceLoop n fuel).returns ok (Expelled (ok false) n w) w := by
  induction fuel generalizing w with
  | zero => exact returns_crash
  | succ fuel ih =>
    simp only [fifoReplaceLoop, bind_eq, pure_eq, returns_bind, returns_read, returns_ite,
      returns_ret, id]
    refine ⟨fun hover => ?_, fun hfit => ?_⟩
    · refine returns_queueRemoveHead (fun _ w1 _ => ?_) fun q hq w1 h1 => ?_
      · exact returns_storageGetFile fun _ => returns_crash
      · have hst1 : w1.state = w.state.dequeue := h1.state
        refine returns_storageGetFile fun _ => ?_
        rw [Option.map_some, Storage.find_some]
        cases hg : w1.state.get q.path with
        | none => exact returns_crash
        | some i =>
          have hg0 : w.state.get q.path = some i := by rw [← hg, hst1]; rfl
          simp only [returns_bind, returns_alloc, returns_ite, returns_load]
          refine fun b _ => ⟨fun _ c _ => ?_, fun _ => returns_crash⟩
          split
          · exact returns_crash
          · simp only [shrinkBy, dropCount, returns_bind, returns_modify]
            have hp : (w.state.heap i).path = q.path := (hs.get_mem hg0).2
            obtain ⟨he1, he2, he3⟩ := hs.expel hg0
            have hget : w1.state.get (w1.state.heap i).path = some i := by
              rw [hst1]
              exact hp ▸ hg0
            refine returns_filesRemove (fun h => absurd (hget.symm.trans h) (Option.some_ne_none i))
              fun j hj _ w2 h2 => ?_
            obtain rfl : i = j := Option.some.inj (hget.symm.trans hj)
            have hst2 : w2.state = ((((w.state.dequeue).shrink (w.state.heap i).size).addFiles
                (-1)).eraseFile q.path).release i := by
              rw [h2.state, ← hp]
              simp only [World.accessed_state, id, hst1]
              rfl
            have hn2 : w2.notes = w.notes ++
                [.victim q.path, .shrinkSize w.state.currentSize (w.state.heap i).size] := by
              rw [h2.notes]
              simp [h1.notes, hst1, List.filterMap_cons, Storage.dequeue]
            rw [returns_alloc]
            intro linked hlinked
            refine (ih (hst2 ▸ he1)).mono fun r w3 h3 => returns_ret.mpr ?_
            obtain ⟨qs, ns, hn3, hev⟩ := h3.evicts
            rw [hst2, he2] at hev
            refine ⟨h3.sound, ?_, ?_, ?_, ⟨q.path :: qs, _, ?_, .round hover ?_ (hs.catalog_get hg0) hev⟩, ?_⟩
            · rw [h3.heap, hst2]
              rfl
            · rw [h3.next, hst2]
              rfl
            · intro p j h
              exact he3 p j (hst2 ▸ h3.get p j h)
            · rw [hn3, hn2, List.append_assoc]
              rfl
            · have hq' : w.state.fifoQueue.head? = some q := hq
              simp [Storage.catalog, hq']
            · intro hne
              cases linked with
              | false => exact hlinked
              | true => exact h3.copies (by simpa using hne)
    · refine ⟨hs, rfl, rfl, fun _ _ h => h, ⟨[], [], by simp, .done hfit⟩, by simp⟩

end Evict

/-! ### Writing -/

namespace Catalog

theorem map_putFile_perm {p : Path} {f g : File} {l : List File} (hd : (l.map File.path).Nodup)
    (hf : f ∈ l) (hp : f.path = p) :
    (l.map (putFile p g)).Perm (g :: l.filter fun f => f.path ≠ p) := by
  induction l with
  | nil => simp at hf
  | cons a l ih =>
    simp only [List.map_cons, List.nodup_cons, List.mem_map, not_exists, not_and] at hd
    by_cases ha : a.path = p
    · have hne : ∀ b ∈ l, b.path ≠ p := fun b hb h => hd.1 b hb (h.trans ha.symm)
      have hfl : l.filter (fun f => decide (f.path ≠ p)) = l :=
        List.filter_eq_self.mpr (by simpa using hne)
      rw [List.map_cons, map_putFile_of_ne hne, List.filter_cons_of_neg (by simpa using ha), hfl,
        putFile, if_pos ha]
    · have hfl : f ∈ l := by
        rcases List.mem_cons.mp hf with rfl | h
        · exact absurd hp ha
        · exact h
      have hperm := (ih hd.2 hfl).cons a
      simpa [putFile, ha] using hperm.trans (List.Perm.swap g a _)

theorem filter_ne_of_absent {v : Catalog} {p : Path} (h : v.get p = none) :
    v.stored.filter (fun f => f.path ≠ p) = v.stored := by
  have hp := get_eq_none_iff.mp h
  refine List.filter_eq_self.mpr fun f hf => decide_eq_true fun he => hp ?_
  exact he ▸ List.mem_map_of_mem hf

end Catalog

/-- A record that no entry leads to can be changed freely. -/
theorem Storage.Sound.catalog_setFile_absent {s : Storage} (hs : s.Sound) {p : Path} {i : FileId}
    {f : File} (hg : s.get p = none) (hp : (s.heap i).path = p) :
    (s.setFile i f).catalog = s.catalog := by
  have he : (s.setFile i f).stored = s.stored := by
    refine List.map_congr_left fun e he => ?_
    have hne : e.value ≠ i := by
      rintro rfl
      exact hs.placed.get_eq_none_iff.mp hg e he ((hs.keyed e he).symm.trans hp)
    simp [Storage.setFile, hne]
  simp only [Storage.catalog, he]
  rfl

section Write

variable {ok : Bool → Prop} {w : StorageWorld}

theorem returns_queueInsertTail {i : FileId} {R : Bool → StorageWorld → Prop}
    (ht : ∀ w', w.Moved w' (w.state.enqueue ⟨(w.state.heap i).path, i⟩) [] → R true w')
    (hf : ok false → ∀ w', w.Moved w' w.state [] → R false w') :
    (queueInsertTail i).returns ok R w := by
  simp only [queueInsertTail, bind_eq, pure_eq, returns_bind, returns_load, returns_alloc,
    returns_ite, returns_modify, returns_ret]
  refine fun b hb => ⟨fun _ => ht _ ⟨rfl, rfl, by simp⟩, fun h => ?_⟩
  exact hf (by simpa [h] using hb) _ ⟨rfl, rfl, by simp⟩

/-- Storing the record `i` of the path `p`, changed to `g`, when its entry may be gone. -/
theorem returns_storageUpdateFile_any {s : Storage} {p : Path} {i : FileId} {g : File}
    (hs : s.Sound) (hi : i < s.next) (hp : (s.heap i).path = p) (hg : g.path = p)
    (hget : s.get p = some i ∨ s.get p = none) (hw : w.state = s.setFile i g)
    {R : Bool → StorageWorld → Prop}
    (ht : ∀ w' b, w'.state.Sound → w'.notes = w.notes → w'.state.heap i = g →
      w'.state.catalog = { s.catalog with stored := w'.state.stored } →
      (w'.state.stored.Perm (g :: s.stored.filter fun f => f.path ≠ p) ∨
        ok false ∧ p ∉ s.catalog.paths ∧ w'.state.stored = s.stored) → R b w') :
    (storageUpdateFile i).returns ok R w := by
  have hh : w.state.heap i = g := by rw [hw, Storage.setFile_heap_self]
  have hs1 : w.state.Sound := hw ▸ hs.setFile (hg.trans hp.symm)
  have hcat : w.state.catalog = { s.catalog with stored := w.state.stored } := by
    rw [hw]
    rfl
  rcases hget with hget | hget
  · have hget1 : w.state.get p = some i := by rw [hw, ← hget]; rfl
    refine returns_filesInsert_self (by rw [hh, hg, hget1]) fun w' hm => ?_
    rw [hh, hg] at hm
    have hn := hs1.nBuckets_pos hget1
    have hself := hs1.catalog_insertFile_self hn hget1
    obtain ⟨hmem, hmp⟩ := hs.get_mem hget
    refine ht w' true (hm.state ▸ hs1.insertFile hn (hh ▸ hg) (hs1.lt_next hget1))
      (by rw [hm.notes, List.append_nil]) (by rw [hm.state]; exact hh) ?_ (.inl ?_)
    · rw [hm.state]
      rw [hw]
      rfl
    · have hst : w'.state.stored = (s.catalog.put p g).stored := by
        rw [hm.state, ← hs.catalog_setFile hget, ← hw]
        exact congrArg Catalog.stored hself
      rw [hst]
      exact Catalog.map_putFile_perm hs.nodup hmem hmp
  · have hget1 : w.state.get p = none := by rw [hw, ← hget]; rfl
    have hst : w.state.stored = s.stored := by
      rw [hw]
      exact congrArg Catalog.stored (hs.catalog_setFile_absent hget hp)
    have hfl : s.stored.filter (fun f => decide (f.path ≠ p)) = s.stored :=
      Catalog.filter_ne_of_absent (hs.catalog_get_none hget)
    refine returns_filesInsert_new (by rw [hh, hg, hget1]) (fun hn _ w' hm => ?_) fun hn hb w' hm => ?_
    · rw [hh, hg] at hm
      have hn := Nat.pos_of_ne_zero hn
      have hi1 : i < w.state.next := by rw [hw]; exact hi
      refine ht w' true (hm.state ▸ hs1.insertFile hn (hh ▸ hg) hi1)
        (by rw [hm.notes, List.append_nil]) (by rw [hm.state]; exact hh) ?_ (.inl ?_)
      · rw [hm.state]
        rw [hw]
        rfl
      · have hperm := hs1.catalog_insertFile_new (i := i) hn hget1
        rw [hh, hst] at hperm
        rw [hm.state, hfl]
        exact hperm
    · refine ht w' false (hm.state ▸ hs1) (by rw [hm.notes, List.append_nil])
        (by rw [hm.state]; exact hh) ?_ (.inr ⟨hb, ?_, by rw [hm.state, hst]⟩)
      · rw [hm.state]
        exact hcat
      · exact Catalog.get_eq_none_iff.mp (hs.catalog_get_none hget)

theorem returns_writeFileUpdate {p : Path} {i : FileId} {f : File} {body : Bytes}
    (hs : w.state.Sound) (hi : i < w.state.next) (hf : w.state.heap i = f) (hp : f.path = p)
    (hget : w.state.get p = some i ∨ w.state.get p = none) :
    (writeFileUpdate i body).returns ok (fun status w' => status = .success ∧ w'.state.Sound ∧
      w'.notes = w.notes ∧
      w.state.catalog.Finished (ok false) p (f.wrote body) w'.state.catalog) w := by
  simp only [writeFileUpdate, bind_eq, pure_eq, returns_bind, returns_store, returns_alloc,
    returns_ite]
  refine fun b _ => ⟨fun _ => ?_, fun _ => returns_crash⟩
  refine returns_storageUpdateFile_any (g := f.wrote body) hs hi (hf ▸ hp) hp hget
    (by simp [Storage.setFile_setFile, hf, File.wrote]) fun w1 _ h1 hn1 hh1 hc1 hst1 => ?_
  have hfin : ∀ w2 : StorageWorld, w2.state.Sound → w2.notes = w1.notes →
      (w2.state.catalog = { w1.state.catalog with queue := w1.state.catalog.queue ++ [p] } ∨
        ok false ∧ w2.state.catalog = w1.state.catalog) →
      (growBy body.length).returns ok (fun _ w3 => unlockReturn.returns ok (fun _ w4 =>
        (ret ResponseCode.success).returns ok (fun status w' => status = .success ∧
          w'.state.Sound ∧ w'.notes = w.notes ∧
          w.state.catalog.Finished (ok false) p (f.wrote body) w'.state.catalog) w4) w3) w2 := by
    intro w2 h2 hn2 hc2
    simp only [growBy, returns_modify, returns_unlockReturn, returns_ret]
    refine ⟨trivial, h2.of_eq rfl rfl rfl, ?_, ?_, ?_, ?_⟩
    · simp [hn2, hn1, List.filterMap_cons]
    · have hst2 : w2.state.stored = w1.state.stored := by
        rcases hc2 with hc2 | ⟨-, hc2⟩ <;> exact congrArg Catalog.stored hc2
      change w2.state.stored.Perm _ ∨ _ ∧ _ ∧ w2.state.stored = _
      rw [hst2]
      exact hst1
    · have hq1 : w1.state.catalog.queue = w.state.catalog.queue := by rw [hc1]
      change w2.state.catalog.queue = _ ∨ _ ∧ w2.state.catalog.queue = _
      rcases hc2 with hc2 | ⟨hb, hc2⟩
      · exact .inl (by rw [hc2, ← hq1])
      · exact .inr ⟨hb, by rw [hc2, ← hq1]⟩
    · change { w2.state.catalog with
        currentSize := sizeAdd w2.state.catalog.currentSize body.length } =
        { w.state.catalog with
          stored := w2.state.catalog.stored, queue := w2.state.catalog.queue,
          currentSize := sizeAdd w.state.catalog.currentSize body.length }
      rcases hc2 with hc2 | ⟨-, hc2⟩ <;> rw [hc2, hc1]
  refine returns_queueInsertTail (fun w2 hm => hfin w2 ?_ ?_ (.inl ?_)) fun hb w2 hm =>
    hfin w2 (hm.state ▸ h1) (by rw [hm.notes, List.append_nil]) (.inr ⟨hb, by rw [hm.state]⟩)
  · exact hm.state ▸ h1.of_eq rfl rfl rfl
  · rw [hm.notes, List.append_nil]
  · rw [hm.state, hh1]
    simp [Storage.catalog, Storage.enqueue, Storage.stored, File.wrote, hp]

/-- Nothing of the storage changes while the expelled files are sent. -/
theorem returns_sendExpelled {clientFd : Int} {files : List File}
    {R : Unit → StorageWorld → Prop}
    (h : ∀ w', w.Moved w' w.state [] → R () w') : (sendExpelled clientFd files).returns ok R w := by
  induction files generalizing w with
  | nil => exact returns_ret.mpr (h w ⟨rfl, rfl, by simp⟩)
  | cons f files ih =>
    simp only [sendExpelled, bind_eq, returns_bind]
    refine returns_sendResponse fun b w1 _ h1 => ih fun w2 h2 => h w2 ⟨?_, ?_, ?_⟩
    · rw [h2.state, h1.state]
    · rw [h2.held, h1.held]
    · rw [h2.notes, h1.notes, List.append_assoc, List.append_nil]

theorem returns_writeFileHandler {clientFd : Nat} {req : Request} (hs : w.state.Sound)
    (ht : req.type = .writeFile) :
    (writeFileHandler clientFd req).returns ok (fun r w' =>
      Settled (ok false) (.request clientFd req) w (some ⟨r.1, []⟩) w') w := by
  simp only [writeFileHandler, writeFileFitting, bind_eq, pure_eq, returns_bind]
  refine returns_requestPath fun path hp => ?_
  simp only [returns_ite, returns_bind, returns_ret, returns_lockReturn]
  refine ⟨fun hb => ?_, fun hb _ => returns_storageGetFile fun _ => ?_⟩
  · refine .still (.of_state hs rfl rfl) ?_ (by simp [Call.Accepted]) (by simp [ht])
    cases path with
    | none => simp [Catalog.deed, hp]
    | some p =>
      rw [Catalog.deed_write ht hp]
      cases hg : w.state.catalog.get p <;> simp [Catalog.deedWrite, hg, hb]
  · rw [World.locked_state]
    cases hg : w.state.find path with
    | none =>
      simp only [returns_bind, returns_unlockReturn, returns_ret]
      refine .still (.of_state hs rfl (by simp)) ?_ (by simp [Call.Accepted]) (by simp [ht])
      exact hs.deed_absent (by simp [ht]) hp hg
    | some i =>
      obtain ⟨p, rfl, hi⟩ := Storage.find_eq_some hg
      have hd : w.state.catalog.deed (.request clientFd req) =
          if req.body = [] ∨ (w.state.heap i).lockedBy ≠ clientFd then .other
          else if req.body.length > w.state.maxSize then .discard p (w.state.heap i)
          else if chkFlag (w.state.heap i).flags oCreate = false then .other
          else .write p (w.state.heap i) req.body := by
        rw [Catalog.deed_write ht hp, Catalog.deedWrite, hs.catalog_get hi]
        rfl
      simp only [returns_bind, returns_load, returns_ite, returns_read, returns_unlockReturn,
        returns_ret, id]
      refine ⟨fun hl => ?_, fun hl => ⟨fun hbig => ?_, fun hfit => ⟨fun hc => ?_, fun hc => ?_⟩⟩⟩
      · refine .still (.of_state hs rfl (by simp)) (hd.trans (if_pos (.inr hl))) ?_
          (by simp [ht])
        simp [Call.Accepted]
      · refine returns_storageRemoveFile (fun h => absurd (hi.symm.trans h) (Option.some_ne_none i))
          fun j hj _ w1 h1 => ?_
        obtain rfl : i = j := Option.some.inj (hi.symm.trans hj)
        refine .discard hs hi ?_ h1.state (by simpa [List.filterMap_cons] using h1.notes) ?_
        · exact hd.trans ((if_neg (not_or.mpr ⟨hb, hl⟩)).trans (if_pos hbig))
        · simp [Call.type, ht]
      · refine .still (.of_state hs rfl (by simp)) ?_ (by simp [Call.Accepted]) (by simp [ht])
        exact hd.trans ((if_neg (not_or.mpr ⟨hb, hl⟩)).trans ((if_neg hfit).trans (if_pos hc)))
      · have hdw : w.state.catalog.deed (.request clientFd req) =
            .write p (w.state.heap i) req.body :=
          hd.trans ((if_neg (not_or.mpr ⟨hb, hl⟩)).trans ((if_neg hfit).trans (if_neg hc)))
        have htarget : (w.state.catalog.deed (.request clientFd req)).target ≠ none := by
          rw [hdw]
          simp [Deed.target]
        refine ⟨fun _ => ?_, fun hroom => ?_⟩
        · rw [storageFIFOReplace, returns_access]
          refine returns.mono (returns_fifoReplaceLoop ?_) fun r w1 h1 => ?_
          · exact hs
          obtain ⟨qs, ns, hns, hev⟩ := h1.evicts
          have hns1 : w1.notes = w.notes ++ ns := by simpa [List.filterMap_cons] using hns
          have hfail : ∀ w2 : StorageWorld, ok false → w2.state = w1.state → w2.notes = w1.notes →
              Settled (ok false) (.request clientFd req) w (some ⟨.internalError, []⟩) w2 := by
            intro w2 hf hst2 hn2
            refine .of_done ⟨hst2 ▸ h1.sound, ns, hn2.trans hns1, ?_⟩ htarget
            simp only [Effect, hdw]
            exact ⟨w1.state.catalog, qs, hev, .inr ⟨hf, by rw [hst2], trivial⟩⟩
          refine ⟨fun hne => hfail _ (h1.copies hne) rfl (by simp), fun _ => ?_⟩
          refine returns_sendResponse fun sent w2 hsent h2 => ⟨fun _ => ?_, fun hns => ?_⟩
          · refine returns_sendExpelled fun w3 h3 => ?_
            have hst3 : w3.state = w1.state := h3.state.trans h2.state
            have hn3 : w3.notes = w.notes ++ ns := by simp [h3.notes, h2.notes, hns1]
            have hget3 : w3.state.get p = some i ∨ w3.state.get p = none := by
              cases hg3 : w3.state.get p with
              | none => exact .inr rfl
              | some j =>
                have hj := h1.get p j (hst3 ▸ hg3)
                exact .inl (hj.symm.trans hi)
            have hh3 : w3.state.heap i = w.state.heap i := by rw [hst3, h1.heap]; rfl
            have hi3 : i < w3.state.next := by
              rw [hst3, h1.next]
              exact hs.lt_next hi
            refine (returns_writeFileUpdate (hst3 ▸ h1.sound) hi3 hh3 (hs.get_mem hi).2 hget3).mono
              fun status w' h => .of_done ⟨h.2.1, ns, h.2.2.1.trans hn3, ?_⟩ htarget
            obtain ⟨hst, -, -, hfin⟩ := h
            simp only [Effect, hdw]
            exact ⟨w1.state.catalog, qs, hev, .inl ⟨hst3 ▸ hfin, by rw [hst]⟩⟩
          · refine hfail _ ?_ h2.state (by simp [h2.notes])
            rcases hsent (by simpa using hns) with hf | hneg
            · exact hf
            · omega
        · refine returns.mono (returns_writeFileUpdate (p := p) ?_ ?_ rfl ?_ (.inl ?_))
            fun status w' h => .of_done ⟨h.2.1, [], by rw [h.2.2.1]; simp, ?_⟩ htarget
          · exact hs
          · exact hs.lt_next hi
          · exact (hs.get_mem hi).2
          · exact hi
          · obtain ⟨hst, -, -, hfin⟩ := h
            simp only [Effect, hdw]
            exact ⟨w.state.catalog, [], .done hroom, .inl ⟨hfin, by rw [hst]⟩⟩

end Write

end FileStorage
