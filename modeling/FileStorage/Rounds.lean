import FileStorage.Runs
import FileStorage.Writing

/-! The rounds of `storage_FIFO_replace` with given answers of the environment: when they come to
an end, and whether every file that left has its copy in the list. -/

namespace FileStorage

open Prog

/-- The rounds that make room for `n` bytes, with the answers before and after them and whether
every copy was linked. A round asks for the record of the copy, for the block of its contents and
for the node of the list; it copies the contents and frees the waiting list. -/
inductive Catalog.Drains (n : Nat) : Catalog → List Bool → Bool → List Bool → Prop where
  | done {v : Catalog} {env : List Bool} (h : ¬sizeAdd v.currentSize n > v.maxSize) :
      Drains n v env true env
  | round {v : Catalog} {env env' : List Bool} {all : Bool} {q : Path} {f : File}
      (h : sizeAdd v.currentSize n > v.maxSize) (hq : v.queue.head? = some q)
      (hf : v.get q = some f) (ha : env.headD true = true)
      (hc : copyBytes (env.tail.headD true) f.contents f.size ≠ none)
      (hw : f.waitingOnLock ≠ none)
      (hr : Drains n (v.expel q f) env.tail.tail.tail all env') :
      Drains n v env (env.tail.tail.headD true && all) env'

/-- The answers of the environment determine the rounds. -/
theorem Catalog.Drains.unique {n : Nat} {v : Catalog} {env env1 env2 : List Bool} {all1 all2 : Bool}
    (h1 : v.Drains n env all1 env1) (h2 : v.Drains n env all2 env2) : all1 = all2 ∧ env1 = env2 := by
  induction h1 generalizing all2 env2 with
  | done h =>
    cases h2 with
    | done => exact ⟨rfl, rfl⟩
    | round h' => exact absurd h' h
  | round h hq hf _ _ _ _ ih =>
    cases h2 with
    | done h' => exact absurd h h'
    | round _ hq' hf' _ _ _ hr =>
      obtain rfl := Option.some.inj (hq.symm.trans hq')
      obtain rfl := Option.some.inj (hf.symm.trans hf')
      obtain ⟨rfl, rfl⟩ := ih hr
      exact ⟨rfl, rfl⟩

/-- The bytes that a record points to. -/
def File.bytes (f : File) : Bytes := (f.contents.getD []).take f.size

/-- `copy` shows the path, the size and the bytes of `f`. -/
structure File.Copied (f copy : File) : Prop where
  path : copy.path = f.path
  size : copy.size = f.size
  bytes : copy.bytes = f.bytes

theorem copyBytes_bytes {block : Bool} {src contents : Option Bytes} {n : Nat}
    (h : copyBytes block src n = some contents) :
    (contents.getD []).take n = (src.getD []).take n := by
  unfold copyBytes at h
  by_cases hn : n = 0
  · simp [hn]
  · cases block <;> cases src <;> simp [hn] at h
    simp [← h]

/-- What one round leaves of the storage. -/
def Storage.expelled (s : Storage) (q : PathPtr) (i : FileId) : Storage :=
  (((s.dequeue.shrink (s.heap i).size).addFiles (-1)).eraseFile q.path).release i

section Round

variable {n fuel : Nat} {env : List Bool} {w : StorageWorld}

theorem run_round (hs : w.state.Sound) (h : sizeAdd w.state.currentSize n > w.state.maxSize)
    {q : PathPtr} {i : FileId} (hq : w.state.fifoQueue.head? = some q)
    (hg : w.state.get q.path = some i) (ha : env.headD true = true)
    (hc : copyBytes (env.tail.headD true) (w.state.heap i).contents (w.state.heap i).size ≠ none)
    (hw : (w.state.heap i).waitingOnLock ≠ none) :
    ∃ copy w', (w.state.heap i).Copied copy ∧ w'.state = w.state.expelled q i ∧ w'.held = w.held ∧
      (fifoReplaceLoop n (fuel + 1)).run env w = ((fifoReplaceLoop n fuel).bind fun r =>
        ret (r.1 + 1, if env.tail.tail.headD true then copy :: r.2 else r.2)).run
          env.tail.tail.tail w' := by
  have hp : (w.state.heap i).path = q.path := (hs.get_mem hg).2
  have hn : w.state.files.nBuckets ≠ 0 := Nat.ne_of_gt (hs.nBuckets_pos hg)
  obtain ⟨w1, h1, hst1, hh1⟩ := run_queueRemoveHead env
    (w.accessed (fun _ => [.readCurrentSize]) id)
  replace hst1 : w1.state = w.state.dequeue := hst1
  have h2 := run_storageGetFile (some q.path) env w1
  have hg1 : w1.state.get q.path = some i := by
    rw [hst1]
    exact hg
  have hn1 : w1.state.files.nBuckets ≠ 0 := by
    rw [hst1]
    exact hn
  have hheap : w1.state.heap i = w.state.heap i := by
    rw [hst1]
    rfl
  rw [lookup_eq_get hn1, hg1] at h2
  obtain ⟨contents, hcopy⟩ := Option.ne_none_iff_exists'.mp hc
  let w2 := (((((w1.accessed (lookupAccesses (some q.path)) id).accessed
    (fun _ => [Field.path, Field.size].map (Access.readField i)) id).accessed
    (fun _ => [Field.contents].map (Access.readField i)) id).accessed
    (fun s => [.readField i .size, .shrinkSize s.currentSize (s.heap i).size])
      fun s => s.shrink (s.heap i).size).accessed (fun _ => [.writeNoOfFiles]) fun s => s.addFiles (-1))
  obtain ⟨w3, h3, hst3, hh3⟩ := @run_filesRemove q.path i env.tail.tail w2
    hn1 hg1 (by
      change (w1.state.heap i).waitingOnLock ≠ none
      rwa [hheap])
  refine ⟨⟨q.path, 0, (w.state.heap i).size, contents, 0, none⟩, w3,
    ⟨hp.symm, rfl, copyBytes_bytes hcopy⟩, ?_, hh3.trans hh1, ?_⟩
  · rw [hst3]
    change ((((w1.state.shrink (w1.state.heap i).size).addFiles (-1)).eraseFile q.path).release i) = _
    rw [hheap, hst1]
    rfl
  · simp only [fifoReplaceLoop, bind_eq, pure_eq]
    rw [run_bind_done (run_read env w _ _)]
    simp only [id]
    rw [if_pos h, run_bind_done h1]
    simp only [World.accessed_state, id, hq, Option.map_some]
    rw [run_bind_done h2]
    simp only []
    rw [run_bind_done (run_alloc _ _), if_pos ha, run_bind_done (run_load _ _ _ _),
      run_bind_done (run_alloc _ _), run_bind_done (run_load _ _ _ _)]
    simp only [World.accessed_state, id, hheap, hcopy, hp]
    unfold shrinkBy dropCount
    rw [run_bind_done (run_modify _ _ _ _), run_bind_done (run_modify _ _ _ _),
      run_bind_done h3, run_bind_done (run_alloc _ _)]

/-- A round that gets through has found what it needs. -/
theorem round_of_done (hs : w.state.Sound) (h : sizeAdd w.state.currentSize n > w.state.maxSize) :
    (fifoReplaceLoop n (fuel + 1)).yields env (fun _ _ => ∃ q i,
      w.state.fifoQueue.head? = some q ∧ w.state.get q.path = some i ∧ env.headD true = true ∧
      copyBytes (env.tail.headD true) (w.state.heap i).contents (w.state.heap i).size ≠ none ∧
      (w.state.heap i).waitingOnLock ≠ none) w := by
  simp only [fifoReplaceLoop, bind_eq, pure_eq]
  refine (yields_bind (run_read env w _ _)).mpr ((yields_pos h).mpr ?_)
  obtain ⟨w1, h1, hst1, -⟩ := run_queueRemoveHead env
    (w.accessed (fun _ => [.readCurrentSize]) id)
  replace hst1 : w1.state = w.state.dequeue := hst1
  refine (yields_bind h1).mpr ?_
  simp only [World.accessed_state, id]
  have h2 := run_storageGetFile ((w.state.fifoQueue.head?).map PathPtr.path) env w1
  cases hl : w1.state.lookup ((w.state.fifoQueue.head?).map PathPtr.path) with
  | none =>
    rw [hl] at h2
    exact yields_bind_crashed h2
  | some r =>
    rw [hl] at h2
    refine (yields_bind h2).mpr ?_
    cases r with
    | none => exact yields_crash
    | some i =>
      obtain ⟨p, hp⟩ := path_of_lookup hl
      obtain ⟨q, hq, rfl⟩ := Option.map_eq_some_iff.mp hp
      rw [hp] at hl
      obtain ⟨hn1, hg1⟩ := get_of_lookup hl
      have hg : w.state.get q.path = some i := by
        rw [hst1] at hg1
        exact hg1
      have hheap : w1.state.heap i = w.state.heap i := by
        rw [hst1]
        rfl
      refine (yields_bind (run_alloc _ _)).mpr ?_
      by_cases ha : env.headD true = true
      · refine (yields_pos ha).mpr ((yields_bind (run_load _ _ _ _)).mpr ?_)
        refine (yields_bind (run_alloc _ _)).mpr ((yields_bind (run_load _ _ _ _)).mpr ?_)
        simp only [World.accessed_state, id, hheap]
        split
        · exact yields_crash
        · rename_i contents hc
          refine (yields_bind (run_modify _ _ _ _)).mpr ((yields_bind (run_modify _ _ _ _)).mpr ?_)
          by_cases hw : (w.state.heap i).waitingOnLock = none
          · rw [(hs.get_mem hg).2]
            refine yields_filesRemove_crashed hn1 hg1 ?_
            change (w1.state.heap i).waitingOnLock = none
            rwa [hheap]
          · exact fun _ _ => ⟨q, i, hq, hg, ha, by rw [hc]; exact Option.some_ne_none _, hw⟩
      · exact (yields_neg ha).mpr yields_crash

end Round

theorem run_last_round {n fuel : Nat} {env : List Bool} {w : StorageWorld}
    (h : ¬sizeAdd w.state.currentSize n > w.state.maxSize) :
    (fifoReplaceLoop n (fuel + 1)).run env w =
      (.done (0, []), w.accessed (fun _ => [.readCurrentSize]) id, env) := by
  simp only [fifoReplaceLoop, bind_eq, pure_eq]
  rw [run_bind_done (run_read env w _ _)]
  simp only [id]
  rw [if_neg h]
  rfl

/-- The loop of `storage_FIFO_replace` returns where the rounds come to an end. -/
theorem run_fifoReplaceLoop {n fuel : Nat} {v : Catalog} {env env' : List Bool} {all : Bool}
    {w : StorageWorld} (hd : v.Drains n env all env') (hs : w.state.Sound)
    (hv : w.state.catalog = v) (hf : w.state.fifoQueue.length < fuel) :
    ∃ r w', (fifoReplaceLoop n fuel).run env w = (.done r, w', env') ∧
      r.2.length ≤ r.1 ∧ (r.1 = r.2.length ↔ all = true) := by
  induction hd generalizing fuel w with
  | done h =>
    subst hv
    cases fuel with
    | zero => omega
    | succ fuel => exact ⟨_, _, run_last_round h, Nat.le_refl _, by simp⟩
  | round h hq hf' ha hc hw _ ih =>
    rename_i env _ _ q _ _
    subst hv
    cases fuel with
    | zero => omega
    | succ fuel =>
      obtain ⟨ptr, hptr, rfl⟩ : ∃ ptr, w.state.fifoQueue.head? = some ptr ∧ ptr.path = q := by
        simpa [Storage.catalog] using hq
      obtain ⟨i, hg, rfl⟩ := hs.get_of_catalog hf'
      obtain ⟨copy, w1, -, hst, hh, hrun⟩ := @run_round n fuel _ _ hs h _ _ hptr hg ha hc hw
      obtain ⟨he1, he2, -⟩ := hs.expel hg
      have hlen : w1.state.fifoQueue.length < fuel := by
        obtain ⟨rest, hrest⟩ := List.head?_eq_some_iff.mp hptr
        have htail : w1.state.fifoQueue = w.state.fifoQueue.tail := by
          rw [hst]
          rfl
        rw [htail, hrest, List.tail_cons]
        rw [hrest, List.length_cons] at hf
        omega
      obtain ⟨r, w', hr, hle, hall⟩ := ih (by rw [hst]; exact he1) (by rw [hst]; exact he2) hlen
      refine ⟨_, w', by rw [hrun, run_bind_done hr]; rfl, ?_⟩
      cases env.tail.tail.headD true with
      | true => simp [hall, hle]
      | false =>
        simp only [Bool.false_eq_true, if_false, Bool.false_and, iff_false]
        omega

/-- Where the loop returns, the rounds come to an end. -/
theorem drains_of_done {n fuel : Nat} {env env' : List Bool} {w w' : StorageWorld}
    {r : Nat × List File} (hs : w.state.Sound)
    (hr : (fifoReplaceLoop n fuel).run env w = (.done r, w', env')) :
    ∃ all, w.state.catalog.Drains n env all env' ∧ r.2.length ≤ r.1 ∧
      (r.1 = r.2.length ↔ all = true) := by
  induction fuel generalizing env env' w w' r with
  | zero => cases hr
  | succ fuel ih =>
    by_cases h : sizeAdd w.state.currentSize n > w.state.maxSize
    · obtain ⟨ptr, i, hptr, hg, ha, hc, hw⟩ :=
        @round_of_done n fuel env _ hs h r (by rw [hr])
      obtain ⟨copy, w1, -, hst, hh, hrun⟩ := @run_round n fuel _ _ hs h _ _ hptr hg ha hc hw
      obtain ⟨he1, he2, -⟩ := hs.expel hg
      rw [hrun, run_bind] at hr
      split at hr
      · rename_i r1 w2 env2 h1
        obtain ⟨all, hd, hle, hall⟩ := ih (by rw [hst]; exact he1) h1
        rw [hst] at hd
        replace hd : (w.state.catalog.expel ptr.path (w.state.heap i)).Drains n
            env.tail.tail.tail all env2 := he2 ▸ hd
        simp only [run_ret, Prod.mk.injEq, Outcome.done.injEq] at hr
        obtain ⟨rfl, -, rfl⟩ := hr
        refine ⟨_, .round h (by simp [Storage.catalog, hptr]) (hs.catalog_get hg) ha hc hw hd, ?_⟩
        cases env.tail.tail.headD true with
        | true => simp [hall, hle]
        | false =>
          simp only [Bool.false_eq_true, if_false, Bool.false_and, iff_false]
          omega
      · cases hr
      · cases hr
    · rw [run_last_round h] at hr
      cases hr
      exact ⟨true, .done h, Nat.le_refl _, by simp⟩

end FileStorage
