import FileStorage.Copies
import FileStorage.CriticalSection

/-! Which files `read_n_files_handler` sends: those of the first paths of the queue, where
`readNFiles` promises the files of the table. -/

namespace FileStorage

open Prog

theorem readInt_intBytes (n : Int) : readInt (intBytes n) = some (BitVec.ofInt 32 n) := by
  generalize hb : BitVec.ofInt 32 n = b
  simp only [intBytes, readInt, hb]
  congr 1
  ext i hi
  simp
  grind

theorem toInt_ofInt {n : Nat} (h : n < 2 ^ 31) : (BitVec.ofInt 32 n).toInt = n := by
  rw [BitVec.toInt_ofInt]
  exact Int.bmod_eq_of_le (by omega) (by omega)

theorem intBytes_inj {m n : Nat} (hm : m < 2 ^ 31) (hn : n < 2 ^ 31) (h : intBytes m = intBytes n) :
    m = n := by
  have hread := congrArg readInt h
  rw [readInt_intBytes, readInt_intBytes, Option.some.injEq] at hread
  have hint := congrArg BitVec.toInt hread
  rw [toInt_ofInt hm, toInt_ofInt hn] at hint
  exact Int.ofNat.inj hint

theorem readNCap_lt (maxSize : Nat) {n : Nat} (h : n < 2 ^ 31) : readNCap maxSize n < 2 ^ 31 := by
  have hle : toInt maxSize < 2 ^ 31 := Int.bmod_lt (by decide)
  unfold readNCap
  split <;> omega

/-- The frame of a file that is read. -/
def readFrame (clientFd : Nat) (f : File) : Int × Response :=
  (clientFd, ⟨.success, stringBytes f.path, f.bytes⟩)

/-- The frame that announces how many files follow. -/
def readCount (clientFd howMany : Nat) : Int × Response := (clientFd, ⟨.success, [], intBytes howMany⟩)

/-- How many of `k` files `readNFiles(n)` promises. -/
def promised (n k : Nat) : Nat := if n = 0 then k else min n k

/-- A request for `n` files is answered with the promised number of stored files, each once, after
their number. -/
def Storage.ReadsPromised (s : Storage) (clientFd n : Nat) (env : List Bool) : Prop :=
  ∀ (req : Request) (w : StorageWorld), req.body = intBytes n → w.state = s → w.held = false →
    ∃ r w' env', ∃ files : List File, (readNFilesHandler clientFd req).run env w = (.done r, w', env') ∧
      w'.sent = w.sent ++ readCount clientFd files.length :: files.map (readFrame clientFd) ∧
      files.length = promised n s.stored.length ∧ (files.map File.path).Nodup ∧
      ∀ f ∈ files, f ∈ s.stored

/-- The first paths of the queue are stored, those that the environment allows to link are different
from each other and as many as promised, and it lets all of them through. -/
structure Catalog.Lists (v : Catalog) (n : Nat) (env : List Bool) (qs : List Path) : Prop where
  stored : ∀ q ∈ qs, q ∈ v.paths
  apart : (answered env qs).Nodup
  enough : (answered env qs).length = promised n v.stored.length
  granted : ∀ j ≤ promised n v.stored.length, env.getD (qs.length + j) true = true

theorem linked_eq_answered (env : List Bool) (ids : List FileId) : linked env ids = answered env ids := by
  induction ids generalizing env with
  | nil => rfl
  | cons i ids ih =>
    rw [linked, answered]
    simp only [ih]

theorem Storage.Sound.locate_some {s : Storage} (hs : s.Sound) {qs : List PathPtr} {ids : List FileId}
    (h : s.locate qs = some ids) :
    ids.map (fun i => (s.heap i).path) = qs.map PathPtr.path ∧ ∀ i ∈ ids, s.heap i ∈ s.stored := by
  induction qs generalizing ids with
  | nil =>
    obtain rfl := Option.some.inj h
    simp
  | cons q qs ih =>
    unfold Storage.locate at h
    split at h
    · rename_i i hl
      obtain ⟨ids', h', rfl⟩ := Option.map_eq_some_iff.mp h
      obtain ⟨hpaths, hmem⟩ := ih h'
      obtain ⟨hn, hg⟩ := get_of_lookup hl
      refine ⟨?_, fun j hj => ?_⟩
      · rw [List.map_cons, List.map_cons, hpaths, (hs.get_mem hg).2]
      · rcases List.mem_cons.mp hj with rfl | hj
        · exact (Catalog.get_eq_some (hs.catalog_get hg)).1
        · exact hmem j hj
    · cases h

theorem Storage.Sound.locate_isSome {s : Storage} (hs : s.Sound) (qs : List PathPtr) :
    (s.locate qs).isSome = true ↔ ∀ q ∈ qs.map PathPtr.path, q ∈ s.catalog.paths := by
  induction qs with
  | nil => simp [Storage.locate]
  | cons q qs ih =>
    have hstored : q.path ∈ s.catalog.paths ↔ ∃ i, s.lookup (some q.path) = some (some i) := by
      rw [← not_iff_not, ← Catalog.get_eq_none_iff, not_exists]
      constructor
      · intro hnone i hl
        rw [hs.catalog_get (get_of_lookup hl).2] at hnone
        cases hnone
      · intro hno
        cases hg : s.get q.path with
        | none => exact hs.catalog_get_none hg
        | some i =>
          refine absurd ?_ (hno i)
          rw [lookup_eq_get (Nat.ne_of_gt (hs.nBuckets_pos hg)), hg]
    rw [List.map_cons, List.forall_mem_cons, ← ih, hstored]
    rw [Storage.locate]
    split
    · rename_i i hl
      rw [Option.isSome_map, and_iff_right ⟨i, hl⟩]
    · rename_i hno
      exact iff_of_false (by simp) fun h => h.1.elim hno

section Handler

variable {clientFd n : Nat} {env : List Bool} {w : StorageWorld} {req : Request}

theorem run_sendFiles (ids : List FileId) (env : List Bool) (w : StorageWorld) :
    ∃ w', (sendFiles clientFd ids).run env w = (.done (), w', env.drop ids.length) ∧
      w'.sent = w.sent ++ answered env ((ids.map w.state.heap).map (readFrame clientFd)) := by
  induction ids generalizing env w with
  | nil => exact ⟨w, rfl, (List.append_nil _).symm⟩
  | cons i ids ih =>
    let w1 := w.accessed (fun _ => [Field.path, Field.size, Field.contents].map (Access.readField i)) id
    obtain ⟨w', hrun, hsent⟩ :=
      ih env.tail (w1.posted (readFrame clientFd (w.state.heap i)) (env.headD true))
    refine ⟨w', ?_, ?_⟩
    · simp only [sendFiles, bind_eq]
      rw [run_bind_done (run_load _ _ _ _), run_bind_done (run_sendResponse_client _ _ _ _ _ _),
        List.length_cons, ← List.drop_tail]
      exact hrun
    · have hst : (w1.posted (readFrame clientFd (w.state.heap i)) (env.headD true)).state = w.state :=
        World.posted_state _ _ _
      rw [hsent, hst, List.map_cons, List.map_cons, answered, World.posted]
      split
      · rw [List.append_assoc]
        rfl
      · rfl

theorem silent_collectFiles (n : Nat) (queue : List PathPtr) : (collectFiles n queue).silent := by
  induction n, queue using collectFiles.induct with
  | case1 queue => trivial
  | case2 n _ => simp [collectFiles, silent]
  | case3 n iter rest ih =>
    refine (silent_storageGetFile _).bind fun r => ?_
    cases r with
    | none => trivial
    | some i => exact fun _ => ih.bind fun _ => trivial

/-- What the handler sends where the first paths of the queue are stored. -/
theorem run_readNFilesHandler {howMany : BitVec 32} {ids : List FileId} (hw : w.held = false)
    (hb : readInt req.body = some howMany)
    (hloc : w.state.locate (w.state.fifoQueue.take (readNCap w.state.maxSize howMany.toInt)) =
      some ids) :
    ∃ r w' env', (readNFilesHandler clientFd req).run env w = (.done r, w', env') ∧
      w'.sent = w.sent ++ answered (env.drop ids.length)
        (readCount clientFd (answered env ids).length ::
          ((answered env ids).map w.state.heap).map (readFrame clientFd)) := by
  let w1 := (w.accessed (fun _ => []) id).locked.accessed (fun _ => [Access.readQueue]) id
  have hcollect := @run_collectFiles (readNCap w.state.maxSize howMany.toInt) w.state.fifoQueue env w1
  rw [show w1.state = w.state from rfl, hloc] at hcollect
  obtain ⟨w2, hst2, hrun2⟩ := hcollect
  rw [linked_eq_answered] at hrun2
  let count := readCount clientFd (answered env ids).length
  obtain ⟨w3, hrun3, hsent3⟩ := @run_sendFiles clientFd (answered env ids)
    (env.drop ids.length).tail (w2.unlocked.posted count ((env.drop ids.length).headD true))
  have hsent2 : w2.sent = w1.sent := (silent_collectFiles _ _).returns.of_run hrun2
  refine ⟨(.success, []), w3, (env.drop ids.length).tail.drop (answered env ids).length, ?_, ?_⟩
  · unfold readNFilesHandler
    rw [hb]
    simp only [bind_eq, pure_eq]
    refine (run_bind_done (run_read _ _ _ _)).trans ?_
    refine (run_bind_done (run_lockReturn _ (w.accessed (fun _ => []) id) hw)).trans ?_
    refine (run_bind_done (run_read _ _ _ _)).trans ((run_bind_done hrun2).trans ?_)
    refine (run_bind_done (run_unlockReturn _ _)).trans ((run_pos rfl).trans ?_)
    refine (run_bind_done (run_sendResponse_client _ _ _ _ _ _)).trans ((run_bind_done hrun3).trans rfl)
  · rw [hsent3, World.posted_state, World.unlocked_state, hst2, answered, World.posted]
    split
    · rw [List.append_assoc]
      exact congrArg (· ++ _) hsent2
    · exact congrArg (· ++ _) hsent2

/-- It sends nothing where one of them is missing. -/
theorem sent_readNFilesHandler {howMany : BitVec 32} (hw : w.held = false)
    (hb : readInt req.body = some howMany)
    (hloc : w.state.locate (w.state.fifoQueue.take (readNCap w.state.maxSize howMany.toInt)) = none)
    {r : ResponseCode × List FileId} {w' : StorageWorld} {env' : List Bool}
    (hr : (readNFilesHandler clientFd req).run env w = (.done r, w', env')) : w'.sent = w.sent := by
  let w1 := (w.accessed (fun _ => []) id).locked.accessed (fun _ => [Access.readQueue]) id
  have hcollect := @run_collectFiles (readNCap w.state.maxSize howMany.toInt) w.state.fifoQueue env w1
  rw [show w1.state = w.state from rfl, hloc] at hcollect
  unfold readNFilesHandler at hr
  rw [hb] at hr
  simp only [bind_eq, pure_eq] at hr
  rw [run_bind_done (run_read _ _ _ _),
    run_bind_done (run_lockReturn _ (w.accessed (fun _ => []) id) hw),
    run_bind_done (run_read _ _ _ _), run_bind] at hr
  split at hr
  · rename_i c w2 env2 hrun2
    have hfound : c.1 = false := hcollect c (congrArg Prod.fst hrun2)
    rw [run_bind_done (run_unlockReturn _ _), hfound, run_neg Bool.false_ne_true] at hr
    cases hr
    have hsent2 : w2.sent = w1.sent := (silent_collectFiles _ _).returns.of_run hrun2
    exact hsent2
  · cases hr
  · cases hr

end Handler

theorem readFrame_ne_readCount {clientFd k : Nat} {f : File} :
    readFrame clientFd f ≠ readCount clientFd k := fun h => by
  have hpath : f.path ++ [0] = [] := congrArg (fun m : Int × Response => m.2.filePath) h
  exact List.append_ne_nil_of_right_ne_nil _ (List.cons_ne_nil _ _) hpath

/-- Frames that announce their number have all got through. -/
theorem frames_of_answered {clientFd : Nat} {env : List Bool} {l files : List File}
    (hl : l.length < 2 ^ 31)
    (h : answered env (readCount clientFd l.length :: l.map (readFrame clientFd)) =
      readCount clientFd files.length :: files.map (readFrame clientFd)) :
    (∀ j ≤ l.length, env.getD j true = true) ∧ l.map File.path = files.map File.path := by
  have hcount : readCount clientFd files.length = readCount clientFd l.length := by
    have hm := (answered_sublist env _).subset (h ▸ List.mem_cons_self)
    rcases List.mem_cons.mp hm with heq | hm
    · exact heq
    · obtain ⟨f, -, hf⟩ := List.mem_map.mp hm
      exact absurd hf readFrame_ne_readCount
  have hle := (answered_sublist env (readCount clientFd l.length :: l.map (readFrame clientFd))).length_le
  rw [h, List.length_cons, List.length_cons, List.length_map, List.length_map] at hle
  have hlen : files.length = l.length := intBytes_inj (by omega) hl
    (congrArg (fun m : Int × Response => m.2.body) hcount)
  have hself := length_answered_iff.mp (show (answered env _).length = _ by
    rw [h, List.length_cons, List.length_cons, List.length_map, List.length_map, hlen])
  constructor
  · intro j hj
    refine answered_eq_self_iff.mp hself j ?_
    rw [List.length_cons, List.length_map]
    omega
  · have hframes := (List.cons.inj (hself.symm.trans h)).2
    have hpaths := congrArg (List.map fun m : Int × Response => m.2.filePath.dropLast) hframes
    simpa [List.map_map, Function.comp_def, readFrame, stringBytes] using hpaths

namespace Storage

variable {s : Storage} {clientFd n : Nat} {env : List Bool}

theorem Sound.readsPromised_iff (hs : s.Sound) (hn : n < 2 ^ 31) :
    s.ReadsPromised clientFd n env ↔
      s.catalog.Lists n env (s.catalog.queue.take (readNCap s.maxSize n)) := by
  have hqueue : s.catalog.queue.take (readNCap s.maxSize n) =
      (s.fifoQueue.take (readNCap s.maxSize n)).map PathPtr.path := (List.map_take ..).symm
  have hread : readInt (intBytes n) = some (BitVec.ofInt 32 n) := readInt_intBytes n
  have hint : (BitVec.ofInt 32 n).toInt = n := toInt_ofInt hn
  -- what the linked records show, and how many they are
  have hlinked : ∀ ids, s.locate (s.fifoQueue.take (readNCap s.maxSize n)) = some ids →
      ids.length = (s.catalog.queue.take (readNCap s.maxSize n)).length ∧
      answered env (s.catalog.queue.take (readNCap s.maxSize n)) =
        ((answered env ids).map s.heap).map File.path ∧
      (answered env ids).length < 2 ^ 31 := by
    intro ids hloc
    have hpaths := (hs.locate_some hloc).1
    have hlen : ids.length = (s.catalog.queue.take (readNCap s.maxSize n)).length := by
      rw [hqueue, ← hpaths, List.length_map]
    refine ⟨hlen, by rw [hqueue, ← hpaths, answered_map, List.map_map]; rfl, ?_⟩
    have hle := (answered_sublist env ids).length_le
    have hcap := readNCap_lt s.maxSize hn
    rw [List.length_take] at hlen
    omega
  have hdrop : ∀ m j, (env.drop m).getD j true = env.getD (m + j) true := by
    intro m j
    rw [List.getD_eq_getElem?_getD, List.getElem?_drop, List.getD_eq_getElem?_getD]
  have hisSome := hs.locate_isSome (s.fifoQueue.take (readNCap s.maxSize n))
  rw [← hqueue] at hisSome
  constructor
  · intro h
    obtain ⟨r, w', env', files, hrun, hsent, hlen, hd, -⟩ :=
      h ⟨.readNFiles, [], intBytes n⟩ (World.init s) rfl rfl rfl
    cases hloc : s.locate (s.fifoQueue.take (readNCap s.maxSize n)) with
    | none =>
      rw [sent_readNFilesHandler rfl hread (by rw [hint]; exact hloc) hrun] at hsent
      exact absurd (List.self_eq_append_right.mp hsent) (List.cons_ne_nil _ _)
    | some ids =>
      obtain ⟨r2, w2, env2, hrun2, hsent2⟩ := @run_readNFilesHandler clientFd env (World.init s)
        ⟨.readNFiles, [], intBytes n⟩ _ _ rfl hread (by rw [hint]; exact hloc)
      obtain ⟨-, rfl, -⟩ : _ ∧ w2 = w' ∧ _ := by simpa using hrun2.symm.trans hrun
      obtain ⟨hcount, hpaths, hbound⟩ := hlinked ids hloc
      have hframes : answered (env.drop ids.length)
          (readCount clientFd ((answered env ids).map s.heap).length ::
            ((answered env ids).map s.heap).map (readFrame clientFd)) =
          readCount clientFd files.length :: files.map (readFrame clientFd) := by
        rw [List.length_map]
        exact List.append_cancel_left (hsent2.symm.trans hsent)
      obtain ⟨hgranted, hsame⟩ := frames_of_answered (by rwa [List.length_map]) hframes
      have hpromised : ((answered env ids).map s.heap).length = promised n s.stored.length := by
        rw [← hlen, ← List.length_map File.path, hsame, List.length_map]
      refine ⟨hisSome.mp (by rw [hloc]; rfl), ?_, ?_, fun j hj => ?_⟩
      · rw [hpaths, hsame]
        exact hd
      · rw [hpaths, List.length_map]
        exact hpromised
      · rw [← hcount, ← hdrop]
        exact hgranted j (hpromised ▸ hj)
  · rintro h req w hreq rfl hheld
    obtain ⟨ids, hloc⟩ := Option.isSome_iff_exists.mp (hisSome.mpr h.stored)
    obtain ⟨hcount, hpaths, -⟩ := hlinked ids hloc
    obtain ⟨r, w', env', hrun, hsent⟩ := @run_readNFilesHandler clientFd env w req _ ids hheld
      (hreq ▸ hread) (by rw [hint]; exact hloc)
    have hpromised : ((answered env ids).map w.state.heap).length = promised n w.state.stored.length := by
      rw [← List.length_map File.path, ← hpaths]
      exact h.enough
    refine ⟨r, w', env', (answered env ids).map w.state.heap, hrun, ?_, hpromised, hpaths ▸ h.apart, ?_⟩
    · rw [hsent, List.length_map]
      refine congrArg (w.sent ++ ·) (answered_eq_self_iff.mpr fun j hj => ?_)
      rw [List.length_cons, List.length_map, hpromised] at hj
      rw [hdrop, hcount]
      exact h.granted j (Nat.le_of_lt_succ hj)
    · intro f hf
      obtain ⟨i, hi, rfl⟩ := List.mem_map.mp hf
      exact (hs.locate_some hloc).2 i ((answered_sublist env ids).subset hi)

end Storage

end FileStorage
