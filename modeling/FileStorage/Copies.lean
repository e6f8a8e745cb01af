import FileStorage.Expulsion
import FileStorage.Waiting

/-! The copies that `storage_FIFO_replace` returns, and the frames in which `write_file_handler`
announces and sends them. -/

namespace FileStorage

open Prog

namespace Catalog

/-- A replacement for `n` bytes that leads from `v` to `w` returns `r`: the copies of the files that
left, in the order of the queue, as many as had to leave. -/
structure Replaced (v : Catalog) (n : Nat) (r : Nat × List File) (w : Catalog) : Prop where
  queue : v.queue = r.2.map File.path ++ w.queue
  copies : ∀ copy ∈ r.2, ∃ f, v.get copy.path = some f ∧ f.Copied copy
  count : r.1 = r.2.length
  noOfFiles : w.noOfFiles = v.noOfFiles - r.1
  currentSize : w.currentSize = sizeSub v.currentSize (r.2.map File.size).sum
  room : sizeAdd w.currentSize n ≤ v.maxSize
  shortest : ∀ k < r.2.length,
    sizeAdd (sizeSub v.currentSize ((r.2.take k).map File.size).sum) n > v.maxSize

/-- The guard of `storage_FIFO_replace` after `k` rounds. -/
def Over (v : Catalog) (n k : Nat) : Prop := sizeAdd (v.sizeAfter (v.queue.take k)) n > v.maxSize

/-- The list gets a node in every round that takes place. -/
def NodesGranted (v : Catalog) (n : Nat) (env : List Bool) : Prop :=
  ∀ k, (∀ j ≤ k, v.Over n j) → env.getD (3 * k + 2) true = true

variable {n : Nat} {v w : Catalog} {qs : List Path} {ns : List Access}

theorem Evicts.over_iff (h : v.Evicts n qs ns w) (hd : v.paths.Nodup) (hv : v.currentSize < sizeBound) :
    (∀ k < qs.length, v.Over n k) ∧ ¬v.Over n qs.length := by
  have htake : ∀ k ≤ qs.length, v.queue.take k = qs.take k := by
    intro k hk
    rw [h.queue_eq, List.take_append_of_le_length hk]
  refine ⟨fun k hk => ?_, ?_⟩
  · rw [Over, htake k (Nat.le_of_lt hk)]
    exact h.over hd hv k hk
  · rw [Over, htake _ (Nat.le_refl _), List.take_length, ← h.currentSize_eq hd hv, ← h.within.maxSize]
    exact Nat.not_lt.mpr h.fits

/-- The rounds are those before the guard fails. -/
theorem rounds_iff {k m : Nat} (h : ∀ j < m, v.Over n j) (hm : ¬v.Over n m) :
    (∀ j ≤ k, v.Over n j) ↔ k < m := by
  constructor
  · intro hk
    by_contra hle
    exact hm (hk m (Nat.not_lt.mp hle))
  · exact fun hk j hj => h j (Nat.lt_of_le_of_lt hj hk)

theorem rounds_unique {k m : Nat} (hk : (∀ j < k, v.Over n j) ∧ ¬v.Over n k)
    (hm : (∀ j < m, v.Over n j) ∧ ¬v.Over n m) : k = m := by
  rcases Nat.lt_trichotomy k m with hlt | rfl | hlt
  · exact absurd (hm.1 k hlt) hk.2
  · rfl
  · exact absurd (hk.1 m hlt) hm.2

theorem getD_add_three (env : List Bool) (k : Nat) :
    env.getD (k + 3) true = env.tail.tail.tail.getD k true := by
  simp only [List.getD_eq_getElem?_getD, List.getElem?_tail]

theorem headD_tail_tail (env : List Bool) : env.tail.tail.headD true = env.getD 2 true := by
  rw [List.headD_eq_head?_getD, List.head?_eq_getElem?, List.getD_eq_getElem?_getD]
  simp only [List.getElem?_tail]

/-- Which of the answers each round asks for. -/
theorem Evicts.answers (h : v.Evicts n qs ns w) {env env' : List Bool} {all : Bool}
    (hd : v.Drains n env all env') :
    (all = true ↔ ∀ k < qs.length, env.getD (3 * k + 2) true = true) ∧
      env' = env.drop (3 * qs.length) := by
  induction h generalizing env all with
  | done hfit =>
    cases hd with
    | done => simp
    | round hover => exact absurd hover hfit
  | round hover hq hf _ ih =>
    cases hd with
    | done hfit => exact absurd hover hfit
    | round _ hq' hf' _ _ _ hr =>
      obtain rfl := Option.some.inj (hq.symm.trans hq')
      obtain rfl := Option.some.inj (hf.symm.trans hf')
      obtain ⟨hall, hdrop⟩ := ih hr
      constructor
      · rw [Bool.and_eq_true, hall, List.length_cons]
        constructor
        · rintro ⟨h0, hrest⟩ k hk
          cases k with
          | zero => exact (headD_tail_tail env).symm.trans h0
          | succ k => exact (getD_add_three env (3 * k + 2)).trans (hrest k (by omega))
        · intro hk
          refine ⟨(headD_tail_tail env).trans (hk 0 (by omega)), fun k hlt => ?_⟩
          exact (getD_add_three env (3 * k + 2)).symm.trans (hk (k + 1) (by omega))
      · rw [hdrop, List.length_cons, ← List.drop_one, ← List.drop_one, ← List.drop_one]
        simp only [List.drop_drop]
        exact congrArg (List.drop · env) (by omega)

theorem sizesOf_copies {l : List File} (h : ∀ copy ∈ l, ∃ f, v.get copy.path = some f ∧ f.Copied copy) :
    v.sizesOf (l.map File.path) = (l.map File.size).sum := by
  rw [sizesOf, List.map_map]
  refine congrArg List.sum (List.map_congr_left fun copy hm => ?_)
  obtain ⟨f, hf, hcopy⟩ := h copy hm
  rw [Function.comp_apply, sizeOf_of_get hf, hcopy.size]

/-- The number of copies tells the rounds. -/
theorem Replaced.over_iff {r : Nat × List File} (h : v.Replaced n r w) :
    (∀ k < r.2.length, v.Over n k) ∧ ¬v.Over n r.2.length := by
  have hafter : ∀ k ≤ r.2.length, v.sizeAfter (v.queue.take k) =
      sizeSub v.currentSize ((r.2.take k).map File.size).sum := by
    intro k hk
    rw [h.queue, List.take_append_of_le_length (by rwa [List.length_map]), ← List.map_take, sizeAfter,
      sizesOf_copies fun copy hm => h.copies copy (List.mem_of_mem_take hm)]
  refine ⟨fun k hk => ?_, ?_⟩
  · rw [Over, hafter k (Nat.le_of_lt hk)]
    exact h.shortest k hk
  · rw [Over, hafter _ (Nat.le_refl _), List.take_length, ← h.currentSize]
    exact Nat.not_lt.mpr h.room

theorem Evicts.replaced (h : v.Evicts n qs ns w) (hd : v.paths.Nodup) (hv : v.currentSize < sizeBound)
    {r : Nat × List File} (hcount : r.1 = qs.length) (hpaths : r.2.map File.path = qs)
    (hcopies : ∀ copy ∈ r.2, ∃ f, v.get copy.path = some f ∧ f.Copied copy) : v.Replaced n r w := by
  have hlen : r.2.length = qs.length := by rw [← hpaths, List.length_map]
  refine ⟨by rw [hpaths, ← h.queue_eq], hcopies, hcount.trans hlen.symm, ?_, ?_, ?_, fun k hk => ?_⟩
  · rw [h.noOfFiles_eq, hcount]
  · rw [h.currentSize_eq hd hv, sizeAfter, ← hpaths, sizesOf_copies hcopies]
  · exact h.within.maxSize ▸ h.fits
  · have hover := h.over hd hv k (hlen ▸ hk)
    rw [sizeAfter, ← hpaths, ← List.map_take,
      sizesOf_copies fun copy hm => hcopies copy (List.mem_of_mem_take hm)] at hover
    exact hover

end Catalog

section Loop

variable {n fuel : Nat} {env env' : List Bool} {w w' : StorageWorld} {r : Nat × List File}

/-- The copies that are linked are those of the paths that leave, if as many are linked. -/
theorem copies_of_done (hs : w.state.Sound)
    (hr : (fifoReplaceLoop n fuel).run env w = (.done r, w', env')) :
    r.2.length ≤ r.1 ∧ ∃ qs ns, w.state.catalog.Evicts n qs ns w'.state.catalog ∧ r.1 = qs.length ∧
      (r.1 = r.2.length → r.2.map File.path = qs ∧
        ∀ copy ∈ r.2, ∃ f, w.state.catalog.get copy.path = some f ∧ f.Copied copy) := by
  induction fuel generalizing env env' w w' r with
  | zero => cases hr
  | succ fuel ih =>
    by_cases h : sizeAdd w.state.currentSize n > w.state.maxSize
    · obtain ⟨ptr, i, hptr, hg, ha, hc, hw⟩ := @round_of_done n fuel env _ hs h r (by rw [hr])
      obtain ⟨copy, w1, hcopy, hst, -, hrun⟩ := @run_round n fuel _ _ hs h _ _ hptr hg ha hc hw
      obtain ⟨he1, he2, -⟩ := hs.expel hg
      rw [hrun, run_bind] at hr
      split at hr
      · rename_i r1 w2 env2 h1
        obtain ⟨hle, qs, ns, hev, hcount, hcopies⟩ := ih (by rw [hst]; exact he1) h1
        rw [hst] at hev hcopies
        replace hev : (w.state.catalog.expel ptr.path (w.state.heap i)).Evicts n qs ns
            w2.state.catalog := he2 ▸ hev
        simp only [run_ret, Prod.mk.injEq, Outcome.done.injEq] at hr
        obtain ⟨rfl, rfl, -⟩ := hr
        have hf := hs.catalog_get hg
        have hpath : (w.state.heap i).path = ptr.path := (hs.get_mem hg).2
        refine ⟨?_, ptr.path :: qs, _, .round h (by simp [Storage.catalog, hptr]) hf hev,
          congrArg (· + 1) hcount, ?_⟩
        · split
          · exact Nat.succ_le_succ hle
          · exact Nat.le_succ_of_le hle
        · split
          · intro hlen
            obtain ⟨hpaths, hall⟩ := hcopies (Nat.succ.inj hlen)
            refine ⟨by rw [List.map_cons, hpaths, hcopy.path, hpath], fun c hm => ?_⟩
            rcases List.mem_cons.mp hm with rfl | hm
            · exact ⟨_, by rw [hcopy.path, hpath]; exact hf, hcopy⟩
            · obtain ⟨f, hget, hf⟩ := hall c hm
              exact ⟨f, (Catalog.within_expel _ _ _).get hs.nodup (he2 ▸ hget), hf⟩
          · intro hlen
            exact absurd hlen (Nat.ne_of_gt (Nat.lt_succ_of_le hle))
      · cases hr
      · cases hr
    · rw [run_last_round h] at hr
      cases hr
      exact ⟨Nat.le_refl _, [], [], .done h, rfl, fun _ => ⟨rfl, by simp⟩⟩

/-- A replacement that returns is exact where the list got all its nodes. -/
theorem replaced_iff (hs : w.state.Sound) (hfit : w.state.currentSize < sizeBound)
    (hr : (storageFIFOReplace n).run env w = (.done r, w', env')) :
    (w.state.catalog.Replaced n r w'.state.catalog ↔ w.state.catalog.NodesGranted n env) ∧
      (w.state.catalog.NodesGranted n env ↔ r.1 = r.2.length) ∧ env' = env.drop (3 * r.1) := by
  have hd := hs.nodup
  obtain ⟨⟨all, hdr, hall⟩, -⟩ := replaced_of_done hs hr
  obtain ⟨-, qs, ns, hev, hcount, hcopies⟩ :=
    copies_of_done (w := w.accessed (fun _ => []) id) hs (show
      (fifoReplaceLoop n (w.state.fifoQueue.length + 1)).run env (w.accessed (fun _ => []) id) =
        (.done r, w', env') from hr)
  obtain ⟨hanswers, hdrop⟩ := hev.answers hdr
  obtain ⟨hover, hfits⟩ := hev.over_iff hd hfit
  have hnodes : w.state.catalog.NodesGranted n env ↔ r.1 = r.2.length := by
    rw [hall, hanswers]
    constructor
    · exact fun h k hk => h k ((Catalog.rounds_iff hover hfits).mpr hk)
    · exact fun h k hk => h k ((Catalog.rounds_iff hover hfits).mp hk)
  refine ⟨⟨fun h => hnodes.mpr h.count, fun h => ?_⟩, hnodes, hcount ▸ hdrop⟩
  obtain ⟨hpaths, hsame⟩ := hcopies (hnodes.mp h)
  exact hev.replaced hd hfit hcount hpaths hsame

end Loop

theorem run_eq_done {α : Type} {p : ServerM α} {env : List Bool} {w : StorageWorld} {a : α}
    (h : (p.run env w).1 = .done a) :
    p.run env w = (.done a, (p.run env w).2.1, (p.run env w).2.2) := by
  rw [← h]

/-! ### The frames of a write -/

/-- The frame of a file that left. -/
def filesExpelledFrame (clientFd : Nat) (copy : File) : Int × Response :=
  (clientFd, ⟨.filesExpelled, stringBytes copy.path, copy.bytes⟩)

/-- The frame that announces how many files follow. -/
def filesExpelledCount (clientFd howMany : Nat) : Int × Response :=
  (clientFd, ⟨.filesExpelled, [], intBytes howMany⟩)

/-- What a write that makes room for `n` bytes is to send: nothing, or the number of the files that
left and then each of them. -/
def Catalog.Announces (v : Catalog) (n clientFd : Nat) (frames : List (Int × Response)) : Prop :=
  frames = [] ∨ ∃ r u, v.Replaced n r u ∧
    frames = filesExpelledCount clientFd r.1 :: r.2.map (filesExpelledFrame clientFd)

/-- Once the number of the files is announced, no write on the socket fails. -/
def Catalog.SendsGranted (v : Catalog) (n : Nat) (env : List Bool) : Prop :=
  ∀ k, (∀ j < k, v.Over n j) → ¬v.Over n k → v.NodesGranted n env →
    env.getD (3 * k) true = true → ∀ j < k, env.getD (3 * k + 1 + j) true = true

theorem silent_freeFile (i : FileId) : (freeFile i).silent :=
  silent.bind (fun _ => trivial) fun _ => silent.ite trivial fun _ => trivial

theorem silent_filesRemove (p : Path) : (filesRemove p).silent := by
  refine (silent_storageGetFile _).bind fun r => ?_
  cases r with
  | none => trivial
  | some i => exact fun _ => (silent_freeFile i).bind fun _ => trivial

theorem silent_fifoReplaceLoop (n fuel : Nat) : (fifoReplaceLoop n fuel).silent := by
  induction fuel with
  | zero => trivial
  | succ fuel ih =>
    refine fun s => silent.ite (silent.bind (fun _ => trivial) fun path => ?_) trivial
    refine (silent_storageGetFile _).bind fun r => ?_
    cases r with
    | none => trivial
    | some i =>
      refine fun a => silent.ite (fun t b u => ?_) trivial
      dsimp only [Prog.bind]
      cases copyBytes b (u.heap i).contents (t.heap i).size with
      | none => trivial
      | some contents =>
        exact fun _ _ => (silent_filesRemove _).bind fun _ => fun _ => ih.bind fun _ => trivial

theorem silent_writeFileUpdate (i : FileId) (body : Bytes) : (writeFileUpdate i body).silent := by
  refine fun _ _ a => silent.ite (fun _ => ?_) trivial
  refine (silent_storageUpdateFile i).bind fun _ => ?_
  exact silent.bind (fun _ b => silent.ite (fun _ => trivial) trivial) fun _ _ => trivial

section Frames

variable {clientFd : Nat} {env : List Bool}

theorem run_sendExpelled (clientFd : Nat) (copies : List File) (env : List Bool) (w : StorageWorld) :
    ∃ w', (sendExpelled clientFd copies).run env w = (.done (), w', env.drop copies.length) ∧
      w'.sent = w.sent ++ answered env (copies.map (filesExpelledFrame clientFd)) := by
  induction copies generalizing env w with
  | nil => exact ⟨w, rfl, (List.append_nil _).symm⟩
  | cons copy copies ih =>
    obtain ⟨w', hrun, hsent⟩ :=
      ih env.tail (w.posted (filesExpelledFrame clientFd copy) (env.headD true))
    refine ⟨w', ?_, ?_⟩
    · simp only [sendExpelled, bind_eq]
      rw [run_bind_done (run_sendResponse_client _ _ _ _ _ _), List.length_cons, ← List.drop_tail]
      exact hrun
    · rw [hsent, List.map_cons, answered, World.posted]
      split <;> simp

/-- What is sent after the replacement: nothing if a copy is missing or the announcement fails. -/
theorem sent_writeFileExpelled {i : FileId} {body : Bytes} {r : Nat × List File}
    {res : ResponseCode × List File} {w w' : StorageWorld} {env' : List Bool}
    (hr : (writeFileExpelled clientFd i body r).run env w = (.done res, w', env')) :
    w'.sent = w.sent ++ if r.1 = r.2.length ∧ env.headD true = true then
      filesExpelledCount clientFd r.1 :: answered env.tail (r.2.map (filesExpelledFrame clientFd))
    else [] := by
  unfold writeFileExpelled at hr
  by_cases hlen : r.1 ≠ r.2.length
  · rw [run_pos hlen] at hr
    cases hr
    rw [if_neg fun h => hlen h.1, List.append_nil]
    rfl
  rw [run_neg hlen] at hr
  simp only [bind_eq, pure_eq] at hr
  rw [run_bind_done (run_sendResponse_client _ _ _ _ _ _)] at hr
  cases hb : env.headD true with
  | false =>
    rw [hb] at hr
    cases hr
    rw [if_neg fun h => Bool.false_ne_true h.2, List.append_nil]
    rfl
  | true =>
    obtain ⟨w1, hrun, hsent⟩ := run_sendExpelled clientFd r.2 env.tail
      (w.posted (clientFd, ⟨.filesExpelled, [], intBytes r.1⟩) true)
    have hupdate : ((writeFileUpdate i body).bind fun status => ret (status, ([] : List File))).silent :=
      (silent_writeFileUpdate i body).bind fun _ => trivial
    rw [hb, run_pos rfl, run_bind_done hrun] at hr
    rw [if_pos ⟨not_not.mp hlen, rfl⟩, hupdate.returns.of_run hr, hsent]
    simp [World.posted, filesExpelledCount]

/-- The frames of a write are the count and the files, unless a write on the socket fails after the
announcement. -/
theorem announces_iff {w w' : StorageWorld} {req : Request} {p : Path} {f : File} {body : Bytes}
    {res : ResponseCode × List File} {env' : List Bool} (hs : w.state.Sound)
    (hfit : w.state.currentSize < sizeBound) (hw : w.held = false)
    (hd : w.state.catalog.deed (.request clientFd req) = .write p f body)
    (ho : sizeAdd w.state.currentSize body.length > w.state.maxSize)
    (hr : (writeFileHandler clientFd req).run env w = (.done res, w', env')) :
    ∃ frames, w'.sent = w.sent ++ frames ∧
      (w.state.catalog.Announces body.length clientFd frames ↔
        w.state.catalog.SendsGranted body.length env) := by
  obtain ⟨i, w1, -, hst, hsent, hrun⟩ := @run_writeFileHandler_over _ _ _ _ _ env _ hs hw hd ho
  rw [hrun, run_bind] at hr
  split at hr
  · rename_i r w2 env2 h1
    rw [← hst] at hs hfit
    obtain ⟨hrep, hnodes, rfl⟩ := replaced_iff hs hfit h1
    have hsent2 : w2.sent = w1.sent :=
      silent.returns (p := storageFIFOReplace body.length)
        (fun _ => silent_fifoReplaceLoop _ _) |>.of_run h1
    refine ⟨_, (sent_writeFileExpelled hr).trans (by rw [hsent2, hsent]), ?_⟩
    rw [← hst]
    by_cases hlen : r.1 = r.2.length
    · have hreplaced := hrep.mpr (hnodes.mpr hlen)
      have hrounds := hreplaced.over_iff
      rw [← hlen] at hrounds
      have hhead : (env.drop (3 * r.1)).headD true = env.getD (3 * r.1) true := by
        rw [List.headD_eq_head?_getD, List.head?_drop, List.getD_eq_getElem?_getD]
      have htail : ∀ j, (env.drop (3 * r.1)).tail.getD j true = env.getD (3 * r.1 + 1 + j) true := by
        intro j
        rw [List.tail_drop, List.getD_eq_getElem?_getD, List.getElem?_drop, List.getD_eq_getElem?_getD]
      rw [hhead]
      cases hb : env.getD (3 * r.1) true with
      | false =>
        refine iff_of_true (.inl (if_neg fun h => Bool.false_ne_true h.2)) fun k hk hnk _ hsend => ?_
        obtain rfl := Catalog.rounds_unique ⟨hk, hnk⟩ hrounds
        exact absurd (hb.symm.trans hsend) Bool.false_ne_true
      | true =>
        rw [if_pos ⟨hlen, rfl⟩]
        have hall := @answered_eq_self_iff _ (env.drop (3 * r.1)).tail
          (r.2.map (filesExpelledFrame clientFd))
        rw [List.length_map, ← hlen] at hall
        simp only [htail] at hall
        constructor
        · rintro (h | ⟨r', u, hr', h⟩)
          · cases h
          · have hsame : r'.2.length = r.1 := Catalog.rounds_unique hr'.over_iff hrounds
            have hself := length_answered_iff.mp (show (answered _ _).length = _ by
              rw [(List.cons.inj h).2, List.length_map, List.length_map, hsame, hlen])
            intro k hk hnk _ _
            obtain rfl := Catalog.rounds_unique ⟨hk, hnk⟩ hrounds
            exact hall.mp hself
        · intro h
          have hsends := h r.1 hrounds.1 hrounds.2 (hnodes.mpr hlen) hb
          exact .inr ⟨r, _, hreplaced, congrArg (_ :: ·) (hall.mpr hsends)⟩
    · refine iff_of_true (.inl (if_neg fun h => hlen h.1)) fun k _ _ hn => ?_
      exact absurd (hnodes.mp hn) hlen
  · cases hr
  · cases hr

end Frames

/-- A replacement that returns is exact where the list got all its nodes, and a write that makes room
sends its count and its files where no write on the socket fails. -/
theorem storageFIFOReplace_replaced_iff {s t : Server} {h : List Record} (hi : s.Initial)
    (hr : Run anyStep s h t) :
    (∀ n env w r w' env', w.state = t.storage →
      (storageFIFOReplace n).run env w = (.done r, w', env') →
      (t.storage.catalog.Replaced n r w'.state.catalog ↔ t.storage.catalog.NodesGranted n env)) ∧
    ∀ (clientFd : Nat) req p f body env w res w' env', w.state = t.storage → w.held = false →
      t.storage.catalog.deed (.request clientFd req) = .write p f body →
      sizeAdd t.storage.currentSize body.length > t.storage.maxSize →
      (writeFileHandler clientFd req).run env w = (.done res, w', env') →
      ∃ frames, w'.sent = w.sent ++ frames ∧
        (t.storage.catalog.Announces body.length clientFd frames ↔
          t.storage.catalog.SendsGranted body.length env) := by
  have hs := hi.reachable_sound hr
  have hfit := hi.reachable_fits hr
  constructor
  · intro n env w r w' env' hw hrun
    rw [← hw] at hs hfit ⊢
    exact (replaced_iff hs hfit hrun).1
  · intro clientFd req p f body env w res w' env' hw hheld hd ho hrun
    rw [← hw] at hs hfit hd ho ⊢
    exact announces_iff hs hfit hheld hd ho hrun

theorem storageFIFOReplace_replaced_written : ∃ s h t, s.Initial ∧ Run anyStep s h t ∧
    h.map Record.step = [.openFile 5 (slash 'a') 6, .writeFile 5 (slash 'a') [1, 2],
      .openFile 5 (slash 'b') 6] ∧
    (∃ w' env', (storageFIFOReplace 3).run [] (World.init t.storage) =
      (.done (1, [⟨slash 'a', 0, 2, some [1, 2], 0, none⟩]), w', env') ∧
      t.storage.catalog.Replaced 3 (1, [⟨slash 'a', 0, 2, some [1, 2], 0, none⟩]) w'.state.catalog) ∧
    ∃ frames, frames ≠ [] ∧ t.storage.catalog.Announces 3 5 frames := by
  obtain ⟨s, h, t, hi, hr, hx, hp⟩ := Server.exists_run anyStep 4 3
    [.openFile 5 (slash 'a') 6, .writeFile 5 (slash 'a') [1, 2], .openFile 5 (slash 'b') 6]
    (fun _ _ t => decide (
      (∃ f ∈ t.storage.stored, t.storage.catalog.deed (Step.writeFile 5 (slash 'b') [3, 4, 5]).call =
        .write (slash 'b') f [3, 4, 5]) ∧
      sizeAdd t.storage.currentSize 3 > t.storage.maxSize ∧
      ((storageFIFOReplace 3).run [] (World.init t.storage)).1 =
        .done (1, [⟨slash 'a', 0, 2, some [1, 2], 0, none⟩]) ∧
      ((writeFileHandler 5 ⟨.writeFile, stringBytes (slash 'b'), [3, 4, 5]⟩).run []
        (World.init t.storage)).1 = .done (.success, []) ∧
      ((writeFileHandler 5 ⟨.writeFile, stringBytes (slash 'b'), [3, 4, 5]⟩).run []
        (World.init t.storage)).2.1.sent ≠ []))
    (by decide) (by decide)
  obtain ⟨⟨f, -, hd⟩, ho, hloop, hhandler, hsent⟩ := of_decide_eq_true hp
  obtain ⟨hreplaced, hannounces⟩ := storageFIFOReplace_replaced_iff hi hr
  have hrun := run_eq_done hloop
  have hrun' := run_eq_done hhandler
  refine ⟨s, h, t, hi, hr, hx, ⟨_, _, hrun, (hreplaced _ _ _ _ _ _ rfl hrun).mpr ?_⟩, ?_⟩
  · exact fun k _ => by rw [List.getD_nil]
  · obtain ⟨frames, hframes, hiff⟩ := hannounces 5 _ _ f _ [] _ _ _ _ rfl rfl hd ho hrun'
    rw [hframes] at hsent
    exact ⟨frames, hsent, hiff.mpr fun k _ _ _ _ j _ => by rw [List.getD_nil]⟩

/-- The node of the list is missing, and the copy is lost. -/
theorem not_storageFIFOReplace_replaced :
    ¬∀ (s t : Server) (h : List Record), s.Initial → Run anyStep s h t →
      ∀ n env w r w' env', w.state = t.storage →
        (storageFIFOReplace n).run env w = (.done r, w', env') →
        t.storage.catalog.Replaced n r w'.state.catalog := by
  intro hall
  obtain ⟨s, h, t, hi, hr, -, hp⟩ := Server.exists_run anyStep 4 3
    [.openFile 5 (slash 'a') 6, .writeFile 5 (slash 'a') [1, 2], .openFile 5 (slash 'b') 6]
    (fun _ _ t => decide (((storageFIFOReplace 3).run [true, true, false] (World.init t.storage)).1 =
      .done (1, []))) (by decide) (by decide)
  have hrun := run_eq_done (of_decide_eq_true hp)
  exact absurd (hall s t h hi hr _ _ _ _ _ _ rfl hrun).count (by decide)

end FileStorage
