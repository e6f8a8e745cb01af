import FileStorage.Accounting
import FileStorage.Fifo
import FileStorage.FileCount
import FileStorage.Quota
import FileStorage.Serializing

/-! The counters and the queue of the storage, for requests that run at the same time. -/

namespace FileStorage

open Machine

/-- The calls that keep the account, the quota, the count and the queue. -/
structure ConsistentStep (s : Server) (x : Step) : Prop where
  counted : CountedStep s x
  quota : QuotaStep s x
  counting : CountingStep s x
  ordered : OrderedStep s x

instance (s : Server) (x : Step) : Decidable (ConsistentStep s x) :=
  decidable_of_iff (CountedStep s x ∧ QuotaStep s x ∧ CountingStep s x ∧ OrderedStep s x)
    ⟨fun ⟨ha, hq, hc, ho⟩ => ⟨ha, hq, hc, ho⟩, fun h => ⟨h.counted, h.quota, h.counting, h.ordered⟩⟩

/-- What the counters and the queue say is true of the files; `order` is that of the last writes. -/
structure Catalog.Consistent (v : Catalog) (order : List Path) : Prop where
  accounted : v.Accounted
  covered : v.Covered
  filled : v.Filled
  counted : v.Counted
  queued : v.Queued order

theorem Initial.consistent {s : Server} (hi : s.Initial) (h0 : 0 ≤ s.storage.maxFiles) :
    s.storage.catalog.Consistent [] := by
  have hq := Initial.queued hi
  obtain ⟨maxSize, maxFiles, n, -, hb, hc⟩ := hi.catalog
  have hm : s.storage.maxFiles = toInt maxFiles := congrArg Catalog.maxFiles hc
  rw [hc] at hq ⊢
  refine ⟨⟨rfl, Nat.two_pow_pos 64⟩, ⟨Nat.le_refl _, Nat.zero_le _, Nat.two_pow_pos 64, hb⟩, ?_, ?_, hq⟩
  · simp [Catalog.Filled]
  · exact ⟨rfl, hm ▸ h0, List.nodup_nil, by simp⟩

theorem Server.consistent_step {s : Server} {x : Step} {r : Option Reply} {w : StorageWorld}
    {order : List Path} (hs : s.storage.Sound) (hv : s.storage.catalog.Consistent order)
    (hx : ConsistentStep s x) (he : s.exec x = some (r, w)) :
    w.state.Sound ∧ w.state.catalog.Consistent (rewrite order (x.call.wrote r)) := by
  obtain ⟨hs', heff⟩ := exec_done hs he
  refine ⟨hs', ⟨(hv.accounted.step hs.nodup hx.counted.2 heff).1,
    hv.covered.step hs.nodup hx.quota.2 heff, hv.filled.step ?_ heff,
    hv.counted.step hs.nodup hs'.nodup hx.counting.2 heff,
    hv.queued.step hs.nodup hs'.nodup hx.ordered.2 heff⟩⟩
  intro p f body hdeed
  have hget : s.storage.catalog.get p = some f := Catalog.get_of_target (by rw [hdeed]; rfl)
  have hle := Catalog.le_total hget File.size
  have hfit : s.storage.catalog.bytes + body.length ≤ s.storage.catalog.maxSize := by
    have hquota : s.storage.catalog.KeepsQuota (s.storage.catalog.deed x.call) := hx.quota.2
    rw [hdeed] at hquota
    exact hquota.1
  have hbound := hv.covered.bounded
  rw [← Catalog.bytes_eq_total] at hle
  omega

theorem Run.consistent {s t : Server} {h : List Record} (hi : s.Initial) (h0 : 0 ≤ s.storage.maxFiles)
    (hr : Run ConsistentStep s h t) :
    t.storage.Sound ∧ t.storage.catalog.Consistent (writeOrder h) := by
  refine Run.invariant (I := fun h t => t.storage.Sound ∧ t.storage.catalog.Consistent (writeOrder h))
    ⟨hi.sound, Initial.consistent hi h0⟩ ?_ hr
  intro h t x r w ht hx he
  rw [writeOrder_snoc]
  exact Server.consistent_step ht.1 ht.2 hx he

namespace CallPool

/-- However the sections of the requests and of the lock manager are interleaved, `current_size` is
the bytes of the stored files and within `max_size`, `no_of_files` is their number and within
`max_files`, and the queue has the written files, each once, in the order of the sections that
wrote them last. -/
theorem interleaved_consistent {server : Server} {s : CallPool} {h : List (CallPool × Schedule Call)}
    (hi : server.Initial) (h0 : 0 ≤ server.storage.maxFiles)
    (hr : Reaches step (Serially ConsistentStep) (start server) h s) :
    (s.world.state.currentSize = s.catalog.bytes ∧ s.catalog.bytes ≤ s.world.state.maxSize ∧
      s.catalog.held ≤ s.world.state.maxSize) ∧
    (s.world.state.noOfFiles = s.world.state.files.entries.length ∧
      s.world.state.noOfFiles ≤ s.world.state.maxFiles) ∧
    ∃ log : List (Nat × Record), (log.map fun x => (x.1, x.2.step)) = serialized h ∧
      s.world.state.fifoQueue.map PathPtr.path =
        (writeOrder (log.map Prod.snd)).filter s.catalog.written ∧
      ∀ p, p ∈ s.world.state.fifoQueue.map PathPtr.path ↔ s.catalog.written p = true := by
  obtain ⟨log, hlog⟩ := reaches_serialization hi hr
  obtain ⟨-, hv⟩ := Run.consistent hi h0 hlog.run
  have hlength : s.catalog.count = s.world.state.files.entries.length := by
    rw [Catalog.count_eq_length]
    exact List.length_map _
  refine ⟨⟨hv.accounted.exact, hv.covered.quota, ?_⟩, ⟨?_, hv.counted.quota⟩, log, hlog.steps,
    hv.queued.queue, fun p => hv.queued.mem_iff⟩
  · exact Nat.le_trans hv.filled.held_le hv.covered.quota
  · rw [← hlength]
    exact hv.counted.exact

theorem interleaved_consistent_writes : ∃ (server : Server) (h : List (CallPool × Schedule Call))
    (s : CallPool), server.Initial ∧ Reaches step (Serially ConsistentStep) (start server) h s ∧
    h.map Prod.snd = [.start (Step.openFile 5 (slash 'a') 6).call,
      .start (Step.openFile 7 (slash 'b') 6).call, .run 0 [], .run 1 [], .run 1 [], .run 0 [],
      .start (Step.writeFile 5 (slash 'a') [1, 2]).call,
      .start (Step.writeFile 7 (slash 'b') [3, 4, 5]).call, .run 3 [], .run 2 []] ∧
    s.world.state.currentSize = s.catalog.bytes ∧ s.world.state.currentSize = 2 := by
  obtain ⟨server, hi, hs⟩ := Server.exists_start 4 3 (fun server : Server =>
    decide (0 ≤ server.storage.maxFiles) &&
    (play step (Serially ConsistentStep) (start server) [.start (Step.openFile 5 (slash 'a') 6).call,
      .start (Step.openFile 7 (slash 'b') 6).call, .run 0 [], .run 1 [], .run 1 [], .run 0 [],
      .start (Step.writeFile 5 (slash 'a') [1, 2]).call,
      .start (Step.writeFile 7 (slash 'b') [3, 4, 5]).call, .run 3 [], .run 2 []]).any
      fun s : CallPool => decide (s.world.state.currentSize = 2)) (by decide) (by decide)
  obtain ⟨h0, hs⟩ := Bool.and_eq_true_iff.mp hs
  obtain ⟨h, s, hr, hm, hl⟩ := exists_run _ _ _ _ _ hs
  exact ⟨server, h, s, hi, hr, hm, (interleaved_consistent hi (of_decide_eq_true h0) hr).1.1,
    of_decide_eq_true hl⟩

end CallPool

end FileStorage
