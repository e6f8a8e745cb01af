import FileStorage.Bookkeeping
import FileStorage.Disposal

/-! The FIFO queue: whether it lists the written files in the order of their writes. -/

namespace FileStorage

/-- The path that a successful `WRITE_FILE` has written. -/
def Call.wrote (r : Option Reply) : Call → Option Path
  | .request _ req =>
    if req.type = .writeFile ∧ r = some ⟨.success, []⟩ then req.path.join else none
  | .lockManager => none

/-- The latest write moves its path to the end. -/
def rewrite (order : List Path) : Option Path → List Path
  | some p => order.erase p ++ [p]
  | none => order

/-- The paths written by the calls of a run, in the order of their last successful write. -/
def writeOrder (h : List Record) : List Path :=
  h.foldl (fun order x => rewrite order (x.step.call.wrote x.reply)) []

theorem writeOrder_snoc (h : List Record) (x : Record) :
    writeOrder (h ++ [x]) = rewrite (writeOrder h) (x.step.call.wrote x.reply) := by
  simp [writeOrder]

namespace Catalog

/-- The file of the path has been written since it was created. -/
def written (v : Catalog) (p : Path) : Bool :=
  (v.get p).any fun f => !chkFlag f.flags oCreate

theorem written_iff {v : Catalog} {p : Path} :
    v.written p = true ↔ ∃ f, v.get p = some f ∧ chkFlag f.flags oCreate = false := by
  simp [written, Option.any_eq_true]

theorem written_congr {v w : Catalog} {p : Path} (h : w.get p = v.get p) :
    w.written p = v.written p := by
  simp [written, h]

/-- The queue holds the written files in the given order. -/
structure Queued (v : Catalog) (order : List Path) : Prop where
  queue : v.queue = order.filter v.written
  nodup : order.Nodup
  complete : ∀ p, v.written p = true → p ∈ order

theorem Queued.mem_iff {v : Catalog} {order : List Path} (h : v.Queued order) {p : Path} :
    p ∈ v.queue ↔ v.written p = true := by
  rw [h.queue, List.mem_filter]
  exact ⟨fun hm => hm.2, fun hw => ⟨h.complete p hw, hw⟩⟩

theorem Queued.nodup_queue {v : Catalog} {order : List Path} (h : v.Queued order) :
    v.queue.Nodup :=
  h.queue ▸ h.nodup.filter _

theorem Queued.congr {v w : Catalog} {order : List Path} (h : v.Queued order)
    (hq : w.queue = v.queue) (hw : ∀ p, w.written p = v.written p) : w.Queued order where
  queue := by rw [hq, h.queue, funext hw]
  nodup := h.nodup
  complete := fun p hp => h.complete p (hw p ▸ hp)

/-- A path leaves the queue and the table. -/
theorem Queued.drop {v w : Catalog} {order : List Path} (h : v.Queued order) {p : Path}
    (hq : w.queue = v.queue.filter fun q => q ≠ p)
    (hw : ∀ q, w.written q = (v.written q && decide (q ≠ p))) : w.Queued order where
  queue := by
    rw [hq, h.queue, List.filter_filter, funext hw]
    exact List.filter_congr fun q _ => Bool.and_comm _ _
  nodup := h.nodup
  complete := by
    intro q hq'
    rw [hw, Bool.and_eq_true] at hq'
    exact h.complete q hq'.1

/-- A path that is not queued is written. -/
theorem Queued.push {v w : Catalog} {order : List Path} (h : v.Queued order) {p : Path}
    (hp : v.written p = false) (hq : w.queue = v.queue ++ [p])
    (hw : ∀ q, w.written q = (v.written q || decide (q = p))) :
    w.Queued (order.erase p ++ [p]) where
  queue := by
    have hself : w.written p = true := by simp [hw]
    have he : (order.erase p).filter w.written = order.filter v.written := by
      rw [h.nodup.erase_eq_filter, List.filter_filter]
      refine List.filter_congr fun q _ => ?_
      by_cases hqp : q = p
      · simp [hqp, hp]
      · simp [hw, hqp]
    rw [hq, h.queue, List.filter_append, he]
    simp [hself]
  nodup := by
    refine List.nodup_append.mpr ⟨h.nodup.erase p, List.nodup_singleton p, ?_⟩
    intro a ha b hb hab
    obtain rfl := List.mem_singleton.mp hb
    exact h.nodup.not_mem_erase (hab ▸ ha)
  complete := by
    intro q hq'
    by_cases hqp : q = p
    · simp [hqp]
    · rw [hw] at hq'
      simp only [hqp, decide_false, Bool.or_false] at hq'
      simp [(List.mem_erase_of_ne hqp).mpr (h.complete q hq')]

/-! ### What a call does to the written files -/

theorem Relabeled.written {v v' : Catalog} (h : v.Relabeled v') (hd : v.paths.Nodup) (p : Path) :
    v'.written p = v.written p := by
  cases hg : v.get p with
  | none => rw [Catalog.written, Catalog.written, h.get_none.mpr hg, hg]
  | some f =>
    obtain ⟨f', hf', hs⟩ := h.get_some hd hg
    simp [Catalog.written, hf', hg, hs.fresh]

theorem Created.written {v v' : Catalog} {p : Path} (h : v.Created p v') (hd : v.paths.Nodup)
    (hd' : v'.paths.Nodup) (q : Path) : v'.written q = v.written q := by
  obtain ⟨list, hg⟩ := h.get_eq hd hd' q
  by_cases hq : q = p
  · subst hq
    rw [if_pos rfl] at hg
    simp [Catalog.written, hg, h.absent]
  · rw [if_neg hq] at hg
    exact written_congr hg

/-- Clearing a bucket whose other files are not written. -/
theorem written_wipe {v : Catalog} (hd : v.paths.Nodup) {p : Path}
    (hn : ∀ g ∈ v.neighbours p, chkFlag g.flags oCreate = true) (q : Path) :
    (v.wipe p).written q = (v.written q && decide (q ≠ p)) := by
  rw [written, get_wipe hd]
  by_cases hb : v.bucket q = v.bucket p
  · rw [if_pos hb]
    by_cases hq : q = p
    · simp [hq]
    · cases hg : v.get q with
      | none => simp [written, hg]
      | some f =>
        obtain ⟨hm, rfl⟩ := get_eq_some hg
        have := hn f (mem_neighbours.mpr ⟨hm, hb, hq⟩)
        simp [written, hg, this]
  · have hq : q ≠ p := by
      rintro rfl
      exact hb rfl
    simp [hb, hq, written]

theorem written_put {v : Catalog} (hd : v.paths.Nodup) {p : Path} {f g : File}
    (hf : v.get p = some f) (hp : g.path = f.path) (hg : g.flags = f.flags) (q : Path) :
    (v.put p g).written q = v.written q := by
  have hget := get_put hd hf (hp.trans (get_eq_some hf).2) q
  by_cases hq : q = p
  · subst hq
    rw [if_pos rfl] at hget
    simp [written, hget, hf, hg]
  · rw [if_neg hq] at hget
    exact written_congr hget

theorem Finished.written {fail : Prop} {v w : Catalog} {p : Path} {g : File}
    (hf : v.Finished fail p g w) (hd : v.paths.Nodup) (hd' : w.paths.Nodup) (hg : g.path = p)
    (hc : chkFlag g.flags oCreate = false) (hp : fail → p ∈ v.paths) (q : Path) :
    w.written q = (v.written q || decide (q = p)) := by
  have hget := hf.get hd hd' hg hp q
  by_cases hqp : q = p
  · subst hqp
    rw [if_pos rfl] at hget
    simp [Catalog.written, hget, hc]
  · rw [if_neg hqp] at hget
    simp [written_congr hget, hqp]

/-- Only a write that is due writes. -/
theorem wrote_of_effect {fail : Prop} {v v' : Catalog} {c : Call} {r : Option Reply}
    {ns : List Access} (he : Effect fail v c r ns v') :
    c.wrote r = match v.deed c with
      | .write p _ _ => if r = some ⟨.success, []⟩ then some p else none
      | _ => none := by
  have hdue := deed_due v c
  unfold Effect at he
  cases hdeed : v.deed c with
  | other =>
    simp only [hdeed] at he
    obtain ⟨-, -, hacc⟩ := he
    cases c with
    | lockManager => rfl
    | request clientFd req =>
      refine if_neg fun hw => hacc ⟨.inl ?_, hw.2⟩
      simp [Call.type, hw.1]
  | create p =>
    simp only [hdeed] at hdue
    cases hdue with
    | create ht => simp [Call.wrote, ht]
  | replace p q =>
    simp only [hdeed] at hdue
    cases hdue with
    | replace ht => simp [Call.wrote, ht]
  | discard p f =>
    simp only [hdeed] at hdue he
    cases hdue with
    | refuse ht => simp [Call.wrote, he.2.2, Call.type, ht]
    | remove ht => simp [Call.wrote, ht]
  | write p f body =>
    simp only [hdeed] at hdue
    cases hdue with
    | write ht hp => simp [Call.wrote, ht, hp]
  | append p f body =>
    simp only [hdeed] at hdue
    cases hdue with
    | append ht => simp [Call.wrote, ht]

/-- The changes that keep the queue: no file is replaced at the limit of files, a removed path is not
queued, the files that share their bucket with a path expelled from the queue are not written, and
nothing is refused to a write. -/
def KeepsOrder (v : Catalog) (fail : Prop) : Deed → Prop
  | .other => True
  | .create _ => True
  | .replace _ _ => False
  | .discard p _ => p ∉ v.queue
  | .write _ _ body => ¬fail ∧
      ∀ q ∈ v.victims body.length, ∀ g ∈ v.neighbours q, chkFlag g.flags oCreate = true
  | .append _ _ _ => True

instance (v : Catalog) (fail : Prop) [Decidable fail] : ∀ d, Decidable (v.KeepsOrder fail d)
  | .other => inferInstanceAs (Decidable True)
  | .create _ => inferInstanceAs (Decidable True)
  | .replace _ _ => inferInstanceAs (Decidable False)
  | .discard p _ => inferInstanceAs (Decidable (p ∉ v.queue))
  | .write _ _ body => inferInstanceAs (Decidable (¬fail ∧
      ∀ q ∈ v.victims body.length, ∀ g ∈ v.neighbours q, chkFlag g.flags oCreate = true))
  | .append _ _ _ => inferInstanceAs (Decidable True)

theorem Queued.discard {v : Catalog} {order : List Path} (h : v.Queued order) {p : Path} {f : File}
    (hq : p ∉ v.queue) : (v.discard p f).Queued order := by
  rw [Catalog.discard, if_neg hq]
  exact h.congr (List.erase_of_not_mem hq) fun _ => rfl

theorem Queued.expel {v : Catalog} {order : List Path} (h : v.Queued order)
    (hd : v.paths.Nodup) {q : Path} {f : File} (hq : v.queue.head? = some q)
    (hn : ∀ g ∈ v.neighbours q, chkFlag g.flags oCreate = true) :
    (v.expel q f).Queued order := by
  obtain ⟨queue, hqueue⟩ : ∃ queue, v.queue = q :: queue := List.head?_eq_some_iff.mp hq
  refine h.drop (p := q) ?_ fun p => written_wipe hd hn p
  have hnd := h.nodup_queue
  rw [hqueue, List.nodup_cons] at hnd
  change v.queue.tail = _
  rw [hqueue, List.tail_cons, List.filter_cons_of_neg (by simp)]
  refine (List.filter_eq_self.mpr fun p hp => ?_).symm
  simpa using fun hpq : p = q => hnd.1 (hpq ▸ hp)

theorem Queued.evicts {n : Nat} {v w : Catalog} {qs : List Path} {ns : List Access}
    {order : List Path} (he : v.Evicts n qs ns w) (hd : v.paths.Nodup) (h : v.Queued order)
    (hn : ∀ q ∈ qs, ∀ g ∈ v.neighbours q, chkFlag g.flags oCreate = true) : w.Queued order :=
  he.preserves (J := fun u => u.Queued order) h fun _ q _ hu hw hq _ hhead _ =>
    Queued.expel hu (hw.nodup hd) hhead fun g hg => hn q hq g (hw.neighbours hg)

/-- One call keeps the queue. -/
theorem Queued.step {fail : Prop} {v v' : Catalog} {c : Call} {r : Option Reply}
    {ns : List Access} {order : List Path} (h : v.Queued order) (hd : v.paths.Nodup)
    (hd' : v'.paths.Nodup) (hc : v.KeepsOrder fail (v.deed c)) (he : Effect fail v c r ns v') :
    v'.Queued (rewrite order (c.wrote r)) := by
  have hwrote := wrote_of_effect he
  have hdue := deed_due v c
  unfold Effect at he
  cases hdeed : v.deed c with
  | other =>
    simp only [hdeed] at he hwrote
    obtain ⟨-, hrel, -⟩ := he
    rw [hwrote]
    exact h.congr (by obtain ⟨g, -, rfl⟩ := hrel; rfl) (hrel.written hd)
  | create p =>
    simp only [hdeed] at he hwrote
    rw [hwrote]
    obtain ⟨-, ⟨w, hcr, hrel, -⟩ | ⟨-, hrel⟩⟩ := he
    · have hdw : w.paths.Nodup := hrel.paths ▸ hd'
      have hq : w.queue = v.queue := by rw [hcr.rest]
      refine h.congr ?_ fun q => (hrel.written hdw q).trans (hcr.written hd hdw q)
      obtain ⟨g, -, rfl⟩ := hrel
      exact hq
    · exact h.congr (by obtain ⟨g, -, rfl⟩ := hrel; rfl) (hrel.written hd)
  | replace p q => simp [hdeed, KeepsOrder] at hc
  | discard p f =>
    simp only [hdeed] at he hc hwrote
    obtain ⟨-, rfl, -⟩ := he
    rw [hwrote]
    exact h.discard hc
  | write p f body =>
    simp only [hdeed] at he hc hdue hwrote
    obtain ⟨w, qs, hev, hfin⟩ := he
    obtain ⟨hok, hn⟩ := hc
    obtain ⟨hfin, hr⟩ : w.Finished fail p (f.wrote body) v' ∧ r = some ⟨.success, []⟩ :=
      hfin.resolve_right fun hx => hok hx.1
    rw [← hev.eq_victims hd] at hn
    rw [hwrote, if_pos hr]
    cases hdue with
    | @write clientFd req _ _ _ _ _ hf _ _ hfresh =>
      have hw := Queued.evicts hev hd h hn
      have hdw := hev.within.nodup hd
      have hp : w.written p = false := by
        cases hg : w.get p with
        | none => simp [written, hg]
        | some g =>
          obtain rfl : f = g := Option.some.inj (hf.symm.trans (hev.within.get hd hg))
          simp [written, hg, hfresh]
      refine hw.push hp (hfin.queue.resolve_right fun hx => hok hx.1) fun q => ?_
      exact hfin.written hdw hd' (get_eq_some hf).2 (by simp [File.wrote]) (fun hx => absurd hx hok) q
  | append p f body =>
    simp only [hdeed] at he hdue hwrote
    obtain ⟨-, hfin⟩ := he
    rw [hwrote]
    have hf : v.get p = some f := get_of_target (by rw [hdeed]; rfl)
    rcases hfin with ⟨rfl, -⟩ | ⟨-, rfl, -⟩
    · exact h.congr rfl (written_put hd hf rfl rfl)
    · exact h.congr rfl (written_put hd hf rfl rfl)

end Catalog

/-- The calls without a fault that keep the queue, from the state they start in. -/
def OrderedStep (s : Server) (x : Step) : Prop :=
  s.Faultless x ∧ s.storage.catalog.KeepsOrder (false ∈ x.env) (s.storage.catalog.deed x.call)

instance (s : Server) (x : Step) : Decidable (OrderedStep s x) :=
  inferInstanceAs (Decidable (_ ∧ _))

theorem Initial.queued {s : Server} (hi : s.Initial) : s.storage.catalog.Queued [] := by
  obtain ⟨maxSize, maxFiles, n, -, -, hcat⟩ := hi.catalog
  rw [hcat]
  exact ⟨rfl, List.nodup_nil, by simp [Catalog.written, Catalog.get]⟩

theorem Run.queued {s t : Server} {h : List Record} (hi : s.Initial) (hr : Run OrderedStep s h t) :
    t.storage.Sound ∧ t.storage.catalog.Queued (writeOrder h) := by
  refine Run.invariant
    (I := fun h t => t.storage.Sound ∧ t.storage.catalog.Queued (writeOrder h))
    ⟨hi.sound, Initial.queued hi⟩ ?_ hr
  intro h t x r w ⟨hs, hq⟩ hc he
  obtain ⟨hs', heff⟩ := Server.exec_done hs he
  rw [writeOrder_snoc]
  exact ⟨hs', hq.step hs.nodup hs'.nodup hc.2 heff⟩

/-- In a run of such calls the queue lists the written files, each once, in the order of their
last writes. -/
theorem fifoQueue_eq_written {s t : Server} {h : List Record} (hi : s.Initial)
    (hr : Run OrderedStep s h t) :
    t.storage.fifoQueue.map PathPtr.path = (writeOrder h).filter t.storage.catalog.written ∧
      (t.storage.fifoQueue.map PathPtr.path).Nodup ∧
      ∀ p, p ∈ t.storage.fifoQueue.map PathPtr.path ↔
        ∃ i, t.storage.get p = some i ∧ chkFlag (t.storage.heap i).flags oCreate = false := by
  obtain ⟨hs, hq⟩ := Run.queued hi hr
  refine ⟨hq.queue, hq.nodup_queue, fun p => (hq.mem_iff).trans ?_⟩
  rw [Catalog.written_iff]
  constructor
  · rintro ⟨f, hf, hc⟩
    obtain ⟨i, hi, rfl⟩ := hs.get_of_catalog hf
    exact ⟨i, hi, hc⟩
  · rintro ⟨i, hi, hc⟩
    exact ⟨_, hs.catalog_get hi, hc⟩

theorem fifoQueue_eq_written_eviction : ∃ s h t, s.Initial ∧ Run OrderedStep s h t ∧
    h.map Record.step = [.openFile 5 (slash 'a') 6, .writeFile 5 (slash 'a') [1, 2],
      .openFile 5 (slash 'b') 6, .writeFile 5 (slash 'b') [3, 4, 5]] ∧
    t.storage.fifoQueue.map PathPtr.path = [slash 'b'] ∧
    t.storage.fifoQueue.map PathPtr.path = (writeOrder h).filter t.storage.catalog.written := by
  obtain ⟨s, h, t, hi, hr, hx, hp⟩ := Server.exists_run OrderedStep 4 3
    [.openFile 5 (slash 'a') 6, .writeFile 5 (slash 'a') [1, 2],
      .openFile 5 (slash 'b') 6, .writeFile 5 (slash 'b') [3, 4, 5]]
    (fun _ _ t => t.storage.fifoQueue.map PathPtr.path = [slash 'b']) (by decide) (by decide)
  exact ⟨s, h, t, hi, hr, hx, by simpa using hp, (fifoQueue_eq_written hi hr).1⟩

/-- An open at the limit of files dequeues a victim that then stays in the table. -/
theorem fifoQueue_misses_victim : ∃ s h t, s.Initial ∧ Run anyStep s h t ∧
    h.map Record.step = [.openFile 5 (slash 'a') 6, .writeFile 5 (slash 'a') [1],
      .openFile 5 (slash 'b') 6] ∧
    slash 'a' ∉ t.storage.fifoQueue.map PathPtr.path ∧
    ∃ i, t.storage.get (slash 'a') = some i ∧
      chkFlag (t.storage.heap i).flags oCreate = false := by
  obtain ⟨s, h, t, hi, hr, hx, hp⟩ := Server.exists_run anyStep 4 1
    [.openFile 5 (slash 'a') 6, .writeFile 5 (slash 'a') [1], .openFile 5 (slash 'b') 6]
    (fun _ _ t => slash 'a' ∉ t.storage.fifoQueue.map PathPtr.path ∧
      (t.storage.get (slash 'a')).any fun i => !chkFlag (t.storage.heap i).flags oCreate)
    (by decide) (by decide)
  rw [decide_eq_true_eq] at hp
  obtain ⟨i, hg, hc⟩ := (Option.any_eq_true _ _).mp hp.2
  exact ⟨s, h, t, hi, hr, hx, hp.1, i, hg, by simpa using hc⟩

end FileStorage
