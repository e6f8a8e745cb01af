import FileStorage.Appending
import FileStorage.Removal
import FileStorage.Waiting

/-! One pass of the lock manager. It walks the queue up to the first path that is missing from the
table, and the files it comes by are served. -/

namespace FileStorage

open Prog

/-- The response of the lock manager that is due for a file. -/
def File.grant (f : File) : Option (Int × Response) :=
  f.grantee.map fun c => grantMessage c f.path

theorem File.grantee_granted (f : File) : f.granted.grantee = none := by
  rcases hw : f.waitingOnLock with _ | _ | ⟨c, waiting⟩
  · simp [granted, grantee, hw]
  · simp [granted, grantee, hw]
  · by_cases hl : chkFlag f.flags oLock = false
    · simp [granted, grantee, hw, hl, locked]
    · simp [granted, grantee, hw, hl]

theorem File.granted_of_none {f : File} (h : f.grantee = none) : f.granted = f := by
  rcases hw : f.waitingOnLock with _ | _ | ⟨c, waiting⟩
  · simp [granted, hw]
  · simp [granted, hw]
  · have hl : ¬chkFlag f.flags oLock = false := fun hl => by simp [grantee, hw, hl] at h
    simp [granted, hw, hl]

namespace Catalog

variable {v : Catalog} {p : Path} {f : File}

/-- The responses due for the files of some paths. -/
def grants (v : Catalog) (visited : List Path) : List (Int × Response) :=
  v.stored.filterMap fun f => if f.path ∈ visited then f.grant else none

theorem grants_eq_all {visited : List Path}
    (h : ∀ f ∈ v.stored, f.grantee ≠ none → f.path ∈ visited) :
    v.grants visited = v.stored.filterMap File.grant := by
  refine List.filterMap_congr fun f hf => ?_
  by_cases hp : f.path ∈ visited
  · rw [if_pos hp]
  · have hn : f.grantee = none := by
      by_contra hne
      exact hp (h f hf hne)
    rw [if_neg hp, File.grant, hn, Option.map_none]

/-- The file of `p` is served, and then those of the other paths. -/
theorem grants_granted (hd : v.paths.Nodup) (hf : v.get p = some f) (visited : List Path) :
    (f.grant.toList ++ (v.put p f.granted).grants visited).Perm (v.grants (p :: visited)) := by
  obtain ⟨hm, hp⟩ := get_eq_some hf
  let others := v.stored.filter fun g => g.path ≠ p
  have hself : v.stored.map (putFile p f) = v.stored := by
    rw [List.map_congr_left fun g hg => show putFile p f g = id g from ?_, List.map_id]
    by_cases hgp : g.path = p
    · rw [putFile, if_pos hgp, List.inj_on_of_nodup_map hd hg hm (hgp.trans hp.symm), id]
    · rw [putFile, if_neg hgp, id]
  have hold : v.stored.Perm (f :: others) := by
    have hperm := map_putFile_perm (g := f) hd hm hp
    rwa [hself] at hperm
  have hnew : (v.put p f.granted).stored.Perm (f.granted :: others) := map_putFile_perm hd hm hp
  have hnone : (if f.granted.path ∈ visited then f.granted.grant else none) = none := by
    rw [File.grant, f.grantee_granted, Option.map_none, ite_self]
  have hothers : (others.filterMap fun g => if g.path ∈ p :: visited then g.grant else none) =
      others.filterMap fun g => if g.path ∈ visited then g.grant else none := by
    refine List.filterMap_congr fun g hg => ?_
    have hne : g.path ≠ p := by simpa using (List.mem_filter.mp hg).2
    simp only [List.mem_cons, hne, false_or]
  have hfirst : (if f.path ∈ p :: visited then f.grant else none) = f.grant := by
    rw [if_pos (hp ▸ List.mem_cons_self)]
  have h1 := hold.filterMap fun g => if g.path ∈ p :: visited then g.grant else none
  have h2 := hnew.filterMap fun g => if g.path ∈ visited then g.grant else none
  rw [List.filterMap_cons, hfirst, hothers] at h1
  rw [List.filterMap_cons, hnone] at h2
  refine (List.Perm.append_left _ h2).trans ?_
  refine List.Perm.trans (List.Perm.of_eq ?_) h1.symm
  cases f.grant <;> rfl

end Catalog

section Pass

variable {ok : Bool → Prop} {w : StorageWorld}

/-- Where no send fails, the files on the way get their responses. -/
theorem returns_lockManagerVisit_grants (hok : ¬ok false) {queue : List PathPtr}
    (hs : w.state.Sound) (hc : ∀ f ∈ w.state.catalog.stored, f.Coherent) :
    (lockManagerVisit queue).returns ok (fun _ w' => w'.sent.Perm (w.sent ++
      w.state.catalog.grants (w.state.catalog.visits (queue.map PathPtr.path)))) w := by
  induction queue generalizing w with
  | nil =>
    refine returns_ret.mpr (List.Perm.of_eq ?_)
    simp [Catalog.grants, Catalog.visits]
  | cons curr rest ih =>
    simp only [lockManagerVisit, bind_eq, returns_bind]
    refine returns_storageGetFile fun _ => ?_
    cases hg : w.state.find (some curr.path) with
    | none =>
      refine returns_ret.mpr (List.Perm.of_eq ?_)
      rw [List.map_cons, Catalog.visits_cons_of_absent (hs.catalog_get_none hg)]
      simp [Catalog.grants, World.accessed]
    | some i =>
      have hf := hs.catalog_get hg
      have hcoh : (w.state.heap i).Coherent := hc _ (hs.get_mem hg).1
      simp only [returns_bind, returns_load]
      refine returns.mono (returns.and (returns_lockManagerGrant hs hg rfl)
        (returns_lockManagerGrant_sent hok hcoh)) fun _ w1 h => ?_
      obtain ⟨h1, hsent⟩ := h
      have hr : Relocked (Catalog.onPath (some curr.path) File.granted) w w1 :=
        h1.before rfl (by simp)
      have hcat := hr.catalog.trans (Catalog.relabel_onPath_get hs.nodup hf File.granted)
      have hvisits : w1.state.catalog.visits (rest.map PathPtr.path) =
          w.state.catalog.visits (rest.map PathPtr.path) := by
        rw [hr.catalog]
        exact Catalog.visits_relabel (fun f _ =>
          Catalog.sameData_onPath (some curr.path) File.sameData_granted f) _
      have hc1 : ∀ f ∈ w1.state.catalog.stored, f.Coherent := by
        rw [hr.catalog]
        intro f hf
        obtain ⟨g, hgm, rfl⟩ := List.mem_map.mp hf
        unfold Catalog.onPath
        split
        · exact (hc g hgm).granted
        · exact hc g hgm
      have hgrant : w1.sent = w.sent ++ (w.state.heap i).grant.toList := by
        have hmap : ((w.state.heap i).grantee.map fun c => grantMessage c (w.state.heap i).path).toList =
            (w.state.heap i).grantee.toList.map fun c => grantMessage c (w.state.heap i).path := by
          cases (w.state.heap i).grantee <;> rfl
        rw [File.grant, hmap]
        exact hsent
      refine (ih h1.sound hc1).mono fun _ w' h => h.trans ?_
      rw [hvisits, hgrant, hcat, List.append_assoc, List.map_cons,
        Catalog.visits_cons_of_get hf]
      exact (Catalog.grants_granted hs.nodup hf _).append_left _

theorem returns_lockManagerPass_grants (hok : ¬ok false) (hs : w.state.Sound)
    (hc : ∀ f ∈ w.state.catalog.stored, f.Coherent) :
    lockManagerPass.returns ok (fun _ w' => w'.sent.Perm (w.sent ++
      w.state.catalog.grants (w.state.catalog.visits w.state.catalog.queue))) w := by
  simp only [lockManagerPass, bind_eq, returns_bind, returns_lockReturn, returns_read]
  intro _
  refine (returns_lockManagerVisit_grants hok (w := w.locked.accessed _ id) hs hc).mono
    fun _ w1 h => ?_
  rw [returns_unlockReturn]
  exact h

/-! ### A pass comes to its end -/

theorem attains_lockManagerGrant {p : Path} {i : FileId} {f : File} (hs : w.state.Sound)
    (hg : w.state.get p = some i) (hf : w.state.heap i = f) :
    (lockManagerGrant i f).attains ok (fun _ _ => True) w := by
  have hp : f.path = p := hf ▸ (hs.get_mem hg).2
  unfold lockManagerGrant
  split
  · rename_i c waiting hw
    simp only [whenever, bind_eq, pure_eq, attains_ite, attains_bind, attains_store, attains_ret,
      implies_true, and_true]
    intro _
    refine (attains_storageUpdateFile
      (f := { (f.locked c) with waitingOnLock := some waiting }) hs hg hp ?_).mono fun _ _ _ => ?_
    · simp [Storage.setFile_setFile, hf, File.locked]
    · rw [sendResponse, attains_ite]
      exact ⟨fun _ => attains_ret.mpr trivial, fun _ => attains_sendMsg.mpr fun _ _ => trivial⟩
  · exact attains_ret.mpr trivial

theorem attains_lockManagerVisit {queue : List PathPtr} (hs : w.state.Sound)
    (hn : w.state.files.nBuckets ≠ 0) :
    (lockManagerVisit queue).attains ok (fun _ _ => True) w := by
  induction queue generalizing w with
  | nil => exact attains_ret.mpr trivial
  | cons curr rest ih =>
    simp only [lockManagerVisit, bind_eq, attains_bind]
    cases hg : w.state.get curr.path with
    | none =>
      rw [storageGetFile, attains_access, if_neg hn]
      simp only [hg, attains_ret]
      exact attains_ret.mpr trivial
    | some i =>
      refine attains_storageGetFile hs hg ?_
      simp only [attains_bind, attains_load]
      let w1 : StorageWorld := (w.accessed (lookupAccesses (some curr.path)) id).accessed
        (fun _ => [Field.path, Field.flags, Field.waitingOnLock].map (.readField i)) id
      have hlive : (lockManagerGrant i (w.state.heap i)).attains ok (fun _ _ => True) w1 :=
        attains_lockManagerGrant hs hg rfl
      have hgrant := hlive.and_returns (returns_lockManagerGrant hs hg rfl)
      refine hgrant.mono fun _ w2 h => ih h.2.sound fun h0 => hn ?_
      have hcat : w2.state.catalog.nBuckets = w.state.catalog.nBuckets := by
        rw [h.2.catalog]
        rfl
      exact hcat.symm.trans h0

theorem attains_lockManagerPass (hs : w.state.Sound) (hn : w.state.files.nBuckets ≠ 0)
    (hw : w.held = false) : lockManagerPass.attains ok (fun _ _ => True) w := by
  simp only [lockManagerPass, bind_eq, attains_bind, attains_lockReturn, attains_read]
  refine ⟨hw, (attains_lockManagerVisit (w := w.locked.accessed _ id) hs hn).mono fun _ _ _ => ?_⟩
  exact attains_unlockReturn.mpr trivial

end Pass

namespace Storage

/-- After one pass no file is unlocked while clients wait for it. A file that was has gone to the
first of them, who has left the list and has got the one response that is sent for the file (if no
send fails); the other files are as they were. -/
def ServesWaiters (s : Storage) : Prop :=
  ∀ env (w w' : StorageWorld) env', w.state = s → lockManagerPass.run env w = (.done (), w', env') →
    (∀ f ∈ w'.state.stored, f.grantee = none) ∧
    (∀ p, w'.state.fileAt p = (s.fileAt p).map File.granted) ∧
    (false ∉ env → w'.sent.Perm (w.sent ++ s.stored.filterMap File.grant))

/-- Every file that is unlocked while clients wait for it comes in the queue before the first path
that is missing from the table. -/
def WaitersQueued (s : Storage) : Prop :=
  ∀ f ∈ s.stored, f.grantee ≠ none → f.path ∈ s.catalog.visits s.catalog.queue

instance (s : Storage) : Decidable s.WaitersQueued :=
  inferInstanceAs (Decidable (∀ f ∈ s.stored, f.grantee ≠ none → _))

theorem Sound.servesWaiters_iff {s : Storage} (hs : s.Sound) (hc : ∀ f ∈ s.stored, f.Coherent) :
    s.ServesWaiters ↔ s.WaitersQueued := by
  have hpass : ∀ env (w w' : StorageWorld) env', w.state = s →
      lockManagerPass.run env w = (.done (), w', env') → w'.state.Sound ∧
        w'.state.catalog = s.catalog.relabel fun f =>
          if f.path ∈ s.catalog.visits s.catalog.queue then f.granted else f := by
    rintro env w w' env' rfl hrun
    have hret : lockManagerPass.returns (fun _ => True) (fun _ w' => Relocked (fun f =>
        if f.path ∈ w.state.catalog.visits w.state.catalog.queue then f.granted else f) w w') w :=
      returns_lockManagerPass hs
    have h := hret.of_run hrun
    exact ⟨h.sound, h.catalog⟩
  constructor
  · intro h f hf hne
    by_contra hno
    have hn : s.files.nBuckets ≠ 0 := by
      obtain ⟨e, he, -⟩ := List.mem_map.mp hf
      exact Nat.ne_of_gt (hs.nBuckets_pos (hs.placed.get_eq_some_iff.mpr he))
    have hlive : lockManagerPass.attains (fun b => b = true) (fun _ _ => True) (World.init s) :=
      attains_lockManagerPass hs hn rfl
    obtain ⟨_, w', env', hrun, -⟩ := hlive.run_nil
    obtain ⟨hs', hcat⟩ := hpass _ _ _ _ rfl hrun
    have hmem : f ∈ w'.state.catalog.stored := by
      rw [hcat]
      refine List.mem_map.mpr ⟨f, hf, ?_⟩
      rw [if_neg hno]
    exact hne ((h _ _ _ _ rfl hrun).1 f hmem)
  · rintro hq env w w' env' rfl hrun
    obtain ⟨hs', hcat⟩ := hpass _ _ _ _ rfl hrun
    have hall : w'.state.catalog = w.state.catalog.relabel File.granted := by
      rw [hcat]
      refine Catalog.relabel_congr fun f hf => ?_
      split
      · rfl
      · have hnone : f.grantee = none := by
          by_contra hne
          exact ‹¬_› (hq f hf hne)
        exact (File.granted_of_none hnone).symm
    refine ⟨fun f hf => ?_, fun p => ?_, fun henv => ?_⟩
    · have hmem : f ∈ w'.state.catalog.stored := hf
      rw [hall] at hmem
      obtain ⟨g, -, rfl⟩ := List.mem_map.mp hmem
      exact g.grantee_granted
    · rw [hs'.fileAt_eq, hs.fileAt_eq, hall]
      exact Catalog.get_relabel (fun f => f.sameData_granted.path) p
    · have hret : lockManagerPass.returns (fun b => b = true) (fun _ w' => w'.sent.Perm (w.sent ++
          w.state.catalog.grants (w.state.catalog.visits w.state.catalog.queue))) w :=
        returns_lockManagerPass_grants Bool.false_ne_true hs hc
      have hgrants := hret.of_run_true henv hrun
      rwa [Catalog.grants_eq_all (v := w.state.catalog) hq] at hgrants

end Storage

end FileStorage
