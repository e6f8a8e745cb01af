import FileStorage.Runs

/-! Runs of the hash table on its own. A key that is inserted is found with its value; a key that
is removed takes its bucket along. -/

namespace FileStorage

open Prog

section Calls

variable {κ ν : Type} [DecidableEq κ] {hash : κ → Nat} {m : HashMap κ ν}

/-- `hash_map_insert` with its result. `allocated` answers the request for an entry, which is made
when no entry has the key. -/
def hashMapInsertCall (hash : κ → Nat) (m : HashMap κ ν) (k : κ) (v : ν) (allocated : Bool) :
    Int × HashMap κ ν :=
  if (findEntry k (m.chain (m.slot hash k))).isSome ∨ allocated then (0, hashMapInsert hash m k v)
  else (-1, m)

/-- `hash_map_remove` with its result. -/
def hashMapRemoveCall (hash : κ → Nat) (m : HashMap κ ν) (k : κ) : Int × HashMap κ ν :=
  if (findEntry k (m.chain (m.slot hash k))).isSome then (0, hashMapRemove hash m k) else (-1, m)

theorem findEntry_isSome (k : κ) :
    (findEntry k (m.chain (m.slot hash k))).isSome = (hashMapGet hash m k).isSome := by
  simp [hashMapGet]

theorem hashMapInsertCall_zero {k : κ} {v : ν} {allocated : Bool}
    (h : (hashMapInsertCall hash m k v allocated).1 = 0) :
    (hashMapInsertCall hash m k v allocated).2 = hashMapInsert hash m k v := by
  unfold hashMapInsertCall at h ⊢
  split at h
  · rw [if_pos ‹_›]
  · simp at h

theorem hashMapRemoveCall_present {k : κ} (h : (hashMapGet hash m k).isSome = true) :
    hashMapRemoveCall hash m k = (0, hashMapRemove hash m k) := by
  rw [hashMapRemoveCall, findEntry_isSome, if_pos h]

theorem hashMapRemoveCall_absent {k : κ} (h : hashMapGet hash m k = none) :
    hashMapRemoveCall hash m k = (-1, m) := by
  rw [hashMapRemoveCall, findEntry_isSome, h, if_neg (by simp)]

/-! ### Lookups after one call -/

theorem HashMap.Placed.get_insert (hp : m.Placed hash) (hn : 0 < m.nBuckets) (k k' : κ) (v : ν) :
    hashMapGet hash (hashMapInsert hash m k v) k' =
      if k' = k then some v else hashMapGet hash m k' := by
  have hp' := hp.insert hn k v
  apply Option.ext
  intro u
  rw [hp'.get_eq_some_iff]
  cases hg : hashMapGet hash m k with
  | none =>
    have habs := hp.get_eq_none_iff.mp hg
    rw [(hp.entries_insert_perm hn hg).mem_iff, List.mem_cons]
    by_cases hk : k' = k
    · subst hk
      rw [if_pos rfl]
      constructor
      · rintro (he | he)
        · cases he
          rfl
        · exact absurd rfl (habs _ he)
      · intro he
        exact .inl (by rw [Option.some.inj he])
    · rw [if_neg hk, hp.get_eq_some_iff]
      simp [hk]
  | some w =>
    rw [hp.entries_insert_of_mem hn (by simp [hg]), List.mem_map]
    have hm := hp.get_eq_some_iff.mp hg
    by_cases hk : k' = k
    · subst hk
      rw [if_pos rfl]
      constructor
      · rintro ⟨e, -, he⟩
        have hke : e.key = k' := by rw [← setValue_key k' v e, he]
        rw [setValue, if_pos hke] at he
        exact congrArg (fun e : HashMapEntry κ ν => some e.value) he
      · intro he
        refine ⟨_, hm, ?_⟩
        rw [setValue, if_pos rfl, Option.some.inj he]
    · rw [if_neg hk, hp.get_eq_some_iff]
      constructor
      · rintro ⟨e, he, hs⟩
        have hke : e.key ≠ k := by rw [← setValue_key k v e, hs]; exact hk
        rw [setValue, if_neg hke] at hs
        exact hs ▸ he
      · intro he
        exact ⟨_, he, if_neg hk⟩

theorem HashMap.Placed.get_remove (hp : m.Placed hash) (hn : 0 < m.nBuckets) (k k' : κ) :
    hashMapGet hash (hashMapRemove hash m k) k' =
      if m.slot hash k' = m.slot hash k then none else hashMapGet hash m k' := by
  have hp' := hp.remove hn k
  apply Option.ext
  intro u
  rw [hp'.get_eq_some_iff, hp.entries_remove hn, List.mem_filter]
  by_cases hk : m.slot hash k' = m.slot hash k
  · simp [hk]
  · simp [hk, hp.get_eq_some_iff]

end Calls

/-! ### Runs -/

section Reachable

variable {κ V : Type} [DecidableEq κ] {hash : κ → Nat}

/-- The tables that `hash_map_create` and then insertions and removals lead to. A value is a
pointer, `none` being NULL. -/
inductive HashMap.Reachable (hash : κ → Nat) (n : Int) : HashMap κ (Option V) → Prop
  | create {m : HashMap κ (Option V)} (h : hashMapCreate n = some m) : Reachable hash n m
  | insert {m : HashMap κ (Option V)} (h : Reachable hash n m) (k : κ) (v : Option V)
      (allocated : Bool) : Reachable hash n (hashMapInsertCall hash m k v allocated).2
  | remove {m : HashMap κ (Option V)} (h : Reachable hash n m) (k : κ) :
      Reachable hash n (hashMapRemoveCall hash m k).2

/-- `hash_map_get`: NULL for a key that is not there. -/
def hashMapGetCall (hash : κ → Nat) (m : HashMap κ (Option V)) (k : κ) : Option V :=
  (hashMapGet hash m k).join

omit [DecidableEq κ] in
theorem hashMapCreate_placed {ν : Type} {n : Int} {m : HashMap κ ν} (h : hashMapCreate n = some m) :
    m.Placed hash ∧ (m.nBuckets : Int) = n := by
  unfold hashMapCreate at h
  split at h
  · cases h
  · cases h
    refine ⟨⟨by simp, fun i e he => ?_, by simp [HashMap.entries]⟩, ?_⟩
    · simp only [HashMap.chain, List.getD_eq_getElem?_getD, List.getElem?_replicate] at he
      split at he <;> simp at he
    · show ((n.toNat : Nat) : Int) = n
      omega

theorem HashMap.Reachable.placed {n : Int} {m : HashMap κ (Option V)} (hn : 0 < n)
    (hr : HashMap.Reachable hash n m) : m.Placed hash ∧ (m.nBuckets : Int) = n := by
  induction hr with
  | create h => exact hashMapCreate_placed h
  | insert h k v allocated ih =>
    obtain ⟨hp, hb⟩ := ih
    unfold hashMapInsertCall
    split
    · exact ⟨hp.insert (by omega) k v, hb⟩
    · exact ⟨hp, hb⟩
  | remove h k ih =>
    obtain ⟨hp, hb⟩ := ih
    unfold hashMapRemoveCall
    split
    · exact ⟨hp.remove (by omega) k, hb⟩
    · exact ⟨hp, hb⟩

/-- `hash_map_insert` sets one key and leaves the others. -/
theorem hashMapInsert_updates {n : Int} (hn : 0 < n) {m : HashMap Path (Option V)}
    (hr : HashMap.Reachable stringHash n m) :
    (∀ i, ∀ e ∈ m.chain i, stringHash e.key % n.toNat = i) ∧
      (m.entries.map HashMapEntry.key).Nodup ∧
      ∀ k v allocated, (hashMapInsertCall stringHash m k (some v) allocated).1 = 0 →
        hashMapGetCall stringHash (hashMapInsertCall stringHash m k (some v) allocated).2 k = some v ∧
        ∀ k' ≠ k, hashMapGetCall stringHash (hashMapInsertCall stringHash m k (some v) allocated).2 k' =
          hashMapGetCall stringHash m k' := by
  obtain ⟨hp, hb⟩ := hr.placed hn
  have hpos : 0 < m.nBuckets := by omega
  refine ⟨fun i e he => ?_, hp.distinct, fun k v allocated h0 => ?_⟩
  · rw [← hp.placed i e he, HashMap.slot, ← hb, Int.toNat_natCast]
  · rw [hashMapInsertCall_zero h0]
    refine ⟨?_, fun k' hk => ?_⟩
    · rw [hashMapGetCall, hp.get_insert hpos, if_pos rfl]
      rfl
    · rw [hashMapGetCall, hp.get_insert hpos, if_neg hk]
      rfl

/-- `hash_map_remove` of `k` takes `k` out, if it is there, and leaves the other keys. -/
def HashMap.RemovesOne (hash : κ → Nat) (m : HashMap κ (Option V)) (k : κ) : Prop :=
  if (hashMapGet hash m k).isSome then
    (hashMapRemoveCall hash m k).1 = 0 ∧ hashMapGetCall hash (hashMapRemoveCall hash m k).2 k = none ∧
      ∀ k' ≠ k, hashMapGetCall hash (hashMapRemoveCall hash m k).2 k' = hashMapGetCall hash m k'
  else
    (hashMapRemoveCall hash m k).1 = -1 ∧
      ∀ k', hashMapGetCall hash (hashMapRemoveCall hash m k).2 k' = hashMapGetCall hash m k'

/-- The other keys that share the bucket of `k` lead to no value. -/
def HashMap.Alone (hash : κ → Nat) (m : HashMap κ (Option V)) (k : κ) : Prop :=
  ∀ k' ≠ k, m.slot hash k' = m.slot hash k → hashMapGetCall hash m k' = none

/-- `hash_map_remove` takes out one key if no other value lies in its bucket. -/
theorem hashMapRemove_removesOne_iff {n : Int} (hn : 0 < n) {m : HashMap Path (Option V)}
    (hr : HashMap.Reachable stringHash n m) (k : Path) :
    m.RemovesOne stringHash k ↔ (hashMapGet stringHash m k).isSome = true → m.Alone stringHash k := by
  obtain ⟨hp, hb⟩ := hr.placed hn
  have hpos : 0 < m.nBuckets := by omega
  unfold HashMap.RemovesOne
  by_cases hk : (hashMapGet stringHash m k).isSome = true
  · rw [if_pos hk, hashMapRemoveCall_present hk]
    simp only [hk, forall_const, true_and]
    have hget : ∀ k', hashMapGetCall stringHash (hashMapRemove stringHash m k) k' =
        if m.slot stringHash k' = m.slot stringHash k then none
        else hashMapGetCall stringHash m k' := by
      intro k'
      rw [hashMapGetCall, hp.get_remove hpos]
      split <;> rfl
    constructor
    · rintro ⟨-, hrest⟩ k' hne hs
      rw [← hrest k' hne, hget, if_pos hs]
    · intro ha
      refine ⟨by rw [hget, if_pos rfl], fun k' hne => ?_⟩
      rw [hget]
      split
      · rw [ha k' hne ‹_›]
      · rfl
  · rw [if_neg hk, hashMapRemoveCall_absent (by simpa using hk)]
    simp [hk]

/-- The table with the values 1 and 2 under `/a` and `/b`. -/
def smallTable (n : Int) : HashMap Path (Option Nat) :=
  let m : HashMap Path (Option Nat) := (hashMapCreate n).getD ⟨0, 0, []⟩
  let m := (hashMapInsertCall stringHash m (slash 'a') (some 1) true).2
  (hashMapInsertCall stringHash m (slash 'b') (some 2) true).2

theorem smallTable_reachable {n : Int} (hn : 0 ≤ n) :
    HashMap.Reachable stringHash n (smallTable n) := by
  have hc : hashMapCreate n = some ((hashMapCreate n).getD (⟨0, 0, []⟩ : HashMap Path (Option Nat))) := by
    rw [hashMapCreate, if_neg (by omega)]
    rfl
  exact .insert (.insert (.create hc) _ _ _) _ _ _

/-- Two keys in one bucket, the second of which is given a new value. -/
theorem hashMapInsert_updates_collision :
    hashMapGetCall stringHash (hashMapInsertCall stringHash (smallTable 1) (slash 'b') (some 3) false).2
        (slash 'b') = some 3 ∧
      hashMapGetCall stringHash (hashMapInsertCall stringHash (smallTable 1) (slash 'b') (some 3) false).2
        (slash 'a') = some 1 := by
  obtain ⟨hb, ha⟩ := (hashMapInsert_updates (by decide) (smallTable_reachable (n := 1) (by decide))).2.2
    (slash 'b') 3 false (by decide)
  exact ⟨hb, (ha (slash 'a') (by decide)).trans (by decide)⟩

/-- Two keys in buckets of their own. -/
theorem hashMapRemove_removesOne_apart :
    (smallTable 2).RemovesOne stringHash (slash 'a') := by
  have hr := smallTable_reachable (n := 2) (by decide)
  refine (hashMapRemove_removesOne_iff (by decide) hr (slash 'a')).mpr fun _ k' hk hs => ?_
  obtain ⟨hp, -⟩ := hr.placed (by decide)
  rw [hashMapGetCall, hp.get_eq_none_iff.mpr, Option.join_none]
  rintro e he rfl
  have hm : e = ⟨slash 'b', some 2⟩ ∨ e = ⟨slash 'a', some 1⟩ := by
    have : (smallTable 2).entries = [⟨slash 'b', some 2⟩, ⟨slash 'a', some 1⟩] := by decide
    simpa [this] using he
  rcases hm with rfl | rfl
  · exact absurd hs (by decide)
  · exact hk rfl

/-- Two keys in one bucket. -/
theorem not_hashMapRemove_removesOne :
    ¬∀ n : Int, 0 < n → ∀ m : HashMap Path (Option Nat), HashMap.Reachable stringHash n m →
      ∀ k, m.RemovesOne stringHash k := by
  intro h
  have h1 := h 1 (by decide) _ (smallTable_reachable (by decide)) (slash 'a')
  rw [HashMap.RemovesOne, if_pos (by decide)] at h1
  exact absurd (h1.2.2 (slash 'b') (by decide)) (by decide)

end Reachable

/-! ### The calls of the storage -/

section Storage

variable {ok : Bool → Prop} {w : StorageWorld}

theorem returns_filesInsert_call (i : FileId) :
    (filesInsert i).returns ok (fun b w' => ∃ allocated,
      hashMapInsertCall stringHash w.state.files (w.state.heap i).path i allocated =
        (if b then 0 else -1, w'.state.files)) w := by
  simp only [filesInsert, bind_eq, pure_eq, returns_bind, returns_load]
  refine returns_storageGetFile fun _ => ?_
  simp only [World.accessed_state, id, Storage.find_some]
  cases hg : w.state.get (w.state.heap i).path with
  | some j =>
    simp only [returns_bind, returns_modify, returns_ret]
    refine ⟨true, ?_⟩
    rw [hashMapInsertCall, if_pos (.inr rfl)]
    rfl
  | none =>
    simp only [returns_bind, returns_alloc, returns_ite, returns_modify, returns_ret]
    refine fun b _ => ⟨?_, ?_⟩
    · rintro rfl
      refine ⟨true, ?_⟩
      rw [hashMapInsertCall, if_pos (.inr rfl)]
      rfl
    · intro hb
      refine ⟨false, ?_⟩
      have hf : (hashMapGet stringHash w.state.files (w.state.heap i).path).isSome = false := by
        rw [show hashMapGet stringHash w.state.files (w.state.heap i).path = none from hg]
        rfl
      rw [hashMapInsertCall, findEntry_isSome, hf, if_neg (by simp)]
      rfl

theorem returns_filesRemove_call (p : Path) :
    (filesRemove p).returns ok (fun b w' => hashMapRemoveCall stringHash w.state.files p =
      (if b then 0 else -1, w'.state.files)) w := by
  apply returns_filesRemove
  · intro hg _ w' hw
    rw [hw.state, hashMapRemoveCall_absent hg]
    rfl
  · intro i hg _ w' hw
    rw [hw.state, hashMapRemoveCall_present]
    · rfl
    · rw [show hashMapGet stringHash w.state.files p = some i from hg]
      rfl

end Storage

end FileStorage
