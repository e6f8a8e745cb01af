import Mathlib.Data.List.Basic
import Mathlib.Data.List.Nodup
import Mathlib.Data.List.Perm.Basic

/-! The chained hash table of `utils/hash_map.c`. A bucket is the list of the entries linked
from its slot. -/

namespace FileStorage

structure HashMapEntry (κ ν : Type) where
  key : κ
  value : ν
  deriving DecidableEq

structure HashMap (κ ν : Type) where
  nBuckets : Nat
  nEntries : Int
  buckets : List (List (HashMapEntry κ ν))
  deriving DecidableEq

section Operations

variable {κ ν : Type} [DecidableEq κ]

/-- `hash_map_create`: `calloc` refuses a negative number of slots, which it takes for a
huge one. -/
def hashMapCreate (nBuckets : Int) : Option (HashMap κ ν) :=
  if nBuckets < 0 then none
  else some ⟨nBuckets.toNat, 0, List.replicate nBuckets.toNat []⟩

namespace HashMap

def slot (hash : κ → Nat) (m : HashMap κ ν) (k : κ) : Nat := hash k % m.nBuckets

def chain (m : HashMap κ ν) (i : Nat) : List (HashMapEntry κ ν) := m.buckets.getD i []

def entries (m : HashMap κ ν) : List (HashMapEntry κ ν) := m.buckets.flatten

end HashMap

/-- The entry at which the walk along a chain stops. -/
def findEntry (k : κ) (c : List (HashMapEntry κ ν)) : Option (HashMapEntry κ ν) :=
  c.find? fun e => e.key = k

/-- The entries whose keys the walk along a chain compares. -/
def walked (k : κ) : List (HashMapEntry κ ν) → List (HashMapEntry κ ν)
  | [] => []
  | e :: c => if e.key = k then [e] else e :: walked k c

def replaceValue (k : κ) (v : ν) : List (HashMapEntry κ ν) → List (HashMapEntry κ ν)
  | [] => []
  | e :: c => if e.key = k then ⟨e.key, v⟩ :: c else e :: replaceValue k v c

def hashMapGet (hash : κ → Nat) (m : HashMap κ ν) (k : κ) : Option ν :=
  (findEntry k (m.chain (m.slot hash k))).map HashMapEntry.value

/-- `hash_map_insert` once its allocation, if it needs one, has succeeded. The counter grows
on a replacement too. -/
def hashMapInsert (hash : κ → Nat) (m : HashMap κ ν) (k : κ) (v : ν) : HashMap κ ν :=
  let c := m.chain (m.slot hash k)
  let c' := if (findEntry k c).isSome then replaceValue k v c else c ++ [⟨k, v⟩]
  { m with nEntries := m.nEntries + 1, buckets := m.buckets.set (m.slot hash k) c' }

/-- `hash_map_remove` on a key that is present. The walk leaves `prev` at the entry itself, so
the unlinking changes nothing; then the slot of the bucket is set to NULL. -/
def hashMapRemove (hash : κ → Nat) (m : HashMap κ ν) (k : κ) : HashMap κ ν :=
  { m with nEntries := m.nEntries - 1, buckets := m.buckets.set (m.slot hash k) [] }

end Operations

/-! ### Placement of the entries -/

section Placement

variable {κ ν : Type}

/-- Every entry lies in the bucket its key hashes to, and no two entries have equal keys. -/
structure HashMap.Placed (hash : κ → Nat) (m : HashMap κ ν) : Prop where
  slots : m.buckets.length = m.nBuckets
  placed : ∀ i, ∀ e ∈ m.chain i, m.slot hash e.key = i
  distinct : (m.entries.map HashMapEntry.key).Nodup

variable {hash : κ → Nat} {m : HashMap κ ν}

theorem chain_eq_getElem {i : Nat} (h : i < m.buckets.length) : m.chain i = m.buckets[i] := by
  simp [HashMap.chain, h]

theorem chain_eq_nil {i : Nat} (h : m.buckets.length ≤ i) : m.chain i = [] := by
  simp [HashMap.chain, h]

theorem mem_entries_iff {e : HashMapEntry κ ν} : e ∈ m.entries ↔ ∃ i, e ∈ m.chain i := by
  constructor
  · intro h
    obtain ⟨c, hc, he⟩ := List.mem_flatten.mp h
    obtain ⟨i, hi, rfl⟩ := List.getElem_of_mem hc
    exact ⟨i, by rwa [chain_eq_getElem hi]⟩
  · rintro ⟨i, he⟩
    by_cases hi : i < m.buckets.length
    · rw [chain_eq_getElem hi] at he
      exact List.mem_flatten.mpr ⟨_, List.getElem_mem hi, he⟩
    · rw [chain_eq_nil (by omega)] at he
      simp at he

/-- The table around one bucket whose chain is replaced. -/
theorem flatten_set {i : Nat} (h : i < m.buckets.length) (c : List (HashMapEntry κ ν)) :
    (m.buckets.set i c).flatten =
      (m.buckets.take i).flatten ++ c ++ (m.buckets.drop (i + 1)).flatten := by
  rw [List.set_eq_take_append_cons_drop, if_pos h]
  simp

theorem entries_split {i : Nat} (h : i < m.buckets.length) :
    m.entries = (m.buckets.take i).flatten ++ m.chain i ++ (m.buckets.drop (i + 1)).flatten := by
  rw [← flatten_set h, chain_eq_getElem h, List.set_getElem_self, HashMap.entries]

theorem HashMap.Placed.mem_chain_iff (hp : m.Placed hash) {e : HashMapEntry κ ν} :
    e ∈ m.chain (m.slot hash e.key) ↔ e ∈ m.entries := by
  rw [mem_entries_iff]
  refine ⟨fun h => ⟨_, h⟩, ?_⟩
  rintro ⟨i, h⟩
  rwa [hp.placed i e h]

theorem HashMap.Placed.eq_of_key_eq (hp : m.Placed hash) {e f : HashMapEntry κ ν}
    (he : e ∈ m.entries) (hf : f ∈ m.entries) (h : e.key = f.key) : e = f :=
  List.inj_on_of_nodup_map hp.distinct he hf h

theorem HashMap.Placed.slot_lt (hp : m.Placed hash) (hn : 0 < m.nBuckets) (k : κ) :
    m.slot hash k < m.buckets.length := by
  rw [hp.slots]
  exact Nat.mod_lt _ hn

/-- The entries outside the bucket of `k` are those before and after its chain. -/
theorem HashMap.Placed.outside (hp : m.Placed hash) {i : Nat} (h : i < m.buckets.length) :
    (∀ e ∈ (m.buckets.take i).flatten, m.slot hash e.key ≠ i) ∧
      ∀ e ∈ (m.buckets.drop (i + 1)).flatten, m.slot hash e.key ≠ i := by
  constructor
  · intro e he
    obtain ⟨c, hc, hm⟩ := List.mem_flatten.mp he
    obtain ⟨j, hj, rfl⟩ := List.mem_take_iff_getElem.mp hc
    have := hp.placed j e (by rwa [chain_eq_getElem (by omega)])
    omega
  · intro e he
    obtain ⟨c, hc, hm⟩ := List.mem_flatten.mp he
    obtain ⟨j, hj, rfl⟩ := List.mem_drop_iff_getElem.mp hc
    have := hp.placed (i + 1 + j) e (by rwa [chain_eq_getElem (by omega)])
    omega

end Placement

section Lookup

variable {κ ν : Type} [DecidableEq κ] {hash : κ → Nat} {m : HashMap κ ν}

theorem findEntry_eq_some {k : κ} {c : List (HashMapEntry κ ν)} {e : HashMapEntry κ ν}
    (h : findEntry k c = some e) : e ∈ c ∧ e.key = k :=
  ⟨List.mem_of_find?_eq_some h, by simpa using List.find?_some h⟩

theorem findEntry_eq_none {k : κ} {c : List (HashMapEntry κ ν)} :
    findEntry k c = none ↔ ∀ e ∈ c, e.key ≠ k := by
  simp [findEntry]

theorem HashMap.Placed.get_eq_some_iff (hp : m.Placed hash) {k : κ} {v : ν} :
    hashMapGet hash m k = some v ↔ ⟨k, v⟩ ∈ m.entries := by
  constructor
  · intro h
    obtain ⟨e, he, rfl⟩ := Option.map_eq_some_iff.mp h
    obtain ⟨hm, rfl⟩ := findEntry_eq_some he
    exact mem_entries_iff.mpr ⟨_, hm⟩
  · intro h
    have hc := hp.mem_chain_iff.mpr h
    cases hf : findEntry k (m.chain (m.slot hash k)) with
    | none => exact absurd rfl (findEntry_eq_none.mp hf _ hc)
    | some e =>
      obtain ⟨hm, hk⟩ := findEntry_eq_some hf
      have he := hp.eq_of_key_eq (mem_entries_iff.mpr ⟨_, hm⟩) h hk
      simp [hashMapGet, hf, he]

theorem HashMap.Placed.get_eq_none_iff (hp : m.Placed hash) {k : κ} :
    hashMapGet hash m k = none ↔ ∀ e ∈ m.entries, e.key ≠ k := by
  constructor
  · intro h e he hk
    have hs := hp.get_eq_some_iff.mpr (show (⟨k, e.value⟩ : HashMapEntry κ ν) ∈ m.entries from hk ▸ he)
    simp [h] at hs
  · intro h
    cases hg : hashMapGet hash m k with
    | none => rfl
    | some v => exact absurd rfl (h _ (hp.get_eq_some_iff.mp hg))

/-! ### What the operations do to the entries -/

def setValue (k : κ) (v : ν) (e : HashMapEntry κ ν) : HashMapEntry κ ν :=
  if e.key = k then ⟨e.key, v⟩ else e

@[simp] theorem setValue_key (k : κ) (v : ν) (e : HashMapEntry κ ν) :
    (setValue k v e).key = e.key := by
  unfold setValue
  split <;> rfl

theorem map_setValue_of_ne {k : κ} {v : ν} {c : List (HashMapEntry κ ν)}
    (h : ∀ e ∈ c, e.key ≠ k) : c.map (setValue k v) = c := by
  rw [List.map_congr_left fun e he => show setValue k v e = id e from if_neg (h e he), List.map_id]

theorem mem_replaceValue {k : κ} {v : ν} {c : List (HashMapEntry κ ν)} {e : HashMapEntry κ ν}
    (h : e ∈ replaceValue k v c) : ∃ f ∈ c, f.key = e.key := by
  induction c with
  | nil => simp [replaceValue] at h
  | cons f c ih =>
    by_cases hf : f.key = k
    · simp only [replaceValue, hf, if_true, List.mem_cons] at h
      rcases h with rfl | h
      · exact ⟨f, by simp, hf⟩
      · exact ⟨e, by simp [h], rfl⟩
    · simp only [replaceValue, hf, if_false, List.mem_cons] at h
      rcases h with rfl | h
      · exact ⟨e, by simp, rfl⟩
      · obtain ⟨g, hg, hk⟩ := ih h
        exact ⟨g, by simp [hg], hk⟩

theorem replaceValue_eq_map {k : κ} {v : ν} {c : List (HashMapEntry κ ν)}
    (h : (c.map HashMapEntry.key).Nodup) : replaceValue k v c = c.map (setValue k v) := by
  induction c with
  | nil => rfl
  | cons e c ih =>
    simp only [List.map_cons, List.nodup_cons, List.mem_map, not_exists, not_and] at h
    by_cases he : e.key = k
    · have hc : c.map (setValue k v) = c := map_setValue_of_ne fun f hf => he ▸ h.1 f hf
      simp [replaceValue, setValue, he, hc]
    · simp [replaceValue, setValue, he, ih h.2]

theorem HashMap.Placed.entries_insert_of_mem (hp : m.Placed hash) (hn : 0 < m.nBuckets) {k : κ}
    {v : ν} (h : (hashMapGet hash m k).isSome) :
    (hashMapInsert hash m k v).entries = m.entries.map (setValue k v) := by
  have hi := hp.slot_lt hn k
  have ho := hp.outside hi
  have hf : (findEntry k (m.chain (m.slot hash k))).isSome = true := by
    simpa [hashMapGet] using h
  have hd : ((m.chain (m.slot hash k)).map HashMapEntry.key).Nodup := by
    have := hp.distinct
    rw [entries_split hi] at this
    simp only [List.map_append, List.nodup_append] at this
    exact this.1.2.1
  have hne {e : HashMapEntry κ ν} (he : m.slot hash e.key ≠ m.slot hash k) : e.key ≠ k :=
    fun hk => he (by rw [hk])
  simp only [hashMapInsert, hf, if_true, HashMap.entries, flatten_set hi, replaceValue_eq_map hd]
  rw [show m.buckets.flatten = m.entries from rfl, entries_split hi, List.map_append,
    List.map_append, map_setValue_of_ne fun e he => hne (ho.1 e he),
    map_setValue_of_ne fun e he => hne (ho.2 e he)]

theorem HashMap.Placed.entries_insert_perm (hp : m.Placed hash) (hn : 0 < m.nBuckets) {k : κ}
    {v : ν} (h : hashMapGet hash m k = none) :
    (hashMapInsert hash m k v).entries.Perm (⟨k, v⟩ :: m.entries) := by
  have hi := hp.slot_lt hn k
  have hf : (findEntry k (m.chain (m.slot hash k))).isSome = false := by
    simpa [hashMapGet] using h
  simp only [hashMapInsert, hf, HashMap.entries, flatten_set hi]
  rw [show m.buckets.flatten = m.entries from rfl, entries_split hi]
  simpa only [Bool.false_eq_true, if_false, List.append_assoc, List.singleton_append] using
    @List.perm_middle _ ⟨k, v⟩ ((m.buckets.take (m.slot hash k)).flatten ++
      m.chain (m.slot hash k)) (m.buckets.drop (m.slot hash k + 1)).flatten

omit [DecidableEq κ] in
/-- The removal of one key clears its whole bucket. -/
theorem HashMap.Placed.entries_remove (hp : m.Placed hash) (hn : 0 < m.nBuckets) (k : κ) :
    (hashMapRemove hash m k).entries =
      m.entries.filter fun e => m.slot hash e.key ≠ m.slot hash k := by
  have hi := hp.slot_lt hn k
  have ho := hp.outside hi
  have hc : (m.chain (m.slot hash k)).filter (fun e => m.slot hash e.key ≠ m.slot hash k) = [] := by
    simpa using hp.placed _
  simp only [hashMapRemove, HashMap.entries, flatten_set hi]
  rw [show m.buckets.flatten = m.entries from rfl, entries_split hi, List.filter_append,
    List.filter_append, hc, List.filter_eq_self.mpr (by simpa using ho.1),
    List.filter_eq_self.mpr (by simpa using ho.2)]

theorem mem_chain_insert {k : κ} {v : ν} {i : Nat} {e : HashMapEntry κ ν}
    (h : e ∈ (hashMapInsert hash m k v).chain i) :
    (∃ f ∈ m.chain i, f.key = e.key) ∨ i = m.slot hash k ∧ e.key = k := by
  by_cases hi : m.slot hash k = i
  · subst hi
    by_cases hl : m.slot hash k < m.buckets.length
    · simp only [HashMap.chain, hashMapInsert, List.getD_eq_getElem?_getD,
        List.getElem?_set_self hl, Option.getD_some] at h
      split at h
      · exact .inl (mem_replaceValue h)
      · rcases List.mem_append.mp h with h | h
        · exact .inl ⟨e, by simpa [HashMap.chain] using h, rfl⟩
        · exact .inr ⟨rfl, by simp_all⟩
    · simp [HashMap.chain, hashMapInsert, hl] at h
  · refine .inl ⟨e, ?_, rfl⟩
    simpa [HashMap.chain, hashMapInsert, List.getElem?_set_ne hi] using h

theorem HashMap.Placed.insert (hp : m.Placed hash) (hn : 0 < m.nBuckets) (k : κ) (v : ν) :
    (hashMapInsert hash m k v).Placed hash where
  slots := by simp [hashMapInsert, hp.slots]
  placed := by
    intro i e he
    rcases mem_chain_insert he with ⟨f, hf, hk⟩ | ⟨rfl, hk⟩
    · rw [← hk]
      exact hp.placed i f hf
    · rw [hk]
      rfl
  distinct := by
    cases hg : hashMapGet hash m k with
    | none =>
      rw [((hp.entries_insert_perm hn hg).map _).nodup_iff, List.map_cons, List.nodup_cons]
      refine ⟨?_, hp.distinct⟩
      simpa using hp.get_eq_none_iff.mp hg
    | some u =>
      rw [hp.entries_insert_of_mem hn (by simp [hg]), List.map_map]
      simpa [Function.comp_def] using hp.distinct

omit [DecidableEq κ] in
theorem HashMap.Placed.remove (hp : m.Placed hash) (hn : 0 < m.nBuckets) (k : κ) :
    (hashMapRemove hash m k).Placed hash where
  slots := by simp [hashMapRemove, hp.slots]
  placed := by
    intro i e he
    by_cases hi : m.slot hash k = i
    · subst hi
      by_cases hl : m.slot hash k < m.buckets.length <;>
        simp [HashMap.chain, hashMapRemove, hl] at he
    · exact hp.placed i e (by
        simpa [HashMap.chain, hashMapRemove, List.getElem?_set_ne hi] using he)
  distinct := by
    rw [hp.entries_remove hn k]
    exact hp.distinct.sublist (List.filter_sublist.map _)

end Lookup

end FileStorage
