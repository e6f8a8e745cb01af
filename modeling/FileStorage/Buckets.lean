import FileStorage.Machine
import FileStorage.Storage
import Mathlib.Data.List.Induction

/-! The numbers of the hash table: the window of `string_hash`, the number of slots and the
counter of the entries. -/

namespace FileStorage

/-! ### The window of the hash -/

/-- The value of a `char`. -/
def charValue (datum : UInt8) : Int := datum.toBitVec.toInt

/-- The values that the shift by four and `HIGH_BITS` are meant for. -/
def hashWindow : Nat := 2 ^ 28

theorem toNat_and_highBits (x : UInt64) : x &&& highBits = 0 ↔ x.toNat / 2 ^ 28 % 16 = 0 := by
  rw [← UInt64.toNat_inj, UInt64.toNat_and]
  have hlow : (x.toNat &&& highBits.toNat) % 2 ^ 28 = 0 := by
    rw [Nat.and_mod_two_pow]
    simp [highBits]
  have hhigh : (x.toNat &&& highBits.toNat) / 2 ^ 28 = x.toNat / 2 ^ 28 % 16 := by
    rw [← Nat.shiftRight_eq_div_pow, Nat.shiftRight_and_distrib, Nat.shiftRight_eq_div_pow]
    exact Nat.and_two_pow_sub_one_eq_mod _ 4
  show (x.toNat &&& highBits.toNat) = 0 ↔ _
  omega

/-- The sum of a round, before the folding. -/
def shiftedSum (h : UInt64) (datum : UInt8) : UInt64 :=
  (h <<< 4) + UInt64.ofBitVec (datum.toBitVec.signExtend 64)

theorem toNat_shiftedSum {h : UInt64} (hh : h.toNat < hashWindow) (datum : UInt8) :
    ((shiftedSum h datum).toNat : Int) = (16 * h.toNat + charValue datum) % 2 ^ 64 := by
  have hs : ((h <<< 4 : UInt64).toNat) = 16 * h.toNat := by
    rw [UInt64.toNat_shiftLeft, Nat.shiftLeft_eq]
    simp only [hashWindow] at hh
    have : (4 : UInt64).toNat % 64 = 4 := rfl
    rw [this]
    omega
  have hc : ((UInt64.ofBitVec (datum.toBitVec.signExtend 64)).toNat : Int) =
      charValue datum % 2 ^ 64 := by
    have hlt := (datum.toBitVec.signExtend 64).isLt
    have hmod : (charValue datum) % ((2 ^ 64 : Nat) : Int) =
        ((datum.toBitVec.signExtend 64).toNat : Int) % ((2 ^ 64 : Nat) : Int) := by
      rw [charValue, ← BitVec.toInt_signExtend_of_le (show 8 ≤ 64 by decide),
        BitVec.toInt_eq_toNat_bmod, Int.bmod_emod]
    show ((datum.toBitVec.signExtend 64).toNat : Int) = _
    omega
  rw [shiftedSum, UInt64.toNat_add, hs]
  push_cast
  rw [hc]
  omega

theorem stringHashStep_eq (h : UInt64) (datum : UInt8) :
    stringHashStep h datum =
      if shiftedSum h datum &&& highBits = 0 then shiftedSum h datum
      else (shiftedSum h datum ^^^ ((shiftedSum h datum &&& highBits) >>> 24)) &&& 0x0FFFFFFF := by
  by_cases hi : shiftedSum h datum &&& highBits = 0
  · rw [if_pos hi]
    exact if_neg (not_not.mpr hi)
  · rw [if_neg hi]
    exact if_pos hi

theorem charValue_bounds (datum : UInt8) : -128 ≤ charValue datum ∧ charValue datum < 128 :=
  ⟨BitVec.le_toInt _, BitVec.toInt_lt⟩

/-- Within the window a round stays there unless its sum carries past bit 31, where the mask does
not see it. -/
theorem stringHashStep_lt_iff {h : UInt64} (hh : h.toNat < hashWindow) (datum : UInt8) :
    (stringHashStep h datum).toNat < hashWindow ↔ 16 * (h.toNat : Int) + charValue datum < 2 ^ 32 := by
  have hsum := toNat_shiftedSum hh datum
  have hbound := charValue_bounds datum
  have hbits := toNat_and_highBits (shiftedSum h datum)
  rw [stringHashStep_eq]
  simp only [hashWindow] at hh ⊢
  by_cases hi : shiftedSum h datum &&& highBits = 0
  · have := hbits.mp hi
    rw [if_pos hi]
    omega
  · have hne : (shiftedSum h datum).toNat / 2 ^ 28 % 16 ≠ 0 := fun he => hi (hbits.mpr he)
    rw [if_neg hi, UInt64.toNat_and]
    have hle : ∀ n : Nat, n &&& (0x0FFFFFFF : UInt64).toNat ≤ (0x0FFFFFFF : UInt64).toNat :=
      fun n => Nat.and_le_right
    refine iff_of_true (lt_of_le_of_lt (hle _) (by decide)) ?_
    omega

theorem stringHash_snoc (p : Path) (c : UInt8) :
    stringHash (p ++ [c]) = (stringHashStep (p.foldl stringHashStep 0) c).toNat := by
  rw [stringHash, List.foldl_append, List.foldl_cons, List.foldl_nil]

/-- The hash stays in its window after every step exactly as long as no step carries. -/
theorem stringHash_window_iff (key : Path) :
    (∀ p, p <+: key → stringHash p < hashWindow) ↔
      ∀ p c, p ++ [c] <+: key → 16 * (stringHash p : Int) + charValue c < 2 ^ 32 := by
  constructor
  · intro h p c hp
    have hlt := h (p ++ [c]) hp
    rw [stringHash_snoc] at hlt
    exact (stringHashStep_lt_iff (h p ((List.prefix_append p [c]).trans hp)) c).mp hlt
  · intro h p
    induction p using List.reverseRecOn with
    | nil => exact fun _ => by decide
    | append_singleton p c ih =>
      intro hp
      have hlt := ih ((List.prefix_append p [c]).trans hp)
      rw [stringHash_snoc]
      exact (stringHashStep_lt_iff hlt c).mpr (h p c hp)

theorem stringHash_leaves_window :
    ¬∀ key : Path, 0 ∉ key → ∀ p, p <+: key → stringHash p < hashWindow := by
  intro h
  have hlt := h [15, 15, 15, 15, 15, 15, 15, 16] (by decide) _ (List.prefix_refl _)
  revert hlt
  decide

/-! ### The number of slots -/

/-- The number of slots that `storage_create` asks for, after the conversions. -/
def slotsAsked (maxFiles : Nat) : Int := toInt ((maxFiles * 2 % sizeBound : Nat) : Int)

theorem hashMapCreate_eq_some {κ ν : Type} {n : Int} {m : HashMap κ ν}
    (h : hashMapCreate n = some m) :
    0 ≤ n ∧ m.nBuckets = n.toNat ∧ m.buckets.length = m.nBuckets := by
  rw [hashMapCreate] at h
  split at h
  · simp at h
  · rename_i hneg
    obtain rfl := Option.some.inj h
    exact ⟨not_lt.mp hneg, rfl, List.length_replicate⟩

theorem storageCreate_eq_some {maxSize maxFiles : Nat} {storage : Storage}
    (h : storageCreate maxSize maxFiles = some storage) :
    0 ≤ slotsAsked maxFiles ∧ storage.files.nBuckets = (slotsAsked maxFiles).toNat ∧
      storage.files.buckets.length = storage.files.nBuckets := by
  obtain ⟨files, hfiles, rfl⟩ := Option.map_eq_some_iff.mp h
  exact hashMapCreate_eq_some hfiles

theorem storageCreate_of_slotsAsked {maxSize maxFiles : Nat} (h : slotsAsked maxFiles = 0) :
    ∃ storage, storageCreate maxSize maxFiles = some storage ∧ storage.files.nBuckets = 0 := by
  rw [storageCreate, show toInt _ = 0 from h]
  exact ⟨_, rfl, rfl⟩

theorem slotsAsked_eq_zero_iff (maxFiles : BitVec 32) :
    slotsAsked maxFiles.toNat = 0 ↔ maxFiles = 0#32 ∨ maxFiles = BitVec.ofNat 32 (2 ^ 31) := by
  have hlt := maxFiles.isLt
  have hdouble : slotsAsked maxFiles.toNat = (2 * (maxFiles.toNat : Int)).bmod (2 ^ 32) := by
    rw [slotsAsked, toInt, sizeBound, Nat.mod_eq_of_lt (by omega), Nat.mul_comm]
    norm_cast
  rw [hdouble, BitVec.toNat_inj.symm, BitVec.toNat_inj.symm, Int.bmod_def]
  simp only [BitVec.toNat_ofNat]
  omega

/-- The table that `storage_create` yields has a slot for every path. -/
theorem storageCreate_slots_iff (maxSize : Nat) (maxFiles : BitVec 32) :
    (∀ storage, storageCreate maxSize maxFiles.toNat = some storage →
      1 ≤ storage.files.nBuckets ∧ storage.files.nBuckets = storage.files.buckets.length ∧
        ∀ p, storage.files.slot stringHash p < storage.files.buckets.length) ↔
      maxFiles ≠ 0#32 ∧ maxFiles ≠ BitVec.ofNat 32 (2 ^ 31) := by
  rw [← not_or, ← slotsAsked_eq_zero_iff]
  constructor
  · intro h hn
    obtain ⟨storage, hs, hnone⟩ := storageCreate_of_slotsAsked hn
    have hpos := (h storage hs).1
    omega
  · intro hn storage hs
    obtain ⟨hpos, hslots, hlength⟩ := storageCreate_eq_some hs
    have hone : 1 ≤ storage.files.nBuckets := by omega
    refine ⟨hone, hlength.symm, fun p => ?_⟩
    rw [hlength]
    exact Nat.mod_lt _ hone

theorem storageCreate_without_slots :
    ¬∀ (maxSize : Nat) (maxFiles : BitVec 32) (storage : Storage),
      storageCreate maxSize maxFiles.toNat = some storage →
        1 ≤ storage.files.nBuckets ∧ storage.files.nBuckets = storage.files.buckets.length ∧
          ∀ p, storage.files.slot stringHash p < storage.files.buckets.length := by
  intro h
  have hn : slotsAsked (0#32).toNat = 0 := (slotsAsked_eq_zero_iff 0#32).mpr (.inl rfl)
  obtain ⟨storage, hs, hnone⟩ := storageCreate_of_slotsAsked hn
  have hpos := (h 100 0#32 storage hs).1
  omega

/-! ### The counter of the entries -/

/-- A call on the table, with the answer of `calloc` where it needs one. -/
inductive HashMapCall (κ ν : Type) where
  | insert (key : κ) (value : ν) (allocated : Bool)
  | remove (key : κ)

section Counter

variable {κ ν : Type} [DecidableEq κ]

/-- A call either leaves the table, where it returns -1, or changes it. In a table without slots
the modulus faults. -/
def HashMapCall.apply (hash : κ → Nat) (m : HashMap κ ν) :
    HashMapCall κ ν → Option (HashMap κ ν)
  | insert k v allocated =>
    if m.nBuckets = 0 then none
    else if (hashMapGet hash m k).isNone ∧ !allocated then some m
    else some (hashMapInsert hash m k v)
  | remove k =>
    if m.nBuckets = 0 then none
    else if (hashMapGet hash m k).isNone then some m
    else some (hashMapRemove hash m k)

/-- An insertion of a fresh key, or a removal from a bucket that holds nothing else. -/
def HashMapCall.Counted (hash : κ → Nat) (m : HashMap κ ν) : HashMapCall κ ν → Prop
  | insert k _ _ => hashMapGet hash m k = none
  | remove k => hashMapGet hash m k = none ∨ (m.chain (m.slot hash k)).length = 1

/-- By how much the counter is above the number of the entries. -/
def HashMap.surplus (m : HashMap κ ν) : Int := m.nEntries - m.entries.length

variable {hash : κ → Nat} {m m' : HashMap κ ν}

omit [DecidableEq κ] in
theorem length_entries_set {i : Nat} (h : i < m.buckets.length) (c : List (HashMapEntry κ ν)) :
    (m.buckets.set i c).flatten.length + (m.chain i).length = m.entries.length + c.length := by
  rw [flatten_set h, entries_split h]
  simp only [List.length_append]
  omega

theorem length_replaceValue (k : κ) (v : ν) (c : List (HashMapEntry κ ν)) :
    (replaceValue k v c).length = c.length := by
  induction c with
  | nil => rfl
  | cons e c ih =>
    by_cases he : e.key = k
    · simp [replaceValue, he]
    · simp [replaceValue, he, ih]

theorem surplus_insert_fresh {k : κ} {v : ν} (h : m.slot hash k < m.buckets.length)
    (hk : hashMapGet hash m k = none) : (hashMapInsert hash m k v).surplus = m.surplus := by
  have hl := length_entries_set h (m.chain (m.slot hash k) ++ [⟨k, v⟩])
  have hf : (findEntry k (m.chain (m.slot hash k))).isSome = false := by
    simpa [hashMapGet] using hk
  simp only [List.length_append, List.length_singleton] at hl
  simp only [HashMap.surplus, hashMapInsert, hf, HashMap.entries, Bool.false_eq_true, if_false] at hl ⊢
  omega

theorem surplus_insert_replaced {k : κ} {v : ν} (h : m.slot hash k < m.buckets.length)
    (hk : hashMapGet hash m k ≠ none) : (hashMapInsert hash m k v).surplus = m.surplus + 1 := by
  have hl := length_entries_set h (replaceValue k v (m.chain (m.slot hash k)))
  have hf : (findEntry k (m.chain (m.slot hash k))).isSome = true := by
    simpa [hashMapGet, Option.isSome_iff_ne_none] using hk
  rw [length_replaceValue] at hl
  simp only [HashMap.surplus, hashMapInsert, hf, HashMap.entries, if_true] at hl ⊢
  omega

omit [DecidableEq κ] in
theorem surplus_remove {k : κ} (h : m.slot hash k < m.buckets.length) :
    (hashMapRemove hash m k).surplus = m.surplus + (m.chain (m.slot hash k)).length - 1 := by
  have hl := length_entries_set h []
  simp only [HashMap.surplus, hashMapRemove, HashMap.entries, List.length_nil] at hl ⊢
  omega

omit [DecidableEq κ] in
theorem surplus_create {n : Int} (hc : hashMapCreate n = some m) : m.surplus = 0 := by
  rw [hashMapCreate] at hc
  split at hc
  · simp at hc
  · obtain rfl := Option.some.inj hc
    simp [HashMap.surplus, HashMap.entries]

theorem length_chain_pos {k : κ} (hk : hashMapGet hash m k ≠ none) :
    1 ≤ (m.chain (m.slot hash k)).length := by
  cases hc : m.chain (m.slot hash k) with
  | nil => simp [hashMapGet, findEntry, hc] at hk
  | cons e c => simp

/-- No call makes the surplus smaller, and only those that count right leave it. -/
theorem surplus_apply {call : HashMapCall κ ν} (hm : m.buckets.length = m.nBuckets)
    (h : call.apply hash m = some m') :
    m'.buckets.length = m'.nBuckets ∧ m.surplus ≤ m'.surplus ∧
      (m'.surplus = m.surplus ↔ call.Counted hash m) := by
  have hslot : ∀ k, m.nBuckets ≠ 0 → m.slot hash k < m.buckets.length := fun k hn => by
    rw [hm]
    exact Nat.mod_lt _ (by omega)
  cases call with
  | insert k v allocated =>
    simp only [HashMapCall.apply, HashMapCall.Counted] at h ⊢
    split at h
    · simp at h
    · rename_i hn
      split at h
      · rename_i hk
        obtain rfl := Option.some.inj h
        exact ⟨hm, le_refl _, iff_of_true rfl (by simpa using hk.1)⟩
      · obtain rfl := Option.some.inj h
        have hb : (hashMapInsert hash m k v).buckets.length = m.nBuckets := by
          simp [hashMapInsert, hm]
        refine ⟨hb, ?_⟩
        by_cases hk : hashMapGet hash m k = none
        · simp [surplus_insert_fresh (hslot k hn) hk, hk]
        · simp [surplus_insert_replaced (hslot k hn) hk, hk]
  | remove k =>
    simp only [HashMapCall.apply, HashMapCall.Counted] at h ⊢
    split at h
    · simp at h
    · rename_i hn
      split at h
      · rename_i hk
        obtain rfl := Option.some.inj h
        exact ⟨hm, le_refl _, iff_of_true rfl (.inl (by simpa using hk))⟩
      · rename_i hk
        obtain rfl := Option.some.inj h
        have hb : (hashMapRemove hash m k).buckets.length = m.nBuckets := by
          simp [hashMapRemove, hm]
        have hne : hashMapGet hash m k ≠ none := by simpa using hk
        have hpos := length_chain_pos hne
        have hs := surplus_remove (hslot k hn)
        simp only [hne, false_or]
        exact ⟨hb, by omega, by omega⟩

/-- The counter is exact at the end of a run if and only if every call of it has counted right. -/
theorem nEntries_exact_iff {n : Int} {m₀ : HashMap κ ν} {h : List (HashMap κ ν × HashMapCall κ ν)}
    (hc : hashMapCreate n = some m₀)
    (hr : Machine.Reaches (HashMapCall.apply hash) (fun _ _ => True) m₀ h m) :
    m.nEntries = m.entries.length ↔ ∀ x ∈ h, x.2.Counted hash x.1 := by
  have hinv : m.buckets.length = m.nBuckets ∧ 0 ≤ m.surplus ∧
      (m.surplus = 0 ↔ ∀ x ∈ h, x.2.Counted hash x.1) := by
    refine hr.invariant (I := fun h m => m.buckets.length = m.nBuckets ∧ 0 ≤ m.surplus ∧
      (m.surplus = 0 ↔ ∀ x ∈ h, x.2.Counted hash x.1)) ?_ ?_
    · obtain ⟨hpos, hn, hl⟩ := hashMapCreate_eq_some hc
      have hz : m₀.surplus = 0 := surplus_create hc
      exact ⟨hl, by omega, iff_of_true hz (by simp)⟩
    · intro h t call u ih _ hs
      obtain ⟨hl, hpos, hiff⟩ := ih
      obtain ⟨hu, hle, hcount⟩ := surplus_apply hl hs
      refine ⟨hu, by omega, ?_⟩
      simp only [List.forall_mem_append, List.forall_mem_singleton, ← hiff, ← hcount]
      omega
  rw [← hinv.2.2, HashMap.surplus]
  omega

end Counter

/-- Two fresh keys in two buckets, and the removal of one of them. -/
theorem nEntries_exact_two_buckets :
    ∃ h m, Machine.Reaches (HashMapCall.apply (fun k : Nat => k)) (fun _ _ => True)
      (⟨2, 0, [[], []]⟩ : HashMap Nat Nat) h m ∧ h.length = 3 ∧
        m.nEntries = m.entries.length := by
  have hr : Machine.Reaches (HashMapCall.apply (fun k : Nat => k)) (fun _ _ => True)
      (⟨2, 0, [[], []]⟩ : HashMap Nat Nat)
      ((([] ++ [(⟨2, 0, [[], []]⟩, .insert 0 5 true)]) ++
        [(⟨2, 1, [[⟨0, 5⟩], []]⟩, .insert 1 6 true)]) ++
        [(⟨2, 2, [[⟨0, 5⟩], [⟨1, 6⟩]]⟩, .remove 0)]) ⟨2, 1, [[], [⟨1, 6⟩]]⟩ :=
    .snoc (.snoc (.snoc .nil trivial rfl) trivial rfl) trivial rfl
  refine ⟨_, _, hr, rfl, (nEntries_exact_iff (n := 2) rfl hr).mpr ?_⟩
  intro x hx
  simp only [List.nil_append, List.cons_append, List.mem_cons, List.not_mem_nil, or_false] at hx
  rcases hx with rfl | rfl | rfl
  · exact rfl
  · exact rfl
  · exact .inr rfl

/-- A replacement is counted as an entry. -/
theorem nEntries_not_exact :
    ¬∀ (m₀ m : HashMap Nat Nat) (h : List (HashMap Nat Nat × HashMapCall Nat Nat)),
      hashMapCreate 1 = some m₀ →
      Machine.Reaches (HashMapCall.apply (fun k : Nat => k)) (fun _ _ => True) m₀ h m →
        m.nEntries = m.entries.length := by
  intro h
  have hr : Machine.Reaches (HashMapCall.apply (fun k : Nat => k)) (fun _ _ => True)
      (⟨1, 0, [[]]⟩ : HashMap Nat Nat) _ ⟨1, 2, [[⟨0, 6⟩]]⟩ :=
    .snoc (.snoc .nil trivial (a := .insert 0 5 true) rfl) trivial (a := .insert 0 6 true) rfl
  exact absurd (h _ _ _ rfl hr) (by decide)

end FileStorage
