import FileStorage.Storage

/-! What the storage holds, without its pointers: the stored files, the paths in the queue and
the counters. A table whose keys are the paths of the records they lead to is `Sound`; under that
invariant every operation of the storage is an operation on the list of stored files. -/

namespace FileStorage

structure Catalog where
  maxSize : Nat
  maxFiles : Int
  nBuckets : Nat
  stored : List File
  queue : List Path
  currentSize : Nat
  noOfFiles : Int
  deriving DecidableEq

namespace Catalog

def get (v : Catalog) (p : Path) : Option File := v.stored.find? fun f => f.path = p

def bucket (v : Catalog) (p : Path) : Nat := stringHash p % v.nBuckets

def bytes (v : Catalog) : Nat := (v.stored.map File.size).sum

def paths (v : Catalog) : List Path := v.stored.map File.path

/-- The record of one path is replaced. -/
def putFile (p : Path) (f g : File) : File := if g.path = p then f else g

def put (v : Catalog) (p : Path) (f : File) : Catalog :=
  { v with stored := v.stored.map (putFile p f) }

/-- The bucket of a path is cleared. -/
def wipe (v : Catalog) (p : Path) : Catalog :=
  { v with stored := v.stored.filter fun f => v.bucket f.path ≠ v.bucket p }

theorem get_eq_some {v : Catalog} {p : Path} {f : File} (h : v.get p = some f) :
    f ∈ v.stored ∧ f.path = p :=
  ⟨List.mem_of_find?_eq_some h, by simpa using List.find?_some h⟩

theorem get_eq_none_iff {v : Catalog} {p : Path} : v.get p = none ↔ p ∉ v.paths := by
  simp [get, paths]

theorem get_eq_some_iff {v : Catalog} (hd : v.paths.Nodup) {p : Path} {f : File} :
    v.get p = some f ↔ f ∈ v.stored ∧ f.path = p := by
  refine ⟨get_eq_some, fun ⟨hf, hp⟩ => ?_⟩
  cases hg : v.get p with
  | none => exact absurd (hp ▸ List.mem_map_of_mem hf) (get_eq_none_iff.mp hg)
  | some g =>
    have hh := get_eq_some hg
    rw [List.inj_on_of_nodup_map hd hh.1 hf (hh.2.trans hp.symm)]

theorem get_eq_some_iff_of_perm {v : Catalog} {l : List File} (hd : v.paths.Nodup)
    (hl : v.stored.Perm l) {p : Path} {f : File} : v.get p = some f ↔ f ∈ l ∧ f.path = p := by
  rw [get_eq_some_iff hd, hl.mem_iff]

theorem map_putFile_of_ne {p : Path} {f : File} {l : List File} (h : ∀ g ∈ l, g.path ≠ p) :
    l.map (putFile p f) = l := by
  rw [List.map_congr_left fun g hg => show putFile p f g = id g from if_neg (h g hg), List.map_id]

theorem putFile_path {p : Path} {f : File} (hf : f.path = p) (g : File) :
    (putFile p f g).path = g.path := by
  by_cases h : g.path = p <;> simp [putFile, h, hf]

theorem put_paths {v : Catalog} {p : Path} {f : File} (hf : f.path = p) :
    (v.put p f).paths = v.paths := by
  simp only [paths, put, List.map_map]
  exact List.map_congr_left fun g _ => putFile_path hf g

end Catalog

namespace Storage

def stored (s : Storage) : List File := s.files.entries.map fun e => s.heap e.value

def catalog (s : Storage) : Catalog :=
  ⟨s.maxSize, s.maxFiles, s.files.nBuckets, s.stored, s.fifoQueue.map PathPtr.path,
    s.currentSize, s.noOfFiles⟩

/-- Each key of the table is the path of the record it leads to, and the records are
allocated. -/
structure Sound (s : Storage) : Prop where
  placed : s.files.Placed stringHash
  keyed : ∀ e ∈ s.files.entries, (s.heap e.value).path = e.key
  fresh : ∀ e ∈ s.files.entries, e.value < s.next

variable {s : Storage}

theorem Sound.paths (hs : s.Sound) :
    s.catalog.paths = s.files.entries.map HashMapEntry.key := by
  simp only [Catalog.paths, catalog, stored, List.map_map]
  exact List.map_congr_left hs.keyed

theorem Sound.nodup (hs : s.Sound) : s.catalog.paths.Nodup := by
  rw [hs.paths]
  exact hs.placed.distinct

theorem Sound.get_mem (hs : s.Sound) {p : Path} {i : FileId} (h : s.get p = some i) :
    s.heap i ∈ s.stored ∧ (s.heap i).path = p := by
  have he := hs.placed.get_eq_some_iff.mp h
  exact ⟨List.mem_map.mpr ⟨_, he, rfl⟩, hs.keyed _ he⟩

theorem Sound.catalog_get (hs : s.Sound) {p : Path} {i : FileId} (h : s.get p = some i) :
    s.catalog.get p = some (s.heap i) :=
  (Catalog.get_eq_some_iff hs.nodup).mpr (hs.get_mem h)

theorem Sound.catalog_get_none (hs : s.Sound) {p : Path} (h : s.get p = none) :
    s.catalog.get p = none := by
  rw [Catalog.get_eq_none_iff, hs.paths]
  simpa using hs.placed.get_eq_none_iff.mp h

theorem Sound.get_of_catalog (hs : s.Sound) {p : Path} {f : File}
    (h : s.catalog.get p = some f) : ∃ i, s.get p = some i ∧ s.heap i = f := by
  cases hg : s.get p with
  | none => simp [hs.catalog_get_none hg] at h
  | some i => exact ⟨i, rfl, by simpa [hs.catalog_get hg] using h⟩

theorem Sound.get_none_of_catalog (hs : s.Sound) {p : Path} (h : s.catalog.get p = none) :
    s.get p = none := by
  cases hg : s.get p with
  | none => rfl
  | some i => simp [hs.catalog_get hg] at h

theorem Sound.get_isSome (hs : s.Sound) (p : Path) :
    (s.get p).isSome = (s.catalog.get p).isSome := by
  cases hg : s.get p with
  | none => simp [hs.catalog_get_none hg]
  | some i => simp [hs.catalog_get hg]

/-! ### The operations on sound tables -/

theorem Sound.setFile (hs : s.Sound) {i : FileId} {f : File} (hf : f.path = (s.heap i).path) :
    (s.setFile i f).Sound where
  placed := hs.placed
  keyed := by
    intro e he
    by_cases hi : e.value = i
    · subst hi
      simpa [Storage.setFile, hf] using hs.keyed e he
    · simpa [Storage.setFile, hi] using hs.keyed e he
  fresh := hs.fresh

theorem Sound.catalog_setFile (hs : s.Sound) {p : Path} {i : FileId} {f : File}
    (hi : s.get p = some i) : (s.setFile i f).catalog = s.catalog.put p f := by
  have hp := hs.get_mem hi
  have hm := hs.placed.get_eq_some_iff.mp hi
  have he : (s.setFile i f).stored = s.stored.map (Catalog.putFile p f) := by
    simp only [stored, List.map_map, Storage.setFile]
    refine List.map_congr_left fun e he => ?_
    by_cases hv : e.value = i
    · simp [hv, Catalog.putFile, hp.2]
    · have hk : (s.heap e.value).path ≠ p := by
        intro hk
        rw [hs.keyed e he] at hk
        exact hv (congrArg HashMapEntry.value (hs.placed.eq_of_key_eq he hm hk))
      simp [hv, Catalog.putFile, hk]
  simp only [catalog, Catalog.put, ← he]
  rfl

theorem Sound.mem_insertFile (hs : s.Sound) (hn : 0 < s.files.nBuckets) {p : Path} {i : FileId}
    {e : HashMapEntry Path FileId} (he : e ∈ (s.insertFile p i).files.entries) :
    e ∈ s.files.entries ∨ e = ⟨p, i⟩ := by
  cases hg : hashMapGet stringHash s.files p with
  | none =>
    have hh := (hs.placed.entries_insert_perm hn hg).mem_iff.mp he
    exact (List.mem_cons.mp hh).symm
  | some j =>
    simp only [Storage.insertFile, hs.placed.entries_insert_of_mem hn (by simp [hg] :
      (hashMapGet stringHash s.files p).isSome), List.mem_map] at he
    obtain ⟨e', he', rfl⟩ := he
    by_cases hk : e'.key = p
    · exact .inr (by simp [setValue, hk])
    · exact .inl (by simpa [setValue, hk] using he')

theorem Sound.insertFile (hs : s.Sound) (hn : 0 < s.files.nBuckets) {p : Path} {i : FileId}
    (hp : (s.heap i).path = p) (hi : i < s.next) : (s.insertFile p i).Sound := by
  refine ⟨hs.placed.insert hn p i, ?_, ?_⟩
  · intro e he
    rcases hs.mem_insertFile hn he with h | rfl
    · exact hs.keyed e h
    · exact hp
  · intro e he
    rcases hs.mem_insertFile hn he with h | rfl
    · exact hs.fresh e h
    · exact hi

theorem Sound.lt_next (hs : s.Sound) {p : Path} {i : FileId} (h : s.get p = some i) :
    i < s.next :=
  hs.fresh _ (hs.placed.get_eq_some_iff.mp h)

/-- Storing a file under its own path again changes nothing but the counter of the table. -/
theorem Sound.catalog_insertFile_self (hs : s.Sound) (hn : 0 < s.files.nBuckets) {p : Path}
    {i : FileId} (hi : s.get p = some i) : (s.insertFile p i).catalog = s.catalog := by
  have hg : (hashMapGet stringHash s.files p).isSome := by
    rw [show hashMapGet stringHash s.files p = some i from hi]
    rfl
  have hm := hs.placed.get_eq_some_iff.mp hi
  have he : (s.insertFile p i).files.entries = s.files.entries := by
    simp only [Storage.insertFile, hs.placed.entries_insert_of_mem hn hg]
    rw [List.map_congr_left fun e he => show setValue p i e = id e from ?_, List.map_id]
    by_cases hk : e.key = p
    · have := hs.placed.eq_of_key_eq he hm hk
      simp [setValue, this]
    · simp [setValue, hk]
  simp only [catalog, stored, he]
  rfl

theorem Sound.catalog_insertFile_new (hs : s.Sound) (hn : 0 < s.files.nBuckets) {p : Path}
    {i : FileId} (hi : s.get p = none) :
    (s.insertFile p i).stored.Perm (s.heap i :: s.stored) := by
  have hp := hs.placed.entries_insert_perm (v := i) hn hi
  simpa [stored, Storage.insertFile] using hp.map fun e => s.heap e.value

theorem Sound.eraseFile (hs : s.Sound) (hn : 0 < s.files.nBuckets) (p : Path) :
    (s.eraseFile p).Sound := by
  have hmem : ∀ e ∈ (s.eraseFile p).files.entries, e ∈ s.files.entries := by
    intro e he
    simp only [Storage.eraseFile, hs.placed.entries_remove hn] at he
    exact List.mem_of_mem_filter he
  exact ⟨hs.placed.remove hn p, fun e he => hs.keyed e (hmem e he),
    fun e he => hs.fresh e (hmem e he)⟩

theorem Sound.catalog_eraseFile (hs : s.Sound) (hn : 0 < s.files.nBuckets) (p : Path) :
    (s.eraseFile p).catalog = s.catalog.wipe p := by
  have he : (s.eraseFile p).stored =
      s.stored.filter fun f => s.catalog.bucket f.path ≠ s.catalog.bucket p := by
    simp only [stored, Storage.eraseFile, hs.placed.entries_remove hn, List.filter_map]
    congr 1
    refine List.filter_congr fun e he => ?_
    by_cases hb : stringHash e.key % s.files.nBuckets = stringHash p % s.files.nBuckets <;>
      simp [hs.keyed e he, Catalog.bucket, HashMap.slot, catalog, hb]
  simp only [catalog, Catalog.wipe] at he ⊢
  rw [he]
  rfl

theorem Sound.newFile (hs : s.Sound) (f : File) : (s.newFile f).Sound where
  placed := hs.placed
  keyed := by
    intro e he
    have : e.value ≠ s.next := Nat.ne_of_lt (hs.fresh e he)
    simpa [Storage.newFile, this] using hs.keyed e he
  fresh := fun e he => Nat.lt_succ_of_lt (hs.fresh e he)

theorem Sound.catalog_newFile (hs : s.Sound) (f : File) : (s.newFile f).catalog = s.catalog := by
  have he : (s.newFile f).stored = s.stored := by
    simp only [stored, Storage.newFile]
    refine List.map_congr_left fun e he => ?_
    simp [Nat.ne_of_lt (hs.fresh e he)]
  simp only [catalog, he]
  rfl

/-- `Sound` is a property of the table and the heap. -/
theorem Sound.of_eq {t : Storage} (hs : s.Sound) (hf : t.files = s.files) (hh : t.heap = s.heap)
    (hn : t.next = s.next) : t.Sound := by
  refine ⟨hf ▸ hs.placed, ?_, ?_⟩
  · rw [hf, hh]
    exact hs.keyed
  · rw [hf, hn]
    exact hs.fresh

theorem Sound.unqueue (hs : s.Sound) (p : Path) : (s.unqueue p).Sound := by
  unfold Storage.unqueue
  split <;> exact hs.of_eq rfl rfl rfl

end Storage

end FileStorage
