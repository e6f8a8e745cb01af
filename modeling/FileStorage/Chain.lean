import Mathlib.Data.List.AList
import Mathlib.Data.List.Induction

/-! Chains of cells in a heap: from a pointer, cell after cell along their links. A pointer is an
address or, where it is `none`, null. -/

namespace FileStorage.Chain

structure Cell (ι α : Type) where
  data : α
  next : Option ι
  deriving DecidableEq

/-- The allocated cells under their addresses. -/
abbrev Heap (ι α : Type) := AList fun _ : ι => Cell ι α

/-- An allocator: an address that is not in use, whatever is. -/
structure Allocation (ι α : Type) where
  address : Heap ι α → ι
  fresh : ∀ h, address h ∉ h

section Heaps

variable {ι α : Type} [DecidableEq ι] {h h' : Heap ι α} {p q r : Option ι} {a b : ι} {x y : α}
  {c d : List (ι × α)}

/-- From `p` the cells of `c`, one linked to the next, lead to `q`. -/
def Seg (h : Heap ι α) : Option ι → List (ι × α) → Option ι → Prop
  | p, [], q => p = q
  | p, (a, x) :: c, q => p = some a ∧ ∃ n, h.lookup a = some ⟨x, n⟩ ∧ Seg h n c q

/-- The last address of a chain that is entered with `prev` behind. -/
def lastOf (prev : Option ι) : List (ι × α) → Option ι
  | [] => prev
  | (a, _) :: c => lastOf (some a) c

omit [DecidableEq ι] in
@[simp] theorem lastOf_append_singleton (prev : Option ι) (c : List (ι × α)) (a : ι) (x : α) :
    lastOf prev (c ++ [(a, x)]) = some a := by
  induction c generalizing prev with
  | nil => rfl
  | cons e c ih => exact ih _

theorem seg_append : Seg h p (c ++ d) q ↔ ∃ r, Seg h p c r ∧ Seg h r d q := by
  induction c generalizing p with
  | nil => simp [Seg]
  | cons e c ih =>
    constructor
    · rintro ⟨hp, n, hn, hs⟩
      obtain ⟨r, hc, hd⟩ := ih.mp hs
      exact ⟨r, ⟨hp, n, hn, hc⟩, hd⟩
    · rintro ⟨r, ⟨hp, n, hn, hc⟩, hd⟩
      exact ⟨hp, n, hn, ih.mpr ⟨r, hc, hd⟩⟩

theorem Seg.lookup (hs : Seg h p (c ++ (a, x) :: d) q) :
    ∃ n, h.lookup a = some ⟨x, n⟩ ∧ Seg h n d q := by
  obtain ⟨r, _, _, hn⟩ := seg_append.mp hs
  exact hn

theorem Seg.mem (hs : Seg h p c q) (ha : a ∈ c.map Prod.fst) : a ∈ h := by
  obtain ⟨⟨a, x⟩, hm, rfl⟩ := List.mem_map.mp ha
  obtain ⟨c₁, c₂, rfl⟩ := List.append_of_mem hm
  obtain ⟨n, hn, _⟩ := hs.lookup
  exact AList.lookup_isSome.mp (by rw [hn]; rfl)

/-- A heap holds one chain from a pointer to null. -/
theorem Seg.unique (hs : Seg h p c none) (hs' : Seg h p d none) : c = d := by
  induction c generalizing p d with
  | nil =>
    obtain rfl : p = none := hs
    cases d with
    | nil => rfl
    | cons e d => exact absurd hs'.1 (by simp)
  | cons e c ih =>
    obtain ⟨rfl, n, hn, hs⟩ := hs
    cases d with
    | nil => exact absurd (show some e.1 = none from hs') (by simp)
    | cons f d =>
      obtain ⟨hp, m, hm, hs'⟩ := hs'
      obtain ⟨a, x⟩ := e
      obtain ⟨b, y⟩ := f
      obtain rfl : a = b := Option.some.inj hp
      rw [hn] at hm
      obtain ⟨rfl, rfl⟩ := Cell.mk.inj (Option.some.inj hm)
      rw [ih hs hs']

/-- Its addresses are distinct: from one that came twice there would be two chains. -/
theorem Seg.nodup (hs : Seg h p c none) : (c.map Prod.fst).Nodup := by
  induction c generalizing p with
  | nil => exact List.nodup_nil
  | cons e c ih =>
    obtain ⟨a, x⟩ := e
    obtain ⟨hp, n, hn, hc⟩ := hs
    refine List.nodup_cons.mpr ⟨fun ha => ?_, ih hc⟩
    obtain ⟨⟨b, y⟩, hm, rfl⟩ := List.mem_map.mp ha
    obtain ⟨c₁, c₂, rfl⟩ := List.append_of_mem hm
    obtain ⟨r, _, hr, hrest⟩ := seg_append.mp hc
    have hlong : Seg h (some b) ((b, x) :: (c₁ ++ (b, y) :: c₂)) none := ⟨rfl, n, hn, hc⟩
    have he := congrArg List.length (hlong.unique (show Seg h (some b) ((b, y) :: c₂) none from
      ⟨rfl, hrest⟩))
    simp only [List.length_cons, List.length_append] at he
    omega

/-- A cell of the chain is neither before nor after itself. -/
theorem Seg.apart (hs : Seg h p (c ++ (a, x) :: d) none) :
    a ∉ c.map Prod.fst ∧ a ∉ d.map Prod.fst := by
  have hnd := hs.nodup
  simp only [List.map_append, List.map_cons, List.nodup_append, List.nodup_cons] at hnd
  exact ⟨fun ha => hnd.2.2 a ha a (by simp) rfl, hnd.2.1.1⟩

theorem Seg.length_le (hs : Seg h p c none) : c.length ≤ h.entries.length := by
  have hsub : (c.map Prod.fst).Subperm h.keys :=
    List.subperm_of_subset hs.nodup fun a ha => AList.mem_keys.mp (hs.mem ha)
  simpa [AList.keys, List.keys] using hsub.length_le

/-- What lies under an address of the chain. -/
theorem Seg.cell (hs : Seg h p c q) (ha : a ∈ c.map Prod.fst) {cell : Cell ι α}
    (hcell : h.lookup a = some cell) : (a, cell.data) ∈ c := by
  obtain ⟨⟨a, x⟩, hm, rfl⟩ := List.mem_map.mp ha
  obtain ⟨c₁, c₂, rfl⟩ := List.append_of_mem hm
  obtain ⟨n, hn, _⟩ := hs.lookup
  rw [hn] at hcell
  obtain rfl := Option.some.inj hcell
  exact hm

/-- A cell before the last one has a link. -/
theorem Seg.next_ne_none (hs : Seg h p (c ++ [(b, y)]) none) (ha : a ∈ c.map Prod.fst)
    {cell : Cell ι α} (hcell : h.lookup a = some cell) : cell.next ≠ none := by
  obtain ⟨⟨a, x⟩, hm, rfl⟩ := List.mem_map.mp ha
  obtain ⟨c₁, c₂, rfl⟩ := List.append_of_mem hm
  rw [List.append_assoc] at hs
  obtain ⟨n, hn, hrest⟩ := hs.lookup
  rw [hn] at hcell
  obtain rfl := Option.some.inj hcell
  intro he
  obtain rfl : n = none := he
  cases c₂ with
  | nil => exact absurd hrest.1 (by simp)
  | cons e c₂ => exact absurd hrest.1 (by simp)

/-! ### Frames -/

theorem Seg.congr (hs : Seg h p c q) (he : ∀ a ∈ c.map Prod.fst, h'.lookup a = h.lookup a) :
    Seg h' p c q := by
  induction c generalizing p with
  | nil => exact hs
  | cons e c ih =>
    obtain ⟨hp, n, hn, hc⟩ := hs
    refine ⟨hp, n, ?_, ih hc fun a ha => he a (List.mem_cons_of_mem _ ha)⟩
    rw [← hn]
    exact he _ (List.mem_cons_self ..)

theorem Seg.insert {cell : Cell ι α} (hs : Seg h p c q) (ha : a ∉ c.map Prod.fst) :
    Seg (h.insert a cell) p c q :=
  hs.congr fun b hb => AList.lookup_insert_ne (by rintro rfl; exact ha hb)

theorem Seg.erase (hs : Seg h p c q) (ha : a ∉ c.map Prod.fst) : Seg (h.erase a) p c q :=
  hs.congr fun b hb => AList.lookup_erase_ne (by rintro rfl; exact ha hb)

/-- The last cell of a chain led elsewhere. -/
theorem Seg.redirect {n : Option ι} (hs : Seg h p (c ++ [(a, x)]) q) (ha : a ∉ c.map Prod.fst) :
    Seg (h.insert a ⟨x, n⟩) p (c ++ [(a, x)]) n := by
  obtain ⟨r, hc, hr, _⟩ := seg_append.mp hs
  exact seg_append.mpr ⟨r, hc.insert ha, hr, n, AList.lookup_insert h, rfl⟩

/-! ### Walks -/

/-- The write of a link; writing through an address that is not allocated faults. -/
def setNext (h : Heap ι α) (a : ι) (n : Option ι) : Option (Heap ι α) :=
  (h.lookup a).map fun cell => h.insert a { cell with next := n }

/-- The loop that follows the links until a cell meets `stop`, or to null; it ends with the
pointers `prev` and `curr`. A walk of more steps than there are cells would never end. -/
def walk (h : Heap ι α) (stop : Cell ι α → Bool) : Nat → Option ι → Option ι →
    Option (Option ι × Option ι)
  | 0, _, _ => none
  | _ + 1, prev, none => some (prev, none)
  | fuel + 1, prev, some a => do
    let cell ← h.lookup a
    if stop cell then some (prev, some a) else walk h stop fuel (some a) cell.next

/-- The loop that follows a number of links, if there are as many. -/
def advance (h : Heap ι α) : Nat → Option ι → Option ι → Option (Option ι × Option ι)
  | 0, prev, curr => some (prev, curr)
  | _ + 1, prev, none => some (prev, none)
  | n + 1, _, some a => do
    let cell ← h.lookup a
    advance h n (some a) cell.next

variable {stop : Cell ι α → Bool} {fuel : Nat} {prev : Option ι}

theorem setNext_eq {n m : Option ι} (ha : h.lookup a = some ⟨x, m⟩) :
    setNext h a n = some (h.insert a ⟨x, n⟩) := by
  rw [setNext, ha]
  rfl

theorem walk_append (hs : Seg h p c q) (hc : ∀ a ∈ c.map Prod.fst, ∀ cell, h.lookup a = some cell →
    stop cell = false) : walk h stop (c.length + fuel) prev p = walk h stop fuel (lastOf prev c) q := by
  induction c generalizing p prev with
  | nil =>
    obtain rfl : p = q := hs
    rw [List.length_nil, Nat.zero_add]
    rfl
  | cons e c ih =>
    obtain ⟨a, x⟩ := e
    obtain ⟨rfl, n, hn, hs⟩ := hs
    have hstop := hc a (List.mem_cons_self ..) _ hn
    have hi : walk h stop (c.length + fuel) (some a) n = walk h stop fuel (lastOf (some a) c) q :=
      ih hs fun b hb => hc b (List.mem_cons_of_mem _ hb)
    rw [List.length_cons, Nat.add_right_comm, walk, hn]
    simpa [hstop, lastOf] using hi

/-- The walk stops at the first cell that meets `stop`. -/
theorem walk_found {n : Option ι} (hs : Seg h p (c ++ (a, x) :: d) none)
    (hc : ∀ b ∈ c.map Prod.fst, ∀ cell, h.lookup b = some cell → stop cell = false)
    (ha : h.lookup a = some ⟨x, n⟩) (hstop : stop ⟨x, n⟩ = true) :
    walk h stop (h.entries.length + 1) none p = some (lastOf none c, some a) := by
  have hlen := hs.length_le
  obtain ⟨r, hcs, rfl, hn⟩ := seg_append.mp hs
  obtain ⟨fuel, hf⟩ : ∃ fuel, h.entries.length + 1 = c.length + (fuel + 1) :=
    ⟨h.entries.length - c.length, by simp only [List.length_append, List.length_cons] at hlen; omega⟩
  rw [hf, walk_append hcs hc, walk, ha]
  simp [hstop]

/-- Where no cell does, it ends at null. -/
theorem walk_not_found (hs : Seg h p c none)
    (hc : ∀ b ∈ c.map Prod.fst, ∀ cell, h.lookup b = some cell → stop cell = false) :
    walk h stop (h.entries.length + 1) none p = some (lastOf none c, none) := by
  have hlen := hs.length_le
  obtain ⟨fuel, hf⟩ : ∃ fuel, h.entries.length + 1 = c.length + (fuel + 1) :=
    ⟨h.entries.length - c.length, by omega⟩
  rw [hf, walk_append hs hc, walk]

theorem advance_append (hs : Seg h p c q) (n : Nat) :
    advance h (c.length + n) prev p = advance h n (lastOf prev c) q := by
  induction c generalizing p prev with
  | nil =>
    obtain rfl : p = q := hs
    rw [List.length_nil, Nat.zero_add]
    rfl
  | cons e c ih =>
    obtain ⟨a, x⟩ := e
    obtain ⟨rfl, m, hm, hs⟩ := hs
    rw [List.length_cons, Nat.add_right_comm, advance, hm]
    exact ih hs

theorem advance_none (n : Nat) : advance h n prev none = some (prev, none) := by
  cases n with
  | zero => rfl
  | succ n => rfl

end Heaps

end FileStorage.Chain
