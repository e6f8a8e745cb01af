import FileStorage.Chain
import FileStorage.Client
import FileStorage.Machine

/-! The list of `utils/linked_list.c` with its nodes, its three descriptions (the head, the tail
and the length) and every operation on it. An operation that follows a null or a dangling pointer
faults. The functions on elements are those given to `list_create`. -/

namespace FileStorage

open Chain

abbrev Addr := Nat

/-- An allocator that goes on behind all that is in use. -/
def nextAddress {α : Type} : Allocation Addr α where
  address h := h.keys.sum + 1
  fresh h := by
    intro ha
    exact Nat.not_succ_le_self _ (List.le_sum_of_mem (AList.mem_keys.mp ha))

/-- `calloc` for a node: none where it returns NULL. -/
abbrev Calloc (α : Type) := Option (Allocation Addr α)

structure LinkedList (α : Type) where
  length : Int
  head : Option Addr
  tail : Option Addr
  nodes : Heap Addr α

/-- What an operation returns, with the `errno` that it sets. -/
inductive ListResult (α : Type) where
  | status (result : Int) (errno : Option Errno)
  | element (result : Option α) (errno : Option Errno)
  deriving DecidableEq

def ListResult.failed {α : Type} : ListResult α → Prop
  | status result _ => result = -1
  | element result _ => result = none

@[simp] theorem not_failed_status {α : Type} (errno : Option Errno) :
    ¬(ListResult.status 0 errno : ListResult α).failed := by
  simp [ListResult.failed]

@[simp] theorem not_failed_element {α : Type} (x : α) (errno : Option Errno) :
    ¬(ListResult.element (some x) errno).failed := by
  simp [ListResult.failed]

section Operations

variable {α : Type}

def listCreate : LinkedList α := ⟨0, none, none, ∅⟩

def listIsEmpty (list : LinkedList α) : Bool := list.head = none || list.length = 0

namespace LinkedList

/-- A new node after the tail of a list that is not empty. -/
def linkTail (list : LinkedList α) (new : Addr) (x : α) : Option (LinkedList α) := do
  let t ← list.tail
  let nodes ← setNext (list.nodes.insert new ⟨x, none⟩) t (some new)
  return ⟨list.length + 1, list.head, some new, nodes⟩

/-- A new node before the head. -/
def linkHead (list : LinkedList α) (new : Addr) (x : α) : LinkedList α :=
  ⟨list.length + 1, some new, list.tail, list.nodes.insert new ⟨x, list.head⟩⟩

/-- More steps than a walk takes that ends. -/
def steps (list : LinkedList α) : Nat := list.nodes.entries.length + 1

end LinkedList

open LinkedList ListResult

def listInsertTail (list : LinkedList α) (toInsert : α) (calloc : Calloc α) :
    Option (ListResult α × LinkedList α) :=
  match calloc with
  | none => some (status (-1) (some .enomem), list)
  | some calloc =>
    let new := calloc.address list.nodes
    if list.length = 0 then
      some (status 0 none,
        ⟨list.length + 1, some new, some new, list.nodes.insert new ⟨toInsert, none⟩⟩)
    else (list.linkTail new toInsert).map fun list => (status 0 none, list)

def listInsertHead (list : LinkedList α) (toInsert : α) (calloc : Calloc α) :
    Option (ListResult α × LinkedList α) :=
  match calloc with
  | none => some (status (-1) (some .enomem), list)
  | some calloc => some (status 0 none, list.linkHead (calloc.address list.nodes) toInsert)

def listInsertAtIndex (list : LinkedList α) (toInsert : α) (index : Int) (calloc : Calloc α) :
    Option (ListResult α × LinkedList α) :=
  if index < 0 ∨ list.length < index then some (status (-1) (some .einval), list)
  else match calloc with
  | none => some (status (-1) (some .enomem), list)
  | some calloc =>
    let new := calloc.address list.nodes
    if index = 0 then some (status 0 none, list.linkHead new toInsert)
    else if index = list.length then
      (list.linkTail new toInsert).map fun list => (status 0 none, list)
    else do
      let (prev, curr) ← advance (list.nodes.insert new ⟨toInsert, none⟩) index.toNat none list.head
      -- where the loop has not run, prev is not initialized
      let prev ← prev
      let nodes ← setNext (list.nodes.insert new ⟨toInsert, curr⟩) prev (some new)
      return (status 0 none, ⟨list.length + 1, list.head, list.tail, nodes⟩)

def listRemoveHead (list : LinkedList α) : Option (ListResult α × LinkedList α) :=
  if listIsEmpty list then some (element none (some .einval), list)
  else do
    let tmp ← list.head
    let node ← list.nodes.lookup tmp
    let nodes := list.nodes.erase tmp
    if list.length = 1 then return (element (some node.data) none, ⟨list.length - 1, none, none, nodes⟩)
    else return (element (some node.data) none, ⟨list.length - 1, node.next, list.tail, nodes⟩)

def listRemoveTail (list : LinkedList α) : Option (ListResult α × LinkedList α) :=
  if listIsEmpty list then some (element none (some .einval), list)
  else do
    let (prev, curr) ← walk list.nodes (fun node => node.next.isNone) list.steps none list.head
    let tmp ← curr
    let node ← list.nodes.lookup tmp
    if list.length = 1 then
      return (element (some node.data) none, ⟨list.length - 1, none, none, list.nodes.erase tmp⟩)
    else do
      let p ← prev
      let nodes ← setNext list.nodes p none
      return (element (some node.data) none, ⟨list.length - 1, list.head, prev, nodes.erase tmp⟩)

variable (cmp : α → α → Bool)

def listRemoveElement (list : LinkedList α) (elem : α) : Option (ListResult α × LinkedList α) := do
  let (prev, curr) ← walk list.nodes (fun node => cmp node.data elem) list.steps none list.head
  match curr with
  | none => return (status (-1) (some .enoent), list)
  | some tmp => do
    let node ← list.nodes.lookup tmp
    match prev with
    | none => return (status 0 none, ⟨list.length - 1, node.next, list.tail, list.nodes.erase tmp⟩)
    | some p => do
      let nodes ← setNext list.nodes p node.next
      -- only here is the tail looked after
      let tail := if node.next.isNone then prev else list.tail
      return (status 0 none, ⟨list.length - 1, list.head, tail, nodes.erase tmp⟩)

/-- The loop of `list_find` from an index and a node on. -/
def findFrom (nodes : Heap Addr α) (elem : α) : Nat → Int → Option Addr → Option Int
  | 0, _, _ => none
  | _ + 1, _, none => some (-1)
  | fuel + 1, index, some curr => do
    let node ← nodes.lookup curr
    if cmp node.data elem then some index else findFrom nodes elem fuel (index + 1) node.next

def listFind (list : LinkedList α) (elem : α) : Option Int :=
  findFrom cmp list.nodes elem list.steps 0 list.head

end Operations

/-! ### Calls -/

inductive ListCall (α : Type) where
  | insertTail (toInsert : α) (calloc : Calloc α)
  | insertHead (toInsert : α) (calloc : Calloc α)
  | insertAtIndex (toInsert : α) (index : Int) (calloc : Calloc α)
  | removeHead
  | removeTail
  | removeElement (elem : α)

namespace ListCall

variable {α : Type} (cmp : α → α → Bool)

def apply (list : LinkedList α) : ListCall α → Option (ListResult α × LinkedList α)
  | insertTail x calloc => listInsertTail list x calloc
  | insertHead x calloc => listInsertHead list x calloc
  | insertAtIndex x index calloc => listInsertAtIndex list x index calloc
  | removeHead => listRemoveHead list
  | removeTail => listRemoveTail list
  | removeElement elem => listRemoveElement cmp list elem

def step (list : LinkedList α) (call : ListCall α) : Option (LinkedList α) :=
  (call.apply cmp list).map Prod.snd

/-- The operations that the server and the client use. -/
def Queues : ListCall α → Prop
  | insertHead _ _ => False
  | insertAtIndex _ _ _ => False
  | _ => True

instance : DecidablePred (Queues : ListCall α → Prop)
  | insertHead _ _ | insertAtIndex _ _ _ => .isFalse id
  | insertTail _ _ | removeHead | removeTail | removeElement _ => .isTrue trivial

/-- The index of the first element that is equal. -/
def firstMatch (xs : List α) (elem : α) : Option Nat := xs.findIdx? fun x => cmp x elem

/-- What the call is for: on a sequence of elements. -/
def onSequence (xs : List α) : ListCall α → ListResult α × List α
  | insertTail _ none | insertHead _ none => (.status (-1) (some .enomem), xs)
  | insertTail x (some _) => (.status 0 none, xs ++ [x])
  | insertHead x (some _) => (.status 0 none, x :: xs)
  | insertAtIndex x index calloc =>
    if index < 0 ∨ xs.length < index then (.status (-1) (some .einval), xs)
    else if calloc.isNone then (.status (-1) (some .enomem), xs)
    else (.status 0 none, xs.take index.toNat ++ [x] ++ xs.drop index.toNat)
  | removeHead => (.element xs.head? (if xs = [] then some .einval else none), xs.tail)
  | removeTail => (.element xs.getLast? (if xs = [] then some .einval else none), xs.dropLast)
  | removeElement elem =>
    (firstMatch cmp xs elem).elim (.status (-1) (some .enoent), xs) fun i =>
      (.status 0 none, xs.eraseIdx i)

/-- The sequence after some calls. -/
def sequence (xs : List α) (calls : List (ListCall α)) : List α :=
  calls.foldl (fun xs call => (call.onSequence cmp xs).2) xs

end ListCall

/-! ### The nodes that are reachable from the head -/

namespace LinkedList

variable {α : Type} {list list' : LinkedList α} {c d : List (Addr × α)} {a b : Addr} {x y : α}
  {r : ListResult α}

/-- The cells of `c` are those reachable from the head, and the length counts at least them. -/
structure Linked (list : LinkedList α) (c : List (Addr × α)) : Prop where
  chain : Seg list.nodes list.head c none
  count : (c.length : Int) ≤ list.length

/-- The three descriptions agree. -/
structure Exact (list : LinkedList α) (c : List (Addr × α)) : Prop where
  chain : Seg list.nodes list.head c none
  length : list.length = c.length
  tail : c ≠ [] → list.tail = lastOf none c

theorem Exact.linked (he : list.Exact c) : list.Linked c := ⟨he.chain, he.length.ge⟩

theorem exact_create : (listCreate : LinkedList α).Exact [] :=
  ⟨rfl, rfl, fun h => absurd rfl h⟩

theorem listIsEmpty_cons (hl : list.Linked ((a, x) :: c)) : listIsEmpty list = false := by
  have hcount := hl.count
  have hhead := hl.chain.1
  simp only [List.length_cons, Nat.cast_add, Nat.cast_one] at hcount
  have hne : list.length ≠ 0 := by omega
  simp [listIsEmpty, hhead, hne]

theorem listIsEmpty_nil (hl : list.Linked []) : listIsEmpty list = true := by
  have hhead : list.head = none := hl.chain
  simp [listIsEmpty, hhead]

theorem lastOf_eq_of_ne_nil {prev prev' : Option Addr} (hc : c ≠ []) :
    lastOf prev c = lastOf prev' c := by
  cases c with
  | nil => exact absurd rfl hc
  | cons e c => rfl

/-! #### Removals -/

theorem listRemoveHead_cons (hl : list.Linked ((a, x) :: c)) :
    ∃ head tail, listRemoveHead list =
        some (.element (some x) none, ⟨list.length - 1, head, tail, list.nodes.erase a⟩) ∧
      Seg (list.nodes.erase a) head c none ∧ (c ≠ [] → tail = list.tail) := by
  obtain ⟨hhead, n, hn, hc⟩ := hl.chain
  have hcount := hl.count
  have ha : a ∉ c.map Prod.fst := (List.nodup_cons.mp hl.chain.nodup).1
  rw [listRemoveHead, listIsEmpty_cons hl]
  by_cases hone : list.length = 1
  · have hnil : c = [] := by
      rw [← List.length_eq_zero_iff]
      simp only [List.length_cons] at hcount
      omega
    refine ⟨none, none, by simp [hhead, hn, hone], ?_, fun h => absurd hnil h⟩
    rw [hnil]
    rfl
  · exact ⟨n, list.tail, by simp [hhead, hn, hone], hc.erase ha, fun _ => rfl⟩

/-- The walk of `list_remove_tail` ends at the last node. -/
theorem walk_last (hl : list.Linked (c ++ [(a, x)])) :
    walk list.nodes (fun node => node.next.isNone) list.steps none list.head =
        some (lastOf none c, some a) ∧ list.nodes.lookup a = some ⟨x, none⟩ := by
  obtain ⟨n, hn, hnil⟩ := hl.chain.lookup
  obtain rfl : n = none := hnil
  refine ⟨walk_found hl.chain (fun b hb cell hcell => ?_) hn rfl, hn⟩
  simpa [Option.isNone_eq_false_iff, Option.isSome_iff_ne_none] using hl.chain.next_ne_none hb hcell

theorem listRemoveTail_one (hl : list.Linked [(a, x)]) :
    listRemoveTail list = if list.length = 1 then
      some (.element (some x) none, ⟨list.length - 1, none, none, list.nodes.erase a⟩) else none := by
  obtain ⟨hw, hn⟩ := walk_last (c := []) hl
  rw [listRemoveTail, listIsEmpty_cons hl]
  by_cases hone : list.length = 1
  · simp [hw, hn, hone]
  · simp [hw, hone, lastOf]

/-- The chain with its parts around the last cell of the first one. -/
theorem split_chain (hs : Seg list.nodes list.head (c ++ [(b, y)] ++ d) none) :
    Seg list.nodes list.head (c ++ (b, y) :: d) none := by
  rwa [List.append_assoc] at hs

theorem listRemoveTail_two (hl : list.Linked (c ++ [(b, y)] ++ [(a, x)])) :
    ∃ nodes, listRemoveTail list =
        some (.element (some x) none, ⟨list.length - 1, list.head, some b, nodes⟩) ∧
      Seg nodes list.head (c ++ [(b, y)]) none := by
  obtain ⟨hw, hn⟩ := walk_last hl
  have hcount := hl.count
  simp only [List.length_append, List.length_singleton, Nat.cast_add, Nat.cast_one] at hcount
  have hone : list.length ≠ 1 := by omega
  have hempty : listIsEmpty list = false := by
    obtain ⟨e, d, he⟩ := List.exists_cons_of_ne_nil (show c ++ [(b, y)] ++ [(a, x)] ≠ [] by simp)
    rw [he] at hl
    exact listIsEmpty_cons hl
  obtain ⟨q, hc, _⟩ := seg_append.mp hl.chain
  obtain ⟨m, hm, _⟩ := hc.lookup
  have hb : b ∉ c.map Prod.fst := (split_chain hl.chain).apart.1
  have ha : a ∉ (c ++ [(b, y)]).map Prod.fst := hl.chain.apart.1
  refine ⟨(list.nodes.insert b ⟨y, none⟩).erase a, ?_, (hc.redirect hb).erase ha⟩
  rw [listRemoveTail, hempty]
  simp [hw, hn, hone, setNext_eq hm]

variable {cmp : α → α → Bool} {elem : α}

/-- No node of a part of the chain is equal to the element. -/
theorem passes_of_forall {p q : Option Addr} {nodes : Heap Addr α} (hs : Seg nodes p c q)
    (hc : ∀ z ∈ c.map Prod.snd, cmp z elem = false) :
    ∀ b ∈ c.map Prod.fst, ∀ cell, nodes.lookup b = some cell → cmp cell.data elem = false :=
  fun _ hb _ hcell => hc _ (List.mem_map.mpr ⟨_, hs.cell hb hcell, rfl⟩)

theorem walk_match {n : Option Addr} (hl : list.Linked (c ++ (a, x) :: d))
    (hc : ∀ z ∈ c.map Prod.snd, cmp z elem = false) (hn : list.nodes.lookup a = some ⟨x, n⟩)
    (hx : cmp x elem = true) :
    walk list.nodes (fun node => cmp node.data elem) list.steps none list.head =
      some (lastOf none c, some a) := by
  obtain ⟨q, hs, _⟩ := seg_append.mp hl.chain
  exact walk_found hl.chain (passes_of_forall hs hc) hn hx

theorem listRemoveElement_none (hl : list.Linked c)
    (hc : ∀ z ∈ c.map Prod.snd, cmp z elem = false) :
    listRemoveElement cmp list elem = some (.status (-1) (some .enoent), list) := by
  have hw : walk list.nodes (fun node => cmp node.data elem) list.steps none list.head =
      some (lastOf none c, none) := walk_not_found hl.chain (passes_of_forall hl.chain hc)
  rw [listRemoveElement, hw]
  rfl

/-- The head is removed; the tail is not looked after. -/
theorem listRemoveElement_head (hl : list.Linked ((a, x) :: c)) (hx : cmp x elem = true) :
    ∃ head, listRemoveElement cmp list elem =
        some (.status 0 none, ⟨list.length - 1, head, list.tail, list.nodes.erase a⟩) ∧
      Seg (list.nodes.erase a) head c none := by
  obtain ⟨_, n, hn, hc⟩ := hl.chain
  have hw := walk_match (c := []) hl (by simp) hn hx
  have ha : a ∉ c.map Prod.fst := (List.nodup_cons.mp hl.chain.nodup).1
  refine ⟨n, ?_, hc.erase ha⟩
  rw [listRemoveElement, hw]
  simp [hn, lastOf]

/-- A node behind another one is removed. -/
theorem listRemoveElement_inner (hl : list.Linked (c ++ [(b, y)] ++ (a, x) :: d))
    (hc : ∀ z ∈ (c ++ [(b, y)]).map Prod.snd, cmp z elem = false) (hx : cmp x elem = true) :
    ∃ tail nodes, listRemoveElement cmp list elem =
        some (.status 0 none, ⟨list.length - 1, list.head, tail, nodes⟩) ∧
      Seg nodes list.head (c ++ [(b, y)] ++ d) none ∧
      (d = [] → tail = some b) ∧ (d ≠ [] → tail = list.tail) := by
  obtain ⟨q, hs, rfl, n, hn, hd⟩ := seg_append.mp hl.chain
  have hw := walk_match hl hc hn hx
  obtain ⟨m, hm, _⟩ := hs.lookup
  obtain ⟨hb, hrest⟩ := (split_chain hl.chain).apart
  have hbd : b ∉ d.map Prod.fst := fun hbd => hrest (List.mem_cons_of_mem _ hbd)
  obtain ⟨ha, had⟩ := hl.chain.apart
  have hseg : Seg ((list.nodes.insert b ⟨y, n⟩).erase a) list.head (c ++ [(b, y)] ++ d) none :=
    seg_append.mpr ⟨n, (hs.redirect hb).erase ha, (hd.insert hbd).erase had⟩
  refine ⟨if n.isNone then some b else list.tail, _, ?_, hseg, ?_, ?_⟩
  · rw [listRemoveElement, hw]
    simp [hn, setNext_eq hm]
  · rintro rfl
    obtain rfl : n = none := hd
    rfl
  · intro hne
    cases d with
    | nil => exact absurd rfl hne
    | cons e d =>
      obtain ⟨rfl, _⟩ := hd
      rfl

/-! #### Insertions -/

variable {new : Addr} {calloc : Allocation Addr α}

theorem not_mem_of_fresh {p q : Option Addr} {nodes : Heap Addr α} (hs : Seg nodes p c q)
    (hnew : new ∉ nodes) : new ∉ c.map Prod.fst := fun h => hnew (hs.mem h)

theorem linkHead_chain (hl : list.Linked c) (hnew : new ∉ list.nodes) :
    Seg (list.linkHead new x).nodes (list.linkHead new x).head ((new, x) :: c) none :=
  ⟨rfl, list.head, AList.lookup_insert _, hl.chain.insert (not_mem_of_fresh hl.chain hnew)⟩

/-- The new node is linked behind a node of the chain; what came after that one is lost. -/
theorem linkTail_of_mem (hl : list.Linked (c ++ (b, y) :: d)) (ht : list.tail = some b)
    (hnew : new ∉ list.nodes) :
    ∃ nodes, list.linkTail new x = some ⟨list.length + 1, list.head, some new, nodes⟩ ∧
      Seg nodes list.head (c ++ [(b, y)] ++ [(new, x)]) none := by
  obtain ⟨q, hs, rfl, n, hn, hd⟩ := seg_append.mp hl.chain
  have hmem := not_mem_of_fresh hl.chain hnew
  simp only [List.map_append, List.map_cons, List.mem_append, List.mem_cons, not_or] at hmem
  have hb : b ∉ c.map Prod.fst := hl.chain.apart.1
  have hbn : b ≠ new := fun he => hmem.2.1 he.symm
  have hn' : (list.nodes.insert new ⟨x, none⟩).lookup b = some ⟨y, n⟩ := by
    rw [AList.lookup_insert_ne hbn, hn]
  refine ⟨(list.nodes.insert new ⟨x, none⟩).insert b ⟨y, some new⟩, ?_, ?_⟩
  · simp [linkTail, ht, setNext_eq hn']
  · refine seg_append.mpr ⟨some new, ?_, rfl, none, ?_, rfl⟩
    · have hseg : Seg (list.nodes.insert new ⟨x, none⟩) list.head (c ++ [(b, y)]) n :=
        seg_append.mpr ⟨some b, hs.insert hmem.1, rfl, n, hn', rfl⟩
      exact hseg.redirect hb
    · rw [AList.lookup_insert_ne hbn.symm, AList.lookup_insert]

/-- Linked behind a node that the chain does not have, the new node is lost. -/
theorem linkTail_of_not_mem (hl : list.Linked c) (ht : list.tail = some b) (hb : b ∉ c.map Prod.fst)
    (hnew : new ∉ list.nodes) (h : list.linkTail new x = some list') :
    list'.head = list.head ∧ list'.length = list.length + 1 ∧ Seg list'.nodes list'.head c none := by
  have hmem := not_mem_of_fresh hl.chain hnew
  simp only [linkTail, ht, setNext, Option.bind_eq_bind, Option.bind_some, Option.pure_def,
    Option.bind_eq_some_iff, Option.map_eq_some_iff] at h
  obtain ⟨_, ⟨cell, _, rfl⟩, h⟩ := h
  obtain rfl := Option.some.inj h
  exact ⟨rfl, rfl, (hl.chain.insert hmem).insert hb⟩

theorem listInsertAtIndex_middle {index : Int} (hl : list.Linked (c ++ [(b, y)] ++ d))
    (hpos : 0 < index) (hlt : index < list.length)
    (hi : index.toNat = (c ++ [(b, y)]).length ∨ d = [] ∧ (c ++ [(b, y)]).length ≤ index.toNat) :
    ∃ nodes, listInsertAtIndex list x index (some calloc) =
        some (.status 0 none, ⟨list.length + 1, list.head, list.tail, nodes⟩) ∧
      Seg nodes list.head (c ++ [(b, y)] ++ (calloc.address list.nodes, x) :: d) none := by
  have hmem := not_mem_of_fresh hl.chain (calloc.fresh list.nodes)
  simp only [List.map_append, List.mem_append, not_or] at hmem
  obtain ⟨q, hs, hd⟩ := seg_append.mp hl.chain
  obtain ⟨m, hm, rfl⟩ := hs.lookup
  obtain ⟨hb, hbd⟩ := (split_chain hl.chain).apart
  have hbn : b ≠ calloc.address list.nodes := fun he => hmem.1.2 (by simp [he])
  have hframe : ∀ cell, Seg (list.nodes.insert (calloc.address list.nodes) cell) list.head
      (c ++ [(b, y)]) m := fun cell => hs.insert (by simpa using hmem.1)
  have hadv : advance (list.nodes.insert (calloc.address list.nodes) ⟨x, none⟩) index.toNat none
      list.head = some (some b, m) := by
    obtain ⟨k, hk⟩ : ∃ k, index.toNat = (c ++ [(b, y)]).length + k :=
      ⟨index.toNat - (c ++ [(b, y)]).length, by omega⟩
    rw [hk, advance_append (hframe _), lastOf_append_singleton]
    rcases hi with hi | ⟨rfl, -⟩
    · obtain rfl : k = 0 := by omega
      rfl
    · obtain rfl : m = none := hd
      exact advance_none k
  have hm' : (list.nodes.insert (calloc.address list.nodes) ⟨x, m⟩).lookup b = some ⟨y, m⟩ := by
    rw [AList.lookup_insert_ne hbn, hm]
  refine ⟨_, ?_, seg_append.mpr ⟨some (calloc.address list.nodes), (hframe ⟨x, m⟩).redirect hb, rfl, m,
    ?_, (hd.insert hmem.2).insert hbd⟩⟩
  · rw [listInsertAtIndex, if_neg (by omega)]
    simp only [if_neg (show index ≠ 0 by omega), if_neg (show index ≠ list.length by omega), hadv]
    simp [setNext_eq hm']
  · rw [AList.lookup_insert_ne hbn.symm, AList.lookup_insert]

/-! #### The list as a queue -/

theorem firstMatch_cons (cmp : α → α → Bool) (elem x : α) (xs : List α) :
    ListCall.firstMatch cmp (x :: xs) elem =
      if cmp x elem then some 0 else (ListCall.firstMatch cmp xs elem).map (· + 1) :=
  List.findIdx?_cons

/-- Where the first equal element is, if there is one. -/
theorem firstMatch_cases (cmp : α → α → Bool) (elem : α) (c : List (Addr × α)) :
    (ListCall.firstMatch cmp (c.map Prod.snd) elem = none ∧
        ∀ z ∈ c.map Prod.snd, cmp z elem = false) ∨
      ∃ c₁ a x c₂, c = c₁ ++ (a, x) :: c₂ ∧ (∀ z ∈ c₁.map Prod.snd, cmp z elem = false) ∧
        cmp x elem = true ∧ ListCall.firstMatch cmp (c.map Prod.snd) elem = some c₁.length := by
  induction c with
  | nil => exact .inl ⟨rfl, by simp⟩
  | cons e c ih =>
    obtain ⟨a, x⟩ := e
    cases hx : cmp x elem with
    | true => exact .inr ⟨[], a, x, c, rfl, by simp, hx, by simp [firstMatch_cons, hx]⟩
    | false =>
      rcases ih with ⟨hn, hc⟩ | ⟨c₁, b, y, c₂, rfl, hc, hy, hi⟩
      · exact .inl ⟨by simp [firstMatch_cons, hx, hn], by simpa [hx] using hc⟩
      · refine .inr ⟨(a, x) :: c₁, b, y, c₂, rfl, by simpa [hx] using hc, hy, ?_⟩
        simp only [List.map_cons, firstMatch_cons, hx, hi, Bool.false_eq_true, if_false]
        rfl

theorem exact_insertTail (he : list.Exact c) (x : α) (calloc : Allocation Addr α) :
    ∃ list', listInsertTail list x (some calloc) = some (.status 0 none, list') ∧
      list'.Exact (c ++ [(calloc.address list.nodes, x)]) := by
  have hnew := calloc.fresh list.nodes
  cases List.eq_nil_or_concat' c with
  | inl hnil =>
    subst hnil
    have hzero : list.length = 0 := by simpa using he.length
    refine ⟨_, by rw [listInsertTail, if_pos hzero], ⟨rfl, none, AList.lookup_insert _, rfl⟩, ?_,
      fun _ => rfl⟩
    simp [hzero]
  | inr hcons =>
    obtain ⟨c', ⟨b, y⟩, rfl⟩ := hcons
    have ht : list.tail = some b := by simpa using he.tail (by simp)
    obtain ⟨nodes, hlink, hs⟩ := linkTail_of_mem (d := []) he.linked ht hnew (x := x)
    have hlen := he.length
    simp only [List.length_append, List.length_singleton, Nat.cast_add, Nat.cast_one] at hlen
    refine ⟨_, by rw [listInsertTail, if_neg (by omega), hlink]; rfl, hs, by simp [hlen]; omega, ?_⟩
    exact fun _ => (lastOf_append_singleton ..).symm

theorem exact_removeHead (he : list.Exact ((a, x) :: c)) :
    ∃ list', listRemoveHead list = some (.element (some x) none, list') ∧ list'.Exact c := by
  obtain ⟨head, tail, hr, hs, ht⟩ := listRemoveHead_cons he.linked
  have hlen := he.length
  simp only [List.length_cons, Nat.cast_add, Nat.cast_one] at hlen
  refine ⟨_, hr, hs, by simp [hlen], fun hc => ?_⟩
  rw [ht hc, he.tail (by simp)]
  exact lastOf_eq_of_ne_nil hc

theorem exact_removeTail (he : list.Exact (c ++ [(a, x)])) :
    ∃ list', listRemoveTail list = some (.element (some x) none, list') ∧ list'.Exact c := by
  have hlen := he.length
  simp only [List.length_append, List.length_singleton, Nat.cast_add, Nat.cast_one] at hlen
  cases List.eq_nil_or_concat' c with
  | inl hnil =>
    subst hnil
    have hone : list.length = 1 := by simpa using hlen
    have hr := listRemoveTail_one he.linked
    rw [if_pos hone] at hr
    exact ⟨_, hr, rfl, by simp [hone], fun hc => absurd rfl hc⟩
  | inr hcons =>
    obtain ⟨c', ⟨b, y⟩, rfl⟩ := hcons
    obtain ⟨nodes, hr, hs⟩ := listRemoveTail_two he.linked
    exact ⟨_, hr, hs, by simp at hlen ⊢; omega, fun _ => (lastOf_append_singleton ..).symm⟩

theorem exact_removeElement (he : list.Exact (c ++ (a, x) :: d))
    (hc : ∀ z ∈ c.map Prod.snd, cmp z elem = false) (hx : cmp x elem = true) :
    ∃ list', listRemoveElement cmp list elem = some (.status 0 none, list') ∧
      list'.Exact (c ++ d) := by
  have hlen := he.length
  simp only [List.length_append, List.length_cons, Nat.cast_add, Nat.cast_one] at hlen
  have htail := he.tail (by simp)
  cases List.eq_nil_or_concat' c with
  | inl hnil =>
    subst hnil
    obtain ⟨head, hr, hs⟩ := listRemoveElement_head he.linked hx
    refine ⟨_, hr, hs, by simp at hlen ⊢; omega, fun hd => ?_⟩
    exact htail.trans (lastOf_eq_of_ne_nil hd)
  | inr hcons =>
    obtain ⟨c', ⟨b, y⟩, rfl⟩ := hcons
    obtain ⟨tail, nodes, hr, hs, hnil, hne⟩ := listRemoveElement_inner he.linked hc hx
    refine ⟨_, hr, hs, by simp at hlen ⊢; omega, fun _ => ?_⟩
    cases List.eq_nil_or_concat' d with
    | inl hd =>
      subst hd
      simpa using hnil rfl
    | inr hd =>
      obtain ⟨d', ⟨e, z⟩, rfl⟩ := hd
      have ht : list.tail = some e := by
        rw [htail, ← List.cons_append, ← List.append_assoc, lastOf_append_singleton]
      rw [hne (by simp), ht, ← List.append_assoc, lastOf_append_singleton]

theorem findFrom_eq {p : Option Addr} {nodes : Heap Addr α} (hs : Seg nodes p c none) (fuel : Nat)
    (index : Int) (hf : c.length < fuel) :
    findFrom cmp nodes elem fuel index p =
      some ((ListCall.firstMatch cmp (c.map Prod.snd) elem).elim (-1) fun i => index + i) := by
  induction c generalizing p fuel index with
  | nil =>
    obtain ⟨fuel, rfl⟩ := Nat.exists_eq_succ_of_ne_zero (show fuel ≠ 0 by simp at hf; omega)
    obtain rfl : p = none := hs
    rfl
  | cons e c ih =>
    obtain ⟨fuel, rfl⟩ := Nat.exists_eq_succ_of_ne_zero (show fuel ≠ 0 by omega)
    obtain ⟨a, x⟩ := e
    obtain ⟨rfl, n, hn, hc⟩ := hs
    have hi := ih hc fuel (index + 1) (by simpa using hf)
    rw [findFrom, hn]
    cases hx : cmp x elem with
    | true => simp [firstMatch_cons, hx]
    | false =>
      simp only [Option.bind_eq_bind, Option.bind_some, hx, Bool.false_eq_true, if_false, hi,
        List.map_cons, firstMatch_cons]
      cases ListCall.firstMatch cmp (c.map Prod.snd) elem with
      | none => rfl
      | some i => simp [Int.add_assoc, Int.add_comm 1]

theorem exact_find (he : list.Exact c) (elem : α) :
    listFind cmp list elem =
      some ((ListCall.firstMatch cmp (c.map Prod.snd) elem).elim (-1) fun i => (i : Int)) := by
  have hlen := he.chain.length_le
  rw [listFind, findFrom_eq he.chain _ _ (by rw [steps]; omega)]
  simp

/-- One call on a list whose descriptions agree does what it does to a sequence; where it fails, it
leaves the list as it is. -/
theorem exact_apply (he : list.Exact c) {call : ListCall α} (hq : call.Queues) :
    ∃ r list' c', call.apply cmp list = some (r, list') ∧ list'.Exact c' ∧
      (r, c'.map Prod.snd) = call.onSequence cmp (c.map Prod.snd) ∧ (r.failed → list' = list) := by
  cases call with
  | insertTail x calloc =>
    cases calloc with
    | none => exact ⟨_, _, c, rfl, he, rfl, fun _ => rfl⟩
    | some calloc =>
      obtain ⟨list', hr, he'⟩ := exact_insertTail he x calloc
      exact ⟨_, _, _, hr, he', by simp [ListCall.onSequence], fun hf => absurd hf (by simp)⟩
  | insertHead x calloc => exact absurd hq (by simp [ListCall.Queues])
  | insertAtIndex x index calloc => exact absurd hq (by simp [ListCall.Queues])
  | removeHead =>
    cases c with
    | nil =>
      have hr : listRemoveHead list = some (.element none (some .einval), list) := by
        rw [listRemoveHead, listIsEmpty_nil he.linked]
        rfl
      exact ⟨_, _, [], hr, he, rfl, fun _ => rfl⟩
    | cons e c =>
      obtain ⟨list', hr, he'⟩ := exact_removeHead he
      exact ⟨_, _, c, hr, he', by simp [ListCall.onSequence], fun hf => absurd hf (by simp)⟩
  | removeTail =>
    cases List.eq_nil_or_concat' c with
    | inl hnil =>
      subst hnil
      have hr : listRemoveTail list = some (.element none (some .einval), list) := by
        rw [listRemoveTail, listIsEmpty_nil he.linked]
        rfl
      exact ⟨_, _, [], hr, he, rfl, fun _ => rfl⟩
    | inr hcons =>
      obtain ⟨c', ⟨b, y⟩, rfl⟩ := hcons
      obtain ⟨list', hr, he'⟩ := exact_removeTail he
      exact ⟨_, _, c', hr, he', by simp [ListCall.onSequence], fun hf => absurd hf (by simp)⟩
  | removeElement elem =>
    rcases firstMatch_cases cmp elem c with ⟨hn, hc⟩ | ⟨c₁, a, x, c₂, rfl, hc, hx, hi⟩
    · exact ⟨_, _, c, listRemoveElement_none he.linked hc, he, by simp [ListCall.onSequence, hn],
        fun _ => rfl⟩
    · obtain ⟨list', hr, he'⟩ := exact_removeElement he hc hx
      refine ⟨_, _, _, hr, he', ?_, fun hf => absurd hf (by simp)⟩
      rw [ListCall.onSequence, hi]
      simp [List.eraseIdx_append_of_length_le]

/-- In every run of the operations that the program uses, the list is the sequence that the calls
make. -/
theorem exact_of_reaches {h : List (LinkedList α × ListCall α)}
    (hr : Machine.Reaches (ListCall.step cmp) (fun _ call => call.Queues) listCreate h list) :
    ∃ c, list.Exact c ∧ c.map Prod.snd = ListCall.sequence cmp [] (h.map Prod.snd) := by
  refine hr.invariant (I := fun h list => ∃ c, list.Exact c ∧
    c.map Prod.snd = ListCall.sequence cmp [] (h.map Prod.snd)) ⟨[], exact_create, rfl⟩ ?_
  intro h list call list' ih hq hs
  obtain ⟨c, he, hc⟩ := ih
  obtain ⟨r, list'', c', ha, he', heq, _⟩ : ∃ r list'' c', call.apply cmp list = some (r, list'') ∧
    list''.Exact c' ∧ (r, c'.map Prod.snd) = call.onSequence cmp (c.map Prod.snd) ∧
    (r.failed → list'' = list) := exact_apply he hq
  rw [ListCall.step, ha] at hs
  obtain rfl : list'' = list' := Option.some.inj hs
  refine ⟨c', he', ?_⟩
  rw [List.map_append, ListCall.sequence, List.foldl_append]
  rw [ListCall.sequence] at hc
  simp only [List.map_cons, List.map_nil, List.foldl_cons, List.foldl_nil, ← hc, ← heq]

/-- Every further call and every search agree with that sequence. -/
theorem list_is_sequence {h : List (LinkedList α × ListCall α)}
    (hr : Machine.Reaches (ListCall.step cmp) (fun _ call => call.Queues) listCreate h list) :
    ∃ c, list.Exact c ∧ c.map Prod.snd = ListCall.sequence cmp [] (h.map Prod.snd) ∧
      (∀ call : ListCall α, call.Queues → ∃ r list' c', call.apply cmp list = some (r, list') ∧
        list'.Exact c' ∧ (r, c'.map Prod.snd) = call.onSequence cmp (c.map Prod.snd) ∧
        (r.failed → list' = list)) ∧
      ∀ elem, listFind cmp list elem =
        some ((ListCall.firstMatch cmp (c.map Prod.snd) elem).elim (-1) fun i => (i : Int)) := by
  obtain ⟨c, he, hc⟩ := exact_of_reaches hr
  exact ⟨c, he, hc, fun _ hq => exact_apply he hq, exact_find he⟩

/-- Two elements are queued, the last one is taken back, another one is queued. -/
theorem list_is_sequence_requeued :
    ∃ h list, Machine.Reaches (ListCall.step (fun x y : Nat => x == y)) (fun _ call => call.Queues)
      listCreate h list ∧ h.length = 4 ∧ ∃ c, list.Exact c ∧ c.map Prod.snd = [1, 3] := by
  obtain ⟨h, list, hr, hm, _⟩ := Machine.exists_run (ListCall.step (fun x y : Nat => x == y))
    (fun _ call => call.Queues) listCreate
    [.insertTail 1 (some nextAddress), .insertTail 2 (some nextAddress), .removeTail,
      .insertTail 3 (some nextAddress)] (fun _ => true) rfl
  obtain ⟨c, he, hc, _⟩ := list_is_sequence hr
  rw [hm] at hc
  exact ⟨h, list, hr, by simpa using congrArg List.length hm, c, he, hc⟩

end LinkedList

end FileStorage
