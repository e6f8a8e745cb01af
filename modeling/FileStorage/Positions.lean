import FileStorage.LinkedList

/-! Insertion at any position of the list of `utils/linked_list.c`. The insertions at the head do not
look after the tail, so that in the runs of all operations the three descriptions may disagree. -/

namespace FileStorage.LinkedList

open Chain

variable {α : Type} {cmp : α → α → Bool} {list list' : LinkedList α} {c d : List (Addr × α)}
  {a b new : Addr} {x y : α} {r : ListResult α}

theorem same_list {r' : ListResult α} (h : some (r, list) = some (r', list')) : list = list' :=
  congrArg Prod.snd (Option.some.inj h)

/-! ### Runs of all operations -/

/-- The length counts one more than the cells of a chain that has one cell more at most. -/
theorem Linked.succ {nodes : Heap Addr α} {head tail : Option Addr} (hl : list.Linked c)
    (hd : d.length ≤ c.length + 1) (hs : Seg nodes head d none) :
    (⟨list.length + 1, head, tail, nodes⟩ : LinkedList α).Linked d := by
  have := hl.count
  refine ⟨hs, ?_⟩
  show (d.length : Int) ≤ list.length + 1
  omega

theorem Linked.pred {nodes : Heap Addr α} {head tail : Option Addr} (hl : list.Linked c)
    (hd : d.length + 1 = c.length) (hs : Seg nodes head d none) :
    (⟨list.length - 1, head, tail, nodes⟩ : LinkedList α).Linked d := by
  have := hl.count
  refine ⟨hs, ?_⟩
  show (d.length : Int) ≤ list.length - 1
  omega

theorem linked_linkTail (hl : list.Linked c) (hnew : new ∉ list.nodes)
    (h : list.linkTail new x = some list') : ∃ d, list'.Linked d := by
  cases ht : list.tail with
  | none => simp [linkTail, ht] at h
  | some b =>
    by_cases hb : b ∈ c.map Prod.fst
    · obtain ⟨⟨b, y⟩, hm, rfl⟩ := List.mem_map.mp hb
      obtain ⟨c₁, c₂, rfl⟩ := List.append_of_mem hm
      obtain ⟨nodes, hlink, hs⟩ := linkTail_of_mem hl ht hnew (x := x)
      obtain rfl := Option.some.inj (hlink.symm.trans h)
      exact ⟨_, hl.succ (by simp) hs⟩
    · obtain ⟨_, hlen, hs⟩ := linkTail_of_not_mem hl ht hb hnew h
      have := hl.count
      exact ⟨c, hs, by omega⟩

/-- Where the walk to an index ends, the chain is split. -/
theorem split_at (c : List (Addr × α)) (n : Nat) (hc : c ≠ []) (hn : 0 < n) :
    ∃ c₁ b y c₂, c = c₁ ++ [(b, y)] ++ c₂ ∧ c.take n = c₁ ++ [(b, y)] ∧ c.drop n = c₂ ∧
      (n = (c₁ ++ [(b, y)]).length ∨ c₂ = [] ∧ (c₁ ++ [(b, y)]).length ≤ n) := by
  have hne : c.take n ≠ [] := by
    simp only [ne_eq, List.take_eq_nil_iff, not_or]
    exact ⟨by omega, hc⟩
  obtain ⟨c₁, ⟨b, y⟩, htake⟩ := (List.eq_nil_or_concat' (c.take n)).resolve_left hne
  have hlen : (c.take n).length = min n c.length := List.length_take
  refine ⟨c₁, b, y, c.drop n, ?_, htake, rfl, ?_⟩
  · rw [← htake, List.take_append_drop]
  · rw [← htake, List.drop_eq_nil_iff]
    omega

/-- Where the list is not empty, an index inside it is one where the loop runs. -/
theorem listInsertAtIndex_inner {index : Int} (x : α) (calloc : Allocation Addr α)
    (hl : list.Linked c) (hc : c ≠ []) (hpos : 0 < index) (hlt : index < list.length) :
    ∃ nodes, listInsertAtIndex list x index (some calloc) =
        some (.status 0 none, ⟨list.length + 1, list.head, list.tail, nodes⟩) ∧
      Seg nodes list.head
        (c.take index.toNat ++ (calloc.address list.nodes, x) :: c.drop index.toNat) none := by
  obtain ⟨c₁, b, y, c₂, he, htake, hdrop, hi⟩ := split_at c index.toNat hc (by omega)
  rw [htake, hdrop]
  rw [he] at hl
  exact listInsertAtIndex_middle hl hpos hlt hi

theorem listInsertAtIndex_empty {index : Int} (x : α) (calloc : Allocation Addr α)
    (hl : list.Linked []) (hpos : 0 < index) (hlt : index < list.length) :
    listInsertAtIndex list x index (some calloc) = none := by
  have hhead : list.head = none := hl.chain
  rw [listInsertAtIndex, if_neg (by omega)]
  simp only [if_neg (show index ≠ 0 by omega), if_neg (show index ≠ list.length by omega), hhead,
    advance_none]
  rfl

theorem listInsertAtIndex_head (hl : list.Linked c) (calloc : Calloc α) :
    listInsertAtIndex list x 0 calloc = listInsertHead list x calloc := by
  have := hl.count
  unfold listInsertAtIndex
  rw [if_neg (by omega)]
  rfl

theorem listInsertAtIndex_tail (x : α) (calloc : Allocation Addr α) (hpos : 0 < list.length) :
    listInsertAtIndex list x list.length (some calloc) =
      (list.linkTail (calloc.address list.nodes) x).map fun list => (.status 0 none, list) := by
  rw [listInsertAtIndex, if_neg (by omega)]
  simp only [if_neg (show list.length ≠ 0 by omega), if_true]

theorem listInsertTail_of_length (x : α) (calloc : Allocation Addr α) (hlen : list.length ≠ 0) :
    listInsertTail list x (some calloc) =
      (list.linkTail (calloc.address list.nodes) x).map fun list => (.status 0 none, list) := by
  rw [listInsertTail, if_neg hlen]

theorem linked_insertHead (hl : list.Linked c) {calloc : Calloc α}
    (h : listInsertHead list x calloc = some (r, list')) : ∃ d, list'.Linked d := by
  cases calloc with
  | none =>
    obtain rfl := same_list h
    exact ⟨c, hl⟩
  | some calloc =>
    obtain rfl := same_list h
    exact ⟨_, hl.succ (by simp) (linkHead_chain hl (calloc.fresh _))⟩

theorem linked_insertAtIndex (hl : list.Linked c) {index : Int} {calloc : Calloc α}
    (h : listInsertAtIndex list x index calloc = some (r, list')) : ∃ d, list'.Linked d := by
  by_cases hrange : index < 0 ∨ list.length < index
  · unfold listInsertAtIndex at h
    rw [if_pos hrange] at h
    obtain rfl := same_list h
    exact ⟨c, hl⟩
  by_cases hzero : index = 0
  · subst hzero
    rw [listInsertAtIndex_head hl] at h
    exact linked_insertHead hl h
  cases calloc with
  | none =>
    unfold listInsertAtIndex at h
    rw [if_neg hrange] at h
    obtain rfl := same_list h
    exact ⟨c, hl⟩
  | some calloc =>
    by_cases hlen : index = list.length
    · rw [hlen, listInsertAtIndex_tail x calloc (by omega)] at h
      obtain ⟨list'', hlink, he⟩ := Option.map_eq_some_iff.mp h
      obtain ⟨_, rfl⟩ := Prod.mk.inj he
      exact linked_linkTail hl (calloc.fresh _) hlink
    · by_cases hc : c = []
      · subst hc
        rw [listInsertAtIndex_empty x calloc hl (by omega) (by omega)] at h
        simp at h
      · obtain ⟨nodes, hr, hs⟩ := listInsertAtIndex_inner x calloc hl hc
          (show 0 < index by omega) (by omega)
        obtain rfl := same_list (hr.symm.trans h)
        refine ⟨_, hl.succ ?_ hs⟩
        simp only [List.length_append, List.length_cons, List.length_take, List.length_drop]
        omega

theorem linked_insertTail (hl : list.Linked c) {calloc : Calloc α}
    (h : listInsertTail list x calloc = some (r, list')) : ∃ d, list'.Linked d := by
  cases calloc with
  | none =>
    obtain rfl := same_list h
    exact ⟨c, hl⟩
  | some calloc =>
    rw [listInsertTail] at h
    split at h
    · obtain rfl := same_list h
      exact ⟨[(calloc.address list.nodes, x)], hl.succ (by simp) ⟨rfl, none, AList.lookup_insert _, rfl⟩⟩
    · obtain ⟨list'', hlink, he⟩ := Option.map_eq_some_iff.mp h
      obtain ⟨_, rfl⟩ := Prod.mk.inj he
      exact linked_linkTail hl (calloc.fresh _) hlink

theorem linked_removeHead (hl : list.Linked c) (h : listRemoveHead list = some (r, list')) :
    ∃ d, list'.Linked d := by
  cases c with
  | nil =>
    rw [listRemoveHead, listIsEmpty_nil hl] at h
    obtain rfl := same_list h
    exact ⟨[], hl⟩
  | cons e c =>
    obtain ⟨head, tail, hr, hs, _⟩ := listRemoveHead_cons hl
    obtain rfl := same_list (hr.symm.trans h)
    exact ⟨c, hl.pred rfl hs⟩

theorem linked_removeTail (hl : list.Linked c) (h : listRemoveTail list = some (r, list')) :
    ∃ d, list'.Linked d := by
  rcases List.eq_nil_or_concat' c with rfl | ⟨c, ⟨a, x⟩, rfl⟩
  · rw [listRemoveTail, listIsEmpty_nil hl] at h
    obtain rfl := same_list h
    exact ⟨[], hl⟩
  rcases List.eq_nil_or_concat' c with rfl | ⟨c, ⟨b, y⟩, rfl⟩
  · rw [listRemoveTail_one hl] at h
    split at h
    · obtain rfl := same_list h
      exact ⟨[], hl.pred rfl rfl⟩
    · simp at h
  · obtain ⟨nodes, hr, hs⟩ := listRemoveTail_two hl
    obtain rfl := same_list (hr.symm.trans h)
    exact ⟨_, hl.pred (by simp) hs⟩

theorem linked_removeElement (hl : list.Linked c) {elem : α}
    (h : listRemoveElement cmp list elem = some (r, list')) : ∃ d, list'.Linked d := by
  rcases firstMatch_cases cmp elem c with ⟨_, hc⟩ | ⟨c₁, a, x, c₂, rfl, hc, hx, _⟩
  · obtain rfl := same_list ((listRemoveElement_none hl hc).symm.trans h)
    exact ⟨c, hl⟩
  rcases List.eq_nil_or_concat' c₁ with rfl | ⟨c₁, ⟨b, y⟩, rfl⟩
  · obtain ⟨head, hr, hs⟩ := listRemoveElement_head hl hx
    obtain rfl := same_list (hr.symm.trans h)
    exact ⟨_, hl.pred rfl hs⟩
  · obtain ⟨tail, nodes, hr, hs, _⟩ := listRemoveElement_inner hl hc hx
    obtain rfl := same_list (hr.symm.trans h)
    refine ⟨_, hl.pred ?_ hs⟩
    simp only [List.length_append, List.length_cons]
    omega

theorem linked_apply (hl : list.Linked c) {call : ListCall α}
    (h : call.apply cmp list = some (r, list')) : ∃ d, list'.Linked d := by
  cases call with
  | insertTail x calloc => exact linked_insertTail hl h
  | insertHead x calloc => exact linked_insertHead hl h
  | insertAtIndex x index calloc => exact linked_insertAtIndex hl h
  | removeHead => exact linked_removeHead hl h
  | removeTail => exact linked_removeTail hl h
  | removeElement elem => exact linked_removeElement hl h

theorem linked_of_reaches {h : List (LinkedList α × ListCall α)}
    (hr : Machine.Reaches (ListCall.step cmp) (fun _ _ => True) listCreate h list) :
    ∃ c, list.Linked c := by
  refine hr.always (I := fun list => ∃ c, list.Linked c) ⟨[], exact_create.linked⟩ ?_
  intro list call list' ih _ hs
  obtain ⟨c, hl⟩ := ih
  obtain ⟨⟨r, list''⟩, ha, rfl⟩ := Option.map_eq_some_iff.mp hs
  exact linked_apply hl ha

/-! ### One insertion -/

/-- Inserting at an index puts the element there and leaves a list whose tail is its last node, so
that a following insertion at the tail is right; another index is refused. -/
def InsertsAt (list : LinkedList α) (c : List (Addr × α)) (x : α) (index : Int)
    (calloc : Allocation Addr α) : Prop :=
  if 0 ≤ index ∧ index ≤ list.length then
    ∃ list' c', listInsertAtIndex list x index (some calloc) = some (.status 0 none, list') ∧
      Seg list'.nodes list'.head c' none ∧
      c'.map Prod.snd = (c.map Prod.snd).take index.toNat ++ [x] ++ (c.map Prod.snd).drop index.toNat ∧
      list'.length = list.length + 1 ∧ list'.tail = lastOf none c' ∧
      ∀ y (calloc' : Allocation Addr α), ∃ list'' c'',
        listInsertTail list' y (some calloc') = some (.status 0 none, list'') ∧
        Seg list''.nodes list''.head c'' none ∧ c''.map Prod.snd = c'.map Prod.snd ++ [y]
  else listInsertAtIndex list x index (some calloc) = some (.status (-1) (some .einval), list)

/-- The tail is the last node and the index is that of a node or the length; or the pointer at the
tail is stale, the new node happens to get its address, and the new node is the last one. -/
def Ready (list : LinkedList α) (c : List (Addr × α)) (index : Int) (new : Addr) : Prop :=
  (c ≠ [] ∧ list.tail = lastOf none c ∧ (index < c.length ∨ index = list.length)) ∨
    (list.tail = some new ∧ if c = [] then index = 0 else c.length ≤ index ∧ index < list.length)

theorem lastOf_append_cons (prev : Option Addr) (c : List (Addr × α)) (a : Addr) (x : α)
    (d : List (Addr × α)) : lastOf prev (c ++ (a, x) :: d) = lastOf (some a) d := by
  induction c generalizing prev with
  | nil => rfl
  | cons e c ih => exact ih _

theorem lastOf_append (prev : Option Addr) (c : List (Addr × α)) (hd : d ≠ []) :
    lastOf prev (c ++ d) = lastOf none d := by
  induction c generalizing prev with
  | nil => exact lastOf_eq_of_ne_nil hd
  | cons e c ih => exact ih _

/-- Behind a tail that is the last node an insertion is right. -/
theorem listInsertTail_of_tail (hl : list.Linked c) (hc : c ≠ []) (ht : list.tail = lastOf none c)
    (y : α) (calloc : Allocation Addr α) :
    ∃ list' c', listInsertTail list y (some calloc) = some (.status 0 none, list') ∧
      Seg list'.nodes list'.head c' none ∧ c'.map Prod.snd = c.map Prod.snd ++ [y] := by
  obtain ⟨c, ⟨b, z⟩, rfl⟩ := (List.eq_nil_or_concat' c).resolve_left hc
  have hcount := hl.count
  simp only [List.length_append, List.length_singleton, Nat.cast_add, Nat.cast_one] at hcount
  rw [lastOf_append_singleton] at ht
  obtain ⟨nodes, hlink, hs⟩ := linkTail_of_mem (d := []) hl ht (calloc.fresh _) (x := y)
  have hr := listInsertTail_of_length y calloc (show list.length ≠ 0 by omega)
  rw [hlink, Option.map_some] at hr
  exact ⟨_, _, hr, hs, by simp⟩

/-- Where the call leads to a chain, the property is that the tail is its last node. -/
theorem insertsAt_iff_of_chain {index : Int} {calloc : Allocation Addr α} (hl : list.Linked c)
    (hrange : 0 ≤ index ∧ index ≤ list.length) {head tail : Option Addr} {nodes : Heap Addr α}
    (hr : listInsertAtIndex list x index (some calloc) =
      some (.status 0 none, ⟨list.length + 1, head, tail, nodes⟩))
    (hs : Seg nodes head (c.take index.toNat ++ (new, x) :: c.drop index.toNat) none) :
    list.InsertsAt c x index calloc ↔
      tail = lastOf none (c.take index.toNat ++ (new, x) :: c.drop index.toNat) := by
  rw [InsertsAt, if_pos hrange]
  constructor
  · rintro ⟨list', c', hr', hs', _, _, ht, _⟩
    obtain rfl := same_list (hr.symm.trans hr')
    rw [hs.unique hs']
    exact ht
  · intro ht
    have hsize : (c.take index.toNat ++ (new, x) :: c.drop index.toNat).length ≤ c.length + 1 := by
      simp only [List.length_append, List.length_cons, List.length_take, List.length_drop]
      omega
    have hl' : (⟨list.length + 1, head, tail, nodes⟩ : LinkedList α).Linked _ := hl.succ hsize hs
    refine ⟨_, _, hr, hs, by simp, rfl, ht, fun y calloc' => ?_⟩
    exact listInsertTail_of_tail hl' (by simp) ht y calloc'

theorem insertsAt_head_iff {calloc : Allocation Addr α} (hl : list.Linked c) :
    list.InsertsAt c x 0 calloc ↔ list.Ready c 0 (calloc.address list.nodes) := by
  have hcount := hl.count
  have hr : listInsertAtIndex list x 0 (some calloc) =
      some (.status 0 none, list.linkHead (calloc.address list.nodes) x) := by
    rw [listInsertAtIndex_head hl]
    rfl
  have hs := linkHead_chain hl (calloc.fresh list.nodes) (x := x)
  rw [insertsAt_iff_of_chain hl ⟨le_refl _, by omega⟩ hr hs, Ready]
  cases c with
  | nil => simp [lastOf]
  | cons e c =>
    have hlast : lastOf none ((calloc.address list.nodes, x) :: e :: c) = lastOf none (e :: c) := rfl
    simp [hlast]

/-- Behind the node at the tail: where that is not the last one, something is lost. -/
theorem insertsAt_length_iff {calloc : Allocation Addr α} (hl : list.Linked c)
    (hpos : 0 < list.length) :
    list.InsertsAt c x list.length calloc ↔
      list.Ready c list.length (calloc.address list.nodes) := by
  have hcount := hl.count
  have hnew := calloc.fresh list.nodes
  have hlen : c.length ≤ list.length.toNat := by omega
  have hready : list.Ready c list.length (calloc.address list.nodes) ↔
      c ≠ [] ∧ list.tail = lastOf none c := by
    rw [Ready]
    by_cases hc : c = []
    · simp [hc]
      omega
    · simp [hc]
  rw [hready, InsertsAt, if_pos ⟨by omega, le_refl _⟩]
  constructor
  · rintro ⟨list', c', hr, hs', hc', _⟩
    rw [listInsertAtIndex_tail x calloc hpos] at hr
    obtain ⟨list'', hlink, he⟩ := Option.map_eq_some_iff.mp hr
    obtain ⟨_, rfl⟩ := Prod.mk.inj he
    have hsize : c'.length = c.length + 1 := by
      have := congrArg List.length hc'
      simpa [hlen] using this
    cases ht : list.tail with
    | none => simp [linkTail, ht] at hlink
    | some b =>
      by_cases hb : b ∈ c.map Prod.fst
      · obtain ⟨⟨b, y⟩, hm, rfl⟩ := List.mem_map.mp hb
        obtain ⟨c₁, c₂, rfl⟩ := List.append_of_mem hm
        obtain ⟨nodes, hlink', hs⟩ := linkTail_of_mem hl ht hnew (x := x)
        obtain rfl := Option.some.inj (hlink'.symm.trans hlink)
        have heq := congrArg List.length (hs.unique hs')
        have hnil : c₂ = [] := by
          rw [← List.length_eq_zero_iff]
          simp only [List.length_append, List.length_cons, List.length_nil] at heq hsize
          omega
        subst hnil
        exact ⟨by simp, by simp⟩
      · obtain ⟨_, _, hs⟩ := linkTail_of_not_mem hl ht hb hnew hlink
        have heq := congrArg List.length (hs.unique hs')
        omega
  · rintro ⟨hc, ht⟩
    obtain ⟨c, ⟨b, z⟩, rfl⟩ := (List.eq_nil_or_concat' c).resolve_left hc
    have htail := ht
    rw [lastOf_append_singleton] at htail
    obtain ⟨nodes, hlink, hs⟩ := linkTail_of_mem (d := []) hl htail hnew (x := x)
    have hr := listInsertAtIndex_tail x calloc hpos
    rw [hlink, Option.map_some] at hr
    have htake : (c ++ [(b, z)]).take list.length.toNat = c ++ [(b, z)] :=
      List.take_of_length_le hlen
    have hdrop : (c ++ [(b, z)]).drop list.length.toNat = [] := List.drop_of_length_le hlen
    have hchain : Seg nodes list.head ((c ++ [(b, z)]).take list.length.toNat ++
        (calloc.address list.nodes, x) :: (c ++ [(b, z)]).drop list.length.toNat) none := by
      rw [htake, hdrop]
      exact hs
    have hi := insertsAt_iff_of_chain hl ⟨by omega, le_refl _⟩ hr hchain
    rw [htake, hdrop, lastOf_append_singleton, InsertsAt, if_pos ⟨by omega, le_refl _⟩] at hi
    exact hi.mpr rfl

theorem insertsAt_inner_iff {index : Int} {calloc : Allocation Addr α} (hl : list.Linked c)
    (hpos : 0 < index) (hlt : index < list.length) :
    list.InsertsAt c x index calloc ↔ list.Ready c index (calloc.address list.nodes) := by
  by_cases hc : c = []
  · subst hc
    have hnone := listInsertAtIndex_empty x calloc hl hpos hlt
    rw [InsertsAt, if_pos ⟨by omega, by omega⟩, hnone, Ready]
    simp
    omega
  · obtain ⟨nodes, hr, hs⟩ := listInsertAtIndex_inner x calloc hl hc hpos hlt
    rw [insertsAt_iff_of_chain hl ⟨by omega, by omega⟩ hr hs, Ready]
    by_cases hin : index < c.length
    · have hd : c.drop index.toNat ≠ [] := by
        rw [ne_eq, List.drop_eq_nil_iff]
        omega
      have hlast : lastOf none c = lastOf none (c.drop index.toNat) := by
        conv_lhs => rw [← List.take_append_drop index.toNat c]
        exact lastOf_append none _ hd
      have hskip : lastOf (some (calloc.address list.nodes)) (c.drop index.toNat) = lastOf none c := by
        rw [hlast]
        exact lastOf_eq_of_ne_nil hd
      rw [lastOf_append_cons, hskip]
      simp [hc, hin]
    · have hd : c.drop index.toNat = [] := List.drop_of_length_le (by omega)
      have hle : (c.length : Int) ≤ index := by omega
      rw [hd, lastOf_append_singleton]
      simp [hc, hin, hle, hlt, hlt.ne]

/-- In every run of all operations: an insertion at an index keeps the list well formed exactly
where the list is ready for it. -/
theorem insertsAt_iff {h : List (LinkedList α × ListCall α)}
    (hr : Machine.Reaches (ListCall.step cmp) (fun _ _ => True) listCreate h list) :
    ∃ c, Seg list.nodes list.head c none ∧
      (∀ x (calloc : Calloc α), listInsertHead list x calloc = listInsertAtIndex list x 0 calloc) ∧
      ∀ x index (calloc : Allocation Addr α), list.InsertsAt c x index calloc ↔
        (index < 0 ∨ list.length < index) ∨ list.Ready c index (calloc.address list.nodes) := by
  obtain ⟨c, hl⟩ := linked_of_reaches hr
  have hcount := hl.count
  refine ⟨c, hl.chain, fun x calloc => (listInsertAtIndex_head hl calloc).symm, fun x index calloc => ?_⟩
  by_cases hrange : index < 0 ∨ list.length < index
  · refine iff_of_true ?_ (.inl hrange)
    rw [InsertsAt, if_neg (by omega)]
    unfold listInsertAtIndex
    rw [if_pos hrange]
  · rw [or_iff_right hrange]
    rcases lt_trichotomy 0 index with hpos | rfl | hneg
    · by_cases hlen : index = list.length
      · rw [hlen]
        exact insertsAt_length_iff hl (by omega)
      · exact insertsAt_inner_iff hl hpos (by omega)
    · exact insertsAt_head_iff hl
    · omega

/-- Between two nodes that were queued. -/
theorem insertsAt_between :
    ∃ h list c, Machine.Reaches (ListCall.step (fun x y : Nat => x == y)) (fun _ _ => True)
      listCreate h list ∧ h.length = 2 ∧ c.map Prod.snd = [1, 2] ∧ list.InsertsAt c 7 1 nextAddress := by
  obtain ⟨h, list, hr, hm, _⟩ := Machine.exists_run (ListCall.step (fun x y : Nat => x == y))
    (fun _ call => call.Queues) listCreate
    [.insertTail 1 (some nextAddress), .insertTail 2 (some nextAddress)] (fun _ => true) rfl
  obtain ⟨d, he, hd⟩ := exact_of_reaches hr
  rw [hm] at hd
  replace hd : d.map Prod.snd = [1, 2] := hd
  have hlen : d.length = 2 := by simpa using congrArg List.length hd
  have hne : d ≠ [] := List.ne_nil_of_length_eq_add_one hlen
  have hrun := hr.mono (D := fun _ _ => True) fun _ _ _ => trivial
  obtain ⟨c, hs, _, hiff⟩ := insertsAt_iff hrun
  obtain rfl := hs.unique he.chain
  refine ⟨h, list, c, hrun, by simpa using congrArg List.length hm, hd, (hiff _ _ _).mpr (.inr (.inl ?_))⟩
  exact ⟨hne, he.tail hne, .inl (by omega)⟩

/-- After an insertion at the head of an empty list the tail is not the last node. -/
theorem not_insertsAt_empty :
    ¬∀ (list : LinkedList Nat) (h : List (LinkedList Nat × ListCall Nat)) (c : List (Addr × Nat))
      (x : Nat) (index : Int) (calloc : Allocation Addr Nat),
      Machine.Reaches (ListCall.step (fun x y : Nat => x == y)) (fun _ _ => True) listCreate h list →
      Seg list.nodes list.head c none → list.InsertsAt c x index calloc := by
  intro h
  have hi := h listCreate [] [] 7 0 nextAddress .nil rfl
  rw [InsertsAt, if_pos (by decide)] at hi
  obtain ⟨list', c', hr, _, hc', _, ht, _⟩ := hi
  obtain rfl := same_list hr
  cases c' with
  | nil => simp at hc'
  | cons e c' =>
    rcases List.eq_nil_or_concat' (e :: c') with hnil | ⟨d, ⟨b, y⟩, hd⟩
    · simp at hnil
    · rw [hd, lastOf_append_singleton] at ht
      exact absurd ht (by simp [linkHead, listCreate])

end FileStorage.LinkedList
