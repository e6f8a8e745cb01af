import FileStorage.Server

/-! What a call that returns does to the catalog. `Catalog.deed` tells from the state and the
request which change is due; `Effect` is the change. -/

namespace FileStorage

/-- The files differ in their locks at most. -/
structure SameData (f g : File) : Prop where
  path : g.path = f.path
  size : g.size = f.size
  contents : g.contents = f.contents
  fresh : chkFlag g.flags oCreate = chkFlag f.flags oCreate

/-- The record of a file after `write_file_handler`. -/
def File.wrote (f : File) (body : Bytes) : File :=
  { f with flags := clrFlag f.flags oCreate, size := body.length, contents := some body }

/-- The record of a file after `append_to_file_handler`. -/
def File.appended (f : File) (body : Bytes) : File :=
  let newSize := sizeAdd f.size body.length
  { f with size := newSize, contents := some (overwrite (reallocBytes f.contents newSize) f.size body) }

namespace Catalog

/-! ### The changes -/

def Relabeled (v v' : Catalog) : Prop :=
  ∃ g : File → File, (∀ f ∈ v.stored, SameData f (g f)) ∧
    v' = { v with stored := v.stored.map g }

structure Created (v : Catalog) (p : Path) (v' : Catalog) : Prop where
  absent : v.get p = none
  stored : ∃ list, v'.stored.Perm (File.fresh p list :: v.stored)
  rest : v' = { v with stored := v'.stored, noOfFiles := v.noOfFiles + 1 }

/-- The counters without a file. -/
def discount (v : Catalog) (f : File) : Catalog :=
  { v with noOfFiles := v.noOfFiles - 1, currentSize := sizeSub v.currentSize f.size }

/-- `storage_remove_file`: a path that is not in the queue stays in the table. -/
def discard (v : Catalog) (p : Path) (f : File) : Catalog :=
  let w := { v.discount f with queue := v.queue.erase p }
  if p ∈ v.queue then w.wipe p else w

/-- One round of `storage_FIFO_replace`. -/
def expel (v : Catalog) (q : Path) (f : File) : Catalog :=
  { v.discount f with queue := v.queue.tail }.wipe q

inductive Evicts (n : Nat) : Catalog → List Path → List Access → Catalog → Prop where
  | done {v : Catalog} (h : ¬sizeAdd v.currentSize n > v.maxSize) : Evicts n v [] [] v
  | round {v v' : Catalog} {q : Path} {qs : List Path} {ns : List Access} {f : File}
      (h : sizeAdd v.currentSize n > v.maxSize) (hq : v.queue.head? = some q)
      (hf : v.get q = some f) (hr : Evicts n (v.expel q f) qs ns v') :
      Evicts n v (q :: qs) (.victim q :: .shrinkSize v.currentSize f.size :: ns) v'

/-- The record `g` of the path `p` is put back and `p` joins the queue. Where an allocation
fails, a path whose entry is gone stays out of the table, or `p` out of the queue. -/
structure Finished (fail : Prop) (v : Catalog) (p : Path) (g : File) (v' : Catalog) : Prop where
  stored : v'.stored.Perm (g :: v.stored.filter fun f => f.path ≠ p) ∨
    fail ∧ p ∉ v.paths ∧ v'.stored = v.stored
  queue : v'.queue = v.queue ++ [p] ∨ fail ∧ v'.queue = v.queue
  rest : v' = { v with
    stored := v'.stored, queue := v'.queue, currentSize := sizeAdd v.currentSize g.size }

/-- `open_file_handler` at the limit of files: the head of the queue is taken out before
`storage_remove_file` looks for it there. -/
def replaceHead (v : Catalog) (q : Path) : Catalog :=
  let w := { v with queue := v.queue.tail }
  match w.get q with
  | some f => w.discard q f
  | none => w

/-! ### Files that leave -/

theorem get_none_of_subset {v w : Catalog} (h : w.stored ⊆ v.stored) {p : Path}
    (hp : v.get p = none) : w.get p = none := by
  rw [get_eq_none_iff] at hp ⊢
  exact fun hm => hp (List.map_subset _ h hm)

theorem wipe_subset (v : Catalog) (p : Path) : (v.wipe p).stored ⊆ v.stored :=
  List.filter_sublist.subset

theorem discard_subset (v : Catalog) (p : Path) (f : File) : (v.discard p f).stored ⊆ v.stored := by
  unfold discard
  split
  · exact wipe_subset _ _
  · exact List.Subset.refl _

theorem replaceHead_subset (v : Catalog) (q : Path) : (v.replaceHead q).stored ⊆ v.stored := by
  simp only [replaceHead]
  split
  · exact discard_subset _ _ _
  · exact List.Subset.refl _

/-! ### Relabeling -/

theorem Relabeled.paths {v v' : Catalog} (h : v.Relabeled v') : v'.paths = v.paths := by
  obtain ⟨g, hg, rfl⟩ := h
  simpa [Catalog.paths] using fun f hf => (hg f hf).path

theorem Relabeled.bytes {v v' : Catalog} (h : v.Relabeled v') : v'.bytes = v.bytes := by
  obtain ⟨g, hg, rfl⟩ := h
  simp only [Catalog.bytes, List.map_map]
  exact congrArg List.sum (List.map_congr_left fun f hf => (hg f hf).size)

theorem Relabeled.get_some {v v' : Catalog} (h : v.Relabeled v') (hd : v.paths.Nodup) {p : Path}
    {f : File} (hf : v.get p = some f) : ∃ f', v'.get p = some f' ∧ SameData f f' := by
  have hd' := h.paths ▸ hd
  obtain ⟨g, hg, rfl⟩ := h
  obtain ⟨hm, hp⟩ := get_eq_some hf
  refine ⟨g f, (get_eq_some_iff hd').mpr ⟨List.mem_map_of_mem hm, ?_⟩, hg f hm⟩
  rw [(hg f hm).path, hp]

theorem Relabeled.get_none {v v' : Catalog} (h : v.Relabeled v') {p : Path} :
    v'.get p = none ↔ v.get p = none := by
  rw [get_eq_none_iff, get_eq_none_iff, h.paths]

theorem Created.get {v v' : Catalog} {p : Path} (h : v.Created p v') (hd : v'.paths.Nodup) :
    ∃ list, v'.get p = some (File.fresh p list) := by
  obtain ⟨list, hl⟩ := h.stored
  exact ⟨list, (get_eq_some_iff_of_perm hd hl).mpr ⟨by simp, rfl⟩⟩

/-! ### Which change is due -/

end Catalog

inductive Deed where
  | other
  | create (p : Path)
  | replace (p q : Path)
  | discard (p : Path) (f : File)
  | write (p : Path) (f : File) (body : Bytes)
  | append (p : Path) (f : File) (body : Bytes)
  deriving DecidableEq

/-- The stored file a deed is about. -/
def Deed.target : Deed → Option (Path × File)
  | discard p f => some (p, f)
  | write p f _ => some (p, f)
  | append p f _ => some (p, f)
  | _ => none

namespace Catalog

def deedOpen (v : Catalog) (p : Path) (body : Bytes) : Deed :=
  match readInt body, v.get p with
  | some flags, none =>
    if chkFlag flags oCreate = false then .other
    else if v.noOfFiles + 1 > v.maxFiles then v.queue.head?.elim .other (.replace p)
    else .create p
  | _, _ => .other

def deedWrite (v : Catalog) (clientFd : Nat) (p : Path) (body : Bytes) : Deed :=
  match v.get p with
  | none => .other
  | some f =>
    if body = [] ∨ f.lockedBy ≠ clientFd then .other
    else if body.length > v.maxSize then .discard p f
    else if chkFlag f.flags oCreate = false then .other
    else .write p f body

def deedAppend (v : Catalog) (clientFd : Nat) (p : Path) (body : Bytes) : Deed :=
  match v.get p with
  | none => .other
  | some f =>
    if body = [] ∨ body.length > v.maxSize ∨ f.lockedBy ≠ clientFd then .other
    else .append p f body

def deedRemove (v : Catalog) (clientFd : Nat) (p : Path) : Deed :=
  match v.get p with
  | none => .other
  | some f =>
    if chkFlag f.flags oLock = false ∨ f.lockedBy ≠ clientFd then .other else .discard p f

def deed (v : Catalog) : Call → Deed
  | .lockManager => .other
  | .request clientFd req =>
    match req.path.join with
    | none => .other
    | some p =>
      match req.type with
      | .openFile => v.deedOpen p req.body
      | .writeFile => v.deedWrite clientFd p req.body
      | .appendToFile => v.deedAppend clientFd p req.body
      | .removeFile => v.deedRemove clientFd p
      | _ => .other

/-- The request and the state behind each deed. -/
inductive Due (v : Catalog) : Call → Deed → Prop where
  | other {c : Call} : Due v c .other
  | create {clientFd : Nat} {req : Request} {p : Path} {flags : Flags} (ht : req.type = .openFile)
      (hp : req.path.join = some p) (hb : readInt req.body = some flags)
      (hc : chkFlag flags oCreate = true) (hg : v.get p = none)
      (hl : v.noOfFiles + 1 ≤ v.maxFiles) : Due v (.request clientFd req) (.create p)
  | replace {clientFd : Nat} {req : Request} {p q : Path} {flags : Flags}
      (ht : req.type = .openFile) (hp : req.path.join = some p) (hb : readInt req.body = some flags)
      (hc : chkFlag flags oCreate = true) (hg : v.get p = none)
      (hl : v.noOfFiles + 1 > v.maxFiles) (hq : v.queue.head? = some q) :
      Due v (.request clientFd req) (.replace p q)
  | refuse {clientFd : Nat} {req : Request} {p : Path} {f : File} (ht : req.type = .writeFile)
      (hp : req.path.join = some p) (hb : req.body ≠ []) (hg : v.get p = some f)
      (hl : f.lockedBy = clientFd) (hs : req.body.length > v.maxSize) :
      Due v (.request clientFd req) (.discard p f)
  | remove {clientFd : Nat} {req : Request} {p : Path} {f : File} (ht : req.type = .removeFile)
      (hp : req.path.join = some p) (hg : v.get p = some f) (hc : chkFlag f.flags oLock = true)
      (hl : f.lockedBy = clientFd) : Due v (.request clientFd req) (.discard p f)
  | write {clientFd : Nat} {req : Request} {p : Path} {f : File} (ht : req.type = .writeFile)
      (hp : req.path.join = some p) (hb : req.body ≠ []) (hg : v.get p = some f)
      (hl : f.lockedBy = clientFd) (hs : req.body.length ≤ v.maxSize)
      (hc : chkFlag f.flags oCreate = true) : Due v (.request clientFd req) (.write p f req.body)
  | append {clientFd : Nat} {req : Request} {p : Path} {f : File} (ht : req.type = .appendToFile)
      (hp : req.path.join = some p) (hb : req.body ≠ []) (hg : v.get p = some f)
      (hl : f.lockedBy = clientFd) (hs : req.body.length ≤ v.maxSize) :
      Due v (.request clientFd req) (.append p f req.body)

theorem deed_due (v : Catalog) (c : Call) : v.Due c (v.deed c) := by
  cases c with
  | lockManager => exact .other
  | request clientFd req =>
    cases hp : req.path.join with
    | none => simpa [deed, hp] using Due.other
    | some p =>
      simp only [deed, hp]
      split
      · rename_i ht
        unfold deedOpen
        split
        · rename_i flags hb hg
          by_cases hc : chkFlag flags oCreate = false
          · rw [if_pos hc]
            exact .other
          · rw [if_neg hc]
            by_cases hl : v.noOfFiles + 1 > v.maxFiles
            · rw [if_pos hl]
              cases hq : v.queue.head? with
              | none => exact .other
              | some q => exact .replace ht hp hb (by simpa using hc) hg hl hq
            · rw [if_neg hl]
              exact .create ht hp hb (by simpa using hc) hg (by omega)
        · exact .other
      · rename_i ht
        cases hg : v.get p with
        | none => simpa [deedWrite, hg] using Due.other
        | some f =>
          simp only [deedWrite, hg]
          split
          · exact .other
          · rename_i hn
            obtain ⟨hb, hl⟩ := not_or.mp hn
            split
            · exact .refuse ht hp hb hg (by simpa using hl) ‹_›
            · split
              · exact .other
              · exact .write ht hp hb hg (by simpa using hl) (by omega) (by simp_all)
      · rename_i ht
        cases hg : v.get p with
        | none => simpa [deedAppend, hg] using Due.other
        | some f =>
          simp only [deedAppend, hg]
          split
          · exact .other
          · rename_i hn
            obtain ⟨hb, hn⟩ := not_or.mp hn
            obtain ⟨hs, hl⟩ := not_or.mp hn
            exact .append ht hp hb hg (by simpa using hl) (by omega)
      · rename_i ht
        cases hg : v.get p with
        | none => simpa [deedRemove, hg] using Due.other
        | some f =>
          simp only [deedRemove, hg]
          split
          · exact .other
          · rename_i hn
            obtain ⟨hc, hl⟩ := not_or.mp hn
            exact .remove ht hp hg (by simpa using hc) (by simpa using hl)
      · exact .other

theorem get_of_target {v : Catalog} {c : Call} {p : Path} {f : File}
    (h : (v.deed c).target = some (p, f)) : v.get p = some f := by
  have hdue := deed_due v c
  generalize v.deed c = d at h hdue
  cases hdue <;> simp_all [Deed.target]

end Catalog

/-- The type of the request, if the call is one. -/
def Call.type : Call → Option RequestCode
  | request _ req => some req.type
  | lockManager => none

/-- A reply that reports a change of the stored data. -/
def Call.Accepted (c : Call) (r : Option Reply) : Prop :=
  (c.type = some .writeFile ∨ c.type = some .appendToFile ∨ c.type = some .removeFile) ∧
    r = some ⟨.success, []⟩

/-- What a call with reply `r` and notes `ns` does to the catalog. `fail` says that the
environment refuses an allocation or a send. -/
def Effect (fail : Prop) (v : Catalog) (c : Call) (r : Option Reply) (ns : List Access)
    (v' : Catalog) : Prop :=
  match v.deed c with
  | .other => ns = [] ∧ v.Relabeled v' ∧ ¬c.Accepted r
  | .create p => ns = [] ∧
      ((∃ w, v.Created p w ∧ w.Relabeled v' ∧ r = some ⟨.success, []⟩) ∨ fail ∧ v.Relabeled v')
  | .replace p q =>
      (∃ w, (v.replaceHead q).Created p w ∧ w.Relabeled v') ∨
        fail ∧ ((v.replaceHead q).Relabeled v' ∨ v.Relabeled v')
  | .discard p f => ns = [.shrinkSize v.currentSize f.size] ∧ v' = v.discard p f ∧
      r = some ⟨if c.type = some .removeFile then .success else .fileTooBig, []⟩
  | .write p f body => ∃ w qs, v.Evicts body.length qs ns w ∧
      (w.Finished fail p (f.wrote body) v' ∧ r = some ⟨.success, []⟩ ∨
        fail ∧ v' = w ∧ r = some ⟨.internalError, []⟩)
  | .append p f body => ns = [] ∧
      (v' = { v.put p (f.appended body) with currentSize := sizeAdd v.currentSize body.length } ∧
          r = some ⟨.success, []⟩ ∨
        fail ∧ v' = v.put p { f with contents := none } ∧ r = some ⟨.internalError, []⟩)

end FileStorage
