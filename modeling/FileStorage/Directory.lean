import FileStorage.LinkedList
import FileStorage.Utilities

/-! The directory walk of the client, `get_files_from_directory`, over a finite tree. -/

namespace FileStorage

open Chain

/-- What `readdir` yields for a directory, entry after entry; a directory comes with its own. -/
inductive Entries where
  | nil
  | file (name : Path) (next : Entries)
  | directory (name : Path) (entries : Entries) (next : Entries)
  deriving DecidableEq

/-- What the calls of the system return, by the path that they are about. -/
structure DirectoryCalls where
  opendir : Path → Bool
  calloc : Path → Bool
  realpath : Path → Option Path
  /-- Whether `errno` is 0 after the loop over a directory. -/
  errnoKept : Path → Bool
  /-- `calloc` for the nodes of the list. -/
  node : Calloc Path

/-- `.` and `..`. -/
def isDots (name : Path) : Bool := name = [46] || name = [46, 46]

/-- The path of an entry, with a `/` between. -/
def entryPath (sourceDir name : Path) : Path := sourceDir ++ 47 :: name

section Walk

variable (calls : DirectoryCalls)

/-- The loop over a directory that has been opened. It returns the result, `*how_many` and the
list. -/
def readEntries (sourceDir : Path) : Entries → Int → LinkedList Path →
    Option (Int × Int × LinkedList Path)
  | .nil, howMany, filesList =>
    some (if calls.errnoKept sourceDir then 0 else -1, howMany, filesList)
  | .file name next, howMany, filesList =>
    if howMany = 0 then some (if calls.errnoKept sourceDir then 0 else -1, howMany, filesList)
    else if isDots name then readEntries sourceDir next howMany filesList
    else if calls.calloc (entryPath sourceDir name) then
      match calls.realpath (entryPath sourceDir name) with
      | none => some (-1, howMany, filesList)
      | some absolutePathname => do
        let (result, filesList) ← listInsertTail filesList absolutePathname calls.node
        if result ≠ .status 0 none then return (-1, howMany, filesList)
        else readEntries sourceDir next (if howMany ≠ -1 then howMany - 1 else howMany) filesList
    else some (-1, howMany, filesList)
  | .directory name entries next, howMany, filesList =>
    if howMany = 0 then some (if calls.errnoKept sourceDir then 0 else -1, howMany, filesList)
    else if isDots name then readEntries sourceDir next howMany filesList
    else if calls.calloc (entryPath sourceDir name) then
      if calls.opendir (entryPath sourceDir name) then do
        let (result, howMany, filesList) ←
          readEntries (entryPath sourceDir name) entries howMany filesList
        if result = -1 then return (-1, howMany, filesList)
        else readEntries sourceDir next howMany filesList
      else some (-1, howMany, filesList)
    else some (-1, howMany, filesList)

def getFilesFromDirectory (sourceDir : Path) (entries : Entries) (howMany : Int)
    (filesList : LinkedList Path) : Option (Int × Int × LinkedList Path) :=
  if calls.opendir sourceDir then readEntries calls sourceDir entries howMany filesList
  else some (-1, howMany, filesList)

end Walk

/-! ### The files of a tree -/

/-- The paths of the entries that are not directories, depth first. -/
def regularFiles (sourceDir : Path) : Entries → List Path
  | .nil => []
  | .file name next =>
    if isDots name then regularFiles sourceDir next
    else entryPath sourceDir name :: regularFiles sourceDir next
  | .directory name entries next =>
    if isDots name then regularFiles sourceDir next
    else regularFiles (entryPath sourceDir name) entries ++ regularFiles sourceDir next

/-- What a budget allows of a list; -1 is no limit. -/
def budgeted {α : Type} (howMany : Int) (l : List α) : List α :=
  if howMany = -1 then l else l.take howMany.toNat

/-- What a budget leaves after so many. -/
def remaining (howMany : Int) (total : Nat) : Int :=
  if howMany = -1 then -1 else howMany - min howMany total

section Budget

variable {α : Type} {howMany : Int} {l r : List α}

theorem remaining_ge (howMany : Int) (total : Nat) : -1 ≤ remaining howMany total := by
  rw [remaining]
  split <;> omega

theorem remaining_add (howMany : Int) (a b : Nat) :
    remaining (remaining howMany a) b = remaining howMany (a + b) := by
  by_cases hn : howMany = -1
  · simp [remaining, hn]
  · have hl : remaining howMany a ≠ -1 := by
      rw [remaining, if_neg hn]
      omega
    rw [remaining, if_neg hl]
    simp only [remaining, if_neg hn]
    omega

theorem budgeted_append (h : -1 ≤ howMany) :
    budgeted howMany (l ++ r) = budgeted howMany l ++ budgeted (remaining howMany l.length) r := by
  by_cases hn : howMany = -1
  · simp [budgeted, remaining, hn]
  · have hl : remaining howMany l.length ≠ -1 := by
      rw [remaining, if_neg hn]
      omega
    have ht : (remaining howMany l.length).toNat = howMany.toNat - l.length := by
      rw [remaining, if_neg hn]
      omega
    simp only [budgeted, if_neg hn, if_neg hl, List.take_append, ht]

theorem budgeted_zero : budgeted 0 l = [] := by simp [budgeted]

theorem remaining_zero (total : Nat) : remaining 0 total = 0 := by simp [remaining]

theorem budgeted_nil : budgeted howMany ([] : List α) = [] := by simp [budgeted]

theorem remaining_none (h : -1 ≤ howMany) : remaining howMany 0 = howMany := by
  rw [remaining]
  split <;> omega

theorem budgeted_singleton (h : -1 ≤ howMany) (h0 : howMany ≠ 0) (a : α) : budgeted howMany [a] = [a] := by
  rw [budgeted]
  split
  · rfl
  · exact List.take_of_length_le (by simp; omega)

theorem remaining_one (h : -1 ≤ howMany) (h0 : howMany ≠ 0) :
    remaining howMany 1 = if howMany ≠ -1 then howMany - 1 else howMany := by
  by_cases hn : howMany = -1
  · simp [remaining, hn]
  · rw [remaining, if_neg hn, if_pos hn]
    omega

end Budget

/-! ### The walk -/

/-- Every call succeeds, and `errno` stays 0. -/
structure DirectoryCalls.Succeed (calls : DirectoryCalls) (resolve : Path → Path) : Prop where
  opendir : ∀ p, calls.opendir p = true
  calloc : ∀ p, calls.calloc p = true
  realpath : ∀ p, calls.realpath p = some (resolve p)
  errnoKept : ∀ p, calls.errnoKept p = true
  node : calls.node ≠ none

section

variable {calls : DirectoryCalls} {resolve : Path → Path} {list : LinkedList Path}
  {c : List (Addr × Path)} {howMany : Int}

/-- By induction on the entries: what comes before leaves its part of the budget to what comes
after. -/
theorem readEntries_eq (hs : calls.Succeed resolve) (entries : Entries) (sourceDir : Path)
    (hn : -1 ≤ howMany) (he : list.Exact c) :
    ∃ list' c', readEntries calls sourceDir entries howMany list =
        some (0, remaining howMany (regularFiles sourceDir entries).length, list') ∧
      list'.Exact c' ∧ c'.map Prod.snd =
        c.map Prod.snd ++ (budgeted howMany (regularFiles sourceDir entries)).map resolve := by
  induction entries generalizing sourceDir howMany list c with
  | nil =>
    refine ⟨list, c, ?_, he, by simp [regularFiles, budgeted_nil]⟩
    simp [readEntries, hs.errnoKept, regularFiles, remaining_none hn]
  | file name next ih =>
    by_cases h0 : howMany = 0
    · subst h0
      refine ⟨list, c, ?_, he, by simp [budgeted_zero]⟩
      simp [readEntries, hs.errnoKept, remaining_zero]
    by_cases hd : isDots name = true
    · simpa [readEntries, regularFiles, h0, hd] using ih sourceDir hn he
    · obtain ⟨calloc, hnode⟩ := Option.ne_none_iff_exists'.mp hs.node
      obtain ⟨list₁, hi, he₁⟩ := LinkedList.exact_insertTail he
        (resolve (entryPath sourceDir name)) calloc
      have hn₁ := remaining_ge howMany 1
      obtain ⟨list₂, c₂, hr, he₂, hc₂⟩ := ih sourceDir hn₁ he₁
      refine ⟨list₂, c₂, ?_, he₂, ?_⟩
      · rw [remaining_add howMany, Nat.add_comm, remaining_one hn h0] at hr
        simpa [readEntries, regularFiles, h0, hd, hs.calloc, hs.realpath, hnode, hi] using hr
      · have hf : regularFiles sourceDir (.file name next) =
            [entryPath sourceDir name] ++ regularFiles sourceDir next := by
          simp [regularFiles, hd]
        rw [hc₂, hf, budgeted_append hn, budgeted_singleton hn h0]
        simp
  | directory name entries next ihe ihn =>
    by_cases h0 : howMany = 0
    · subst h0
      refine ⟨list, c, ?_, he, by simp [budgeted_zero]⟩
      simp [readEntries, hs.errnoKept, remaining_zero]
    by_cases hd : isDots name = true
    · simpa [readEntries, regularFiles, h0, hd] using ihn sourceDir hn he
    · obtain ⟨list₁, c₁, hr₁, he₁, hc₁⟩ := ihe (entryPath sourceDir name) hn he
      have hn₁ := remaining_ge howMany (regularFiles (entryPath sourceDir name) entries).length
      obtain ⟨list₂, c₂, hr₂, he₂, hc₂⟩ := ihn sourceDir hn₁ he₁
      refine ⟨list₂, c₂, ?_, he₂, ?_⟩
      · rw [remaining_add howMany] at hr₂
        simpa [readEntries, regularFiles, h0, hd, hs.calloc, hs.opendir, hr₁] using hr₂
      · have hf : regularFiles sourceDir (.directory name entries next) =
            regularFiles (entryPath sourceDir name) entries ++ regularFiles sourceDir next := by
          simp [regularFiles, hd]
        rw [hc₂, hc₁, hf, budgeted_append hn, List.map_append, List.append_assoc]

/-- A budget of `n` files takes the first `n` of the tree and leaves the rest of the budget; a budget
of -1 takes all of them. -/
theorem getFilesFromDirectory_budget (hs : calls.Succeed resolve) (entries : Entries)
    (sourceDir : Path) (hn : 1 ≤ howMany ∨ howMany = -1) (he : list.Exact c) :
    ∃ list' c' left, getFilesFromDirectory calls sourceDir entries howMany list =
        some (0, left, list') ∧ list'.Exact c' ∧
      c'.map Prod.snd = c.map Prod.snd ++ (if howMany = -1 then regularFiles sourceDir entries
        else (regularFiles sourceDir entries).take howMany.toNat).map resolve ∧
      left = if howMany = -1 then -1
        else howMany - min howMany (regularFiles sourceDir entries).length := by
  obtain ⟨list', c', hr, he', hc'⟩ := readEntries_eq hs entries sourceDir
    (show -1 ≤ howMany by omega) he
  refine ⟨list', c', _, ?_, he', hc', rfl⟩
  rw [getFilesFromDirectory, if_pos (hs.opendir sourceDir)]
  exact hr

/-- Two of the three files of `/d`, which has a directory between its files. -/
theorem getFilesFromDirectory_budget_two :
    ∃ list' c' left, getFilesFromDirectory ⟨fun _ => true, fun _ => true, some, fun _ => true,
        some nextAddress⟩ [47, 100] (.directory [46] .nil (.file [97] (.directory [101]
        (.file [98] .nil) (.file [99] .nil)))) 2 listCreate = some (0, left, list') ∧
      list'.Exact c' ∧ c'.map Prod.snd = [[47, 100, 47, 97], [47, 100, 47, 101, 47, 98]] ∧ left = 0 := by
  have hs : (⟨fun _ => true, fun _ => true, some, fun _ => true, some nextAddress⟩ :
      DirectoryCalls).Succeed id :=
    ⟨fun _ => rfl, fun _ => rfl, fun _ => rfl, fun _ => rfl, by simp⟩
  exact getFilesFromDirectory_budget hs _ _ (by decide) LinkedList.exact_create

/-- A budget below -1 is counted down and never used up. -/
theorem readEntries_below (hs : calls.Succeed resolve) (entries : Entries) (sourceDir : Path)
    (hn : howMany < -1) (he : list.Exact c) :
    ∃ list' c' left, readEntries calls sourceDir entries howMany list = some (0, left, list') ∧
      left < -1 ∧ list'.Exact c' ∧
      c'.map Prod.snd = c.map Prod.snd ++ (regularFiles sourceDir entries).map resolve := by
  induction entries generalizing sourceDir howMany list c with
  | nil => exact ⟨list, c, howMany, by simp [readEntries, hs.errnoKept], hn, he, by simp [regularFiles]⟩
  | file name next ih =>
    have h0 : howMany ≠ 0 := by omega
    have h1 : howMany ≠ -1 := by omega
    by_cases hd : isDots name = true
    · simpa [readEntries, regularFiles, h0, hd] using ih sourceDir hn he
    · obtain ⟨calloc, hnode⟩ := Option.ne_none_iff_exists'.mp hs.node
      obtain ⟨list₁, hi, he₁⟩ := LinkedList.exact_insertTail he
        (resolve (entryPath sourceDir name)) calloc
      obtain ⟨list₂, c₂, left, hr, hl, he₂, hc₂⟩ := ih sourceDir (show howMany - 1 < -1 by omega) he₁
      refine ⟨list₂, c₂, left, ?_, hl, he₂, ?_⟩
      · simpa [readEntries, h0, h1, hd, hs.calloc, hs.realpath, hnode, hi] using hr
      · simp [hc₂, regularFiles, hd]
  | directory name entries next ihe ihn =>
    have h0 : howMany ≠ 0 := by omega
    by_cases hd : isDots name = true
    · simpa [readEntries, regularFiles, h0, hd] using ihn sourceDir hn he
    · obtain ⟨list₁, c₁, left₁, hr₁, hl₁, he₁, hc₁⟩ := ihe (entryPath sourceDir name) hn he
      obtain ⟨list₂, c₂, left₂, hr₂, hl₂, he₂, hc₂⟩ := ihn sourceDir hl₁ he₁
      refine ⟨list₂, c₂, left₂, ?_, hl₂, he₂, ?_⟩
      · simpa [readEntries, h0, hd, hs.calloc, hs.opendir, hr₁] using hr₂
      · simp [hc₂, hc₁, regularFiles, hd]

/-- What a number of files allows of a list, where any number below 0 is no limit. -/
def allotted {α : Type} (howMany : Int) (l : List α) : List α :=
  if howMany < 0 then l else l.take howMany.toNat

/-- For any number of files. -/
theorem getFilesFromDirectory_allotted (hs : calls.Succeed resolve) (entries : Entries)
    (sourceDir : Path) (howMany : Int) (he : list.Exact c) :
    ∃ list' c' left, getFilesFromDirectory calls sourceDir entries howMany list =
        some (0, left, list') ∧ list'.Exact c' ∧
      c'.map Prod.snd = c.map Prod.snd ++
        (allotted howMany (regularFiles sourceDir entries)).map resolve := by
  rw [getFilesFromDirectory, if_pos (hs.opendir sourceDir)]
  by_cases hn : howMany < -1
  · obtain ⟨list', c', left, hr, -, he', hc'⟩ := readEntries_below hs entries sourceDir hn he
    have hall : allotted howMany (regularFiles sourceDir entries) = regularFiles sourceDir entries :=
      if_pos (by omega)
    exact ⟨list', c', left, hr, he', by rw [hc', hall]⟩
  · obtain ⟨list', c', hr, he', hc'⟩ := readEntries_eq hs entries sourceDir
      (show -1 ≤ howMany by omega) he
    have hall : budgeted howMany (regularFiles sourceDir entries) =
        allotted howMany (regularFiles sourceDir entries) := by
      by_cases h1 : howMany = -1
      · simp [budgeted, allotted, h1]
      · rw [budgeted, allotted, if_neg h1, if_neg (by omega)]
    exact ⟨list', c', _, hr, he', by rw [hc', hall]⟩

end

end FileStorage
