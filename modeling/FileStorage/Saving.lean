import FileStorage.Options
import FileStorage.Realpath

/-! Files on the client's disk: those that the server sends, and those that a batch of reads
leaves. The path of a local file is written into a buffer of its own, whose allocation succeeds; the
byte that `sprintf` writes behind it is told by `allocated` and has no other effect. -/

namespace FileStorage

/-- What a call of `write_file_in_directory` leaves: the size of the buffer for the path, the path
that is written there, and what the stream has been given. -/
structure LocalFile where
  allocated : Nat
  path : Path
  contents : Bytes
  deriving DecidableEq

/-- The bytes that `sprintf` writes. -/
def LocalFile.pathBytes (file : LocalFile) : Bytes := stringBytes file.path

def localPath (dirname filename : Path) : Path := dirname ++ 47 :: basename filename

def localFile (dirname filename : Path) (contents : Bytes) : LocalFile :=
  ⟨dirname.length + (basename filename).length + 1, localPath dirname filename, contents⟩

/-- `write_file_in_directory`, where `fopen` returns a stream on the paths that `opens` has. The
stream stays open, also where it is written from a null pointer, which faults. What is written
behind the buffer of the path has no other effect here. -/
def writeFileInDirectory (opens : Path → Bool) (dirname filename : Path) (size : Nat)
    (contents : Option Bytes) : Option (Option LocalFile) :=
  if opens (localPath dirname filename) then
    if size = 0 then some (some (localFile dirname filename []))
    else contents.map fun bytes => some (localFile dirname filename (bytes.take size))
  else some none

@[simp] theorem localPath_inj {dirname p q : Path} :
    localPath dirname p = localPath dirname q ↔ basename p = basename q := by
  simp [localPath]

theorem writeFileInDirectory_opened {opens : Path → Bool} {dirname filename : Path}
    (ho : opens (localPath dirname filename) = true) (contents : Bytes) :
    writeFileInDirectory opens dirname filename contents.length (some contents) =
      some (some (localFile dirname filename contents)) := by
  rw [writeFileInDirectory, if_pos ho]
  by_cases hc : contents.length = 0
  · simp [List.length_eq_zero_iff.mp hc]
  · simp [hc]

/-! ### Files that the server sends -/

/-- A file of the server as it is sent. -/
structure SentFile where
  path : Path
  body : Bytes
  -- the paths of the server are C strings
  noNul : 0 ∉ path

def SentFile.response (status : ResponseCode) (file : SentFile) : Response :=
  ⟨status, stringBytes file.path, file.body⟩

/-- The loop over the files that `writeFile`, `appendToFile` and `readNFiles` receive. It ends early
when `recv_response` fails, and the base name of the NULL pointer is a dot. -/
def saveReceived (opens : Path → Bool) (dirname : Option Path) :
    Nat → List (Except Errno Response) → Option (List LocalFile)
  | 0, _ => some []
  | _ + 1, [] => some []
  | _ + 1, .error _ :: _ => some []
  | howMany + 1, .ok file :: received => do
    match dirname with
    | none => saveReceived opens none howMany received
    | some dirname => do
      let path ← file.path
      let saved ← writeFileInDirectory opens dirname (path.getD (ascii ".")) file.body.length
        (some file.body)
      let others ← saveReceived opens (some dirname) howMany received
      return saved.toList ++ others

/-- The disk: the contents of the files that are there. -/
abbrev Disk := Path → Option Bytes

/-- A file is truncated when it is opened; then it has what the stream has handed on. -/
def Disk.save (handed : Bytes → Nat) (disk : Disk) (file : LocalFile) : Disk :=
  Function.update disk file.path (some (file.contents.take (handed file.contents)))

def Disk.saveAll (handed : Bytes → Nat) (disk : Disk) (files : List LocalFile) : Disk :=
  files.foldl (Disk.save handed) disk

/-- All that is sent is there afterwards under the directory. -/
def Kept (handed : Bytes → Nat) (disk : Disk) (dirname : Path) (batch : List SentFile)
    (saved : List LocalFile) : Prop :=
  ∀ file ∈ batch, disk.saveAll handed saved (localPath dirname file.path) = some file.body

/-- Every path fits the buffer that is allocated for it. -/
def Fits (saved : List LocalFile) : Prop := ∀ file ∈ saved, file.pathBytes.length ≤ file.allocated

/-- Nothing of a batch is lost. -/
structure Lossless (handed : Bytes → Nat) (disk : Disk) (dirname : Path) (batch : List SentFile)
    (saved : List LocalFile) : Prop where
  kept : Kept handed disk dirname batch saved
  named : ∀ f ∈ batch, ∀ g ∈ batch, f.path ≠ g.path → localPath dirname f.path ≠ localPath dirname g.path
  fits : Fits saved

section Saving

variable {handed : Bytes → Nat} {disk : Disk} {dirname q : Path} {files : List LocalFile}
  {batch : List SentFile} {opens : Path → Bool}

theorem saveAll_snoc (handed : Bytes → Nat) (disk : Disk) (files : List LocalFile) (file : LocalFile) :
    disk.saveAll handed (files ++ [file]) = (disk.saveAll handed files).save handed file := by
  rw [Disk.saveAll, List.foldl_append]
  rfl

/-- What is at a path is from one of the files that have it. -/
theorem saveAll_mem (handed : Bytes → Nat) (disk : Disk) (h : ∃ file ∈ files, file.path = q) :
    ∃ file ∈ files, file.path = q ∧
      disk.saveAll handed files q = some (file.contents.take (handed file.contents)) := by
  induction files using List.reverseRecOn with
  | nil => simp at h
  | append_singleton files last ih =>
    rw [saveAll_snoc, Disk.save]
    by_cases hq : last.path = q
    · exact ⟨last, by simp, hq, by rw [← hq, Function.update_self]⟩
    · have hbefore : ∃ file ∈ files, file.path = q := by
        obtain ⟨file, hf, hp⟩ := h
        rcases List.mem_append.mp hf with hf | hf
        · exact ⟨file, hf, hp⟩
        · rw [List.mem_singleton.mp hf] at hp
          exact absurd hp hq
      obtain ⟨file, hf, hp, hsaved⟩ := ih hbefore
      refine ⟨file, List.mem_append_left _ hf, hp, ?_⟩
      rw [Function.update_of_ne (Ne.symm hq), hsaved]

theorem saveReceived_batch (ho : ∀ p, opens p = true) (status : ResponseCode) (dirname : Path)
    (batch : List SentFile) :
    saveReceived opens (some dirname) batch.length
        (batch.map fun file => .ok (file.response status)) =
      some (batch.map fun file => localFile dirname file.path file.body) := by
  induction batch with
  | nil => rfl
  | cons file batch ih =>
    have hpath : (file.response status).path = some (some file.path) :=
      Request.path_stringBytes file.noNul .closeFile []
    have hopen : opens (localPath dirname file.path) = true := ho _
    have hsave := writeFileInDirectory_opened hopen file.body
    rw [List.length_cons, List.map_cons, saveReceived, hpath, ih]
    simp [SentFile.response, hsave]

/-- The buffer is one byte short of the path. -/
theorem not_fits (dirname filename : Path) (contents : Bytes) :
    (localFile dirname filename contents).allocated <
      (localFile dirname filename contents).pathBytes.length := by
  simp only [localFile, LocalFile.pathBytes, localPath, stringBytes, List.length_append,
    List.length_cons, List.length_nil]
  omega

theorem fits_iff : Fits (batch.map fun file => localFile dirname file.path file.body) ↔ batch = [] := by
  constructor
  · intro h
    cases batch with
    | nil => rfl
    | cons file batch =>
      have hfile := h (localFile dirname file.path file.body) (by simp)
      exact absurd (not_fits ..) (Nat.not_lt.mpr hfile)
  · rintro rfl file hf
    simp at hf

theorem kept_iff :
    Kept handed disk dirname batch (batch.map fun file => localFile dirname file.path file.body) ↔
      (∀ f ∈ batch, ∀ g ∈ batch, basename f.path = basename g.path → f.body = g.body) ∧
        ∀ f ∈ batch, f.body.length ≤ handed f.body := by
  have hsaved : ∀ f ∈ batch, ∃ g ∈ batch, basename g.path = basename f.path ∧
      disk.saveAll handed (batch.map fun file => localFile dirname file.path file.body)
        (localPath dirname f.path) = some (g.body.take (handed g.body)) := by
    intro f hf
    have hmem : ∃ file ∈ batch.map fun file => localFile dirname file.path file.body,
        file.path = localPath dirname f.path := ⟨_, List.mem_map_of_mem hf, rfl⟩
    obtain ⟨file, hfile, hp, hs⟩ := saveAll_mem handed disk hmem
    obtain ⟨g, hg, rfl⟩ := List.mem_map.mp hfile
    exact ⟨g, hg, localPath_inj.mp hp, hs⟩
  constructor
  · intro h
    have hsame : ∀ f ∈ batch, ∀ g ∈ batch, basename f.path = basename g.path → f.body = g.body := by
      intro f hf g hg hb
      have hfg := h f hf
      rw [show localPath dirname f.path = localPath dirname g.path from localPath_inj.mpr hb, h g hg] at hfg
      exact (Option.some.inj hfg).symm
    refine ⟨hsame, fun f hf => ?_⟩
    obtain ⟨g, hg, hb, hs⟩ := hsaved f hf
    rw [h f hf, hsame g hg f hf hb] at hs
    have hlen := congrArg List.length (Option.some.inj hs)
    rw [List.length_take] at hlen
    omega
  · rintro ⟨hsame, hhanded⟩ f hf
    obtain ⟨g, hg, hb, hs⟩ := hsaved f hf
    rw [hs, List.take_of_length_le (hhanded g hg), hsame g hg f hf hb]

/-- The loop over a batch loses nothing if and only if the batch is empty. What is there afterwards
has been overwritten by the last file of its base name and lacks what the open stream holds back. -/
theorem saveReceived_lossless_iff (handed : Bytes → Nat) (disk : Disk) (dirname : Path)
    (status : ResponseCode) (batch : List SentFile) :
    ∃ saved, saveReceived (fun _ => true) (some dirname) batch.length
        (batch.map fun file => .ok (file.response status)) = some saved ∧
      (Lossless handed disk dirname batch saved ↔ batch = []) ∧
      (Kept handed disk dirname batch saved ↔
        (∀ f ∈ batch, ∀ g ∈ batch, basename f.path = basename g.path → f.body = g.body) ∧
          ∀ f ∈ batch, f.body.length ≤ handed f.body) := by
  refine ⟨_, saveReceived_batch (fun _ => rfl) status dirname batch, ?_, kept_iff⟩
  constructor
  · exact fun h => fits_iff.mp h.fits
  · rintro rfl
    exact ⟨by simp [Kept], by simp, fits_iff.mpr rfl⟩

/-- Two files of one base name. -/
def namesakes : List SentFile :=
  [⟨ascii "/a/x", [1], by decide⟩, ⟨ascii "/b/x", [2], by decide⟩]

/-- The second one replaces the first, under a path that does not fit its buffer, however much of
them the stream hands on. -/
theorem saveReceived_not_lossless :
    ∃ saved, saveReceived (fun _ => true) (some (ascii "d")) namesakes.length
        (namesakes.map fun file => .ok (file.response .filesExpelled)) = some saved ∧
      ¬Fits saved ∧ ∀ handed disk, ¬Kept handed disk (ascii "d") namesakes saved ∧
        ¬Lossless handed disk (ascii "d") namesakes saved ∧
        Disk.saveAll handed disk saved (localPath (ascii "d") (ascii "/a/x")) =
          some (([2] : Bytes).take (handed [2])) := by
  have hfits : ¬Fits (namesakes.map fun file => localFile (ascii "d") file.path file.body) :=
    fun h => absurd (fits_iff.mp h) (by simp [namesakes])
  refine ⟨_, saveReceived_batch (fun _ => rfl) .filesExpelled (ascii "d") namesakes, hfits,
    fun handed disk => ⟨fun h => ?_, fun h => hfits h.fits, ?_⟩⟩
  · have hsame := (kept_iff.mp h).1 _ List.mem_cons_self _ (List.mem_cons_of_mem _ List.mem_cons_self)
    exact absurd (hsame (by decide)) (by decide)
  · have hlast := saveAll_snoc handed disk [localFile (ascii "d") (ascii "/a/x") [1]]
      (localFile (ascii "d") (ascii "/b/x") [2])
    have hpath : (localFile (ascii "d") (ascii "/b/x") [2]).path =
        localPath (ascii "d") (ascii "/a/x") := by decide
    refine (congrFun hlast _).trans ?_
    rw [Disk.save, hpath, Function.update_self]
    rfl

end Saving

/-! ### Batches of reads -/

/-- What a round of the reading loop meets: what `readFile` returns, the value of `buffer_size`,
which a failed read leaves without one, and whether `fopen` succeeds. -/
structure ReadRound where
  read : Option Bytes
  indeterminate : Nat
  opens : Bool

/-- A round with a directory: what it writes there. Whether the read has failed is not looked at. -/
def ReadRound.store (round : ReadRound) (dirname filePath : Path) : Option (Option LocalFile) :=
  writeFileInDirectory (fun _ => round.opens) dirname filePath
    (round.read.elim round.indeterminate List.length) round.read

/-- The loop of the case `READ` of `execute_action`, from a round and from what `strtok` keeps on:
what each round gives to its stream. -/
def readLoop (dirname : Option Path) (rounds : Nat → ReadRound) :
    Nat → Nat → Path → Option (List (Option LocalFile))
  | 0, _, _ => none
  | fuel + 1, i, kept =>
    match strtok 44 kept with
    | (none, _) => some []
    | (some filePath, kept) => do
      let written ← dirname.elim (some none) fun dirname => (rounds i).store dirname filePath
      let others ← readLoop dirname rounds fuel (i + 1) kept
      return written :: others

/-- The case `READ` of `execute_action`. The byte behind each buffer of a path, and what the open
streams hold back, are left out. -/
def executeRead (action : ClientAction) (rounds : Nat → ReadRound) :
    Option (List (Option LocalFile)) :=
  readLoop action.directory rounds (action.arguments.length + 1) 0 action.arguments

/-- The paths with the rounds that read them. -/
def readsFrom (rounds : Nat → ReadRound) : Nat → List Path → List (Path × ReadRound)
  | _, [] => []
  | i, filePath :: paths => (filePath, rounds i) :: readsFrom rounds (i + 1) paths

def reads (rounds : Nat → ReadRound) (arguments : Path) : List (Path × ReadRound) :=
  readsFrom rounds 0 (tokens 44 arguments)

/-- The file for a successful read, and none for another one. -/
def fileFor (dirname : Path) (read : Path × ReadRound) : Option LocalFile :=
  read.2.read.map fun bytes => localFile dirname read.1 bytes

/-- Every round gives the stream of the file for its read what has been read, and no two rounds write
the same file. -/
structure StoresReads (dirname : Path) (reads : List (Path × ReadRound))
    (written : Option (List (Option LocalFile))) : Prop where
  files : written = some (reads.map (fileFor dirname))
  apart : ((reads.filterMap (fileFor dirname)).map LocalFile.path).Nodup

section Reads

variable {dirname : Path} {rounds : Nat → ReadRound} {kept arguments : Path}

theorem store_eq_iff (read : Path × ReadRound) :
    read.2.store dirname read.1 = some (fileFor dirname read) ↔ read.2.opens = read.2.read.isSome := by
  obtain ⟨filePath, bytes, size, opens⟩ := read
  cases bytes with
  | some bytes =>
    cases opens with
    | true => simp [ReadRound.store, fileFor, writeFileInDirectory_opened]
    | false => simp [ReadRound.store, fileFor, writeFileInDirectory]
  | none =>
    cases opens with
    | true =>
      by_cases hsize : size = 0
      · simp [ReadRound.store, fileFor, writeFileInDirectory, hsize]
      · simp [ReadRound.store, fileFor, writeFileInDirectory, hsize]
    | false => simp [ReadRound.store, fileFor, writeFileInDirectory]

theorem bind_cons_eq_some_iff {α : Type} {x : Option α} {xs : Option (List α)} {a : α} {as : List α} :
    (do let b ← x
        let bs ← xs
        return b :: bs) = some (a :: as) ↔ x = some a ∧ xs = some as := by
  cases x with
  | none => simp
  | some b => cases xs <;> simp

/-- The loop ends, and stores what is read if and only if each of its rounds does. -/
theorem readLoop_iff (dirname : Path) (rounds : Nat → ReadRound) {fuel : Nat} (i : Nat)
    (hf : kept.length < fuel) :
    readLoop (some dirname) rounds fuel i kept =
        some ((readsFrom rounds i (tokens 44 kept)).map (fileFor dirname)) ↔
      ∀ read ∈ readsFrom rounds i (tokens 44 kept), read.2.opens = read.2.read.isSome := by
  induction fuel generalizing i kept with
  | zero => omega
  | succ fuel ih =>
    obtain ⟨hhead, htail⟩ := strtok_tokens 44 kept
    have hshorter : (strtok 44 kept).1 ≠ none → (strtok 44 kept).2.length < kept.length := length_strtok
    rw [readLoop]
    generalize hs : strtok 44 kept = found at hhead htail hshorter ⊢
    obtain ⟨token, rest⟩ := found
    cases token with
    | none =>
      have hnil : tokens 44 kept = [] := List.head?_eq_none_iff.mp hhead.symm
      simp [hnil, readsFrom]
    | some filePath =>
      have hcons : tokens 44 kept = filePath :: tokens 44 rest := by
        rw [htail]
        exact List.eq_cons_of_mem_head? hhead.symm
      have hlen : rest.length < kept.length := hshorter (by simp)
      have hrest := ih (i + 1) (show rest.length < fuel by omega)
      rw [hcons, readsFrom, List.map_cons, List.forall_mem_cons, ← store_eq_iff, ← hrest]
      exact bind_cons_eq_some_iff

theorem apart_iff (dirname : Path) (reads : List (Path × ReadRound)) :
    ((reads.filterMap (fileFor dirname)).map LocalFile.path).Nodup ↔
      ((reads.filter fun read => read.2.read.isSome).map fun read => basename read.1).Nodup := by
  have hpaths : (reads.filterMap (fileFor dirname)).map LocalFile.path =
      ((reads.filter fun read => read.2.read.isSome).map fun read => basename read.1).map
        fun base => dirname ++ 47 :: base := by
    induction reads with
    | nil => rfl
    | cons read reads ih =>
      cases hread : read.2.read with
      | none => simp [fileFor, hread, ← ih]
      | some bytes => simp [fileFor, hread, localFile, localPath, ← ih]
  rw [hpaths]
  exact List.nodup_map_iff fun p q h => by simpa using h

/-- A batch of reads stores what was read, and nothing else, if and only if no file is opened for a
read that fails, and the files that are read have different base names. -/
theorem executeRead_stores_iff (arguments dirname : Path) (waitTime : Int) (rounds : Nat → ReadRound) :
    StoresReads dirname (reads rounds arguments)
        (executeRead ⟨.read, arguments, some dirname, waitTime⟩ rounds) ↔
      (∀ read ∈ reads rounds arguments, read.2.opens = read.2.read.isSome) ∧
        (((reads rounds arguments).filter fun read => read.2.read.isSome).map
          fun read => basename read.1).Nodup := by
  have hfiles := readLoop_iff dirname rounds 0 (Nat.lt_succ_self arguments.length)
  constructor
  · exact fun h => ⟨hfiles.mp h.files, (apart_iff ..).mp h.apart⟩
  · exact fun h => ⟨hfiles.mpr h.1, (apart_iff ..).mpr h.2⟩

/-- The first read succeeds, and those after it fail. -/
def onlyFirst (i : Nat) : ReadRound := if i = 0 then ⟨some [1], 0, true⟩ else ⟨none, 0, true⟩

/-- The failed read leaves an empty file. -/
theorem executeRead_not_stores :
    executeRead ⟨.read, ascii "a,b", some (ascii "d"), 0⟩ onlyFirst =
        some [some (localFile (ascii "d") (ascii "a") [1]), some (localFile (ascii "d") (ascii "b") [])] ∧
      ¬StoresReads (ascii "d") (reads onlyFirst (ascii "a,b"))
        (executeRead ⟨.read, ascii "a,b", some (ascii "d"), 0⟩ onlyFirst) := by
  have hrun : executeRead ⟨.read, ascii "a,b", some (ascii "d"), 0⟩ onlyFirst =
      some [some (localFile (ascii "d") (ascii "a") [1]), some (localFile (ascii "d") (ascii "b") [])] := by
    decide
  have htokens : tokens 44 (ascii "a,b") = [ascii "a", ascii "b"] := by decide
  refine ⟨hrun, fun h => ?_⟩
  have hfiles := h.files
  rw [hrun, reads, htokens] at hfiles
  simp [readsFrom, fileFor, onlyFirst] at hfiles

end Reads

end FileStorage
