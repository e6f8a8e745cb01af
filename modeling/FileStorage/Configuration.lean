import FileStorage.CStrings
import FileStorage.Phrases

/-! The parser of the configuration file, `parse_configuration_file`. Copies are allocated; a NULL
token that is passed to a function of the library faults. -/

namespace FileStorage

/-- `server_config_t`. -/
structure ServerConfig where
  noOfWorkers : BitVec 32
  maxSize : BitVec 32
  maxFiles : BitVec 32
  socketPath : Option Path
  logFile : Option Path
  storageFile : Option Path
  deriving DecidableEq

/-- The lines that `getline` reads, each with its end of line if it has one. -/
def getlines : Bytes → List Bytes
  | [] => []
  | b :: bs =>
    if b = 10 then [b] :: getlines bs
    else match getlines bs with
      | [] => [[b]]
      | line :: lines => (b :: line) :: lines

namespace ServerConfig

/-- The keys, with what is done with the token after the key. -/
def setWorkers (config : ServerConfig) (s : Path) : ServerConfig :=
  { config with noOfWorkers := BitVec.ofInt 32 (atoi s) }

def setMaxSize (config : ServerConfig) (s : Path) : ServerConfig :=
  { config with maxSize := BitVec.ofInt 32 (atoi s) }

def setMaxFiles (config : ServerConfig) (s : Path) : ServerConfig :=
  { config with maxFiles := BitVec.ofInt 32 (atoi s) }

def setSocketPath (config : ServerConfig) (s : Path) : ServerConfig :=
  { config with socketPath := some s }

def setLogFile (config : ServerConfig) (s : Path) : ServerConfig := { config with logFile := some s }

def setStorageFile (config : ServerConfig) (s : Path) : ServerConfig :=
  { config with storageFile := some s }

end ServerConfig

open ServerConfig

/-- One test of the parameter. Where it is the key, `strtok` is called again for the value. -/
def onKey (key : Path) (set : ServerConfig → Path → ServerConfig) (parameter : Path)
    (s : ServerConfig × Path) : Option (ServerConfig × Path) :=
  if parameter = key then
    let (value, rest) := strtok 10 s.2
    value.map fun value => (set s.1 value, rest)
  else some s

/-- The keys in the order of the tests. -/
def configKeys : List (Path × (ServerConfig → Path → ServerConfig)) :=
  [(ascii "N_WORKERS", setWorkers), (ascii "MAX_SIZE", setMaxSize), (ascii "MAX_FILES", setMaxFiles),
    (ascii "SOCKET_PATH", setSocketPath), (ascii "LOG_FILE", setLogFile),
    (ascii "STORAGE_FILE", setStorageFile)]

/-- The body of the loop. -/
def parseLine (config : ServerConfig) (line : Bytes) : Option ServerConfig := do
  let (parameter, rest) := strtok 61 (cString line)
  let parameter ← parameter
  let (config, _) ← configKeys.foldlM (fun s key => onKey key.1 key.2 parameter s) (config, rest)
  return config

/-- `parse_configuration_file` on what the file holds, if it can be opened. -/
def parseConfigurationFile (config : ServerConfig) (file : Option Bytes) :
    Option (Int × ServerConfig) :=
  match file with
  | none => some (-1, config)
  | some content => do
    let config ← (getlines content).foldlM parseLine config
    return (0, config)

example : parseConfigurationFile ⟨0, 0, 0, none, none, none⟩ (some (ascii "MAX_SIZE=12\nMAX_SIZE=7\n"))
    = some (0, ⟨0, 7, 0, none, none, none⟩) := by decide

/-! ### One line -/

/-- What `strtok` finds before the first `=`, and the value behind it. -/
def parameterOf (line : Bytes) : Option Path := (strtok 61 (cString line)).1

def valueOf (line : Bytes) : Option Path := (strtok 10 (strtok 61 (cString line)).2).1

theorem keys_nodup : (configKeys.map Prod.fst).Nodup := by decide

theorem foldlM_onKey {keys : List (Path × (ServerConfig → Path → ServerConfig))}
    (hk : (keys.map Prod.fst).Nodup) (parameter : Path) (config : ServerConfig) (rest : Path) :
    keys.foldlM (fun s key => onKey key.1 key.2 parameter s) (config, rest) =
      (keys.lookup parameter).elim (some (config, rest)) fun set =>
        (strtok 10 rest).1.map fun value => (set config value, (strtok 10 rest).2) := by
  induction keys generalizing config rest with
  | nil => rfl
  | cons entry keys ih =>
    obtain ⟨key, set⟩ := entry
    have hk' := List.nodup_cons.mp hk
    rw [List.foldlM_cons, onKey, List.lookup_cons]
    by_cases he : parameter = key
    · subst he
      have hnone : keys.lookup parameter = none := by
        rw [List.lookup_eq_none_iff]
        intro other hm
        have hne : other.1 ≠ parameter := fun h => hk'.1 (List.mem_map.mpr ⟨other, hm, h⟩)
        simpa using hne.symm
      cases hv : (strtok 10 rest).1 with
      | none => simp [hv]
      | some value => simp [hv, ih hk'.2, hnone]
    · have hb : (parameter == key) = false := by simpa using he
      simp only [if_neg he, hb, Option.bind_eq_bind, Option.bind_some]
      exact ih hk'.2 config rest

/-- The entry under a key. -/
theorem mem_of_lookup {parameter : Path} {set : ServerConfig → Path → ServerConfig}
    (h : configKeys.lookup parameter = some set) : (parameter, set) ∈ configKeys := by
  obtain ⟨l₁, l₂, he, _⟩ := List.lookup_eq_some_iff.mp h
  rw [he]
  exact List.mem_append_right _ (List.mem_cons_self ..)

theorem parseLine_eq (config : ServerConfig) (line : Bytes) :
    parseLine config line = (parameterOf line).bind fun parameter =>
      (configKeys.lookup parameter).elim (some config) fun set => (valueOf line).map (set config) := by
  cases hp : (strtok 61 (cString line)).1 with
  | none => simp [parseLine, parameterOf, hp]
  | some parameter =>
    simp only [parseLine, parameterOf, valueOf, hp, Option.bind_eq_bind, Option.bind_some,
      foldlM_onKey keys_nodup]
    cases configKeys.lookup parameter with
    | none => rfl
    | some set => cases (strtok 10 (strtok 61 (cString line)).2).1 <;> rfl

/-- There is a parameter, and behind a key there is a value. -/
def Readable (line : Bytes) : Prop :=
  parameterOf line ≠ none ∧
    ∀ key ∈ configKeys.map Prod.fst, parameterOf line = some key → valueOf line ≠ none

theorem exists_parseLine_iff {config : ServerConfig} {line : Bytes} :
    (∃ config', parseLine config line = some config') ↔ Readable line := by
  rw [parseLine_eq, Readable]
  cases hp : parameterOf line with
  | none => simp
  | some parameter =>
    cases hk : configKeys.lookup parameter with
    | none =>
      have hkey : ∀ key ∈ configKeys.map Prod.fst, key ≠ parameter := by
        intro key hm he
        obtain ⟨entry, hentry, rfl⟩ := List.mem_map.mp hm
        have := List.lookup_eq_none_iff.mp hk entry hentry
        simp [he] at this
      simpa [hk] using fun key set hm he => absurd he.symm (hkey key (List.mem_map_of_mem hm))
    | some set =>
      have hm : parameter ∈ configKeys.map Prod.fst :=
        List.mem_map.mpr ⟨_, mem_of_lookup hk, rfl⟩
      cases hv : valueOf line with
      | none => simpa [hk] using List.mem_map.mp hm
      | some value => simp [hk]

/-! ### All lines -/

/-- An end of line is the last byte of its line. -/
theorem getlines_end {content line : Bytes} (hl : line ∈ getlines content) {u v : Bytes}
    (hs : line = u ++ 10 :: v) : v = [] := by
  induction content generalizing line u with
  | nil => simp [getlines] at hl
  | cons b bs ih =>
    rw [getlines] at hl
    by_cases hb : b = 10
    · rw [if_pos hb] at hl
      rcases List.mem_cons.mp hl with rfl | hl
      · cases u with
        | nil => exact (List.cons.inj hs).2.symm
        | cons c u => simp at hs
      · exact ih hl hs
    · rw [if_neg hb] at hl
      have hfirst : ∀ l, b :: l = u ++ 10 :: v → ∃ w, l = w ++ 10 :: v := by
        intro l he
        cases u with
        | nil => exact absurd (List.cons.inj he).1 hb
        | cons c u => exact ⟨u, (List.cons.inj he).2⟩
      cases hg : getlines bs with
      | nil =>
        simp only [hg, List.mem_singleton] at hl
        obtain ⟨w, hw⟩ := hfirst [] (hl ▸ hs)
        simp at hw
      | cons first lines =>
        simp only [hg, List.mem_cons] at hl
        rw [hg] at ih
        rcases hl with rfl | hl
        · obtain ⟨w, hw⟩ := hfirst first hs
          exact ih (List.mem_cons_self ..) hw
        · exact ih (List.mem_cons_of_mem _ hl) hs

/-- In bytes: before the NUL there is something else than `=`; and a key is followed by a `=` and
something that is not the end of the line. -/
def Parsable (line : Bytes) : Prop :=
  (cString line).dropWhile (fun b => b = 61) ≠ [] ∧
    ∀ key ∈ configKeys.map Prod.fst, (cString line).dropWhile (fun b => b = 61) ≠ key ∧
      ∀ rest, (cString line).dropWhile (fun b => b = 61) = key ++ 61 :: rest → rest ≠ [] ∧ rest ≠ [10]

theorem not_mem_keys : ∀ key ∈ configKeys.map Prod.fst, ∀ b ∈ key, b ≠ 61 := by
  have hall : (configKeys.map Prod.fst).all (fun key => key.all fun b => b != 61) = true := rfl
  intro key hkey b hb
  exact bne_iff_ne.mp (List.all_eq_true.mp (List.all_eq_true.mp hall key hkey) b hb)

theorem append_cons_inj {d : UInt8} {s t u v : Path} (hs : ∀ b ∈ s, b ≠ d) (ht : ∀ b ∈ t, b ≠ d)
    (h : s ++ d :: u = t ++ d :: v) : s = t ∧ u = v := by
  induction s generalizing t with
  | nil =>
    cases t with
    | nil => exact ⟨rfl, (List.cons.inj h).2⟩
    | cons b t => exact absurd (List.cons.inj h).1.symm (ht b (by simp))
  | cons b s ih =>
    cases t with
    | nil => exact absurd (List.cons.inj h).1 (hs b (by simp))
    | cons c t =>
      obtain ⟨rfl, htail⟩ := List.cons.inj h
      have hi := ih (fun b hb => hs b (List.mem_cons_of_mem _ hb))
        (fun b hb => ht b (List.mem_cons_of_mem _ hb)) htail
      exact ⟨congrArg _ hi.1, hi.2⟩

/-- The two descriptions of a line that can be parsed agree. -/
theorem readable_iff {content line : Bytes} (hl : line ∈ getlines content) :
    Readable line ↔ Parsable line := by
  have hcut := cut_cases 61 ((cString line).dropWhile fun b => b = 61)
  simp only [Readable, Parsable, parameterOf, valueOf, strtok]
  by_cases hnil : (cString line).dropWhile (fun b => b = 61) = []
  · simp [hnil]
  simp only [if_neg hnil]
  rcases hcut with ⟨hno, htake, hdrop⟩ | ⟨t, rest, hs, hno, htake, hdrop⟩
  · rw [htake, hdrop]
    constructor
    · rintro ⟨_, h⟩
      refine ⟨hnil, fun key hkey => ⟨fun he => ?_, fun rest hr => ?_⟩⟩
      · exact absurd rfl (h key hkey (congrArg some he))
      · exact absurd rfl (hno 61 (by simp [hr]))
    · rintro ⟨_, h⟩
      refine ⟨by simp, fun key hkey he => ?_⟩
      exact absurd (Option.some.inj he) (h key hkey).1
  · have hvalue : (strtok 10 rest).1 ≠ none ↔ rest ≠ [] ∧ rest ≠ [10] := by
      rw [ne_eq, strtok_eq_none_iff, ← not_or, not_iff_not]
      constructor
      · intro hall
        cases rest with
        | nil => exact .inl rfl
        | cons b rest =>
          obtain rfl : b = 10 := hall b (by simp)
          have hline : ∃ u v, line = u ++ 10 :: (rest ++ v) := by
            obtain ⟨x, hx⟩ := List.dropWhile_suffix (fun b => decide (b = 61)) (l := cString line)
            obtain ⟨y, hy⟩ := List.takeWhile_prefix (fun c => decide (c ≠ 0)) (l := line)
            refine ⟨x ++ t ++ [61], y, ?_⟩
            rw [← hy, ← cString, ← hx, hs]
            simp
          obtain ⟨u, v, huv⟩ := hline
          have := getlines_end hl huv
          simp only [List.append_eq_nil_iff] at this
          exact .inr (by rw [this.1])
      · rintro (rfl | rfl) <;> simp
    have hrest : (61 :: rest).drop 1 = rest := rfl
    rw [htake, hdrop, hrest, ← strtok, hs]
    constructor
    · rintro ⟨_, h⟩
      refine ⟨by simp, fun key hkey => ⟨fun he => ?_, fun rest' hr => ?_⟩⟩
      · exact absurd rfl (not_mem_keys key hkey 61 (by simp [← he]))
      · obtain ⟨rfl, rfl⟩ := append_cons_inj hno (not_mem_keys key hkey) hr
        exact hvalue.mp (h t hkey rfl)
    · rintro ⟨_, h⟩
      refine ⟨by simp, fun key hkey he => ?_⟩
      obtain rfl := Option.some.inj he
      exact hvalue.mpr ((h t hkey).2 rest rfl)

/-- The fields that are numbers, under their keys. -/
def numericFields : List (Path × (ServerConfig → BitVec 32)) :=
  [(ascii "N_WORKERS", noOfWorkers), (ascii "MAX_SIZE", maxSize), (ascii "MAX_FILES", maxFiles)]

/-- The value that a line gives to a key. -/
def given (key : Path) (line : Bytes) : Option Path :=
  if parameterOf line = some key then valueOf line else none

/-- The value of the last line that gives one. -/
def lastGiven (key : Path) (lines : List Bytes) : Option Path := (lines.filterMap (given key)).getLast?

/-- A number for a field: the value as an `int`, converted to `unsigned int`. -/
def numberFrom (old : BitVec 32) (value : Option Path) : BitVec 32 :=
  value.elim old fun s => BitVec.ofInt 32 (atoi s)

theorem parseLine_field {config config' : ServerConfig} {line : Bytes}
    (h : parseLine config line = some config') :
    ∀ field ∈ numericFields, field.2 config' = numberFrom (field.2 config) (given field.1 line) := by
  rw [parseLine_eq] at h
  obtain ⟨parameter, hp, h⟩ := Option.bind_eq_some_iff.mp h
  cases hk : configKeys.lookup parameter with
  | none =>
    rw [hk] at h
    obtain rfl : config = config' := Option.some.inj h
    intro field hf
    have hne : parameterOf line ≠ some field.1 := by
      rw [hp]
      rintro he
      obtain rfl := Option.some.inj he
      have hkeys : ∀ field ∈ numericFields, field.1 ∈ configKeys.map Prod.fst := by decide
      obtain ⟨entry, hentry, he⟩ := List.mem_map.mp (hkeys field hf)
      have := List.lookup_eq_none_iff.mp hk entry hentry
      simp [he] at this
    rw [given, if_neg hne]
    rfl
  | some set =>
    rw [hk] at h
    obtain ⟨value, hv, rfl⟩ := Option.map_eq_some_iff.mp h
    have hm := mem_of_lookup hk
    have hgiven : ∀ key, given key line = if parameter = key then some value else none := by
      intro key
      rw [given, hp, hv]
      simp
    intro field hf
    simp only [configKeys, List.mem_cons, List.not_mem_nil, or_false, Prod.mk.injEq] at hm
    simp only [numericFields, List.mem_cons, List.not_mem_nil, or_false] at hf
    rcases hm with ⟨rfl, rfl⟩ | ⟨rfl, rfl⟩ | ⟨rfl, rfl⟩ | ⟨rfl, rfl⟩ | ⟨rfl, rfl⟩ | ⟨rfl, rfl⟩ <;>
      rcases hf with rfl | rfl | rfl <;> rw [hgiven] <;> first | rw [if_pos rfl] | rw [if_neg (by decide)]
    all_goals rfl

theorem numberFrom_lastGiven (key : Path) (line : Bytes) (lines : List Bytes) (old : BitVec 32) :
    numberFrom (numberFrom old (given key line)) (lastGiven key lines) =
      numberFrom old (lastGiven key (line :: lines)) := by
  cases hg : given key line with
  | none => simp [lastGiven, hg, numberFrom]
  | some value =>
    rw [lastGiven, lastGiven, List.filterMap_cons_some hg, List.getLast?_cons]
    cases (lines.filterMap (given key)).getLast? <;> rfl

theorem foldlM_parseLine {lines : List Bytes} {config config' : ServerConfig}
    (h : lines.foldlM parseLine config = some config') :
    ∀ field ∈ numericFields,
      field.2 config' = numberFrom (field.2 config) (lastGiven field.1 lines) := by
  induction lines generalizing config with
  | nil =>
    obtain rfl : config = config' := Option.some.inj h
    exact fun _ _ => rfl
  | cons line lines ih =>
    rw [List.foldlM_cons] at h
    obtain ⟨next, hline, h⟩ := Option.bind_eq_some_iff.mp h
    intro field hf
    rw [ih h field hf, parseLine_field hline field hf, numberFrom_lastGiven]

theorem exists_foldlM_parseLine_iff {lines : List Bytes} {config : ServerConfig} :
    (∃ config', lines.foldlM parseLine config = some config') ↔ ∀ line ∈ lines, Readable line := by
  induction lines generalizing config with
  | nil => exact iff_of_true ⟨config, rfl⟩ (by simp)
  | cons line lines ih =>
    rw [List.forall_mem_cons, ← exists_parseLine_iff ]
    constructor
    · rintro ⟨config', h⟩
      rw [List.foldlM_cons] at h
      obtain ⟨next, hline, h⟩ := Option.bind_eq_some_iff.mp h
      exact ⟨⟨next, hline⟩, ih.mp ⟨config', h⟩⟩
    · rintro ⟨⟨next, hline⟩, hlines⟩
      obtain ⟨config', h⟩ := ih.mpr hlines
      refine ⟨config', ?_⟩
      rw [List.foldlM_cons, hline]
      exact h

/-- The parser returns, with every number that of the last line that gives one, if and only if every
line can be parsed. -/
theorem parseConfigurationFile_iff (config : ServerConfig) (content : Bytes) :
    (∃ config', parseConfigurationFile config (some content) = some (0, config') ∧
      ∀ field ∈ numericFields,
        field.2 config' = numberFrom (field.2 config) (lastGiven field.1 (getlines content))) ↔
      ∀ line ∈ getlines content, Parsable line := by
  have hlines : (∀ line ∈ getlines content, Parsable line) ↔
      ∀ line ∈ getlines content, Readable line :=
    forall₂_congr fun _ hl => (readable_iff hl).symm
  rw [hlines, ← exists_foldlM_parseLine_iff]
  constructor
  · rintro ⟨config', h, _⟩
    obtain ⟨parsed, hp, _⟩ := Option.bind_eq_some_iff.mp h
    exact ⟨parsed, hp⟩
  · rintro ⟨config', h⟩
    refine ⟨config', ?_, foldlM_parseLine h⟩
    rw [parseConfigurationFile, h]
    rfl

/-- A line that ends after its key, without a value. -/
theorem parseConfigurationFile_faults :
    ¬∀ (config : ServerConfig) (content : Bytes),
      ∃ config', parseConfigurationFile config (some content) = some (0, config') ∧
        ∀ field ∈ numericFields,
          field.2 config' = numberFrom (field.2 config) (lastGiven field.1 (getlines content)) := by
  intro h
  obtain ⟨config', hp, _⟩ := h ⟨0, 0, 0, none, none, none⟩ (ascii "MAX_SIZE=\n")
  have hnone : parseConfigurationFile ⟨0, 0, 0, none, none, none⟩ (some (ascii "MAX_SIZE=\n")) = none := by
    decide
  rw [hnone] at hp
  simp at hp

end FileStorage
