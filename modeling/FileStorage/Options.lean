import FileStorage.CStrings
import FileStorage.LinkedList
import Mathlib.Data.List.ModifyLast

/-! The command line of the client, `parse_options_in_list`. `getopt` yields the options one after
the other. -/

namespace FileStorage

open Chain

inductive ActionCode where
  | append
  | write
  | read
  | writeDir
  | readN
  | lock
  | unlock
  | remove
  deriving DecidableEq

/-- `action_t`. -/
structure ClientAction where
  code : ActionCode
  arguments : Path
  directory : Option Path
  waitTime : Int
  deriving DecidableEq

/-- The letters of `CLIENT_OPTIONS`, and what `getopt` returns for any other. -/
inductive ClientOption where
  | a | w | W | r | R | l | u | c | f | d | D | t | p | h
  | unknown
  deriving DecidableEq

/-- A round of the loop: what `getopt` has found and what the allocations in the round return, that
of an action, that of a copy of `optarg` and that of a node. -/
structure OptionRound where
  opt : ClientOption
  optarg : Path
  action : Bool
  copy : Bool
  node : Calloc ClientAction

/-- The variables of the function, the globals of the client, and what has been printed to
`stderr`. -/
structure ParseState where
  socketSet : Bool
  socketPath : Option Path
  verbose : Bool
  actionList : LinkedList ClientAction
  stderr : List String

def ParseState.say (s : ParseState) (text : String) : ParseState :=
  { s with stderr := s.stderr ++ [text] }

/-- How a round ends: in the value that the function returns, or with none in the next round. -/
abbrev RoundEnd := Option (Option Int × ParseState)

def setClientSocket (round : OptionRound) (s : ParseState) : RoundEnd :=
  if s.socketSet then
    some (none, s.say "socket path already set, it won't be overwritten\n")
  else if round.optarg.length + 1 > maxPath then some (none, s.say "socket path too long")
  else if round.copy then
    some (none, { s with socketPath := some round.optarg, socketSet := true })
  else some (some (-1), s)

/-- The cases that create an action. -/
def addAction (code : ActionCode) (notAdded : String) (round : OptionRound) (s : ParseState) :
    RoundEnd :=
  if round.action && round.copy then do
    let (result, actionList) ← listInsertTail s.actionList ⟨code, round.optarg, none, 0⟩ round.node
    let s := { s with actionList := actionList }
    return (none, if result ≠ .status 0 none then s.say notAdded else s)
  else some (some (-1), s)

/-- The case of `-R`, in which no result is checked. -/
def addReadN (round : OptionRound) (s : ParseState) : RoundEnd :=
  if round.action && round.copy then do
    let (_, actionList) ← listInsertTail s.actionList ⟨.readN, round.optarg, none, 0⟩ round.node
    return (none, { s with actionList := actionList })
  else none

def setWaitTime (round : OptionRound) (s : ParseState) : RoundEnd := do
  let (result, actionList) ← listRemoveTail s.actionList
  match result with
  | .element (some prevAction) _ => do
    let (result, actionList) ← listInsertTail actionList
      { prevAction with waitTime := strtol round.optarg } round.node
    let s := { s with actionList := actionList }
    return (none, if result ≠ .status 0 none then
      s.say "Could not set wait time for previous request\n" else s)
  | _ => return (none, { s with actionList := actionList }.say
      "Could not set wait time for previous request\n")

/-- The cases of `-D` and `-d`, with the codes that they are for. Where the copy fails, the action
has been taken from the list. -/
def setDirectory (fits : ActionCode → Bool) (defined unfit notAdded : String) (round : OptionRound)
    (s : ParseState) : RoundEnd := do
  let (result, actionList) ← listRemoveTail s.actionList
  let s := { s with actionList := actionList }
  match result with
  | .element (some action) _ =>
    if fits action.code ∧ action.directory = none ∧ !round.copy then return (some (-1), s)
    else do
      let s := if fits action.code then
          if action.directory = none then s else s.say defined
        else s.say unfit
      let action := if fits action.code ∧ action.directory = none then
        { action with directory := some round.optarg } else action
      let (result, actionList) ← listInsertTail s.actionList action round.node
      let s := { s with actionList := actionList }
      return (none, if result ≠ .status 0 none then s.say notAdded else s)
  | _ => return (none, s.say "Could not set directory for previous request\n")

def isWrite (code : ActionCode) : Bool := code = .write || code = .writeDir || code = .append

def isRead (code : ActionCode) : Bool := code = .read || code = .readN

def parseOption (round : OptionRound) (s : ParseState) : RoundEnd :=
  match round.opt with
  | .h => some (some 1, s)
  | .f => setClientSocket round s
  | .p =>
    if s.verbose then some (none, s.say "printing already enabled\n")
    else some (none, { s with verbose := true })
  | .t => setWaitTime round s
  | .a => addAction .append "Could not add append request to list of actions\n" round s
  | .W => addAction .write "Could not add write request to list of actions\n" round s
  | .w => addAction .writeDir "Could not add write directory to list of actions\n" round s
  | .D => setDirectory isWrite "Expelled directory already defined for request\n"
      "option -D needs to be paired with write request\n"
      "Could not add write request to list of actions\n" round s
  | .r => addAction .read "Could not add read request to list of actions\n" round s
  | .R => addReadN round s
  | .d => setDirectory isRead "Reading directory already defined for request\n"
      "option -d needs to be paired with read request\n"
      "Could not add read request to list of actions\n" round s
  | .l => addAction .lock "Could not add lock request to list of actions\n" round s
  | .u => addAction .unlock "Could not add unlock request to list of actions\n" round s
  | .c => addAction .remove "Could not add remove request to list of actions\n" round s
  | .unknown => some (none, s)

def parseOptionsInList : List OptionRound → ParseState → Option (Int × ParseState)
  | [], s => some (0, s)
  | round :: rounds, s => do
    let (result, s) ← parseOption round s
    match result with
    | some result => return (result, s)
    | none => parseOptionsInList rounds s

/-! ### What the options mean -/

/-- The action that an option creates. -/
def ClientOption.code : ClientOption → Option ActionCode
  | .a => some .append
  | .W => some .write
  | .w => some .writeDir
  | .r => some .read
  | .R => some .readN
  | .l => some .lock
  | .u => some .unlock
  | .c => some .remove
  | _ => none

/-- Whether an option gives a directory to an action. -/
def ClientOption.fits : ClientOption → ActionCode → Bool
  | .D, code => isWrite code
  | .d, code => isRead code
  | _, _ => false

/-- An action with the options given after it: the last `-t` and the first directory. -/
def actionFrom (code : ActionCode) (optarg : Path) (own : List OptionRound) : ClientAction :=
  ⟨code, optarg, (own.find? fun m => m.opt.fits code).map OptionRound.optarg,
    ((own.filter fun m => m.opt = .t).getLast?.map fun m => strtol m.optarg).getD 0⟩

/-- One action for each option that creates one, with the options before the next such. -/
def actionsOf : List OptionRound → List ClientAction
  | [] => []
  | round :: rounds =>
    match round.opt.code with
    | none => actionsOf rounds
    | some code =>
      actionFrom code round.optarg (rounds.takeWhile fun m => m.opt.code = none) :: actionsOf rounds

/-- What an option that creates no action does to the last one. -/
def OptionRound.modify (m : OptionRound) (action : ClientAction) : ClientAction :=
  if m.opt = .t then { action with waitTime := strtol m.optarg }
  else if m.opt.fits action.code ∧ action.directory = none then
    { action with directory := some m.optarg }
  else action

section Meaning

variable {m round : OptionRound} {own rounds : List OptionRound} {code : ActionCode}

theorem actionFrom_append (code : ActionCode) (optarg : Path) (own : List OptionRound)
    (m : OptionRound) : actionFrom code optarg (own ++ [m]) = m.modify (actionFrom code optarg own) := by
  by_cases ht : m.opt = .t
  · simp [actionFrom, OptionRound.modify, ht, List.filter_append, ClientOption.fits]
  · have hfilter : (own ++ [m]).filter (fun m => m.opt = .t) = own.filter fun m => m.opt = .t := by
      simp [List.filter_append, ht]
    rw [actionFrom, hfilter, List.find?_append]
    cases hfind : own.find? fun m => m.opt.fits code with
    | some first => simp [actionFrom, OptionRound.modify, ht, hfind]
    | none => cases hf : m.opt.fits code <;> simp [actionFrom, OptionRound.modify, ht, hfind, hf]

theorem actionsOf_eq_nil_iff : actionsOf rounds = [] ↔ ∀ m ∈ rounds, m.opt.code = none := by
  induction rounds with
  | nil => simp [actionsOf]
  | cons round rounds ih =>
    rw [actionsOf]
    cases hc : round.opt.code with
    | none => simp [hc, ih]
    | some code => simp [hc]

theorem takeWhile_of_all (h : ∀ m ∈ rounds, m.opt.code = none) :
    rounds.takeWhile (fun m => m.opt.code = none) = rounds :=
  List.takeWhile_eq_self_iff.mpr fun m hm => decide_eq_true (h m hm)

theorem takeWhile_snoc_of_all (h : ∀ m ∈ rounds, m.opt.code = none) :
    (rounds ++ [round]).takeWhile (fun m => m.opt.code = none) =
      rounds ++ [round].takeWhile fun m => m.opt.code = none :=
  List.takeWhile_append_of_pos (by simpa using h)

theorem takeWhile_snoc_of_not (h : ¬∀ m ∈ rounds, m.opt.code = none) :
    (rounds ++ [round]).takeWhile (fun m => m.opt.code = none) =
      rounds.takeWhile fun m => m.opt.code = none := by
  rw [List.takeWhile_append, if_neg]
  intro hl
  refine h fun m hm => ?_
  rw [← List.IsPrefix.eq_of_length (List.takeWhile_prefix _) hl] at hm
  simpa using List.mem_takeWhile_imp hm

/-- An option that creates an action adds a plain one. -/
theorem actionsOf_snoc_action (hc : round.opt.code = some code) :
    actionsOf (rounds ++ [round]) = actionsOf rounds ++ [⟨code, round.optarg, none, 0⟩] := by
  induction rounds with
  | nil => simp [actionsOf, hc, actionFrom]
  | cons first rounds ih =>
    have hown : (rounds ++ [round]).takeWhile (fun m => m.opt.code = none) =
        rounds.takeWhile fun m => m.opt.code = none := by
      by_cases hall : ∀ m ∈ rounds, m.opt.code = none
      · rw [takeWhile_snoc_of_all hall, takeWhile_of_all hall]
        simp [hc]
      · exact takeWhile_snoc_of_not hall
    rw [List.cons_append, actionsOf, actionsOf, hown, ih]
    cases first.opt.code with
    | none => rfl
    | some code => rfl

/-- Another option changes the last action. -/
theorem actionsOf_snoc_modifier (hm : m.opt.code = none) :
    actionsOf (rounds ++ [m]) = (actionsOf rounds).modifyLast m.modify := by
  induction rounds with
  | nil =>
    simp only [List.nil_append, actionsOf, hm]
    rfl
  | cons first rounds ih =>
    rw [List.cons_append, actionsOf, actionsOf, ih]
    cases first.opt.code with
    | none => rfl
    | some code =>
      by_cases hall : ∀ m ∈ rounds, m.opt.code = none
      · have hnil := actionsOf_eq_nil_iff.mpr hall
        have hone : [m].takeWhile (fun m => m.opt.code = none) = [m] := by simp [hm]
        dsimp only
        rw [takeWhile_snoc_of_all hall, hone, takeWhile_of_all hall, hnil, actionFrom_append]
        rfl
      · have hne : actionsOf rounds ≠ [] := fun he => hall (actionsOf_eq_nil_iff.mp he)
        dsimp only
        rw [takeWhile_snoc_of_not hall]
        exact (List.modifyLast_append_of_right_ne_nil _ [_] _ hne).symm

end Meaning

/-! ### The loop -/

/-- A round without `-h` in which every allocation succeeds. -/
structure OptionRound.Served (round : OptionRound) : Prop where
  notHelp : round.opt ≠ .h
  action : round.action = true
  copy : round.copy = true
  node : round.node.isSome

/-- The list is exact and has these actions. -/
def ParseState.Holds (s : ParseState) (actions : List ClientAction) : Prop :=
  ∃ c, s.actionList.Exact c ∧ c.map Prod.snd = actions

section Loop

variable {round : OptionRound} {s : ParseState} {actions : List ClientAction} {action : ClientAction}

theorem modify_eq_self (ht : round.opt ≠ .t) (hfits : round.opt.fits action.code = false) :
    round.modify action = action := by
  simp [OptionRound.modify, ht, hfits]

theorem insertTail_of_holds (hn : round.node.isSome) (hs : s.Holds actions) (x : ClientAction) :
    ∃ list, listInsertTail s.actionList x round.node = some (.status 0 none, list) ∧
      ∃ c, list.Exact c ∧ c.map Prod.snd = actions ++ [x] := by
  obtain ⟨c, he, rfl⟩ := hs
  obtain ⟨calloc, hcalloc⟩ := Option.isSome_iff_exists.mp hn
  obtain ⟨list, hi, hlist⟩ := LinkedList.exact_insertTail he x calloc
  exact ⟨list, by rw [hcalloc, hi], _, hlist, by simp⟩

theorem removeTail_of_nil (hs : s.Holds []) :
    listRemoveTail s.actionList = some (.element none (some .einval), s.actionList) := by
  obtain ⟨c, he, hc⟩ := hs
  obtain rfl : c = [] := by simpa using hc
  rw [listRemoveTail, LinkedList.listIsEmpty_nil he.linked]
  rfl

theorem removeTail_of_snoc (hs : s.Holds (actions ++ [action])) :
    ∃ list, listRemoveTail s.actionList = some (.element (some action) none, list) ∧
      { s with actionList := list }.Holds actions := by
  obtain ⟨c, he, hc⟩ := hs
  obtain ⟨c, cells, rfl, hinit, hlast⟩ := List.map_eq_append_iff.mp hc
  obtain ⟨⟨a, x⟩, rfl, rfl⟩ : ∃ cell, cells = [cell] ∧ cell.2 = action := by
    obtain ⟨cell, rest, rfl, hx, hrest⟩ := List.map_eq_cons_iff.mp hlast
    exact ⟨cell, by simpa using hrest, hx⟩
  obtain ⟨list, hr, hlist⟩ := LinkedList.exact_removeTail he
  exact ⟨list, hr, c, hlist, hinit⟩

theorem addAction_holds (h : round.Served) (hs : s.Holds actions) (code : ActionCode)
    (notAdded : String) :
    ∃ s', addAction code notAdded round s = some (none, s') ∧
      s'.Holds (actions ++ [⟨code, round.optarg, none, 0⟩]) := by
  obtain ⟨list, hi, hlist⟩ := insertTail_of_holds h.node hs ⟨code, round.optarg, none, 0⟩
  exact ⟨{ s with actionList := list }, by simp [addAction, h.action, h.copy, hi], hlist⟩

theorem addReadN_holds (h : round.Served) (hs : s.Holds actions) :
    ∃ s', addReadN round s = some (none, s') ∧
      s'.Holds (actions ++ [⟨.readN, round.optarg, none, 0⟩]) := by
  obtain ⟨list, hi, hlist⟩ := insertTail_of_holds h.node hs ⟨.readN, round.optarg, none, 0⟩
  exact ⟨{ s with actionList := list }, by simp [addReadN, h.action, h.copy, hi], hlist⟩

theorem setWaitTime_holds (h : round.Served) (ht : round.opt = .t) (hs : s.Holds actions) :
    ∃ s', setWaitTime round s = some (none, s') ∧ s'.Holds (actions.modifyLast round.modify) := by
  cases List.eq_nil_or_concat' actions with
  | inl hnil =>
    subst hnil
    exact ⟨s.say "Could not set wait time for previous request\n",
      by rw [setWaitTime, removeTail_of_nil hs]; rfl, hs⟩
  | inr hsnoc =>
    obtain ⟨before, action, rfl⟩ := hsnoc
    obtain ⟨list, hr, hlist⟩ := removeTail_of_snoc hs
    obtain ⟨list', hi, hlist'⟩ := insertTail_of_holds h.node hlist (round.modify action)
    rw [List.modifyLast_concat]
    refine ⟨{ s with actionList := list' }, ?_, hlist'⟩
    simp only [OptionRound.modify, ht, if_true] at hi
    simp [setWaitTime, hr, hi]

theorem setDirectory_holds (h : round.Served) (ht : round.opt ≠ .t) (hs : s.Holds actions)
    (defined unfit notAdded : String) :
    ∃ s', setDirectory round.opt.fits defined unfit notAdded round s = some (none, s') ∧
      s'.Holds (actions.modifyLast round.modify) := by
  cases List.eq_nil_or_concat' actions with
  | inl hnil =>
    subst hnil
    exact ⟨s.say "Could not set directory for previous request\n",
      by rw [setDirectory, removeTail_of_nil hs]; rfl, hs⟩
  | inr hsnoc =>
    obtain ⟨before, action, rfl⟩ := hsnoc
    obtain ⟨list, hr, hlist⟩ := removeTail_of_snoc hs
    obtain ⟨list', hi, hlist'⟩ := insertTail_of_holds h.node hlist (round.modify action)
    rw [List.modifyLast_concat]
    simp only [OptionRound.modify, ht, if_false] at hi
    by_cases hf : round.opt.fits action.code = true
    · by_cases hd : action.directory = none
      · simp only [hf, hd, and_self, if_true] at hi
        exact ⟨{ s with actionList := list' }, by simp [setDirectory, hr, hf, hd, h.copy, hi], hlist'⟩
      · simp only [hd, and_false, if_false] at hi
        refine ⟨ParseState.say { s with actionList := list' } defined, ?_, hlist'⟩
        simp [setDirectory, hr, hf, hd, ParseState.say, hi]
    · rw [if_neg fun hboth => hf hboth.1] at hi
      refine ⟨ParseState.say { s with actionList := list' } unfit, ?_, hlist'⟩
      simp [setDirectory, hr, hf, ParseState.say, hi]

theorem setClientSocket_holds (h : round.Served) (hs : s.Holds actions) :
    ∃ s', setClientSocket round s = some (none, s') ∧ s'.Holds actions := by
  by_cases hset : s.socketSet = true
  · exact ⟨s.say "socket path already set, it won't be overwritten\n", by simp [setClientSocket, hset], hs⟩
  · by_cases hlen : round.optarg.length + 1 > maxPath
    · exact ⟨s.say "socket path too long", by simp only [setClientSocket, hset, hlen]; rfl, hs⟩
    · exact ⟨{ s with socketPath := some round.optarg, socketSet := true },
        by simp only [setClientSocket, hset, hlen, h.copy]; rfl, hs⟩

/-- What the option of a round means for the actions so far. -/
def OptionRound.onActions (round : OptionRound) (actions : List ClientAction) : List ClientAction :=
  round.opt.code.elim (actions.modifyLast round.modify) fun code =>
    actions ++ [⟨code, round.optarg, none, 0⟩]

theorem onActions_create {code : ActionCode} (hc : round.opt.code = some code)
    (actions : List ClientAction) :
    round.onActions actions = actions ++ [⟨code, round.optarg, none, 0⟩] := by
  rw [OptionRound.onActions, hc, Option.elim]

theorem onActions_modify (hc : round.opt.code = none) (actions : List ClientAction) :
    round.onActions actions = actions.modifyLast round.modify := by
  rw [OptionRound.onActions, hc, Option.elim]

/-- The options that are about the client itself. -/
theorem onActions_plain (hc : round.opt.code = none) (ht : round.opt ≠ .t)
    (hf : ∀ code, round.opt.fits code = false) (actions : List ClientAction) :
    round.onActions actions = actions := by
  rw [onActions_modify hc]
  cases List.eq_nil_or_concat' actions with
  | inl hnil =>
    subst hnil
    rfl
  | inr hsnoc =>
    obtain ⟨before, action, rfl⟩ := hsnoc
    rw [List.modifyLast_concat, modify_eq_self ht (hf action.code)]

theorem actionsOf_snoc (rounds : List OptionRound) (round : OptionRound) :
    actionsOf (rounds ++ [round]) = round.onActions (actionsOf rounds) := by
  cases hc : round.opt.code with
  | none => rw [actionsOf_snoc_modifier hc, onActions_modify hc]
  | some code => rw [actionsOf_snoc_action hc, onActions_create hc]

/-- A round goes on to the next one and does what its option means. -/
theorem parseOption_holds (h : round.Served) (hs : s.Holds actions) :
    ∃ s', parseOption round s = some (none, s') ∧ s'.Holds (round.onActions actions) := by
  have hdirectory := fun ht => setDirectory_holds h ht hs
  rw [parseOption]
  cases hopt : round.opt with
  | a | W | w | r | l | u | c =>
    rw [onActions_create (by rw [hopt]; rfl)]
    exact addAction_holds h hs _ _
  | R =>
    rw [onActions_create (by rw [hopt]; rfl)]
    exact addReadN_holds h hs
  | t =>
    rw [onActions_modify (by rw [hopt]; rfl)]
    exact setWaitTime_holds h hopt hs
  | D | d =>
    rw [onActions_modify (by rw [hopt]; rfl)]
    rw [hopt] at hdirectory
    exact hdirectory (by simp) _ _ _
  | f =>
    rw [onActions_plain (by rw [hopt]; rfl) (by simp [hopt]) (by intro code; rw [hopt]; rfl)]
    exact setClientSocket_holds h hs
  | p =>
    rw [onActions_plain (by rw [hopt]; rfl) (by simp [hopt]) (by intro code; rw [hopt]; rfl)]
    by_cases hv : s.verbose = true
    · exact ⟨s.say "printing already enabled\n", by simp [hv], hs⟩
    · exact ⟨{ s with verbose := true }, by simp [hv], hs⟩
  | unknown =>
    rw [onActions_plain (by rw [hopt]; rfl) (by simp [hopt]) (by intro code; rw [hopt]; rfl)]
    exact ⟨s, rfl, hs⟩
  | h => exact absurd hopt h.notHelp

/-- From any round on, with the actions of the rounds before it in the list. -/
theorem parseOptionsInList_from {rounds : List OptionRound}
    (h : ∀ round ∈ rounds, round.Served) (before : List OptionRound)
    (hs : s.Holds (actionsOf before)) :
    ∃ s', parseOptionsInList rounds s = some (0, s') ∧ s'.Holds (actionsOf (before ++ rounds)) := by
  induction rounds generalizing s before with
  | nil => exact ⟨s, rfl, by rwa [List.append_nil]⟩
  | cons round rounds ih =>
    obtain ⟨s₁, hr, hs₁⟩ := parseOption_holds (h round (by simp)) hs
    rw [← actionsOf_snoc] at hs₁
    obtain ⟨s', hrest, hs'⟩ := ih (fun m hm => h m (by simp [hm])) (before ++ [round]) hs₁
    refine ⟨s', ?_, by rwa [List.append_assoc] at hs'⟩
    rw [parseOptionsInList, hr]
    exact hrest

end Loop

/-- What the function has at its call, with an empty list of actions. -/
def parseInit : ParseState := ⟨false, none, false, listCreate, []⟩

/-- The modifiers end up at the action that they follow. -/
theorem parseOptionsInList_actions {rounds : List OptionRound}
    (h : ∀ round ∈ rounds, round.Served) :
    ∃ s, parseOptionsInList rounds parseInit = some (0, s) ∧
      ∃ c, s.actionList.Exact c ∧ c.map Prod.snd = actionsOf rounds :=
  parseOptionsInList_from h [] ⟨[], LinkedList.exact_create, rfl⟩

/-- A round in which memory is there. -/
def OptionRound.plain (opt : ClientOption) (optarg : Path) : OptionRound :=
  ⟨opt, optarg, true, true, some nextAddress⟩

/-- A `-t` before every action, and a `-D` for a read. -/
theorem parseOptionsInList_actions_read :
    ∃ s, parseOptionsInList
        [.plain .t (ascii "7"), .plain .r (ascii "a"), .plain .d (ascii "x"), .plain .D (ascii "y"),
          .plain .t (ascii "5"), .plain .W (ascii "b")] parseInit = some (0, s) ∧
      ∃ c, s.actionList.Exact c ∧ c.map Prod.snd =
        [⟨.read, ascii "a", some (ascii "x"), 5⟩, ⟨.write, ascii "b", none, 0⟩] := by
  refine parseOptionsInList_actions fun round hr => ?_
  simp only [List.mem_cons, List.not_mem_nil, or_false] at hr
  rcases hr with rfl | rfl | rfl | rfl | rfl | rfl <;>
    exact ⟨by simp [OptionRound.plain], rfl, rfl, rfl⟩

/-! ### The socket path and the printing -/

/-- The globals of the client that `main` goes on with. -/
def ParseState.globals (s : ParseState) : Bool × Option Path × Bool :=
  (s.socketSet, s.socketPath, s.verbose)

section Globals

variable {round : OptionRound} {s s' : ParseState} {r : Option Int}

theorem addAction_globals {code : ActionCode} {text : String}
    (h : addAction code text round s = some (r, s')) : s'.globals = s.globals := by
  rw [addAction] at h
  split at h
  · obtain ⟨⟨result, list⟩, -, h⟩ := Option.bind_eq_some_iff.mp h
    obtain ⟨-, rfl⟩ := Prod.mk.inj (Option.some.inj h)
    split <;> rfl
  · obtain ⟨-, rfl⟩ := Prod.mk.inj (Option.some.inj h)
    rfl

theorem addReadN_globals (h : addReadN round s = some (r, s')) : s'.globals = s.globals := by
  rw [addReadN] at h
  split at h
  · obtain ⟨⟨result, list⟩, -, h⟩ := Option.bind_eq_some_iff.mp h
    obtain ⟨-, rfl⟩ := Prod.mk.inj (Option.some.inj h)
    rfl
  · cases h

theorem setWaitTime_globals (h : setWaitTime round s = some (r, s')) : s'.globals = s.globals := by
  rw [setWaitTime] at h
  obtain ⟨⟨result, list⟩, -, h⟩ := Option.bind_eq_some_iff.mp h
  dsimp only at h
  split at h
  · obtain ⟨⟨result', list'⟩, -, h⟩ := Option.bind_eq_some_iff.mp h
    obtain ⟨-, rfl⟩ := Prod.mk.inj (Option.some.inj h)
    dsimp only
    split <;> rfl
  · obtain ⟨-, rfl⟩ := Prod.mk.inj (Option.some.inj h)
    rfl

theorem setDirectory_globals {fits : ActionCode → Bool} {defined unfit text : String}
    (h : setDirectory fits defined unfit text round s = some (r, s')) : s'.globals = s.globals := by
  rw [setDirectory] at h
  obtain ⟨⟨result, list⟩, -, h⟩ := Option.bind_eq_some_iff.mp h
  dsimp only at h
  split at h
  · split at h
    · obtain ⟨-, rfl⟩ := Prod.mk.inj (Option.some.inj h)
      rfl
    · obtain ⟨⟨result', list'⟩, -, h⟩ := Option.bind_eq_some_iff.mp h
      obtain ⟨-, rfl⟩ := Prod.mk.inj (Option.some.inj h)
      dsimp only
      split <;> split <;> try split
      all_goals rfl
  · obtain ⟨-, rfl⟩ := Prod.mk.inj (Option.some.inj h)
    rfl

theorem parseOption_globals (h : parseOption round s = some (r, s')) (hf : round.opt ≠ .f)
    (hp : round.opt ≠ .p) : s'.globals = s.globals := by
  rw [parseOption] at h
  cases hopt : round.opt with
  | a | W | w | r | l | u | c =>
    rw [hopt] at h
    exact addAction_globals h
  | R =>
    rw [hopt] at h
    exact addReadN_globals h
  | t =>
    rw [hopt] at h
    exact setWaitTime_globals h
  | D | d =>
    rw [hopt] at h
    exact setDirectory_globals h
  | f => exact absurd hopt hf
  | p => exact absurd hopt hp
  | h | unknown =>
    rw [hopt] at h
    obtain ⟨-, rfl⟩ := Prod.mk.inj (Option.some.inj h)
    rfl

/-- The socket path of the first `-f` whose path is not too long. -/
def socketOf (rounds : List OptionRound) : Option Path :=
  (rounds.find? fun m => m.opt = .f && m.optarg.length + 1 ≤ maxPath).map OptionRound.optarg

def verboseOf (rounds : List OptionRound) : Bool := rounds.any fun m => m.opt = .p

def globalsOf (rounds : List OptionRound) : Bool × Option Path × Bool :=
  ((socketOf rounds).isSome, socketOf rounds, verboseOf rounds)

theorem socketOf_snoc (before : List OptionRound) (round : OptionRound) :
    socketOf (before ++ [round]) = (socketOf before).or (socketOf [round]) := by
  rw [socketOf, List.find?_append, socketOf, socketOf]
  cases before.find? fun m => m.opt = .f && m.optarg.length + 1 ≤ maxPath <;> rfl

theorem socketOf_singleton (hf : round.opt = .f) :
    socketOf [round] = if round.optarg.length + 1 ≤ maxPath then some round.optarg else none := by
  by_cases hlong : round.optarg.length + 1 ≤ maxPath
  · rw [if_pos hlong]
    simp only [socketOf, List.find?_cons, hf, decide_true, Bool.true_and, decide_eq_true hlong,
      Option.map_some]
  · rw [if_neg hlong]
    simp only [socketOf, List.find?_cons, hf, decide_true, Bool.true_and, decide_eq_false hlong,
      List.find?_nil, Option.map_none]

theorem globalsOf_snoc_plain {before : List OptionRound} (hf : round.opt ≠ .f) (hp : round.opt ≠ .p) :
    globalsOf (before ++ [round]) = globalsOf before := by
  simp [globalsOf, socketOf, verboseOf, hf, hp]

theorem setClientSocket_snoc {before : List OptionRound} (hr : round.Served) (hf : round.opt = .f)
    (hs : s.globals = globalsOf before) (h : setClientSocket round s = some (r, s')) :
    s'.globals = globalsOf (before ++ [round]) := by
  obtain ⟨hset, hpath, hverbose⟩ : s.socketSet = (socketOf before).isSome ∧
      s.socketPath = socketOf before ∧ s.verbose = verboseOf before := by
    simpa [ParseState.globals, globalsOf] using hs
  have hkeeps : verboseOf (before ++ [round]) = s.verbose := by simp [hverbose, verboseOf, hf]
  rw [globalsOf, hkeeps, socketOf_snoc, ← hpath]
  rw [← hpath] at hset
  rw [setClientSocket] at h
  cases hp : s.socketPath with
  | some path =>
    rw [hp, Option.isSome_some] at hset
    rw [if_pos hset] at h
    obtain ⟨-, rfl⟩ := Prod.mk.inj (Option.some.inj h)
    simp [ParseState.globals, ParseState.say, hset, hp]
  | none =>
    rw [hp] at hset
    rw [if_neg (by simp [hset])] at h
    split at h
    · rename_i hlong
      obtain ⟨-, rfl⟩ := Prod.mk.inj (Option.some.inj h)
      rw [socketOf_singleton hf, if_neg (by omega)]
      simp [ParseState.globals, ParseState.say, hset, hp]
    · rename_i hlong
      rw [if_pos hr.copy] at h
      obtain ⟨-, rfl⟩ := Prod.mk.inj (Option.some.inj h)
      rw [socketOf_singleton hf, if_pos (by omega)]
      simp [ParseState.globals]

theorem setVerbose_snoc {before : List OptionRound} (hp : round.opt = .p)
    (hs : s.globals = globalsOf before)
    (h : (if s.verbose then some (none, s.say "printing already enabled\n")
      else some (none, { s with verbose := true })) = some (r, s')) :
    s'.globals = globalsOf (before ++ [round]) := by
  have hsnoc : globalsOf (before ++ [round]) = ((socketOf before).isSome, socketOf before, true) := by
    simp [globalsOf, socketOf, verboseOf, hp]
  obtain ⟨hset, hpath, -⟩ : s.socketSet = (socketOf before).isSome ∧
      s.socketPath = socketOf before ∧ s.verbose = verboseOf before := by
    simpa [ParseState.globals, globalsOf] using hs
  rw [hsnoc]
  split at h
  · rename_i hv
    obtain ⟨-, rfl⟩ := Prod.mk.inj (Option.some.inj h)
    simp [ParseState.globals, ParseState.say, hset, hpath, hv]
  · obtain ⟨-, rfl⟩ := Prod.mk.inj (Option.some.inj h)
    simp [ParseState.globals, hset, hpath]

theorem parseOption_snoc {before : List OptionRound} (hr : round.Served)
    (hs : s.globals = globalsOf before) (h : parseOption round s = some (r, s')) :
    s'.globals = globalsOf (before ++ [round]) := by
  by_cases hf : round.opt = .f
  · rw [parseOption, hf] at h
    exact setClientSocket_snoc hr hf hs h
  by_cases hp : round.opt = .p
  · rw [parseOption, hp] at h
    exact setVerbose_snoc hp hs h
  · rw [parseOption_globals h hf hp, hs, globalsOf_snoc_plain hf hp]

/-- From any round on, with what the rounds before it have left. -/
theorem parseOptionsInList_run {rounds : List OptionRound} (h : ∀ round ∈ rounds, round.Served)
    (before : List OptionRound) (hs : s.Holds (actionsOf before)) (hg : s.globals = globalsOf before) :
    ∃ s', parseOptionsInList rounds s = some (0, s') ∧ s'.Holds (actionsOf (before ++ rounds)) ∧
      s'.globals = globalsOf (before ++ rounds) := by
  induction rounds generalizing s before with
  | nil => exact ⟨s, rfl, by rwa [List.append_nil], by rwa [List.append_nil]⟩
  | cons round rounds ih =>
    have hround : round.Served := h round List.mem_cons_self
    obtain ⟨s₁, hr, hs₁⟩ := parseOption_holds hround hs
    have hg₁ := parseOption_snoc hround hg hr
    rw [← actionsOf_snoc] at hs₁
    obtain ⟨s', hrest, hs', hg'⟩ :=
      ih (fun m hm => h m (List.mem_cons_of_mem _ hm)) (before ++ [round]) hs₁ hg₁
    rw [List.append_assoc] at hs' hg'
    refine ⟨s', ?_, hs', hg'⟩
    rw [parseOptionsInList, hr]
    exact hrest

end Globals

end FileStorage
