import FileStorage.Machine
import FileStorage.Ownership
import Mathlib.Data.Finset.Erase
import Mathlib.Data.Finset.Insert

/-! The storage together with the connections of the clients: whether the owner of a lock is a
client that is still connected and has obtained the lock itself. -/

namespace FileStorage

open Machine

/-- The storage and the descriptors of the open connections. -/
structure Session where
  server : Server
  connections : Finset Nat

inductive SessionAction where
  | accept (fd : Nat)
  | call (x : Step)
  deriving DecidableEq

def Call.caller : Call → Option Nat
  | .request fd _ => some fd
  | .lockManager => none

/-- The client whose connection `worker_thread` closes. -/
def Call.closes : Call → Option Nat
  | .request fd req => if req.type = .closeConnection then some fd else none
  | .lockManager => none

namespace Session

/-- The kernel gives a free descriptor to a new client, a connected client sends a request, or the
lock manager passes. -/
def step (s : Session) : SessionAction → Option Session
  | .accept fd =>
    if fd ∈ s.connections then none else some { s with connections := insert fd s.connections }
  | .call x =>
    if x.call.caller.all fun fd => decide (fd ∈ s.connections) then
      (s.server.exec x).map fun r =>
        ⟨.ofWorld r.2, x.call.closes.elim s.connections fun fd => s.connections.erase fd⟩
    else none

inductive Steps (s : Session) : SessionAction → Session → Prop where
  | accept {fd : Nat} (h : fd ∉ s.connections) :
      Steps s (.accept fd) { s with connections := insert fd s.connections }
  | call {x : Step} {r : Option Reply} {w : StorageWorld}
      (hc : ∀ fd, x.call.caller = some fd → fd ∈ s.connections) (he : s.server.exec x = some (r, w)) :
      Steps s (.call x)
        ⟨.ofWorld w, x.call.closes.elim s.connections fun fd => s.connections.erase fd⟩

theorem step_cases {s t : Session} {a : SessionAction} (h : s.step a = some t) : s.Steps a t := by
  cases a with
  | accept fd =>
    simp only [step] at h
    split at h
    · cases h
    · obtain rfl := Option.some.inj h
      exact .accept ‹_›
  | call x =>
    simp only [step] at h
    split at h
    · rename_i hall
      obtain ⟨⟨r, w⟩, he, rfl⟩ := Option.map_eq_some_iff.mp h
      refine .call (fun fd hfd => ?_) he
      simpa [hfd] using hall
    · cases h

/-- The steps since a descriptor was last given to a client. -/
def lifetime (fd : Nat) (h : List (Session × SessionAction)) : List (Session × SessionAction) :=
  h.reverse.takeWhile fun x => decide (x.2 ≠ .accept fd)

theorem mem_lifetime_snoc {fd : Nat} {h : List (Session × SessionAction)}
    {x y : Session × SessionAction} (hx : x.2 ≠ .accept fd) :
    y ∈ lifetime fd (h ++ [x]) ↔ y = x ∨ y ∈ lifetime fd h := by
  have hr : (h ++ [x]).reverse = x :: h.reverse := by simp
  have hk : lifetime fd (h ++ [x]) = x :: lifetime fd h := by
    rw [lifetime, hr, lifetime]
    exact List.takeWhile_cons_of_pos (decide_eq_true hx)
  rw [hk, List.mem_cons]

/-- The client is the owner of the lock of `p`. -/
def Owns (s : Session) (p : Path) (fd : Nat) : Prop :=
  ∃ f, s.server.storage.catalog.get p = some f ∧ f.lockedBy = (fd : Int)

/-- The step gives the lock of `p` to the client, by its own request or from the waiting list. -/
def Obtains (p : Path) (fd : Nat) (x : Session × SessionAction) : Prop :=
  ¬x.1.Owns p fd ∧ (∃ t, x.1.step x.2 = some t ∧ t.Owns p fd) ∧
    ∃ y, x.2 = .call y ∧ (y.call.caller = some fd ∨ y.call = .lockManager)

/-- The step is a request of the client for the lock of `p`. -/
def Asks (p : Path) (fd : Nat) (x : Session × SessionAction) : Prop :=
  ∃ y req, x.2 = .call y ∧ y.call = .request fd req ∧ req.type = .lockFile ∧
    req.path.join = some p

/-- Owners and waiting clients are connected, and became so since they connected. -/
structure Held (h : List (Session × SessionAction)) (t : Session) : Prop where
  owner : ∀ f ∈ t.server.storage.catalog.stored, f.lockedBy = -1 ∨
    ∃ fd ∈ t.connections, f.lockedBy = (fd : Int) ∧ ∃ x ∈ lifetime fd h, Obtains f.path fd x
  waiting : ∀ f ∈ t.server.storage.catalog.stored, ∀ c ∈ f.waitingOnLock.getD [],
    ∃ fd ∈ t.connections, c = (fd : Int) ∧ ∃ x ∈ lifetime fd h, Asks f.path fd x

/-- A client that closes its connection owns no lock and waits for none. -/
def Relinquishes (s : Session) : SessionAction → Prop
  | .accept _ => True
  | .call x => ∀ fd ∈ x.call.closes.toList, ∀ f ∈ s.server.storage.catalog.stored,
      f.lockedBy ≠ (fd : Int) ∧ (fd : Int) ∉ f.waitingOnLock.getD []

instance (s : Session) : ∀ a, Decidable (s.Relinquishes a)
  | .accept _ => inferInstanceAs (Decidable True)
  | .call x => inferInstanceAs (Decidable (∀ fd ∈ x.call.closes.toList,
      ∀ f ∈ s.server.storage.catalog.stored, _ ∧ _))

end Session

/-! ### What a call does to the owner and to the waiting list -/

namespace Catalog

variable {v : Catalog} {c : Call} {r : Option Reply} {f : File}

theorem lockedBy_relock : (v.relock c r f).lockedBy = f.lockedBy ∨
    (v.relock c r f).lockedBy = -1 ∨
    (∃ fd, c.caller = some fd ∧ (v.relock c r f).lockedBy = (fd : Int)) ∨
    c = .lockManager ∧ (v.relock c r f).lockedBy ∈ f.waitingOnLock.getD [] := by
  cases c with
  | lockManager =>
    simp only [relock]
    split
    · unfold File.granted
      split
      · rename_i clientFd waiting hw
        split
        · exact .inr (.inr (.inr ⟨trivial, by simp [hw, File.locked]⟩))
        · exact .inl rfl
      · exact .inl rfl
    · exact .inl rfl
  | request fd req =>
    have htake : ∀ g : File, g = f.locked fd → g.lockedBy = f.lockedBy ∨ g.lockedBy = -1 ∨
        (∃ c, (Call.request fd req).caller = some c ∧ g.lockedBy = (c : Int)) ∨
        Call.request fd req = .lockManager ∧ g.lockedBy ∈ f.waitingOnLock.getD [] := by
      rintro g rfl
      exact .inr (.inr (.inl ⟨fd, rfl, rfl⟩))
    simp only [relock]
    split
    · split
      · split
        · unfold File.opened
          split
          · exact .inl rfl
          · exact htake _ rfl
        · exact .inl rfl
      · unfold File.closed
        split
        · exact .inr (.inl rfl)
        · exact .inl rfl
      · unfold File.closed
        split
        · exact .inr (.inl rfl)
        · exact .inl rfl
      · cases r with
        | none => exact .inl rfl
        | some reply =>
          simp only [Option.elim_some]
          unfold File.asked
          split
          · exact htake _ rfl
          · split
            · exact .inl rfl
            · exact .inl rfl
      · exact .inl rfl
    · exact .inl rfl

theorem waiting_relock {k : Int} (hk : k ∈ (v.relock c r f).waitingOnLock.getD []) :
    k ∈ f.waitingOnLock.getD [] ∨ ∃ fd req, c = .request fd req ∧ req.type = .lockFile ∧
      req.path.join = some f.path ∧ k = (fd : Int) := by
  cases c with
  | lockManager =>
    simp only [relock] at hk
    split at hk
    · unfold File.granted at hk
      split at hk
      · rename_i clientFd waiting hw
        split at hk
        · rw [hw]
          exact .inl (List.mem_cons_of_mem _ hk)
        · exact .inl hk
      · exact .inl hk
    · exact .inl hk
  | request fd req =>
    by_cases hp : req.path.join = some f.path
    · by_cases ht : req.type = .lockFile
      · cases r with
        | none => exact .inl (by simpa [relock, hp, ht] using hk)
        | some reply =>
          have hk' : k ∈ (f.asked fd reply.status).waitingOnLock.getD [] := by
            simpa [relock, hp, ht] using hk
          unfold File.asked at hk'
          split at hk'
          · exact .inl hk'
          · split at hk'
            · cases hw : f.waitingOnLock with
              | none =>
                rw [hw] at hk'
                cases hk'
              | some waiting =>
                rw [hw] at hk'
                rcases List.mem_append.mp hk' with hm | hm
                · exact .inl hm
                · exact .inr ⟨fd, req, rfl, ht, hp, List.mem_singleton.mp hm⟩
            · exact .inl hk'
      · have hsame : (v.relock (.request fd req) r f).waitingOnLock = f.waitingOnLock := by
          simp only [relock, if_pos hp]
          split
          · split
            · unfold File.opened
              split <;> rfl
            · rfl
          · unfold File.closed
            split <;> rfl
          · unfold File.closed
            split <;> rfl
          · rename_i h
            exact absurd h ht
          · rfl
        exact .inl (hsame ▸ hk)
    · exact .inl (by simpa [relock, hp] using hk)

end Catalog

/-! ### Runs -/

namespace Session

variable {h : List (Session × SessionAction)} {t u : Session} {a : SessionAction}

/-- The connections that stay open through a call. -/
theorem mem_closes {x : Step} {fd : Nat} (hfd : fd ∈ t.connections)
    (hx : x.call.closes ≠ some fd) :
    fd ∈ x.call.closes.elim t.connections fun c => t.connections.erase c := by
  cases hc : x.call.closes with
  | none => exact hfd
  | some c =>
    refine Finset.mem_erase.mpr ⟨?_, hfd⟩
    rintro rfl
    exact hx hc

theorem Held.call {x : Step} {r : Option Reply} {w : StorageWorld} (hh : Held h t)
    (hs : t.server.storage.Sound) (hrel : t.Relinquishes (.call x))
    (hc : ∀ fd, x.call.caller = some fd → fd ∈ t.connections)
    (he : t.server.exec x = some (r, w)) (hstep : t.step (.call x) = some u)
    (hu : u = ⟨.ofWorld w, x.call.closes.elim t.connections fun fd => t.connections.erase fd⟩) :
    Held (h ++ [(t, .call x)]) u := by
  obtain ⟨hs', heff⟩ := Server.exec_done hs he
  have hstored : u.server.storage.catalog.stored = w.state.catalog.stored := by rw [hu]; rfl
  have hconn : ∀ fd, fd ∈ t.connections → x.call.closes ≠ some fd → fd ∈ u.connections := by
    intro fd h1 h2
    rw [hu]
    exact mem_closes h1 h2
  have hclose : ∀ fd, x.call.closes = some fd → ∀ f ∈ t.server.storage.catalog.stored,
      f.lockedBy ≠ (fd : Int) ∧ (fd : Int) ∉ f.waitingOnLock.getD [] :=
    fun fd hfd => hrel fd (by simp [hfd])
  -- a file of the new state comes from a stored file, or from a fresh one
  have horigin : ∀ g ∈ w.state.catalog.stored, ∃ f : File, g.path = f.path ∧
      g.lockedBy = (t.server.storage.catalog.relock x.call r f).lockedBy ∧
      g.waitingOnLock = (t.server.storage.catalog.relock x.call r f).waitingOnLock ∧
      (f ∈ t.server.storage.catalog.stored ∨ t.server.storage.catalog.get f.path = none ∧
        f.lockedBy = -1 ∧ f.waitingOnLock.getD [] = []) := by
    intro g hg
    rcases Catalog.origin heff (Server.exec_locking hs he) hg with ⟨f, hf, hsur⟩ | ⟨hn, -, list, heq⟩
    · exact ⟨f, hsur.path, hsur.lockedBy, hsur.waiting, .inl hf⟩
    · have hpath := (t.server.storage.catalog.sameData_relock x.call r
        (File.fresh g.path list)).path
      have hempty : (File.fresh g.path list).waitingOnLock.getD [] = [] := by cases list <;> rfl
      exact ⟨File.fresh g.path list, rfl, by rw [← heq], by rw [← heq], .inr ⟨hn, rfl, hempty⟩⟩
  have hnew : ∀ {fd : Nat} {y : Session × SessionAction}, y ∈ lifetime fd h →
      y ∈ lifetime fd (h ++ [(t, .call x)]) :=
    fun hy => (mem_lifetime_snoc (by nofun)).mpr (.inr hy)
  have hlast : ∀ fd : Nat, (t, SessionAction.call x) ∈ lifetime fd (h ++ [(t, .call x)]) :=
    fun fd => (mem_lifetime_snoc (by nofun)).mpr (.inl rfl)
  refine ⟨fun g hg => ?_, fun g hg k hk => ?_⟩
  · rw [hstored] at hg
    obtain ⟨f, hp, hl, -, hf⟩ := horigin g hg
    by_cases hsame : g.lockedBy = f.lockedBy
    · rcases hf with hf | ⟨-, hfree, -⟩
      · rcases hh.owner f hf with hfree | ⟨fd, hfd, hown, y, hy, hob⟩
        · exact .inl (hsame.trans hfree)
        · refine .inr ⟨fd, hconn fd hfd fun h => (hclose fd h f hf).1 hown, hsame.trans hown, y,
            hnew hy, hp ▸ hob⟩
      · exact .inl (hsame.trans hfree)
    · have hkeep : ∀ fd, x.call.closes ≠ some fd := by
        intro fd hcl
        cases hcall : x.call with
        | lockManager =>
          rw [hcall] at hcl
          cases hcl
        | request c req =>
          have ht : req.type = .closeConnection := by
            by_contra hne
            simp [hcall, Call.closes, hne] at hcl
          rw [hcall, Catalog.relock_eq_self (by simp [ht])] at hl
          exact hsame hl
      have hobtain : ∀ fd : Nat, g.lockedBy = (fd : Int) →
          (x.call.caller = some fd ∨ x.call = .lockManager) → Obtains g.path fd (t, .call x) := by
        intro fd hgfd hby
        refine ⟨?_, ⟨u, hstep, g, ?_, hgfd⟩, x, rfl, hby⟩
        · rintro ⟨f', hf', hown⟩
          rcases hf with hf | ⟨hn, -, -⟩
          · have hget := (Catalog.get_eq_some_iff hs.nodup).mpr ⟨hf, hp.symm⟩
            obtain rfl : f' = f := Option.some.inj (hf'.symm.trans hget)
            exact hsame (hgfd.trans hown.symm)
          · rw [hp, hn] at hf'
            cases hf'
        · rw [hu]
          exact (Catalog.get_eq_some_iff hs'.nodup).mpr ⟨hg, rfl⟩
      rcases Catalog.lockedBy_relock (v := t.server.storage.catalog) (c := x.call) (r := r) (f := f)
        with heq | heq | ⟨fd, hcaller, heq⟩ | ⟨hman, hmem⟩
      · exact absurd (hl.trans heq) hsame
      · exact .inl (hl.trans heq)
      · exact .inr ⟨fd, hconn fd (hc fd hcaller) (hkeep fd), hl.trans heq, _, hlast fd,
          hobtain fd (hl.trans heq) (.inl hcaller)⟩
      · rcases hf with hf | ⟨-, -, hempty⟩
        · obtain ⟨fd, hfd, heq, -⟩ := hh.waiting f hf _ hmem
          exact .inr ⟨fd, hconn fd hfd (hkeep fd), hl.trans heq, _, hlast fd,
            hobtain fd (hl.trans heq) (.inr hman)⟩
        · rw [hempty] at hmem
          cases hmem
  · rw [hstored] at hg
    obtain ⟨f, hp, -, hw, hf⟩ := horigin g hg
    rw [hw] at hk
    rcases Catalog.waiting_relock hk with hk | ⟨fd, req, hcall, ht, hpath, rfl⟩
    · rcases hf with hf | ⟨-, -, hempty⟩
      · obtain ⟨fd, hfd, rfl, y, hy, hask⟩ := hh.waiting f hf k hk
        exact ⟨fd, hconn fd hfd fun h => (hclose fd h f hf).2 hk, rfl, y, hnew hy, hp ▸ hask⟩
      · rw [hempty] at hk
        cases hk
    · refine ⟨fd, hconn fd (hc fd (by rw [hcall]; rfl)) ?_, rfl, _, hlast fd, x, req, rfl, hcall, ht,
        hp ▸ hpath⟩
      simp [hcall, Call.closes, ht]

theorem Held.accept {fd : Nat} (hh : Held h t) (hfd : fd ∉ t.connections) :
    Held (h ++ [(t, .accept fd)]) { t with connections := insert fd t.connections } := by
  have hnew : ∀ {c : Nat} {y : Session × SessionAction}, c ∈ t.connections → y ∈ lifetime c h →
      y ∈ lifetime c (h ++ [(t, .accept fd)]) := by
    intro c y hc hy
    refine (mem_lifetime_snoc fun heq => ?_).mpr (.inr hy)
    obtain rfl : fd = c := SessionAction.accept.inj heq
    exact hfd hc
  refine ⟨fun f hf => ?_, fun f hf k hk => ?_⟩
  · rcases hh.owner f hf with hfree | ⟨c, hc, hown, y, hy, hob⟩
    · exact .inl hfree
    · exact .inr ⟨c, Finset.mem_insert_of_mem hc, hown, y, hnew hc hy, hob⟩
  · obtain ⟨c, hc, heq, y, hy, hask⟩ := hh.waiting f hf k hk
    exact ⟨c, Finset.mem_insert_of_mem hc, heq, y, hnew hc hy, hask⟩

end Session

end FileStorage
