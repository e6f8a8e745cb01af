import FileStorage.Appending
import FileStorage.Frames
import FileStorage.Lifetime
import FileStorage.Realpath

/-! A client and the server in lockstep: every request finds the responses to the earlier ones read. -/

namespace FileStorage

open Dialogue Machine Prog

/-! ### The calls of the API -/

/-- The connection as the client sees it, by the responses that it has not read. -/
def wire : Service Question.Answer (List Response) where
  allows
    | .sendRequest request, inbox => inbox = [] ∧ request.type ≠ .closeConnection
    | .recvResponse, inbox => inbox ≠ []
    | _, _ => True
  gives
    | .sendRequest request, _, x, inbox' =>
      x = .ok () ∧ request.type ≠ .appendToFile ∧ Frames request.type inbox'
    | .recvResponse, inbox, x, inbox' => ∃ response, inbox = response :: inbox' ∧ x = .ok response
    | .mkdirP _, inbox, x, inbox' => x = true ∧ inbox' = inbox
    | _, inbox, _, inbox' => inbox' = inbox

/-- With these responses to read, the program reads them all and those to its own requests. -/
def Expects {α : Type} (x : ClientM α) (inbox : List Response) : Prop :=
  x.Copes wire (fun _ left => left = []) inbox

section Programs

variable {α β : Type} {inbox : List Response} {response : Response} {request : Request}

theorem isLocal_wire (q : Question) (inbox : List Response) (h : q.isLocal) :
    wire.allows q inbox ∧ ∀ x inbox', wire.gives q inbox x inbox' → inbox' = inbox := by
  cases q with
  | sendRequest request => exact h.elim
  | recvResponse => exact h.elim
  | mkdirP dirname => exact ⟨trivial, fun x inbox' hg => hg.2⟩
  | _ => exact ⟨trivial, fun x inbox' hg => hg⟩

theorem copes_of_isLocal {x : ClientM α} (h : x.Asks Question.isLocal) (inbox : List Response) :
    x.Copes wire (fun _ left => left = inbox) inbox :=
  h.copes isLocal_wire fun _ => rfl

/-- A piece that does not use the connection. -/
theorem Expects.after {x : ClientM α} {g : α → ClientM β} (hx : x.Asks Question.isLocal)
    (hg : ∀ a, Expects (g a) inbox) : Expects (x >>= g) inbox := by
  refine (copes_of_isLocal hx inbox).bind fun a left hl => ?_
  rw [hl]
  exact hg a

theorem Frames.tail_nil (ht : request.type ≠ .writeFile) (h : Frames request.type (response :: inbox)) :
    inbox = [] ∧ response.Lone request.type := by
  cases h with
  | lone h => exact ⟨rfl, h⟩
  | expelled hw => exact absurd hw ht

theorem Frames.ne_nil {type : RequestCode} (h : Frames type inbox) : inbox ≠ [] := by
  cases h with
  | lone h => simp
  | expelled ht hs hn hl => simp

namespace Api

theorem expects_failWith (e : Errno) : Expects (failWith e) [] := copes_of_isLocal (asks_failWith e) []

theorem expects_onFile {k : Path → ClientM Int} (pathname : Option Path)
    (hk : ∀ p, Expects (k p) []) : Expects (onFile pathname k) [] := by
  cases pathname with
  | none => exact expects_failWith _
  | some p => exact fun c => Copes.ite (fun _ => expects_failWith _) fun _ => hk p

/-- The responses to a request are read by what goes on with the first of them. -/
theorem expects_exchange {k : Response → ClientM Int} (hc : request.type ≠ .closeConnection)
    (hk : ∀ response inbox, request.type ≠ .appendToFile → Frames request.type (response :: inbox) →
      Expects (k response) inbox) : Expects (exchange request k) [] := by
  refine ⟨⟨rfl, hc⟩, ?_⟩
  rintro x inbox ⟨rfl, ha, hf⟩
  refine ⟨hf.ne_nil, ?_⟩
  rintro x left ⟨response, rfl, rfl⟩
  exact hk response left ha hf

theorem expects_switch {success : ClientM Int} {arms : List (ResponseCode × Errno)}
    (hs : response.status = .success → Expects success []) : Expects (switch response success arms) [] :=
  Copes.ite hs fun _ => expects_failWith _

/-- A request that is answered with one frame. -/
theorem expects_exchange_lone {k : Response → ClientM Int} (hc : request.type ≠ .closeConnection)
    (hw : request.type ≠ .writeFile) (hk : ∀ response, request.type ≠ .appendToFile →
      response.Lone request.type → Expects (k response) []) : Expects (exchange request k) [] := by
  refine expects_exchange hc fun response inbox ha hf => ?_
  obtain ⟨rfl, hl⟩ := hf.tail_nil hw
  exact hk response ha hl

theorem expects_openFile (pathname : Option Path) (flags : Int) : Expects (openFile pathname flags) [] := by
  refine expects_onFile pathname fun p => ?_
  refine expects_exchange_lone (by simp) (by simp) fun response _ _ => expects_switch fun _ => ?_
  refine Expects.after (x := malloc) ⟨trivial, fun _ => trivial⟩ fun b => ?_
  refine Copes.ite (fun _ => Expects.after (asks_insertOpened p) fun b => ?_) fun _ => trivial
  exact Copes.ite (fun _ => ⟨trivial, fun _ _ h => h⟩) fun _ => rfl

end Api

namespace Realpath

open Api

theorem expects_strlen {k : Path → ClientM Int} (absolutePath : Option Path)
    (hk : ∀ p, Expects (k p) []) : Expects (strlen absolutePath k) [] := by
  cases absolutePath with
  | none => trivial
  | some p => exact hk p

theorem expects_ensureOpened {k : Path → ClientM Int} (absolutePath : Option Path) (flags : Int)
    (hk : ∀ p, Expects (k p) []) : Expects (ensureOpened absolutePath flags k) [] := by
  refine Expects.after (asks_listFind absolutePath) fun found => ?_
  refine Copes.ite (fun _ => expects_strlen absolutePath hk) fun _ => ?_
  refine Copes.bind (expects_openFile absolutePath flags) fun result left hl => ?_
  subst hl
  exact Copes.ite (fun _ => rfl) fun _ => expects_strlen absolutePath hk

/-- The loop reads as many responses as it is told. -/
theorem copes_recvExpelled (dirname : Option Path) (files : List Response) (inbox : List Response) :
    (recvExpelled dirname files.length).Copes wire (fun _ left => left = inbox) (files ++ inbox) := by
  induction files with
  | nil => rfl
  | cons file files ih =>
    refine ⟨by simp [wire], ?_⟩
    rintro x left ⟨response, hr, rfl⟩
    obtain ⟨-, rfl⟩ := List.cons.inj hr
    refine (copes_of_isLocal (asks_writeFileInDirectory dirname) _).bind fun _ left hl => ?_
    subst hl
    refine (copes_of_isLocal (asks_removeReceived response) _).bind fun _ left hl => ?_
    subst hl
    exact ih

theorem copes_makeDirectory (dirname : Option Path) :
    (makeDirectory dirname).Copes wire (fun b left => b = true ∧ left = inbox) inbox := by
  cases dirname with
  | none => exact ⟨rfl, rfl⟩
  | some dirname => exact ⟨trivial, fun x left h => h⟩

theorem expects_filesExpelled {files : List Response} {final : Response} {n : BitVec 32}
    (hn : readInt response.body = some n) (hl : n.toInt.toNat = files.length) (dirname : Option Path)
    (arms : List (ResponseCode × Errno)) :
    Expects (filesExpelled response dirname arms) (files ++ [final]) := by
  refine Copes.bind (copes_makeDirectory dirname) ?_
  rintro b left ⟨rfl, rfl⟩
  have hbody : response.body ≠ [] := by
    intro hb
    rw [hb] at hn
    cases hn
  have hmany : howMany response.body = pure n.toInt := by
    rw [howMany, if_neg hbody, hn]
  rw [if_pos rfl, hmany]
  show Expects (recvExpelled dirname n.toInt.toNat >>= fun _ => recvFinal arms) _
  rw [hl]
  refine Copes.bind (copes_recvExpelled dirname files [final]) fun _ left hl => ?_
  subst hl
  refine ⟨by simp [wire], ?_⟩
  rintro x left ⟨response, hr, rfl⟩
  obtain ⟨-, rfl⟩ := List.cons.inj hr
  exact expects_switch fun _ => rfl

theorem expects_writeFile (pathname absolutePath dirname : Option Path) :
    Expects (writeFile pathname absolutePath dirname) [] := by
  refine expects_onFile pathname fun _ => ?_
  cases absolutePath with
  | none => exact expects_failWith _
  | some absolute =>
    refine ⟨trivial, fun x left hl => ?_⟩
    obtain rfl : left = [] := hl
    cases x with
    | error e => exact expects_failWith e
    | ok fileData =>
      refine expects_ensureOpened _ 6 fun p => ?_
      refine expects_exchange (by simp) fun response inbox _ hf => ?_
      cases hf with
      | lone h =>
        refine Copes.ite (fun hs => absurd hs (h.1 rfl)) fun _ => ?_
        exact expects_switch fun _ => rfl
      | expelled ht hs hn hl =>
        exact Copes.ite (fun _ => expects_filesExpelled hn hl dirname _) fun h => absurd hs h

theorem expects_appendToFile (pathname absolutePath : Option Path) (buf : Option Bytes)
    (dirname : Option Path) : Expects (appendToFile pathname absolutePath buf dirname) [] := by
  cases buf with
  | none => exact expects_failWith _
  | some buf =>
    refine expects_onFile pathname fun _ => expects_ensureOpened absolutePath 4 fun p => ?_
    exact expects_exchange (by simp) fun response inbox ha _ => absurd rfl ha

theorem expects_readNFiles (N : Int) (dirname : Option Path) : Expects (readNFiles N dirname) [] := by
  refine Copes.ite (fun _ => expects_failWith _) fun _ c => Copes.ite (fun _ => expects_failWith _) fun _ => ?_
  refine expects_exchange_lone (by simp) (by simp) fun response _ hl => ?_
  exact expects_switch fun hs => absurd hs (hl.2 rfl)

end Realpath

end Programs

/-- The calls of the API between `openConnection` and `closeConnection`. -/
inductive ClientCall where
  | openFile (pathname : Option Path) (flags : Int)
  | file (call : ApiCall)

def ClientCall.program : ClientCall → ClientM Int
  | openFile pathname flags => Api.openFile pathname flags
  | file call => call.program

theorem expects_program (call : ClientCall) : Expects call.program [] := by
  cases call with
  | openFile pathname flags => exact Api.expects_openFile pathname flags
  | file call =>
    cases call with
    | readNFiles N dirname => exact Realpath.expects_readNFiles N dirname
    | writeFile pathname absolutePath dirname =>
      exact Realpath.expects_writeFile pathname absolutePath dirname
    | appendToFile pathname absolutePath buf dirname =>
      exact Realpath.expects_appendToFile pathname absolutePath buf dirname
    | readFile pathname absolutePath =>
      refine Api.expects_onFile pathname fun _ => Realpath.expects_ensureOpened absolutePath 1 fun p => ?_
      refine Api.expects_exchange_lone (by simp) (by simp) fun response _ _ => ?_
      refine Api.expects_switch fun _ => Expects.after (x := Api.malloc) ⟨trivial, fun _ => trivial⟩ ?_
      exact fun b => Copes.ite (fun _ => rfl) fun _ => Api.expects_failWith _
    | lockFile pathname absolutePath =>
      refine Api.expects_onFile pathname fun _ => Realpath.expects_ensureOpened absolutePath 1 fun p => ?_
      refine Api.expects_exchange_lone (by simp) (by simp) fun response _ _ => ?_
      exact Api.expects_switch fun _ => rfl
    | unlockFile pathname absolutePath =>
      refine Api.expects_onFile pathname fun _ => ?_
      refine Expects.after (Realpath.asks_listFind absolutePath) fun found => ?_
      refine Copes.ite (fun _ => ?_) fun _ => Api.expects_failWith _
      refine Realpath.expects_strlen absolutePath fun p => ?_
      refine Api.expects_exchange_lone (by simp) (by simp) fun response _ _ => ?_
      exact Api.expects_switch fun _ => rfl
    | removeFile pathname absolutePath =>
      refine Api.expects_onFile pathname fun _ => Realpath.expects_ensureOpened absolutePath 4 fun p => ?_
      refine Api.expects_exchange_lone (by simp) (by simp) fun response _ _ => ?_
      refine Api.expects_switch fun _ => ?_
      refine Expects.after (Api.asks_removeOpened (some p)) fun _ => ?_
      exact Expects.after (x := Api.note _) ⟨trivial, fun _ => trivial⟩ fun _ => rfl
    | closeFile pathname absolutePath =>
      refine Api.expects_onFile pathname fun _ => Realpath.expects_strlen absolutePath fun p => ?_
      refine Api.expects_exchange_lone (by simp) (by simp) fun response _ _ => ?_
      refine Api.expects_switch fun _ => ?_
      exact Expects.after (x := Api.note _) ⟨trivial, fun _ => trivial⟩ fun _ => rfl

/-! ### The server's side -/

namespace Catalog

/-- The client waits for no lock. -/
def Idle (v : Catalog) (clientFd : Nat) : Prop := ∀ p, v.waiters p clientFd = 0

/-- The client waits for the lock of this file. -/
def AwaitsAt (v : Catalog) (clientFd : Nat) (q : Path) : Prop :=
  ∀ p, v.waiters p clientFd = if p = q then 1 else 0

/-- The client waits for the lock of one file. -/
def Awaits (v : Catalog) (clientFd : Nat) : Prop := ∃ q, v.AwaitsAt clientFd q

end Catalog

/-- The worker answers the request, or puts the client in the waiting list of a file. -/
theorem Peer.serve_settles {site : Site} {env : List Bool} {peer peer' : Peer} {request : Request}
    (hs : peer.server.storage.Sound) (ht : peer.server.Tallies request)
    (hc : request.type ≠ .closeConnection)
    (hd : (FileStorage.serve site.dispatcher site.clientFd request).delivers env peer.server.world = true)
    (h : peer.serve site env request = some peer') : ∃ frames, peer'.inbox = peer.inbox ++ frames ∧
      Settles site.clientFd request peer.server.storage.catalog frames peer'.server.storage.catalog := by
  unfold Peer.serve at h
  split at h
  · rename_i w env' hrun
    obtain rfl := Option.some.inj h
    exact ⟨_, rfl, (delivered_serve hs ht hc).of_run hd hrun⟩
  · rename_i w env' hrun
    have hblocked : ((FileStorage.serve site.dispatcher site.clientFd request).run env
        peer.server.world).1 ≠ .blocked := serve_not_blocked ht.free ht.append
    exact absurd (congrArg Prod.fst hrun) hblocked
  · cases h

section Others

variable {t : Server} {x : Step} {r : Option Reply} {w : StorageWorld} {clientFd : Nat}

theorem Server.exec_posts {P : Int × Response → Prop} (hp : x.call.prog.posts P)
    (he : t.exec x = some (r, w)) : ∀ m ∈ w.sent, P m := by
  intro m hm
  have hsent := exec_returns hp.returns he m hm
  exact hsent.resolve_left (by simp [world])

theorem framesTo_request {fd : Nat} {req : Request} (hx : x.call = .request fd req)
    (hne : fd ≠ clientFd) (he : t.exec x = some (r, w)) : framesTo clientFd w.sent = [] := by
  have hp : x.call.prog.posts fun m => m.1 = (fd : Int) := by
    rw [hx]
    exact (posts_handle fd req).bind fun _ => trivial
  rw [framesTo, List.filter_eq_nil_iff.mpr, List.map_nil]
  intro m hm
  have hfd := Server.exec_posts hp he m hm
  simp only [decide_eq_true_eq]
  omega

/-- The grants among the messages of the lock manager, by the files they are for. -/
theorem framesTo_grants {sent : List (Int × Response)} (h : ∀ m ∈ sent, ∃ c p, m = grantMessage c p) :
    ((∀ p, sent.count (grantMessage clientFd p) = 0) → framesTo clientFd sent = []) ∧
      ∀ q, (∀ p, sent.count (grantMessage clientFd p) = if p = q then 1 else 0) →
        framesTo clientFd sent = [(grantMessage clientFd q).2] := by
  have hown : ∀ m ∈ sent, m.1 = (clientFd : Int) → ∃ p, m = grantMessage clientFd p ∧
      0 < sent.count (grantMessage clientFd p) := by
    intro m hm hfd
    obtain ⟨c, p, rfl⟩ := h m hm
    obtain rfl : c = clientFd := hfd
    exact ⟨p, rfl, List.count_pos_iff.mpr hm⟩
  refine ⟨fun hz => ?_, fun q hq => ?_⟩
  · rw [framesTo, List.filter_eq_nil_iff.mpr, List.map_nil]
    intro m hm hfd
    obtain ⟨p, -, hp⟩ := hown m hm (of_decide_eq_true hfd)
    have := hz p
    omega
  · have hall : ∀ m ∈ sent.filter fun m => m.1 = (clientFd : Int), m = grantMessage clientFd q := by
      intro m hm
      obtain ⟨hm, hfd⟩ := List.mem_filter.mp hm
      obtain ⟨p, rfl, hp⟩ := hown m hm (of_decide_eq_true hfd)
      by_cases hpq : p = q
      · rw [hpq]
      · rw [hq, if_neg hpq] at hp
        omega
    have hrep := List.eq_replicate_of_mem hall
    have hcount : (sent.filter fun m => m.1 = (clientFd : Int)).count (grantMessage clientFd q) = 1 := by
      rw [List.count_filter (by simp [grantMessage]), hq, if_pos rfl]
    rw [hrep, List.count_replicate_self] at hcount
    rw [framesTo, hrep, hcount]
    rfl

/-- What a call of somebody else means to a client: nothing, or the grant that it waits for. -/
theorem Server.exec_other (hb : t.storage.Bounded) (ha : AnswersStep t x)
    (hx : x.call.caller ≠ some clientFd) (he : t.exec x = some (r, w)) :
    (t.storage.catalog.Idle clientFd →
      framesTo clientFd w.sent = [] ∧ w.state.catalog.Idle clientFd) ∧
    ∀ q, t.storage.catalog.AwaitsAt clientFd q →
      framesTo clientFd w.sent = [] ∧ w.state.catalog.AwaitsAt clientFd q ∨
        framesTo clientFd w.sent = [(grantMessage clientFd q).2] ∧ w.state.catalog.Idle clientFd ∧
          x.call = .lockManager ∧ grantMessage clientFd q ∈ w.sent := by
  have hstep := fun p => waiters_step hb.sound hb.coherent ha he p clientFd
  cases hcall : x.call with
  | request fd req =>
    have hne : fd ≠ clientFd := by
      rintro rfl
      exact hx (by rw [hcall, Call.caller])
    have hnone := framesTo_request hcall hne he
    have hsame : ∀ p, w.state.catalog.waiters p clientFd = t.storage.catalog.waiters p clientFd := by
      intro p
      simpa [Record.responses, Record.awaits, Call.awaits, hcall, hne] using hstep p
    exact ⟨fun hi => ⟨hnone, fun p => (hsame p).trans (hi p)⟩,
      fun q hq => .inl ⟨hnone, fun p => (hsame p).trans (hq p)⟩⟩
  | lockManager =>
    have hgrants : ∀ m ∈ w.sent, ∃ c p, m = grantMessage c p := by
      refine exec_posts ?_ he
      rw [hcall]
      exact posts_lockManagerPass.bind fun _ => trivial
    have hcount : ∀ p, w.sent.count (grantMessage clientFd p) + w.state.catalog.waiters p clientFd =
        t.storage.catalog.waiters p clientFd := by
      intro p
      simpa [Record.responses, Record.awaits, Call.awaits, hcall] using hstep p
    obtain ⟨hzero, hone⟩ := @framesTo_grants clientFd _ hgrants
    refine ⟨fun hi => ⟨hzero fun p => ?_, fun p => ?_⟩, ?_⟩
    · have := hcount p
      have := hi p
      omega
    · have := hcount p
      have := hi p
      omega
    · intro q hq
      have hother : ∀ p, p ≠ q → w.sent.count (grantMessage clientFd p) = 0 ∧
          w.state.catalog.waiters p clientFd = 0 := by
        intro p hp
        have := hcount p
        rw [hq, if_neg hp] at this
        omega
      have hown := hcount q
      rw [hq, if_pos rfl] at hown
      rcases Nat.eq_zero_or_pos (w.sent.count (grantMessage clientFd q)) with h0 | hpos
      · refine .inl ⟨hzero fun p => ?_, fun p => ?_⟩
        · by_cases hp : p = q
          · rw [hp, h0]
          · exact (hother p hp).1
        · split
          · subst p
            omega
          · exact (hother p ‹_›).2
      · refine .inr ⟨hone q fun p => ?_, fun p => ?_, rfl, List.count_pos_iff.mp hpos⟩
        · split
          · subst p
            omega
          · exact (hother p ‹_›).1
        · by_cases hp : p = q
          · subst p
            omega
          · exact (hother p hp).2

end Others

/-! ### Runs -/

inductive Move where
  | call (call : ClientCall)
  /-- The client goes on, with these answers to what it and the server ask of the system. -/
  | advance (env : List Bool)
  /-- The server runs a call of somebody else. -/
  | other (x : Step)

namespace Link

def move (site : Site) (l : Link) : Move → Option Link
  | .call call => if l.pending.isNone then some { l with pending := some call.program } else none
  | .advance env => l.pending.bind (l.advance site env)
  | .other x => (l.peer.server.exec x).map fun r =>
      { l with peer := ⟨.ofWorld r.2, l.peer.inbox ++ framesTo site.clientFd r.2.sent⟩ }

/-- What the client goes on with may be answered: a request is served without a frame too many, and
all its frames are sent; a directory is made. -/
def Answered (site : Site) (env : List Bool) (l : Link) : ClientM Int → Prop
  | .ask (.sendRequest request) _ => l.peer.server.Tallies request ∧
      (serve site.dispatcher site.clientFd request).delivers env l.peer.server.world = true
  | .ask (.mkdirP _) _ => env.headD true = true
  | _ => True

instance (site : Site) (env : List Bool) (l : Link) :
    (x : ClientM Int) → Decidable (l.Answered site env x)
  | .ask (.sendRequest _) _ => inferInstanceAs (Decidable (_ ∧ _))
  | .ask (.mkdirP _) _ => inferInstanceAs (Decidable (_ = true))
  | .ret _ | .crash | .access _ _ => .isTrue trivial
  | .ask .socket _ | .ask .connect _ | .ask .nanosleep _ | .ask .clockGettime _
  | .ask .indeterminate _ | .ask .alloc _ | .ask .recvResponse _ | .ask (.readDisk _) _
  | .ask (.note _) _ => .isTrue trivial

def Tallied (site : Site) (l : Link) : Move → Prop
  | .call _ => True
  | .advance env => ∀ x ∈ l.pending, l.Answered site env x
  | .other x => AnswersStep l.peer.server x ∧ x.call.caller ≠ some site.clientFd

instance (site : Site) (l : Link) : (a : Move) → Decidable (l.Tallied site a)
  | .call _ => inferInstanceAs (Decidable True)
  | .advance env => inferInstanceAs (Decidable (∀ x ∈ l.pending, l.Answered site env x))
  | .other _ => inferInstanceAs (Decidable (_ ∧ _))

/-- What the client has not done yet of its call. -/
def rest (l : Link) : ClientM Int := l.pending.getD (.ret 0)

/-- The client has read the responses to its earlier requests, or waits for a lock and will read the
one response that it gets. -/
def Aligned (site : Site) (l : Link) : Prop :=
  Expects l.rest l.peer.inbox ∧ l.peer.server.storage.catalog.Idle site.clientFd ∨
    l.peer.inbox = [] ∧ l.peer.server.storage.catalog.Awaits site.clientFd ∧
      ∀ frame, Expects l.rest [frame]

section Step

variable {site : Site} {env : List Bool} {l l' : Link} {k : Except Errno Unit → ClientM Int}

theorem move_bounded {a : Move} (hl : l.peer.server.storage.Bounded) (h : l.move site a = some l') :
    l'.peer.server.storage.Bounded := by
  cases a with
  | call call =>
    rw [move] at h
    split at h
    · obtain rfl := Option.some.inj h
      exact hl
    · cases h
  | advance env => exact step_bounded (a := .advance env) hl h
  | other x => exact step_bounded (a := .other x) hl h

/-- The client sends a request. -/
theorem aligned_sendRequest {request : Request} {peer' : Peer} (hb : l.peer.server.storage.Bounded)
    (hx : Expects (.ask (.sendRequest request) k) l.peer.inbox)
    (hi : l.peer.server.storage.catalog.Idle site.clientFd)
    (ha : l.Answered site env (.ask (.sendRequest request) k))
    (h : l.peer.serve site env request = some peer') :
    Aligned site { l with pending := some (k (.ok ())), peer := peer' } := by
  obtain ⟨⟨hempty, hclose⟩, hk⟩ := hx
  obtain ⟨ht, hd⟩ := ha
  obtain ⟨frames, hinbox, hset⟩ := Peer.serve_settles hb.sound ht hclose hd h
  rw [hempty, List.nil_append] at hinbox
  rcases hset with ⟨hf, hle⟩ | ⟨hlock, rfl, q, -, hq⟩
  · refine .inl ⟨?_, fun p => ?_⟩
    · rw [hinbox]
      exact hk _ _ ⟨rfl, ht.append, hf⟩
    · exact Nat.le_zero.mp (hi p ▸ hle p)
  · refine .inr ⟨hinbox, ⟨q, fun p => ?_⟩, fun frame => hk _ _ ⟨rfl, ht.append, ?_⟩⟩
    · rw [hq, hi p, Nat.zero_add]
    · exact frames_lone_of_type (by simp [hlock]) (by simp [hlock]) frame

/-- The client goes on with a question that is not for the server. -/
theorem aligned_local {q : Question} {k : q.Answer → ClientM Int} {x : q.Answer}
    (hg : ∀ inbox, wire.gives q inbox x inbox) (hr : l.rest = .ask q k)
    (hl : l.Aligned site) : Aligned site { l with pending := some (k x) } := by
  rw [Aligned, hr] at hl
  rcases hl with ⟨hx, hi⟩ | ⟨hempty, hw, hx⟩
  · exact .inl ⟨hx.2 x _ (hg _), hi⟩
  · exact .inr ⟨hempty, hw, fun frame => (hx frame).2 x _ (hg _)⟩

theorem aligned_advance {x : ClientM Int} (hb : l.peer.server.storage.Bounded) (hp : l.pending = some x)
    (ha : l.Answered site env x) (hl : l.Aligned site) (h : l.advance site env x = some l') :
    l'.Aligned site := by
  have hrest : l.rest = x := by rw [rest, hp, Option.getD_some]
  cases x with
  | ret r =>
    obtain rfl := Option.some.inj h
    rw [Aligned, hrest] at hl
    rcases hl with hl | ⟨-, -, hx⟩
    · exact .inl hl
    · exact absurd (hx ⟨.success, [], []⟩) (by simp [Expects, Copes])
  | crash => cases h
  | access f k =>
    obtain rfl := Option.some.inj h
    rw [Aligned, hrest] at hl
    rcases hl with ⟨hx, hi⟩ | ⟨hempty, hw, hx⟩
    · exact .inl ⟨hx _, hi⟩
    · exact .inr ⟨hempty, hw, fun frame => hx frame _⟩
  | ask q k =>
    obtain ⟨⟨y, peer'⟩, hr, rfl⟩ := Option.map_eq_some_iff.mp h
    cases q with
    | sendRequest request =>
      obtain ⟨peer1, hserve, heq⟩ := Option.map_eq_some_iff.mp hr
      obtain ⟨rfl, rfl⟩ := Prod.mk.inj heq
      rw [Aligned, hrest] at hl
      rcases hl with ⟨hx, hi⟩ | ⟨-, -, hx⟩
      · exact aligned_sendRequest hb hx hi ha hserve
      · exact absurd (hx ⟨.success, [], []⟩).1.1 (by simp)
    | recvResponse =>
      obtain ⟨c, pending, server, inbox⟩ := l
      rw [Aligned, hrest] at hl
      cases inbox with
      | nil => cases hr
      | cons response inbox =>
        cases hr
        rcases hl with ⟨hx, hi⟩ | ⟨hempty, -⟩
        · exact .inl ⟨hx.2 _ _ ⟨response, rfl, rfl⟩, hi⟩
        · cases hempty
    | mkdirP dirname =>
      cases hr
      exact aligned_local (fun inbox => ⟨ha, rfl⟩) hrest hl
    | alloc =>
      cases hr
      exact aligned_local (fun inbox => rfl) hrest hl
    | readDisk p =>
      cases hr
      exact aligned_local (fun inbox => rfl) hrest hl
    | note event =>
      cases hr
      exact aligned_local (fun inbox => rfl) hrest hl
    | _ => cases hr

theorem aligned_move {a : Move} (hb : l.peer.server.storage.Bounded) (ha : l.Tallied site a)
    (hl : l.Aligned site) (h : l.move site a = some l') : l'.Aligned site := by
  cases a with
  | call call =>
    rw [move] at h
    split at h
    · rename_i hn
      obtain rfl := Option.some.inj h
      have hrest : l.rest = .ret 0 := by rw [rest, Option.isNone_iff_eq_none.mp hn, Option.getD_none]
      rw [Aligned, hrest] at hl
      rcases hl with ⟨hempty, hi⟩ | ⟨-, -, hx⟩
      · refine .inl ⟨?_, hi⟩
        rw [show l.peer.inbox = [] from hempty]
        exact expects_program call
      · exact absurd (hx ⟨.success, [], []⟩) (by simp [Expects, Copes])
    · cases h
  | advance env =>
    obtain ⟨x, hp, h⟩ := Option.bind_eq_some_iff.mp h
    exact aligned_advance hb hp (ha x hp) hl h
  | other x =>
    obtain ⟨r, hr, rfl⟩ := Option.map_eq_some_iff.mp h
    obtain ⟨hidle, hawaits⟩ := Server.exec_other hb ha.1 ha.2 hr
    rcases hl with ⟨hx, hi⟩ | ⟨hempty, hw, hx⟩
    · obtain ⟨hnone, hi'⟩ := hidle hi
      refine .inl ⟨?_, hi'⟩
      rw [hnone, List.append_nil]
      exact hx
    · obtain ⟨q, hq⟩ := hw
      rcases hawaits q hq with ⟨hnone, hw'⟩ | ⟨hframe, hi', -⟩
      · exact .inr ⟨by rw [hempty, hnone]; rfl, ⟨q, hw'⟩, hx⟩
      · refine .inl ⟨?_, hi'⟩
        rw [hempty, hframe]
        exact hx _

/-- Before the first call of the client. -/
theorem aligned_initial (hi : l.peer.server.Initial) (hn : l.pending = none)
    (hempty : l.peer.inbox = []) : l.peer.server.storage.Bounded ∧ l.Aligned site := by
  have hfresh : Reaches (step site) (fun _ _ => True) l [] l := .nil
  refine ⟨reaches_bounded hi hfresh, .inl ⟨?_, fun p => ?_⟩⟩
  · rw [rest, hn]
    exact hempty
  · obtain ⟨maxSize, maxFiles, _, -, -, hc⟩ := hi.catalog
    rw [hc]
    rfl

end Step

/-- Whatever the client calls and whatever the others do, every request finds the responses to the
earlier ones read, a call leaves none behind, and where the client receives, a response has come or
the client waits for the lock of a file. -/
theorem reaches_lockstep {site : Site} {l l' : Link} {h : List (Link × Move)}
    (hi : l.peer.server.Initial) (hn : l.pending = none) (hempty : l.peer.inbox = [])
    (hr : Reaches (move site) (Tallied site) l h l') :
    (l'.pending = none → l'.peer.inbox = []) ∧
      (∀ request k, l'.pending = some (.ask (.sendRequest request) k) → l'.peer.inbox = []) ∧
      ∀ k, l'.pending = some (.ask .recvResponse k) →
        l'.peer.inbox ≠ [] ∨ l'.peer.server.storage.catalog.Awaits site.clientFd := by
  obtain ⟨hb, hl⟩ := hr.always (I := fun l => l.peer.server.storage.Bounded ∧ l.Aligned site)
    (aligned_initial hi hn hempty)
    fun t a u ht ha h => ⟨move_bounded ht.1 h, aligned_move ht.1 ha ht.2 h⟩
  refine ⟨fun hp => ?_, fun request k hp => ?_, fun k hp => ?_⟩
  · rcases hl with ⟨hx, -⟩ | ⟨he, -⟩
    · rw [rest, hp] at hx
      exact hx
    · exact he
  · rcases hl with ⟨hx, -⟩ | ⟨he, -⟩
    · rw [rest, hp] at hx
      exact hx.1.1
    · exact he
  · rcases hl with ⟨hx, -⟩ | ⟨-, hw, -⟩
    · rw [rest, hp] at hx
      exact .inl hx.1
    · exact .inr hw

/-- A client that has waited for the lock of a file, from another one to which it belonged. -/
theorem reaches_lockstep_waited : ∃ l h l', l.peer.server.Initial ∧
    Reaches (move site) (Tallied site) l h l' ∧
    h.map Prod.snd = [.other (.openFile 5 (slash 'a') 6), .other (.writeFile 5 (slash 'a') [1]),
      .call (.file (.lockFile (some (slash 'a')) (some (slash 'a'))))] ++
      List.replicate 12 (.advance []) ++ [.other (.closeFile 5 (slash 'a')),
      .other ⟨.lockManager, []⟩, .advance [], .advance []] ∧
    l'.pending = none ∧ l'.peer.inbox = [] := by
  obtain ⟨s, hi, hs⟩ := Server.exists_start 100 4 (fun s : Server => (play (move site) (Tallied site)
    ⟨freshClient [], none, ⟨s, []⟩⟩ ([.other (.openFile 5 (slash 'a') 6),
      .other (.writeFile 5 (slash 'a') [1]),
      .call (.file (.lockFile (some (slash 'a')) (some (slash 'a'))))] ++
      List.replicate 12 (.advance []) ++ [.other (.closeFile 5 (slash 'a')),
      .other ⟨.lockManager, []⟩, .advance [], .advance []])).any
    fun l : Link => l.pending.isNone) (by decide) (by decide)
  obtain ⟨h, l', hr, ha, hl⟩ := exists_run _ _ _ _ _ hs
  have hnone : l'.pending = none := Option.isNone_iff_eq_none.mp hl
  exact ⟨_, h, l', hi, hr, ha, hnone, (reaches_lockstep hi rfl rfl hr).1 hnone⟩

end Link

end FileStorage
