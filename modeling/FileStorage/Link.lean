import FileStorage.OpenedFiles
import FileStorage.Threads
import FileStorage.Worker

/-! A client on its connection to the server. The questions of the call it has made are answered
one at a time, and in between other clients are served. -/

namespace FileStorage

open Dialogue Machine Prog

/-! ### What a call preserves -/

namespace Catalog

theorem Effect.maxSize {fail : Prop} {v v' : Catalog} {c : Call} {r : Option Reply}
    {ns : List Access} (h : Effect fail v c r ns v') : v'.maxSize = v.maxSize :=
  congrArg Prod.fst (Effect.bounds h)

end Catalog

theorem Settled.orderly {fail : Prop} {c : Call} {r : Option Reply} {w w' : StorageWorld}
    (h : Settled fail c w r w') (hw : w.state.Orderly) : w'.state.Orderly := by
  obtain ⟨hs, ns, -, heff⟩ := h.done
  refine ⟨hs, fun g hg => ?_⟩
  rcases Catalog.origin heff h.locking hg with ⟨f, hf, hsur⟩ | ⟨-, -, list, heq⟩
  · exact hsur.coherent (hw.coherent f hf)
  · rw [heq]
    exact Catalog.coherent_relock (File.coherent_fresh _ _) _ _ _

/-- The storage is in order, and its quota is a `size_t`. -/
structure Storage.Bounded (s : Storage) : Prop extends s.Orderly where
  bounded : s.maxSize < sizeBound

theorem Settled.bounded {fail : Prop} {c : Call} {r : Option Reply} {w w' : StorageWorld}
    (h : Settled fail c w r w') (hw : w.state.Bounded) : w'.state.Bounded := by
  refine ⟨h.orderly hw.toOrderly, ?_⟩
  obtain ⟨-, ns, -, heff⟩ := h.done
  have hmax : w'.state.maxSize = w.state.maxSize := Catalog.Effect.maxSize heff
  rw [hmax]
  exact hw.bounded

section

variable {ok : Bool → Prop} {w : StorageWorld}

theorem returns_respond {fd : Nat} {filePath : Bytes} {reply : Reply} :
    (respond fd filePath reply).returns ok (fun _ w' => w'.state = w.state) w := by
  simp only [respond, bind_eq, pure_eq, returns_bind, returns_ret]
  exact returns_sendResponse fun _ w' _ hm => hm.state

theorem returns_serve {d : Dispatcher} {fd : Nat} {req : Request} (hw : w.state.Bounded) :
    (serve d fd req).returns ok (fun _ w' => w'.state.Bounded) w := by
  have hrespond : ∀ (path : Bytes) (reply : Reply) (w : StorageWorld), w.state.Bounded →
      (respond fd path reply).returns ok (fun _ w' => w'.state.Bounded) w := by
    intro path reply w hw
    refine returns_respond.mono fun _ w' h => ?_
    rw [h]
    exact hw
  have hhandle : ∀ (req : Request) (w : StorageWorld), w.state.Bounded →
      (handle fd req).returns ok (fun _ w' => w'.state.Bounded) w := by
    intro req w hw
    exact (returns_handle hw.sound).mono fun _ _ h => h.bounded hw
  unfold serve
  cases req.type with
  | openConnection => exact hrespond _ _ w hw
  | closeConnection => exact returns_ret.mpr hw
  | appendToFile =>
    refine (hhandle _ w hw).bind fun reply w1 h1 => (hrespond _ reply w1 h1).bind fun _ w2 h2 => ?_
    exact (hhandle _ w2 h2).bind fun read w3 h3 => hrespond _ read w3 h3
  | lockFile =>
    refine (hhandle _ w hw).bind fun reply w1 h1 => returns_ite.mpr ⟨fun _ => ?_, fun _ => returns_ret.mpr h1⟩
    exact hrespond _ reply w1 h1
  | _ => exact (hhandle _ w hw).bind fun reply w1 h1 => hrespond _ reply w1 h1

end

/-! ### The two sides of the connection -/

/-- What belongs to the connection: the dispatcher that has accepted it, the descriptor it has in
the server, and the files the client can read. -/
structure Site where
  dispatcher : Dispatcher
  clientFd : Nat
  disk : Path → Except Errno Bytes

/-- The server, and the responses that the client has not read. -/
structure Peer where
  server : Server
  inbox : List Response

def framesTo (clientFd : Nat) (sent : List (Int × Response)) : List Response :=
  (sent.filter fun m => m.1 = (clientFd : Int)).map Prod.snd

namespace Peer

/-- A worker takes a request. One that has to wait for the mutex has not changed the storage. -/
def serve (site : Site) (env : List Bool) (peer : Peer) (request : Request) : Option Peer :=
  match (FileStorage.serve site.dispatcher site.clientFd request).run env peer.server.world with
  | (.done _, w, _) => some ⟨.ofWorld w, peer.inbox ++ framesTo site.clientFd w.sent⟩
  | (.blocked, w, _) => some ⟨peer.server, peer.inbox ++ framesTo site.clientFd w.sent⟩
  | (.crashed, _, _) => none

/-- A response that has not come is not waited for. -/
def answer (site : Site) (env : List Bool) : (q : Question) → Peer → Option (q.Answer × Peer)
  | .sendRequest request, peer => (peer.serve site env request).map fun peer' => (.ok (), peer')
  | .recvResponse, ⟨server, response :: inbox⟩ => some (.ok response, ⟨server, inbox⟩)
  | .alloc, peer => some (env.headD true, peer)
  | .readDisk p, peer => some (site.disk p, peer)
  | .mkdirP _, peer => some (env.headD true, peer)
  | .note _, peer => some ((), peer)
  -- the functions on files ask nothing else
  | _, _ => none

variable {site : Site} {env : List Bool} {peer peer' : Peer}

theorem serve_bounded {req : Request} (hp : peer.server.storage.Bounded)
    (h : peer.serve site env req = some peer') : peer'.server.storage.Bounded := by
  unfold serve at h
  split at h
  · rename_i w env' hrun
    obtain rfl := Option.some.inj h
    exact (returns_serve hp).of_run hrun
  · obtain rfl := Option.some.inj h
    exact hp
  · cases h

theorem answer_bounded {q : Question} {a : q.Answer} (hp : peer.server.storage.Bounded)
    (h : peer.answer site env q = some (a, peer')) : peer'.server.storage.Bounded := by
  unfold answer at h
  split at h
  · obtain ⟨p, hserve, heq⟩ := Option.map_eq_some_iff.mp h
    obtain rfl : p = peer' := congrArg Prod.snd heq
    exact serve_bounded hp hserve
  · cases h
    exact hp
  · cases h
    exact hp
  · cases h
    exact hp
  · cases h
    exact hp
  · cases h
    exact hp
  · cases h

end Peer

/-! ### Runs -/

/-- The client with the rest of the call it has made, and its peer. -/
structure Link where
  client : Client
  pending : Option (ClientM Int)
  peer : Peer

inductive LinkAction where
  | call (call : FileCall)
  /-- The client goes on, with these answers to what it and the server ask of the system. -/
  | advance (env : List Bool)
  /-- The server runs a call of somebody else. -/
  | other (x : Step)

namespace Link

def advance (site : Site) (env : List Bool) (l : Link) : ClientM Int → Option Link
  | .ret _ => some { l with pending := none }
  | .crash => none
  | .access f k => some { l with client := f l.client, pending := some (k l.client) }
  | .ask q k => (l.peer.answer site env q).map fun r => { l with pending := some (k r.1), peer := r.2 }

def step (site : Site) (l : Link) : LinkAction → Option Link
  | .call call => if l.pending.isNone then some { l with pending := some call.prog } else none
  | .advance env => l.pending.bind (l.advance site env)
  | .other x => (l.peer.server.exec x).map fun r =>
      { l with peer := ⟨.ofWorld r.2, l.peer.inbox ++ framesTo site.clientFd r.2.sent⟩ }

/-- What a program returns, if it has nothing else to do. -/
def returned : ClientM Int → Option Int
  | .ret r => some r
  | _ => none

/-- The calls that return have succeeded. -/
def Succeeding (l : Link) (_ : LinkAction) : Prop := (l.pending.bind returned).all fun r => r = 0

instance (l : Link) (a : LinkAction) : Decidable (Succeeding l a) :=
  inferInstanceAs (Decidable (_ = true))

variable {site : Site} {l l' : Link}

theorem step_bounded {a : LinkAction} (hl : l.peer.server.storage.Bounded)
    (h : l.step site a = some l') : l'.peer.server.storage.Bounded := by
  cases a with
  | call call =>
    rw [step] at h
    split at h
    · obtain rfl := Option.some.inj h
      exact hl
    · cases h
  | advance env =>
    obtain ⟨x, -, h⟩ := Option.bind_eq_some_iff.mp h
    cases x with
    | ret a =>
      obtain rfl := Option.some.inj h
      exact hl
    | crash => cases h
    | access f k =>
      obtain rfl := Option.some.inj h
      exact hl
    | ask q k =>
      obtain ⟨r, hr, rfl⟩ := Option.map_eq_some_iff.mp h
      exact Peer.answer_bounded hl hr
  | other x =>
    obtain ⟨r, hr, rfl⟩ := Option.map_eq_some_iff.mp h
    exact (Server.exec_settled hl.sound hr).bounded hl

/-- Whatever the client and the others have done to a fresh server. -/
theorem reaches_bounded {C : Link → LinkAction → Prop} {h : List (Link × LinkAction)}
    (hi : l.peer.server.Initial) (hr : Reaches (step site) C l h l') :
    l'.peer.server.storage.Bounded := by
  refine hr.always (I := fun l => l.peer.server.storage.Bounded) ⟨⟨hi.sound, ?_⟩, ?_⟩
    fun t a u ht _ => step_bounded ht
  · exact Server.Initial.coherent hi (@Run.nil anyStep _)
  · obtain ⟨maxSize, _, _, -, hb, hc⟩ := hi.catalog
    have hmax : l.peer.server.storage.maxSize = maxSize := congrArg Catalog.maxSize hc
    rwa [hmax]

end Link

end FileStorage
