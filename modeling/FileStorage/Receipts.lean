import FileStorage.Durability
import FileStorage.Lockstep

/-! What a client holds of the server: a call of the API that returns 0 has had its request granted
while it ran. -/

namespace FileStorage

open Dialogue Machine Prog

/-- In a call, the last request that has been sent, and the last response that has been read since. -/
structure Receipt where
  asked : Option Request
  read : Option Response

def receipts : Service Question.Answer Receipt where
  allows _ _ := True
  gives
    | .sendRequest request, _, _, r' => r' = ⟨some request, none⟩
    | .recvResponse, r, x, r' => r' = ⟨r.asked, x.toOption.or r.read⟩
    | _, r, _, r' => r' = r

/-- The last request is one of these, and its last response reports success. -/
def Receipt.Shows (asks : Request → Prop) (r : Receipt) : Prop :=
  ∃ request response, asks request ∧ r.asked = some request ∧ r.read = some response ∧
    response.status = .success

/-- Where the program returns 0, it has a receipt to show. -/
def Earns (asks : Request → Prop) (x : ClientM Int) (r : Receipt) : Prop :=
  x.Copes receipts (fun result r' => result = 0 → r'.Shows asks) r

section Programs

variable {α : Type} {asks : Request → Prop} {r : Receipt} {request : Request} {response : Response}

theorem isLocal_receipts (q : Question) (r : Receipt) (h : q.isLocal) :
    receipts.allows q r ∧ ∀ x r', receipts.gives q r x r' → r' = r := by
  cases q with
  | sendRequest request => exact h.elim
  | recvResponse => exact h.elim
  | _ => exact ⟨trivial, fun x r' hg => hg⟩

theorem Earns.after {x : ClientM α} {g : α → ClientM Int} (hx : x.Asks Question.isLocal)
    (hg : ∀ a, Earns asks (g a) r) : Earns asks (x >>= g) r := by
  have hlocal : x.Copes receipts (fun _ r' => r' = r) r := hx.copes isLocal_receipts fun _ => rfl
  refine hlocal.bind fun a r' hr => ?_
  rw [hr]
  exact hg a

/-- After a piece that may leave any receipt. -/
theorem Earns.bind {x : ClientM α} {g : α → ClientM Int} {P : Receipt → Prop}
    (hx : x.Copes receipts (fun _ => P) r) (hg : ∀ a r', P r' → Earns asks (g a) r') :
    Earns asks (x >>= g) r := Copes.bind hx hg

theorem copes_receipts (x : ClientM α) (r : Receipt) : x.Copes receipts (fun _ _ => True) r := by
  induction x generalizing r with
  | ret a => trivial
  | crash => trivial
  | access f k ih => exact fun c => ih c r
  | ask q k ih => exact ⟨trivial, fun x r' _ => ih x r'⟩

/-- A program that sends nothing. -/
theorem copes_asked {x : ClientM α} (hx : Api.Listens x) (r : Receipt) :
    x.Copes receipts (fun _ r' => r'.asked = r.asked) r := by
  induction x generalizing r with
  | ret a => rfl
  | crash => trivial
  | access f k ih => exact fun c => ih c (hx c) r
  | ask q k ih =>
    refine ⟨trivial, fun x r' hg => ?_⟩
    have hr : r'.asked = r.asked := by
      cases q with
      | sendRequest request => exact absurd rfl (hx.1 request)
      | recvResponse =>
        obtain rfl : r' = ⟨r.asked, x.toOption.or r.read⟩ := hg
        rfl
      | _ =>
        obtain rfl : r' = r := hg
        rfl
    rw [← hr]
    exact ih x (hx.2 x) r'

namespace Api

theorem earns_failWith (e : Errno) (r : Receipt) : Earns asks (failWith e) r :=
  fun _ h => absurd h (by decide)

theorem earns_local {x : ClientM Int} (hx : x.Asks Question.isLocal) (hr : r.Shows asks) :
    Earns asks x r := hx.copes isLocal_receipts fun _ _ => hr

theorem earns_switch {success : ClientM Int} {arms : List (ResponseCode × Errno)}
    (hs : response.status = .success → Earns asks success r) :
    Earns asks (switch response success arms) r :=
  Copes.ite hs fun _ => earns_failWith _ r

theorem earns_onFile {k : Path → ClientM Int} (pathname : Option Path)
    (hk : ∀ p, pathname = some p → Earns asks (k p) r) : Earns asks (onFile pathname k) r := by
  cases pathname with
  | none => exact earns_failWith _ r
  | some p => exact fun c => Copes.ite (fun _ => earns_failWith _ r) fun _ => hk p rfl

theorem earns_recvResponse {k : Response → ClientM Int}
    (hk : ∀ response, Earns asks (k response) ⟨r.asked, some response⟩) :
    Earns asks (checked recvResponse k) r := by
  refine ⟨trivial, fun x r' hr => ?_⟩
  cases x with
  | error e => exact earns_failWith e r'
  | ok response =>
    obtain rfl : r' = ⟨r.asked, some response⟩ := hr
    exact hk response

theorem earns_exchange {k : Response → ClientM Int}
    (hk : ∀ response, Earns asks (k response) ⟨some request, some response⟩) :
    Earns asks (exchange request k) r := by
  refine ⟨trivial, fun x r' hr => ?_⟩
  cases x with
  | error e => exact earns_failWith e r'
  | ok u =>
    obtain rfl : r' = ⟨some request, none⟩ := hr
    exact earns_recvResponse hk

/-- An exchange whose success is followed by nothing that the server has to do with. -/
theorem earns_exchange_switch {success : Response → ClientM Int} {arms : List (ResponseCode × Errno)}
    (ha : asks request) (hs : ∀ response, (success response).Asks Question.isLocal) :
    Earns asks (exchange request fun response => switch response (success response) arms) r := by
  refine earns_exchange fun response => earns_switch fun hsuccess => earns_local (hs response) ?_
  exact ⟨request, response, ha, rfl, rfl, hsuccess⟩

theorem earns_openFile (pathname : Option Path) (flags : Int)
    (ha : ∀ p, pathname = some p → asks ⟨.openFile, stringBytes p, intBytes flags⟩) :
    Earns asks (openFile pathname flags) r := by
  refine earns_onFile pathname fun p hp => earns_exchange_switch (ha p hp) fun response => ?_
  refine Asks.bind (x := malloc) ⟨trivial, fun _ => trivial⟩ fun b => ?_
  refine Asks.ite ((asks_insertOpened p).bind fun b => ?_) trivial
  exact Asks.ite ⟨trivial, fun _ => trivial⟩ trivial

end Api

namespace Realpath

open Api

theorem earns_strlen {k : Path → ClientM Int} (absolutePath : Option Path)
    (hk : ∀ p, absolutePath = some p → Earns asks (k p) r) : Earns asks (strlen absolutePath k) r := by
  cases absolutePath with
  | none => trivial
  | some p => exact hk p rfl

theorem earns_ensureOpened {k : Path → ClientM Int} (absolutePath : Option Path) (flags : Int)
    (hk : ∀ p, absolutePath = some p → ∀ r, Earns asks (k p) r) :
    Earns asks (ensureOpened absolutePath flags k) r := by
  refine Earns.after (asks_listFind absolutePath) fun found => ?_
  refine Copes.ite (fun _ => earns_strlen absolutePath fun p hp => hk p hp r) fun _ => ?_
  refine Earns.bind (copes_receipts _ r) fun result r' _ => ?_
  exact Copes.ite (fun _ h => absurd h (by decide)) fun _ => earns_strlen absolutePath fun p hp => hk p hp r'

theorem earns_filesExpelled (ha : asks request) (hr : r.asked = some request) (dirname : Option Path)
    (arms : List (ResponseCode × Errno)) : Earns asks (filesExpelled response dirname arms) r := by
  refine Earns.bind (copes_asked (listens_of_isLocal (asks_makeDirectory dirname)) r) fun made r₁ h₁ => ?_
  refine Copes.ite (fun _ => ?_) fun _ h => absurd h (by decide)
  refine Earns.bind (copes_asked (listens_of_isLocal (asks_howMany response.body)) r₁) fun n r₂ h₂ => ?_
  refine Earns.bind (copes_asked (listens_recvExpelled dirname n.toNat) r₂) fun _ r₃ h₃ => ?_
  refine ⟨trivial, fun x r₄ hg => ?_⟩
  cases x with
  | error e => trivial
  | ok final =>
    obtain rfl : r₄ = ⟨r₃.asked, some final⟩ := hg
    refine earns_switch fun hs _ => ⟨request, final, ha, ?_, rfl, hs⟩
    exact (h₃.trans h₂).trans (h₁.trans hr)

end Realpath

end Programs

/-! ### The calls -/

namespace ClientCall

/-- The file that a call is about. -/
def target : ClientCall → Option Path
  | openFile pathname _ => pathname
  | file call => call.absolutePath.join

/-- The request with which a call asks for what it is about; of these only `writeFile` sends what it
has read from the disk. -/
def request (p : Path) (fileData : Bytes) : ClientCall → Request
  | openFile _ flags => ⟨.openFile, stringBytes p, intBytes flags⟩
  | file (.readFile _ _) => ⟨.readFile, stringBytes p, []⟩
  | file (.readNFiles N _) => ⟨.readNFiles, [], intBytes N⟩
  | file (.writeFile _ _ _) => ⟨.writeFile, stringBytes p, fileData⟩
  | file (.appendToFile _ _ buf _) => ⟨.appendToFile, stringBytes p, buf.getD []⟩
  | file (.lockFile _ _) => ⟨.lockFile, stringBytes p, []⟩
  | file (.unlockFile _ _) => ⟨.unlockFile, stringBytes p, []⟩
  | file (.removeFile _ _) => ⟨.removeFile, stringBytes p, []⟩
  | file (.closeFile _ _) => ⟨.closeFile, stringBytes p, []⟩

theorem type_request_ne {p : Path} {fileData : Bytes} (call : ClientCall) :
    (call.request p fileData).type ≠ .openConnection := by
  cases call with
  | openFile pathname flags => simp [request]
  | file call => cases call <;> simp [request]

/-- `readNFiles` is about no file. -/
def Requests (call : ClientCall) (request : Request) : Prop :=
  ∃ p fileData, call.target = some p ∧ request = call.request p fileData

end ClientCall

section Calls

variable {r : Receipt}

theorem earns_program (call : ClientCall) (ht : ∀ N dirname, call ≠ .file (.readNFiles N dirname))
    (r : Receipt) :
    Earns call.Requests call.program r := by
  cases call with
  | openFile pathname flags => exact Api.earns_openFile pathname flags fun p hp => ⟨p, [], hp, rfl⟩
  | file call =>
    cases call with
    | readNFiles N dirname => exact absurd rfl (ht N dirname)
    | readFile pathname absolutePath =>
      refine Api.earns_onFile pathname fun _ _ => Realpath.earns_ensureOpened absolutePath 1 fun p hp r => ?_
      refine Api.earns_exchange_switch ⟨p, [], hp, rfl⟩ fun response => ?_
      exact Asks.bind (x := Api.malloc) ⟨trivial, fun _ => trivial⟩ fun b =>
        Asks.ite trivial (Api.asks_failWith _)
    | writeFile pathname absolutePath dirname =>
      refine Api.earns_onFile pathname fun _ _ => ?_
      cases absolutePath with
      | none => exact Api.earns_failWith _ r
      | some absolute =>
        refine ⟨trivial, fun x r' hr => ?_⟩
        cases x with
        | error e => exact Api.earns_failWith e r'
        | ok fileData =>
          refine Realpath.earns_ensureOpened _ 6 fun p hp r => Api.earns_exchange fun response => ?_
          have ha : ClientCall.Requests (.file (.writeFile pathname (some absolute) dirname))
              ⟨.writeFile, stringBytes p, fileData⟩ := ⟨p, fileData, hp, rfl⟩
          refine Copes.ite (fun _ => Realpath.earns_filesExpelled ha rfl dirname _) fun _ => ?_
          exact Api.earns_switch fun hs _ => ⟨_, response, ha, rfl, rfl, hs⟩
    | appendToFile pathname absolutePath buf dirname =>
      cases buf with
      | none => exact Api.earns_failWith _ r
      | some buf =>
        refine Api.earns_onFile pathname fun _ _ => Realpath.earns_ensureOpened _ 4 fun p hp r => ?_
        refine Api.earns_exchange fun response => ?_
        have ha : ClientCall.Requests (.file (.appendToFile pathname absolutePath (some buf) dirname))
            ⟨.appendToFile, stringBytes p, buf⟩ := ⟨p, [], hp, rfl⟩
        refine Copes.ite (fun _ => Realpath.earns_filesExpelled ha rfl dirname _) fun _ => ?_
        exact Api.earns_switch fun hs _ => ⟨_, response, ha, rfl, rfl, hs⟩
    | lockFile pathname absolutePath =>
      refine Api.earns_onFile pathname fun _ _ => Realpath.earns_ensureOpened absolutePath 1 fun p hp r => ?_
      exact Api.earns_exchange_switch ⟨p, [], hp, rfl⟩ fun response => trivial
    | unlockFile pathname absolutePath =>
      refine Api.earns_onFile pathname fun _ _ => ?_
      refine Earns.after (Realpath.asks_listFind absolutePath) fun found => ?_
      refine Copes.ite (fun _ => ?_) fun _ => Api.earns_failWith _ r
      refine Realpath.earns_strlen absolutePath fun p hp => ?_
      exact Api.earns_exchange_switch ⟨p, [], hp, rfl⟩ fun response => trivial
    | removeFile pathname absolutePath =>
      refine Api.earns_onFile pathname fun _ _ => Realpath.earns_ensureOpened absolutePath 4 fun p hp r => ?_
      refine Api.earns_exchange_switch ⟨p, [], hp, rfl⟩ fun response => ?_
      exact (Api.asks_removeOpened (some p)).bind fun _ => ⟨trivial, fun _ => trivial⟩
    | closeFile pathname absolutePath =>
      refine Api.earns_onFile pathname fun _ _ => Realpath.earns_strlen absolutePath fun p hp => ?_
      exact Api.earns_exchange_switch ⟨p, [], hp, rfl⟩ fun response => ⟨trivial, fun _ => trivial⟩

end Calls

/-! ### The server's side -/

section Server

variable {d : Dispatcher} {s : Server} {fd : Nat} {req : Request} {env env' : List Bool}
  {w w' : StorageWorld}

theorem sent_of_respond {path : Bytes} {reply : Reply}
    (hd : (respond fd path reply).delivers env w = true)
    (hr : (respond fd path reply).run env w = (.done (), w', env')) :
    w'.state = w.state ∧ w'.sent = w.sent ++ [((fd : Int), ⟨reply.status, path, reply.body⟩)] := by
  have h : (respond fd path reply).delivered (fun _ u => u.state = w.state ∧
      u.sent = w.sent ++ [((fd : Int), ⟨reply.status, path, reply.body⟩)]) w :=
    delivered_respond.mpr ⟨rfl, rfl⟩
  exact h.of_run hd hr

/-- The worker runs the handler and answers with its reply, or keeps silent about a client that has
to wait. -/
theorem serve_reply (ho : req.type ≠ .openConnection) (hc : req.type ≠ .closeConnection)
    (ha : req.type ≠ .appendToFile) (hd : (serve d fd req).delivers env s.world = true)
    (hr : (serve d fd req).run env s.world = (.done (), w', env')) :
    ∃ reply w, s.exec ⟨.request fd req, env⟩ = some (some reply, w) ∧ w'.state = w.state ∧
      (req.type = .lockFile ∧ reply.status = .awaiting ∧ w'.sent = [] ∨
        ∃ path, w'.sent = w.sent ++ [((fd : Int), ⟨reply.status, path, reply.body⟩)]) := by
  have hhandle : ∀ k : Reply → ServerM Unit, ((handle fd req).bind k).delivers env s.world = true →
      ((handle fd req).bind k).run env s.world = (.done (), w', env') →
      ∃ reply w env₁, s.exec ⟨.request fd req, env⟩ = some (some reply, w) ∧
        (k reply).delivers env₁ w = true ∧ (k reply).run env₁ w = (.done (), w', env') := by
    intro k hd hr
    rw [run_bind] at hr
    split at hr
    · rename_i reply w env₁ hrun
      refine ⟨reply, w, env₁, (Server.exec_request rfl).mpr ?_, delivers_bind hrun hd, hr⟩
      rw [hrun]
      exact ⟨rfl, rfl⟩
    · cases hr
    · cases hr
  have hanswer : ∀ path : Bytes, ((handle fd req).bind fun reply => respond fd path reply).delivers
      env s.world = true → ((handle fd req).bind fun reply => respond fd path reply).run env s.world =
        (.done (), w', env') → ∃ reply w, s.exec ⟨.request fd req, env⟩ = some (some reply, w) ∧
      w'.state = w.state ∧ ∃ path, w'.sent = w.sent ++ [((fd : Int), ⟨reply.status, path, reply.body⟩)] := by
    intro path hd hr
    obtain ⟨reply, w, env₁, hexec, hd, hr⟩ := hhandle _ hd hr
    obtain ⟨hstate, hsent⟩ := sent_of_respond hd hr
    exact ⟨reply, w, hexec, hstate, path, hsent⟩
  unfold serve at hd hr
  cases htype : req.type with
  | openConnection => exact absurd htype ho
  | closeConnection => exact absurd htype hc
  | appendToFile => exact absurd htype ha
  | lockFile =>
    rw [htype] at hd hr
    obtain ⟨reply, w, env₁, hexec, hd, hr⟩ := hhandle _ hd hr
    refine ⟨reply, w, hexec, ?_⟩
    by_cases hst : reply.status = .awaiting
    · have hsilent : (handle fd req).silent := silent_handle fd (by simp [htype]) (by simp [htype])
      have hnone : ∀ m ∈ w.sent, False :=
        Server.exec_posts (x := ⟨.request fd req, env⟩) (hsilent.posts.bind fun _ => trivial) hexec
      rw [whenever, if_neg (by simp [hst])] at hr
      cases hr
      exact ⟨rfl, .inl ⟨rfl, hst, List.eq_nil_iff_forall_not_mem.mpr hnone⟩⟩
    · rw [whenever, if_pos hst] at hd hr
      obtain ⟨hstate, hsent⟩ := sent_of_respond hd hr
      exact ⟨hstate, .inr ⟨_, hsent⟩⟩
  | readNFiles =>
    rw [htype] at hd hr
    obtain ⟨reply, w, hexec, hstate, hsent⟩ := hanswer _ hd hr
    exact ⟨reply, w, hexec, hstate, .inr hsent⟩
  | _ =>
    rw [htype] at hd hr
    obtain ⟨reply, w, hexec, hstate, hsent⟩ := hanswer _ hd hr
    exact ⟨reply, w, hexec, hstate, .inr hsent⟩

/-- The last frame of an answer has the status and the body of the reply. -/
theorem Peer.serve_replies {site : Site} {peer peer' : Peer} {request : Request}
    (ht : peer.server.Tallies request) (ho : request.type ≠ .openConnection)
    (hc : request.type ≠ .closeConnection)
    (hd : (FileStorage.serve site.dispatcher site.clientFd request).delivers env peer.server.world = true)
    (h : peer.serve site env request = some peer') :
    ∃ reply w, peer.server.exec ⟨.request site.clientFd request, env⟩ = some (some reply, w) ∧
      (reply.status = .awaiting ∧ peer'.inbox = peer.inbox ∨
        ∃ response, peer'.inbox.getLast? = some response ∧ response.status = reply.status ∧
          response.body = reply.body) := by
  unfold Peer.serve at h
  split at h
  · rename_i w' env' hrun
    obtain rfl := Option.some.inj h
    obtain ⟨reply, w, hexec, -, ⟨-, hs, hsent⟩ | ⟨path, hsent⟩⟩ := serve_reply ho hc ht.append hd hrun
    · exact ⟨reply, w, hexec, .inl ⟨hs, by rw [hsent]; exact List.append_nil _⟩⟩
    · refine ⟨reply, w, hexec, .inr ⟨⟨reply.status, path, reply.body⟩, ?_, rfl, rfl⟩⟩
      rw [hsent, framesTo_append, framesTo_singleton, ← List.append_assoc, List.getLast?_concat]
  · rename_i w' env' hrun
    have hblocked : ((FileStorage.serve site.dispatcher site.clientFd request).run env
        peer.server.world).1 ≠ .blocked := serve_not_blocked ht.free ht.append
    exact absurd (congrArg Prod.fst hrun) hblocked
  · cases h

theorem returns_readFileHandler_reply {p : Path} {ok : Bool → Prop} (hs : w.state.Sound)
    (hp : req.path = some (some p)) : (readFileHandler req).returns ok (fun r _ => r.1 = .success →
      w.state.catalog.readReply p = some ⟨.success, r.2.getD []⟩) w := by
  simp only [readFileHandler, bind_eq, pure_eq, returns_bind]
  refine returns_requestPath fun path hpath => ?_
  obtain rfl : some p = path := Option.some.inj (hp.symm.trans hpath)
  rw [returns_lockReturn]
  refine fun _ => returns_storageGetFile fun hn => ?_
  rw [World.locked_state] at hn ⊢
  cases hg : w.state.find (some p) with
  | none => exact returns_ret.mpr (by simp)
  | some i =>
    have hget : w.state.catalog.get p = some (w.state.heap i) := by
      obtain ⟨q, hq, hg⟩ := Storage.find_eq_some hg
      obtain rfl := Option.some.inj hq
      exact hs.catalog_get hg
    simp only [returns_bind, returns_load, returns_alloc, returns_ite, returns_ret]
    refine fun b _ => ⟨fun _ => ?_, fun _ => by simp⟩
    split
    · exact returns_crash
    · rename_i buffer hcopy
      simp only [returns_bind, returns_unlockReturn, returns_ret]
      intro _
      have hbuckets : w.state.catalog.nBuckets ≠ 0 := hn
      have hcontents : copyBytes true (w.state.heap i).contents (w.state.heap i).size = some buffer := hcopy
      rw [Catalog.readReply, if_neg hbuckets, Catalog.content, hget, Option.map_some]
      dsimp only
      rw [hcontents]
      rfl

/-- A read that succeeds returns the contents of the file at that moment. -/
theorem Server.exec_readFile {x : Step} {p : Path} {reply : Reply} (hs : s.storage.Sound)
    (hx : x.call = .request fd req) (ht : req.type = .readFile) (hp : req.path = some (some p))
    (he : s.exec x = some (some reply, w)) (hreply : reply.status = .success) :
    s.storage.catalog.readReply p = some reply := by
  have hret : x.call.prog.returns (fun b => b = false → false ∈ x.env) (fun r _ => ∀ reply,
      r = some reply → reply.status = .success → s.storage.catalog.readReply p = some reply) s.world := by
    rw [hx]
    simp only [Call.prog, handle, ht, bind_eq, pure_eq, returns_bind, returns_ret]
    refine (returns_readFileHandler_reply hs hp).mono ?_
    intro r w' h reply heq hsuccess
    obtain rfl := Option.some.inj heq
    obtain ⟨status, buffer⟩ := r
    obtain rfl : status = .success := hsuccess
    exact h rfl
  exact exec_returns hret he reply rfl hreply

end Server

/-! ### Runs -/

namespace Link

/-- The server runs the request for the client, with this reply. -/
def Serves (site : Site) (request : Request) (reply : Reply) (x : Link × Move) : Prop :=
  ∃ env k w, x.2 = .advance env ∧ x.1.pending = some (.ask (.sendRequest request) k) ∧
    x.1.peer.server.exec ⟨.request site.clientFd request, env⟩ = some (some reply, w)

/-- The lock manager gives the client the lock of the file. -/
def Grants (site : Site) (p : Path) (x : Link × Move) : Prop :=
  ∃ step r w, x.2 = .other step ∧ step.call = .lockManager ∧
    x.1.peer.server.exec step = some (r, w) ∧ grantMessage site.clientFd p ∈ w.sent

/-- The client reads the response. -/
def Reads (response : Response) (x : Link × Move) : Prop :=
  ∃ env k inbox, x.2 = .advance env ∧ x.1.pending = some (.ask .recvResponse k) ∧
    x.1.peer.inbox = response :: inbox

/-- The response that the client has read last. -/
def LastRead (response : Response) (run : List (Link × Move)) : Prop :=
  ∃ before y rest, run = before ++ y :: rest ∧ Reads response y ∧
    ∀ z ∈ rest, ∀ other, ¬Reads other z

/-- The response tells the reply to the request, or that a wait for the lock of its file is over. -/
def Backs (site : Site) (run : List (Link × Move)) (request : Request) (response : Response) : Prop :=
  ∃ reply, (∃ x ∈ run, Serves site request reply x) ∧
    (response.status = reply.status ∧ response.body = reply.body ∨
      request.type = .lockFile ∧ reply.status = .awaiting ∧
        ∃ p, request.path.join = some p ∧ ∃ x ∈ run, Grants site p x)

/-- The client waits for the lock of the file that its request is about. -/
def Owes (site : Site) (run : List (Link × Move)) (request : Request) (l : Link) : Prop :=
  request.type = .lockFile ∧ (∃ reply, reply.status = .awaiting ∧ ∃ x ∈ run, Serves site request reply x) ∧
    l.peer.inbox = [] ∧ ∃ p, request.path.join = some p ∧
      l.peer.server.storage.catalog.AwaitsAt site.clientFd p

/-- The last of the responses that the client has read or can read is for its last request, or is
still to come. -/
def Vouched (site : Site) (run : List (Link × Move)) (r : Receipt) (l : Link) : Prop :=
  (l.peer.server.storage.catalog.Idle site.clientFd ∧
    ∀ request, r.asked = some request → request.type ≠ .openConnection →
      ∃ response, (r.read.toList ++ l.peer.inbox).getLast? = some response ∧
        Backs site run request response) ∨
    ∃ request, r = ⟨some request, none⟩ ∧ Owes site run request l

section Steps

variable {site : Site} {env : List Bool} {l l' : Link} {run : List (Link × Move)} {y : Link × Move}
  {r : Receipt} {request : Request} {response : Response}

theorem exists_mem_snoc {P : Link × Move → Prop} (h : ∃ x ∈ run, P x) : ∃ x ∈ run ++ [y], P x := by
  obtain ⟨x, hx, hp⟩ := h
  exact ⟨x, List.mem_append_left _ hx, hp⟩

theorem LastRead.snoc (h : LastRead response run) (hy : ∀ other, ¬Reads other y) :
    LastRead response (run ++ [y]) := by
  obtain ⟨before, x, rest, rfl, hx, hrest⟩ := h
  refine ⟨before, x, rest ++ [y], by simp, hx, fun z hz => ?_⟩
  rcases List.mem_append.mp hz with hz | hz
  · exact hrest z hz
  · rw [List.mem_singleton.mp hz]
    exact hy

/-- Where the client does not receive, it reads nothing. -/
theorem not_reads {a : Move} (hp : ∀ k, l.pending ≠ some (.ask .recvResponse k)) :
    ¬Reads response (l, a) := by
  rintro ⟨env, k, inbox, -, hpending, -⟩
  exact hp k hpending

theorem Backs.snoc (h : Backs site run request response) : Backs site (run ++ [y]) request response := by
  obtain ⟨reply, hserves, h⟩ := h
  refine ⟨reply, exists_mem_snoc hserves, h.imp_right ?_⟩
  rintro ⟨ht, hs, p, hp, hgrants⟩
  exact ⟨ht, hs, p, hp, exists_mem_snoc hgrants⟩

theorem Owes.snoc (h : Owes site run request l) (hinbox : l'.peer.inbox = [])
    (hwaits : ∀ p, l.peer.server.storage.catalog.AwaitsAt site.clientFd p →
      l'.peer.server.storage.catalog.AwaitsAt site.clientFd p) : Owes site (run ++ [y]) request l' := by
  obtain ⟨ht, ⟨reply, hs, hserves⟩, -, p, hp, hw⟩ := h
  exact ⟨ht, ⟨reply, hs, exists_mem_snoc hserves⟩, hinbox, p, hp, hwaits p hw⟩

/-- A step that leaves the peer as it is. -/
theorem Vouched.local (h : Vouched site run r l) (hp : l'.peer = l.peer) :
    Vouched site (run ++ [y]) r l' := by
  rcases h with ⟨hi, h⟩ | ⟨request, hr, h⟩
  · refine .inl ⟨by rwa [hp], fun request ha ht => ?_⟩
    obtain ⟨response, hlast, hb⟩ := h request ha ht
    exact ⟨response, by rwa [hp], hb.snoc⟩
  · exact .inr ⟨request, hr, h.snoc (by rw [hp]; exact h.2.2.1) fun p hw => by rwa [hp]⟩

/-- The client sends a request. -/
theorem vouched_sendRequest {k : Except Errno Unit → ClientM Int} {peer' : Peer}
    (hb : l.peer.server.storage.Bounded) (hp : l.pending = some (.ask (.sendRequest request) k))
    (hx : Expects (.ask (.sendRequest request) k) l.peer.inbox)
    (hi : l.peer.server.storage.catalog.Idle site.clientFd)
    (ha : l.Answered site env (.ask (.sendRequest request) k))
    (h : l.peer.serve site env request = some peer') :
    Vouched site (run ++ [(l, .advance env)]) ⟨some request, none⟩
      { l with pending := some (k (.ok ())), peer := peer' } := by
  obtain ⟨⟨hempty, hclose⟩, -⟩ := hx
  obtain ⟨ht, hd⟩ := ha
  obtain ⟨frames, hinbox, hset⟩ := Peer.serve_settles hb.sound ht hclose hd h
  rw [hempty, List.nil_append] at hinbox
  by_cases ho : request.type = .openConnection
  · rcases hset with ⟨-, hle⟩ | ⟨hlock, -⟩
    · exact .inl ⟨fun p => Nat.le_zero.mp (hi p ▸ hle p), fun request' ha ht' =>
        absurd ho (Option.some.inj ha ▸ ht')⟩
    · exact absurd (hlock.symm.trans ho) (by decide)
  obtain ⟨reply, w, hexec, hreply⟩ := Peer.serve_replies ht ho hclose hd h
  have hserves : ∃ x ∈ run ++ [(l, Move.advance env)], Serves site request reply x :=
    ⟨(l, .advance env), by simp, env, k, w, rfl, hp, hexec⟩
  rcases hset with ⟨hf, hle⟩ | ⟨hlock, rfl, q, hq, hwait⟩
  · have hne : peer'.inbox ≠ [] := by
      rw [hinbox]
      exact hf.ne_nil
    rcases hreply with ⟨-, hsame⟩ | ⟨response, hlast, hs, hbody⟩
    · exact absurd (hsame.trans hempty) hne
    · refine .inl ⟨fun p => Nat.le_zero.mp (hi p ▸ hle p), fun request' ha _ => ?_⟩
      obtain rfl := Option.some.inj ha
      exact ⟨response, hlast, reply, hserves, .inl ⟨hs, hbody⟩⟩
  · rcases hreply with ⟨hs, -⟩ | ⟨response, hlast, -⟩
    · refine .inr ⟨request, rfl, hlock, ⟨reply, hs, hserves⟩, hinbox, q, hq, fun p => ?_⟩
      rw [hwait p, hi p, Nat.zero_add]
    · rw [hinbox] at hlast
      cases hlast

/-- What a client knows of its call, with what it has not done yet of it. -/
structure Informed (site : Site) (call : ClientCall) (run : List (Link × Move)) (l : Link) (x : ClientM Int)
    (r : Receipt) : Prop where
  earns : (∀ N dirname, call ≠ .file (.readNFiles N dirname)) → Earns call.Requests x r
  vouched : Vouched site run r l
  reads : ∀ response, r.read = some response → LastRead response run

variable {call : ClientCall}

/-- A question that is not for the server. -/
theorem informed_local {q : Question} {k : q.Answer → ClientM Int} {x : q.Answer}
    (hg : ∀ r, receipts.gives q r x r) (hy : ∀ other, ¬Reads other y)
    (h : Informed site call run l (.ask q k) r) :
    Informed site call (run ++ [y]) { l with pending := some (k x) } (k x) r where
  earns ht := (h.earns ht).2 x r (hg r)
  vouched := h.vouched.local rfl
  reads response hr := (h.reads response hr).snoc hy

theorem informed_recvResponse {c : Client} {pending : Option (ClientM Int)} {server : Server}
    {inbox : List Response} {k : Except Errno Response → ClientM Int}
    (hp : pending = some (.ask .recvResponse k))
    (h : Informed site call run ⟨c, pending, server, response :: inbox⟩ (.ask .recvResponse k) r) :
    Informed site call (run ++ [(⟨c, pending, server, response :: inbox⟩, .advance env)])
      ⟨c, some (k (.ok response)), server, inbox⟩ (k (.ok response)) ⟨r.asked, some response⟩ where
  earns ht := (h.earns ht).2 _ _ rfl
  vouched := by
    rcases h.vouched with ⟨hi, hv⟩ | ⟨request, -, -, -, hempty, -⟩
    · refine .inl ⟨hi, fun request ha ht => ?_⟩
      obtain ⟨last, hlast, hb⟩ := hv request ha ht
      refine ⟨last, ?_, hb.snoc⟩
      rw [← hlast, List.getLast?_append_of_ne_nil _ (List.cons_ne_nil response inbox)]
      rfl
    · cases hempty
  reads other hr := by
    obtain rfl := Option.some.inj hr
    exact ⟨run, _, [], rfl, ⟨env, k, inbox, rfl, hp, rfl⟩, by simp⟩

theorem informed_advance {x : ClientM Int} (hb : l.peer.server.storage.Bounded) (hp : l.pending = some x)
    (ha : l.Answered site env x) (hl : l.Aligned site) (hf : Informed site call run l x r)
    (h : l.advance site env x = some l') (x' : ClientM Int) (hp' : l'.pending = some x') :
    ∃ r', Informed site call (run ++ [(l, .advance env)]) l' x' r' := by
  have hrest : l.rest = x := by rw [rest, hp, Option.getD_some]
  cases x with
  | ret result =>
    obtain rfl := Option.some.inj h
    cases hp'
  | crash => cases h
  | access f k =>
    obtain rfl := Option.some.inj h
    obtain rfl := Option.some.inj hp'
    exact ⟨r, fun ht => hf.earns ht l.client, hf.vouched.local rfl,
      fun response hr => (hf.reads response hr).snoc fun other => not_reads (by simp [hp])⟩
  | ask q k =>
    obtain ⟨⟨a, peer'⟩, hr, rfl⟩ := Option.map_eq_some_iff.mp h
    obtain rfl := Option.some.inj hp'
    cases q with
    | sendRequest request =>
      obtain ⟨peer1, hserve, heq⟩ := Option.map_eq_some_iff.mp hr
      obtain ⟨rfl, rfl⟩ := Prod.mk.inj heq
      rw [Aligned, hrest] at hl
      rcases hl with ⟨hx, hi⟩ | ⟨-, -, hx⟩
      · exact ⟨⟨some request, none⟩, fun ht => (hf.earns ht).2 _ _ rfl,
          vouched_sendRequest hb hp hx hi ha hserve, by simp⟩
      · exact absurd (hx ⟨.success, [], []⟩).1.1 (by simp)
    | recvResponse =>
      obtain ⟨c, pending, server, inbox⟩ := l
      cases inbox with
      | nil => cases hr
      | cons response inbox =>
        cases hr
        exact ⟨⟨r.asked, some response⟩, informed_recvResponse hp hf⟩
    | mkdirP dirname =>
      cases hr
      exact ⟨r, informed_local (fun r => rfl) (fun other => not_reads (by simp [hp])) hf⟩
    | alloc =>
      cases hr
      exact ⟨r, informed_local (fun r => rfl) (fun other => not_reads (by simp [hp])) hf⟩
    | readDisk p =>
      cases hr
      exact ⟨r, informed_local (fun r => rfl) (fun other => not_reads (by simp [hp])) hf⟩
    | note event =>
      cases hr
      exact ⟨r, informed_local (fun r => rfl) (fun other => not_reads (by simp [hp])) hf⟩
    | _ => cases hr

/-- The server runs a call of somebody else. -/
theorem informed_other {x : ClientM Int} {step : Step} {reply : Option Reply} {w : StorageWorld}
    (hb : l.peer.server.storage.Bounded) (ha : AnswersStep l.peer.server step)
    (hc : step.call.caller ≠ some site.clientFd) (he : l.peer.server.exec step = some (reply, w))
    (hf : Informed site call run l x r) :
    Informed site call (run ++ [(l, .other step)])
      { l with peer := ⟨.ofWorld w, l.peer.inbox ++ framesTo site.clientFd w.sent⟩ } x r where
  earns := hf.earns
  reads response hr := (hf.reads response hr).snoc fun other => by
    rintro ⟨env, k, inbox, hmove, -⟩
    cases hmove
  vouched := by
    obtain ⟨hidle, hawaits⟩ := Server.exec_other hb ha hc he
    rcases hf.vouched with ⟨hi, hv⟩ | ⟨request, hr, ho⟩
    · obtain ⟨hnone, hi'⟩ := hidle hi
      refine .inl ⟨hi', fun request ha ht => ?_⟩
      obtain ⟨response, hlast, hbacks⟩ := hv request ha ht
      exact ⟨response, by rwa [hnone, List.append_nil], hbacks.snoc⟩
    · obtain ⟨hlock, hserves, hempty, p, hp, hw⟩ := ho
      rcases hawaits p hw with ⟨hnone, hw'⟩ | ⟨hframe, hi', hmanager, hgrant⟩
      · refine .inr ⟨request, hr, hlock, ?_, by rw [hempty, hnone]; rfl, p, hp, hw'⟩
        obtain ⟨reply, hs, hserves⟩ := hserves
        exact ⟨reply, hs, exists_mem_snoc hserves⟩
      · refine .inl ⟨hi', fun request' ha _ => ?_⟩
        rw [hr] at ha
        obtain rfl := Option.some.inj ha
        obtain ⟨reply', hs, hserves⟩ := hserves
        refine ⟨(grantMessage site.clientFd p).2, ?_, reply', exists_mem_snoc hserves, .inr ?_⟩
        · rw [hr, hempty, hframe]
          rfl
        · exact ⟨hlock, hs, p, hp, (l, .other step), by simp, step, reply, w, rfl, hmanager, he, hgrant⟩

end Steps

/-- The moves of the call that the client has made last. -/
def LastCall (h : List (Link × Move)) (call : ClientCall) (run : List (Link × Move)) : Prop :=
  ∃ before started, h = before ++ (started, .call call) :: run ∧ ∀ x ∈ run, ∀ c, x.2 ≠ .call c

/-- The call has sent its request, the server has run it, and the client has read that it succeeded:
the reply was SUCCESS and has come with its body, or the client had to wait and the lock manager has
given it the lock. -/
def Granted (site : Site) (call : ClientCall) (run : List (Link × Move)) : Prop :=
  ∃ p fileData reply response, call.target = some p ∧
    (∃ x ∈ run, Serves site (call.request p fileData) reply x) ∧
    LastRead response run ∧ response.status = .success ∧
    (reply.status = .success ∧ response.body = reply.body ∨
      (call.request p fileData).type = .lockFile ∧ reply.status = .awaiting ∧
        ∃ q, (call.request p fileData).path.join = some q ∧ ∃ z ∈ run, Grants site q z)

section Runs

variable {site : Site} {l l' : Link} {h : List (Link × Move)}

theorem LastCall.snoc {call : ClientCall} {run : List (Link × Move)} {y : Link × Move}
    (hc : LastCall h call run) (hy : ∀ c, y.2 ≠ .call c) : LastCall (h ++ [y]) call (run ++ [y]) := by
  obtain ⟨before, started, rfl, hrun⟩ := hc
  refine ⟨before, started, by simp, fun x hx => ?_⟩
  rcases List.mem_append.mp hx with hx | hx
  · exact hrun x hx
  · rw [List.mem_singleton.mp hx]
    exact hy

theorem LastCall.unique {call call' : ClientCall} {run run' : List (Link × Move)}
    (hc : LastCall h call run) (hc' : LastCall h call' run') : call = call' ∧ run = run' := by
  -- what is between two different calls would be part of a run after a call
  have hsplit : ∀ {c c' : ClientCall} {t t' : Link} {a u u' : List (Link × Move)},
      (t, Move.call c) :: u = a ++ (t', .call c') :: u' → (∀ x ∈ u, ∀ d, x.2 ≠ .call d) →
      c = c' ∧ u = u' := by
    intro c c' t t' a u u' heq hu
    cases a with
    | nil =>
      obtain ⟨hhead, rfl⟩ := List.cons.inj heq
      obtain ⟨-, hmove⟩ := Prod.mk.inj hhead
      exact ⟨Move.call.inj hmove, rfl⟩
    | cons y a =>
      obtain ⟨-, rfl⟩ := List.cons.inj heq
      exact absurd rfl (hu (t', .call c') (by simp) c')
  obtain ⟨before, started, rfl, hrun⟩ := hc
  obtain ⟨before', started', heq, hrun'⟩ := hc'
  rcases List.append_eq_append_iff.mp heq with ⟨a, -, ha⟩ | ⟨a, -, ha⟩
  · exact hsplit ha hrun
  · obtain ⟨hcall, hrest⟩ := hsplit ha hrun'
    exact ⟨hcall.symm, hrest.symm⟩

/-- A call after which the client only goes on with it. -/
theorem exists_lastCall {before rest : List Move} {call : ClientCall}
    (hm : h.map Prod.snd = before ++ .call call :: rest) (hrest : ∀ c, .call c ∉ rest) :
    ∃ run, LastCall h call run := by
  obtain ⟨front, back, rfl, -, hback⟩ := List.map_eq_append_iff.mp hm
  obtain ⟨⟨started, move⟩, run, rfl, rfl, rfl⟩ := List.map_eq_cons_iff.mp hback
  exact ⟨run, front, started, rfl, fun x hx c hc => hrest c (hc ▸ List.mem_map_of_mem hx)⟩

/-- Between two calls the client waits for nothing. -/
theorem Aligned.idle (hl : l.Aligned site) (hn : l.pending = none) :
    l.peer.server.storage.catalog.Idle site.clientFd := by
  rcases hl with ⟨-, hi⟩ | ⟨-, -, hx⟩
  · exact hi
  · have hret := hx ⟨.success, [], []⟩
    rw [rest, hn] at hret
    exact absurd hret (by simp [Expects, Copes])

/-- In every state of a run the client knows what has become of its call so far. -/
theorem informed_of_reaches (hi : l.peer.server.Initial) (hn : l.pending = none)
    (hempty : l.peer.inbox = []) (hr : Reaches (move site) (Tallied site) l h l') :
    (l'.peer.server.storage.Bounded ∧ l'.Aligned site) ∧ ∀ x, l'.pending = some x →
      ∃ call run r, LastCall h call run ∧ Informed site call run l' x r := by
  refine hr.invariant (I := fun h l => (l.peer.server.storage.Bounded ∧ l.Aligned site) ∧
    ∀ x, l.pending = some x → ∃ call run r, LastCall h call run ∧ Informed site call run l x r)
    ⟨aligned_initial hi hn hempty, fun x hx => ?_⟩ ?_
  · rw [hn] at hx
    cases hx
  rintro h t a u ⟨⟨hb, hl⟩, hinf⟩ ha hs
  refine ⟨⟨move_bounded hb hs, aligned_move hb ha hl hs⟩, fun x' hx' => ?_⟩
  cases a with
  | call call =>
    rw [move] at hs
    split at hs
    · rename_i hnone
      obtain rfl := Option.some.inj hs
      obtain rfl := Option.some.inj hx'
      have hidle := hl.idle (Option.isNone_iff_eq_none.mp hnone)
      have hv : Vouched site [] ⟨none, none⟩ ⟨t.client, some call.program, t.peer⟩ := .inl ⟨hidle, by simp⟩
      exact ⟨call, [], _, ⟨h, t, rfl, by simp⟩, fun ht => earns_program call ht _, hv, by simp⟩
    · cases hs
  | advance env =>
    obtain ⟨x, hp, hadv⟩ := Option.bind_eq_some_iff.mp hs
    obtain ⟨call, run, r, hcall, hf⟩ := hinf x hp
    obtain ⟨r', hf'⟩ := informed_advance hb hp (ha x hp) hl hf hadv x' hx'
    exact ⟨call, _, r', hcall.snoc (by simp), hf'⟩
  | other step =>
    obtain ⟨⟨reply, w⟩, he, rfl⟩ := Option.map_eq_some_iff.mp hs
    obtain ⟨call, run, r, hcall, hf⟩ := hinf x' hx'
    exact ⟨call, _, r, hcall.snoc (by simp), informed_other hb ha.1 ha.2 he hf⟩

theorem granted_of_reaches (hi : l.peer.server.Initial) (hn : l.pending = none)
    (hempty : l.peer.inbox = []) (hr : Reaches (move site) (Tallied site) l h l')
    (hret : l'.pending = some (.ret 0)) : ∃ call run, LastCall h call run ∧
      ((∀ N dirname, call ≠ .file (.readNFiles N dirname)) → Granted site call run) := by
  obtain ⟨⟨hb, hl⟩, hinf⟩ := informed_of_reaches hi hn hempty hr
  obtain ⟨call, run, r, hcall, hf⟩ := hinf _ hret
  refine ⟨call, run, hcall, fun ht => ?_⟩
  obtain ⟨request, response, ⟨p, fileData, hp, rfl⟩, ha, hread, hs⟩ := hf.earns ht rfl
  have hleft : l'.peer.inbox = [] := by
    rcases hl with ⟨hx, -⟩ | ⟨he, -⟩
    · rw [rest, hret] at hx
      exact hx
    · exact he
  rcases hf.vouched with ⟨-, hv⟩ | ⟨request, hr, -⟩
  · obtain ⟨last, hlast, reply, hserves, hreply⟩ := hv _ ha (ClientCall.type_request_ne call)
    rw [hread, hleft] at hlast
    obtain rfl := Option.some.inj hlast
    refine ⟨p, fileData, reply, response, hp, hserves, hf.reads response hread, hs, ?_⟩
    exact hreply.imp_left fun h => ⟨h.1.symm.trans hs, h.2⟩
  · rw [hr] at hread
    cases hread

/-- All servers of a run are in order. -/
theorem bounded_of_mem (hi : l.peer.server.Initial) (hn : l.pending = none)
    (hempty : l.peer.inbox = []) (hr : Reaches (move site) (Tallied site) l h l') :
    l'.peer.server.storage.Bounded ∧ ∀ x ∈ h, x.1.peer.server.storage.Bounded := by
  refine hr.invariant (I := fun h l => l.peer.server.storage.Bounded ∧
    ∀ x ∈ h, x.1.peer.server.storage.Bounded) ⟨(@aligned_initial site l hi hn hempty).1, by simp⟩ ?_
  rintro h t a u ⟨hb, hall⟩ _ hs
  refine ⟨move_bounded hb hs, fun x hx => ?_⟩
  rcases List.mem_append.mp hx with hx | hx
  · exact hall x hx
  · rw [List.mem_singleton.mp hx]
    exact hb

/-- The state in which a call returns 0. -/
theorem pending_of_returned (hx : l.pending.bind returned = some 0) : l.pending = some (.ret 0) := by
  obtain ⟨x, hp, hx⟩ := Option.bind_eq_some_iff.mp hx
  cases x with
  | ret result =>
    obtain rfl := Option.some.inj hx
    exact hp
  | _ => cases hx

end Runs

/-- A call on a file that returns 0 has been granted: while it ran, the server has carried out its
request, and the client has read the answer to this very request. -/
theorem reaches_granted {site : Site} {l l' : Link} {h : List (Link × Move)}
    (hi : l.peer.server.Initial) (hn : l.pending = none) (hempty : l.peer.inbox = [])
    (hr : Reaches (move site) (Tallied site) l h l') (hret : l'.pending = some (.ret 0)) :
    ∃ call run, LastCall h call run ∧
      ((∀ N dirname, call ≠ .file (.readNFiles N dirname)) → Granted site call run) :=
  granted_of_reaches hi hn hempty hr hret

/-- A client gets the lock of a file for which it had to wait. -/
theorem reaches_granted_waited : ∃ l h l' call run, l.peer.server.Initial ∧
    Reaches (move site) (Tallied site) l h l' ∧
    h.map Prod.snd = [.other (.openFile 5 (slash 'a') 6), .other (.writeFile 5 (slash 'a') [1]),
      .call (.file (.lockFile (some (slash 'a')) (some (slash 'a'))))] ++
      List.replicate 12 (.advance []) ++ [.other (.closeFile 5 (slash 'a')),
      .other ⟨.lockManager, []⟩, .advance []] ∧
    LastCall h call run ∧ ((∀ N dirname, call ≠ .file (.readNFiles N dirname)) → Granted site call run) := by
  obtain ⟨s, hi, hs⟩ := Server.exists_start 100 4 (fun s : Server => (play (move site) (Tallied site)
    ⟨freshClient [], none, ⟨s, []⟩⟩ ([.other (.openFile 5 (slash 'a') 6),
      .other (.writeFile 5 (slash 'a') [1]),
      .call (.file (.lockFile (some (slash 'a')) (some (slash 'a'))))] ++
      List.replicate 12 (.advance []) ++ [.other (.closeFile 5 (slash 'a')),
      .other ⟨.lockManager, []⟩, .advance []])).any
    fun l : Link => decide (l.pending.bind returned = some 0)) (by decide) (by decide)
  obtain ⟨h, l', hr, ha, hl⟩ := exists_run _ _ _ _ _ hs
  have hret : l'.pending = some (.ret 0) := pending_of_returned (of_decide_eq_true hl)
  obtain ⟨call, run, hcall, hgranted⟩ := reaches_granted hi rfl rfl hr hret
  exact ⟨_, h, l', call, run, hi, hr, ha, hcall, hgranted⟩

/-- `readFile` returns with the contents that the file has had at a moment of the call. -/
theorem reaches_read {site : Site} {l l' : Link} {h run : List (Link × Move)}
    {pathname : Option Path} {p : Path}
    (hi : l.peer.server.Initial) (hn : l.pending = none) (hempty : l.peer.inbox = [])
    (hr : Reaches (move site) (Tallied site) l h l') (hret : l'.pending = some (.ret 0))
    (hcall : LastCall h (.file (.readFile pathname (some p))) run) (hp : 0 ∉ p) :
    ∃ response, LastRead response run ∧ ∃ x ∈ run,
      x.1.peer.server.storage.catalog.readReply p = some ⟨.success, response.body⟩ := by
  obtain ⟨call, run', hcall', hgranted⟩ := granted_of_reaches hi hn hempty hr hret
  obtain ⟨rfl, rfl⟩ := hcall.unique hcall'
  obtain ⟨q, fileData, reply, response, hq, ⟨x, hx, env, k, w, hmove, hpending, hexec⟩, hreads,
    -, hreply⟩ := hgranted (by simp)
  obtain rfl : p = q := Option.some.inj hq
  have hs : x.1.peer.server.storage.Sound := by
    refine ((bounded_of_mem hi hn hempty hr).2 x ?_).sound
    obtain ⟨before, started, rfl, -⟩ := hcall
    simp [hx]
  rcases hreply with ⟨hsuccess, hbody⟩ | ⟨hlock, -⟩
  · have hread := Server.exec_readFile hs rfl rfl (Request.path_stringBytes hp .readFile []) hexec hsuccess
    refine ⟨response, hreads, x, hx, ?_⟩
    obtain ⟨status, body⟩ := reply
    obtain rfl : status = .success := hsuccess
    rw [hread, hbody]
  · cases hlock

/-- A client reads a file that another one has written. -/
theorem reaches_read_written : ∃ l h l' run response, l.peer.server.Initial ∧
    Reaches (move site) (Tallied site) l h l' ∧
    h.map Prod.snd = [.other (.openFile 5 (slash 'a') 6), .other (.writeFile 5 (slash 'a') [1]),
      .other (.closeFile 5 (slash 'a')),
      .call (.file (.readFile (some (slash 'a')) (some (slash 'a'))))] ++
      List.replicate 14 (.advance []) ∧
    LastRead response run ∧ ∃ x ∈ run,
      x.1.peer.server.storage.catalog.readReply (slash 'a') = some ⟨.success, response.body⟩ := by
  obtain ⟨s, hi, hs⟩ := Server.exists_start 100 4 (fun s : Server => (play (move site) (Tallied site)
    ⟨freshClient [], none, ⟨s, []⟩⟩ ([.other (.openFile 5 (slash 'a') 6),
      .other (.writeFile 5 (slash 'a') [1]), .other (.closeFile 5 (slash 'a')),
      .call (.file (.readFile (some (slash 'a')) (some (slash 'a'))))] ++
      List.replicate 14 (.advance []))).any
    fun l : Link => decide (l.pending.bind returned = some 0)) (by decide) (by decide)
  obtain ⟨h, l', hr, ha, hl⟩ := exists_run _ _ _ _ _ hs
  obtain ⟨run, hcall⟩ := @exists_lastCall _ [.other (.openFile 5 (slash 'a') 6),
    .other (.writeFile 5 (slash 'a') [1]), .other (.closeFile 5 (slash 'a'))] _ _ ha (by simp)
  have hret : l'.pending = some (.ret 0) := pending_of_returned (of_decide_eq_true hl)
  obtain ⟨response, hread, x, hx, hreply⟩ := reaches_read hi rfl rfl hr hret hcall (by decide)
  exact ⟨_, h, l', run, response, hi, hr, ha, hread, x, hx, hreply⟩

end Link

end FileStorage
