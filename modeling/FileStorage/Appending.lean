import FileStorage.Conservation
import FileStorage.Contents
import FileStorage.Link
import FileStorage.Refusals

/-! `appendToFile` and `removeFile`, which lock the file by opening it when the client has not
opened it before. -/

namespace FileStorage

open Dialogue Machine Prog

theorem Storage.Sound.lookup_of_get {s : Storage} (hs : s.Sound) {p : Path} {i : FileId}
    (h : s.get p = some i) : s.lookup (some p) = some (some i) := by
  have hn : s.files.nBuckets ≠ 0 := by
    intro h0
    have he := hs.placed.get_eq_some_iff.mp h
    have hb : s.files.buckets = [] := List.length_eq_zero_iff.mp (hs.placed.slots.trans h0)
    rw [HashMap.entries, hb] at he
    cases he
  rw [lookup_eq_get hn, h]

/-! ### The handlers on a stored file -/

section Handlers

variable {ok : Bool → Prop} {fd : Nat} {p : Path} {i j : FileId} {req : Request} {w : StorageWorld}

theorem attains_storageGetFile {R : Option FileId → StorageWorld → Prop} (hs : w.state.Sound)
    (hg : w.state.get p = some i) (h : R (some i) (w.accessed (lookupAccesses (some p)) id)) :
    (storageGetFile (some p)).attains ok R w := by
  have hl := hs.lookup_of_get hg
  obtain ⟨hn, -⟩ := get_of_lookup hl
  rw [storageGetFile, attains_access, if_neg hn, attains_ret, hg]
  exact h

theorem attains_load {fs : List Field} {R : File → StorageWorld → Prop} :
    (load i fs).attains ok R w ↔
      R (w.state.heap i) (w.accessed (fun _ => fs.map (.readField i)) id) :=
  attains_read

theorem attains_store {fs : List Field} {g : File → File} {R : Unit → StorageWorld → Prop} :
    (store i fs g).attains ok R w ↔ R () (w.accessed (fun _ => fs.map (.writeField i))
      fun s => s.setFile i (g (s.heap i))) :=
  attains_modify

/-- The record `i` of the path `p`, changed to a record of the same path, is stored again. -/
theorem attains_storageUpdateFile {s : Storage} {f : File} (hs : s.Sound) (hg : s.get p = some i)
    (hp : f.path = p) (hw : w.state = s.setFile i f) :
    (storageUpdateFile i).attains ok (fun _ w' => w'.held = w.held ∧ w'.sent = w.sent) w := by
  have hpath : f.path = (s.heap i).path := hp.trans (hs.get_mem hg).2.symm
  have hsound : w.state.Sound := hw ▸ hs.setFile hpath
  have hf : (w.state.heap i).path = p := by rw [hw, Storage.setFile_heap_self, hp]
  have hget : w.state.get (w.state.heap i).path = some i := by
    rw [hf, hw]
    exact hg
  simp only [storageUpdateFile, filesInsert, bind_eq, pure_eq, attains_bind, attains_load]
  refine attains_storageGetFile hsound hget ?_
  simp only [attains_bind, attains_modify, attains_ret]
  exact ⟨rfl, rfl⟩

/-- The part of `OPEN_FILE` that locks the file unless the client has it. -/
theorem attains_openFileLock (hw : w.held = false) (hs : w.state.Sound)
    (hg : w.state.get p = some i) :
    (openFileLock fd (some p)).attains ok (fun r w' =>
      r = (if (w.state.heap i).Owned fd then some .unauthorized else none) ∧
        w'.held = false ∧ w'.sent = w.sent) w := by
  have hpath := (hs.get_mem hg).2
  simp only [openFileLock, bind_eq, pure_eq, attains_bind, attains_lockReturn]
  refine ⟨hw, attains_storageGetFile hs hg ?_⟩
  simp only [attains_bind, attains_load, attains_ite, attains_store, attains_unlockReturn,
    attains_ret]
  refine ⟨fun hc => ⟨(if_pos hc).symm, rfl, rfl⟩, fun hc => ?_⟩
  refine (attains_storageUpdateFile (f := (w.state.heap i).locked fd) hs hg hpath ?_).mono ?_
  · simp [Storage.setFile_setFile, File.locked]
  · rintro _ w' ⟨-, hsent⟩
    exact ⟨(if_neg hc).symm, rfl, hsent⟩

/-- `OPEN_FILE` with the flag `O_LOCK`. -/
theorem attains_open (hp : 0 ∉ p) (hw : w.held = false) (hs : w.state.Sound)
    (hg : w.state.get p = some i) :
    (handle fd ⟨.openFile, stringBytes p, intBytes 4⟩).attains ok (fun reply w' =>
      reply.status = (if (w.state.heap i).Owned fd then .unauthorized else .success) ∧
        w'.held = false ∧ w'.sent = w.sent ∧
        w'.state.catalog = w.state.catalog.put p ((w.state.heap i).opened fd)) w := by
  have hpath := Request.path_stringBytes hp .openFile (intBytes 4)
  have hflags : readInt (intBytes 4) = some 4 := by decide
  have hc : chkFlag (4 : Flags) oCreate = false := by decide
  have hl : chkFlag (4 : Flags) oLock = true := by decide
  have hn : chkFlag (4 : Flags) oNoflag = false := by decide
  simp only [handle, openFileHandler, openFileHandlerBy, requestPath, hpath, hflags, hc, hl, hn,
    openFilePart,
    Bool.false_eq_true, if_false, if_true, bind_eq, pure_eq, attains_bind, attains_ret]
  refine ((attains_openFileLock hw hs hg).and_returns (returns_openFileLock hs)).mono ?_
  rintro r w' ⟨⟨rfl, hheld, hsent⟩, hrelocked, -⟩
  have hcat := hrelocked.catalog.trans (Catalog.relabel_onPath_get hs.nodup (hs.catalog_get hg) _)
  by_cases hown : (w.state.heap i).Owned fd
  · rw [if_pos hown, if_pos hown]
    exact attains_ret.mpr ⟨rfl, hheld, hsent, hcat⟩
  · rw [if_neg hown, if_neg hown]
    exact attains_ret.mpr ⟨rfl, hheld, hsent, hcat⟩

theorem attains_readFileHandler (hw : w.held = false)
    (hs : w.state.Sound) (hp : req.path = some (some p)) (hg : w.state.get p = some i)
    (hb : (w.state.heap i).contents ≠ none) :
    (readFileHandler req).attains (fun b => b = true) (fun r w' =>
      r.1 = .success ∧ w'.held = false ∧ w'.sent = w.sent) w := by
  simp only [readFileHandler, requestPath, hp, bind_eq, pure_eq, attains_bind, attains_ret,
    attains_lockReturn]
  refine ⟨hw, attains_storageGetFile hs hg ?_⟩
  simp only [attains_bind, attains_load, attains_alloc, attains_ite]
  refine fun b hb' => ⟨fun _ => ?_, fun hn => absurd hb' hn⟩
  obtain ⟨c, hc⟩ := Option.ne_none_iff_exists'.mp hb
  have hcopy : copyBytes true (some c) (w.state.heap i).size =
      some (some (c.take (w.state.heap i).size)) := by
    unfold copyBytes
    split
    · rename_i h0
      rw [h0, List.take_zero]
      rfl
    · rfl
  simp only [World.accessed_state, World.locked_state, id, hc, hcopy, attains_bind,
    attains_unlockReturn, attains_ret]
  exact ⟨trivial, rfl, rfl⟩

theorem attains_appendToFileHandler (hw : w.held = false) (hs : w.state.Sound)
    (hp : req.path = some (some p)) (hg : w.state.get p = some i)
    (hb : req.body ≠ []) (hlen : req.body.length ≤ w.state.maxSize)
    (hown : (w.state.heap i).lockedBy = fd) :
    (appendToFileHandler fd req).attains (fun b => b = true) (fun status w' =>
      status = .success ∧ w'.held = false ∧ w'.sent = w.sent) w := by
  have hpath := (hs.get_mem hg).2
  simp only [appendToFileHandler, requestPath, hp, bind_eq, pure_eq, attains_bind, attains_ret,
    attains_lockReturn, attains_ite, attains_read, id]
  refine ⟨fun h => absurd h hb, fun _ => ⟨fun h => absurd hlen (Nat.not_le.mpr h), fun _ => ?_⟩⟩
  refine ⟨hw, attains_storageGetFile hs hg ?_⟩
  simp only [attains_bind, attains_load, attains_ite, attains_alloc, attains_store,
    attains_unlockReturn, attains_ret]
  refine ⟨fun h => absurd hown h, fun _ b hb' => ⟨fun _ => ?_, fun hn => absurd hb' hn⟩⟩
  refine (attains_storageUpdateFile (f := (w.state.heap i).appended req.body) hs hg hpath ?_).mono ?_
  · simp [Storage.setFile_setFile, File.appended]
  · rintro _ w' ⟨-, hsent⟩
    simp only [growBy, attains_modify]
    exact ⟨trivial, rfl, hsent⟩

theorem attains_filesRemove (hs : w.state.Sound) (hg : w.state.get p = some i)
    (hfree : (w.state.heap i).waitingOnLock ≠ none) :
    (filesRemove p).attains ok (fun _ w' => w'.held = w.held ∧ w'.sent = w.sent) w := by
  have hsome : ¬(w.state.heap i).waitingOnLock.isNone = true := by
    rwa [Option.isNone_iff_eq_none]
  simp only [filesRemove, freeFile, bind_eq, pure_eq, attains_bind]
  refine attains_storageGetFile hs hg ?_
  simp only [attains_bind, attains_load, attains_modify, attains_ite, attains_ret]
  exact ⟨fun h => absurd h hsome, fun _ => ⟨rfl, rfl⟩⟩

theorem attains_storageRemoveFile (hs : w.state.Sound) (hg : w.state.get p = some i)
    (hfree : p ∈ w.state.catalog.queue → (w.state.heap i).waitingOnLock ≠ none) :
    (storageRemoveFile p).attains ok (fun _ w' => w'.held = w.held ∧ w'.sent = w.sent) w := by
  have hcount : ((w.state.addFiles (-1)).shrink (w.state.heap i).size).Sound := hs.of_eq rfl rfl rfl
  simp only [storageRemoveFile, dropCount, shrinkBy, queueRemoveElement, bind_eq, attains_bind]
  refine attains_storageGetFile hs hg ?_
  simp only [attains_bind, attains_modify, attains_access, attains_ret, attains_ite]
  refine ⟨fun hq => ?_, fun _ => attains_ret.mpr ⟨rfl, rfl⟩⟩
  have hget : (((w.state.addFiles (-1)).shrink (w.state.heap i).size).unqueue p).get p = some i := by
    rw [Storage.get, Storage.unqueue_files]
    exact hg
  refine attains.mono (attains_filesRemove (hcount.unqueue p) hget ?_) fun _ w' h => h
  show ((((w.state.addFiles (-1)).shrink (w.state.heap i).size).unqueue p).heap i).waitingOnLock ≠ none
  rw [Storage.unqueue_heap]
  exact hfree (Storage.mem_queue.mpr hq)

theorem attains_removeFileHandler (hw : w.held = false) (hs : w.state.Sound)
    (hp : req.path = some (some p)) (hg : w.state.get p = some i) (hown : (w.state.heap i).Owned fd)
    (hfree : p ∈ w.state.catalog.queue → (w.state.heap i).waitingOnLock ≠ none) :
    (removeFileHandler fd req).attains ok (fun status w' =>
      status = .success ∧ w'.held = false ∧ w'.sent = w.sent) w := by
  simp only [removeFileHandler, requestPath, hp, bind_eq, pure_eq, attains_bind, attains_ret,
    attains_lockReturn]
  refine ⟨hw, attains_storageGetFile hs hg ?_⟩
  simp only [attains_bind, attains_load, attains_ite, attains_unlockReturn, attains_ret,
    Option.getD_some]
  refine ⟨fun h => ?_, fun _ => ?_⟩
  · rcases h with h | h
    · exact absurd (hown.1.symm.trans h) (by simp)
    · exact absurd hown.2 h
  · refine attains.mono (attains_storageRemoveFile (i := i) ?_ ?_ ?_) ?_
    · exact hs
    · exact hg
    · exact hfree
    rintro _ w' ⟨-, hsent⟩
    exact ⟨trivial, rfl, hsent⟩

theorem readOnly_respond (fd : Nat) (filePath : Bytes) (reply : Reply) :
    (respond fd filePath reply).readOnly :=
  (readOnly_sendResponse _ _ _ _).bind fun _ => trivial

/-- What `serve` does after the handler. -/
theorem attains_respond {filePath : Bytes} {reply : Reply} :
    (respond fd filePath reply).attains (fun b => b = true) (fun _ w' => w'.state = w.state ∧
      w'.held = w.held ∧ w'.sent = w.sent ++ [((fd : Int), ⟨reply.status, filePath, reply.body⟩)])
      w := by
  have hfd : ¬(fd : Int) < 0 := by omega
  simp only [respond, sendResponse, if_neg hfd, bind_eq, pure_eq, attains_bind, attains_sendMsg,
    attains_ret]
  rintro _ rfl
  exact ⟨rfl, rfl, rfl⟩

/-! What they leave alone when they return. -/

theorem returns_append_unowned (hs : w.state.Sound) (ht : req.type = .appendToFile)
    (hp : req.path = some (some p)) (hg : w.state.get p = some i) (hb : req.body ≠ [])
    (hlen : req.body.length ≤ w.state.maxSize) :
    (appendToFileHandler fd req).returns ok (fun _ w' => w.held = false ∧
      ((w.state.heap i).lockedBy ≠ fd → w'.state.catalog = w.state.catalog)) w := by
  have hfree : (appendToFileHandler fd req).returns ok (fun _ _ => w.held = false) w := by
    simp only [appendToFileHandler, requestPath, hp, bind_eq, pure_eq, returns_bind, returns_ret,
      returns_lockReturn, returns_ite, returns_read, id]
    refine ⟨fun h => absurd h hb, fun _ => ⟨fun h => absurd hlen (Nat.not_le.mpr h), fun _ hw => ?_⟩⟩
    exact returns_of_forall fun _ _ => returns_of_forall fun _ _ => hw
  refine (hfree.and (returns_appendToFileHandler hs ht)).mono ?_
  rintro status w' ⟨hw, hset⟩
  refine ⟨hw, fun hown => ?_⟩
  have hd : w.state.catalog.deed (.request fd req) = .other := by
    rw [Catalog.deed_append ht hp, Catalog.deedAppend, hs.catalog_get hg]
    exact if_pos (.inr (.inr hown))
  have hlock := hset.locking
  rw [Catalog.Locking, hd] at hlock
  rw [hlock]
  exact Catalog.relabel_id _ fun f _ => Catalog.relock_eq_self (by simp [ht]) _ f

theorem returns_filesRemove_waiting (hg : w.state.get p = some i) :
    (filesRemove p).returns ok (fun _ _ => (w.state.heap i).waitingOnLock ≠ none) w := by
  simp only [filesRemove, freeFile, bind_eq, pure_eq, returns_bind]
  refine returns_storageGetFile fun _ => ?_
  rw [Storage.find_some, hg]
  simp only [returns_bind, returns_load, returns_modify, returns_ite, returns_ret]
  refine ⟨fun _ => returns_crash, fun hsome hnone => hsome ?_⟩
  exact Option.isNone_iff_eq_none.mpr hnone

/-- A file that is removed has a list of clients that wait. -/
theorem returns_storageRemoveFile_waiting (hg : w.state.get p = some i) :
    (storageRemoveFile p).returns ok (fun _ _ => p ∈ w.state.catalog.queue →
      (w.state.heap i).waitingOnLock ≠ none) w := by
  simp only [storageRemoveFile, dropCount, shrinkBy, queueRemoveElement, bind_eq, pure_eq,
    returns_bind]
  refine returns_storageGetFile fun _ => ?_
  rw [Storage.find_some, hg]
  simp only [returns_bind, returns_modify, returns_access, returns_ret, returns_ite]
  refine ⟨fun _ => ?_, fun hq hmem => absurd (Storage.mem_queue.mp hmem) hq⟩
  have hget : (((w.state.addFiles (-1)).shrink (w.state.heap i).size).unqueue p).get p = some i := by
    rw [Storage.get, Storage.unqueue_files]
    exact hg
  refine returns.mono (returns_filesRemove_waiting hget) fun _ _ h _ => ?_
  change ((((w.state.addFiles (-1)).shrink (w.state.heap i).size).unqueue p).heap i).waitingOnLock ≠
    none at h
  rwa [Storage.unqueue_heap] at h

theorem returns_remove_gone (hs : w.state.Sound) (ht : req.type = .removeFile)
    (hp : req.path = some (some p)) (hg : w.state.get p = some i) :
    (removeFileHandler fd req).returns ok (fun _ w' => w.held = false ∧
      (w'.state.catalog.get p = none → (w.state.heap i).Owned fd ∧ p ∈ w.state.catalog.queue ∧
        (w.state.heap i).waitingOnLock ≠ none)) w := by
  have hget := hs.catalog_get hg
  have hfree : (removeFileHandler fd req).returns ok (fun _ _ => w.held = false ∧
      ((w.state.heap i).Owned fd → p ∈ w.state.catalog.queue →
        (w.state.heap i).waitingOnLock ≠ none)) w := by
    simp only [removeFileHandler, requestPath, hp, bind_eq, pure_eq, returns_bind, returns_ret,
      returns_lockReturn]
    refine fun hw => returns_storageGetFile fun _ => ?_
    rw [World.locked_state, Storage.find_some, hg]
    simp only [returns_bind, returns_load, returns_ite, returns_unlockReturn, returns_ret,
      Option.getD_some]
    refine ⟨fun hc => ⟨hw, fun hown => ?_⟩, fun _ => ?_⟩
    · rcases hc with hc | hc
      · exact absurd (hown.1.symm.trans hc) (by simp)
      · exact absurd hown.2 hc
    refine (returns_storageRemoveFile_waiting ?_).mono fun _ _ h => ⟨hw, fun _ => h⟩
    exact hg
  refine (hfree.and (returns_removeFileHandler hs ht)).mono ?_
  rintro status w' ⟨⟨hw, hwait⟩, hset⟩
  refine ⟨hw, fun hgone => ?_⟩
  have hd : w.state.catalog.deed (.request fd req) =
      if chkFlag (w.state.heap i).flags oLock = false ∨ (w.state.heap i).lockedBy ≠ fd then .other
      else .discard p (w.state.heap i) := by
    rw [Catalog.deed_remove ht hp, Catalog.deedRemove, hget]
  by_cases hc : chkFlag (w.state.heap i).flags oLock = false ∨ (w.state.heap i).lockedBy ≠ fd
  · rw [if_pos hc] at hd
    have hlock := hset.locking
    rw [Catalog.Locking, hd] at hlock
    have hsame := Catalog.relabel_id w.state.catalog (g := w.state.catalog.relock (.request fd req)
      (some ⟨status, []⟩)) fun f _ => Catalog.relock_eq_self (by simp [ht]) _ f
    rw [hlock, hsame, hget] at hgone
    cases hgone
  · rw [if_neg hc] at hd
    obtain ⟨hflag, hby⟩ := not_or.mp hc
    have hown : (w.state.heap i).Owned fd := ⟨by simpa using hflag, not_not.mp hby⟩
    have hq : p ∈ w.state.catalog.queue := by
      by_contra hq
      obtain ⟨-, ns, -, heff⟩ := hset.done
      rw [Effect, hd] at heff
      rw [heff.2.1, Catalog.discard, if_neg hq] at hgone
      change w.state.catalog.get p = none at hgone
      rw [hget] at hgone
      cases hgone
    exact ⟨hown, hq, hwait hown hq⟩

end Handlers

/-! ### Requests on a stored file -/

namespace Peer

variable {site : Site} {peer peer' : Peer} {p : Path} {f : File} {body : Bytes}

/-- The mutex is free, the storage is in order, and it has the file. -/
structure Holds (peer : Peer) (p : Path) (f : File) : Prop where
  free : peer.server.held = false
  bounded : peer.server.storage.Bounded
  get : peer.server.storage.catalog.get p = some f

theorem serve_of_attains (site : Site) (peer : Peer) (req : Request) (R : StorageWorld → Prop)
    (h : (FileStorage.serve site.dispatcher site.clientFd req).attains (fun b => b = true)
      (fun _ w => R w) peer.server.world) :
    ∃ w, peer.serve site [] req =
      some ⟨.ofWorld w, peer.inbox ++ framesTo site.clientFd w.sent⟩ ∧ R w := by
  obtain ⟨_, w, env', hrun, hR⟩ := h.run_nil
  exact ⟨w, by rw [serve, hrun], hR⟩

theorem framesTo_cons (fd : Nat) (r : Response) (sent : List (Int × Response)) :
    framesTo fd (((fd : Int), r) :: sent) = r :: framesTo fd sent := by
  simp [framesTo]

theorem serve_open (site : Site) (hp : 0 ∉ p) (h : peer.Holds p f) :
    ∃ server response, peer.serve site [] ⟨.openFile, stringBytes p, intBytes 4⟩ =
        some ⟨server, peer.inbox ++ [response]⟩ ∧
      response.status = (if f.Owned site.clientFd then .unauthorized else .success) ∧
      server.held = false ∧
      server.storage.catalog = peer.server.storage.catalog.put p (f.opened site.clientFd) := by
  obtain ⟨hfree, hb, hget⟩ := h
  obtain ⟨i, hg, rfl⟩ := hb.sound.get_of_catalog hget
  have hserve := serve_of_attains site peer ⟨.openFile, stringBytes p, intBytes 4⟩
    (fun w => ∃ response : Response,
      w.sent = [((site.clientFd : Int), response)] ∧
      response.status = (if (peer.server.storage.heap i).Owned site.clientFd then .unauthorized
        else .success) ∧ w.held = false ∧ w.state.catalog =
          peer.server.storage.catalog.put p ((peer.server.storage.heap i).opened site.clientFd)) ?_
  · obtain ⟨w, hw, response, hsent, hst, hheld, hcat⟩ := hserve
    refine ⟨.ofWorld w, response, ?_, hst, hheld, hcat⟩
    rw [hw, hsent, framesTo_cons]
    rfl
  · refine attains_bind.mpr ((attains_open hp hfree hb.sound hg).mono ?_)
    rintro reply w1 ⟨hst, hheld, hsent, hcat⟩
    refine attains_respond.mono ?_
    rintro _ w2 ⟨hst2, hheld2, hsent2⟩
    refine ⟨⟨reply.status, stringBytes p, reply.body⟩, ?_, hst, hheld2.trans hheld, ?_⟩
    · rw [hsent2, hsent]
      rfl
    · rw [hst2]
      exact hcat

/-- What an append makes of the storage, if it comes so far. -/
theorem serve_append (hp : 0 ∉ p) (h : peer.Holds p f) (hb : body ≠ [])
    (hlen : body.length ≤ peer.server.storage.maxSize) (hown : f.lockedBy = site.clientFd) :
    ∃ server response read, peer.serve site [] ⟨.appendToFile, stringBytes p, body⟩ =
        some ⟨server, peer.inbox ++ [response, read]⟩ ∧ response.status = .success ∧
      read.status = .success ∧ server.storage.catalog.get p = some (f.appended body) := by
  obtain ⟨hfree, hbounded, hget⟩ := h
  have hs := hbounded.sound
  obtain ⟨i, hg, rfl⟩ := hs.get_of_catalog hget
  have hpath := Request.path_stringBytes hp .appendToFile body
  have hserve := serve_of_attains site peer ⟨.appendToFile, stringBytes p, body⟩
    (fun w => ∃ response read : Response,
      w.sent = [((site.clientFd : Int), response), ((site.clientFd : Int), read)] ∧
      response.status = .success ∧ read.status = .success ∧
      w.state.catalog.get p = some ((peer.server.storage.heap i).appended body)) ?_
  · obtain ⟨w, hw, response, read, hsent, hst, hst', hcat⟩ := hserve
    refine ⟨.ofWorld w, response, read, ?_, hst, hst', hcat⟩
    rw [hw, hsent, framesTo_cons, framesTo_cons]
    rfl
  have hd : peer.server.world.state.catalog.deed
      (.request site.clientFd ⟨.appendToFile, stringBytes p, body⟩) =
        .append p (peer.server.storage.heap i) body := by
    rw [Catalog.deed_append rfl hpath, Catalog.deedAppend, show
      peer.server.world.state.catalog.get p = some (peer.server.storage.heap i) from hget]
    refine if_neg ?_
    rintro (h | h | h)
    · exact hb h
    · exact absurd hlen (Nat.not_le.mpr h)
    · exact h hown
  have hfirst : (handle site.clientFd ⟨.appendToFile, stringBytes p, body⟩).attains
      (fun b => b = true) (fun reply w' => reply.status = .success ∧ w'.held = false ∧
        w'.sent = []) peer.server.world :=
    attains_bind.mpr ((attains_appendToFileHandler (w := peer.server.world) hfree hs hpath hg hb
      hlen hown).mono fun status w' h => attains_ret.mpr h)
  refine attains_bind.mpr ((hfirst.and_returns (returns_handle hs)).mono ?_)
  rintro reply w1 ⟨⟨hst, hheld, hsent⟩, hset⟩
  obtain ⟨hs1, ns, -, heff⟩ := hset.done
  have hget1 : w1.state.catalog.get p = some ((peer.server.storage.heap i).appended body) := by
    have hput := Catalog.get_put hs.nodup hget (g := (peer.server.storage.heap i).appended body)
      (hs.get_mem hg).2 p
    rw [if_pos rfl] at hput
    rw [Effect, hd] at heff
    rcases heff.2 with ⟨hcat, -⟩ | ⟨hfail, -⟩
    · rw [hcat]
      exact hput
    · cases hfail
  -- the arm goes on with READ_FILE
  obtain ⟨j, hg1, hj⟩ := hs1.get_of_catalog hget1
  refine attains_bind.mpr (attains_respond.mono ?_)
  rintro _ w2 ⟨hst2, hheld2, hsent2⟩
  have hread := attains_readFileHandler (w := w2) (i := j) (hheld2.trans hheld) (hst2 ▸ hs1)
    (Request.path_stringBytes hp .readFile body) (hst2 ▸ hg1)
    (by rw [hst2, hj]; exact Option.some_ne_none _)
  refine attains_bind.mpr (attains_bind.mpr ?_)
  refine (hread.and_returns (readOnly_readFileHandler _).returns).mono ?_
  rintro ⟨status, buffer⟩ w3 ⟨⟨hst3, hheld3, hsent3⟩, hstate3⟩
  refine attains_ret.mpr (attains_respond.mono ?_)
  rintro _ w4 ⟨hst4, -, hsent4⟩
  refine ⟨⟨reply.status, stringBytes p, reply.body⟩, ⟨status, stringBytes p, buffer.getD []⟩, ?_,
    hst, hst3, ?_⟩
  · rw [hsent4, hsent3, hsent2, hsent]
    rfl
  · rw [hst4, hstate3, hst2]
    exact hget1

theorem serve_remove (hp : 0 ∉ p) (h : peer.Holds p f) (hown : f.Owned site.clientFd)
    (hq : p ∈ peer.server.storage.catalog.queue) (hwait : f.waitingOnLock ≠ none) :
    ∃ server response, peer.serve site [] ⟨.removeFile, stringBytes p, []⟩ =
        some ⟨server, peer.inbox ++ [response]⟩ ∧ response.status = .success ∧
      server.storage.catalog.get p = none := by
  obtain ⟨hfree, hbounded, hget⟩ := h
  have hs := hbounded.sound
  obtain ⟨i, hg, rfl⟩ := hs.get_of_catalog hget
  have hpath := Request.path_stringBytes hp .removeFile []
  have hserve := serve_of_attains site peer ⟨.removeFile, stringBytes p, []⟩
    (fun w => ∃ response : Response,
      w.sent = [((site.clientFd : Int), response)] ∧ response.status = .success ∧
      w.state.catalog.get p = none) ?_
  · obtain ⟨w, hw, response, hsent, hst, hcat⟩ := hserve
    refine ⟨.ofWorld w, response, ?_, hst, hcat⟩
    rw [hw, hsent, framesTo_cons]
    rfl
  have hd : peer.server.world.state.catalog.deed
      (.request site.clientFd ⟨.removeFile, stringBytes p, []⟩) =
        .discard p (peer.server.storage.heap i) := by
    rw [Catalog.deed_remove rfl hpath, Catalog.deedRemove, show
      peer.server.world.state.catalog.get p = some (peer.server.storage.heap i) from hget]
    refine if_neg ?_
    rintro (h | h)
    · exact absurd (hown.1.symm.trans h) (by simp)
    · exact h hown.2
  have hfirst : (handle site.clientFd ⟨.removeFile, stringBytes p, []⟩).attains
      (fun b => b = true) (fun reply w' => reply.status = .success ∧ w'.held = false ∧
        w'.sent = []) peer.server.world :=
    attains_bind.mpr ((attains_removeFileHandler (w := peer.server.world) hfree hs hpath hg hown
      fun _ => hwait).mono fun status w' h => attains_ret.mpr h)
  refine attains_bind.mpr ((hfirst.and_returns (returns_handle hs)).mono ?_)
  rintro reply w1 ⟨⟨hst, -, hsent⟩, hset⟩
  obtain ⟨-, ns, -, heff⟩ := hset.done
  rw [Effect, hd] at heff
  refine attains_respond.mono ?_
  rintro _ w2 ⟨hst2, -, hsent2⟩
  refine ⟨⟨reply.status, stringBytes p, reply.body⟩, ?_, hst, ?_⟩
  · rw [hsent2, hsent]
    rfl
  · rw [hst2, heff.2.1, Catalog.discard]
    have hmem : p ∈ peer.server.world.state.catalog.queue := hq
    rw [if_pos hmem]
    refine (Catalog.get_wipe ?_ p p).trans (if_pos rfl)
    exact hs.nodup

/-! What a request does not do. -/

/-- The request has been served to its end, or the storage is as it was. -/
theorem serve_cases {env : List Bool} {req : Request} {R : Unit → StorageWorld → Prop}
    (hR : (FileStorage.serve site.dispatcher site.clientFd req).returns (fun _ => True) R
      peer.server.world) (h : peer.serve site env req = some peer') :
    (∃ w, R () w ∧ peer'.server = .ofWorld w) ∨ peer'.server = peer.server := by
  unfold serve at h
  split at h
  · rename_i w env' hrun
    obtain rfl := Option.some.inj h
    exact .inl ⟨w, hR.of_run hrun, rfl⟩
  · obtain rfl := Option.some.inj h
    exact .inr rfl
  · cases h

theorem of_serve_append {env : List Bool} (hp : 0 ∉ p) (hbounded : peer.server.storage.Bounded)
    (hget : peer.server.storage.catalog.get p = some f) (hb : body ≠ [])
    (hlen : body.length ≤ peer.server.storage.maxSize)
    (hserve : peer.serve site env ⟨.appendToFile, stringBytes p, body⟩ = some peer')
    (hne : peer'.server.storage.catalog.get p ≠ some f) :
    peer.server.held = false ∧ f.lockedBy = site.clientFd := by
  have hs := hbounded.sound
  obtain ⟨i, hg, rfl⟩ := hs.get_of_catalog hget
  have hret : (FileStorage.serve site.dispatcher site.clientFd ⟨.appendToFile, stringBytes p, body⟩).returns
      (fun _ => True) (fun _ w' => peer.server.held = false ∧
        ((peer.server.storage.heap i).lockedBy ≠ site.clientFd →
          w'.state.catalog = peer.server.storage.catalog)) peer.server.world := by
    refine returns_bind.mpr (returns_bind.mpr ((returns_append_unowned (w := peer.server.world) hs
      rfl (Request.path_stringBytes hp _ _) hg hb hlen).mono ?_))
    rintro status w1 ⟨hfree, hcat⟩
    refine returns_ret.mpr ((readOnly.returns ?_).mono fun _ w2 h => ⟨hfree, fun hne => ?_⟩)
    · have hread : (handle site.clientFd ⟨.readFile, stringBytes p, body⟩).readOnly :=
        (readOnly_readFileHandler _).bind fun _ => trivial
      exact (readOnly_respond _ _ _).bind fun _ => hread.bind fun read => readOnly_respond _ _ read
    · rw [h]
      exact hcat hne
  have hsame : ∀ server : Server, peer'.server = server →
      server.storage.catalog ≠ peer.server.storage.catalog := by
    rintro _ rfl heq
    rw [heq] at hne
    exact hne hget
  rcases serve_cases hret hserve with ⟨w, ⟨hfree, hcat⟩, hw⟩ | hw
  · refine ⟨hfree, ?_⟩
    by_contra hown
    exact hsame _ hw (hcat hown)
  · exact absurd rfl (hsame _ hw)

theorem of_serve_remove {env : List Bool} (hp : 0 ∉ p) (hbounded : peer.server.storage.Bounded)
    (hget : peer.server.storage.catalog.get p = some f)
    (hserve : peer.serve site env ⟨.removeFile, stringBytes p, []⟩ = some peer')
    (hgone : peer'.server.storage.catalog.get p = none) :
    peer.server.held = false ∧ f.Owned site.clientFd ∧ p ∈ peer.server.storage.catalog.queue ∧
      f.waitingOnLock ≠ none := by
  have hs := hbounded.sound
  obtain ⟨i, hg, rfl⟩ := hs.get_of_catalog hget
  have hret : (FileStorage.serve site.dispatcher site.clientFd ⟨.removeFile, stringBytes p, []⟩).returns
      (fun _ => True) (fun _ w' => peer.server.held = false ∧ (w'.state.catalog.get p = none →
        (peer.server.storage.heap i).Owned site.clientFd ∧ p ∈ peer.server.storage.catalog.queue ∧
          (peer.server.storage.heap i).waitingOnLock ≠ none)) peer.server.world := by
    refine returns_bind.mpr (returns_bind.mpr ((returns_remove_gone (w := peer.server.world) hs rfl
      (Request.path_stringBytes hp _ _) hg).mono ?_))
    rintro status w1 ⟨hfree, hkept⟩
    refine returns_ret.mpr ((readOnly_respond _ _ _).returns.mono fun _ w2 h => ⟨hfree, ?_⟩)
    rw [h]
    exact hkept
  rcases serve_cases hret hserve with ⟨w, ⟨hfree, hkept⟩, hw⟩ | hw
  · rw [hw] at hgone
    exact ⟨hfree, hkept hgone⟩
  · rw [hw, hget] at hgone
    cases hgone

theorem serve_open_held {env : List Bool} (hp : 0 ∉ p) (hheld : peer.server.held = true) :
    peer.serve site env ⟨.openFile, stringBytes p, intBytes 4⟩ = some peer := by
  have hpath := Request.path_stringBytes hp .openFile (intBytes 4)
  have hflags : readInt (intBytes 4) = some 4 := by decide
  have hc : chkFlag (4 : Flags) oCreate = false := by decide
  have hl : chkFlag (4 : Flags) oLock = true := by decide
  have hrun : (FileStorage.serve site.dispatcher site.clientFd
      ⟨.openFile, stringBytes p, intBytes 4⟩).run env peer.server.world =
        (.blocked, peer.server.world, env) := by
    simp only [FileStorage.serve, handle, openFileHandler, openFileHandlerBy, requestPath, hpath,
      hflags, hc, hl,
      openFilePart, openFileLock, Bool.false_eq_true, if_false, if_true, bind_eq, pure_eq,
      Prog.bind_assoc, lockReturn, Prog.bind, run]
    exact if_pos hheld
  rw [serve, hrun]
  simp [Server.world, framesTo]

end Peer

/-! ### The calls -/

namespace Api

section Execute

variable {site : Site} {env : List Bool} {c c' : Client} {peer peer' : Peer} {r : Int} {p : Path}
  {l : List Path}

theorem execute_failWith {e : Errno} : (failWith e).execute (Peer.answer site env) c peer =
    some (-1, { c with errno := e }, peer) := rfl

theorem execute_exchange {request : Request} {k : Response → ClientM Int} :
    (exchange request k).execute (Peer.answer site env) c peer = some (r, c', peer') ↔
      ∃ server response inbox, peer.serve site env request = some ⟨server, response :: inbox⟩ ∧
        (k response).execute (Peer.answer site env) c ⟨server, inbox⟩ = some (r, c', peer') := by
  simp only [exchange, checked, sendRequest, recvResponse, execute_bind, execute_question]
  cases hserve : peer.serve site env request with
  | none => simp [Peer.answer, hserve]
  | some peer1 =>
    obtain ⟨server, inbox⟩ := peer1
    cases inbox with
    | nil => simp [Peer.answer, hserve]
    | cons response inbox =>
      simp only [Peer.answer, hserve, Option.map_some, Option.bind_some, Option.some.injEq,
        Peer.mk.injEq, List.cons.injEq]
      constructor
      · intro h
        exact ⟨server, response, inbox, ⟨rfl, rfl, rfl⟩, h⟩
      · rintro ⟨_, _, _, ⟨rfl, rfl, rfl⟩, h⟩
        exact h

theorem execute_switch {response : Response} {success : ClientM Int}
    {arms : List (ResponseCode × Errno)} :
    (switch response success arms).execute (Peer.answer site env) c peer = some (0, c', peer') ↔
      response.status = .success ∧
        success.execute (Peer.answer site env) c peer = some (0, c', peer') := by
  unfold switch
  split
  · rename_i h
    exact ⟨fun hs => ⟨h, hs⟩, And.right⟩
  · rename_i h
    simp [execute_failWith, h]

theorem execute_onFile {k : Path → ClientM Int} (hc : c.socketFd ≠ -1) :
    (onFile (some p) k).execute (Peer.answer site env) c peer =
      (k p).execute (Peer.answer site env) c peer := by
  simp [onFile, hc]

theorem execute_openFile {flags : Int} (hc : c.socketFd ≠ -1) (hl : c.openedFiles = .live l) :
    (openFile (some p) flags).execute (Peer.answer site []) c peer = some (0, c', peer') ↔
      ∃ response, peer.serve site [] ⟨.openFile, stringBytes p, intBytes flags⟩ =
          some ⟨peer'.server, response :: peer'.inbox⟩ ∧ response.status = .success ∧
        c' = { c with openedFiles := .live (l ++ [p]) } := by
  rw [openFile, execute_onFile hc, execute_exchange]
  simp only [execute_switch]
  constructor
  · rintro ⟨server, response, inbox, hserve, hst, h⟩
    simp only [malloc, insertOpened, setOpenedFiles, note, Peer.answer, execute_bind,
      execute_question, execute_get, execute_modify, execute_pure, hl, List.headD_nil,
      Option.map_some, Option.bind_some, if_true, Option.some.injEq, Prod.mk.injEq, true_and] at h
    obtain ⟨rfl, rfl⟩ := h
    exact ⟨response, hserve, hst, rfl⟩
  · rintro ⟨response, hserve, hst, rfl⟩
    refine ⟨peer'.server, response, peer'.inbox, hserve, hst, ?_⟩
    simp [malloc, insertOpened, setOpenedFiles, note, Peer.answer, hl]

theorem execute_listFind (hl : c.openedFiles = .live l) :
    (Realpath.listFind (some p)).execute (Peer.answer site env) c peer =
      some (decide (p ∈ l), if p ∈ l then c else { c with errno := .enoent }, peer) := by
  have hlist : openedList.execute (Peer.answer site env) c peer = some (l, c, peer) := by
    simp [openedList, hl]
  rw [Realpath.listFind, execute_bind, hlist, Option.bind_some]
  by_cases hp : p ∈ l
  · simp [hp]
  · simp [hp, setErrno]

/-- Going on with a file that is open or that has been opened. -/
theorem execute_ensureOpened {flags : Int} {k : Path → ClientM Int} (hc : c.socketFd ≠ -1)
    (hl : c.openedFiles = .live l) :
    (Realpath.ensureOpened (some p) flags k).execute (Peer.answer site []) c peer =
        some (0, c', peer') ↔
      p ∈ l ∧ (k p).execute (Peer.answer site []) c peer = some (0, c', peer') ∨
      p ∉ l ∧ ∃ server response inbox,
        peer.serve site [] ⟨.openFile, stringBytes p, intBytes flags⟩ =
          some ⟨server, response :: inbox⟩ ∧ response.status = .success ∧
        (k p).execute (Peer.answer site [])
            { c with errno := .enoent, openedFiles := .live (l ++ [p]) } ⟨server, inbox⟩ =
          some (0, c', peer') := by
  rw [Realpath.ensureOpened, execute_bind, execute_listFind hl, Option.bind_some]
  by_cases hp : p ∈ l
  · simp [hp, Realpath.strlen]
  · simp only [hp, decide_false, Bool.false_eq_true, if_false, false_and, not_false_eq_true, true_and,
      false_or]
    rw [execute_bind]
    constructor
    · intro h
      obtain ⟨⟨result, c1, peer1⟩, hopen, hrest⟩ := Option.bind_eq_some_iff.mp h
      by_cases hr : result = 0
      · subst hr
        obtain ⟨response, hserve, hst, rfl⟩ := (execute_openFile (by exact hc) (by exact hl)).mp hopen
        exact ⟨peer1.server, response, peer1.inbox, hserve, hst, by simpa [Realpath.strlen] using hrest⟩
      · simp [hr] at hrest
    · rintro ⟨server, response, inbox, hserve, hst, h⟩
      refine Option.bind_eq_some_iff.mpr ⟨(0, _, ⟨server, inbox⟩),
        (execute_openFile (by exact hc) (by exact hl)).mpr ⟨response, hserve, hst, rfl⟩, ?_⟩
      simpa [Realpath.strlen] using h

/-! What comes after the last request does not reach the server. -/

abbrev Listens {α : Type} (x : ClientM α) : Prop := x.Asks fun q => ∀ request, q ≠ .sendRequest request

theorem listens_question {q : Question} (h : ∀ request, q ≠ .sendRequest request) :
    Listens (question q : ClientM q.Answer) := ⟨h, fun _ => trivial⟩

theorem listens_recvResponse : Listens recvResponse := listens_question (by simp)

theorem listens_switch {response : Response} {arms : List (ResponseCode × Errno)} :
    Listens (switch response (return 0) arms) :=
  Asks.ite (x := (return 0 : ClientM Int)) trivial fun _ => trivial

theorem listens_of_isLocal {α : Type} {x : ClientM α} (hx : x.Asks Question.isLocal) : Listens x := by
  refine hx.mono ?_
  rintro q hq request rfl
  exact hq

theorem listens_recvExpelled (dirname : Option Path) (n : Nat) :
    Listens (Realpath.recvExpelled dirname n) := by
  induction n with
  | zero => trivial
  | succ n ih =>
    refine listens_recvResponse.bind fun x => ?_
    cases x with
    | error e => exact fun _ => trivial
    | ok file =>
      refine (listens_of_isLocal (Realpath.asks_writeFileInDirectory dirname)).bind fun _ => ?_
      exact (listens_of_isLocal (Realpath.asks_removeReceived file)).bind fun _ => ih

theorem listens_filesExpelled (response : Response) (dirname : Option Path)
    (arms : List (ResponseCode × Errno)) :
    Listens (Realpath.filesExpelled response dirname arms) := by
  have hfinal : Listens (Realpath.recvFinal arms) := by
    refine listens_recvResponse.bind fun x => ?_
    cases x with
    | error e => trivial
    | ok final => exact listens_switch
  refine (listens_of_isLocal (Realpath.asks_makeDirectory dirname)).bind fun made => Asks.ite ?_ trivial
  refine (listens_of_isLocal (Realpath.asks_howMany _)).bind fun n => ?_
  exact (listens_recvExpelled dirname _).bind fun _ => hfinal

theorem Listens.server {α : Type} {x : ClientM α} {a : α} (hx : Listens x)
    (h : x.execute (Peer.answer site env) c peer = some (a, c', peer')) :
    peer'.server = peer.server := by
  refine hx.execute (I := fun u => u.server = peer.server) ?_ rfl h
  intro q u a u' hq hu ha
  cases q with
  | sendRequest request => exact absurd rfl (hq request)
  | recvResponse =>
    obtain ⟨server, inbox⟩ := u
    cases inbox with
    | nil => cases ha
    | cons response inbox =>
      obtain ⟨rfl, rfl⟩ := by simpa [Peer.answer] using ha
      exact hu
  | alloc | readDisk p | mkdirP d | note e =>
    obtain ⟨-, rfl⟩ := by simpa [Peer.answer] using ha
    exact hu
  | socket | connect | nanosleep | clockGettime | indeterminate => cases ha

/-- What `appendToFile` does with a file that is open. -/
def appendRequest (buf : Bytes) (dirname : Option Path) (p : Path) : ClientM Int :=
  exchange ⟨.appendToFile, stringBytes p, buf⟩ fun response =>
    if response.status = .filesExpelled then
      Realpath.filesExpelled response dirname [(.internalError, .econnaborted)]
    else switch response (return 0) (commonArms ++ [(.missingBody, .einval)])

/-- What `removeFile` does with a file that is open. -/
def removeRequest (p : Path) : ClientM Int :=
  exchange ⟨.removeFile, stringBytes p, []⟩ fun response =>
    switch response (do
      removeOpened (some p)
      note (.removed p)
      return 0) (commonArms ++ [(.badRequest, .ebadmsg)])

theorem execute_appendToFile {buf : Bytes} {dirname : Option Path} (hc : c.socketFd ≠ -1) :
    (appendToFile (some p) (some buf) dirname).execute (Peer.answer site env) c peer =
      (Realpath.ensureOpened (some p) 4 (appendRequest buf dirname)).execute (Peer.answer site env)
        c peer := by
  have heq : appendToFile (some p) (some buf) dirname =
      onFile (some p) fun _ => Realpath.ensureOpened (some p) 4 (appendRequest buf dirname) := rfl
  rw [heq, execute_onFile hc]

theorem execute_removeFile (hc : c.socketFd ≠ -1) :
    (removeFile (some p)).execute (Peer.answer site env) c peer =
      (Realpath.ensureOpened (some p) 4 removeRequest).execute (Peer.answer site env) c peer := by
  have heq : removeFile (some p) =
      onFile (some p) fun _ => Realpath.ensureOpened (some p) 4 removeRequest := rfl
  rw [heq, execute_onFile hc]

theorem execute_appendRequest {buf : Bytes} {dirname : Option Path}
    (h : (appendRequest buf dirname p).execute (Peer.answer site []) c peer = some (0, c', peer')) :
    ∃ response inbox, peer.serve site [] ⟨.appendToFile, stringBytes p, buf⟩ =
        some ⟨peer'.server, response :: inbox⟩ ∧
      (response.status = .filesExpelled ∨ response.status = .success) := by
  obtain ⟨server, response, inbox, hserve, h⟩ := execute_exchange.mp h
  have hlisten : Listens (if response.status = .filesExpelled then
      Realpath.filesExpelled response dirname [(.internalError, .econnaborted)]
      else switch response (return 0) (commonArms ++ [(.missingBody, .einval)])) :=
    Asks.ite (listens_filesExpelled _ _ _) listens_switch
  have hserver : peer'.server = server := hlisten.server h
  refine ⟨response, inbox, by rw [hserver]; exact hserve, ?_⟩
  split at h
  · exact .inl ‹_›
  · exact .inr (execute_switch.mp h).1

theorem execute_appendRequest_of_success {buf : Bytes} {dirname : Option Path} {server : Server}
    {response : Response} {inbox : List Response}
    (hserve : peer.serve site [] ⟨.appendToFile, stringBytes p, buf⟩ =
      some ⟨server, response :: inbox⟩) (hst : response.status = .success) :
    (appendRequest buf dirname p).execute (Peer.answer site []) c peer =
      some (0, c, ⟨server, inbox⟩) := by
  have hne : ¬response.status = .filesExpelled := by simp [hst]
  refine execute_exchange.mpr ⟨server, response, inbox, hserve, ?_⟩
  rw [if_neg hne]
  exact execute_switch.mpr ⟨hst, rfl⟩

theorem execute_removeRequest (hl : c.openedFiles = .live l) :
    (∃ c', (removeRequest p).execute (Peer.answer site []) c peer = some (0, c', peer')) ↔
      ∃ response, peer.serve site [] ⟨.removeFile, stringBytes p, []⟩ =
        some ⟨peer'.server, response :: peer'.inbox⟩ ∧ response.status = .success := by
  have hremoved : ∀ peer, ∃ c', ((do
      removeOpened (some p)
      note (.removed p)
      return 0) : ClientM Int).execute (Peer.answer site []) c peer = some (0, c', peer) := by
    intro peer
    by_cases hp : p ∈ l
    · simp [removeOpened, openedList, hl, hp, setOpenedFiles, note, Peer.answer]
    · simp [removeOpened, openedList, hl, hp, setErrno, note, Peer.answer]
  rw [removeRequest]
  simp only [execute_exchange, execute_switch]
  constructor
  · rintro ⟨c', server, response, inbox, hserve, hst, h⟩
    obtain ⟨c1, h1⟩ := hremoved ⟨server, inbox⟩
    obtain ⟨-, rfl⟩ := Prod.mk.inj (Prod.mk.inj (Option.some.inj (h.symm.trans h1))).2
    exact ⟨response, hserve, hst⟩
  · rintro ⟨response, hserve, hst⟩
    obtain ⟨c', h⟩ := hremoved peer'
    exact ⟨c', peer'.server, response, peer'.inbox, hserve, hst, h⟩

end Execute

end Api

theorem File.contents_appended_iff {f : File} {buf : Bytes} (hb : buf ≠ [])
    (hsum : f.size + buf.length < sizeBound) :
    (f.appended buf).contents = some (f.contents.getD [] ++ buf) ↔
      (f.contents.getD []).length = f.size := by
  have hpos : 0 < buf.length := List.length_pos_iff.mpr hb
  have happended : (f.appended buf).contents = some (overwrite (reallocBytes
      (some (f.contents.getD [])) (f.size + buf.length)) f.size buf) := by
    rw [File.appended, sizeAdd_of_lt hsum]
    rfl
  rw [happended, Option.some.injEq]
  constructor
  · intro h
    have hlen := congrArg List.length h
    rw [length_overwrite, length_reallocBytes, List.length_append] at hlen
    · omega
    · rw [length_reallocBytes]
  · intro h
    rw [← h]
    exact overwrite_reallocBytes _ _

/-- The two tests for the owner of a lock agree. -/
theorem File.Coherent.owned_iff {f : File} (hf : f.Coherent) {fd : Nat} :
    f.Owned fd ↔ f.lockedBy = fd := by
  refine ⟨And.right, fun h => ⟨hf.flag.mpr ?_, h⟩⟩
  rw [h]
  omega

/-! ### The requests of the calls -/

/-- The first element of a list that ends with some that are known to be good. -/
theorem head_concat_iff {α : Type} {P : α → Prop} {l fresh rest : List α} {x : α}
    (h : l ++ fresh = x :: rest) (hfresh : ∀ y ∈ fresh, P y) : P x ↔ ∀ y ∈ l.take 1, P y := by
  cases l with
  | nil =>
    obtain rfl : fresh = x :: rest := h
    exact iff_of_true (hfresh x List.mem_cons_self) (by simp)
  | cons y l =>
    obtain ⟨rfl, -⟩ := List.cons.inj h
    simp

theorem forall_mem_take_concat {α : Type} {P : α → Prop} {l : List α} {x : α} {n : Nat} :
    (∀ y ∈ (l ++ [x]).take n, P y) ↔ (∀ y ∈ l.take n, P y) ∧ (l.length < n → P x) := by
  rw [List.take_append, List.forall_mem_append]
  refine and_congr_right fun _ => ?_
  by_cases hn : l.length < n
  · have htake : [x].take (n - l.length) = [x] := List.take_of_length_le (by simp; omega)
    simp [htake, hn]
  · have hzero : n - l.length = 0 := by omega
    simp [hzero, hn]

namespace Peer

variable {site : Site} {peer : Peer} {p : Path} {f : File} {buf : Bytes} {dirname : Option Path}
  {c : Client} {l : List Path}

theorem appendRequest_iff (site : Site) (c : Client) (dirname : Option Path) (hp : 0 ∉ p)
    (hbounded : peer.server.storage.Bounded)
    (hget : peer.server.storage.catalog.get p = some f) (hb : buf ≠ [])
    (hlen : buf.length ≤ peer.server.storage.maxSize) (hsum : f.size + buf.length < sizeBound)
    (hexp : ∀ r ∈ peer.inbox.take 1, r.status ≠ .filesExpelled) :
    (∃ c' peer' g, (Api.appendRequest buf dirname p).execute (answer site []) c peer =
        some (0, c', peer') ∧ peer'.server.storage.catalog.get p = some g ∧
      g.contents = some (f.contents.getD [] ++ buf)) ↔
      peer.server.held = false ∧ f.lockedBy = site.clientFd ∧
        (f.contents.getD []).length = f.size ∧ ∀ r ∈ peer.inbox.take 1, r.status = .success := by
  have hserve : peer.server.held = false → f.lockedBy = site.clientFd → _ := fun hfree hown =>
    serve_append hp ⟨hfree, hbounded, hget⟩ hb hlen hown
  constructor
  · rintro ⟨c', peer', g, hexec, hg, hcon⟩
    obtain ⟨response, inbox, hrun, hst⟩ := Api.execute_appendRequest hexec
    have hne : peer'.server.storage.catalog.get p ≠ some f := by
      rw [hg]
      rintro ⟨rfl⟩
      have hlength := congrArg List.length (congrArg (Option.getD · []) hcon)
      simp [hb] at hlength
    obtain ⟨hfree, hown⟩ := of_serve_append hp hbounded hget hb hlen hrun hne
    obtain ⟨server, r1, r2, hrun', h1, h2, hget'⟩ := hserve hfree hown
    obtain ⟨hserver, hinbox⟩ := Peer.mk.inj (Option.some.inj (hrun'.symm.trans hrun))
    rw [← hserver, hget'] at hg
    obtain rfl := Option.some.inj hg
    refine ⟨hfree, hown, (File.contents_appended_iff hb hsum).mp hcon, ?_⟩
    have hok : ∀ r ∈ [r1, r2], r.status = .success := by simp [h1, h2]
    rw [← head_concat_iff hinbox hok]
    refine hst.resolve_left ?_
    refine (head_concat_iff (P := fun r => r.status ≠ .filesExpelled) hinbox fun r hr => ?_).mpr hexp
    simp [hok r hr]
  · rintro ⟨hfree, hown, hsize, hstale⟩
    obtain ⟨server, r1, r2, hrun, h1, h2, hget'⟩ := hserve hfree hown
    obtain ⟨response, inbox, hinbox⟩ := List.exists_cons_of_ne_nil
      (List.append_ne_nil_of_right_ne_nil peer.inbox (List.cons_ne_nil r1 [r2]))
    have hst := (head_concat_iff hinbox (by simp [h1, h2])).mpr hstale
    rw [hinbox] at hrun
    exact ⟨c, ⟨server, inbox⟩, _, Api.execute_appendRequest_of_success hrun hst, hget',
      (File.contents_appended_iff hb hsum).mpr hsize⟩

theorem removeRequest_iff (site : Site) (hp : 0 ∉ p) (hbounded : peer.server.storage.Bounded)
    (hget : peer.server.storage.catalog.get p = some f) (hl : c.openedFiles = .live l) :
    (∃ c' peer', (Api.removeRequest p).execute (answer site []) c peer = some (0, c', peer') ∧
      peer'.server.storage.catalog.get p = none) ↔
      peer.server.held = false ∧ f.Owned site.clientFd ∧
        p ∈ peer.server.storage.catalog.queue ∧ f.waitingOnLock ≠ none ∧
        ∀ r ∈ peer.inbox.take 1, r.status = .success := by
  constructor
  · rintro ⟨c', peer', hexec, hgone⟩
    obtain ⟨response, hrun, hst⟩ := (Api.execute_removeRequest hl).mp ⟨c', hexec⟩
    obtain ⟨hfree, hown, hq, hwait⟩ := of_serve_remove hp hbounded hget hrun hgone
    obtain ⟨server, r1, hrun', h1, -⟩ :=
      serve_remove hp ⟨hfree, hbounded, hget⟩ hown hq hwait
    obtain ⟨-, hinbox⟩ := Peer.mk.inj (Option.some.inj (hrun'.symm.trans hrun))
    exact ⟨hfree, hown, hq, hwait, (head_concat_iff hinbox (by simp [h1])).mp hst⟩
  · rintro ⟨hfree, hown, hq, hwait, hstale⟩
    obtain ⟨server, r1, hrun, h1, hgone⟩ :=
      serve_remove hp ⟨hfree, hbounded, hget⟩ hown hq hwait
    obtain ⟨response, inbox, hinbox⟩ := List.exists_cons_of_ne_nil
      (List.append_ne_nil_of_right_ne_nil peer.inbox (List.cons_ne_nil r1 []))
    have hst := (head_concat_iff hinbox (by simp [h1])).mpr hstale
    rw [hinbox] at hrun
    obtain ⟨c', hexec⟩ : ∃ c', (Api.removeRequest p).execute (answer site []) c peer =
        some (0, c', ⟨server, inbox⟩) :=
      (Api.execute_removeRequest hl).mpr ⟨response, hrun, hst⟩
    exact ⟨c', _, hexec, hgone⟩

end Peer

/-! ### The calls on any connection -/

namespace Link

/-- The responses that a call on `p` takes for its own. -/
def stale (l : Link) (opened : List Path) (p : Path) : List Response :=
  l.peer.inbox.take (if p ∈ opened then 1 else 2)

/-- These report success, and the client has the lock when it has opened the file. The owner of
a file may not open it again. -/
structure Ready (site : Site) (l : Link) (opened : List Path) (p : Path) (f : File) : Prop where
  free : l.peer.server.held = false
  stale : ∀ r ∈ l.stale opened p, r.status = .success
  owner : p ∈ opened → f.lockedBy = site.clientFd
  reopen : p ∉ opened → l.peer.inbox.length < 2 → f.lockedBy ≠ site.clientFd

/-- `appendToFile` returns 0, and the file has its old contents followed by `buf`. -/
def Appends (site : Site) (l : Link) (p : Path) (f : File) (buf : Bytes) (dirname : Option Path) :
    Prop :=
  ∃ c peer g, (Api.appendToFile (some p) (some buf) dirname).execute (Peer.answer site []) l.client
      l.peer = some (0, c, peer) ∧
    peer.server.storage.catalog.get p = some g ∧ g.contents = some (f.contents.getD [] ++ buf)

/-- `removeFile` returns 0, and the file is gone. -/
def Removes (site : Site) (l : Link) (p : Path) : Prop :=
  ∃ c peer, (Api.removeFile (some p)).execute (Peer.answer site []) l.client l.peer =
      some (0, c, peer) ∧ peer.server.storage.catalog.get p = none

section

variable {site : Site} {l : Link} {opened : List Path} {p : Path} {f : File}

/-- A peer that differs from that of the link by the opening of `p` at most. -/
structure Follows (site : Site) (l : Link) (opened : List Path) (p : Path) (f f' : File)
    (peer : Peer) : Prop where
  bounded : peer.server.storage.Bounded
  catalog : f' = f ∧ peer.server.storage.catalog = l.peer.server.storage.catalog ∨
    f' = f.opened site.clientFd ∧
      peer.server.storage.catalog = l.peer.server.storage.catalog.put p (f.opened site.clientFd)
  inbox : (∀ r ∈ l.stale opened p, r.status ≠ .filesExpelled) →
    ∀ r ∈ peer.inbox.take 1, r.status ≠ .filesExpelled

/-- A call that makes its request of a file that is open, or opens it before. -/
theorem ensureOpened_iff {S : Peer → Prop} {k : Path → ClientM Int} {extra : Prop} (hp : 0 ∉ p)
    (hc : l.client.socketFd ≠ -1) (hl : l.client.openedFiles = .live opened)
    (hbounded : l.peer.server.storage.Bounded)
    (hf : l.peer.server.storage.catalog.get p = some f)
    (hk : ∀ c peer f' opened', c.openedFiles = .live opened' → l.Follows site opened p f f' peer →
      ((∃ c' peer', (k p).execute (Peer.answer site []) c peer = some (0, c', peer') ∧ S peer') ↔
        peer.server.held = false ∧ f'.lockedBy = site.clientFd ∧ extra ∧
          ∀ r ∈ peer.inbox.take 1, r.status = .success)) :
    (∃ c' peer', (Realpath.ensureOpened (some p) 4 k).execute (Peer.answer site []) l.client l.peer =
      some (0, c', peer') ∧ S peer') ↔ l.Ready site opened p f ∧ extra := by
  simp only [Api.execute_ensureOpened hc hl]
  by_cases hopen : p ∈ opened
  · simp only [hopen, not_true_eq_false, true_and, false_and, or_false]
    have hstales : l.stale opened p = l.peer.inbox.take 1 := by rw [stale, if_pos hopen]
    rw [hk l.client l.peer f opened hl ⟨hbounded, .inl ⟨rfl, rfl⟩, by rw [hstales]; exact id⟩]
    constructor
    · rintro ⟨hfree, hown, hextra, hstale⟩
      exact ⟨⟨hfree, by rwa [hstales], fun _ => hown, fun h => absurd hopen h⟩, hextra⟩
    · rintro ⟨⟨hfree, hstale, hown, -⟩, hextra⟩
      rw [hstales] at hstale
      exact ⟨hfree, hown hopen, hextra, hstale⟩
  have hstales : l.stale opened p = l.peer.inbox.take 2 := by rw [stale, if_neg hopen]
  simp only [hopen, not_false_eq_true, true_and, false_and, false_or]
  by_cases hheld : l.peer.server.held = true
  · -- nothing is served any more
    refine iff_of_false ?_ fun h => absurd (hheld.symm.trans h.1.free) (by simp)
    rintro ⟨c', peer', ⟨server, response, inbox, hserve, -, hexec⟩, hS⟩
    rw [Peer.serve_open_held hp hheld, Option.some.injEq] at hserve
    have hserver : l.peer.server = server := by rw [hserve]
    have hfollows : l.Follows site opened p f f ⟨server, inbox⟩ := by
      refine ⟨hserver ▸ hbounded, .inl ⟨rfl, by rw [hserver]⟩, fun h r hr => h r ?_⟩
      rw [hstales, hserve, List.take_succ_cons]
      exact List.mem_cons_of_mem _ hr
    have hfree := ((hk _ _ f _ rfl hfollows).mp ⟨c', peer', hexec, hS⟩).1
    rw [hserve] at hheld
    exact absurd (hheld.symm.trans hfree) (by simp)
  · have hfree : l.peer.server.held = false := Bool.eq_false_iff.mpr hheld
    obtain ⟨server, fresh, hserve, hst, hfree', hcat⟩ :=
      Peer.serve_open site hp ⟨hfree, hbounded, hf⟩
    obtain ⟨response, inbox, hinbox⟩ := List.exists_cons_of_ne_nil
      (List.append_ne_nil_of_right_ne_nil l.peer.inbox (List.cons_ne_nil fresh []))
    have hfollows : l.Follows site opened p f (f.opened site.clientFd) ⟨server, inbox⟩ := by
      have hafter := Peer.serve_bounded hbounded hserve
      refine ⟨hafter, .inr ⟨rfl, hcat⟩, fun h r hr => ?_⟩
      rw [hstales] at h
      refine (forall_mem_take_concat (x := fresh)).mpr ⟨h, fun _ => ?_⟩ r ?_
      · rw [hst]
        split <;> simp
      · rw [hinbox, List.take_succ_cons]
        exact List.mem_cons_of_mem _ hr
    have hfresh : fresh.status = .success ↔ f.lockedBy ≠ site.clientFd := by
      have hown : f.Owned site.clientFd ↔ f.lockedBy = site.clientFd :=
        (hbounded.coherent f (Catalog.get_eq_some hf).1).owned_iff
      rw [hst, Ne, ← not_congr hown]
      by_cases h : f.Owned site.clientFd <;> simp [h]
    have htaken : (response.status = .success ∧ ∀ r ∈ inbox.take 1, r.status = .success) ↔
        (∀ r ∈ l.peer.inbox.take 2, r.status = .success) ∧
          (l.peer.inbox.length < 2 → f.lockedBy ≠ site.clientFd) := by
      rw [← hfresh, ← forall_mem_take_concat, hinbox, List.take_succ_cons, List.forall_mem_cons]
    have hlocked : (f.opened site.clientFd).lockedBy = site.clientFd := by
      unfold File.opened
      split
      · exact (‹f.Owned site.clientFd›).2
      · rfl
    rw [hserve, hinbox]
    constructor
    · rintro ⟨c', peer', ⟨_, _, _, heq, hok, hexec⟩, hS⟩
      obtain ⟨rfl, hcons⟩ := Peer.mk.inj (Option.some.inj heq)
      obtain ⟨rfl, rfl⟩ := List.cons.inj hcons
      obtain ⟨-, -, hextra, hstale⟩ := (hk _ _ _ _ rfl hfollows).mp ⟨c', peer', hexec, hS⟩
      obtain ⟨hall, hreopen⟩ := htaken.mp ⟨hok, hstale⟩
      exact ⟨⟨hfree, by rwa [hstales], fun h => absurd h hopen, fun _ => hreopen⟩, hextra⟩
    · rintro ⟨⟨-, hall, -, hreopen⟩, hextra⟩
      rw [hstales] at hall
      obtain ⟨hok, hstale⟩ := htaken.mpr ⟨hall, hreopen hopen⟩
      obtain ⟨c', peer', hexec, hS⟩ := (hk { l.client with
        errno := .enoent, openedFiles := .live (opened ++ [p]) } _ _ _ rfl hfollows).mpr
          ⟨hfree', hlocked, hextra, hstale⟩
      exact ⟨c', peer', ⟨server, response, inbox, rfl, hok, hexec⟩, hS⟩

theorem Follows.get {peer : Peer} {f' : File} (h : l.Follows site opened p f f' peer)
    (hs : l.peer.server.storage.Sound) (hf : l.peer.server.storage.catalog.get p = some f) :
    peer.server.storage.catalog.get p = some f' ∧ SameData f f' ∧
      f'.waitingOnLock = f.waitingOnLock ∧
      peer.server.storage.maxSize = l.peer.server.storage.maxSize ∧
      peer.server.storage.catalog.queue = l.peer.server.storage.catalog.queue := by
  rcases h.catalog with ⟨rfl, hcat⟩ | ⟨rfl, hcat⟩
  · have hmax : peer.server.storage.maxSize = _ := congrArg Catalog.maxSize hcat
    exact ⟨hcat ▸ hf, .refl _, rfl, hmax, by rw [hcat]⟩
  · have hmax : peer.server.storage.maxSize = _ := congrArg Catalog.maxSize hcat
    have hput := Catalog.get_put hs.nodup hf (g := f.opened site.clientFd)
      ((f.sameData_opened _).path.trans (Catalog.get_eq_some hf).2) p
    rw [if_pos rfl] at hput
    refine ⟨hcat ▸ hput, f.sameData_opened _, ?_, hmax, by rw [hcat]; rfl⟩
    unfold File.opened
    split <;> rfl

variable {start : Link} {h : List (Link × LinkAction)} {C : Link → LinkAction → Prop}

end

/-! ### Two connections -/

def site : Site := ⟨.init Dispatcher.descriptors 1, 7, fun _ => .error .enoent⟩

/-- Another client has written the file and closed it. -/
def written : List LinkAction :=
  [.other (.openFile 5 (slash 'a') 6), .other (.writeFile 5 (slash 'a') [1]),
    .other (.closeFile 5 (slash 'a'))]

/-- A run from a fresh server and a client that has just been connected. -/
theorem exists_play (as : List LinkAction) (test : Link → Bool)
    (ht : ((Server.start 100 4).any fun s => (play (step site) Succeeding
      ⟨freshClient [], none, ⟨s, []⟩⟩ as).any test) = true) :
    ∃ start h l, start.peer.server.Initial ∧ Reaches (step site) Succeeding start h l ∧
      h.map Prod.snd = as ∧ test l = true := by
  obtain ⟨s, hi, hs⟩ := Server.exists_start 100 4 _ (by decide) ht
  obtain ⟨h, l, hr, ha, hl⟩ := exists_run _ _ _ _ _ hs
  exact ⟨_, h, l, hi, hr, ha, hl⟩

end Link

end FileStorage
