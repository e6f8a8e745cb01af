import FileStorage.Writing

/-! Every call that returns has its effect, and every reachable storage is sound. -/

namespace FileStorage

open Prog

section Calls

variable {ok : Bool → Prop} {w : StorageWorld}

theorem Catalog.deed_other {v : Catalog} {clientFd : Nat} {req : Request}
    (ho : req.type ≠ .openFile) (hw : req.type ≠ .writeFile) (ha : req.type ≠ .appendToFile)
    (hr : req.type ≠ .removeFile) : v.deed (.request clientFd req) = .other := by
  cases hp : req.path.join with
  | none => simp [deed, hp]
  | some p =>
    simp only [deed, hp]

/-- A handler that changes locks at most. -/
theorem Settled.quiet {fail : Prop} {clientFd : Nat} {req : Request} {w w' : StorageWorld}
    {r : Option Reply} {g : File → File} (ho : req.type ≠ .openFile) (hw : req.type ≠ .writeFile)
    (ha : req.type ≠ .appendToFile) (hr : req.type ≠ .removeFile) (hq : Relocked g w w')
    (hg : ∀ f, g f = w.state.catalog.relock (.request clientFd req) r f) :
    Settled fail (.request clientFd req) w r w' :=
  .of_relocked hq (fun f _ => hg f) (Catalog.deed_other ho hw ha hr)
    (Call.not_accepted_of_type (t := req.type) rfl hw ha hr)

theorem returns_handle {clientFd : Nat} {req : Request} (hs : w.state.Sound) :
    (handle clientFd req).returns ok
      (fun reply w' => Settled (ok false) (.request clientFd req) w (some reply) w') w := by
  unfold handle
  split <;> rename_i ht <;> simp only [bind_eq, pure_eq, returns_bind, returns_ret]
  · exact returns_openFileHandler hs ht
  · refine (returns_closeFileHandler hs).mono fun _ _ hq =>
      .quiet (by simp [ht]) (by simp [ht]) (by simp [ht]) (by simp [ht]) hq fun f => ?_
    exact Catalog.relock_request fun hp => by simp only [Catalog.relock, if_pos hp, ht]
  · exact returns_writeFileHandler hs ht
  · exact returns_appendToFileHandler hs ht
  · exact (returns_readFileHandler hs).mono fun _ _ hq =>
      .quiet (by simp [ht]) (by simp [ht]) (by simp [ht]) (by simp [ht]) hq fun f =>
        (Catalog.relock_eq_self (by simp [ht]) _ f).symm
  · exact (returns_readNFilesHandler hs).mono fun _ _ hq =>
      .quiet (by simp [ht]) (by simp [ht]) (by simp [ht]) (by simp [ht]) hq fun f =>
        (Catalog.relock_eq_self (by simp [ht]) _ f).symm
  · exact returns_removeFileHandler hs ht
  · refine (returns_lockFileHandler hs).mono fun _ _ hq =>
      .quiet (by simp [ht]) (by simp [ht]) (by simp [ht]) (by simp [ht]) hq.1 fun f => ?_
    exact Catalog.relock_request fun hp => by
      simp only [Catalog.relock, if_pos hp, ht, Option.elim_some]
  · refine (returns_unlockFileHandler hs).mono fun _ _ hq =>
      .quiet (by simp [ht]) (by simp [ht]) (by simp [ht]) (by simp [ht]) hq fun f => ?_
    exact Catalog.relock_request fun hp => by simp only [Catalog.relock, if_pos hp, ht]
  all_goals
    exact .quiet (by simp [ht]) (by simp [ht]) (by simp [ht]) (by simp [ht]) (.of_state hs rfl rfl)
      fun f => (Catalog.relock_eq_self (by simp [ht]) _ f).symm

theorem Call.returns_prog {c : Call} (hs : w.state.Sound) :
    c.prog.returns ok (Settled (ok false) c w) w := by
  cases c with
  | request clientFd req =>
    simp only [Call.prog, bind_eq, pure_eq, returns_bind, returns_ret]
    exact returns_handle hs
  | lockManager =>
    simp only [Call.prog, bind_eq, pure_eq, returns_bind, returns_ret]
    exact (returns_lockManagerPass hs).mono fun _ _ hq =>
      .of_relocked hq (fun _ _ => rfl) rfl (by simp [Call.Accepted])

end Calls

namespace Server

/-- What a program promises of every run that returns holds after a call. -/
theorem exec_returns {s : Server} {x : Step} {r : Option Reply} {w : StorageWorld}
    {R : Option Reply → StorageWorld → Prop}
    (h : x.call.prog.returns (fun b => b = false → false ∈ x.env) R s.world)
    (he : s.exec x = some (r, w)) : R r w := by
  unfold exec at he
  split at he
  · rename_i r' w' env' hrun
    simp only [Option.some.injEq, Prod.mk.injEq] at he
    obtain ⟨rfl, rfl⟩ := he
    exact h.sound nofun (fun b hb h => h ▸ hb) hrun
  · cases he

theorem exec_settled {s : Server} {x : Step} {r : Option Reply} {w : StorageWorld}
    (hs : s.storage.Sound) (he : s.exec x = some (r, w)) :
    Settled (false ∈ x.env) x.call s.world r w := by
  have hret : x.call.prog.returns (fun b => b = false → false ∈ x.env)
      (Settled (false = false → false ∈ x.env) x.call s.world) s.world := Call.returns_prog hs
  simpa using exec_returns hret he

theorem exec_done {s : Server} {x : Step} {r : Option Reply} {w : StorageWorld}
    (hs : s.storage.Sound) (he : s.exec x = some (r, w)) :
    w.state.Sound ∧
      Effect (false ∈ x.env) s.storage.catalog x.call r w.notes w.state.catalog := by
  obtain ⟨h1, ns, h2, h3⟩ := (exec_settled hs he).done
  obtain rfl : ns = World.notes w := by simpa [world, World.notes] using h2.symm
  exact ⟨h1, h3⟩

theorem exec_locking {s : Server} {x : Step} {r : Option Reply} {w : StorageWorld}
    (hs : s.storage.Sound) (he : s.exec x = some (r, w)) :
    s.storage.catalog.Locking (false ∈ x.env) x.call r w.state.catalog :=
  (exec_settled hs he).locking

theorem Initial.catalog {s : Server} (h : s.Initial) :
    ∃ maxSize maxFiles n, 0 < maxSize ∧ maxSize < sizeBound ∧
      s.storage.catalog = ⟨maxSize, toInt maxFiles, n, [], [], 0, 0⟩ := by
  obtain ⟨maxSize, maxFiles, h0, h1, -, -, hc, -⟩ := h
  obtain ⟨files, hf, hst⟩ := Option.map_eq_some_iff.mp hc
  refine ⟨maxSize, maxFiles, files.nBuckets, h0, h1, ?_⟩
  have he : files.entries = [] := by
    unfold hashMapCreate at hf
    split at hf
    · cases hf
    · obtain rfl := Option.some.inj hf
      simp [HashMap.entries]
  simp [← hst, Storage.catalog, Storage.stored, he]

theorem Initial.sound {s : Server} (h : s.Initial) : s.storage.Sound := by
  obtain ⟨maxSize, maxFiles, -, -, -, -, hc, -⟩ := h
  obtain ⟨files, hf, hst⟩ := Option.map_eq_some_iff.mp hc
  have hp : files.Placed stringHash ∧ files.entries = [] := by
    unfold hashMapCreate at hf
    split at hf
    · cases hf
    · obtain rfl := Option.some.inj hf
      refine ⟨⟨by simp, fun i e he => ?_, by simp [HashMap.entries]⟩, by simp [HashMap.entries]⟩
      simp [HashMap.chain, List.getElem?_replicate] at he
      split at he <;> simp at he
  rw [← hst]
  exact ⟨hp.1, by simp [hp.2], by simp [hp.2]⟩

theorem Initial.reachable_sound {C : Server → Step → Prop} {s t : Server} {h : List Record}
    (hi : s.Initial) (hr : Run C s h t) : t.storage.Sound :=
  Run.invariant (I := fun _ t => t.storage.Sound) hi.sound
    (fun _ _ _ _ _ hs _ he => (exec_done hs he).1) hr

end Server

end FileStorage
