import FileStorage.Client
import Mathlib.Data.List.Nodup

/-! The client's list of opened files against the history of its calls. -/

namespace FileStorage

open Dialogue

/-- After this the file is not open. -/
def FileEvent.Ends : FileEvent → Path → Prop
  | opened _, _ => False
  | closed q, p => p = q
  | removed q, p => p = q
  | expelled q, p => p = q

/-- The file has been opened, and since then neither closed nor removed nor reported as
expelled. -/
def IsOpen (events : List FileEvent) (p : Path) : Prop :=
  ∃ before after, events = before ++ .opened p :: after ∧ ∀ e ∈ after, ¬e.Ends p

theorem isOpen_nil (p : Path) : ¬IsOpen [] p := by
  rintro ⟨before, after, h, -⟩
  simp at h

theorem isOpen_concat {events : List FileEvent} {e : FileEvent} {p : Path} :
    IsOpen (events ++ [e]) p ↔ e = .opened p ∨ ¬e.Ends p ∧ IsOpen events p := by
  constructor
  · rintro ⟨before, after, h, hends⟩
    rcases List.eq_nil_or_concat after with rfl | ⟨after, e', rfl⟩
    · exact .inl (by simpa using (List.append_inj_right' h rfl))
    · rw [List.concat_eq_append, ← List.cons_append, ← List.append_assoc] at h
      obtain ⟨rfl, he⟩ := List.append_inj' h rfl
      obtain rfl : e = e' := List.singleton_inj.mp he
      exact .inr ⟨hends e (by simp), before, after, rfl, fun e' he' => hends e' (by simp [he'])⟩
  · rintro (rfl | ⟨he, before, after, rfl, hends⟩)
    · exact ⟨events, [], rfl, by simp⟩
    · refine ⟨before, after ++ [e], by simp, fun e' he' => ?_⟩
      rcases List.mem_append.mp he' with he' | he'
      · exact hends e' he'
      · exact List.mem_singleton.mp he' ▸ he

def Exchange.event : Exchange → Option FileEvent
  | ⟨.note e, _⟩ => some e
  | _ => none

def events (t : List Exchange) : List FileEvent := t.filterMap Exchange.event

theorem events_append (t u : List Exchange) : events (t ++ u) = events t ++ events u :=
  List.filterMap_append

/-- The list has the files that are open, each of them once. -/
def Exact (c : Client) (history : List FileEvent) : Prop :=
  ∃ l, c.openedFiles = .live l ∧ l.Nodup ∧ ∀ p, p ∈ l ↔ IsOpen history p

/-- The list has the path. -/
def Client.Lists (c : Client) (p : Path) : Prop := ∃ l, c.openedFiles = .live l ∧ p ∈ l

section

variable {c c' : Client} {t : List Exchange} {history : List FileEvent} {p : Path}

theorem Exact.congr (h : Exact c history) (hc : c'.openedFiles = c.openedFiles) :
    Exact c' history := by
  obtain ⟨l, hl, hrest⟩ := h
  exact ⟨l, hc.trans hl, hrest⟩

/-- A file that was not in the list is put there when it is opened. -/
theorem Exact.insert {l : List Path} (h : Exact c history) (hl : c.openedFiles = .live l) (hp : p ∉ l)
    (hc : c'.openedFiles = .live (l ++ [p])) : Exact c' (history ++ [.opened p]) := by
  obtain ⟨l', hl', hnodup, hmem⟩ := h
  obtain rfl : l' = l := by rw [hl'] at hl; exact Pointer.live.inj hl
  have hnodup' : (l' ++ [p]).Nodup := List.concat_eq_append ▸ hnodup.concat hp
  refine ⟨l' ++ [p], hc, hnodup', fun q => ?_⟩
  rw [isOpen_concat, ← hmem q, List.mem_append, List.mem_singleton, FileEvent.opened.injEq]
  simp only [FileEvent.Ends, not_false_eq_true, true_and]
  tauto

/-- A file that is taken out of the list is no longer open. -/
theorem Exact.erase {l : List Path} {e : FileEvent} (he : ∀ q, e.Ends q ↔ q = p) (h : Exact c history)
    (hl : c.openedFiles = .live l) (hc : c'.openedFiles = .live (l.erase p)) :
    Exact c' (history ++ [e]) := by
  obtain ⟨l', hl', hnodup, hmem⟩ := h
  obtain rfl : l' = l := by rw [hl'] at hl; exact Pointer.live.inj hl
  refine ⟨l'.erase p, hc, hnodup.erase p, fun q => ?_⟩
  have hne : e ≠ .opened q := by
    rintro rfl
    exact (he p).mpr rfl
  rw [isOpen_concat, ← hmem q, hnodup.mem_erase_iff, he, or_iff_right hne]

end

/-! ### Parts that keep the list exact -/

/-- Whatever the system answers, the list stays exact. -/
def Tracks {α : Type} (x : ClientM α) : Prop := ∀ c t a c', x.Runs c t a c' →
  ∀ history, Exact c history → Exact c' (history ++ events t)

section

variable {α β : Type}

theorem tracks_pure (a : α) : Tracks (pure a : ClientM α) := by
  intro c t b c' h history he
  obtain ⟨rfl, rfl, rfl⟩ := runs_pure.mp h
  rwa [events, List.filterMap_nil, List.append_nil]

theorem tracks_crash : Tracks (.crash : ClientM α) := fun _ _ _ _ h => absurd h not_runs_crash

theorem Tracks.bind {x : ClientM α} {g : α → ClientM β} (hx : Tracks x) (hg : ∀ a, Tracks (g a)) :
    Tracks (x >>= g) := by
  intro c t b c' h history he
  obtain ⟨a, u, c1, v, rfl, h1, h2⟩ := runs_bind.mp h
  rw [events_append, ← List.append_assoc]
  exact hg a _ _ _ _ h2 _ (hx _ _ _ _ h1 _ he)

theorem Tracks.ite {q : Prop} [Decidable q] {x y : ClientM α} (hx : Tracks x) (hy : Tracks y) :
    Tracks (if q then x else y) := by
  split
  · exact hx
  · exact hy

theorem tracks_get : Tracks (get : ClientM Client) := by
  intro c t b c' h history he
  obtain ⟨rfl, rfl, rfl⟩ := runs_get.mp h
  rwa [events, List.filterMap_nil, List.append_nil]

theorem tracks_setErrno (e : Errno) : Tracks (Api.setErrno e) := by
  intro c t u c' h history he
  obtain ⟨rfl, rfl⟩ := runs_modify.mp h
  rw [events, List.filterMap_nil, List.append_nil]
  exact he.congr rfl

/-- Questions that are no notes. -/
theorem Puts.tracks {x : ClientM α} {f : α → Exchange} (hx : Api.Puts x f)
    (hf : ∀ a, (f a).event = none) : Tracks x := by
  intro c t a c' h history he
  obtain ⟨rfl, rfl⟩ := (hx _ _ _ _).mp h
  have hnone : events [f a] = [] := by
    rw [events, List.filterMap_cons_none (hf a), List.filterMap_nil]
  rwa [hnone, List.append_nil]

theorem tracks_failWith (e : Errno) : Tracks (Api.failWith e) :=
  (tracks_setErrno e).bind fun _ => tracks_pure _

theorem Tracks.checked {x : ClientM (Except Errno α)} {k : α → ClientM Int} (hx : Tracks x)
    (hk : ∀ a, Tracks (k a)) : Tracks (Api.checked x k) := by
  refine hx.bind fun a => ?_
  cases a with
  | error e => exact tracks_failWith e
  | ok a => exact hk a

theorem tracks_sendRequest (request : Request) : Tracks (Api.sendRequest request) :=
  Puts.tracks (Api.puts_sendRequest request) fun _ => rfl

theorem tracks_recvResponse : Tracks Api.recvResponse :=
  Puts.tracks Api.puts_recvResponse fun _ => rfl

theorem tracks_malloc : Tracks Api.malloc := Puts.tracks (fun _ _ _ _ => runs_question) fun _ => rfl

theorem tracks_indeterminate : Tracks Api.indeterminate :=
  Puts.tracks (fun _ _ _ _ => runs_question) fun _ => rfl

theorem tracks_mkdirP (dirname : Path) : Tracks (Api.mkdirP dirname) :=
  Puts.tracks (fun _ _ _ _ => runs_question) fun _ => rfl

theorem tracks_exchange {request : Request} {k : Response → ClientM Int} (hk : ∀ a, Tracks (k a)) :
    Tracks (Api.exchange request k) :=
  (tracks_sendRequest request).checked fun _ => tracks_recvResponse.checked hk

theorem tracks_switch {response : Response} {success : ClientM Int}
    {arms : List (ResponseCode × Errno)} (h : Tracks success) :
    Tracks (Api.switch response success arms) := h.ite (tracks_failWith _)

theorem tracks_onFile {pathname : Option Path} {k : Path → ClientM Int} (hk : ∀ p, Tracks (k p)) :
    Tracks (Api.onFile pathname k) := by
  cases pathname with
  | none => exact tracks_failWith _
  | some p => exact tracks_get.bind fun c => (tracks_failWith _).ite (hk p)

theorem runs_openedList {c c' : Client} {t : List Exchange} {l : List Path} :
    Api.openedList.Runs c t l c' ↔ t = [] ∧ c.openedFiles = .live l ∧ c' = c := by
  rw [Api.openedList, runs_get_bind]
  cases hc : c.openedFiles with
  | null => simp [not_runs_crash]
  | freed => simp [not_runs_crash]
  | live l' => simp [runs_pure, eq_comm]

theorem tracks_openedList : Tracks Api.openedList := by
  intro c t l c' h history he
  obtain ⟨rfl, -, rfl⟩ := runs_openedList.mp h
  rwa [events, List.filterMap_nil, List.append_nil]

end

theorem runs_removeOpened {c c' : Client} {t : List Exchange} {p : Path} {l : List Path}
    (hl : c.openedFiles = .live l) (h : (Api.removeOpened (some p)).Runs c t () c') :
    t = [] ∧ c'.openedFiles = .live (l.erase p) := by
  obtain ⟨l', u, c1, v, rfl, hlist, h⟩ := runs_bind.mp h
  obtain ⟨rfl, hl', rfl⟩ := runs_openedList.mp hlist
  obtain rfl : l = l' := Pointer.live.inj (hl.symm.trans hl')
  dsimp only at h
  split at h
  · obtain ⟨rfl, rfl⟩ := runs_modify.mp h
    exact ⟨rfl, rfl⟩
  · rename_i hp
    obtain ⟨rfl, rfl⟩ := runs_modify.mp h
    refine ⟨rfl, ?_⟩
    rw [List.erase_of_not_mem hp]
    exact hl

/-- A file that ends is taken out of the list. -/
theorem tracks_removeOpened {p : Path} {e : FileEvent} (he : ∀ q, e.Ends q ↔ q = p) {α : Type}
    {k : ClientM α} (hk : Tracks k) :
    Tracks (Api.removeOpened (some p) >>= fun _ => Api.note e >>= fun _ => k) := by
  intro c t a c' h history hexact
  obtain ⟨l, hl, -⟩ := id hexact
  obtain ⟨_, u, c1, v, rfl, hremove, hnote⟩ := runs_bind.mp h
  obtain ⟨rfl, hl1⟩ := runs_removeOpened hl hremove
  obtain ⟨_, v, rfl, hrest⟩ := runs_question_bind.mp hnote
  have hcons : history ++ events ([] ++ ⟨.note e, ()⟩ :: v) = history ++ [e] ++ events v := by
    rw [List.append_assoc]
    rfl
  rw [hcons]
  exact hk _ _ _ _ hrest _ (hexact.erase he hl hl1)

theorem tracks_removeOpened_none : Tracks (Api.removeOpened none) :=
  tracks_openedList.bind fun _ => (tracks_setErrno _).ite tracks_crash

/-- Where a path is not terminated, the element that is taken out is known by its position. -/
theorem tracks_removeAt {l : List Path} {i : Nat} (hi : i < l.length) {c c' : Client}
    {t : List Exchange} (hl : c.openedFiles = .live l)
    (h : (Api.setOpenedFiles (.live (l.eraseIdx i)) >>= fun _ =>
      Api.note (.expelled (l.getD i []))).Runs c t () c') {history : List FileEvent}
    (he : Exact c history) : Exact c' (history ++ events t) := by
  rw [Api.setOpenedFiles, runs_modify_bind] at h
  obtain ⟨rfl, rfl⟩ := (runs_question (q := Question.note _)).mp h
  obtain ⟨l', hl', hnodup, -⟩ := id he
  obtain rfl : l' = l := Pointer.live.inj (hl'.symm.trans hl)
  have hget : l'.getD i [] = l'[i] := (List.getElem_eq_getD []).symm
  rw [hget]
  refine he.erase (p := l'[i]) (fun q => Iff.rfl) hl ?_
  rw [hnodup.erase_getElem i hi]

theorem tracks_removeReceived (file : Response) : Tracks (Realpath.removeReceived file) := by
  unfold Realpath.removeReceived
  match file.path with
  | some none => exact tracks_removeOpened_none
  | some (some p) => exact tracks_removeOpened (fun q => Iff.rfl) (tracks_pure ())
  | none =>
    intro c t _ c' h history he
    obtain ⟨l, u, c1, v, rfl, hlist, hindex⟩ := runs_bind.mp h
    obtain ⟨rfl, hl, rfl⟩ := runs_openedList.mp hlist
    obtain ⟨index, v, rfl, hremove⟩ := runs_question_bind.mp hindex
    have hcons : events ([] ++ ⟨.indeterminate, index⟩ :: v) = events v := rfl
    rw [hcons]
    split at hremove
    · rename_i hin
      exact tracks_removeAt (by omega) hl hremove he
    · exact tracks_setErrno _ _ _ _ _ hremove _ he

theorem tracks_recvExpelled (dirname : Option Path) (n : Nat) :
    Tracks (Realpath.recvExpelled dirname n) := by
  induction n with
  | zero => exact tracks_pure _
  | succ n ih =>
    refine tracks_recvResponse.bind fun x => ?_
    cases x with
    | error e => exact tracks_setErrno e
    | ok file =>
      have hwrite : Tracks (Realpath.writeFileInDirectory dirname) := by
        cases dirname with
        | none => exact tracks_pure _
        | some d => exact tracks_malloc.bind fun _ => (tracks_pure _).ite tracks_crash
      exact hwrite.bind fun _ => (tracks_removeReceived file).bind fun _ => ih

theorem tracks_howMany (body : Bytes) : Tracks (Realpath.howMany body) := by
  refine tracks_crash.ite ?_
  cases readInt body with
  | none => exact tracks_indeterminate
  | some n => exact tracks_pure _

theorem tracks_filesExpelled (response : Response) (dirname : Option Path)
    (arms : List (ResponseCode × Errno)) : Tracks (Realpath.filesExpelled response dirname arms) := by
  have hmake : Tracks (Realpath.makeDirectory dirname) := by
    cases dirname with
    | none => exact tracks_pure _
    | some d => exact tracks_mkdirP d
  have hfinal : Tracks (Realpath.recvFinal arms) := by
    refine tracks_recvResponse.bind fun x => ?_
    cases x with
    | error e => exact tracks_crash
    | ok final => exact tracks_switch (tracks_pure _)
  refine hmake.bind fun made => Tracks.ite ?_ (tracks_pure _)
  exact (tracks_howMany _).bind fun n => (tracks_recvExpelled dirname _).bind fun _ => hfinal

/-! ### Opening and closing -/

/-- The server grants the request, and there is memory for what follows. -/
def Granted (t : List Exchange) : Prop :=
  (∃ response, response.status = .success ∧ ⟨.recvResponse, .ok response⟩ ∈ t) ∧ ⟨.alloc, false⟩ ∉ t

theorem runs_onFile {c c' : Client} {t : List Exchange} {r : Int} {p : Path} {k : Path → ClientM Int}
    (h : (Api.onFile (some p) k).Runs c t r c') :
    (Api.failWith .enotconn).Runs c t r c' ∨ (k p).Runs c t r c' := by
  rw [Api.onFile, runs_get_bind] at h
  split at h
  · exact .inl h
  · exact .inr h

theorem runs_insertOpened {c c' : Client} {t : List Exchange} {p : Path} {l : List Path} {b : Bool}
    (hl : c.openedFiles = .live l) (h : (Api.insertOpened p).Runs c t b c') :
    b = true ∧ t = [⟨.alloc, true⟩] ∧ c'.openedFiles = .live (l ++ [p]) ∨
      b = false ∧ t = [⟨.alloc, false⟩] ∧ c'.openedFiles = c.openedFiles := by
  rw [Api.insertOpened, runs_get_bind, hl] at h
  obtain ⟨granted, u, rfl, h'⟩ := runs_question_bind.mp h
  cases granted with
  | true =>
    rw [if_pos rfl, Api.setOpenedFiles, runs_modify_bind] at h'
    obtain ⟨rfl, rfl, rfl⟩ := runs_pure.mp h'
    exact .inl ⟨rfl, rfl, rfl⟩
  | false =>
    rw [if_neg Bool.false_ne_true, Api.setErrno, runs_modify_bind] at h'
    obtain ⟨rfl, rfl, rfl⟩ := runs_pure.mp h'
    exact .inr ⟨rfl, rfl, rfl⟩

/-- `openFile` keeps the list exact unless it succeeds for a file that is in it. -/
theorem Exact.openFile {c c' : Client} {t : List Exchange} {r : Int} {p : Path} {flags : Int}
    (h : (Api.openFile (some p) flags).Runs c t r c') {history : List FileEvent}
    (he : Exact c history) (hp : Granted t → ¬c.Lists p) : Exact c' (history ++ events t) := by
  rcases runs_onFile h with hfail | h'
  · exact tracks_failWith _ _ _ _ _ hfail _ he
  · rcases Api.runs_exchange.mp h' with ⟨e, ht, -, rfl⟩ | ⟨response, u, rfl, hswitch⟩
    · have hnone : events t = [] := by
        rcases ht with rfl | rfl <;> rfl
      rw [hnone, List.append_nil]
      exact he.congr rfl
    · have hcons : events (⟨.sendRequest ⟨.openFile, stringBytes p, intBytes flags⟩, .ok ()⟩ ::
          ⟨.recvResponse, .ok response⟩ :: u) = events u := rfl
      rw [hcons]
      unfold Api.switch at hswitch
      split at hswitch
      · rename_i hs
        obtain ⟨granted, v, rfl, hcopy⟩ := runs_question_bind.mp hswitch
        cases granted with
        | false => exact absurd hcopy not_runs_crash
        | true =>
          obtain ⟨l, hl, -⟩ := id he
          obtain ⟨inserted, w, c1, x, rfl, hinsert, hnote⟩ := runs_bind.mp hcopy
          rcases runs_insertOpened hl hinsert with ⟨rfl, rfl, hl1⟩ | ⟨rfl, rfl, hl1⟩
          · obtain ⟨_, y, rfl, hret⟩ := runs_question_bind.mp hnote
            obtain ⟨rfl, rfl, rfl⟩ := runs_pure.mp hret
            refine he.insert hl (fun hmem => hp ⟨⟨response, hs, ?_⟩, ?_⟩ ⟨l, hl, hmem⟩) hl1
            · simp
            · simp
          · obtain ⟨rfl, rfl, rfl⟩ := runs_pure.mp hnote
            have hnone : events [⟨.alloc, true⟩, ⟨.alloc, false⟩] = [] := rfl
            show Exact c' (history ++ events [⟨.alloc, true⟩, ⟨.alloc, false⟩])
            rw [hnone, List.append_nil]
            exact he.congr hl1
      · exact tracks_failWith _ _ _ _ _ hswitch _ he

theorem tracks_strlen {absolutePath : Option Path} {k : Path → ClientM Int}
    (hk : ∀ p, Tracks (k p)) : Tracks (Realpath.strlen absolutePath k) := by
  cases absolutePath with
  | none => exact tracks_crash
  | some p => exact hk p

theorem runs_listFind {c c' : Client} {t : List Exchange} {p : Path} {found : Bool}
    (h : (Realpath.listFind (some p)).Runs c t found c') :
    found = true ∧ t = [] ∧ c' = c ∨
      found = false ∧ t = [] ∧ c' = { c with errno := .enoent } ∧ ¬c.Lists p := by
  obtain ⟨l, u, c1, v, rfl, hlist, hfind⟩ := runs_bind.mp h
  obtain ⟨rfl, hl, rfl⟩ := runs_openedList.mp hlist
  dsimp only at hfind
  by_cases hp : p ∈ l
  · rw [if_pos hp] at hfind
    obtain ⟨rfl, rfl, rfl⟩ := runs_pure.mp hfind
    exact .inl ⟨rfl, rfl, rfl⟩
  · rw [if_neg hp, Api.setErrno, runs_modify_bind] at hfind
    obtain ⟨rfl, rfl, rfl⟩ := runs_pure.mp hfind
    refine .inr ⟨rfl, rfl, rfl, ?_⟩
    rintro ⟨l', hl', hp'⟩
    exact hp (Pointer.live.inj (hl.symm.trans hl') ▸ hp')

theorem tracks_listFind (absolutePath : Option Path) : Tracks (Realpath.listFind absolutePath) := by
  refine tracks_openedList.bind fun l => ?_
  have herrno : Tracks (Api.setErrno .enoent >>= fun _ => pure false) :=
    (tracks_setErrno _).bind fun _ => tracks_pure _
  cases absolutePath with
  | none => exact herrno.ite tracks_crash
  | some p => exact (tracks_pure _).ite herrno

theorem tracks_ensureOpened (absolutePath : Option Path) {flags : Int} {k : Path → ClientM Int}
    (hk : ∀ p, Tracks (k p)) : Tracks (Realpath.ensureOpened absolutePath flags k) := by
  cases absolutePath with
  | none =>
    refine (tracks_listFind none).bind fun found => tracks_crash.ite ?_
    exact (tracks_failWith _).bind fun result => (tracks_pure _).ite tracks_crash
  | some p =>
    intro c t r c' h history he
    obtain ⟨found, u, c1, v, rfl, hfind, hrest⟩ := runs_bind.mp h
    rcases runs_listFind hfind with ⟨rfl, rfl, rfl⟩ | ⟨rfl, rfl, rfl, hnot⟩
    · exact hk p _ _ _ _ hrest _ he
    · -- the file is opened because it is not in the list
      rw [if_neg Bool.false_ne_true] at hrest
      obtain ⟨result, w, c2, x, rfl, hopen, hgo⟩ := runs_bind.mp hrest
      have hc2 := Exact.openFile hopen (he.congr rfl) fun _ => hnot
      have hcont : Tracks (if result ≠ 0 then pure (-1) else Realpath.strlen (some p) k) :=
        (tracks_pure _).ite (hk p)
      rw [List.nil_append, events_append, ← List.append_assoc]
      exact hcont _ _ _ _ hgo _ hc2

/-- `closeFile` keeps the list exact unless it succeeds for a file that is in it. -/
theorem Exact.closeFile {c c' : Client} {t : List Exchange} {r : Int} {p : Path}
    (h : (Api.closeFile (some p)).Runs c t r c') {history : List FileEvent}
    (he : Exact c history) (hp : Granted t → ¬c.Lists p) : Exact c' (history ++ events t) := by
  rw [Api.closeFile, Realpath.closeFile] at h
  rcases runs_onFile h with hfail | h'
  · exact tracks_failWith _ _ _ _ _ hfail _ he
  · rcases Api.runs_exchange.mp h' with ⟨e, ht, -, rfl⟩ | ⟨response, u, rfl, hswitch⟩
    · have hnone : events t = [] := by
        rcases ht with rfl | rfl <;> rfl
      rw [hnone, List.append_nil]
      exact he.congr rfl
    · have hcons : events (⟨.sendRequest ⟨.closeFile, stringBytes p, []⟩, .ok ()⟩ ::
          ⟨.recvResponse, .ok response⟩ :: u) = events u := rfl
      rw [hcons]
      unfold Api.switch at hswitch
      split at hswitch
      · rename_i hs
        obtain ⟨_, v, rfl, hret⟩ := runs_question_bind.mp hswitch
        obtain ⟨rfl, rfl, rfl⟩ := runs_pure.mp hret
        obtain ⟨l, hl, -⟩ := id he
        have hnot : p ∉ l := fun hmem => hp ⟨⟨response, hs, by simp⟩, by simp⟩ ⟨l, hl, hmem⟩
        refine he.erase (fun q => Iff.rfl) hl ?_
        rw [List.erase_of_not_mem hnot]
        exact hl
      · exact tracks_failWith _ _ _ _ _ hswitch _ he

/-! ### Calls -/

inductive FileCall where
  | openFile (pathname : Option Path) (flags : Int)
  | closeFile (pathname : Option Path)
  | readFile (pathname : Option Path)
  | writeFile (pathname dirname : Option Path)
  | appendToFile (pathname : Option Path) (buf : Option Bytes) (dirname : Option Path)
  | lockFile (pathname : Option Path)
  | unlockFile (pathname : Option Path)
  | removeFile (pathname : Option Path)

def FileCall.prog : FileCall → ClientM Int
  | openFile pathname flags => Api.openFile pathname flags
  | closeFile pathname => Api.closeFile pathname
  | readFile pathname => Api.readFile pathname
  | writeFile pathname dirname => Api.writeFile pathname dirname
  | appendToFile pathname buf dirname => Api.appendToFile pathname buf dirname
  | lockFile pathname => Api.lockFile pathname
  | unlockFile pathname => Api.unlockFile pathname
  | removeFile pathname => Api.removeFile pathname

/-- No file that is in the list is opened again, and none is closed. -/
def FileCall.Plain (call : FileCall) (c : Client) (t : List Exchange) : Prop :=
  match call with
  | openFile (some p) _ | closeFile (some p) => Granted t → ¬c.Lists p
  | _ => True

theorem tracks_fileCall {call : FileCall} (ho : ∀ p flags, call ≠ .openFile (some p) flags)
    (hc : ∀ p, call ≠ .closeFile (some p)) : Tracks call.prog := by
  cases call with
  | openFile pathname flags =>
    cases pathname with
    | none => exact tracks_failWith _
    | some p => exact absurd rfl (ho p flags)
  | closeFile pathname =>
    cases pathname with
    | none => exact tracks_failWith _
    | some p => exact absurd rfl (hc p)
  | readFile pathname =>
    refine tracks_onFile fun _ => tracks_ensureOpened _ fun p => tracks_exchange fun response => ?_
    exact tracks_switch (tracks_malloc.bind fun _ => (tracks_pure _).ite (tracks_failWith _))
  | writeFile pathname dirname =>
    refine tracks_onFile fun _ => ?_
    cases pathname with
    | none => exact tracks_failWith _
    | some p =>
      refine Tracks.checked (Puts.tracks (Api.puts_readDisk p) fun _ => rfl) fun data => ?_
      refine tracks_ensureOpened _ fun p => tracks_exchange fun response => ?_
      exact (tracks_filesExpelled _ _ _).ite (tracks_switch (tracks_pure _))
  | appendToFile pathname buf dirname =>
    cases buf with
    | none => exact tracks_failWith _
    | some buf =>
      refine tracks_onFile fun _ => tracks_ensureOpened _ fun p => tracks_exchange fun response => ?_
      exact (tracks_filesExpelled _ _ _).ite (tracks_switch (tracks_pure _))
  | lockFile pathname =>
    refine tracks_onFile fun _ => tracks_ensureOpened _ fun p => tracks_exchange fun response => ?_
    exact tracks_switch (tracks_pure _)
  | unlockFile pathname =>
    refine tracks_onFile fun _ => (tracks_listFind _).bind fun found => ?_
    refine Tracks.ite (tracks_strlen fun p => ?_) (tracks_failWith _)
    exact tracks_exchange fun response => tracks_switch (tracks_pure _)
  | removeFile pathname =>
    refine tracks_onFile fun _ => tracks_ensureOpened _ fun p => tracks_exchange fun response => ?_
    exact tracks_switch (tracks_removeOpened (fun q => Iff.rfl) (tracks_pure _))

/-- What a call preserves. -/
theorem Exact.call {c c' : Client} {t : List Exchange} {r : Int} {call : FileCall}
    (h : call.prog.Runs c t r c') (hp : call.Plain c t) {history : List FileEvent}
    (he : Exact c history) : Exact c' (history ++ events t) := by
  by_cases ho : ∃ p flags, call = .openFile (some p) flags
  · obtain ⟨p, flags, rfl⟩ := ho
    exact he.openFile h hp
  · by_cases hc : ∃ p, call = .closeFile (some p)
    · obtain ⟨p, rfl⟩ := hc
      exact he.closeFile h hp
    · exact tracks_fileCall (fun p flags h => ho ⟨p, flags, h⟩) (fun p h => hc ⟨p, h⟩) _ _ _ _ h _ he

/-- Calls of the functions on files, one after the other. -/
abbrev FileSession := CallRun FileCall.prog

def sessionEvents (l : List (CallRecord FileCall)) : List FileEvent :=
  l.flatMap fun x => events x.trace

/-- A client that has just been connected, and what it has after opening `/a`. -/
def freshClient (opened : List Path) : Client := ⟨3, some [0x73], .live opened, .system 0⟩

/-- A request that is answered with `SUCCESS`. -/
def granted (request : Request) : List Exchange :=
  [⟨.sendRequest request, .ok ()⟩, ⟨.recvResponse, .ok ⟨.success, request.filePath, []⟩⟩]

def openRecord : CallRecord FileCall where
  call := .openFile (some [0x2f, 0x61]) 1
  before := freshClient []
  trace := granted ⟨.openFile, stringBytes [0x2f, 0x61], intBytes 1⟩ ++
    [⟨.alloc, true⟩, ⟨.alloc, true⟩, ⟨.note (.opened [0x2f, 0x61]), ()⟩]
  result := 0
  after := freshClient [[0x2f, 0x61]]

def closeRecord : CallRecord FileCall where
  call := .closeFile (some [0x2f, 0x61])
  before := freshClient [[0x2f, 0x61]]
  trace := granted ⟨.closeFile, stringBytes [0x2f, 0x61], []⟩ ++
    [⟨.note (.closed [0x2f, 0x61]), ()⟩]
  result := 0
  after := freshClient [[0x2f, 0x61]]

theorem runs_openRecord :
    openRecord.call.prog.Runs (freshClient []) openRecord.trace 0 openRecord.after :=
  runs_of_replay rfl

theorem runs_closeRecord :
    closeRecord.call.prog.Runs openRecord.after closeRecord.trace 0 closeRecord.after :=
  runs_of_replay rfl

end FileStorage
