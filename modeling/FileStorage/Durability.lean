import FileStorage.Contents
import FileStorage.Fifo
import FileStorage.Mutex

/-! What a read of a path returns, against the writes, appends and removals of the run before it. -/

namespace FileStorage

open Prog

/-! ### What the history says -/

/-- What the calls of a run say about the contents of a path. -/
inductive Known where
  | unknown
  | holds (contents : Bytes)
  | gone
  deriving DecidableEq

/-- The path a request is about. -/
def Call.path : Call → Option Path
  | request _ req => req.path.join
  | lockManager => none

/-- The flags of the request ask for a new file. -/
def Request.creates (req : Request) : Bool :=
  (readInt req.body).any fun flags => chkFlag flags oCreate

namespace Known

/-- After a request on the path that has been answered with success. -/
def accept (req : Request) : Known → Known
  | unknown => if req.type = .writeFile then holds req.body
      else if req.type = .removeFile then gone else unknown
  | holds contents =>
      if req.type = .writeFile then holds req.body
      else if req.type = .appendToFile then holds (contents ++ req.body)
      else if req.type = .removeFile then gone else holds contents
  | gone =>
      if req.type = .writeFile then holds req.body
      else if req.type = .openFile ∧ req.creates then unknown else gone

/-- After a call: the paths it has dequeued to make room are gone. -/
def next (p : Path) (c : Call) (r : Option Reply) (ns : List Access) (k : Known) : Known :=
  let k' := if .victim p ∈ ns then gone else k
  match c with
  | .request _ req => if req.path.join = some p ∧ r = some ⟨.success, []⟩ then k'.accept req else k'
  | .lockManager => k'

end Known

/-- What is known of a path after the calls of a run. -/
def known (p : Path) (h : List Record) : Known :=
  h.foldl (fun k x => k.next p x.step.call x.reply x.world.notes) .unknown

theorem known_snoc (p : Path) (h : List Record) (x : Record) :
    known p (h ++ [x]) = (known p h).next p x.step.call x.reply x.world.notes := by
  simp [known]

namespace Catalog

/-- The size and the contents of the file of a path. -/
def content (v : Catalog) (p : Path) : Option (Nat × Option Bytes) :=
  (v.get p).map fun f => (f.size, f.contents)

/-- The catalog has of the path what is known. -/
def Agrees (v : Catalog) (p : Path) : Known → Prop
  | .unknown => True
  | .holds contents => v.content p = some (contents.length, some contents)
  | .gone => v.content p = none ∧ v.nBuckets ≠ 0

variable {fail : Prop} {v v' w : Catalog} {c : Call} {r : Option Reply} {ns : List Access} {p : Path}

/-! ### The calls that lose nothing -/

/-- The changes that lose nothing: no file is replaced at the limit of files; a removed path is
queued and alone in its bucket; a write that is too big is on a path that is not queued; what a
write expels is alone in its bucket but for the written file, and really alone where something is
refused to the write; an append does not wrap the size, and nothing is refused to it. -/
def KeepsContents (v : Catalog) (fail : Prop) (c : Call) : Deed → Prop
  | .other => True
  | .create _ => True
  | .replace _ _ => False
  | .discard p _ =>
      if c.type = some .removeFile then p ∈ v.queue ∧ v.neighbours p = [] else p ∉ v.queue
  | .write p _ body => ∀ q ∈ v.victims body.length,
      (∀ g ∈ v.neighbours q, g.path = p) ∧ (fail → v.bucket q ≠ v.bucket p)
  | .append _ f body => f.size + body.length < sizeBound ∧ ¬fail

instance (v : Catalog) (fail : Prop) [Decidable fail] (c : Call) :
    ∀ d, Decidable (v.KeepsContents fail c d)
  | .other => inferInstanceAs (Decidable True)
  | .create _ => inferInstanceAs (Decidable True)
  | .replace _ _ => inferInstanceAs (Decidable False)
  | .discard p _ => inferInstanceAs (Decidable
      (if c.type = some .removeFile then p ∈ v.queue ∧ v.neighbours p = [] else p ∉ v.queue))
  | .write p _ body => inferInstanceAs (Decidable (∀ q ∈ v.victims body.length,
      (∀ g ∈ v.neighbours q, g.path = p) ∧ (fail → v.bucket q ≠ v.bucket p)))
  | .append _ f body => inferInstanceAs (Decidable (f.size + body.length < sizeBound ∧ ¬fail))

/-! ### Victims -/

/-- A victim is not in the table any more. -/
theorem Evicts.get_victim {n : Nat} {qs : List Path} (h : v.Evicts n qs ns w) (hd : v.paths.Nodup)
    (hp : p ∈ qs) : w.get p = none := by
  induction h with
  | done _ => cases hp
  | round hover hq hf hr ih =>
    rename_i u u' q qs' ns' f
    have hdu := (within_expel u q f).nodup hd
    rcases List.mem_cons.mp hp with rfl | hp
    · have hgone : (u.expel p f).get p = none := by
        have hget := get_wipe (v := { u.discount f with queue := u.queue.tail }) hd p p
        rw [if_pos rfl] at hget
        exact hget
      exact get_none_of_subset hr.within.stored.subset hgone
    · exact ih hdu hp

/-- A path that is no victim stays, when the victims have no neighbours but `p`. -/
theorem Evicts.get_of_not_mem {n : Nat} {qs : List Path} (h : v.Evicts n qs ns w) (hd : v.paths.Nodup)
    {q : Path} (hq : q ∉ qs) (hqp : q ≠ p) (hn : ∀ k ∈ qs, ∀ g ∈ v.neighbours k, g.path = p) :
    w.get q = v.get q := by
  cases hg : v.get q with
  | none => exact get_none_of_subset h.within.stored.subset hg
  | some f =>
    obtain ⟨hm, hpath⟩ := get_eq_some hg
    refine h.keeps hd hg fun k hk hb => hqp ?_
    have hne : f.path ≠ k := by
      rintro rfl
      exact hq (hpath ▸ hk)
    rw [← hpath]
    exact hn k hk f (mem_neighbours.mpr ⟨hm, by rw [hpath, hb], hne⟩)

/-! ### What a call leaves of the contents -/

theorem content_congr (h : w.get p = v.get p) : w.content p = v.content p := by
  simp [content, h]

theorem content_eq_none : v.content p = none ↔ v.get p = none := by
  simp [content]

theorem Relabeled.content (h : v.Relabeled v') (hd : v.paths.Nodup) : v'.content p = v.content p := by
  cases hg : v.get p with
  | none => simp [Catalog.content, hg, h.get_none.mpr hg]
  | some f =>
    obtain ⟨f', hf', hs⟩ := h.get_some hd hg
    simp [Catalog.content, hg, hf', hs.size, hs.contents]

theorem content_discard {q : Path} {f : File} (hd : v.paths.Nodup)
    (hc : v.KeepsContents fail c (.discard q f)) :
    (v.discard q f).content p =
      if c.type = some .removeFile ∧ q = p then none else v.content p := by
  simp only [KeepsContents] at hc
  simp only [discard]
  by_cases ht : c.type = some .removeFile
  · rw [if_pos ht] at hc
    have hget := get_wipe (v := { v.discount f with queue := v.queue.erase q }) hd q p
    rw [if_pos hc.1]
    by_cases hq : q = p
    · rw [if_pos ⟨ht, hq⟩, content_eq_none, hget, if_pos (by rw [hq])]
    · rw [if_neg fun h => hq h.2]
      refine content_congr (hget.trans ?_)
      split
      · rename_i hb
        symm
        rw [get_eq_none_iff]
        intro hm
        obtain ⟨g, hg, rfl⟩ := List.mem_map.mp hm
        have hmem : g ∈ v.neighbours q := mem_neighbours.mpr ⟨hg, hb, fun h => hq h.symm⟩
        rw [hc.2] at hmem
        cases hmem
      · rfl
  · rw [if_neg ht] at hc
    rw [if_neg hc, if_neg fun h => ht h.1]
    exact content_congr rfl

/-- A call on another path. -/
theorem content_of_effect (he : Effect fail v c r ns v') (hd : v.paths.Nodup) (hd' : v'.paths.Nodup)
    (hc : v.KeepsContents fail c (v.deed c)) (hp : c.path ≠ some p) :
    v'.content p = if .victim p ∈ ns then none else v.content p := by
  have hdue := deed_due v c
  unfold Effect at he
  cases hdeed : v.deed c with
  | other =>
    simp only [hdeed] at he
    simp [he.1, he.2.1.content hd]
  | create q =>
    simp only [hdeed] at he hdue
    have hqp : p ≠ q := by
      rintro rfl
      cases hdue with
      | create ht hpath => exact hp hpath
    rcases he.2 with ⟨w, hcr, hrel, -⟩ | ⟨-, hrel⟩
    · have hdw : w.paths.Nodup := hrel.paths ▸ hd'
      obtain ⟨list, hget⟩ := hcr.get_eq hd hdw p
      rw [if_neg hqp] at hget
      simp [he.1, hrel.content hdw, content_congr hget]
    · simp [he.1, hrel.content hd]
  | replace q k => simp [hdeed, KeepsContents] at hc
  | discard q f =>
    simp only [hdeed] at he hdue
    have hqp : q ≠ p := by
      rintro rfl
      cases hdue with
      | refuse ht hpath => exact hp hpath
      | remove ht hpath => exact hp hpath
    rw [hdeed] at hc
    simp [he.1, he.2.1, content_discard hd hc, hqp]
  | write q f body =>
    simp only [hdeed] at he hdue
    rw [hdeed] at hc
    have hqp : p ≠ q := by
      rintro rfl
      cases hdue with
      | write ht hpath => exact hp hpath
    have hf : v.get q = some f := get_of_target (by rw [hdeed]; rfl)
    obtain ⟨w, qs, hev, hfin⟩ := he
    have hdw := hev.within.nodup hd
    have hqs : ∀ k ∈ qs, (∀ g ∈ v.neighbours k, g.path = q) ∧ (fail → v.bucket k ≠ v.bucket q) := by
      intro k hk
      exact hc k (hev.eq_victims hd ▸ hk)
    have hw : w.content p = if .victim p ∈ ns then none else v.content p := by
      by_cases hm : p ∈ qs
      · rw [if_pos (hev.victim_iff.mpr hm), content_eq_none, hev.get_victim hd hm]
      · rw [if_neg fun h => hm (hev.victim_iff.mp h)]
        exact content_congr (hev.get_of_not_mem hd hm hqp fun k hk => (hqs k hk).1)
    rcases hfin with ⟨hfin, -⟩ | ⟨-, rfl, -⟩
    · have hstay : fail → q ∈ w.paths := by
        intro hfail
        have hget := hev.keeps hd hf fun k hk hb => (hqs k hk).2 hfail hb.symm
        by_contra hno
        rw [get_eq_none_iff.mpr hno] at hget
        cases hget
      have hget := hfin.get hdw hd' (get_eq_some hf).2 hstay p
      rw [if_neg hqp] at hget
      exact (content_congr hget).trans hw
    · exact hw
  | append q f body =>
    simp only [hdeed] at he hdue
    have hqp : p ≠ q := by
      rintro rfl
      cases hdue with
      | append ht hpath => exact hp hpath
    have hf : v.get q = some f := get_of_target (by rw [hdeed]; rfl)
    have hput : ∀ g : File, g.path = q → (v.put q g).content p = v.content p := by
      intro g hg
      have hget := get_put hd hf hg p
      rw [if_neg hqp] at hget
      exact content_congr hget
    obtain ⟨rfl, hfin⟩ := he
    rw [if_neg List.not_mem_nil]
    rcases hfin with ⟨rfl, -⟩ | ⟨-, rfl, -⟩
    · exact hput (f.appended body) (get_eq_some hf).2
    · exact hput { f with contents := none } (get_eq_some hf).2

/-! ### What is known stays true -/

variable {k : Known}

theorem Agrees.of_content (h : v.Agrees p k) (hv : v'.content p = v.content p)
    (hn : v'.nBuckets = v.nBuckets) : v'.Agrees p k := by
  cases k with
  | unknown => trivial
  | holds contents => exact hv.trans h
  | gone => exact ⟨hv.trans h.1, hn ▸ h.2⟩

theorem next_of_ne (hp : c.path ≠ some p) : k.next p c r ns = if .victim p ∈ ns then .gone else k := by
  cases c with
  | lockManager => rfl
  | request clientFd req => exact if_neg fun h => hp h.1

theorem next_request {clientFd : Nat} {req : Request} (hpath : req.path.join = some p) :
    k.next p (.request clientFd req) r ns =
      if r = some ⟨.success, []⟩ then (if .victim p ∈ ns then Known.gone else k).accept req
      else if .victim p ∈ ns then .gone else k := by
  simp only [Known.next, hpath, true_and]

/-- A request that changes no contents, and is not answered as if it did. -/
theorem Agrees.accept_other {req : Request} (h : v.Agrees p k) (hw : req.type ≠ .writeFile)
    (ha : req.type ≠ .appendToFile) (hr : req.type ≠ .removeFile) : v.Agrees p (k.accept req) := by
  cases k with
  | unknown => simp [Known.accept, hw, hr, Agrees]
  | holds contents => simpa [Known.accept, hw, ha, hr] using h
  | gone =>
    by_cases ho : req.type = .openFile ∧ req.creates
    · simp [Known.accept, ho, Agrees]
    · simpa [Known.accept, hw, ho] using h

theorem accept_write {req : Request} (ht : req.type = .writeFile) : k.accept req = .holds req.body := by
  cases k <;> simp [Known.accept, ht]

/-- A file that was not in the table is created. -/
theorem Agrees.create_on {req : Request} (h : v.Agrees p k) (ht : req.type = .openFile)
    (hcreates : req.creates = true) (habsent : v.get p = none)
    (hrefused : r ≠ some ⟨.success, []⟩ → v'.content p = v.content p)
    (hbuckets : v'.nBuckets = v.nBuckets) :
    v'.Agrees p (if r = some ⟨.success, []⟩ then k.accept req else k) := by
  have hnone : v.content p = none := content_eq_none.mpr habsent
  cases k with
  | unknown => split <;> simp [Known.accept, ht, Agrees]
  | holds contents =>
    rw [Agrees, hnone] at h
    cases h
  | gone =>
    split
    · simp [Known.accept, ht, hcreates, Agrees]
    · rename_i hr
      exact h.of_content (hrefused hr) hbuckets

/-- A file that is removed was known to be there. -/
theorem Agrees.remove_on {req : Request} {f : File} (h : v.Agrees p k) (ht : req.type = .removeFile)
    (hf : v.get p = some f) (hgone : v'.Agrees p .gone) : v'.Agrees p (k.accept req) := by
  cases k with
  | unknown => simpa [Known.accept, ht] using hgone
  | holds contents => simpa [Known.accept, ht] using hgone
  | gone =>
    have hnone := content_eq_none.mp h.1
    rw [hf] at hnone
    cases hnone

/-- A write stores its body, or leaves a file that it could not expel. -/
theorem Agrees.write_on {req : Request} {f : File} {qs : List Path} (h : v.Agrees p k)
    (ht : req.type = .writeFile) (hd : v.paths.Nodup) (hd' : v'.paths.Nodup) (hf : v.get p = some f)
    (hev : v.Evicts req.body.length qs ns w)
    (hc : fail → ∀ q ∈ qs, v.bucket q ≠ v.bucket p) (hbuckets : v'.nBuckets = v.nBuckets)
    (hfin : w.Finished fail p (f.wrote req.body) v' ∧ r = some ⟨.success, []⟩ ∨
      fail ∧ v' = w ∧ r = some ⟨.internalError, []⟩) :
    v'.Agrees p (if r = some ⟨.success, []⟩ then
      (if .victim p ∈ ns then Known.gone else k).accept req
      else if .victim p ∈ ns then .gone else k) := by
  have hdw := hev.within.nodup hd
  have hstay : fail → w.get p = some f := fun hfail =>
    hev.keeps hd hf fun q hq hb => hc hfail q hq hb.symm
  rcases hfin with ⟨hfin, rfl⟩ | ⟨hfail, rfl, rfl⟩
  · rw [if_pos rfl, accept_write ht]
    have hmem : fail → p ∈ w.paths := by
      intro hfail
      by_contra hno
      have hget := hstay hfail
      rw [get_eq_none_iff.mpr hno] at hget
      cases hget
    have hget := hfin.get hdw hd' (get_eq_some hf).2 hmem p
    rw [if_pos rfl] at hget
    simp [Agrees, content, hget, File.wrote]
  · have hno : Access.victim p ∉ ns := by
      intro hv
      have hgone := hev.get_victim hd (hev.victim_iff.mp hv)
      rw [hstay hfail] at hgone
      cases hgone
    have hsame : v'.content p = v.content p := content_congr ((hstay hfail).trans hf.symm)
    simpa [hno] using h.of_content hsame hbuckets

/-- An append that does not wrap the size adds its body to what is known. -/
theorem Agrees.append_on {req : Request} {f : File} {n : Nat} (h : v.Agrees p k)
    (ht : req.type = .appendToFile) (hd : v.paths.Nodup) (hf : v.get p = some f)
    (hsize : f.size + req.body.length < sizeBound) :
    Agrees { v.put p (f.appended req.body) with currentSize := n } p (k.accept req) := by
  cases k with
  | unknown => simp [Known.accept, ht, Agrees]
  | holds contents =>
    have hcontents : f.size = contents.length ∧ f.contents = some contents := by
      simpa [Agrees, content, hf] using h
    have hfilled : f.Filled := by
      intro b hb
      rw [hcontents.2] at hb
      obtain rfl := Option.some.inj hb
      exact hcontents.1.symm
    have happended := File.appended_of_contents hfilled hcontents.2 hsize
    have hget := get_put (g := f.appended req.body) hd hf (get_eq_some hf).2 p
    rw [if_pos rfl] at hget
    have hlen : (f.appended req.body).size = contents.length + req.body.length := by
      rw [← hcontents.1]
      exact sizeAdd_of_lt hsize
    have hcontent : (v.put p (f.appended req.body)).content p =
        some ((contents ++ req.body).length, some (contents ++ req.body)) := by
      simp [content, hget, happended, hlen]
    have haccept : (Known.holds contents).accept req = .holds (contents ++ req.body) := by
      simp [Known.accept, ht]
    rw [haccept]
    exact hcontent
  | gone =>
    have hnone := content_eq_none.mp h.1
    rw [hf] at hnone
    cases hnone

theorem Agrees.step_on {clientFd : Nat} {req : Request} (h : v.Agrees p k)
    (he : Effect fail v (.request clientFd req) r ns v') (hd : v.paths.Nodup) (hd' : v'.paths.Nodup)
    (hn : ∀ f ∈ v.stored, v.nBuckets ≠ 0)
    (hc : v.KeepsContents fail (.request clientFd req) (v.deed (.request clientFd req)))
    (hpath : req.path.join = some p) : v'.Agrees p (k.next p (.request clientFd req) r ns) := by
  have hdue := deed_due v (.request clientFd req)
  have hbuckets : v'.nBuckets = v.nBuckets := congrArg (fun b => b.2.2) (Effect.bounds he)
  rw [next_request hpath]
  unfold Effect at he
  cases hdeed : v.deed (.request clientFd req) with
  | other =>
    simp only [hdeed] at he
    obtain ⟨rfl, hrel, hacc⟩ := he
    have hsame : v'.Agrees p k := h.of_content (hrel.content hd) hbuckets
    simp only [List.not_mem_nil, if_false]
    split
    · rename_i hr
      have hno : ∀ code : RequestCode, code = .writeFile ∨ code = .appendToFile ∨ code = .removeFile →
          req.type ≠ code := by
        rintro code hcode rfl
        refine hacc ⟨?_, hr⟩
        simpa [Call.type] using hcode
      exact hsame.accept_other (hno _ (by simp)) (hno _ (by simp)) (hno _ (by simp))
    · exact hsame
  | create q =>
    simp only [hdeed] at he hdue
    obtain ⟨rfl, hres⟩ := he
    cases hdue with
    | @create _ _ _ flags ht hq hb hcreate habsent _ =>
      obtain rfl : p = q := Option.some.inj (hpath.symm.trans hq)
      have hcreates : req.creates = true := by simp [Request.creates, hb, hcreate]
      simp only [List.not_mem_nil, if_false]
      refine h.create_on ht hcreates habsent (fun hr => ?_) hbuckets
      rcases hres with ⟨w, -, -, hsuccess⟩ | ⟨-, hrel⟩
      · exact absurd hsuccess hr
      · exact hrel.content hd
  | replace q q' => simp [hdeed, KeepsContents] at hc
  | discard q f =>
    simp only [hdeed] at he hdue
    rw [hdeed] at hc
    obtain ⟨rfl, rfl, rfl⟩ := he
    have hcontent := content_discard (p := p) hd hc
    have hf : v.get q = some f := get_of_target (by rw [hdeed]; rfl)
    simp only [List.mem_singleton, reduceCtorEq, if_false]
    cases hdue with
    | refuse ht hq =>
      have htype : (Call.request clientFd req).type ≠ some .removeFile := by simp [Call.type, ht]
      rw [if_neg fun hh => htype hh.1] at hcontent
      simpa [htype] using h.of_content hcontent hbuckets
    | remove ht hq =>
      obtain rfl : p = q := Option.some.inj (hpath.symm.trans hq)
      have htype : (Call.request clientFd req).type = some .removeFile := by simp [Call.type, ht]
      rw [if_pos ⟨htype, rfl⟩] at hcontent
      rw [if_pos htype, if_pos rfl]
      exact h.remove_on ht hf ⟨hcontent, hbuckets ▸ hn f (get_eq_some hf).1⟩
  | write q f body =>
    simp only [hdeed] at he hdue
    rw [hdeed] at hc
    cases hdue with
    | write ht hq hbody hf =>
      obtain rfl : p = q := Option.some.inj (hpath.symm.trans hq)
      obtain ⟨w, qs, hev, hfin⟩ := he
      refine h.write_on ht hd hd' hf hev (fun hfail q hq => ?_) hbuckets hfin
      exact (hc q (hev.eq_victims hd ▸ hq)).2 hfail
  | append q f body =>
    simp only [hdeed] at he hdue
    rw [hdeed] at hc
    obtain ⟨hsize, hok⟩ := hc
    cases hdue with
    | append ht hq hbody hf =>
      obtain rfl : p = q := Option.some.inj (hpath.symm.trans hq)
      obtain ⟨rfl, hfin⟩ := he
      obtain ⟨rfl, rfl⟩ := hfin.resolve_right fun hx => hok hx.1
      simp only [List.not_mem_nil, if_false, if_true]
      exact h.append_on ht hd hf hsize

/-- Only a write expels, and it has found its file. -/
theorem stored_of_victim (he : Effect fail v c r ns v') (hc : v.KeepsContents fail c (v.deed c))
    (hv : Access.victim p ∈ ns) : ∃ f, f ∈ v.stored := by
  unfold Effect at he
  cases hdeed : v.deed c with
  | write q f body =>
    have hf : v.get q = some f := get_of_target (by rw [hdeed]; rfl)
    exact ⟨f, (get_eq_some hf).1⟩
  | replace q q' => simp [hdeed, KeepsContents] at hc
  | other =>
    simp only [hdeed] at he
    simp [he.1] at hv
  | create q =>
    simp only [hdeed] at he
    simp [he.1] at hv
  | discard q f =>
    simp only [hdeed] at he
    simp [he.1] at hv
  | append q f body =>
    simp only [hdeed] at he
    simp [he.1] at hv

/-- What is known of a path stays true. -/
theorem Agrees.step (h : v.Agrees p k) (he : Effect fail v c r ns v') (hd : v.paths.Nodup)
    (hd' : v'.paths.Nodup) (hn : ∀ f ∈ v.stored, v.nBuckets ≠ 0)
    (hc : v.KeepsContents fail c (v.deed c)) : v'.Agrees p (k.next p c r ns) := by
  by_cases hp : c.path = some p
  · cases c with
    | lockManager => cases hp
    | request clientFd req => exact h.step_on he hd hd' hn hc hp
  · have hcontent := content_of_effect he hd hd' hc hp
    have hbuckets : v'.nBuckets = v.nBuckets := congrArg (fun b => b.2.2) (Effect.bounds he)
    rw [next_of_ne hp]
    by_cases hv : Access.victim p ∈ ns
    · rw [if_pos hv] at hcontent ⊢
      obtain ⟨f, hf⟩ := stored_of_victim he hc hv
      exact ⟨hcontent, hbuckets ▸ hn f hf⟩
    · rw [if_neg hv] at hcontent ⊢
      exact h.of_content hcontent hbuckets

end Catalog

/-! ### What a read returns -/

/-- How a request is answered that finds what it allocates. -/
def Server.answer (s : Server) (clientFd : Nat) (req : Request) : Option (Option Reply) :=
  (s.exec ⟨.request clientFd req, []⟩).map Prod.fst

/-- The reply to a `READ_FILE`, from the contents of its file. -/
def Catalog.readReply (v : Catalog) (p : Path) : Option Reply :=
  if v.nBuckets = 0 then none
  else match v.content p with
    | none => some ⟨.notFound, []⟩
    | some (size, contents) => (copyBytes true contents size).map fun b => ⟨.success, b.getD []⟩

/-- How `read_file_handler` ends when the mutex is free and its buffer can be allocated. -/
theorem outcome_readFileHandler {req : Request} {p : Path} {w : StorageWorld} (hw : w.held = false)
    (hp : req.path = some (some p)) :
    ((readFileHandler req).run [] w).1 =
      (w.state.lookup (some p)).elim .crashed fun r => r.elim (.done (.notFound, none)) fun i =>
        (copyBytes true (w.state.heap i).contents (w.state.heap i).size).elim .crashed
          fun buffer => .done (.success, buffer) := by
  have hget := run_storageGetFile (some p) [] w.locked
  rw [World.locked_state] at hget
  unfold readFileHandler requestPath
  rw [hp]
  refine (congrArg Prod.fst (run_bind_done (run_lockReturn [] w hw))).trans ?_
  cases hl : w.state.lookup (some p) with
  | none =>
    rw [hl] at hget
    exact congrArg Prod.fst (run_bind_crashed hget)
  | some r =>
    rw [hl] at hget
    refine (congrArg Prod.fst (run_bind_done hget)).trans ?_
    cases r with
    | none => rfl
    | some i =>
      refine (congrArg Prod.fst (run_bind_done (run_load i [.size] [] _))).trans ?_
      refine (congrArg Prod.fst (run_bind_done (run_alloc [] _))).trans ?_
      rw [run_pos (by rfl)]
      refine (congrArg Prod.fst (run_bind_done (run_load i [.contents] ([] : List Bool).tail _))).trans ?_
      simp only [World.accessed_state, World.locked_state, id, Option.elim_some]
      cases copyBytes true (w.state.heap i).contents (w.state.heap i).size with
      | none => rfl
      | some buffer => rfl

theorem Server.answer_readFile {s : Server} (hs : s.storage.Sound) (hheld : s.held = false)
    {clientFd : Nat} {req : Request} {p : Path} (ht : req.type = .readFile)
    (hp : req.path = some (some p)) :
    s.answer clientFd req = (s.storage.catalog.readReply p).map some := by
  have hout := outcome_readFileHandler (w := s.world) hheld hp
  have hdone : ∀ status buffer, ((readFileHandler req).run [] s.world).1 = .done (status, buffer) →
      s.answer clientFd req = some (some ⟨status, buffer.getD []⟩) := by
    intro status buffer h
    unfold Server.answer Server.exec Call.prog handle
    simp only [ht, bind_eq, pure_eq, run_bind]
    revert h
    rcases (readFileHandler req).run [] s.world with ⟨_ | _ | _, w, env⟩
    · rintro ⟨⟩
      rfl
    · exact fun h => absurd h (by simp)
    · exact fun h => absurd h (by simp)
  have hcrash : ((readFileHandler req).run [] s.world).1 = .crashed → s.answer clientFd req = none := by
    intro h
    unfold Server.answer Server.exec Call.prog handle
    simp only [ht, bind_eq, pure_eq, run_bind]
    revert h
    rcases (readFileHandler req).run [] s.world with ⟨_ | _ | _, w, env⟩
    · exact fun h => absurd h (by simp)
    · exact fun _ => rfl
    · exact fun h => absurd h (by simp)
  have hworld : s.world.state = s.storage := rfl
  rw [hworld, Storage.lookup] at hout
  rw [Catalog.readReply, Catalog.content]
  by_cases hn : s.storage.files.nBuckets = 0
  · have hn' : s.storage.catalog.nBuckets = 0 := hn
    rw [if_pos hn] at hout
    rw [if_pos hn', hcrash hout]
    rfl
  · have hn' : s.storage.catalog.nBuckets ≠ 0 := hn
    rw [if_neg hn] at hout
    rw [if_neg hn']
    cases hg : s.storage.get p with
    | none =>
      rw [hg] at hout
      rw [hs.catalog_get_none hg, hdone _ _ hout]
      simp
    | some i =>
      rw [hg] at hout
      rw [hs.catalog_get hg]
      simp only [Option.elim_some] at hout
      cases hc : copyBytes true (s.storage.heap i).contents (s.storage.heap i).size with
      | none =>
        rw [hc] at hout
        rw [hcrash hout]
        simp [hc]
      | some buffer =>
        rw [hc] at hout
        rw [hdone _ _ hout]
        simp [hc]

/-- A read of the path is answered with what is known. -/
def Server.Reads (s : Server) (p : Path) (k : Known) : Prop :=
  ∀ (clientFd : Nat) (req : Request), req.type = .readFile → req.path = some (some p) →
    (∀ contents, k = .holds contents → s.answer clientFd req = some (some ⟨.success, contents⟩)) ∧
    (k = .gone → s.answer clientFd req = some (some ⟨.notFound, []⟩))

/-- Reads of the path are answered alike. -/
def Server.ReadsAlike (s t : Server) (p : Path) : Prop :=
  ∀ (clientFd : Nat) (req : Request), req.type = .readFile → req.path = some (some p) →
    t.answer clientFd req = s.answer clientFd req

theorem Catalog.Agrees.reads {s : Server} (hs : s.storage.Sound) (hheld : s.held = false) {p : Path}
    {k : Known} (h : s.storage.catalog.Agrees p k) : s.Reads p k := by
  intro clientFd req ht hp
  rw [Server.answer_readFile hs hheld ht hp, Catalog.readReply]
  constructor
  · rintro contents rfl
    have hcontent : s.storage.catalog.content p = some (contents.length, some contents) := h
    have hn : s.storage.catalog.nBuckets ≠ 0 := by
      obtain ⟨f, hf, -⟩ := Option.map_eq_some_iff.mp hcontent
      obtain ⟨i, hg, -⟩ := hs.get_of_catalog hf
      exact Nat.ne_of_gt (hs.nBuckets_pos hg)
    have hcopy : copyBytes true (some contents) contents.length = some (some contents) := by
      unfold copyBytes
      split
      · rename_i h0
        rw [List.length_eq_zero_iff.mp h0]
        rfl
      · simp
    simp [hn, hcontent, hcopy]
  · rintro rfl
    simp [h.1, h.2]

/-- The calls that lose nothing, and leave the mutex free. -/
def DurableStep (s : Server) (x : Step) : Prop :=
  s.storage.catalog.KeepsContents (false ∈ x.env) x.call (s.storage.catalog.deed x.call) ∧
    ¬Leaks s.storage x

instance (s : Storage) (x : Step) : Decidable (Leaks s x) := by
  unfold Leaks
  split
  · unfold Request.Leaks Waits
    split <;> infer_instance
  · infer_instance

instance (s : Server) (x : Step) : Decidable (DurableStep s x) :=
  inferInstanceAs (Decidable (Catalog.KeepsContents _ _ _ _ ∧ ¬Leaks _ _))

theorem Run.agrees {s t : Server} {h : List Record} (hi : s.Initial) (hr : Run DurableStep s h t) :
    t.storage.Sound ∧ t.held = false ∧ ∀ p, t.storage.catalog.Agrees p (known p h) := by
  obtain ⟨-, -, -, -, -, -, -, hfree⟩ := id hi
  refine Run.invariant (I := fun h t => t.storage.Sound ∧ t.held = false ∧
    ∀ p, t.storage.catalog.Agrees p (known p h)) ⟨hi.sound, hfree, fun _ => trivial⟩ ?_ hr
  rintro h t x r w ⟨hs, hheld, hagrees⟩ hc he
  obtain ⟨hs', heff⟩ := Server.exec_done hs he
  have hrun : (x.call.prog.run x.env t.world).1 = .done r ∧ (x.call.prog.run x.env t.world).2.1 = w := by
    unfold Server.exec at he
    split at he
    · rename_i hrun
      cases he
      rw [hrun]
      exact ⟨rfl, rfl⟩
    · cases he
  refine ⟨hs', ?_, fun p => ?_⟩
  · have hfrees := (frees_prog t hheld x).mpr hc.2
    have hfree := hfrees r hrun.1
    rw [hrun.2] at hfree
    exact hfree
  · rw [known_snoc]
    refine (hagrees p).step heff hs.nodup hs'.nodup (fun f hf => ?_) hc.1
    obtain ⟨e, he', -⟩ := List.mem_map.mp hf
    exact Nat.ne_of_gt (hs.nBuckets_pos (hs.placed.get_eq_some_iff.mpr he'))

end FileStorage
