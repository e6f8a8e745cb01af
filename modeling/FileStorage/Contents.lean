import FileStorage.Bookkeeping

/-! The contents of the stored files: as many bytes as `size` says, and appended at the end. -/

namespace FileStorage

theorem length_reallocBytes (block : Option Bytes) (n : Nat) :
    (reallocBytes block n).length = n := by
  simp only [reallocBytes, List.length_append, List.length_take, List.length_replicate]
  omega

theorem length_overwrite {block src : Bytes} {n : Nat} (h : n + src.length ≤ block.length) :
    (overwrite block n src).length = block.length := by
  simp only [overwrite, List.length_append, List.length_take, List.length_drop]
  omega

/-- Growing a block by a body and copying the body behind the old bytes appends it. -/
theorem overwrite_reallocBytes (b body : Bytes) :
    overwrite (reallocBytes (some b) (b.length + body.length)) b.length body = b ++ body := by
  have hr : reallocBytes (some b) (b.length + body.length) = b ++ List.replicate body.length 0 := by
    simp [reallocBytes, List.take_of_length_le]
  rw [hr, overwrite, List.take_left, List.drop_eq_nil_of_le (by simp), List.append_nil]

/-- The contents, where there are any, are as long as the file says. -/
def File.Filled (f : File) : Prop := ∀ b, f.contents = some b → b.length = f.size

theorem File.filled_fresh (p : Path) (list : Bool) : (File.fresh p list).Filled := by
  intro b hb
  cases hb

theorem SameData.filled {f g : File} (h : SameData f g) (hf : f.Filled) : g.Filled := by
  intro b hb
  rw [h.size]
  exact hf b (h.contents ▸ hb)

theorem File.filled_wrote (f : File) (body : Bytes) : (f.wrote body).Filled := by
  intro b hb
  exact congrArg List.length (Option.some.inj hb).symm

theorem File.filled_appended {f : File} {body : Bytes} (h : f.size + body.length < sizeBound) :
    (f.appended body).Filled := by
  intro b hb
  have hs : sizeAdd f.size body.length = f.size + body.length := sizeAdd_of_lt h
  have hb' : overwrite (reallocBytes f.contents (sizeAdd f.size body.length)) f.size body = b :=
    Option.some.inj hb
  change b.length = sizeAdd f.size body.length
  rw [← hb', length_overwrite, length_reallocBytes]
  exact Nat.le_of_eq (by rw [length_reallocBytes, hs])

theorem File.appended_of_contents {f : File} {b body : Bytes} (hf : f.Filled)
    (hb : f.contents = some b) (h : f.size + body.length < sizeBound) :
    (f.appended body).contents = some (b ++ body) := by
  have hlen : b.length = f.size := hf b hb
  rw [← hlen] at h
  simp only [File.appended, hb, ← hlen, sizeAdd_of_lt h, overwrite_reallocBytes]

namespace Catalog

def Filled (v : Catalog) : Prop := ∀ f ∈ v.stored, f.Filled

theorem Filled.of_subset {v w : Catalog} (h : v.Filled) (hs : w.stored ⊆ v.stored) : w.Filled :=
  fun f hf => h f (hs hf)

theorem Filled.relabeled {v w : Catalog} (h : v.Filled) (hr : v.Relabeled w) : w.Filled := by
  obtain ⟨g, hg, rfl⟩ := hr
  intro f hf
  obtain ⟨k, hk, rfl⟩ := List.mem_map.mp hf
  exact (hg k hk).filled (h k hk)

theorem Filled.created {v w : Catalog} {p : Path} (h : v.Filled) (hc : v.Created p w) :
    w.Filled := by
  obtain ⟨list, hl⟩ := hc.stored
  intro f hf
  rcases List.mem_cons.mp (hl.mem_iff.mp hf) with rfl | hm
  · exact File.filled_fresh p list
  · exact h f hm

theorem Filled.put {v : Catalog} {p : Path} {g : File} (h : v.Filled) (hg : g.Filled) :
    (v.put p g).Filled := by
  intro f hf
  obtain ⟨k, hk, rfl⟩ := List.mem_map.mp hf
  by_cases hp : k.path = p
  · rw [putFile, if_pos hp]
    exact hg
  · rw [putFile, if_neg hp]
    exact h k hk

theorem Filled.finished {fail : Prop} {v w : Catalog} {p : Path} {g : File} (h : v.Filled)
    (hg : g.Filled) (hf : v.Finished fail p g w) : w.Filled := by
  intro f hm
  rcases hf.stored with hs | ⟨-, -, hs⟩
  · rcases List.mem_cons.mp (hs.mem_iff.mp hm) with rfl | hm
    · exact hg
    · exact h f (List.mem_of_mem_filter hm)
  · exact h f (hs ▸ hm)

/-- One call keeps the lengths, unless an append wraps the size of its file. -/
theorem Filled.step {fail : Prop} {v v' : Catalog} {c : Call} {r : Option Reply}
    {ns : List Access} (h : v.Filled)
    (hc : ∀ p f body, v.deed c = .append p f body → f.size + body.length < sizeBound)
    (he : Effect fail v c r ns v') : v'.Filled := by
  unfold Effect at he
  cases hdeed : v.deed c with
  | other =>
    simp only [hdeed] at he
    exact h.relabeled he.2.1
  | create p =>
    simp only [hdeed] at he
    obtain ⟨-, ⟨w, hcr, hrel, -⟩ | ⟨-, hrel⟩⟩ := he
    · exact (h.created hcr).relabeled hrel
    · exact h.relabeled hrel
  | replace p q =>
    simp only [hdeed] at he
    have hw : (v.replaceHead q).Filled := h.of_subset (replaceHead_subset v q)
    rcases he with ⟨w, hcr, hrel⟩ | ⟨-, hrel | hrel⟩
    · exact (hw.created hcr).relabeled hrel
    · exact hw.relabeled hrel
    · exact h.relabeled hrel
  | discard p f =>
    simp only [hdeed] at he
    obtain ⟨-, rfl, -⟩ := he
    exact h.of_subset (discard_subset v p f)
  | write p f body =>
    simp only [hdeed] at he
    obtain ⟨w, qs, hev, hfin⟩ := he
    have hw : w.Filled := h.of_subset hev.within.stored.subset
    rcases hfin with ⟨hfin, -⟩ | ⟨-, rfl, -⟩
    · exact hw.finished (f.filled_wrote body) hfin
    · exact hw
  | append p f body =>
    simp only [hdeed] at he
    obtain ⟨-, ⟨rfl, -⟩ | ⟨-, rfl, -⟩⟩ := he
    · exact Filled.put h (File.filled_appended (hc p f body hdeed))
    · exact Filled.put h fun b hb => nomatch hb

end Catalog

end FileStorage
