import LayerOverrides.Proofs.TreeWalks
import LayerOverrides.Storage

/-!
# Trees without some of their files

A walk has directories all around where it leads (`enclosed_of_walk`), so a path that finds a file
ends in the name of the file (`target_of_find`), and the file can be removed by that path
(`removeFile_of_find`).  Without some of its files, a tree still has all its directories: a path
that found something else finds it still (`find_of_without`), and one that found such a file finds
nothing (`find_of_mem_gone`).
-/

namespace LayerOverrides

namespace FileTree

variable {t t' t'' : FileTree} {p : Path} {l : Location} {c : Content} {e : Entry}

/-- All around the location there are directories. -/
def Enclosed (t : FileTree) (l : Location) : Prop :=
  ∀ k, k <:+ l.tail → t.entryAt k = some .directory

theorem enclosed_nil (t : FileTree) : t.Enclosed [] := by
  intro k hk
  rw [List.suffix_nil.1 hk, entryAt_nil]

theorem Enclosed.tail (h : t.Enclosed l) : t.Enclosed l.tail := fun k hk =>
  h k (hk.trans (List.tail_suffix _))

theorem Enclosed.cons (h : t.Enclosed l) (hd : t.entryAt l = some .directory) (n : FileName) :
    t.Enclosed (n :: l) := by
  intro k hk
  cases l with
  | nil => rw [List.suffix_nil.1 hk, entryAt_nil]
  | cons m l =>
    rcases List.suffix_cons_iff.1 hk with rfl | hk
    · exact hd
    · exact h k hk

theorem enclosed_of_walk : ∀ (segments : List Path.Segment) {l l' : Location}, t.Enclosed l →
    t.walk l segments = .ok l' → t.Enclosed l'
  | [], _, _, h, hw => Except.ok.inj hw ▸ h
  | s :: segments, l, l', h, hw => by
    unfold walk at hw
    split at hw
    · rename_i m hs
      refine enclosed_of_walk segments ?_ hw
      obtain ⟨hd, hs⟩ := step_eq_ok.1 hs
      split_ifs at hs
      · exact hs ▸ h
      · exact hs ▸ h.tail
      · obtain ⟨n, -, rfl⟩ := hs
        exact h.cons hd n
    · exact absurd hw (by simp)

/-- A path that finds a file ends in the name of the file. -/
theorem target_of_find (h : t.find p = .ok (l, .file c)) :
    ∃ k n, l = n :: k ∧ t.target p = .ok (.named k n false) := by
  obtain ⟨hcheck, hwalk, hfile⟩ := find_eq_ok.1 h
  rcases List.eq_nil_or_concat' p.segments with hnil | ⟨front, s, hp⟩
  · exact absurd hnil p.segments_ne_nil
  rw [hp, walk_append] at hwalk
  cases hk : t.walk [] front with
  | error e => simp [hk, Except.bind] at hwalk
  | ok k =>
    rw [hk, Except.bind, walk_singleton] at hwalk
    obtain ⟨hd, hs⟩ := step_eq_ok.1 hwalk
    have henclosed := enclosed_of_walk front (enclosed_nil t) hk
    -- an idle segment, or dots, would have led to a directory
    split_ifs at hs
    · rw [hs, hd] at hfile
      exact absurd hfile (by simp)
    · rw [hs, henclosed _ List.suffix_rfl] at hfile
      exact absurd hfile (by simp)
    · obtain ⟨n, rfl, rfl⟩ := hs
      exact ⟨k, n, rfl, target_eq_named.2 ⟨hcheck, front, hp, hk, hd⟩⟩

theorem ne_nil_of_file (h : t.entryAt l = some (.file c)) : l ≠ [] := by
  rintro rfl
  rw [entryAt_nil] at h
  exact absurd h (by simp)

theorem removeFile_of_find (h : t.find p = .ok (l, .file c)) :
    t.removeFile p = .ok (t.erase l) := by
  obtain ⟨k, n, rfl, htarget⟩ := target_of_find h
  simp [removeFile, htarget, (find_eq_ok.1 h).2.2]

/-- The second tree is the first one without what is at these locations. -/
def Without (t t' : FileTree) (gone : List Location) : Prop :=
  ∀ k, t'.entryAt k = if k ∈ gone then none else t.entryAt k

theorem Without.refl (t : FileTree) : Without t t [] := fun k => (if_neg (by simp)).symm

theorem Without.trans {gone gone' : List Location} (h : Without t t' gone)
    (h' : Without t' t'' gone') : Without t t'' (gone ++ gone') := by
  intro k
  rw [h' k, h k]
  by_cases hk : k ∈ gone <;> by_cases hk' : k ∈ gone' <;> simp [hk, hk']

theorem without_erase (hl : l ≠ []) : Without t (t.erase l) [l] := by
  intro k
  simp only [entryAt_erase t l k hl, List.mem_singleton]

variable {gone : List Location}

theorem Without.keeps (h : Without t t' gone)
    (hgone : ∀ k ∈ gone, ∃ c, t.entryAt k = some (.file c)) : KeepsDirectories t t' := by
  intro k hd
  rw [h k, if_neg, hd]
  intro hk
  obtain ⟨c, hc⟩ := hgone k hk
  rw [hc] at hd
  exact absurd hd (by simp)

theorem find_of_without (h : Without t t' gone)
    (hgone : ∀ k ∈ gone, ∃ c, t.entryAt k = some (.file c)) (hp : t.find p = .ok (l, e))
    (hl : l ∉ gone) : t'.find p = .ok (l, e) := by
  obtain ⟨hcheck, hwalk, he⟩ := find_eq_ok.1 hp
  refine find_eq_ok.2 ⟨hcheck, walk_of_keepsDirectories (h.keeps hgone) _ hwalk, ?_⟩
  rw [h l, if_neg hl, he]

theorem find_of_mem_gone (h : Without t t' gone)
    (hgone : ∀ k ∈ gone, ∃ c, t.entryAt k = some (.file c)) (hp : t.find p = .ok (l, e))
    (hl : l ∈ gone) : t'.find p = .error .notFound := by
  obtain ⟨hcheck, hwalk, -⟩ := find_eq_ok.1 hp
  have hnone : t'.entryAt l = none := by rw [h l, if_pos hl]
  simp only [find, hcheck, walk_of_keepsDirectories (h.keeps hgone) _ hwalk, hnone]

end FileTree

theorem Storage.discard_of_find {t : FileTree} {p : Path} {l : Location} {c : Content}
    (h : t.find p = .ok (l, .file c)) : discard t p = t.erase l := by
  simp only [discard, FileTree.removeFile_of_find h]

end LayerOverrides
