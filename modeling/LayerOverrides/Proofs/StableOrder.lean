import LayerOverrides.Proofs.RankOrder
import Mathlib.Data.List.Basic

/-!
# The one stable order by rank

A list that ascends is known once it is known which elements it has at each height and in which
order (`eq_of_filter_eq`).  So there is only one stable order of a list
(`IsRankOrderOf.eq_ordered`), and taking entries out before or after ordering comes to the same
(`ordered_filter`).

Stability is also told by positions: each entry of the ordered list is from a position of the given
one, and entries of one rank are from ascending positions (`TiesByPosition`).  The order by rank is
the only rearrangement that keeps ties so (`ordered_unique`).
-/

namespace LayerOverrides

section Ties

variable {α β : Type} [DecidableEq β] {f : α → β} {r : α → α → Prop}

theorem mem_of_filter_eq {l l' : List α}
    (h : ∀ b, l.filter (fun a => f a = b) = l'.filter fun a => f a = b) {a : α} (ha : a ∈ l) :
    a ∈ l' := by
  have hfilter : a ∈ l.filter fun x => f x = f a := List.mem_filter.2 ⟨ha, by simp⟩
  rw [h] at hfilter
  exact (List.mem_filter.1 hfilter).1

/-- Two lists in the order of `r` are equal if for each value of `f` they have the same elements
with this value in the same order, and elements that may stand either way have one value. -/
theorem eq_of_filter_eq (hanti : ∀ a b, r a b → r b a → f a = f b) : ∀ {l l' : List α},
    l.Pairwise r → l'.Pairwise r →
      (∀ b, l.filter (fun a => f a = b) = l'.filter fun a => f a = b) → l = l'
  | [], [], _, _, _ => rfl
  | [], a :: _, _, _, h => by simpa using h (f a)
  | a :: _, [], _, _, h => by simpa using h (f a)
  | a :: l, b :: l', hl, hl', h => by
    obtain ⟨ha, htail⟩ := List.pairwise_cons.1 hl
    obtain ⟨hb, htail'⟩ := List.pairwise_cons.1 hl'
    have hab : a = b := by
      rcases List.mem_cons.1 (mem_of_filter_eq h List.mem_cons_self) with hab | hmem
      · exact hab
      rcases List.mem_cons.1 (mem_of_filter_eq (fun c => (h c).symm) List.mem_cons_self)
        with hba | hmem'
      · exact hba.symm
      -- each stands in front of the other, so both are the first with their value
      have hf : f a = f b := hanti a b (ha b hmem') (hb a hmem)
      have hfirst := h (f a)
      rw [List.filter_cons_of_pos (by simp), List.filter_cons_of_pos (by simp [hf])] at hfirst
      exact (List.cons.inj hfirst).1
    subst hab
    rw [eq_of_filter_eq hanti htail htail' fun c => ?_]
    have hc := h c
    rw [List.filter_cons, List.filter_cons] at hc
    split at hc
    · exact (List.cons.inj hc).2
    · exact hc

/-- What holds among the elements with each one value holds of any two with the same value. -/
theorem pairwise_of_filter {l : List α}
    (h : ∀ b, (l.filter fun a => f a = b).Pairwise r) :
    l.Pairwise fun a b => f a = f b → r a b := by
  refine List.pairwise_iff_forall_sublist.2 fun {a b} hab heq => ?_
  have hties : [a, b].Sublist (l.filter fun x => f x = f b) := by
    simpa [heq] using hab.filter fun x => f x = f b
  exact List.pairwise_iff_forall_sublist.1 (h (f b)) hties

end Ties

/-! ## Uniqueness -/

theorem LayerEntry.rank_eq_of_place_eq {a b : LayerEntry} (h : a.place = b.place) :
    a.rank = b.rank := by
  unfold place at h
  cases ha : a.rank with
  | none =>
    cases hb : b.rank with
    | none => rfl
    | some n =>
      rw [ha, hb] at h
      exact absurd h.symm (Nat.ne_of_lt n.toNat_lt)
  | some m =>
    cases hb : b.rank with
    | none =>
      rw [ha, hb] at h
      exact absurd h (Nat.ne_of_lt m.toNat_lt)
    | some n =>
      rw [ha, hb] at h
      rw [UInt32.toNat_inj.1 h]

theorem eq_of_ascending {l l' : List LayerEntry} (hl : l.Pairwise fun a b => a.place ≤ b.place)
    (hl' : l'.Pairwise fun a b => a.place ≤ b.place)
    (h : ∀ rank, l.filter (fun e => e.rank = rank) = l'.filter fun e => e.rank = rank) : l = l' :=
  eq_of_filter_eq
    (fun _ _ hab hba => LayerEntry.rank_eq_of_place_eq (Nat.le_antisymm hab hba)) hl hl' h

theorem ascending_ordered (entries : List LayerEntry) :
    (ordered entries).Pairwise fun a b => a.place ≤ b.place :=
  (isRankOrderOf_ordered entries).ascending

theorem filter_rank_ordered (entries : List LayerEntry) (rank : Option UInt32) :
    (ordered entries).filter (fun e => e.rank = rank) = entries.filter fun e => e.rank = rank :=
  (isRankOrderOf_ordered entries).stable rank

theorem IsRankOrderOf.eq_ordered {sorted entries : List LayerEntry}
    (h : IsRankOrderOf sorted entries) : sorted = ordered entries :=
  eq_of_ascending h.ascending (ascending_ordered entries) fun rank => by
    rw [h.stable, filter_rank_ordered]

/-- Entries can be taken out before or after the others are put in order. -/
theorem ordered_filter (p : LayerEntry → Bool) (entries : List LayerEntry) :
    ordered (entries.filter p) = (ordered entries).filter p := by
  refine eq_of_ascending (ascending_ordered _) ((ascending_ordered entries).filter p)
    fun rank => ?_
  rw [filter_rank_ordered, List.filter_comm, List.filter_comm (l := ordered entries),
    filter_rank_ordered]

/-- Entries can be put in order before others come in behind them, or only with these. -/
theorem ordered_ordered_append (entries others : List LayerEntry) :
    ordered (ordered entries ++ others) = ordered (entries ++ others) := by
  refine eq_of_ascending (ascending_ordered _) (ascending_ordered _) fun rank => ?_
  simp only [filter_rank_ordered, List.filter_append]

/-- Where no two entries have one rank, it does not matter in which order they come. -/
theorem ordered_eq_of_perm {l l' : List LayerEntry} (h : l.Perm l')
    (hn : (l.map LayerEntry.rank).Nodup) : ordered l = ordered l' := by
  refine List.Perm.eq_of_pairwise (fun a b ha hb hab hba => ?_) (ascending_ordered l)
    (ascending_ordered l') ((sortBy_perm _ l).trans (h.trans (sortBy_perm _ l').symm))
  exact List.inj_on_of_nodup_map hn (mem_ordered.1 ha) (h.mem_iff.2 (mem_ordered.1 hb))
    (LayerEntry.rank_eq_of_place_eq (Nat.le_antisymm hab hba))

/-! ## The order by positions -/

/-- Entries with a rank stand in front of those without one, and ranks do not descend. -/
structure InRankOrder (entries : List LayerEntry) : Prop where
  rankedFirst : entries.Pairwise fun a b => a.rank = none → b.rank = none
  ascending : entries.Pairwise fun a b => ∀ m ∈ a.rank, ∀ n ∈ b.rank, m ≤ n

theorem LayerEntry.place_le_iff {a b : LayerEntry} : a.place ≤ b.place ↔
    (a.rank = none → b.rank = none) ∧ ∀ m ∈ a.rank, ∀ n ∈ b.rank, m ≤ n := by
  rw [← mayPrecede_iff, mayPrecede]
  rcases a.rank with _ | m <;> rcases b.rank with _ | n <;> simp

theorem inRankOrder_iff {entries : List LayerEntry} :
    InRankOrder entries ↔ entries.Pairwise fun a b => a.place ≤ b.place := by
  simp only [LayerEntry.place_le_iff, List.pairwise_and_iff]
  exact ⟨fun h => ⟨h.rankedFirst, h.ascending⟩, fun h => ⟨h.1, h.2⟩⟩

theorem ordered_of_inRankOrder {entries : List LayerEntry} (h : InRankOrder entries) :
    ordered entries = entries :=
  eq_of_ascending (ascending_ordered entries) (inRankOrder_iff.1 h) (filter_rank_ordered entries)

/-- Each entry of the one list is from a position of the other, every position is taken once, and
entries of one rank are from ascending positions. -/
def TiesByPosition (sorted entries : List LayerEntry) : Prop :=
  ∃ placed : List (LayerEntry × Nat), placed.map Prod.fst = sorted ∧
    placed.Perm entries.zipIdx ∧ placed.Pairwise fun a b => a.1.rank = b.1.rank → a.2 < b.2

theorem pairwise_zipIdx {α : Type} : ∀ (l : List α) (k : Nat),
    (l.zipIdx k).Pairwise fun a b => a.2 < b.2
  | [], _ => .nil
  | _ :: l, k =>
    List.pairwise_cons.2 ⟨fun _ h => List.le_snd_of_mem_zipIdx h, pairwise_zipIdx l (k + 1)⟩

theorem tiesByPosition_ordered (entries : List LayerEntry) :
    TiesByPosition (ordered entries) entries := by
  let le (a b : LayerEntry × Nat) : Bool := a.1.mayPrecede b.1
  have hmap : ordered (entries.zipIdx.map Prod.fst) = (sortBy le entries.zipIdx).map Prod.fst :=
    sortBy_map (fun _ _ => rfl) entries.zipIdx
  refine ⟨sortBy le entries.zipIdx, ?_, sortBy_perm _ _, pairwise_of_filter fun rank => ?_⟩
  · rw [← hmap, List.zipIdx_map_fst]
  · rw [filter_sortBy]
    · exact (pairwise_zipIdx entries 0).filter _
    · intro a b ha hb
      simp only [decide_eq_true_eq] at ha hb
      simp only [le, LayerEntry.mayPrecede_iff, LayerEntry.place, ha, hb, Nat.le_refl]

/-- Entries of one rank that are from ascending positions are in the order in which they were. -/
theorem TiesByPosition.filter_rank {sorted entries : List LayerEntry}
    (h : TiesByPosition sorted entries) (rank : Option UInt32) :
    sorted.filter (fun e => e.rank = rank) = entries.filter fun e => e.rank = rank := by
  obtain ⟨placed, rfl, hperm, hties⟩ := h
  have hplaced : (placed.filter fun a => a.1.rank = rank).Pairwise fun a b => a.2 < b.2 :=
    (hties.filter _).imp_of_mem fun ha hb hlt =>
      hlt (by simp only [List.mem_filter, decide_eq_true_eq] at ha hb; rw [ha.2, hb.2])
  have heq : placed.filter (fun a => a.1.rank = rank) =
      entries.zipIdx.filter fun a => a.1.rank = rank :=
    (hperm.filter _).eq_of_pairwise
      (fun _ _ _ _ hab hba => absurd hab (Nat.lt_asymm hba)) hplaced
      ((pairwise_zipIdx entries 0).filter _)
  calc (placed.map Prod.fst).filter (fun e => e.rank = rank)
      = (placed.filter fun a => a.1.rank = rank).map Prod.fst := List.filter_map
    _ = (entries.zipIdx.filter fun a => a.1.rank = rank).map Prod.fst := by rw [heq]
    _ = (entries.zipIdx.map Prod.fst).filter fun e => e.rank = rank := by
      rw [List.filter_map]
      rfl
    _ = entries.filter fun e => e.rank = rank := by rw [List.zipIdx_map_fst]

/-- The order by rank rearranges the entries, with those that have a rank in front and the ranks
ascending, and keeps the order of entries of one rank; it is the only list that does.  So it leaves
a list as it is exactly if the list is in rank order, and to put entries in order again changes
nothing. -/
theorem ordered_unique (entries : List LayerEntry) :
    (∀ sorted, sorted = ordered entries ↔
        sorted.Perm entries ∧ InRankOrder sorted ∧ TiesByPosition sorted entries) ∧
      (ordered entries = entries ↔ InRankOrder entries) ∧
      ordered (ordered entries) = ordered entries := by
  have hordered : InRankOrder (ordered entries) := inRankOrder_iff.2 (ascending_ordered entries)
  refine ⟨fun sorted => ⟨?_, ?_⟩, ⟨fun h => h ▸ hordered, ordered_of_inRankOrder⟩,
    ordered_of_inRankOrder hordered⟩
  · rintro rfl
    exact ⟨sortBy_perm _ entries, hordered, tiesByPosition_ordered entries⟩
  · rintro ⟨hperm, horder, hties⟩
    exact IsRankOrderOf.eq_ordered ⟨hperm, inRankOrder_iff.1 horder, hties.filter_rank⟩

end LayerOverrides
