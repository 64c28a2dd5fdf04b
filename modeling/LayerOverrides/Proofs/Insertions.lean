import LayerOverrides.Proofs.StableOrder
import LayerOverrides.Proofs.WellKept

/-!
# Inserting entries

An entry that is inserted takes the place of the one for its layer, or comes last, and the entries
are put in order.  All others keep their order and nothing else is there (`IsInsertion`); an entry
for a new layer stands behind all with its rank, because the order is stable (`ordered_concat`).

Entries for different layers that are inserted one after the other give the order of them all
(`entries_insertAll`), so it does not matter which comes first unless two have one rank
(`insert_outcome`).
-/

namespace LayerOverrides

/-! ## The place of an entry -/

theorem mem_replaceIn (entry : LayerEntry) : ∀ entries : List LayerEntry,
    entry ∈ replaceIn entry entries
  | [] => List.mem_cons_self
  | e :: entries => by
    unfold replaceIn
    split
    · exact List.mem_cons_self
    · exact List.mem_cons_of_mem _ (mem_replaceIn entry entries)

theorem filter_replaceIn (entry : LayerEntry) : ∀ entries : List LayerEntry,
    (replaceIn entry entries).filter (fun e => e.layer ≠ entry.layer) =
      entries.filter fun e => e.layer ≠ entry.layer
  | [] => by simp [replaceIn]
  | e :: entries => by
    unfold replaceIn
    split
    · rename_i h
      rw [List.filter_cons_of_neg (by simp), List.filter_cons_of_neg (by simp [h])]
    · rw [List.filter_cons, List.filter_cons, filter_replaceIn entry entries]

theorem replaceIn_of_not_mem {entry : LayerEntry} : ∀ {entries : List LayerEntry},
    entry.layer ∉ entries.map LayerEntry.layer → replaceIn entry entries = entries ++ [entry]
  | [], _ => rfl
  | e :: entries, h => by
    rw [List.map_cons, List.mem_cons, not_or] at h
    rw [replaceIn, if_neg (Ne.symm h.1), replaceIn_of_not_mem h.2, List.cons_append]

/-- With one entry for each layer, the entries are any one of them and those for other layers. -/
theorem perm_cons_filter {entry : LayerEntry} {entries : List LayerEntry}
    (hn : (entries.map LayerEntry.layer).Nodup) (hmem : entry ∈ entries) :
    entries.Perm (entry :: entries.filter fun e => e.layer ≠ entry.layer) := by
  have hfilter : entries.filter (fun e => e.layer ≠ entry.layer) =
      entries.erase entry := by
    rw [hn.of_map.erase_eq_filter]
    refine List.filter_congr fun e he => ?_
    have hiff : e.layer = entry.layer ↔ e = entry :=
      ⟨List.inj_on_of_nodup_map hn he hmem, fun h => h ▸ rfl⟩
    rw [Bool.eq_iff_iff, decide_eq_true_iff, bne_iff_ne, ne_eq, ne_eq, hiff]
  rw [hfilter]
  exact List.perm_cons_erase hmem

theorem exists_split {k : Nat} : ∀ {entries : List LayerEntry},
    entries.Pairwise (fun a b => a.place ≤ b.place) → ∃ front back, entries = front ++ back ∧
      (∀ e ∈ front, e.place ≤ k) ∧ ∀ e ∈ back, k < e.place
  | [], _ => ⟨[], [], rfl, by simp, by simp⟩
  | a :: entries, h => by
    obtain ⟨ha, h⟩ := List.pairwise_cons.1 h
    rcases Nat.lt_or_ge k a.place with hk | hk
    · refine ⟨[], a :: entries, rfl, by simp, fun e he => ?_⟩
      rcases List.mem_cons.1 he with rfl | he
      · exact hk
      · exact Nat.lt_of_lt_of_le hk (ha e he)
    · obtain ⟨front, back, rfl, hfront, hback⟩ := exists_split h
      exact ⟨a :: front, back, rfl, List.forall_mem_cons.2 ⟨hk, hfront⟩, hback⟩

/-- An entry that comes in last goes behind all with its rank, and in front of all that come after
them. -/
theorem ordered_concat {entries : List LayerEntry}
    (h : entries.Pairwise fun a b => a.place ≤ b.place) (entry : LayerEntry) :
    ∃ front back, entries = front ++ back ∧ ordered (entries ++ [entry]) = front ++ entry :: back ∧
      ∀ e ∈ back, e.rank ≠ entry.rank := by
  obtain ⟨front, back, rfl, hfront, hback⟩ := exists_split (k := entry.place) h
  have hranks : ∀ e ∈ back, e.rank ≠ entry.rank := fun e he heq => by
    have hlt := hback e he
    rw [LayerEntry.place, LayerEntry.place, heq] at hlt
    exact Nat.lt_irrefl _ hlt
  refine ⟨front, back, rfl, eq_of_ascending (ascending_ordered _) ?_ fun rank => ?_, hranks⟩
  · obtain ⟨h₁, h₂, hcross⟩ := List.pairwise_append.1 h
    refine List.pairwise_append.2
      ⟨h₁, List.pairwise_cons.2 ⟨fun e he => (hback e he).le, h₂⟩, fun a ha b hb => ?_⟩
    rcases List.mem_cons.1 hb with rfl | hb
    · exact hfront a ha
    · exact hcross a ha b hb
  · rw [filter_rank_ordered]
    simp only [List.append_assoc, List.filter_append]
    by_cases hr : entry.rank = rank
    · have hnone : back.filter (fun e => e.rank = rank) = [] :=
        List.filter_eq_nil_iff.2 fun e he => by simpa [← hr] using hranks e he
      simp [hnone, hr]
    · simp [hr]

namespace Configuration

/-! ## One entry -/

/-- The second configuration is the first one with an entry put in: it is in order, the entry is
found for its layer and for the others what was found before, they are in the order in which they
were, and nothing else is there.  An entry for a new layer stands behind all with its rank. -/
structure IsInsertion (entry : LayerEntry) (c d : Configuration) : Prop where
  rest : d = { c with entries := d.entries }
  ranks : InRankOrder d.entries
  found : ∀ layer, d.find? layer = if layer = entry.layer then some entry else c.find? layer
  others : d.entries.filter (fun e => e.layer ≠ entry.layer) =
    c.entries.filter fun e => e.layer ≠ entry.layer
  contents : d.entries.Perm (entry :: c.entries.filter fun e => e.layer ≠ entry.layer)
  behindTies : entry.layer ∉ c.entries.map LayerEntry.layer →
    ∃ front back, c.entries = front ++ back ∧ d.entries = front ++ entry :: back ∧
      ∀ e ∈ back, e.rank ≠ entry.rank

theorem entries_insert (c : Configuration) (entry : LayerEntry) :
    (c.insert entry).entries = ordered (replaceIn entry c.entries) := rfl

theorem find?_eq_some_iff {c : Configuration} (hn : (c.entries.map LayerEntry.layer).Nodup)
    {layer : String} {e : LayerEntry} :
    c.find? layer = some e ↔ e ∈ c.entries ∧ e.layer = layer :=
  find?_key_eq_some_iff hn

/-- Configurations with the same entries for other layers find the same for these. -/
theorem find?_eq_of_filter_eq {c d : Configuration} {layer layer' : String}
    (h : d.entries.filter (fun e => e.layer ≠ layer) = c.entries.filter fun e => e.layer ≠ layer)
    (hne : layer' ≠ layer) : d.find? layer' = c.find? layer' := by
  have hfind : ∀ entries : List LayerEntry,
      entries.find? (fun e => e.layer == layer') =
        (entries.filter fun e => e.layer ≠ layer).find? fun e => e.layer == layer' := by
    intro entries
    rw [List.find?_filter]
    congr 1
    funext e
    by_cases he : e.layer = layer'
    · simp [he, hne]
    · simp [he]
  rw [find?, find?, hfind, h, ← hfind]

theorem isInsertion_insert {c : Configuration} (hn : (c.entries.map LayerEntry.layer).Nodup)
    (ho : InRankOrder c.entries) (entry : LayerEntry) : IsInsertion entry c (c.insert entry) := by
  have hn' : ((c.insert entry).entries.map LayerEntry.layer).Nodup := by
    refine nodup_layer_ordered ?_
    rw [layers_replaceIn]
    exact nodup_addOnce hn entry.layer
  have hmem : entry ∈ (c.insert entry).entries := mem_ordered.2 (mem_replaceIn entry c.entries)
  have hothers : (c.insert entry).entries.filter (fun e => e.layer ≠ entry.layer) =
      c.entries.filter fun e => e.layer ≠ entry.layer := by
    rw [entries_insert, ← ordered_filter, filter_replaceIn, ordered_filter,
      ordered_of_inRankOrder ho]
  refine ⟨rfl, inRankOrder_iff.2 (ascending_ordered _), fun layer => ?_, hothers, ?_,
    fun hnew => ?_⟩
  · split
    · rename_i h
      exact (find?_eq_some_iff hn').2 ⟨hmem, h.symm⟩
    · rename_i h
      exact find?_eq_of_filter_eq hothers h
  · rw [← hothers]
    exact perm_cons_filter hn' hmem
  · rw [entries_insert, replaceIn_of_not_mem hnew]
    exact ordered_concat (inRankOrder_iff.1 ho) entry

/-! ## One entry after the other -/

def insertAll (c : Configuration) (entries : List LayerEntry) : Configuration :=
  entries.foldl insert c

theorem entries_insertAll : ∀ (entries : List LayerEntry) {c : Configuration},
    InRankOrder c.entries → ((c.entries ++ entries).map LayerEntry.layer).Nodup →
      (c.insertAll entries).entries = ordered (c.entries ++ entries)
  | [], c, ho, _ => by rw [List.append_nil, ordered_of_inRankOrder ho]; rfl
  | entry :: entries, c, ho, hn => by
    have hlast : c.entries ++ entry :: entries = c.entries ++ [entry] ++ entries := by simp
    have hnew : entry.layer ∉ c.entries.map LayerEntry.layer := by
      rw [List.map_append, List.map_cons] at hn
      exact fun h => (List.nodup_append.1 hn).2.2 _ h _ List.mem_cons_self rfl
    have hinsert : (c.insert entry).entries = ordered (c.entries ++ [entry]) := by
      rw [entries_insert, replaceIn_of_not_mem hnew]
    have hn' : (((c.insert entry).entries ++ entries).map LayerEntry.layer).Nodup := by
      rw [hlast] at hn
      rw [hinsert]
      exact ((((sortBy_perm _ _).append_right entries).map _).nodup_iff).2 hn
    rw [insertAll, List.foldl_cons, ← insertAll,
      entries_insertAll entries (inRankOrder_iff.2 (hinsert ▸ ascending_ordered _)) hn', hinsert,
      ordered_ordered_append, hlast]

/-- An entry that is inserted into a configuration with one entry for each layer, in rank order,
comes in and changes nothing else.  Entries with different layers and different ranks that are
inserted into a configuration without entries come out in rank order, whichever comes first. -/
theorem insert_outcome :
    (∀ (c : Configuration) (entry : LayerEntry), (c.entries.map LayerEntry.layer).Nodup →
        InRankOrder c.entries → IsInsertion entry c (c.insert entry)) ∧
      ∀ (c : Configuration) (l l' : List LayerEntry), c.entries = [] →
        (l.map LayerEntry.layer).Nodup → (l.map LayerEntry.rank).Nodup → l.Perm l' →
          (c.insertAll l).entries = ordered l ∧
            (c.insertAll l').entries = (c.insertAll l).entries := by
  have hall : ∀ (c : Configuration) (l : List LayerEntry), c.entries = [] →
      (l.map LayerEntry.layer).Nodup → (c.insertAll l).entries = ordered l := by
    intro c l hc hn
    rw [entries_insertAll l (hc ▸ ⟨.nil, .nil⟩) (by rwa [hc]), hc, List.nil_append]
  refine ⟨fun c entry hn ho => isInsertion_insert hn ho entry, fun c l l' hc hn hr hperm => ?_⟩
  refine ⟨hall c l hc hn, ?_⟩
  rw [hall c l hc hn, hall c l' hc ((hperm.map _).nodup_iff.1 hn), ordered_eq_of_perm hperm hr]

end Configuration

namespace Samples

def ranked (layer : String) (rank : Option UInt32) : LayerEntry :=
  ⟨layer, .overridden, rank, .all, .empty⟩

/-- Two entries of one rank in front of one without a rank. -/
def tied : Configuration :=
  { Configuration.named "N" with
    entries := [ranked "A" (some 1), ranked "B" (some 1), ranked "C" none] }

def distinct : List LayerEntry := [ranked "A" (some 1), ranked "B" none, ranked "C" (some 0)]

end Samples

open Samples in
theorem insert_outcome_tied :
    (tied.entries.map LayerEntry.layer).Nodup ∧ InRankOrder tied.entries ∧
      (ranked "D" (some 1)).layer ∉ tied.entries.map LayerEntry.layer ∧
      Configuration.IsInsertion (ranked "D" (some 1)) tied (tied.insert (ranked "D" (some 1))) ∧
      (Configuration.named "N").entries = [] ∧ (distinct.map LayerEntry.layer).Nodup ∧
      (distinct.map LayerEntry.rank).Nodup ∧ distinct.Perm distinct.reverse ∧
      ((Configuration.named "N").insertAll distinct).entries = ordered distinct ∧
      ((Configuration.named "N").insertAll distinct.reverse).entries =
        ((Configuration.named "N").insertAll distinct).entries := by
  have hn : (tied.entries.map LayerEntry.layer).Nodup := by decide
  have ho : InRankOrder tied.entries := inRankOrder_iff.2 (by decide)
  have hlayers : (distinct.map LayerEntry.layer).Nodup := by decide
  have hranks : (distinct.map LayerEntry.rank).Nodup := by decide
  have hperm : distinct.Perm distinct.reverse := (List.reverse_perm distinct).symm
  obtain ⟨hone, hall⟩ := Configuration.insert_outcome
  exact ⟨hn, ho, by decide, hone tied _ hn ho, rfl, hlayers, hranks, hperm,
    hall (.named "N") distinct distinct.reverse rfl hlayers hranks hperm⟩

end LayerOverrides
