import LayerOverrides.Configuration.Order
import Mathlib.Data.List.Nodup

/-!
# Entries in rank order

Sorting by a total and transitive test leaves a list in order (`pairwise_sortBy`), and it does not
see what the test does not see, so it commutes with a map that keeps the test (`sortBy_map`).

The test on ranks is total and transitive: entries are in rank order after every sort, and what is
left of them when some are taken out stays in order.  The sort is the stable one
(`isRankOrderOf_ordered`), since entries of one rank may stand either way.
-/

namespace LayerOverrides

section Sorting

variable {α β : Type} {le : α → α → Bool}

theorem insertBy_map {le' : β → β → Bool} {f : α → β} (hf : ∀ a b, le' (f a) (f b) = le a b)
    (a : α) : ∀ l : List α, insertBy le' (f a) (l.map f) = (insertBy le a l).map f
  | [] => rfl
  | b :: l => by
    rw [List.map_cons, insertBy, insertBy, hf]
    split
    · rfl
    · rw [insertBy_map hf a l, List.map_cons]

theorem sortBy_map {le' : β → β → Bool} {f : α → β} (hf : ∀ a b, le' (f a) (f b) = le a b) :
    ∀ l : List α, sortBy le' (l.map f) = (sortBy le l).map f
  | [] => rfl
  | a :: l => by
    rw [List.map_cons, sortBy, sortBy, sortBy_map hf l, insertBy_map hf]

theorem pairwise_insertBy (htotal : ∀ a b, le a b = true ∨ le b a = true)
    (htrans : ∀ a b c, le a b = true → le b c = true → le a c = true) (a : α) :
    ∀ l : List α, l.Pairwise (fun b c => le b c = true) →
      (insertBy le a l).Pairwise fun b c => le b c = true
  | [], _ => by simp [insertBy]
  | b :: l, h => by
    obtain ⟨hb, hl⟩ := List.pairwise_cons.1 h
    rw [insertBy]
    split
    · rename_i hab
      refine List.pairwise_cons.2 ⟨fun c hc => ?_, h⟩
      rcases List.mem_cons.1 hc with rfl | hc
      · exact hab
      · exact htrans a b c hab (hb c hc)
    · rename_i hab
      refine List.pairwise_cons.2 ⟨fun c hc => ?_, pairwise_insertBy htotal htrans a l hl⟩
      rcases List.mem_cons.1 ((insertBy_perm le a l).mem_iff.1 hc) with rfl | hc
      · exact (htotal c b).resolve_left hab
      · exact hb c hc

theorem pairwise_sortBy (htotal : ∀ a b, le a b = true ∨ le b a = true)
    (htrans : ∀ a b c, le a b = true → le b c = true → le a c = true) :
    ∀ l : List α, (sortBy le l).Pairwise fun b c => le b c = true
  | [] => .nil
  | a :: l => pairwise_insertBy htotal htrans a _ (pairwise_sortBy htotal htrans l)

theorem filter_insertBy {p : α → Bool} (hp : ∀ a b, p a = true → p b = true → le a b = true)
    (a : α) : ∀ l : List α, (insertBy le a l).filter p = (a :: l).filter p
  | [] => rfl
  | b :: l => by
    rw [insertBy]
    split
    · rfl
    · rename_i hab
      by_cases ha : p a = true
      · have hb : ¬ p b = true := fun hb => hab (hp a b ha hb)
        rw [List.filter_cons_of_neg hb, filter_insertBy hp a l, List.filter_cons_of_pos ha,
          List.filter_cons_of_pos ha, List.filter_cons_of_neg hb]
      · rw [List.filter_cons, filter_insertBy hp a l, List.filter_cons_of_neg ha,
          List.filter_cons_of_neg ha, List.filter_cons]

/-- Elements of which any may stand before any other keep their order. -/
theorem filter_sortBy {p : α → Bool} (hp : ∀ a b, p a = true → p b = true → le a b = true) :
    ∀ l : List α, (sortBy le l).filter p = l.filter p
  | [] => rfl
  | a :: l => by
    rw [sortBy, filter_insertBy hp, List.filter_cons, List.filter_cons, filter_sortBy hp l]

end Sorting

namespace LayerEntry

/-- The rank as a number, with every entry without one past all that have one. -/
def place (e : LayerEntry) : Nat :=
  match e.rank with
  | some r => r.toNat
  | none => 0x100000000

theorem mayPrecede_iff {a b : LayerEntry} : a.mayPrecede b = true ↔ a.place ≤ b.place := by
  unfold mayPrecede place
  rcases a.rank with _ | m <;> rcases b.rank with _ | n
  · simp
  · have := n.toNat_lt
    simp only [Bool.false_eq_true, false_iff]
    omega
  · have := m.toNat_lt
    simp only [true_iff]
    omega
  · simp only [decide_eq_true_eq, UInt32.le_iff_toNat_le]

theorem mayPrecede_total (a b : LayerEntry) : a.mayPrecede b = true ∨ b.mayPrecede a = true := by
  simp only [mayPrecede_iff]
  exact Nat.le_total a.place b.place

theorem mayPrecede_trans (a b c : LayerEntry) (hab : a.mayPrecede b = true)
    (hbc : b.mayPrecede c = true) : a.mayPrecede c = true := by
  rw [mayPrecede_iff] at hab hbc ⊢
  exact Nat.le_trans hab hbc

end LayerEntry

/-- The stable order by rank: the same entries, by ascending rank and those without one at the
end, and entries of one rank in the order in which they were. -/
structure IsRankOrderOf (sorted entries : List LayerEntry) : Prop where
  perm : sorted.Perm entries
  ascending : sorted.Pairwise fun a b => a.place ≤ b.place
  stable : ∀ rank, sorted.filter (fun e => e.rank = rank) = entries.filter fun e => e.rank = rank

theorem pairwise_ordered (entries : List LayerEntry) :
    (ordered entries).Pairwise fun a b => a.mayPrecede b = true :=
  pairwise_sortBy LayerEntry.mayPrecede_total LayerEntry.mayPrecede_trans entries

theorem isRankOrderOf_ordered (entries : List LayerEntry) :
    IsRankOrderOf (ordered entries) entries where
  perm := sortBy_perm _ entries
  ascending := (pairwise_ordered entries).imp LayerEntry.mayPrecede_iff.1
  stable rank := filter_sortBy (fun a b ha hb => by
    simp only [decide_eq_true_eq] at ha hb
    simp only [LayerEntry.mayPrecede_iff, LayerEntry.place, ha, hb, Nat.le_refl]) entries

theorem mem_ordered {e : LayerEntry} {entries : List LayerEntry} :
    e ∈ ordered entries ↔ e ∈ entries := mem_sortBy

theorem ordered_map {f : LayerEntry → LayerEntry} (hf : ∀ e, (f e).rank = e.rank)
    (entries : List LayerEntry) : ordered (entries.map f) = (ordered entries).map f :=
  sortBy_map (fun a b => by simp only [LayerEntry.mayPrecede, hf]) entries

/-- Entries that were put in order stay as they are when some are taken out. -/
theorem ordered_of_sublist {kept entries : List LayerEntry} (h : kept.Sublist (ordered entries)) :
    ordered kept = kept :=
  sortBy_of_pairwise ((pairwise_ordered entries).sublist h)

/-- A key that comes in last, unless it is there already, leaves the keys distinct. -/
theorem nodup_addOnce {α : Type} [DecidableEq α] {keys : List α} (h : keys.Nodup) (key : α) :
    (if key ∈ keys then keys else keys ++ [key]).Nodup := by
  split_ifs with hkey
  · exact h
  · exact h.append (List.nodup_singleton _) (List.disjoint_singleton.2 hkey)

theorem nodup_layer_ordered {entries : List LayerEntry}
    (h : (entries.map LayerEntry.layer).Nodup) :
    ((ordered entries).map LayerEntry.layer).Nodup :=
  ((sortBy_perm _ entries).map _).nodup_iff.2 h

end LayerOverrides
