import LayerOverrides.Json.Reader
import Mathlib.Tactic.SplitIfs

/-!
# JSON values with sorted objects

The members of an object are meant to stand in ascending order of their keys, each key once.  That
is what reading a text yields (`sorted_of_ofText?`): the machine that puts tokens together only
ever adds to an object by `insertMember`, which keeps the order.
-/

namespace LayerOverrides

namespace Json

mutual

/-- Whether each object in a value has its members in ascending order, each key once. -/
def sorted : Json → Bool
  | .array items => sortedItems items
  | .object members => sortedMembers members
  | _ => true

def sortedItems : List Json → Bool
  | [] => true
  | a :: l => a.sorted && sortedItems l

def sortedMembers : List (String × Json) → Bool
  | [] => true
  | (key, a) :: l => l.all (fun m => key < m.1) && a.sorted && sortedMembers l

end

theorem sortedItems_eq_all : ∀ l : List Json, sortedItems l = l.all sorted
  | [] => rfl
  | a :: l => by rw [sortedItems, List.all_cons, sortedItems_eq_all l]

theorem sortedMembers_cons_iff {key : String} {a : Json} {l : Members} :
    sortedMembers ((key, a) :: l) = true ↔
      (∀ m ∈ l, key < m.1) ∧ a.sorted = true ∧ sortedMembers l = true := by
  simp only [sortedMembers, Bool.and_eq_true, List.all_eq_true, decide_eq_true_eq, and_assoc]

theorem nodup_of_sortedMembers : ∀ {members : Members}, sortedMembers members = true →
    (members.map Prod.fst).Nodup
  | [], _ => .nil
  | (key, a) :: l, h => by
    obtain ⟨hlt, -, hl⟩ := sortedMembers_cons_iff.1 h
    refine List.nodup_cons.2 ⟨fun hmem => ?_, nodup_of_sortedMembers hl⟩
    obtain ⟨m, hm, hkey⟩ := List.mem_map.1 hmem
    exact String.lt_irrefl m.1 (hkey.symm ▸ hlt m hm)

theorem sorted_of_mem : ∀ {members : Members}, sortedMembers members = true →
    ∀ {m : String × Json}, m ∈ members → m.2.sorted = true
  | (key, a) :: l, h, m, hm => by
    obtain ⟨-, ha, hl⟩ := sortedMembers_cons_iff.1 h
    rcases List.mem_cons.1 hm with rfl | hm
    · exact ha
    · exact sorted_of_mem hl hm

theorem key_of_mem_insertMember {key : String} {value : Json} : ∀ {members : Members}
    {m : String × Json}, m ∈ insertMember key value members → m.1 = key ∨ m ∈ members
  | [], m, h => by
    rw [insertMember, List.mem_singleton] at h
    exact .inl (h ▸ rfl)
  | (key', value') :: l, m, h => by
    unfold insertMember at h
    split at h
    · rcases List.mem_cons.1 h with rfl | h
      · exact .inl rfl
      · exact .inr (List.mem_cons_of_mem _ h)
    · split at h
      · rcases List.mem_cons.1 h with rfl | h
        · exact .inl rfl
        · exact .inr h
      · rcases List.mem_cons.1 h with rfl | h
        · exact .inr List.mem_cons_self
        · exact (key_of_mem_insertMember h).imp_right (List.mem_cons_of_mem _)

theorem sortedMembers_insertMember {key : String} {value : Json} (hv : value.sorted = true) :
    ∀ {members : Members}, sortedMembers members = true →
      sortedMembers (insertMember key value members) = true
  | [], _ => by simp [insertMember, sortedMembers, hv]
  | (key', value') :: l, h => by
    obtain ⟨hlt, hv', hl⟩ := sortedMembers_cons_iff.1 h
    unfold insertMember
    split
    · rename_i heq
      exact sortedMembers_cons_iff.2 ⟨heq ▸ hlt, hv, hl⟩
    · split
      · rename_i hkey
        refine sortedMembers_cons_iff.2 ⟨fun m hm => ?_, hv, h⟩
        rcases List.mem_cons.1 hm with rfl | hm
        · exact hkey
        · exact String.lt_trans hkey (hlt m hm)
      · rename_i hne hnlt
        have hkey : key' < key := by
          exact String.not_le.1 fun hle => hne (String.le_antisymm hle (String.not_lt.1 hnlt))
        refine sortedMembers_cons_iff.2 ⟨fun m hm => ?_, hv', sortedMembers_insertMember hv hl⟩
        rcases key_of_mem_insertMember hm with hm | hm
        · exact hm ▸ hkey
        · exact hlt m hm

/-! ## Values from texts -/

theorem foldlM_preserves {σ α : Type} {step : σ → α → Option σ} {P : σ → Prop} {Q : α → Prop}
    (hstep : ∀ s a s', Q a → step s a = some s' → P s → P s') :
    ∀ (l : List α) {s s' : σ}, (∀ a ∈ l, Q a) → l.foldlM step s = some s' → P s → P s'
  | [], s, s', _, h, hs => Option.some.inj h ▸ hs
  | a :: l, s, s', hl, h, hs => by
    rw [List.foldlM_cons] at h
    obtain ⟨s₁, h₁, h⟩ := Option.bind_eq_some_iff.1 h
    exact foldlM_preserves hstep l (fun b hb => hl b (List.mem_cons_of_mem _ hb)) h
      (hstep s a s₁ (hl a List.mem_cons_self) h₁ hs)

namespace Token

/-- The value of a token is sorted; a scalar holds no object. -/
def Sorted : Token → Prop
  | .scalar value => value.sorted = true
  | _ => True

theorem sorted_of_ofBracket? {c : Char} {token : Token} (h : ofBracket? c = some token) :
    token.Sorted := by
  unfold ofBracket? at h
  split at h <;> cases h <;> trivial

theorem sorted_of_ofWord? {word : List Char} {token : Token} (h : ofWord? word = some token) :
    token.Sorted := by
  unfold ofWord? at h
  split_ifs at h
  · exact Option.some.inj h ▸ rfl
  · exact Option.some.inj h ▸ rfl
  · exact Option.some.inj h ▸ rfl
  · obtain ⟨n, -, rfl⟩ := Option.map_eq_some_iff.1 h
    rfl

theorem sorted_start {tokens : List Token} (h : ∀ token ∈ tokens, token.Sorted) (c : Char) :
    ∀ token ∈ (start tokens c).2, token.Sorted := by
  unfold start
  split_ifs
  · exact h
  · exact h
  · split
    · rename_i token hc
      exact List.forall_mem_cons.2 ⟨sorted_of_ofBracket? hc, h⟩
    · exact h

theorem sorted_step {st st' : State × List Token} {c : Char} (h : step st c = some st')
    (hs : ∀ token ∈ st.2, token.Sorted) : ∀ token ∈ st'.2, token.Sorted := by
  unfold step at h
  split at h
  · exact Option.some.inj h ▸ sorted_start hs c
  · split_ifs at h
    · obtain ⟨token, hword, rfl⟩ := Option.map_eq_some_iff.1 h
      exact sorted_start (List.forall_mem_cons.2 ⟨sorted_of_ofWord? hword, hs⟩) c
    · exact Option.some.inj h ▸ hs
  · split_ifs at h
    · exact Option.some.inj h ▸ List.forall_mem_cons.2 ⟨trivial, hs⟩
    · exact Option.some.inj h ▸ hs
    · exact Option.some.inj h ▸ hs
  · split_ifs at h
    · exact Option.some.inj h ▸ hs
    · obtain ⟨d, -, rfl⟩ := Option.map_eq_some_iff.1 h
      exact hs
  · obtain ⟨digit, -, h⟩ := Option.bind_eq_some_iff.1 h
    split_ifs at h
    · obtain ⟨state, -, rfl⟩ := Option.map_eq_some_iff.1 h
      exact hs
    · exact Option.some.inj h ▸ hs
  · split_ifs at h
    exact Option.some.inj h ▸ hs
  · split_ifs at h
    exact Option.some.inj h ▸ hs

theorem sorted_of_scan {s : List Char} {tokens : List Token} (h : scan s = some tokens) :
    ∀ token ∈ tokens, token.Sorted := by
  obtain ⟨st, hfold, hfinish⟩ := Option.bind_eq_some_iff.1 h
  have hs : ∀ token ∈ st.2, token.Sorted :=
    foldlM_preserves (P := fun st => ∀ token ∈ st.2, token.Sorted) (Q := fun _ => True)
      (fun _ _ _ _ h => sorted_step h) s (fun _ _ => trivial) hfold (by simp)
  unfold finish at hfinish
  split at hfinish
  · obtain rfl := Option.some.inj hfinish
    exact fun token ht => hs token (List.mem_reverse.1 ht)
  · obtain ⟨token', hword, rfl⟩ := Option.map_eq_some_iff.1 hfinish
    intro token ht
    rcases List.mem_cons.1 (List.mem_reverse.1 ht) with rfl | ht
    · exact sorted_of_ofWord? hword
    · exact hs token ht
  · cases hfinish

end Token

/-- What an open container holds is sorted. -/
def Frame.Sorted : Frame → Prop
  | .array latest => sortedItems latest = true
  | .object members _ => sortedMembers members = true

namespace Reader

/-- All that the machine holds is sorted. -/
def State.Sorted : State → Prop
  | .value frames => ∀ f ∈ frames, f.Sorted
  | .firstItem frames => ∀ f ∈ frames, f.Sorted
  | .nextItem latest frames => sortedItems latest = true ∧ ∀ f ∈ frames, f.Sorted
  | .firstKey frames => ∀ f ∈ frames, f.Sorted
  | .key members frames => sortedMembers members = true ∧ ∀ f ∈ frames, f.Sorted
  | .colon members _ frames => sortedMembers members = true ∧ ∀ f ∈ frames, f.Sorted
  | .nextMember members frames => sortedMembers members = true ∧ ∀ f ∈ frames, f.Sorted
  | .done root => root.sorted = true

theorem sorted_complete {value : Json} (hv : value.sorted = true) : ∀ {frames : List Frame},
    (∀ f ∈ frames, f.Sorted) → (complete value frames).Sorted
  | [], _ => hv
  | .array latest :: frames, h => by
    obtain ⟨hf, hs⟩ := List.forall_mem_cons.1 h
    have hitems : sortedItems (value :: latest) = true := by
      rw [sortedItems, hv, Bool.true_and]
      exact hf
    exact ⟨hitems, hs⟩
  | .object members key :: frames, h => by
    obtain ⟨hf, hs⟩ := List.forall_mem_cons.1 h
    exact ⟨sortedMembers_insertMember hv hf, hs⟩

theorem sorted_begin {frames : List Frame} (h : ∀ f ∈ frames, f.Sorted) {token : Token}
    (ht : token.Sorted) {st : State} (hb : begin frames token = some st) : st.Sorted := by
  unfold begin at hb
  split at hb
  · split_ifs at hb
    exact Option.some.inj hb ▸ h
  · split_ifs at hb
    exact Option.some.inj hb ▸ h
  · exact Option.some.inj hb ▸ sorted_complete rfl h
  · exact Option.some.inj hb ▸ sorted_complete ht h
  · cases hb

theorem sorted_step {st st' : State} {token : Token} (ht : token.Sorted)
    (h : step st token = some st') (hs : st.Sorted) : st'.Sorted := by
  unfold step at h
  split at h
  · exact sorted_begin hs ht h
  · exact Option.some.inj h ▸ sorted_complete rfl hs
  · have hframe : (Frame.array []).Sorted := rfl
    exact sorted_begin (List.forall_mem_cons.2 ⟨hframe, hs⟩) ht h
  · obtain rfl := Option.some.inj h
    exact List.forall_mem_cons.2 hs
  · rename_i latest frames
    have harray : (Json.array latest.reverse).sorted = true := by
      rw [sorted, sortedItems_eq_all, List.all_reverse, ← sortedItems_eq_all]
      exact hs.1
    exact Option.some.inj h ▸ sorted_complete harray hs.2
  · exact Option.some.inj h ▸ sorted_complete rfl hs
  · obtain rfl := Option.some.inj h
    exact ⟨rfl, hs⟩
  · exact Option.some.inj h ▸ hs
  · obtain rfl := Option.some.inj h
    exact List.forall_mem_cons.2 hs
  · exact Option.some.inj h ▸ hs
  · rename_i members frames
    have hobject : (Json.object members).sorted = true := hs.1
    exact Option.some.inj h ▸ sorted_complete hobject hs.2
  · cases h

end Reader

theorem sorted_of_ofTokens? {tokens : List Token} (ht : ∀ token ∈ tokens, token.Sorted)
    {value : Json} (h : ofTokens? tokens = some value) : value.sorted = true := by
  obtain ⟨st, hfold, hfinish⟩ := Option.bind_eq_some_iff.1 h
  have hs : st.Sorted := foldlM_preserves (fun _ _ _ ht h => Reader.sorted_step ht h) tokens ht
    hfold (List.forall_mem_nil _)
  unfold Reader.finish at hfinish
  split at hfinish
  · exact Option.some.inj hfinish ▸ hs
  · cases hfinish

/-- What a text is read as has the members of all objects in order. -/
theorem sorted_of_ofText? {s : List Char} {value : Json} (h : ofText? s = some value) :
    value.sorted = true := by
  obtain ⟨tokens, hscan, hvalue⟩ := Option.bind_eq_some_iff.1 h
  exact sorted_of_ofTokens? (Token.sorted_of_scan hscan) hvalue

end Json

end LayerOverrides
