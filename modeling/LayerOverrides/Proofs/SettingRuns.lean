import LayerOverrides.Proofs.SettingSets
import LayerOverrides.Proofs.ValueSpellings
import Mathlib.Data.List.Induction
import Mathlib.Tactic.SplitIfs

/-!
# Runs of operations on a set of settings

An operation puts in a value, of the kind that its key has already, or takes its key out, or does
nothing (`apply_cases`).  So the other settings stay as they are and in their order
(`others_apply`), the keys gain at most the key of the operation, at the end (`keys_apply`), and
only a removal ends the kind of a key (`exists_get?_run`).

In a run from the empty set the keys therefore stand in the order in which they last came in, for
a key that is removed comes in anew, behind the others (`orderly_run`).
-/

namespace LayerOverrides

namespace SettingSet

/-- What can be done to a key of a set. -/
inductive Operation where
  | create (key : String) (kind : Setting.Kind)
  | set (key : String) (value : Setting.Value)
  | load (key : String) (node : Json)
  | remove (key : String)

def Operation.key : Operation → String
  | .create key _ => key
  | .set key _ => key
  | .load key _ => key
  | .remove key => key

/-- A set that refuses a value stays as it is. -/
def apply (s : SettingSet) : Operation → SettingSet
  | .create key kind => s.create key kind
  | .set key value =>
    match s.set key value with
    | .ok t => t
    | .error _ => s
  | .load key node => s.load key node
  | .remove key => s.remove key

def run (s : SettingSet) (operations : List Operation) : SettingSet := operations.foldl apply s

theorem run_append (s : SettingSet) (operations more : List Operation) :
    s.run (operations ++ more) = (s.run operations).run more :=
  List.foldl_append

/-! ## One operation -/

theorem keys_remove (s : SettingSet) (key : String) :
    (s.remove key).keys = s.keys.filter fun k => k ≠ key := by
  rw [keys, keys, List.filter_map]
  rfl

theorem get?_remove (s : SettingSet) (key key' : String) :
    (s.remove key).get? key' = if key' = key then none else s.get? key' := by
  ext v
  rw [get?_eq_some_iff, remove, List.mem_filter, ← get?_eq_some_iff]
  split_ifs with h <;> simp [h]

theorem set_eq_error_iff {s : SettingSet} {key : String} {value : Setting.Value}
    {e : Setting.Mismatch} : s.set key value = .error e ↔
      ∃ old, s.get? key = some old ∧ old.kind ≠ value.kind ∧
        e = ⟨key, old.kind, value.kind⟩ := by
  unfold set
  rcases s.get? key with _ | old
  · simp
  · by_cases h : old.kind = value.kind
    · simp [h]
    · simp only [if_neg h, Except.error.injEq]
      constructor
      · rintro rfl
        exact ⟨old, rfl, h, rfl⟩
      · rintro ⟨old', hold, -, rfl⟩
        rw [Option.some.inj hold]

theorem set_eq_ok {s t : SettingSet} {key : String} {value : Setting.Value}
    (h : s.set key value = .ok t) :
    t = s.put key value ∧ ∀ old, s.get? key = some old → value.kind = old.kind := by
  unfold set at h
  split at h
  · rename_i hnone
    cases h
    exact ⟨rfl, fun old hold => by simp [hnone] at hold⟩
  · rename_i old hold
    split_ifs at h with hkind
    cases h
    refine ⟨rfl, fun old' hold' => ?_⟩
    rw [← Option.some.inj (hold.symm.trans hold'), hkind]

theorem loads?_eq_some_iff {s : SettingSet} {key : String} {node : Json} {b : Bool} :
    s.loads? key node = some b ↔ ∃ old, s.get? key = some old ∧ old.loads node = b := by
  rw [loads?, Option.map_eq_some_iff]
  rfl

/-- Everything that an operation can do to a set. -/
theorem apply_cases (s : SettingSet) (o : Operation) :
    s.apply o = s ∨
      (∃ v, s.apply o = s.put o.key v ∧ ∀ old, s.get? o.key = some old → v.kind = old.kind) ∨
      o = .remove o.key ∧ s.apply o = s.remove o.key := by
  cases o with
  | create key kind =>
    rcases h : s.get? key with _ | old
    · refine .inr (.inl ⟨kind.empty, create_of_get?_none h kind, fun old hold => ?_⟩)
      rw [Operation.key, h] at hold
      cases hold
    · exact .inl (create_of_get? h kind)
  | set key value =>
    rcases h : s.set key value with e | t
    · exact .inl (by simp only [apply, h])
    · obtain ⟨rfl, hkind⟩ := set_eq_ok h
      exact .inr (.inl ⟨value, by simp only [apply, h]; rfl, hkind⟩)
  | load key node =>
    rcases h : s.get? key with _ | old
    · exact .inl (by simp only [apply, load, h])
    · refine .inr (.inl ⟨old.load node, load_of_get? h node, fun old' hold' => ?_⟩)
      rw [Operation.key, h] at hold'
      rw [Setting.kind_load, Option.some.inj hold']
  | remove key => exact .inr (.inr ⟨rfl, rfl⟩)

theorem filter_putIn (key : String) (value : Setting.Value) : ∀ settings : List Setting,
    (Setting.putIn key value settings).filter (fun e => e.key ≠ key) =
      settings.filter fun e => e.key ≠ key
  | [] => by simp [Setting.putIn]
  | e :: settings => by
    unfold Setting.putIn
    split_ifs with h
    · simp [h]
    · rw [List.filter_cons_of_pos (by simpa using h), List.filter_cons_of_pos (by simpa using h),
        filter_putIn key value settings]

/-- The settings of other keys keep their values and their order. -/
theorem others_apply (s : SettingSet) (o : Operation) :
    (s.apply o).settings.filter (fun e => e.key ≠ o.key) =
      s.settings.filter fun e => e.key ≠ o.key := by
  rcases apply_cases s o with h | ⟨v, h, -⟩ | ⟨-, h⟩
  · rw [h]
  · rw [h]
    exact filter_putIn o.key v s.settings
  · rw [h, remove, List.filter_filter]
    simp only [Bool.and_self]

/-- No operation moves a key, and a new one comes last. -/
theorem keys_apply (s : SettingSet) (o : Operation) :
    (s.apply o).keys.Sublist s.keys ∨ o.key ∉ s.keys ∧ (s.apply o).keys = s.keys ++ [o.key] := by
  rcases apply_cases s o with h | ⟨v, h, -⟩ | ⟨-, h⟩
  · rw [h]
    exact .inl (List.Sublist.refl _)
  · rw [h, keys_put]
    split_ifs with hkey
    · exact .inl (List.Sublist.refl _)
    · exact .inr ⟨hkey, rfl⟩
  · rw [h, keys_remove]
    exact .inl List.filter_sublist

theorem exists_get?_apply {s : SettingSet} {o : Operation} {key : String} {v : Setting.Value}
    (ho : o ≠ .remove key) (hv : s.get? key = some v) :
    ∃ w, (s.apply o).get? key = some w ∧ w.kind = v.kind := by
  rcases apply_cases s o with h | ⟨w, h, hkind⟩ | ⟨hremove, h⟩
  · exact ⟨v, by rw [h, hv], rfl⟩
  · rw [h, get?_put]
    split_ifs with hkey
    · exact ⟨w, rfl, hkind v (hkey ▸ hv)⟩
    · exact ⟨v, hv, rfl⟩
  · have hne : key ≠ o.key := by
      rintro rfl
      exact ho hremove
    rw [h, get?_remove, if_neg hne]
    exact ⟨v, hv, rfl⟩

/-- What holds of a set whatever is done to it next: `create` changes nothing if the key is there,
`set` fails exactly if the key has a value of another kind, and what is refused or not read leaves
the set as it is. -/
structure StepLaws (s : SettingSet) : Prop where
  others : ∀ o : Operation, (s.apply o).settings.filter (fun e => e.key ≠ o.key) =
    s.settings.filter fun e => e.key ≠ o.key
  create_old : ∀ {key}, key ∈ s.keys → ∀ kind, s.create key kind = s
  create_new : ∀ {key}, key ∉ s.keys → ∀ kind,
    (s.create key kind).get? key = some kind.empty
  set_error : ∀ {key value e}, s.set key value = .error e ↔ ∃ old, s.get? key = some old ∧
    old.kind ≠ value.kind ∧ e = ⟨key, old.kind, value.kind⟩
  set_refused : ∀ {key value e}, s.set key value = .error e → s.apply (.set key value) = s
  set_taken : ∀ {key value t}, s.set key value = .ok t → t.get? key = some value
  load_unread : ∀ {key node}, s.loads? key node = some false → s.load key node = s
  load_read : ∀ {key node}, s.loads? key node = some true →
    ∃ v, (s.load key node).get? key = some v ∧ Setting.Spells node v
  load_none : ∀ {key node}, s.loads? key node = none ↔ key ∉ s.keys
  load_absent : ∀ {key}, key ∉ s.keys → ∀ node, s.load key node = s
  removed : ∀ key, key ∉ (s.remove key).keys

theorem stepLaws (s : SettingSet) : s.StepLaws where
  others := others_apply s
  create_old {key} hkey kind := by
    obtain ⟨v, hv⟩ := Option.isSome_iff_exists.1 (isSome_get?.2 hkey)
    exact create_of_get? hv kind
  create_new {key} hkey kind := by
    rw [create_of_get?_none (get?_eq_none_iff.2 hkey), get?_put_self]
  set_error := set_eq_error_iff
  set_refused {key value e} h := by simp only [apply, h]
  set_taken {key value t} h := by rw [(set_eq_ok h).1, get?_put_self]
  load_unread {key node} h := by
    obtain ⟨old, hold, hread⟩ := loads?_eq_some_iff.1 h
    rw [load_of_get? hold, Setting.Value.load_of_not_loads hread, put_of_get? hold]
  load_read {key node} h := by
    obtain ⟨old, hold, hread⟩ := loads?_eq_some_iff.1 h
    refine ⟨old.load node, ?_, Setting.Value.spells_load hread⟩
    rw [load_of_get? hold, get?_put_self]
  load_none {key node} := by rw [loads?, Option.map_eq_none_iff, get?_eq_none_iff]
  load_absent {key} hkey node := by rw [load, get?_eq_none_iff.2 hkey]
  removed key := by simp [keys_remove]

/-! ## Runs -/

theorem exists_get?_run {key : String} : ∀ (operations : List Operation) {s : SettingSet}
    {v : Setting.Value}, .remove key ∉ operations → s.get? key = some v →
      ∃ w, (s.run operations).get? key = some w ∧ w.kind = v.kind
  | [], s, v, _, hv => ⟨v, hv, rfl⟩
  | o :: operations, s, v, hn, hv => by
    obtain ⟨ho, hn⟩ := not_or.1 (mt List.mem_cons.2 hn)
    obtain ⟨w, hw, hkind⟩ := exists_get?_apply (Ne.symm ho) hv
    obtain ⟨w', hw', hkind'⟩ := exists_get?_run operations hn hw
    exact ⟨w', hw', hkind'.trans hkind⟩

/-- The operation with this number, in a run from the empty set, brings in the key. -/
def ComesIn (operations : List Operation) (i : Nat) (key : String) : Prop :=
  key ∉ (empty.run (operations.take i)).keys ∧ key ∈ (empty.run (operations.take (i + 1))).keys

/-- The key comes in there for the last time. -/
def ComesInLast (operations : List Operation) (i : Nat) (key : String) : Prop :=
  ComesIn operations i key ∧ ∀ j, i < j → ¬ ComesIn operations j key

theorem lt_of_comesIn {operations : List Operation} {i : Nat} {key : String}
    (h : ComesIn operations i key) : i < operations.length := by
  by_contra hi
  obtain ⟨hbefore, hafter⟩ := h
  rw [List.take_of_length_le (by omega)] at hbefore hafter
  exact hbefore hafter

theorem le_of_comesIn_concat {operations : List Operation} {o : Operation} {i : Nat}
    {key : String} (h : ComesIn (operations ++ [o]) i key) : i ≤ operations.length := by
  have hlt := lt_of_comesIn h
  rw [List.length_append, List.length_singleton] at hlt
  omega

theorem comesIn_concat_of_lt {operations : List Operation} {i : Nat} (hi : i < operations.length)
    (o : Operation) (key : String) :
    ComesIn (operations ++ [o]) i key ↔ ComesIn operations i key := by
  rw [ComesIn, ComesIn, List.take_append_of_le_length (by omega),
    List.take_append_of_le_length (by omega)]

theorem comesIn_concat_length {operations : List Operation} {o : Operation} {key : String} :
    ComesIn (operations ++ [o]) operations.length key ↔
      key ∉ (empty.run operations).keys ∧ key ∈ ((empty.run operations).apply o).keys := by
  have hall : (operations ++ [o]).take (operations.length + 1) = operations ++ [o] :=
    List.take_of_length_le (by simp)
  rw [ComesIn, List.take_left, hall, run_append]
  rfl

/-- One more operation does not bring in a key that is there. -/
theorem comesIn_concat {operations : List Operation} {key : String}
    (hkey : key ∈ (empty.run operations).keys) (o : Operation) (i : Nat) :
    ComesIn (operations ++ [o]) i key ↔ ComesIn operations i key := by
  rcases Nat.lt_trichotomy i operations.length with hi | rfl | hi
  · exact comesIn_concat_of_lt hi o key
  · rw [comesIn_concat_length]
    exact ⟨fun h => absurd hkey h.1, fun h => absurd (lt_of_comesIn h) (by omega)⟩
  · exact ⟨fun h => absurd (le_of_comesIn_concat h) (by omega),
      fun h => absurd (lt_of_comesIn h) (by omega)⟩

theorem comesInLast_concat {operations : List Operation} {key : String}
    (hkey : key ∈ (empty.run operations).keys) (o : Operation) (i : Nat) :
    ComesInLast (operations ++ [o]) i key ↔ ComesInLast operations i key := by
  simp only [ComesInLast, comesIn_concat hkey]

theorem comesInLast_concat_of_new {operations : List Operation} {o : Operation} {key : String}
    (hbefore : key ∉ (empty.run operations).keys)
    (hafter : key ∈ ((empty.run operations).apply o).keys) {i : Nat} :
    ComesInLast (operations ++ [o]) i key ↔ i = operations.length := by
  have hnow : ComesIn (operations ++ [o]) operations.length key :=
    comesIn_concat_length.2 ⟨hbefore, hafter⟩
  constructor
  · rintro ⟨hin, hlast⟩
    have hle := le_of_comesIn_concat hin
    by_contra hne
    exact hlast operations.length (by omega) hnow
  · rintro rfl
    refine ⟨hnow, fun j hj h => ?_⟩
    have hle := le_of_comesIn_concat h
    omega

/-- The keys come in at all, and one in front of another has last come in before it. -/
structure InOrder (operations : List Operation) (keys : List String) : Prop where
  comesIn : ∀ key ∈ keys, ∃ i, ComesInLast operations i key
  before : keys.Pairwise fun a b => ∀ i j, ComesInLast operations i a →
    ComesInLast operations j b → i < j

theorem InOrder.concat {operations : List Operation}
    (h : InOrder operations (empty.run operations).keys) (o : Operation) :
    InOrder (operations ++ [o]) (empty.run operations).keys where
  comesIn key hkey := by
    obtain ⟨i, hi⟩ := h.comesIn key hkey
    exact ⟨i, (comesInLast_concat hkey o i).2 hi⟩
  before := by
    refine h.before.imp_of_mem fun {a b} ha hb hab i j hi hj => ?_
    rw [comesInLast_concat ha] at hi
    rw [comesInLast_concat hb] at hj
    exact hab i j hi hj

theorem InOrder.sublist {operations : List Operation} {keys keys' : List String}
    (h : InOrder operations keys) (hs : keys'.Sublist keys) : InOrder operations keys' where
  comesIn key hkey := h.comesIn key (hs.subset hkey)
  before := h.before.sublist hs

theorem inOrder_run (operations : List Operation) :
    InOrder operations (empty.run operations).keys := by
  -- By the last operation: it leaves the numbers of the keys that are there as they are, and the
  -- key that it brings in has the highest number.
  induction operations using List.reverseRecOn with
  | nil => exact ⟨by simp [run, empty, keys], by simp [run, empty, keys]⟩
  | append_singleton operations o ih =>
    have hrun : empty.run (operations ++ [o]) = (empty.run operations).apply o :=
      run_append empty operations [o]
    have hold := ih.concat o
    rw [hrun]
    rcases keys_apply (empty.run operations) o with hs | ⟨hnew, hkeys⟩
    · exact hold.sublist hs
    · have hafter : o.key ∈ ((empty.run operations).apply o).keys := by simp [hkeys]
      have hlast : ∀ i, ComesInLast (operations ++ [o]) i o.key ↔ i = operations.length :=
        fun _ => comesInLast_concat_of_new hnew hafter
      rw [hkeys]
      constructor
      · intro key hkey
        rcases List.mem_append.1 hkey with hkey | hkey
        · exact hold.comesIn key hkey
        · rw [List.mem_singleton.1 hkey]
          exact ⟨_, (hlast _).2 rfl⟩
      · refine List.pairwise_append.2 ⟨hold.before, List.pairwise_singleton _ _, ?_⟩
        intro a ha b hb i j hi hj
        rw [List.mem_singleton.1 hb, hlast] at hj
        rw [comesInLast_concat ha] at hi
        have hlt := lt_of_comesIn hi.1
        omega

/-- What holds after a run from the empty set: each key is there once, the keys are in the order
in which they last came in, a key keeps its kind for as long as it is not removed, and the laws of
a single operation hold. -/
structure Orderly (operations : List Operation) : Prop where
  distinct : (empty.run operations).keys.Nodup
  inOrder : InOrder operations (empty.run operations).keys
  kind : ∀ {more key v}, .remove key ∉ more → (empty.run operations).get? key = some v →
    ∃ w, (empty.run (operations ++ more)).get? key = some w ∧ w.kind = v.kind
  next : (empty.run operations).StepLaws

/-- Whatever is done to a set that was empty, one operation after another. -/
theorem orderly_run (operations : List Operation) : Orderly operations where
  distinct := (empty.run operations).nodup
  inOrder := inOrder_run operations
  kind {more key v} hn hv := by
    rw [run_append]
    exact exists_get?_run more hn hv
  next := stepLaws _

end SettingSet

end LayerOverrides
