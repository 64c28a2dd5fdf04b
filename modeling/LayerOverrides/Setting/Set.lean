import LayerOverrides.Setting.Value
/-!
# Sets of settings

A set holds one value for each of its keys, in the order in which the keys came in. The kind of a
key stays that of its first value: [SettingSet.create] keeps what is there, and [SettingSet.set]
refuses a value of another kind. [keys_put] says where a key comes in.
-/

namespace LayerOverrides

structure Setting where
  key : String
  value : Setting.Value
  deriving DecidableEq

/-- A value of one kind is offered to a key of another. -/
structure Setting.Mismatch where
  key : String
  expected : Setting.Kind
  given : Setting.Kind
  deriving DecidableEq

/-- The value takes the place of the one that its key has, or comes last with its key. -/
def Setting.putIn (key : String) (value : Setting.Value) : List Setting → List Setting
  | [] => [⟨key, value⟩]
  | s :: settings =>
    if s.key = key then ⟨key, value⟩ :: settings else s :: putIn key value settings

theorem Setting.keys_putIn (key : String) (value : Setting.Value) (settings : List Setting) :
    (putIn key value settings).map Setting.key =
      if key ∈ settings.map Setting.key then settings.map Setting.key
      else settings.map Setting.key ++ [key] := by
  induction settings with
  | nil => rfl
  | cons s settings ih =>
    unfold putIn
    by_cases h : s.key = key
    · simp [h]
    · rw [if_neg h, List.map_cons, ih, List.map_cons]
      by_cases hk : key ∈ settings.map Setting.key
      · rw [if_pos hk, if_pos (List.mem_cons_of_mem _ hk)]
      · have hk' : key ∉ s.key :: settings.map Setting.key := by
          rw [List.mem_cons]
          rintro (rfl | hm)
          · exact h rfl
          · exact hk hm
        rw [if_neg hk, if_neg hk', List.cons_append]

theorem Setting.nodup_putIn {key : String} {value : Setting.Value} {settings : List Setting}
    (h : (settings.map Setting.key).Nodup) :
    ((putIn key value settings).map Setting.key).Nodup := by
  rw [keys_putIn]
  split
  · exact h
  · rename_i hk
    refine List.nodup_append.2 ⟨h, by simp, ?_⟩
    intro a ha b hb
    rw [List.mem_singleton] at hb
    rintro rfl
    exact hk (hb ▸ ha)

structure SettingSet where
  settings : List Setting
  nodup : (settings.map Setting.key).Nodup
  deriving DecidableEq

namespace SettingSet

def empty : SettingSet := ⟨[], by simp⟩

def keys (s : SettingSet) : List String := s.settings.map Setting.key

def get? (s : SettingSet) (key : String) : Option Setting.Value :=
  (s.settings.find? fun e => e.key == key).map Setting.value

def contains (s : SettingSet) (key : String) : Bool := s.settings.any fun e => e.key == key

/-- The value for a key, whatever was there before. -/
def put (s : SettingSet) (key : String) (value : Setting.Value) : SettingSet :=
  ⟨Setting.putIn key value s.settings, Setting.nodup_putIn s.nodup⟩

/-- A new key gets the empty value of the kind; a key that is there stays as it is. -/
def create (s : SettingSet) (key : String) (kind : Setting.Kind) : SettingSet :=
  if s.contains key then s else s.put key kind.empty

/-- The value for a key that is new or has a value of the same kind. -/
def set (s : SettingSet) (key : String) (value : Setting.Value) :
    Except Setting.Mismatch SettingSet :=
  match s.get? key with
  | none => .ok (s.put key value)
  | some old =>
    if old.kind = value.kind then .ok (s.put key value) else .error ⟨key, old.kind, value.kind⟩

/-- Reads a node into the value of a key, if there is one and the node spells its kind. -/
def load (s : SettingSet) (key : String) (node : Json) : SettingSet :=
  match s.get? key with
  | some old => s.put key (old.load node)
  | none => s

/-- Whether [load] reads a node; there is no answer for a key that is not there. -/
def loads? (s : SettingSet) (key : String) (node : Json) : Option Bool :=
  (s.get? key).map fun old => (old.kind.read? node).isSome

def remove (s : SettingSet) (key : String) : SettingSet :=
  ⟨s.settings.filter fun e => e.key ≠ key,
    s.nodup.sublist (List.filter_sublist.map _)⟩

theorem keys_put (s : SettingSet) (key : String) (value : Setting.Value) :
    (s.put key value).keys = if key ∈ s.keys then s.keys else s.keys ++ [key] :=
  Setting.keys_putIn key value s.settings

theorem contains_eq_true_iff {s : SettingSet} {key : String} :
    s.contains key = true ↔ key ∈ s.keys := by
  simp [contains, keys]

end SettingSet

end LayerOverrides
