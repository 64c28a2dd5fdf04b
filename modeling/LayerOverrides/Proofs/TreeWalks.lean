import LayerOverrides.FileTree.Operations
import Mathlib.Data.List.Basic
import Mathlib.Data.List.TakeWhile

/-!
# Walks need nothing of a tree but its directories

A walk that succeeds stands in a directory at each of its segments, so it leads to the same
location in every tree that keeps these directories (`walk_of_keepsDirectories`), whatever becomes
of the files.  An operation on the last segment of a path that names an entry acts where the walk
of the whole path leads (`walk_of_target`).  Segments that stand for no component may be left out
of a walk (`eq_of_walk_idle`), so a path and the path of its sibling lead into one directory.
-/

namespace LayerOverrides

namespace FileName

theorem ofString?_eq_some {s : String} {n : FileName} : ofString? s = some n ↔ s = n.1 := by
  unfold ofString?
  split
  · simp [Subtype.ext_iff]
  · rename_i h
    simp only [reduceCtorEq, false_iff]
    rintro rfl
    exact h n.2

theorem ofString?_toSegment (n : FileName) : ofString? n.toSegment.1 = some n :=
  ofString?_eq_some.2 rfl

theorem toSegment_inj {m n : FileName} : m.toSegment = n.toSegment ↔ m = n := by
  rw [toSegment, toSegment, Subtype.mk.injEq, Subtype.ext_iff]

theorem toSegment_ne_dot (n : FileName) : n.toSegment ≠ .dot := fun h =>
  n.2.2.1 (congrArg Subtype.val h)

theorem toSegment_ne_dots (n : FileName) : n.toSegment ≠ .dots := fun h =>
  n.2.2.2.1 (congrArg Subtype.val h)

theorem toSegment_ne_empty (n : FileName) : n.toSegment ≠ .empty := fun h =>
  n.2.1 (congrArg Subtype.val h)

theorem isIdle_toSegment (n : FileName) : n.toSegment.isIdle = false := by
  simp [Path.Segment.isIdle, toSegment_ne_dot, toSegment_ne_empty]

end FileName

namespace FileTree

variable {t t' t'' : FileTree}

/-- Whatever is a directory in the first tree is one in the second. -/
def KeepsDirectories (t t' : FileTree) : Prop :=
  ∀ l, t.entryAt l = some .directory → t'.entryAt l = some .directory

theorem KeepsDirectories.trans (h : KeepsDirectories t t') (h' : KeepsDirectories t' t'') :
    KeepsDirectories t t'' := fun l hl => h' l (h l hl)

theorem enter_eq_ok {l l' : Location} :
    t.enter l = .ok l' ↔ t.entryAt l = some .directory ∧ l = l' := by
  unfold enter
  split <;> rename_i h <;> simp [h]

theorem step_eq_ok {l l' : Location} {s : Path.Segment} :
    t.step l s = .ok l' ↔ t.entryAt l = some .directory ∧
      if s.isIdle then l' = l
      else if s = .dots then l' = l.tail
      else ∃ n : FileName, n.toSegment = s ∧ l' = n :: l := by
  unfold step
  cases he : t.enter l with
  | error e =>
    have hne : t.entryAt l ≠ some .directory := fun hd => by
      rw [enter_eq_ok.2 ⟨hd, rfl⟩] at he
      exact absurd he (by simp)
    simp [hne]
  | ok m =>
    obtain ⟨hd, rfl⟩ := enter_eq_ok.1 he
    simp only [hd, true_and]
    split
    · simp [eq_comm]
    split
    · simp [eq_comm]
    split
    · rename_i n hn
      rw [FileName.ofString?_eq_some] at hn
      constructor
      · intro h
        exact ⟨n, Subtype.ext hn.symm, (Except.ok.inj h).symm⟩
      · rintro ⟨m, rfl, rfl⟩
        rw [show n = m from Subtype.ext hn.symm]
    · rename_i hn
      simp only [reduceCtorEq, false_iff, not_exists, not_and]
      rintro n rfl
      rw [FileName.ofString?_toSegment] at hn
      exact absurd hn (by simp)

theorem step_of_keepsDirectories (h : KeepsDirectories t t') {l l' : Location} {s : Path.Segment}
    (hs : t.step l s = .ok l') : t'.step l s = .ok l' := by
  rw [step_eq_ok] at hs ⊢
  exact ⟨h l hs.1, hs.2⟩

theorem walk_of_keepsDirectories (h : KeepsDirectories t t') :
    ∀ (segments : List Path.Segment) {l l' : Location}, t.walk l segments = .ok l' →
      t'.walk l segments = .ok l'
  | [], _, _, hw => hw
  | s :: segments, l, l', hw => by
    unfold walk at hw ⊢
    split at hw
    · rename_i m hs
      rw [step_of_keepsDirectories h hs]
      exact walk_of_keepsDirectories h segments hw
    · exact absurd hw (by simp)

theorem walk_append (t : FileTree) :
    ∀ (front : List Path.Segment) (l : Location) (rest : List Path.Segment),
      t.walk l (front ++ rest) = (t.walk l front).bind fun m => t.walk m rest
  | [], _, _ => rfl
  | s :: front, l, rest => by
    rw [List.cons_append, walk, walk]
    split
    · exact walk_append t front _ rest
    · rfl

/-- A walk of idle segments stays where it is. -/
theorem eq_of_walk_idle : ∀ {segments : List Path.Segment} {l l' : Location},
    (∀ s ∈ segments, s.isIdle) → t.walk l segments = .ok l' → l' = l
  | [], _, _, _, h => (Except.ok.inj h).symm
  | s :: segments, l, l', hidle, h => by
    unfold walk at h
    split at h
    · rename_i m hs
      rw [step_eq_ok, if_pos (hidle s (by simp))] at hs
      rw [← hs.2]
      exact eq_of_walk_idle (fun s hs => hidle s (by simp [hs])) h
    · exact absurd h (by simp)

theorem walk_idle {l : Location} (hd : t.entryAt l = some .directory) :
    ∀ {segments : List Path.Segment}, (∀ s ∈ segments, s.isIdle) → t.walk l segments = .ok l
  | [], _ => rfl
  | s :: segments, hidle => by
    have hs : t.step l s = .ok l := by
      rw [step_eq_ok, if_pos (hidle s List.mem_cons_self)]
      exact ⟨hd, rfl⟩
    simp only [walk, hs]
    exact walk_idle hd fun s' hs' => hidle s' (List.mem_cons_of_mem _ hs')

theorem walk_name {l : Location} (hd : t.entryAt l = some .directory) (n : FileName)
    (rest : List Path.Segment) : t.walk l (n.toSegment :: rest) = t.walk (n :: l) rest := by
  have hs : t.step l n.toSegment = .ok (n :: l) := by
    rw [step_eq_ok, n.isIdle_toSegment, if_neg (by simp), if_neg n.toSegment_ne_dots]
    exact ⟨hd, n, rfl, rfl⟩
  simp only [walk, hs]

theorem walk_singleton (t : FileTree) (l : Location) (s : Path.Segment) :
    t.walk l [s] = t.step l s := by
  unfold walk walk
  split <;> simp [*]

theorem step_congr {l : Location} (h : t'.entryAt l = t.entryAt l) (s : Path.Segment) :
    t'.step l s = t.step l s := by simp only [step, enter, h]

theorem walk_congr (h : ∀ l, t'.entryAt l = t.entryAt l) :
    ∀ (segments : List Path.Segment) (l : Location), t'.walk l segments = t.walk l segments
  | [], _ => rfl
  | s :: segments, l => by
    simp only [walk, step_congr (h l)]
    split
    · exact walk_congr h segments _
    · rfl

theorem walk_idle_congr {l : Location} (h : t'.entryAt l = t.entryAt l) :
    ∀ {segments : List Path.Segment}, (∀ s ∈ segments, s.isIdle) →
      t'.walk l segments = t.walk l segments
  | [], _ => rfl
  | s :: segments, hidle => by
    simp only [walk, step_congr h]
    split
    · rename_i m hs
      rw [step_eq_ok, if_pos (hidle s List.mem_cons_self)] at hs
      obtain ⟨-, rfl⟩ := hs
      exact walk_idle_congr h fun s' hs' => hidle s' (List.mem_cons_of_mem _ hs')
    · rfl

theorem find_eq_ok {p : Path} {l : Location} {e : Entry} :
    t.find p = .ok (l, e) ↔
      checkPath p = .ok () ∧ t.walk [] p.segments = .ok l ∧ t.entryAt l = some e := by
  constructor
  · intro h
    unfold find at h
    split at h
    · exact absurd h (by simp)
    rename_i hp
    split at h
    · exact absurd h (by simp)
    rename_i m hw
    split at h
    · rename_i e' he
      obtain ⟨rfl, rfl⟩ := Prod.mk.inj (Except.ok.inj h)
      exact ⟨hp, hw, he⟩
    · exact absurd h (by simp)
  · rintro ⟨hp, hw, he⟩
    unfold find
    simp only [hp, hw, he]

theorem find_of_keepsDirectories (h : KeepsDirectories t t') {p : Path} {l : Location}
    (hp : t.find p = .ok (l, .directory)) : t'.find p = .ok (l, .directory) := by
  rw [find_eq_ok] at hp ⊢
  obtain ⟨hcheck, hwalk, hd⟩ := hp
  exact ⟨hcheck, walk_of_keepsDirectories h _ hwalk, h l hd⟩

theorem find_congr (h : ∀ l, t'.entryAt l = t.entryAt l) (p : Path) : t'.find p = t.find p := by
  simp only [find, walk_congr h, h]

/-- What a path finds depends on the entry of its last name alone, once that name is looked for in
a directory that is kept. -/
theorem find_eq_of_front {p : Path} {front idle : List Path.Segment} {s : Path.Segment}
    {l : Location} (hp : p.segments = front ++ s :: idle) (hs : s.isIdle = false)
    (hdots : s ≠ .dots) (hidle : ∀ x ∈ idle, x.isIdle) (hwalk : t.walk [] front = .ok l)
    (hd : t.entryAt l = some .directory) (h : KeepsDirectories t t')
    (hentry : ∀ n : FileName, n.toSegment = s → t'.entryAt (n :: l) = t.entryAt (n :: l)) :
    t'.find p = t.find p := by
  have hl : t'.entryAt l = t.entryAt l := by rw [h l hd, hd]
  have hwalks : t'.walk [] p.segments = t.walk [] p.segments ∧
      ∀ m, t.walk [] p.segments = .ok m → t'.entryAt m = t.entryAt m := by
    rw [hp, walk_append, walk_append, hwalk, walk_of_keepsDirectories h _ hwalk]
    simp only [Except.bind, walk, step_congr hl]
    split
    · rename_i m hm
      rw [step_eq_ok, hs, if_neg (by simp), if_neg hdots] at hm
      obtain ⟨-, n, hn, rfl⟩ := hm
      refine ⟨walk_idle_congr (hentry n hn) hidle, fun m hm => ?_⟩
      rw [eq_of_walk_idle hidle hm]
      exact hentry n hn
    · simp
  obtain ⟨hwalks, hentries⟩ := hwalks
  unfold find
  rw [hwalks]
  cases hm : t.walk [] p.segments with
  | error e => rfl
  | ok m => simp only [hentries m hm]

theorem dropWhile_reverse_segments {p : Path} {front : List Path.Segment} {s : Path.Segment}
    (hp : p.segments = front ++ [s]) (hs : s ≠ .empty) :
    p.segments.reverse.dropWhile (· = .empty) = s :: front.reverse := by
  rw [hp, List.reverse_concat, List.dropWhile_cons_of_neg (by simpa using hs)]

theorem walk_bind_enter_eq_ok {front : List Path.Segment} {l : Location} :
    (t.walk [] front).bind t.enter = .ok l ↔
      t.walk [] front = .ok l ∧ t.entryAt l = some .directory := by
  cases t.walk [] front with
  | error e => simp [Except.bind]
  | ok m =>
    simp only [Except.bind, enter_eq_ok, Except.ok.injEq]
    constructor
    · rintro ⟨hd, rfl⟩
      exact ⟨rfl, hd⟩
    · rintro ⟨rfl, hd⟩
      exact ⟨hd, rfl⟩

/-- What is behind the name that an operation acts on are empty segments. -/
theorem exists_front_of_named {p : Path} {l : Location} {n : FileName} {slash : Bool}
    (h : t.target p = .ok (.named l n slash)) : checkPath p = .ok () ∧
      slash = decide (p.segments.getLast? = some .empty) ∧ ∃ front idle,
        p.segments = front ++ n.toSegment :: idle ∧ (∀ s ∈ idle, s = .empty) ∧
          t.walk [] front = .ok l ∧ t.entryAt l = some .directory := by
  unfold target at h
  split at h
  · exact absurd h (by simp)
  rename_i hp
  split at h
  · exact absurd h (by simp)
  rename_i last front hsegments
  split at h
  · exact absurd h (by simp)
  rename_i m hm
  split at h
  · exact absurd h (by simp)
  split at h
  · rename_i n' hn
    simp only [Except.ok.injEq, Target.named.injEq] at h
    obtain ⟨rfl, rfl, hslash⟩ := h
    obtain rfl : last = n'.toSegment := Subtype.ext (FileName.ofString?_eq_some.1 hn)
    rw [walk_bind_enter_eq_ok] at hm
    refine ⟨hp, hslash.symm, front.reverse,
      (p.segments.reverse.takeWhile (· = .empty)).reverse, ?_, ?_, hm⟩
    · have hcut := List.takeWhile_append_dropWhile (p := (· = .empty)) (l := p.segments.reverse)
      rw [hsegments] at hcut
      simpa using (congrArg List.reverse hcut).symm
    · intro s hs
      simpa using List.mem_takeWhile_imp (List.mem_reverse.1 hs)
  · exact absurd h (by simp)

theorem exists_front_of_target {p : Path} {l : Location} {n : FileName}
    (h : t.target p = .ok (.named l n false)) : checkPath p = .ok () ∧ ∃ front,
      p.segments = front ++ [n.toSegment] ∧ t.walk [] front = .ok l ∧
        t.entryAt l = some .directory := by
  obtain ⟨hp, hslash, front, idle, hsegments, hidle, hwalk⟩ := exists_front_of_named h
  rcases List.eq_nil_or_concat' idle with rfl | ⟨init, s, rfl⟩
  · exact ⟨hp, front, hsegments, hwalk⟩
  · rw [hsegments, hidle s (by simp), ← List.cons_append, ← List.append_assoc,
      List.getLast?_concat] at hslash
    exact absurd hslash (by simp)

/-- An operation acts on a name without slashes behind it where the path ends in that name and
what is in front of it leads to a directory. -/
theorem target_eq_named {p : Path} {l : Location} {n : FileName} :
    t.target p = .ok (.named l n false) ↔ checkPath p = .ok () ∧ ∃ front,
      p.segments = front ++ [n.toSegment] ∧ t.walk [] front = .ok l ∧
        t.entryAt l = some .directory := by
  refine ⟨exists_front_of_target, ?_⟩
  rintro ⟨hp, front, hsegments, hdirectory⟩
  unfold target
  rw [hp, dropWhile_reverse_segments hsegments n.toSegment_ne_empty, hsegments,
    List.getLast?_concat]
  simp only [List.reverse_reverse, walk_bind_enter_eq_ok.2 hdirectory]
  rw [if_neg (by simp [n.toSegment_ne_dot, n.toSegment_ne_dots]), n.ofString?_toSegment]
  simp [n.toSegment_ne_empty]

/-- The entry that an operation acts on is the one that the path leads to. -/
theorem walk_of_target {p : Path} {l : Location} {n : FileName}
    (h : t.target p = .ok (.named l n false)) : t.walk [] p.segments = .ok (n :: l) := by
  obtain ⟨-, front, hsegments, hw, hd⟩ := target_eq_named.1 h
  rw [hsegments, walk_append, hw]
  exact walk_name hd n []

theorem target_of_keepsDirectories (h : KeepsDirectories t t') {p : Path} {l : Location}
    {n : FileName} (ht : t.target p = .ok (.named l n false)) :
    t'.target p = .ok (.named l n false) := by
  obtain ⟨hp, front, hsegments, hw, hd⟩ := target_eq_named.1 ht
  exact target_eq_named.2 ⟨hp, front, hsegments, walk_of_keepsDirectories h front hw, h l hd⟩

/-- A path to a name leads to the entry there in every tree with the directories around it. -/
theorem find_of_target (h : KeepsDirectories t t') {p : Path} {l : Location} {n : FileName}
    (ht : t.target p = .ok (.named l n false)) {e : Entry} (he : t'.entryAt (n :: l) = some e) :
    t'.find p = .ok (n :: l, e) :=
  find_eq_ok.2 ⟨(target_eq_named.1 ht).1,
    walk_of_keepsDirectories h p.segments (walk_of_target ht), he⟩

end FileTree

end LayerOverrides
