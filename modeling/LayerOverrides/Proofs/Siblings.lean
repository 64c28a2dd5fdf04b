import LayerOverrides.Path
import Mathlib.Data.List.Basic
import Mathlib.Data.List.TakeWhile

/-!
# Names at the end of paths

A child of a path ends in its name, behind segments that depend on the path alone
(`child_segments`), so paths of different children differ.  The sibling of a path that ends in a
name differs from it in that name and in idle segments before it (`exists_sibling`).
-/

namespace LayerOverrides

theorem Text.join_concat (separator : Char) (part : List Char) : ∀ parts : List (List Char),
    join separator (parts ++ [part]) = parts.flatMap (fun s => s ++ [separator]) ++ part
  | [] => rfl
  | [s] => by simp [join]
  | s :: s' :: parts => by
    have ih := join_concat separator part (s' :: parts)
    simp only [List.cons_append, List.flatMap_cons] at ih ⊢
    rw [join, ih]
    · simp
    · simp

theorem Text.mem_join_iff {separator c : Char} (hc : c ≠ separator) :
    ∀ parts : List (List Char), c ∈ join separator parts ↔ ∃ part ∈ parts, c ∈ part
  | [] => by simp [join]
  | [s] => by simp [join]
  | s :: s' :: parts => by
    have ih := mem_join_iff hc (s' :: parts)
    rw [List.exists_mem_cons_iff, ← ih, join, List.mem_append, List.mem_cons]
    · simp [hc]
    · simp

namespace Path

theorem mem_text_iff {p : Path} {c : Char} (hc : c ≠ '/') :
    c ∈ p.text ↔ ∃ s ∈ p.segments, c ∈ s.1.toList := by
  simp only [text, Text.mem_join_iff hc, List.mem_map, exists_exists_and_eq_and]

/-- A child has its name behind the segments of the path; a slash at the end is not doubled. -/
theorem child_segments (p : Path) :
    ∃ front, (∀ name : Segment, (p.child name).segments = front ++ [name]) ∧
      (p.segments = front ∨ p.segments = front ++ [.empty]) := by
  by_cases hp : p = empty
  · refine ⟨[], fun name => ?_, Or.inr (hp ▸ rfl)⟩
    rw [child, join, if_pos (Or.inr hp)]
    rfl
  by_cases hlast : p.segments.getLast? = some .empty
  · obtain ⟨front, hfront⟩ := List.getLast?_eq_some_iff.1 hlast
    refine ⟨front, fun name => ?_, Or.inr hfront⟩
    simp [child, join, isRooted, hp, hfront]
  · exact ⟨p.segments, fun name => by simp [child, join, isRooted, hp, hlast], Or.inl rfl⟩

theorem text_of_segments {p : Path} {front : List Segment} {s : Segment}
    (hp : p.segments = front ++ [s]) :
    p.text = (front.map fun s => s.1.toList).flatMap (fun s => s ++ ['/']) ++ s.1.toList := by
  rw [text, hp, List.map_append, List.map_singleton, Text.join_concat]

/-- The text of a child goes on from that of the path. -/
theorem prefix_text_child (p : Path) (name : Segment) : p.text <+: (p.child name).text := by
  obtain ⟨front, hchild, hfront | hfront⟩ := p.child_segments
  · rcases List.eq_nil_or_concat' p.segments with hnil | ⟨init, last, hlast⟩
    · exact absurd hnil p.segments_ne_nil
    rw [text_of_segments (hchild name), ← hfront, hlast, text_of_segments hlast]
    simp
  · rw [text_of_segments (hchild name), text_of_segments hfront]
    exact ⟨name.1.toList, by simp [Segment.empty]⟩

theorem child_inj {p : Path} {m n : Segment} : p.child m = p.child n ↔ m = n := by
  refine ⟨fun h => ?_, fun h => h ▸ rfl⟩
  obtain ⟨front, hfront, -⟩ := p.child_segments
  have hs := congrArg segments h
  rw [hfront, hfront] at hs
  exact List.singleton_inj.1 (List.append_cancel_left hs)

/-- The segments of the root: an empty one in front of the others. -/
def rootSegments (rooted : Bool) : List Segment := if rooted then [.empty] else []

theorem segments_eq (p : Path) : p.segments = rootSegments p.isRooted ++ p.body := by
  unfold body rootSegments
  split
  · rename_i h
    unfold isRooted at h
    split at h
    · rename_i first second rest hs
      simp only [decide_eq_true_eq] at h
      rw [hs, h]
      rfl
    · exact absurd h (by simp)
  · rfl

theorem withoutIdleEnd_append (rooted : Bool) (body : List Segment) {s : Segment}
    {idle : List Segment} (hs : s.isIdle = false) (hidle : ∀ x ∈ idle, x.isIdle) :
    withoutIdleEnd rooted (body ++ s :: idle) = body ++ [s] := by
  have hkept : ((body ++ s :: idle).reverse.dropWhile Segment.isIdle).reverse = body ++ [s] := by
    rw [List.reverse_append, List.reverse_cons, List.append_assoc,
      List.dropWhile_append_of_pos (fun x hx => hidle x (List.mem_reverse.1 hx)),
      List.singleton_append, List.dropWhile_cons_of_neg (by simp [hs]), List.reverse_cons,
      List.reverse_reverse]
  unfold withoutIdleEnd
  rw [hkept]
  split
  · rename_i h
    exact absurd h (by simp)
  · rfl

/-- Only idle segments are cut off. -/
theorem exists_idle_end (rooted : Bool) (body : List Segment) :
    ∃ idle, body = withoutIdleEnd rooted body ++ idle ∧ ∀ s ∈ idle, s.isIdle := by
  have hidle : ∀ s ∈ (body.reverse.takeWhile Segment.isIdle).reverse, s.isIdle := fun s hs =>
    List.mem_takeWhile_imp (List.mem_reverse.1 hs)
  have hbody : body = (body.reverse.dropWhile Segment.isIdle).reverse ++
      (body.reverse.takeWhile Segment.isIdle).reverse := by
    rw [← List.reverse_append, List.takeWhile_append_dropWhile, List.reverse_reverse]
  unfold withoutIdleEnd
  split
  · rename_i h
    rw [h, List.nil_append] at hbody
    rw [← hbody] at hidle
    cases rooted with
    | true => exact ⟨body, rfl, hidle⟩
    | false =>
      cases body with
      | nil => exact ⟨[], rfl, by simp⟩
      | cons first rest =>
        by_cases hd : first = .dot
        · exact ⟨rest, by simp [hd], fun s hs => hidle s (by simp [hs])⟩
        · exact ⟨first :: rest, by simp [hd], hidle⟩
  · exact ⟨_, hbody, hidle⟩

theorem getLast?_withoutIdleEnd (rooted : Bool) (body : List Segment) :
    (withoutIdleEnd rooted body).getLast? ≠ some .empty := by
  unfold withoutIdleEnd
  split
  · cases rooted with
    | true => simp
    | false =>
      cases body with
      | nil => simp
      | cons first rest =>
        by_cases hd : first = .dot
        · simp [hd, Segment.dot, Segment.empty]
        · simp [hd]
  · intro h
    rw [List.getLast?_reverse] at h
    have := List.head?_dropWhile_not Segment.isIdle body.reverse
    rw [h] at this
    exact absurd this (by simp [Segment.isIdle])

theorem child_ofBody {rooted : Bool} {body : List Segment}
    (hbody : body.getLast? ≠ some .empty) (name : Segment) :
    ((ofBody rooted body).child name).segments = rootSegments rooted ++ body ++ [name] := by
  cases rooted with
  | true =>
    cases body with
    | nil => simp [child, join, isRooted, ofBody, rootSegments, empty]
    | cons first rest => simp [child, join, isRooted, ofBody, rootSegments, empty, hbody]
  | false =>
    cases body with
    | nil => simp [child, join, isRooted, ofBody, rootSegments, empty]
    | cons first rest =>
      have hne : ¬(first = .empty ∧ rest = []) := by
        rintro ⟨rfl, rfl⟩
        exact hbody rfl
      simp [child, join, isRooted, ofBody, rootSegments, empty, hbody, hne]

/-- A path and what is behind its root agree from a name on. -/
theorem exists_body {p : Path} {front idle : List Segment} {s : Segment}
    (hp : p.segments = front ++ s :: idle) (hs : s.isIdle = false) :
    ∃ body, p.body = body ++ s :: idle ∧ front = rootSegments p.isRooted ++ body := by
  have h := p.segments_eq
  rw [hp] at h
  cases hr : p.isRooted with
  | false => exact ⟨front, by simpa [hr, rootSegments] using h.symm, rfl⟩
  | true =>
    simp only [hr, rootSegments, if_pos, List.singleton_append] at h ⊢
    rcases List.append_eq_cons_iff.1 h with ⟨-, hcons⟩ | ⟨front', rfl, hbody⟩
    · rw [(List.cons.inj hcons).1] at hs
      exact absurd hs (by decide)
    · exact ⟨front', hbody, rfl⟩

theorem fileName?_of_segments {p : Path} {front idle : List Segment} {s : Segment}
    (hp : p.segments = front ++ s :: idle) (hs : s.isIdle = false) (hdots : s ≠ .dots)
    (hidle : ∀ x ∈ idle, x.isIdle) : p.fileName? = some s := by
  obtain ⟨body, hbody, -⟩ := exists_body hp hs
  have hdot : s ≠ .dot := by
    rintro rfl
    exact absurd hs (by decide)
  rw [fileName?, hbody, withoutIdleEnd_append _ _ hs hidle, List.getLast?_concat]
  exact if_neg (not_or.2 ⟨hdot, hdots⟩)

theorem fileName?_child {s : Segment} (hs : s.isIdle = false) (hdots : s ≠ .dots) (p : Path) :
    (p.child s).fileName? = some s := by
  obtain ⟨front, hfront, -⟩ := p.child_segments
  exact fileName?_of_segments (hfront s) hs hdots (by simp)

/-- Behind the file name of a path are idle segments only. -/
theorem exists_front_of_fileName? {p : Path} {s : Segment} (h : p.fileName? = some s) :
    s.isIdle = false ∧ s ≠ .dots ∧
      ∃ front idle, p.segments = front ++ s :: idle ∧ ∀ x ∈ idle, x.isIdle := by
  unfold fileName? at h
  split at h
  · rename_i last hlast
    split at h
    · exact absurd h (by simp)
    rename_i hdots
    obtain rfl := Option.some.inj h
    obtain ⟨hdot, hdots⟩ := not_or.1 hdots
    have hempty : last ≠ .empty := fun he =>
      getLast?_withoutIdleEnd p.isRooted p.body (he ▸ hlast)
    obtain ⟨init, hinit⟩ := List.getLast?_eq_some_iff.1 hlast
    obtain ⟨idle, hbody, hidle⟩ := exists_idle_end p.isRooted p.body
    refine ⟨by simp [Segment.isIdle, hdot, hempty], hdots,
      rootSegments p.isRooted ++ init, idle, ?_, hidle⟩
    rw [p.segments_eq, hbody, hinit]
    simp
  · exact absurd h (by simp)

theorem parent?_of_body {p : Path} {body idle : List Segment} {s : Segment}
    (hbody : p.body = body ++ s :: idle) (hs : s.isIdle = false) (hidle : ∀ x ∈ idle, x.isIdle) :
    p.parent? = some (ofBody p.isRooted (withoutIdleEnd p.isRooted body)) := by
  rw [parent?, hbody, withoutIdleEnd_append _ _ hs hidle]
  split
  · rename_i h
    exact absurd h (by simp)
  · rw [List.dropLast_concat]

/-- The sibling of a path that ends in a name: idle segments around the name are left out. -/
theorem exists_sibling {p : Path} {front rest : List Segment} {s : Segment}
    (hp : p.segments = front ++ s :: rest) (hs : s.isIdle = false) (hrest : ∀ x ∈ rest, x.isIdle) :
    ∃ kept idle, front = kept ++ idle ∧ (∀ s ∈ idle, s.isIdle) ∧
      ∀ name, (p.withFileName name).segments = kept ++ [name] := by
  obtain ⟨body, hbody, hfront⟩ := exists_body hp hs
  obtain ⟨idle, hcut, hidle⟩ := exists_idle_end p.isRooted body
  refine ⟨rootSegments p.isRooted ++ withoutIdleEnd p.isRooted body, idle, ?_, hidle, ?_⟩
  · rw [List.append_assoc, ← hcut, hfront]
  · intro name
    rw [withFileName, parent?_of_body hbody hs hrest, Option.getD_some,
      child_ofBody (getLast?_withoutIdleEnd p.isRooted body)]

end Path

end LayerOverrides
