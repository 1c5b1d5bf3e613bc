import Mathlib
import ElementWrappers.Proofs.NormalForm
import ElementWrappers.Proofs.Specifier

/-!
# Relative paths

The relative path from a directory to a place leads there when it is joined to
the directory. No step of a walk comes nearer to the place by more than one
segment, not even at the root, so there is no shorter way: `relative_isShortest`.
Between paths that are not rooted the way back up must be known.
-/

namespace ElementWrappers.Path

/-! ## Segments between two places -/

section Between

variable {as bs : List String}

theorem between_append_left (common as bs : List String) :
    between (common ++ as) (common ++ bs) = between as bs := by
  induction common with
  | nil => rfl
  | cons s rest ih => simpa [between] using ih

theorem between_eq_nil_iff : between as bs = [] ↔ as = bs := by
  induction as generalizing bs with
  | nil => cases bs <;> simp [between]
  | cons a as ih =>
    cases bs with
    | nil => simp [between, List.replicate_succ]
    | cons b bs =>
      by_cases hab : a = b
      · simp [between, hab, ih]
      · simp [between, hab]

/-- The way up comes first, and the names of the target come last. -/
theorem exists_between_eq (as bs : List String) :
    ∃ up down, between as bs = List.replicate up ".." ++ down ∧ down <:+ bs := by
  induction as generalizing bs with
  | nil => exact ⟨0, bs, by simp [between], List.suffix_refl bs⟩
  | cons a as ih =>
    cases bs with
    | nil => exact ⟨(a :: as).length, [], rfl, List.nil_suffix⟩
    | cons b bs =>
      by_cases hab : a = b
      · obtain ⟨up, down, he, hd⟩ := ih bs
        exact ⟨up, down, by simp [between, hab, he], hd.trans (List.suffix_cons b bs)⟩
      · exact ⟨as.length + 1, b :: bs, by simp [between, hab], List.suffix_refl _⟩

/-- One name more at the end of the origin makes the way longer or shorter by
one segment. -/
theorem length_between_concat (as bs : List String) (x : String) :
    (between (as ++ [x]) bs).length ≤ (between as bs).length + 1 ∧
      (between as bs).length ≤ (between (as ++ [x]) bs).length + 1 := by
  induction as generalizing bs with
  | nil =>
    cases bs with
    | nil => simp [between]
    | cons b bs =>
      by_cases hab : x = b
      · simp [between, hab]
        omega
      · simp [between, hab]
  | cons a as ih =>
    cases bs with
    | nil => simp [between]
    | cons b bs =>
      by_cases hab : a = b
      · simpa [between, hab] using ih bs
      · simp [between, hab]
        omega

end Between

/-! ## No shorter way -/

/-- One step comes nearer to a place by at most one segment. -/
theorem length_between_step (p : Path) (s : String) (target : List String) :
    (between p.names target).length ≤ (between (p.step s).names target).length + 1 := by
  rcases step_cases p s with ⟨-, he⟩ | ⟨-, hn, he⟩ | ⟨-, init, last, hn, he⟩ | ⟨-, -, -, he⟩
  · rw [he]
    exact Nat.le_succ _
  · -- at the root the step is lost
    rw [he, hn]
    exact Nat.le_succ _
  · rw [he, hn]
    exact (length_between_concat init target last).1
  · rw [he]
    exact (length_between_concat p.names target s).2

theorem length_between_walk (p : Path) (segments target : List String) :
    (between p.names target).length ≤
      (between (p.walk segments).names target).length + segments.length := by
  induction segments generalizing p with
  | nil => exact Nat.le_refl _
  | cons s rest ih =>
    have hfirst := length_between_step p s target
    have hrest := ih (p.step s)
    rw [walk_cons, List.length_cons]
    omega

/-- Every walk to a place takes as many steps as there are segments between. -/
theorem length_between_le {p q : Path} {segments : List String} (h : p.walk segments = q) :
    (between p.names q.names).length ≤ segments.length := by
  have hwalk := length_between_walk p segments q.names
  rwa [h, between_eq_nil_iff.mpr rfl, List.length_nil, Nat.zero_add] at hwalk

/-! ## Relative paths -/

section Relative

variable {origin target : String}

theorem between_lead (origin target : String) :
    ∀ s ∈ between (ofText origin).segments (ofText target).segments,
      s ≠ "" ∧ s ≠ "." ∧ '/' ∉ s.toList ∧ '\\' ∉ s.toList := by
  intro s hs
  rcases mem_between hs with rfl | hs
  · decide
  · exact (isNormal_ofText target).segments_lead s hs

theorem steps_relative (origin target : String) :
    steps (relative origin target) =
      between (ofText origin).segments (ofText target).segments :=
  steps_intercalate (between_lead origin target)

theorem relative_eq_empty_iff :
    relative origin target = "" ↔ (ofText origin).segments = (ofText target).segments := by
  rw [← between_eq_nil_iff]
  constructor
  · intro h
    rw [← steps_relative, h]
    decide
  · intro h
    rw [relative, h]
    rfl

/-- Joining a relative path goes on along the segments between. -/
theorem join_relative (ho : origin ≠ "") :
    join origin [relative origin target] = toText
      ((ofText origin).walk (between (ofText origin).segments (ofText target).segments)) := by
  rw [join_eq_toText ho, List.flatMap_singleton, ← walk_steps, steps_relative]

theorem segments_of_isRooted (h : isRooted target = true) :
    (ofText target).segments = (ofText target).names := by
  rw [segments, start_ofText h]
  rfl

theorem eq_of_isRooted (h : isRooted target = true) :
    ofText target = ⟨.root, (ofText target).names⟩ := by
  rw [← start_ofText h]

theorem join_relative_of_isRooted (ho : isRooted origin = true) (ht : isRooted target = true) :
    join origin [relative origin target] = normalize target := by
  have hwalk := walk_between .root [] (ofText origin).names (isNormal_ofText target)
  rw [List.nil_append, List.nil_append, ← eq_of_isRooted ho, ← eq_of_isRooted ht] at hwalk
  rw [join_relative (ne_empty_of_isRooted ho), segments_of_isRooted ho, segments_of_isRooted ht,
    hwalk]
  rfl

/-- A relative path between rooted places is a normal form, or empty. -/
theorem normalize_relative (ht : isRooted target = true) (hne : relative origin target ≠ "") :
    normalize (relative origin target) = relative origin target := by
  obtain ⟨up, down, hbetween, hsuffix⟩ :=
    exists_between_eq (ofText origin).segments (ofText target).segments
  have hnormal : IsNormal ⟨.above up, down⟩ := by
    intro s hs
    have hm := hsuffix.subset hs
    rw [segments_of_isRooted ht] at hm
    exact isNormal_ofText target s hm
  have htext : relative origin target = toText ⟨.above up, down⟩ := by
    unfold toText
    cases hs : segments ⟨.above up, down⟩ with
    | nil =>
      rw [relative, hbetween] at hne
      exact absurd (congrArg ("/".intercalate ·) hs) hne
    | cons s rest =>
      rw [relative, hbetween]
      exact congrArg ("/".intercalate ·) hs
  rw [htext, normalize_toText hnormal]

/-- How a path text leads from the directory `origin` to `target`. -/
structure IsShortestWay (origin target way : String) : Prop where
  arrives : join origin [way] = normalize target
  eq_empty_iff : way = "" ↔ normalize origin = normalize target
  normal : way ≠ "" → normalize way = way
  shortest : ∀ other, join origin [other] = normalize target →
    (steps way).length ≤ (steps other).length

theorem isShortestWay_relative (ho : isRooted origin = true) (ht : isRooted target = true) :
    IsShortestWay origin target (relative origin target) where
  arrives := join_relative_of_isRooted ho ht
  eq_empty_iff := by
    rw [relative_eq_empty_iff, segments_of_isRooted ho, segments_of_isRooted ht, normalize_eq_iff]
    constructor
    · intro h
      rw [eq_of_isRooted ho, eq_of_isRooted ht, h]
    · exact congrArg names
  normal := normalize_relative ht
  shortest := by
    intro other h
    have harrives := congrArg ofText h
    rw [ofText_join (ne_empty_of_isRooted ho), List.flatMap_singleton, ← walk_steps,
      ofText_normalize] at harrives
    rw [steps_relative, segments_of_isRooted ho, segments_of_isRooted ht]
    exact length_between_le harrives

/-! ## Paths that are not rooted -/

/-- The relative walk between two places, the second of which is seen from at
least as far above. -/
theorem walk_between_above (n k : Nat) {as bs : List String} (ha : ∀ s ∈ as, IsName s)
    (hb : ∀ s ∈ bs, IsName s) :
    walk ⟨.above n, as⟩ (between (segments ⟨.above n, as⟩) (segments ⟨.above (n + k), bs⟩)) =
      ⟨.above (n + k), bs⟩ := by
  have hcommon : between (segments ⟨.above n, as⟩) (segments ⟨.above (n + k), bs⟩) =
      between as (List.replicate k ".." ++ bs) := by
    show between (List.replicate n ".." ++ as) (List.replicate (n + k) ".." ++ bs) = _
    rw [List.replicate_add, List.append_assoc, between_append_left]
  rw [hcommon]
  cases k with
  | zero => exact walk_between (.above n) [] as hb
  | succ k =>
    have hdown : walk ⟨.above n, []⟩ (List.replicate (k + 1) ".." ++ bs) =
        ⟨.above (n + (k + 1)), bs⟩ := by
      rw [walk_append, walk_dots_above, walk_names hb, List.nil_append]
    cases as with
    | nil => exact hdown
    | cons a as =>
      -- a name and a segment that leads up have nothing in common
      have hne : a ≠ ".." := (ha a List.mem_cons_self).ne_dots
      have hup := walk_dots (.above n) [] (a :: as)
      rw [List.replicate_succ, List.cons_append, between, if_neg hne, ← List.cons_append,
        ← List.replicate_succ, walk_append]
      exact (congrArg (walk · _) hup).trans hdown

theorem count_dots_segments {n : Nat} {names : List String} (h : ∀ s ∈ names, IsName s) :
    (segments ⟨.above n, names⟩).count ".." = n := by
  show (List.replicate n ".." ++ names).count ".." = n
  rw [List.count_append, List.count_replicate_self,
    List.count_eq_zero.mpr fun hm => (h _ hm).ne_dots rfl, Nat.add_zero]

theorem join_relative_of_common (hne : origin ≠ "") (ho : isRooted origin = false)
    (ht : isRooted target = false) {common : List String}
    (hco : common <+: steps (normalize origin)) (hct : common <+: steps (normalize target))
    (hup : ".." ∉ (steps (normalize origin)).drop common.length) :
    join origin [relative origin target] = normalize target := by
  obtain ⟨n, as, hp⟩ := exists_ofText_eq ho
  obtain ⟨m, bs, hq⟩ := exists_ofText_eq ht
  have ha : IsNormal ⟨.above n, as⟩ := hp ▸ isNormal_ofText origin
  have hb : IsNormal ⟨.above m, bs⟩ := hq ▸ isNormal_ofText target
  rw [steps_normalize] at hco hct hup
  -- all segments of the origin that lead up are common to both
  have hle : n ≤ m := by
    obtain ⟨rest, hrest⟩ := hco
    rw [← hrest, List.drop_left] at hup
    calc n = (ofText origin).segments.count ".." := by rw [hp, count_dots_segments ha]
      _ = common.count ".." := by
        rw [← hrest, List.count_append, List.count_eq_zero.mpr hup, Nat.add_zero]
      _ ≤ (ofText target).segments.count ".." := hct.sublist.count_le _
      _ = m := by rw [hq, count_dots_segments hb]
  obtain ⟨k, rfl⟩ := Nat.exists_eq_add_of_le hle
  rw [join_relative hne, hp, hq, walk_between_above n k ha hb, normalize, hq]

/-- Between rooted paths, the relative path is the shortest way to the target, and
a normal form. Between others it leads to the target if no segment of the origin
behind what both have in common leads up. -/
theorem relative_isShortest (origin target : String) :
    (isRooted origin = true → isRooted target = true →
      IsShortestWay origin target (relative origin target)) ∧
    (origin ≠ "" → isRooted origin = false → isRooted target = false →
      ∀ common, common <+: steps (normalize origin) → common <+: steps (normalize target) →
        ".." ∉ (steps (normalize origin)).drop common.length →
          join origin [relative origin target] = normalize target) :=
  ⟨isShortestWay_relative, fun hne ho ht _ => join_relative_of_common hne ho ht⟩

theorem relative_isShortest_library :
    isRooted "/lib//src\\a/../b" = true ∧ isRooted "\\lib/./angular/" = true ∧
      IsShortestWay "/lib//src\\a/../b" "\\lib/./angular/" "../../angular" ∧
    isRooted "../src/a" = false ∧ isRooted "../../lib" = false ∧
      [".."] <+: steps (normalize "../src/a") ∧ [".."] <+: steps (normalize "../../lib") ∧
      ".." ∉ (steps (normalize "../src/a")).drop 1 ∧
      join "../src/a" ["../../../lib"] = normalize "../../lib" := by
  have ho : isRooted "/lib//src\\a/../b" = true := by decide +kernel
  have ht : isRooted "\\lib/./angular/" = true := by decide +kernel
  have hway : relative "/lib//src\\a/../b" "\\lib/./angular/" = "../../angular" := by decide +kernel
  have ho' : isRooted "../src/a" = false := by decide +kernel
  have ht' : isRooted "../../lib" = false := by decide +kernel
  have hso : steps (normalize "../src/a") = ["..", "src", "a"] := by decide +kernel
  have hst : steps (normalize "../../lib") = ["..", "..", "lib"] := by decide +kernel
  have hco : [".."] <+: steps (normalize "../src/a") := hso ▸ ⟨["src", "a"], rfl⟩
  have hct : [".."] <+: steps (normalize "../../lib") := hst ▸ ⟨["..", "lib"], rfl⟩
  have hup : ".." ∉ (steps (normalize "../src/a")).drop 1 := hso ▸ by decide +kernel
  have hback : relative "../src/a" "../../lib" = "../../../lib" := by decide +kernel
  refine ⟨ho, ht, hway ▸ (relative_isShortest _ _).1 ho ht, ho', ht', hco, hct, hup, ?_⟩
  exact hback ▸ (relative_isShortest _ _).2 (by decide +kernel) ho' ht' _ hco hct hup

end Relative

end ElementWrappers.Path
