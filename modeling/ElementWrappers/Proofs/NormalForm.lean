import Mathlib
import ElementWrappers.Proofs.PathText

/-!
# Normal forms of path texts

A normal form shows where its walk ends: the segments that lead up come first,
then names. `isCanonical_iff` says which texts are normal forms. A base goes
along a relative text as along its normal form, so texts with one normal form
are resolved alike; texts with different ones are told apart by a base that is
deep enough (`normalize_isCanonical`).
-/

namespace ElementWrappers.Path

/-! ## Steps -/

/-- The segments of a text that lead somewhere. -/
def steps (text : String) : List String :=
  (segmentsOf text).filter fun s => s ≠ "" ∧ s ≠ "."

theorem walk_steps (p : Path) (text : String) : p.walk (steps text) = p.walk (segmentsOf text) := by
  unfold steps
  generalize segmentsOf text = segments
  induction segments generalizing p with
  | nil => rfl
  | cons s rest ih =>
    by_cases hs : s ≠ "" ∧ s ≠ "."
    · rw [List.filter_cons_of_pos (by simpa using hs), walk_cons, walk_cons, ih]
    · rw [List.filter_cons_of_neg (by simpa using hs), walk_cons, ih]
      rcases Decidable.not_and_iff_not_or_not.mp hs with h | h
      · rw [not_not.mp h, step_empty]
      · rw [not_not.mp h, step_dot]

/-- Segments that lead somewhere are the steps of their joined text. -/
theorem steps_intercalate {segments : List String}
    (h : ∀ s ∈ segments, s ≠ "" ∧ s ≠ "." ∧ '/' ∉ s.toList ∧ '\\' ∉ s.toList) :
    steps ("/".intercalate segments) = segments := by
  have hfilter : segments.filter (fun s => s ≠ "" ∧ s ≠ ".") = segments :=
    List.filter_eq_self.mpr fun s hs => by simpa using ⟨(h s hs).1, (h s hs).2.1⟩
  cases segments with
  | nil => decide
  | cons s rest =>
    rw [steps, segmentsOf_intercalate (by simp) fun t ht => (h t ht).2.2, hfilter]

theorem IsNormal.segments_lead {p : Path} (h : p.IsNormal) :
    ∀ s ∈ p.segments, s ≠ "" ∧ s ≠ "." ∧ '/' ∉ s.toList ∧ '\\' ∉ s.toList := by
  intro s hs
  rcases mem_segments hs with rfl | hs
  · decide
  · exact ⟨(h s hs).ne_empty, (h s hs).ne_dot, (h s hs).no_slash, (h s hs).no_backslash⟩

/-- A written path leads where it says, segment by segment. -/
theorem steps_toText {p : Path} (h : p.IsNormal) : steps p.toText = p.segments := by
  have hsteps := steps_intercalate h.segments_lead
  obtain ⟨start, names⟩ := p
  cases start with
  | root =>
    rw [toText, show "/" ++ "/".intercalate (segments ⟨.root, names⟩) =
      "" ++ "/" ++ "/".intercalate (segments ⟨.root, names⟩) by simp, steps, segmentsOf_append,
      List.filter_append]
    exact hsteps
  | above n =>
    unfold toText
    cases hs : segments ⟨.above n, names⟩ with
    | nil =>
      show steps "." = []
      decide
    | cons s rest =>
      rw [hs] at hsteps
      exact hsteps

theorem steps_normalize (text : String) : steps (normalize text) = (ofText text).segments :=
  steps_toText (isNormal_ofText text)

/-! ## The shape of a normal form -/

/-- The segments of a text behind the slash that it may begin with. -/
def inner (text : String) : List String :=
  if isRooted text then (segmentsOf text).tail else segmentsOf text

/-- A text without backslashes, empty segments and `.`, whose segments that lead
up come first, and are none if it is rooted. `.` and `/` are such texts too. -/
structure IsCanonical (text : String) : Prop where
  no_backslash : '\\' ∉ text.toList
  no_idle : text = "." ∨ text = "/" ∨ ∀ s ∈ inner text, s ≠ "" ∧ s ≠ "."
  dots_first : ∃ up names, inner text = List.replicate up ".." ++ names ∧ ".." ∉ names
  no_dots_at_root : isRooted text = true → ".." ∉ inner text

theorem intercalate_segmentsOf {text : String} (h : '\\' ∉ text.toList) :
    "/".intercalate (segmentsOf text) = text := by
  apply String.toList_injective
  rw [String.toList_intercalate, segmentsOf, map_slash h, List.map_map]
  simp only [Function.comp_def, String.toList_ofList, List.map_id']
  exact List.intercalate_splitOn '/'

theorem segmentsOf_ne_nil (text : String) : segmentsOf text ≠ [] := by
  simp [segmentsOf, List.splitOn_ne_nil]

theorem inner_append (rest : String) : inner ("/" ++ rest) = segmentsOf rest := by
  rw [inner, if_pos (by simp [isRooted, slash]),
    show "/" ++ rest = "" ++ "/" ++ rest by simp, segmentsOf_append]
  rfl

theorem mem_inner {s text : String} (h : s ∈ inner text) :
    '/' ∉ s.toList ∧ '\\' ∉ s.toList := by
  unfold inner at h
  split at h
  · exact mem_segmentsOf (List.mem_of_mem_tail h)
  · exact mem_segmentsOf h

/-- A rooted text without backslashes begins with a slash. -/
theorem exists_eq_append {text : String} (hb : '\\' ∉ text.toList) (h : isRooted text = true) :
    ∃ rest, text = "/" ++ rest := by
  unfold isRooted at h
  cases hc : text.toList with
  | nil => simp [hc] at h
  | cons c cs =>
    have hne : c ≠ '\\' := fun e => hb (by simp [hc, e])
    have hs : c = '/' := by simpa [hc, slash, hne] using h
    exact ⟨String.ofList cs, by rw [← String.toList_inj, hc, hs]; simp⟩

/-- A place above an unknown directory is written without a slash in front. -/
theorem isRooted_eq_false {text : String} {n : Nat} (h : (ofText text).start = .above n) :
    isRooted text = false := by
  refine Bool.eq_false_iff.mpr fun hr => ?_
  cases h.symm.trans (start_ofText hr)

theorem inner_toText {p : Path} (h : p.IsNormal) (hne : p.segments ≠ []) :
    inner p.toText = p.segments := by
  have hjoined := segmentsOf_intercalate hne (segments_no_slash h)
  cases hs : p.start with
  | root =>
    unfold toText
    rw [hs, inner_append, hjoined]
  | above n =>
    have hrelative : isRooted p.toText = false := isRooted_eq_false (by rw [ofText_toText h, hs])
    rw [inner, if_neg (by simp [hrelative]), toText, hs]
    cases hp : p.segments with
    | nil => exact absurd hp hne
    | cons s rest => rwa [hp] at hjoined

theorem backslash_not_mem_toText {p : Path} (h : p.IsNormal) : '\\' ∉ p.toText.toList := by
  have hjoined : '\\' ∉ ("/".intercalate p.segments).toList :=
    Text.intercalate_of_forall (P := fun text => '\\' ∉ text) List.not_mem_nil
      (fun hx hy => List.not_mem_append hx hy) (by decide_cbv)
      fun s hs => (segments_no_slash h s hs).2
  unfold toText
  split
  · rw [String.toList_append]
    exact List.not_mem_append (by decide_cbv) hjoined
  · split
    · decide_cbv
    · rename_i hs
      rwa [hs] at hjoined

theorem isCanonical_toText {p : Path} (h : p.IsNormal) : IsCanonical p.toText := by
  have hdots : ".." ∉ p.names := fun hs => (h _ hs).ne_dots rfl
  by_cases hne : p.segments = []
  · -- the place itself has no segments but a text of its own
    obtain ⟨start, names⟩ := p
    obtain ⟨hstart, rfl⟩ := List.append_eq_nil_iff.mp hne
    cases start with
    | root => exact ⟨by decide_cbv, .inr (.inl rfl), ⟨0, [""], by decide_cbv⟩, by decide_cbv⟩
    | above n =>
      cases n with
      | zero => exact ⟨by decide_cbv, .inl rfl, ⟨0, ["."], by decide_cbv⟩, by decide_cbv⟩
      | succ n => cases hstart
  · refine ⟨backslash_not_mem_toText h, .inr (.inr ?_), ?_, ?_⟩
    · rw [inner_toText h hne]
      exact fun s hs => ⟨(h.segments_lead s hs).1, (h.segments_lead s hs).2.1⟩
    · rw [inner_toText h hne]
      cases hs : p.start with
      | root => exact ⟨0, p.names, by rw [segments, hs]; rfl, hdots⟩
      | above n => exact ⟨n, p.names, by rw [segments, hs]; rfl, hdots⟩
    · intro hr
      have hroot := start_ofText hr
      rw [ofText_toText h] at hroot
      rw [inner_toText h hne, segments, hroot]
      exact hdots

theorem IsCanonical.normalize_eq {text : String} (h : IsCanonical text) :
    normalize text = text := by
  obtain ⟨hb, rfl | rfl | hidle, ⟨up, names, hinner, hnames⟩, hroot⟩ := h
  · decide_cbv
  · decide_cbv
  · have hname : ∀ s ∈ names, IsName s := by
      intro s hs
      have hm : s ∈ inner text := hinner ▸ List.mem_append_right _ hs
      obtain ⟨hne, hdot⟩ := hidle s hm
      obtain ⟨hslash, hback⟩ := mem_inner hm
      exact ⟨hne, hdot, fun e => hnames (e ▸ hs), hslash, hback⟩
    cases hr : isRooted text with
    | true =>
      have hup : up = 0 := by
        by_contra hup
        exact hroot hr (hinner ▸ List.mem_append_left _ (List.mem_replicate.mpr ⟨hup, rfl⟩))
      subst hup
      obtain ⟨rest, rfl⟩ := exists_eq_append hb hr
      rw [String.toList_append] at hb
      rw [inner_append] at hinner
      have hplace : ofText ("/" ++ rest) = ⟨.root, names⟩ := by
        rw [ofText_eq_walk, origin, if_pos hr, show "/" ++ rest = "" ++ "/" ++ rest by simp,
          segmentsOf_append, hinner, walk_append, walk_append]
        exact walk_names hname
      have hrest : '\\' ∉ rest.toList := fun hm => hb (List.mem_append_right _ hm)
      rw [normalize, hplace, ← intercalate_segmentsOf hrest, hinner]
      rfl
    | false =>
      rw [inner, if_neg (by simp [hr])] at hinner
      have hplace : ofText text = ⟨.above up, names⟩ := by
        rw [ofText_eq_walk, origin, if_neg (by simp [hr]), hinner, walk_append, here,
          walk_dots_above, walk_names hname]
        simp
      have hsegments : segments ⟨.above up, names⟩ = segmentsOf text := hinner.symm
      rw [normalize, hplace, toText]
      simp only [hsegments]
      split
      · exact absurd ‹_› (segmentsOf_ne_nil text)
      · rename_i hs
        rw [← hs, intercalate_segmentsOf hb]

/-- The canonical texts are those that are their own normal forms. -/
theorem isCanonical_iff {text : String} : IsCanonical text ↔ normalize text = text := by
  constructor
  · exact IsCanonical.normalize_eq
  · intro h
    rw [← h]
    exact isCanonical_toText (isNormal_ofText text)

/-! ## Walks from a base -/

/-- A step that is taken before its path is followed can as well be taken
behind it. -/
theorem walk_segments_step (base : Path) {p : Path} {n : Nat} (hp : p.start = .above n)
    (hn : p.IsNormal) (s : String) :
    base.walk (p.step s).segments = (base.walk p.segments).step s := by
  rcases step_cases p s with ⟨hidle, he⟩ | ⟨rfl, hnames, he⟩ | ⟨rfl, init, last, hnames, he⟩ |
    ⟨-, -, -, he⟩
  · rw [he]
    rcases hidle with rfl | rfl
    · rw [step_empty]
    · rw [step_dot]
  · rw [he, segments, segments, hnames, hp]
    show base.walk (List.replicate (n + 1) ".." ++ []) =
      (base.walk (List.replicate n ".." ++ [])).step ".."
    rw [List.append_nil, List.append_nil, List.replicate_succ', walk_append]
    rfl
  · -- the last name and the step back cancel each other
    have hlast : IsName last := hn last (hnames ▸ List.mem_append_right _ List.mem_cons_self)
    rw [he, segments, segments, hnames, ← List.append_assoc,
      walk_append base (_ ++ init) [last], walk_cons, walk_nil, step_name _ hlast,
      step_dots_concat]
  · rw [he, segments, segments, ← List.append_assoc, walk_append]
    rfl

theorem start_walk_above {p : Path} {n : Nat} (hp : p.start = .above n) (segments : List String) :
    ∃ m, (p.walk segments).start = .above m := by
  induction segments generalizing p n with
  | nil => exact ⟨n, hp⟩
  | cons s rest ih =>
    rcases start_step p s with he | he
    · exact ih (he.trans hp)
    · exact ih (n := n + 1) (by rw [he, hp, Start.ascend])

/-- A text that is not rooted leads to a place seen from an unknown directory. -/
theorem exists_ofText_eq {text : String} (h : isRooted text = false) :
    ∃ up names, ofText text = ⟨.above up, names⟩ := by
  obtain ⟨up, hup⟩ := start_walk_above (p := here) rfl (segmentsOf text)
  refine ⟨up, (ofText text).names, ?_⟩
  rw [← hup, ofText_eq_walk, origin, if_neg (by simp [h])]

theorem walk_segments_walk (base : Path) {p : Path} {n : Nat} (hp : p.start = .above n)
    (hn : p.IsNormal) {segments : List String}
    (h : ∀ s ∈ segments, '/' ∉ s.toList ∧ '\\' ∉ s.toList) :
    base.walk (p.walk segments).segments = (base.walk p.segments).walk segments := by
  induction segments generalizing p n with
  | nil => rfl
  | cons s rest ih =>
    obtain ⟨⟨hs, hb⟩, hrest⟩ := List.forall_mem_cons.mp h
    obtain ⟨m, hm⟩ : ∃ m, (p.step s).start = .above m := start_walk_above hp [s]
    rw [walk_cons, walk_cons, ih hm (isNormal_step hn hs hb) hrest, walk_segments_step base hp hn]

/-- From any base, a relative text leads where its normal form does. -/
theorem walk_segmentsOf (base : Path) {text : String} (h : isRooted text = false) :
    base.walk (segmentsOf text) = base.walk (ofText text).segments := by
  rw [ofText_eq_walk, origin, if_neg (by simp [h]),
    walk_segments_walk base (p := here) rfl (by intro s hs; cases hs) fun _ hs => mem_segmentsOf hs]
  rfl

/-! ## Telling places apart -/

/-- A base at which as many directories as asked for have one name. -/
def nested (name : String) (depth : Nat) : String := toText ⟨.root, List.replicate depth name⟩

theorem isNormal_nested {name : String} (h : IsName name) (depth : Nat) :
    IsNormal ⟨.root, List.replicate depth name⟩ := by
  intro s hs
  rw [List.eq_of_mem_replicate hs]
  exact h

theorem isRooted_nested (name : String) (depth : Nat) : isRooted (nested name depth) = true :=
  isRooted_toText rfl

/-- In a base that is deep enough, a relative text leads out of as many of its
directories as it leads up. -/
theorem ofText_resolve_nested {name text : String} {up : Nat} {names : List String}
    (hn : IsName name) (hp : ofText text = ⟨.above up, names⟩) (deeper : Nat) :
    ofText (resolve (nested name (deeper + up)) text) =
      ⟨.root, List.replicate deeper name ++ names⟩ := by
  have hrelative : isRooted text = false := isRooted_eq_false (by rw [hp])
  have hnames : ∀ s ∈ names, IsName s := by
    have := isNormal_ofText text
    rwa [hp] at this
  have hbase : ofText (nested name (deeper + up)) =
      ⟨.root, List.replicate deeper name ++ List.replicate up name⟩ := by
    rw [nested, ofText_toText (isNormal_nested hn _), List.replicate_add]
  rw [ofText_resolve (ne_empty_of_isRooted (isRooted_nested _ _)) hrelative,
    walk_segmentsOf _ hrelative, hbase, hp]
  show walk _ (List.replicate up ".." ++ names) = _
  rw [walk_append]
  have hdots := walk_dots .root (List.replicate deeper name) (List.replicate up name)
  rw [List.length_replicate] at hdots
  rw [hdots, walk_names hnames]

theorem isName_a : IsName "a" := by constructor <;> decide_cbv

theorem isName_b : IsName "b" := by constructor <;> decide_cbv

/-- No list begins with every name. -/
theorem eq_zero_of_replicate {k : Nat} {as bs : List String}
    (h : ∀ name, IsName name → List.replicate k name ++ as = bs) : k = 0 := by
  cases k with
  | zero => rfl
  | succ k =>
    have heq := (h "a" isName_a).trans (h "b" isName_b).symm
    rw [List.replicate_succ, List.replicate_succ, List.cons_append, List.cons_append] at heq
    exact absurd (List.cons.inj heq).1 (by decide_cbv)

section Agree

variable {text other : String}

/-- Two texts lead to the same place from everywhere. -/
def Agree (text other : String) : Prop :=
  ∀ base, isRooted base = true → resolve base text = resolve base other

theorem Agree.symm (h : Agree text other) : Agree other text :=
  fun base hb => (h base hb).symm

/-- What a nested base tells about two relative texts. -/
theorem Agree.names_eq (h : Agree text other) {up deeper : Nat} {as bs : List String}
    (hp : ofText text = ⟨.above up, as⟩) (hq : ofText other = ⟨.above (deeper + up), bs⟩)
    {name : String} (hn : IsName name) : List.replicate deeper name ++ as = bs := by
  have hbase := congrArg ofText (h _ (isRooted_nested name (0 + (deeper + up))))
  rw [ofText_resolve_nested hn hq, Nat.zero_add, ofText_resolve_nested hn hp] at hbase
  exact (Path.mk.inj hbase).2

theorem Agree.ofText_eq_of_le (h : Agree text other) {up up' : Nat} {as bs : List String}
    (hp : ofText text = ⟨.above up, as⟩) (hq : ofText other = ⟨.above up', bs⟩)
    (hle : up ≤ up') : ofText text = ofText other := by
  obtain ⟨deeper, rfl⟩ := Nat.exists_eq_add_of_le' hle
  have hnames : ∀ name, IsName name → List.replicate deeper name ++ as = bs :=
    fun _ hn => h.names_eq hp hq hn
  obtain rfl := eq_zero_of_replicate hnames
  obtain rfl : as = bs := hnames "a" isName_a
  rw [hp, hq, Nat.zero_add]

/-- A rooted text does not follow its base, and a relative one does. -/
theorem Agree.not_relative (h : Agree text other) (hr : isRooted text = true) {up : Nat}
    {bs : List String} (hq : ofText other = ⟨.above up, bs⟩) : False := by
  have hnames : ∀ name, IsName name → List.replicate 1 name ++ bs = (ofText text).names := by
    intro name hn
    have hbase := congrArg ofText (h _ (isRooted_nested name (1 + up)))
    rw [resolve_of_isRooted _ hr, ofText_normalize, ofText_resolve_nested hn hq] at hbase
    rw [hbase]
  cases eq_zero_of_replicate hnames

theorem Agree.ofText_eq (h : Agree text other) : ofText text = ofText other := by
  cases hr : isRooted text with
  | true =>
    cases hr' : isRooted other with
    | true =>
      have hroot := h "/" (by decide_cbv)
      rw [resolve_of_isRooted _ hr, resolve_of_isRooted _ hr'] at hroot
      exact normalize_eq_iff.mp hroot
    | false =>
      obtain ⟨up, bs, hq⟩ := exists_ofText_eq hr'
      exact (h.not_relative hr hq).elim
  | false =>
    obtain ⟨up, as, hp⟩ := exists_ofText_eq hr
    cases hr' : isRooted other with
    | true => exact (h.symm.not_relative hr' hp).elim
    | false =>
      obtain ⟨up', bs, hq⟩ := exists_ofText_eq hr'
      rcases Nat.le_total up up' with hle | hle
      · exact h.ofText_eq_of_le hp hq hle
      · exact (h.symm.ofText_eq_of_le hq hp hle).symm

theorem agree_of_ofText_eq (h : ofText text = ofText other) : Agree text other := by
  intro base hb
  cases hr : isRooted text with
  | true =>
    have hr' : isRooted other = true := by
      by_contra hr'
      obtain ⟨up, bs, hq⟩ := exists_ofText_eq (Bool.eq_false_of_not_eq_true hr')
      cases (start_ofText hr).symm.trans (congrArg Path.start (h.trans hq))
    rw [resolve_of_isRooted _ hr, resolve_of_isRooted _ hr', normalize_eq_iff.mpr h]
  | false =>
    obtain ⟨up, as, hp⟩ := exists_ofText_eq hr
    have hr' : isRooted other = false := isRooted_eq_false (by rw [← h, hp])
    have hne := ne_empty_of_isRooted hb
    rw [resolve_eq_toText hne hr, resolve_eq_toText hne hr', walk_segmentsOf _ hr,
      walk_segmentsOf _ hr', h]

/-- Normalizing a text gives it a canonical form: one that is kept when it is
normalized again, and that two texts share exactly if they lead to the same place
from everywhere. -/
theorem normalize_isCanonical (text other : String) :
    normalize (normalize text) = normalize text ∧ IsCanonical (normalize text) ∧
      (normalize text = normalize other ↔
        ∀ base, isRooted base = true → resolve base text = resolve base other) := by
  refine ⟨normalize_normalize text, isCanonical_iff.mpr (normalize_normalize text), ?_⟩
  rw [normalize_eq_iff]
  exact ⟨agree_of_ofText_eq, Agree.ofText_eq⟩

end Agree

end ElementWrappers.Path
