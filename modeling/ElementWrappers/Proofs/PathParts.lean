import Mathlib
import ElementWrappers.Proofs.NormalForm

/-!
# Parts of paths

A normal form is cut at its last slash into a directory and a last segment, `isCut_normalize`,
which make the path again when they are joined. Going up from directory to directory keeps the
normal form and ends at the `top`, and segments may be joined at once or one list after the
other: `join_isCompositional`.
-/

namespace ElementWrappers.Path

/-! ## Directory and last segment -/

theorem stripExtension_empty (name : String) : stripExtension name "" = name := by
  have hall : name.toList.take (name.length - "".length) = name.toList :=
    List.take_of_length_le (Nat.le_of_eq String.length_toList)
  unfold stripExtension
  rw [hall, String.ofList_toList, ite_self]

/-- From the parent of a place its last segment leads back. -/
theorem walk_parent_last {p : Path} (h : p.IsNormal) : p.parent.walk (segmentsOf p.last) = p := by
  obtain ⟨start, names⟩ := p
  rcases List.eq_nil_or_concat' names with rfl | ⟨init, name, rfl⟩
  · cases start with
    | root => decide
    | above n =>
      cases n with
      | zero => decide
      | succ n =>
        show walk ⟨.above n, []⟩ (segmentsOf "..") = ⟨.above (n + 1), []⟩
        rw [segmentsOf_single (by decide) (by decide)]
        rfl
  · have hname : IsName name := h name (List.mem_append_right _ List.mem_cons_self)
    rw [parent_concat, last_concat, segmentsOf_name hname, walk_cons, step_name _ hname]
    rfl

theorem join_directory_baseName (text : String) :
    join (directory text) [baseName text ""] = normalize text := by
  have hnormal := isNormal_ofText text
  have hne : directory text ≠ "" := toText_ne_empty (isNormal_parent hnormal)
  rw [join_eq_toText hne, List.flatMap_singleton, ofText_directory, baseName,
    stripExtension_empty, walk_parent_last hnormal]
  rfl

theorem normalize_directory (text : String) : normalize (directory text) = directory text :=
  normalize_toText (isNormal_parent (isNormal_ofText text))

/-! ## The last slash -/

/-- A text cut at its last slash. The slash that a text begins with stays where it is, and a
text without any lies in the directory it is seen from. -/
inductive IsCut : String → String → String → Prop
  | here {name : String} (hname : '/' ∉ name.toList) : IsCut name "." name
  | root {name : String} (hname : '/' ∉ name.toList) : IsCut ("/" ++ name) "/" name
  | inside {dir name : String} (hdir : dir ≠ "") (hname : '/' ∉ name.toList) :
    IsCut (dir ++ "/" ++ name) dir name

theorem segments_eq_concat {p : Path} (h : p.segments ≠ []) :
    p.segments = p.parent.segments ++ [p.last] := by
  obtain ⟨start, names⟩ := p
  rcases List.eq_nil_or_concat' names with rfl | ⟨init, name, rfl⟩
  · cases start with
    | root => exact absurd rfl h
    | above n =>
      cases n with
      | zero => exact absurd rfl h
      | succ n =>
        show List.replicate (n + 1) ".." ++ [] = (List.replicate n ".." ++ []) ++ [".."]
        rw [List.append_nil, List.append_nil, List.replicate_succ']
  · rw [parent_concat, last_concat, segments, segments, List.append_assoc]

theorem eq_of_segments_eq_nil {p : Path} (h : p.segments = []) : p = ⟨.root, []⟩ ∨ p = here := by
  obtain ⟨start, names⟩ := p
  obtain ⟨hdots, rfl⟩ := List.append_eq_nil_iff.mp h
  cases start with
  | root => exact .inl rfl
  | above n =>
    obtain rfl : n = 0 := by simpa [Start.dots] using hdots
    exact .inr rfl

theorem start_parent_iff {p : Path} : p.parent.start = .root ↔ p.start = .root := by
  obtain ⟨start, names⟩ := p
  cases names with
  | nil => cases start <;> simp [parent, Start.shorten]
  | cons s rest => exact Iff.rfl

theorem toText_of_root {p : Path} (h : p.start = .root) :
    p.toText = "/" ++ "/".intercalate p.segments := by
  rw [toText, h]

theorem toText_of_ne_nil {p : Path} (h : p.start ≠ .root) (hs : p.segments ≠ []) :
    p.toText = "/".intercalate p.segments := by
  obtain ⟨s, rest, he⟩ := List.exists_cons_of_ne_nil hs
  unfold toText
  split
  · contradiction
  · rw [he]

theorem isCut_slash_intercalate (front : List String) {name : String} (h : '/' ∉ name.toList) :
    IsCut ("/" ++ "/".intercalate (front ++ [name])) ("/" ++ "/".intercalate front) name := by
  by_cases hfront : front = []
  · rw [hfront, List.nil_append, String.intercalate_singleton]
    exact .root h
  · rw [String.intercalate_append_of_ne_nil hfront (List.cons_ne_nil _ _),
      String.intercalate_singleton, ← String.append_assoc, ← String.append_assoc]
    exact .inside (by simp) h

theorem isCut_toText {p : Path} (h : p.IsNormal) : IsCut p.toText p.parent.toText p.last := by
  by_cases hs : p.segments = []
  · rcases eq_of_segments_eq_nil hs with rfl | rfl
    · exact IsCut.root (show '/' ∉ "".toList by decide)
    · exact .here (by decide)
  have hparts := segments_eq_concat hs
  have hlast : '/' ∉ p.last.toList :=
    (segments_no_slash h _ (hparts ▸ List.mem_append_right _ List.mem_cons_self)).1
  by_cases hroot : p.start = .root
  · rw [toText_of_root hroot, toText_of_root (start_parent_iff.mpr hroot), hparts]
    exact isCut_slash_intercalate _ hlast
  have habove := mt start_parent_iff.mp hroot
  rw [toText_of_ne_nil hroot hs, hparts]
  by_cases hup : p.parent.segments = []
  · have hhere : p.parent = Path.here :=
      (eq_of_segments_eq_nil hup).resolve_left fun he => habove (by rw [he])
    rw [hup, hhere, List.nil_append, String.intercalate_singleton]
    exact .here hlast
  · have hdir := toText_ne_empty (isNormal_parent h)
    rw [toText_of_ne_nil habove hup] at hdir ⊢
    rw [String.intercalate_append_of_ne_nil hup (List.cons_ne_nil _ _),
      String.intercalate_singleton]
    exact .inside hdir hlast

/-- The directory and the last segment are what the last slash of the normal form separates. -/
theorem isCut_normalize (text : String) :
    IsCut (normalize text) (directory text) (baseName text "") := by
  rw [baseName, stripExtension_empty]
  exact isCut_toText (isNormal_ofText text)

/-! ## Going up -/

/-- The place some levels above a text. -/
def ancestor (text : String) : Nat → String
  | 0 => normalize text
  | n + 1 => directory (ancestor text n)

/-- The place above which there is none. -/
def top (text : String) : String := if isRooted text then "/" else "."

theorem normalize_ancestor (text : String) (n : Nat) :
    normalize (ancestor text n) = ancestor text n := by
  cases n with
  | zero => exact normalize_normalize text
  | succ n => exact normalize_directory _

theorem segments_parent (p : Path) : p.parent.segments = p.segments.dropLast := by
  by_cases hs : p.segments = []
  · rcases eq_of_segments_eq_nil hs with rfl | rfl
    · rfl
    · rfl
  · rw [segments_eq_concat hs, List.dropLast_concat]

theorem start_ofText_iff {text : String} : (ofText text).start = .root ↔ isRooted text = true := by
  refine ⟨fun h => ?_, start_ofText⟩
  by_contra hr
  obtain ⟨up, names, hp⟩ := exists_ofText_eq (Bool.eq_false_of_not_eq_true hr)
  rw [hp] at h
  cases h

theorem start_ancestor_iff {text : String} {n : Nat} :
    (ofText (ancestor text n)).start = .root ↔ isRooted text = true := by
  induction n with
  | zero => rw [ancestor, ofText_normalize, start_ofText_iff]
  | succ n ih => rw [ancestor, ofText_directory, start_parent_iff, ih]

/-- Each level has one segment less, as long as there are some. -/
theorem length_segments_ancestor (text : String) (n : Nat) :
    (ofText (ancestor text n)).segments.length = (ofText text).segments.length - n := by
  induction n with
  | zero => rw [ancestor, ofText_normalize, Nat.sub_zero]
  | succ n ih =>
    rw [ancestor, ofText_directory, segments_parent, List.length_dropLast, ih, Nat.sub_sub]

/-- A place without segments is where the walk of a text begins. -/
theorem eq_origin_iff {p : Path} {text : String} (h : p.start = .root ↔ isRooted text = true) :
    p = origin text ↔ p.segments.length = 0 := by
  rw [List.length_eq_zero_iff]
  constructor
  · intro hp
    rw [hp, origin]
    split <;> rfl
  · intro hs
    rcases eq_of_segments_eq_nil hs with rfl | rfl
    · rw [origin, if_pos (h.mp rfl)]
    · rw [origin, if_neg fun hr => by cases h.mpr hr]

theorem top_eq_toText (text : String) : top text = (origin text).toText := by
  unfold top origin
  split
  · decide
  · decide

theorem ancestor_eq_top_iff {text : String} {n : Nat} :
    ancestor text n = top text ↔ (steps (normalize text)).length ≤ n := by
  have htop : ofText (top text) = origin text := by
    rw [top_eq_toText, ofText_toText (isNormal_origin text)]
  have hnormal : normalize (top text) = top text := by
    rw [top_eq_toText, normalize_toText (isNormal_origin text)]
  rw [← normalize_ancestor, ← hnormal, normalize_eq_iff, htop, eq_origin_iff start_ancestor_iff,
    length_segments_ancestor, steps_normalize, Nat.sub_eq_zero_iff_le]

/-! ## Joining twice -/

theorem join_join_of_some {base : String} {first : List String} (h : base ≠ "" ∨ first ≠ [])
    (further : List String) : join (join base first) further = join base (first ++ further) := by
  by_cases hb : base = ""
  · obtain ⟨s, rest, rfl⟩ := List.exists_cons_of_ne_nil (h.resolve_left (absurd hb))
    -- the slash before the first segment stands in the text from then on
    have hslash : base ++ "/" ++ s ≠ "" := by simp
    exact join_join hslash rest further
  · exact join_join hb first further

/-- A path is cut at its last slash into its directory and its last segment, and these joined
are the path. Its directories are normal forms; the top is reached after as many levels as
there are segments, and not left again. Joining goes on where joining ended. -/
theorem join_isCompositional (text base : String) (first further : List String) :
    IsCut (normalize text) (directory text) (baseName text "") ∧
    join (directory text) [baseName text ""] = normalize text ∧
    normalize (directory text) = directory text ∧
    (∀ n, normalize (ancestor text n) = ancestor text n) ∧
    (∀ n, ancestor text n = top text ↔ (steps (normalize text)).length ≤ n) ∧
    (base ≠ "" ∨ first ≠ [] →
      join (join base first) further = join base (first ++ further)) :=
  ⟨isCut_normalize text, join_directory_baseName text, normalize_directory text,
    normalize_ancestor text, fun _ => ancestor_eq_top_iff, fun h => join_join_of_some h further⟩

theorem join_isCompositional_fromRoot :
    ("" ≠ "" ∨ ["lib", "src\\.."] ≠ []) ∧ join "" ["lib", "src\\.."] = "/lib" ∧
      join "/lib" ["../..", "a"] = join "" ["lib", "src\\..", "../..", "a"] ∧
    IsCut "../../a" "../.." "a" ∧ join "../.." ["a"] = "../../a" ∧ normalize "../.." = "../.." ∧
      ancestor "..\\./..//a/" 2 ≠ "." ∧ ancestor "..\\./..//a/" 3 = "." ∧
      ancestor "..\\./..//a/" 4 = "." := by
  have hsome : "" ≠ "" ∨ ["lib", "src\\.."] ≠ [] := .inr (List.cons_ne_nil _ _)
  have hfirst : join "" ["lib", "src\\.."] = "/lib" := by decide +kernel
  have htext : normalize "..\\./..//a/" = "../../a" := by decide +kernel
  have hdirectory : directory "..\\./..//a/" = "../.." := by decide +kernel
  have hname : baseName "..\\./..//a/" "" = "a" := by decide +kernel
  have hsteps : (steps "../../a").length = 3 := by decide +kernel
  have htop : top "..\\./..//a/" = "." := by decide +kernel
  obtain ⟨hcut, hjoin, hnormal, -, hend, hgroup⟩ :=
    join_isCompositional "..\\./..//a/" "" ["lib", "src\\.."] ["../..", "a"]
  rw [htext, hdirectory, hname] at hcut hjoin
  rw [hdirectory] at hnormal
  rw [htop, htext, hsteps] at hend
  have hjoined := hgroup hsome
  rw [hfirst] at hjoined
  exact ⟨hsome, hfirst, hjoined, hcut, hjoin, hnormal, mt (hend 2).mp (by decide),
    (hend 3).mpr (by decide), (hend 4).mpr (by decide)⟩

end ElementWrappers.Path
