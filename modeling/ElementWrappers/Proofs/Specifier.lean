import Mathlib
import ElementWrappers.Proofs.PathText

/-!
# Module specifiers

A specifier is a relative walk from the directory of the importing file to the
directory of its target, and the name of the target without its extension.
`join_specifier` follows it back: the specifier with the extension, joined to
the directory of the importer, is the target. `leadsTo_specifier` adds how it is
written.
-/

namespace ElementWrappers.Path

/-! ## Relative walks -/

/-- The relative walk between two places leads from one to the other. -/
theorem walk_between (start : Start) (common as : List String) {bs : List String}
    (hb : ∀ s ∈ bs, IsName s) :
    walk ⟨start, common ++ as⟩ (between as bs) = ⟨start, common ++ bs⟩ := by
  induction as generalizing common bs with
  | nil =>
    show walk _ (List.replicate 0 ".." ++ bs) = _
    rw [List.replicate_zero, List.nil_append, walk_names hb, List.append_nil]
  | cons a as ih =>
    cases bs with
    | nil =>
      show walk _ (List.replicate (a :: as).length ".." ++ []) = _
      rw [List.append_nil, walk_dots, List.append_nil]
    | cons b bs =>
      unfold between
      split
      · rename_i hab
        subst hab
        have h := ih (common ++ [a]) fun s hs => hb s (List.mem_cons_of_mem _ hs)
        simpa using h
      · show walk _ (List.replicate (a :: as).length ".." ++ b :: bs) = _
        rw [walk_append, walk_dots, walk_names hb]

theorem mem_between {as bs : List String} {s : String} (h : s ∈ between as bs) :
    s = ".." ∨ s ∈ bs := by
  induction as generalizing bs with
  | nil =>
    cases bs with
    | nil => exact absurd h (by simp [between])
    | cons b bs => exact .inr (by simpa [between] using h)
  | cons a as ih =>
    cases bs with
    | nil =>
      have h : s ∈ List.replicate (a :: as).length ".." := by simpa [between] using h
      exact .inl (List.eq_of_mem_replicate h)
    | cons b bs =>
      unfold between at h
      split at h
      · exact (ih h).imp_right (List.mem_cons_of_mem _)
      · exact (List.mem_append.mp h).imp_left List.eq_of_mem_replicate

/-- The dot in front of a relative directory does not lead anywhere. -/
theorem walk_dotted (p : Path) {segments : List String}
    (h : ∀ s ∈ segments, '/' ∉ s.toList ∧ '\\' ∉ s.toList) :
    p.walk (segmentsOf (dotted segments)) = p.walk segments := by
  cases segments with
  | nil =>
    rw [show segmentsOf (dotted []) = ["."] by decide]
    simp
  | cons s rest =>
    show p.walk (segmentsOf (if s = ".." then "/".intercalate (s :: rest)
      else "./" ++ "/".intercalate (s :: rest))) = _
    split
    · rw [segmentsOf_intercalate (by simp) h]
    · rw [show "./" = "." ++ "/" by decide, segmentsOf_append,
        segmentsOf_intercalate (by simp) h, walk_append,
        show segmentsOf "." = ["."] by decide]
      simp

/-! ## Names with an extension -/

/-- The name of a path is longer than `extension` and ends in it. -/
def EndsIn (extension text : String) : Prop :=
  ∃ stem, stem ≠ "" ∧ (ofText text).last = stem ++ extension

theorem stripExtension_append {stem : String} (h : stem ≠ "") (extension : String) :
    stripExtension (stem ++ extension) extension = stem := by
  have hs : extension.toList.isSuffixOf (stem ++ extension).toList = true := by
    rw [List.isSuffixOf_iff_suffix, String.toList_append]
    exact List.suffix_append _ _
  have hl : extension.length < (stem ++ extension).length := by
    have : stem.length ≠ 0 := fun e => h (String.length_eq_zero_iff.mp e)
    rw [String.length_append]
    omega
  unfold stripExtension
  rw [if_pos (Bool.and_eq_true_iff.mpr ⟨hs, decide_eq_true hl⟩), String.length_append, Nat.add_sub_cancel, String.toList_append,
    ← String.length_toList, List.take_left, String.ofList_toList]

theorem backslash_not_mem_last (text : String) : '\\' ∉ (ofText text).last.toList := by
  unfold last
  split
  · rename_i name hn
    exact (isNormal_ofText text name (List.mem_of_getLast? hn)).no_backslash
  · split <;> decide_cbv

/-- A place with a name is the parent's place and the name. -/
theorem eq_concat_of_last_ne_empty {p : Path} (hp : p.start = .root) (h : p.last ≠ "") :
    p = ⟨.root, p.parent.names ++ [p.last]⟩ := by
  obtain ⟨start, names⟩ := p
  obtain rfl : start = .root := hp
  rcases List.eq_nil_or_concat' names with rfl | ⟨init, s, rfl⟩
  · exact absurd rfl h
  · rw [parent_concat, last_concat]

/-! ## Following a specifier -/

/-- Joining a specifier with its extension to the importer's directory gives
the target. -/
theorem join_specifier {importer target extension : String} (hi : isRooted importer = true)
    (ht : isRooted target = true) (he : EndsIn extension target) :
    join (directory importer) [specifier importer target extension ++ extension] =
      normalize target := by
  obtain ⟨stem, hne, hlast⟩ := he
  have htarget := eq_concat_of_last_ne_empty (start_ofText ht) (by rw [hlast]; simp [hne])
  have hnormal := isNormal_ofText target
  have hname : IsName (stem ++ extension) :=
    hnormal _ (by rw [htarget, hlast]; exact List.mem_append_right _ (List.mem_singleton_self _))
  have hnames : ∀ s ∈ (ofText target).parent.names, IsName s :=
    isNormal_parent hnormal
  have hfrom : (ofText importer).parent = ⟨.root, (ofText importer).parent.names⟩ :=
    Path.mk.injEq .. ▸ ⟨start_parent_root (start_ofText hi), rfl⟩
  have hto : (ofText target).parent = ⟨.root, (ofText target).parent.names⟩ :=
    Path.mk.injEq .. ▸ ⟨start_parent_root (start_ofText ht), rfl⟩
  have hsegments : segmentsOf (specifier importer target extension ++ extension) =
      segmentsOf (dotted (between (ofText importer).parent.names (ofText target).parent.names)) ++
        [stem ++ extension] := by
    unfold specifier baseName
    rw [hlast, stripExtension_append hne, String.append_assoc, segmentsOf_append,
      segmentsOf_name hname, hfrom, hto]
    rfl
  have hslash : ∀ s ∈ between (ofText importer).parent.names (ofText target).parent.names,
      '/' ∉ s.toList ∧ '\\' ∉ s.toList := by
    intro s hs
    rcases mem_between hs with rfl | hs
    · decide
    · exact ⟨(hnames s hs).no_slash, (hnames s hs).no_backslash⟩
  have hdir : directory importer ≠ "" :=
    ne_empty_of_isRooted (isRooted_toText (start_parent_root (start_ofText hi)))
  rw [join_eq_toText hdir, ofText_directory, List.flatMap_singleton, hsegments, walk_append,
    walk_dotted _ hslash, hfrom]
  have hwalk := walk_between .root [] (ofText importer).parent.names hnames
  rw [List.nil_append, List.nil_append] at hwalk
  rw [hwalk, walk_cons, walk_nil, step_name _ hname, ← hlast, ← htarget]
  rfl

/-! ## How a specifier is written -/

theorem dotted_begins (segments : List String) (base : String) :
    "./".toList <+: (dotted segments ++ "/" ++ base).toList ∨
      "../".toList <+: (dotted segments ++ "/" ++ base).toList := by
  cases segments with
  | nil => exact .inl ⟨base.toList, by simp [dotted]⟩
  | cons s rest =>
    by_cases hs : s = ".."
    · subst hs
      cases rest with
      | nil => exact .inr ⟨base.toList, by simp [dotted]⟩
      | cons t rest =>
        exact .inr ⟨("/".intercalate (t :: rest) ++ "/" ++ base).toList, by simp [dotted]⟩
    · exact .inl ⟨("/".intercalate (s :: rest) ++ "/" ++ base).toList, by simp [dotted, hs]⟩

theorem backslash_not_mem_dotted {segments : List String} (h : ∀ s ∈ segments, '\\' ∉ s.toList) :
    '\\' ∉ (dotted segments).toList := by
  have hjoined : '\\' ∉ ("/".intercalate segments).toList :=
    Text.intercalate_of_forall (P := fun text => '\\' ∉ text) List.not_mem_nil
      (fun hx hy => List.not_mem_append hx hy) (by decide_cbv) h
  cases segments with
  | nil => decide_cbv
  | cons s rest =>
    by_cases hs : s = ".."
    · simpa [dotted, hs] using hjoined
    · simpa [dotted, hs] using hjoined

/-- How a specifier leads from the file `importer` to the file `target`. -/
structure LeadsTo (importer extension target specifier : String) : Prop where
  relative : "./".toList <+: specifier.toList ∨ "../".toList <+: specifier.toList
  no_backslash : '\\' ∉ specifier.toList
  resolves : join (directory importer) [specifier ++ extension] = normalize target

theorem leadsTo_specifier {importer target extension : String} (hi : isRooted importer = true)
    (ht : isRooted target = true) (he : EndsIn extension target) :
    LeadsTo importer extension target (specifier importer target extension) := by
  refine ⟨dotted_begins _ _, ?_, join_specifier hi ht he⟩
  have hbetween : ∀ s ∈ between (ofText importer).parent.segments (ofText target).parent.segments,
      '\\' ∉ s.toList := by
    intro s hs
    rcases mem_between hs with rfl | hs
    · decide_cbv
    · exact (segments_no_slash (isNormal_parent (isNormal_ofText target)) s hs).2
  have hname : '\\' ∉ (baseName target extension).toList := by
    obtain ⟨stem, hne, hlast⟩ := he
    have hin : '\\' ∉ (stem ++ extension).toList := hlast ▸ backslash_not_mem_last target
    rw [baseName, hlast, stripExtension_append hne]
    rw [String.toList_append] at hin
    exact fun h => hin (List.mem_append_left _ h)
  have hslash : '\\' ∉ "/".toList := by decide_cbv
  rw [specifier, String.toList_append, String.toList_append]
  exact List.not_mem_append (List.not_mem_append (backslash_not_mem_dotted hbetween) hslash) hname

theorem leadsTo_specifier_utils :
    isRooted "/lib/src/../components/my-a.ts" = true ∧
      isRooted "\\lib\\angular//./utils.d.ts" = true ∧
      EndsIn ".d.ts" "\\lib\\angular//./utils.d.ts" ∧
      LeadsTo "/lib/src/../components/my-a.ts" ".d.ts" "\\lib\\angular//./utils.d.ts"
        "../angular/utils" := by
  have hi : isRooted "/lib/src/../components/my-a.ts" = true := by decide_cbv
  have ht : isRooted "\\lib\\angular//./utils.d.ts" = true := by decide_cbv
  have he : EndsIn ".d.ts" "\\lib\\angular//./utils.d.ts" := ⟨"utils", by decide_cbv⟩
  have hs : specifier "/lib/src/../components/my-a.ts" "\\lib\\angular//./utils.d.ts" ".d.ts" =
      "../angular/utils" := by decide_cbv
  exact ⟨hi, ht, he, hs ▸ leadsTo_specifier hi ht he⟩

end ElementWrappers.Path
