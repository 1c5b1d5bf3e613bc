import Mathlib
import ElementWrappers.Proofs.ElementTags
import ElementWrappers.Proofs.LocalNames

/-!
# Class names of a pass

The class name of a tag shows where a segment begins by a capital, and digits
have none: a dash before a digit leaves no mark. So tags share a class name
exactly when they differ in such dashes only, and the class of a tag that ends
in `-module` may be called like the module of another.
`nodup_classes_iff` says that no names clash otherwise.
-/

namespace ElementWrappers

namespace Naming

/-- A segment as its class name shows it: its dash is lost before a digit. -/
def marked : List Char → List Char
  | [] => []
  | c :: cs => if c.isDigit then c :: cs else '-' :: c :: cs

/-- What the class name of a tag shows of it. -/
def skeleton (tag : String) : List Char := (segments tag).flatMap marked

/-- A class name in small letters, with a dash before each capital. -/
def spelled (name : List Char) : List Char :=
  name.flatMap fun c => if c.isUpper then ['-', c.toLower] else [c]

theorem spelled_cons (c : Char) (cs : List Char) :
    spelled (c :: cs) = (if c.isUpper then ['-', c.toLower] else [c]) ++ spelled cs := rfl

theorem spelled_append (a b : List Char) : spelled (a ++ b) = spelled a ++ spelled b :=
  List.flatMap_append

theorem spelled_eq_self {cs : List Char} (h : ∀ c ∈ cs, ¬ c.isUpper = true) : spelled cs = cs := by
  induction cs with
  | nil => rfl
  | cons c cs ih =>
    rw [spelled_cons, if_neg (h c List.mem_cons_self),
      ih fun d hd => h d (List.mem_cons_of_mem _ hd), List.singleton_append]

/-- The name that a spelling is read as. -/
def unspelled : List Char → List Char
  | '-' :: c :: cs => c.toUpper :: unspelled cs
  | c :: cs => c :: unspelled cs
  | [] => []

theorem unspelled_cons {c : Char} (hc : c ≠ '-') (cs : List Char) :
    unspelled (c :: cs) = c :: unspelled cs := by
  rw [unspelled]
  rintro d ds rfl -
  exact hc rfl

/-- The spelling of a name without dashes tells the name. -/
theorem unspelled_spelled {name : List Char} (h : '-' ∉ name) :
    unspelled (spelled name) = name := by
  induction name with
  | nil => rfl
  | cons c cs ih =>
    obtain ⟨hc, hcs⟩ := List.ne_and_not_mem_of_not_mem_cons h
    rw [spelled_cons]
    split
    · rename_i hu
      show c.toLower.toUpper :: unspelled (spelled cs) = _
      rw [ih hcs, Char.toUpper_toLower_eq_toUpper,
        Char.toUpper_eq_of_not_isLower (Char.not_isLower_of_isUpper hu)]
    · rw [List.singleton_append, unspelled_cons hc.symm, ih hcs]

theorem spelled_injective {a b : List Char} (ha : '-' ∉ a) (hb : '-' ∉ b)
    (h : spelled a = spelled b) : a = b := by
  rw [← unspelled_spelled ha, h, unspelled_spelled hb]

/-! ## Segments -/

theorem not_isAlpha_of_isDigit {c : Char} (h : c.isDigit = true) : ¬ c.isAlpha = true := by
  grind [Char.isDigit, Char.isLower, Char.isUpper, Char.isAlpha]

theorem isAlpha_of_isLower {c : Char} (h : c.isLower = true) : c.isAlpha = true := by
  simp [Char.isAlpha, h]

theorem toUpper_of_isDigit {c : Char} (h : c.isDigit = true) : c.toUpper = c :=
  Char.toUpper_eq_of_not_isLower fun hl => not_isAlpha_of_isDigit h (isAlpha_of_isLower hl)

namespace IsSegment

variable {s : List Char} {c : Char}

theorem uppercase_eq (h : IsSegment s) (hc : c ∈ s) : Text.uppercase c = [c.toUpper] := by
  have hc := h.chars c hc
  simp only [Char.isDigit, Char.isLower, Bool.and_eq_true, decide_eq_true_eq,
    UInt32.le_iff_toNat_le, ge_iff_le, Char.toNat_val] at hc
  refine if_pos ?_
  rcases hc with ⟨-, hc⟩ | ⟨-, hc⟩
  · exact lt_of_le_of_lt hc (by decide)
  · exact lt_of_le_of_lt hc (by decide)

theorem not_isUpper (h : IsSegment s) (hc : c ∈ s) : ¬ c.isUpper = true := by
  rcases h.chars c hc with hl | hd
  · exact Char.not_isUpper_of_isLower hl
  · exact fun hu => not_isAlpha_of_isDigit hd (by simp [Char.isAlpha, hu])

theorem ne_dash (h : IsSegment s) (hc : c ∈ s) : c ≠ '-' := by
  rintro rfl
  exact absurd (h.chars _ hc) (by decide)

theorem capitalize_cons {cs : List Char} (h : IsSegment (c :: cs)) :
    capitalize (c :: cs) = c.toUpper :: cs := by
  rw [capitalize, h.uppercase_eq List.mem_cons_self, List.singleton_append]

theorem spelled_capitalize (h : IsSegment s) : spelled (capitalize s) = marked s := by
  cases s with
  | nil => exact absurd rfl h.ne_nil
  | cons c cs =>
    have hcs : spelled cs = cs :=
      spelled_eq_self fun d hd => h.not_isUpper (List.mem_cons_of_mem _ hd)
    rw [h.capitalize_cons, spelled_cons, hcs, Char.isUpper_toUpper_eq_isAlpha,
      Char.toLower_toUpper_eq_toLower, marked]
    rcases h.chars c List.mem_cons_self with hl | hd
    · have hlow : c.toLower = c :=
        Char.toLower_eq_of_not_isUpper (Char.not_isUpper_of_isLower hl)
      have hnd : ¬ c.isDigit = true := fun hd => not_isAlpha_of_isDigit hd (isAlpha_of_isLower hl)
      rw [if_pos (isAlpha_of_isLower hl), if_neg hnd, hlow]
      rfl
    · rw [if_neg (not_isAlpha_of_isDigit hd), if_pos hd, toUpper_of_isDigit hd,
        List.singleton_append]

theorem toUpper_ne_dash (h : IsSegment s) (hc : c ∈ s) : c.toUpper ≠ '-' := by
  intro he
  rcases h.chars c hc with hl | hd
  · have hu := Char.isUpper_toUpper_eq_isAlpha (c := c)
    rw [he, isAlpha_of_isLower hl] at hu
    exact absurd hu (by decide)
  · rw [toUpper_of_isDigit hd] at he
    exact h.ne_dash hc he

theorem dash_notMem_capitalize (h : IsSegment s) : '-' ∉ capitalize s := by
  cases s with
  | nil => exact List.not_mem_nil
  | cons c cs =>
    rw [h.capitalize_cons, List.mem_cons, not_or]
    exact ⟨(h.toUpper_ne_dash List.mem_cons_self).symm,
      fun hm => h.ne_dash (List.mem_cons_of_mem _ hm) rfl⟩

end IsSegment

/-! ## Class names -/

section

variable {tag other : String}

theorem toList_className (tag : String) :
    (className tag).toList = (segments tag).flatMap capitalize := String.toList_ofList

theorem IsElementTag.spelled_className (h : IsElementTag tag) :
    spelled (className tag).toList = skeleton tag := by
  rw [toList_className, spelled, List.flatMap_assoc]
  exact List.flatMap_congr fun s hs => (h.segments s hs).spelled_capitalize

theorem IsElementTag.dash_notMem_className (h : IsElementTag tag) :
    '-' ∉ (className tag).toList := by
  rw [toList_className, List.mem_flatMap]
  rintro ⟨s, hs, hm⟩
  exact (h.segments s hs).dash_notMem_capitalize hm

/-- Two tags share a class name exactly when they differ in dashes before
digits only. -/
theorem className_eq_iff (h : IsElementTag tag) (h' : IsElementTag other) :
    className tag = className other ↔ skeleton tag = skeleton other := by
  rw [← h.spelled_className, ← h'.spelled_className, ← String.toList_inj]
  exact ⟨congrArg spelled, spelled_injective h.dash_notMem_className h'.dash_notMem_className⟩

/-- The name of the module beside the wrapper of a tag. -/
def moduleName (tag : String) : String := className tag ++ "Module"

theorem moduleName_eq_iff (h : IsElementTag tag) (h' : IsElementTag other) :
    moduleName tag = moduleName other ↔ skeleton tag = skeleton other := by
  rw [← className_eq_iff h h', moduleName, moduleName, String.append_left_inj]

/-- A wrapper is called like a module when its tag ends in `-module` where the
other tag ends. -/
theorem className_eq_moduleName_iff (h : IsElementTag tag) (h' : IsElementTag other) :
    className tag = moduleName other ↔ skeleton tag = skeleton other ++ "-module".toList := by
  have hm : spelled "Module".toList = "-module".toList := by decide
  rw [← h.spelled_className, ← h'.spelled_className, ← hm, ← spelled_append, moduleName,
    ← String.toList_inj, String.toList_append]
  refine ⟨congrArg spelled, spelled_injective h.dash_notMem_className ?_⟩
  exact List.not_mem_append h'.dash_notMem_className (by decide)

end

/-- Tags whose classes, and modules if there are any, all have names of their
own. -/
structure AreSpelledApart (tags : List String) (mode : OutputMode) : Prop where
  classes : ∀ tag ∈ tags, ∀ other ∈ tags, skeleton tag = skeleton other → tag = other
  modules : mode = .moduleEach →
    ∀ tag ∈ tags, ∀ other ∈ tags, skeleton tag ≠ skeleton other ++ "-module".toList

theorem nodup_names_iff {tags : List String} {mode : OutputMode}
    (htags : ∀ tag ∈ tags, IsElementTag tag) (hnodup : tags.Nodup) :
    (tags.map className ++ if mode = .moduleEach then tags.map moduleName else []).Nodup ↔
      AreSpelledApart tags mode := by
  have hclasses : (tags.map className).Nodup ↔
      ∀ tag ∈ tags, ∀ other ∈ tags, skeleton tag = skeleton other → tag = other := by
    rw [List.nodup_map_iff_inj_on hnodup]
    refine forall₄_congr fun tag ht other ho => ?_
    rw [className_eq_iff (htags tag ht) (htags other ho)]
  rw [List.nodup_append, hclasses]
  constructor
  · rintro ⟨hapart, -, hmodules⟩
    refine ⟨hapart, fun hm tag ht other ho he => ?_⟩
    rw [if_pos hm] at hmodules
    exact hmodules _ (List.mem_map_of_mem ht) _ (List.mem_map_of_mem ho)
      ((className_eq_moduleName_iff (htags tag ht) (htags other ho)).mpr he)
  · rintro ⟨hapart, hmodules⟩
    refine ⟨hapart, ?_, ?_⟩
    · split
      · refine (List.nodup_map_iff_inj_on hnodup).mpr fun tag ht other ho he => ?_
        exact hapart tag ht other ho ((moduleName_eq_iff (htags tag ht) (htags other ho)).mp he)
      · exact List.nodup_nil
    · intro name hn name' hn' he
      split at hn'
      · rename_i hm
        obtain ⟨tag, ht, rfl⟩ := List.mem_map.mp hn
        obtain ⟨other, ho, rfl⟩ := List.mem_map.mp hn'
        exact hmodules hm tag ht other ho
          ((className_eq_moduleName_iff (htags tag ht) (htags other ho)).mp he)
      · cases hn'

end Naming

/-! ## Declared classes -/

/-- A class of this name begins somewhere in the text. -/
def Declares (text name : String) : Prop :=
  ∃ before after, text = before ++ "export class " ++ name ++ " \x7b" ++ after

namespace Declares

variable {text name : String}

theorem append_right (h : Declares text name) (rest : String) : Declares (text ++ rest) name := by
  obtain ⟨before, after, rfl⟩ := h
  exact ⟨before, after ++ rest, by simp only [String.append_assoc]⟩

theorem append_left (h : Declares text name) (start : String) : Declares (start ++ text) name := by
  obtain ⟨before, after, rfl⟩ := h
  exact ⟨start ++ before, after, by simp only [String.append_assoc]⟩

theorem intercalate {parts : List String} (separator : String) (hm : text ∈ parts)
    (h : Declares text name) : Declares (separator.intercalate parts) name := by
  obtain ⟨before, after, he⟩ := exists_append_of_mem_intercalate separator hm
  rw [he]
  exact (h.append_left before).append_right after

theorem moduleDefinition (tag : String) :
    Declares (Naming.moduleDefinition tag) (Naming.moduleName tag) := by
  have hclass : "]\n\x7d)\nexport class " = "]\n\x7d)\n" ++ "export class " := by decide
  have hbody : "Module \x7b \x7d" = "Module" ++ (" \x7b" ++ " \x7d") := by decide
  refine ⟨"@NgModule(\x7b\n  declarations: [" ++ Naming.className tag ++ "],\n  exports: [" ++
    Naming.className tag ++ "]\n\x7d)\n", " \x7d", ?_⟩
  unfold Naming.moduleDefinition Naming.moduleName
  simp only [hclass, hbody, String.append_assoc]

theorem classText (w : WrapperClass) : Declares w.text w.className := by
  have hclass : "\n\x7d)\nexport class " = "\n\x7d)\n" ++ "export class " := by decide
  have hbody : " \x7b\n" = " \x7b" ++ "\n" := by decide
  refine ⟨w.decorator.text ++ "\n@Component(\x7b\n" ++ ",\n".intercalate w.componentOptions ++
    "\n\x7d)\n", "\n" ++ "\n".intercalate w.members ++ "\n" ++
      "\n".intercalate w.constructorLines ++ "\n\x7d", ?_⟩
  simp only [WrapperClass.text, hclass, hbody, String.append_assoc]

theorem aggregateSection {w : Wrapper} (hm : text ∈ w.definition :: w.moduleDefinition.toList)
    (h : Declares text name) : Declares w.aggregateSection name :=
  h.intercalate "\n\n" (List.mem_append_left _ hm)

theorem proxyText {w : Wrapper} {wrappers : List Wrapper} (hw : w ∈ wrappers)
    (h : Declares w.aggregateSection name) (mode : OutputMode) (location : TypeLocation)
    (target : Target) (paths : TargetPaths) :
    Declares (ProxyFile.text wrappers mode location target paths) name := by
  have hs : Declares ("\n\n".intercalate (ProxyFile.sections wrappers mode location target paths))
      name :=
    h.intercalate "\n\n" (List.mem_append_right _ (List.mem_map_of_mem hw))
  exact hs.append_right "\n"

theorem wrapperText {w : Wrapper} (h : Declares w.definition name) (file support : String) :
    Declares (ComponentFiles.wrapperText w file support) name := by
  have hs : Declares ("\n\n".intercalate (ComponentFiles.sections w file support)) name :=
    h.intercalate "\n\n" (List.mem_append_right _ (List.mem_singleton_self _))
  exact hs.append_right "\n"

end Declares

namespace Plan

/-- The modules beside the wrappers. -/
def moduleNames (p : Plan) : List String :=
  (p.wrappers.filter fun w => w.moduleDefinition.isSome).map fun w => Naming.moduleName w.tag

/-- The classes that the units of a plan declare. -/
def classes (p : Plan) : List String := p.classNames ++ p.moduleNames

/-- The element definers that wrappers import and the definitions export. -/
def definers (p : Plan) : List String := p.wrappers.map fun w => "define" ++ w.className

end Plan

namespace Assembly

variable {a : Assembly} {view : FileView} {p : Plan}

theorem classNames_of_ofAssembly (h : Plan.ofAssembly a view = .ok p) :
    p.classNames = (a.components.map Component.tag).map Naming.className := by
  rw [Plan.classNames, wrappers_of_ofAssembly h, wrappers, List.map_map, List.map_map]
  rfl

theorem moduleNames_of_ofAssembly (h : Plan.ofAssembly a view = .ok p) :
    p.moduleNames =
      if a.mode = .moduleEach then (a.components.map Component.tag).map Naming.moduleName
      else [] := by
  have hmodule : ∀ c, (a.wrapperOf c).moduleDefinition.isSome = (a.mode == .moduleEach) := by
    intro c
    show (if a.mode == .moduleEach then _ else none).isSome = _
    split
    · rename_i hm
      exact hm.symm
    · rename_i hm
      exact (Bool.eq_false_iff.mpr hm).symm
  rw [Plan.moduleNames, wrappers_of_ofAssembly h]
  show ((a.components.map a.wrapperOf).filter _).map _ = _
  split
  · rename_i hm
    rw [List.filter_eq_self.mpr, List.map_map, List.map_map]
    · rfl
    · intro w hw
      obtain ⟨c, -, rfl⟩ := List.mem_map.mp hw
      rw [hmodule, hm]
      rfl
  · rename_i hm
    rw [List.filter_eq_nil_iff.mpr, List.map_nil]
    intro w hw
    obtain ⟨c, -, rfl⟩ := List.mem_map.mp hw
    rw [hmodule, beq_iff_eq]
    exact hm

/-- The class of a wrapper stands in the file of the wrapper, its module beside
it. -/
theorem declares_of_mem_classes (h : Plan.ofAssembly a view = .ok p) {name : String}
    (hn : name ∈ p.classes) : ∃ f ∈ p.files, Declares f.content name := by
  rw [files_of_ofAssembly h]
  rcases List.mem_append.mp hn with hn | hn
  · rw [classNames_of_ofAssembly h, List.map_map] at hn
    obtain ⟨c, hc, rfl⟩ := List.mem_map.mp hn
    have hd : Declares (a.wrapperOf c).definition (Naming.className c.tag) :=
      Declares.classText (Wrapper.classOf c _)
    by_cases hm : a.mode.isPerComponent = true
    · exact ⟨_, wrapperText_mem hm hc, hd.wrapperText _ _⟩
    · exact ⟨_, proxyText_mem hm,
        (hd.aggregateSection List.mem_cons_self).proxyText (List.mem_map_of_mem hc) _ _ _ _⟩
  · rw [moduleNames_of_ofAssembly h, List.map_map] at hn
    split at hn
    · rename_i hmode
      obtain ⟨c, hc, rfl⟩ := List.mem_map.mp hn
      have hm : ¬ a.mode.isPerComponent = true := by rw [hmode]; decide
      have hmodule : (a.wrapperOf c).moduleDefinition = some (Naming.moduleDefinition c.tag) := by
        show (if a.mode == .moduleEach then _ else none) = _
        rw [hmode]
        rfl
      have hd : Declares (a.wrapperOf c).aggregateSection (Naming.moduleName c.tag) := by
        refine (Declares.moduleDefinition c.tag).aggregateSection (List.mem_cons_of_mem _ ?_)
        rw [hmodule]
        exact List.mem_singleton_self _
      exact ⟨_, proxyText_mem hm, hd.proxyText (List.mem_map_of_mem hc) _ _ _ _⟩
    · cases hn

end Assembly

namespace Target

variable {t : Target} {view : FileView} {components : List Component} {config : BuildConfig}
  {p : Plan}

/-- The tags of the components that get a wrapper. -/
def tags (t : Target) (components : List Component) : List String :=
  (Component.select t.excluded components).map Component.tag

theorem classNames_of_plan (hp : t.plan view components config = .ok p) :
    p.classNames = (t.tags components).map Naming.className := by
  obtain ⟨types, -, ha⟩ := assembly_of_plan hp
  exact Assembly.classNames_of_ofAssembly ha

theorem classes_of_plan (hp : t.plan view components config = .ok p) :
    p.classes = (t.tags components).map Naming.className ++
      if OutputMode.ofTarget t = .moduleEach then (t.tags components).map Naming.moduleName
      else [] := by
  rw [Plan.classes, classNames_of_plan hp]
  obtain ⟨types, -, ha⟩ := assembly_of_plan hp
  exact congrArg _ (Assembly.moduleNames_of_ofAssembly ha)

/-- Tags that are spelled apart, and only those, give every class and every
module of a pass its own name. -/
theorem nodup_classes_iff (htags : ∀ c ∈ components, Naming.IsElementTag c.tag)
    (hp : t.plan view components config = .ok p) :
    (∀ name ∈ p.classes, ∃ f ∈ p.files, Declares f.content name) ∧
      (p.classes.Nodup ↔ Naming.AreSpelledApart (t.tags components) (.ofTarget t)) ∧
      (p.classes.Nodup → p.classNames.Nodup ∧ p.definers.Nodup ∧
        ∀ source : DirectiveSource,
          ((Component.select t.excluded components).map source.entry).Nodup) := by
  refine ⟨?_, ?_, fun h => ?_⟩
  · obtain ⟨types, -, ha⟩ := assembly_of_plan hp
    exact fun name hn => Assembly.declares_of_mem_classes ha hn
  · rw [classes_of_plan hp]
    refine Naming.nodup_names_iff (fun tag ht => ?_) Component.nodup_tags_select
    obtain ⟨c, hc, rfl⟩ := List.mem_map.mp ht
    exact htags c (Component.mem_of_mem_select hc)
  · have hclasses : p.classNames.Nodup := (List.nodup_append.mp h).1
    refine ⟨hclasses, ?_, fun source => ?_⟩
    · rw [Plan.definers, ← Function.comp_def (fun name => "define" ++ name) Wrapper.className,
        ← List.map_map]
      exact hclasses.map fun _ _ he => (String.append_right_inj _).mp he
    · rw [classNames_of_plan hp, tags, List.map_map] at hclasses
      cases source with
      | componentDir path => exact hclasses
      | proxyFile path =>
        have hd := hclasses.map (f := fun name => "d." ++ name)
          fun _ _ he => (String.append_right_inj _).mp he
        rwa [List.map_map] at hd

/-- All wrappers in one file, each with its module. -/
def modular : Target := { aggregate with outputType := .scam }

theorem nodup_classes_iff_modular :
    ∃ p, modular.plan (fun _ => .error .missing) [myInput] repository = .ok p ∧
      (∀ c ∈ [myInput], Naming.IsElementTag c.tag) ∧
      (∀ name ∈ p.classes, ∃ f ∈ p.files, Declares f.content name) ∧
      (p.classes.Nodup ↔ Naming.AreSpelledApart (modular.tags [myInput]) (.ofTarget modular)) ∧
      (p.classes.Nodup → p.classNames.Nodup ∧ p.definers.Nodup ∧
        ∀ source : DirectiveSource,
          ((Component.select modular.excluded [myInput]).map source.entry).Nodup) := by
  obtain ⟨p, hp⟩ : ∃ p, modular.plan (fun _ => .error .missing) [myInput] repository = .ok p :=
    ⟨_, rfl⟩
  have htags : ∀ c ∈ [myInput], Naming.IsElementTag c.tag := by decide
  exact ⟨p, hp, htags, nodup_classes_iff htags hp⟩

/-- Tags that only a dash before a digit tells apart. -/
def numbered : List Component := [{ tag := "x-a-1b" }, { tag := "x-a1b" }]

/-- A tag, and the same tag with the ending of a module. -/
def nested : List Component := [{ tag := "my-a" }, { tag := "my-a-module" }]

theorem tags_numbered : aggregate.tags numbered = ["x-a-1b", "x-a1b"] := by
  rw [tags, Component.select, Component.sortByTag, List.mergeSort_of_pairwise (by decide)]
  rfl

theorem tags_nested : modular.tags nested = ["my-a", "my-a-module"] := by
  rw [tags, Component.select, Component.sortByTag, List.mergeSort_of_pairwise (by decide)]
  rfl

/-- Both wrapper classes are `XA1b`; both a wrapper and a module are `MyAModule`. -/
theorem not_nodup_classes :
    (∃ p, aggregate.plan (fun _ => .error .missing) numbered repository = .ok p ∧
      (∀ c ∈ numbered, Naming.IsElementTag c.tag) ∧ ¬ p.classes.Nodup) ∧
    (∃ p, modular.plan (fun _ => .error .missing) nested repository = .ok p ∧
      (∀ c ∈ nested, Naming.IsElementTag c.tag) ∧ ¬ p.classes.Nodup) := by
  constructor
  · obtain ⟨p, hp⟩ : ∃ p, aggregate.plan (fun _ => .error .missing) numbered repository = .ok p :=
      ⟨_, rfl⟩
    refine ⟨p, hp, by decide, ?_⟩
    rw [classes_of_plan hp, tags_numbered]
    decide
  · obtain ⟨p, hp⟩ : ∃ p, modular.plan (fun _ => .error .missing) nested repository = .ok p :=
      ⟨_, rfl⟩
    refine ⟨p, hp, by decide, ?_⟩
    rw [classes_of_plan hp, tags_nested]
    decide

end Target

end ElementWrappers
