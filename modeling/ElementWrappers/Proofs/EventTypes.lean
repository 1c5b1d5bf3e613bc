import ElementWrappers.Proofs.EntryLaws
import ElementWrappers.Proofs.Qualify

/-!
# Resolving printed types

The payload type of an event is resolved without a parser. On printed types that
comes to renaming the leading names of the tree to what they are imported as,
and nothing else: `resolve_print`.
-/

namespace ElementWrappers.TypeExpr

/-! ## Names that are imported -/

/-- Whether a wrapper has to import the type of this name. -/
def isImported (references : References) (name : String) : Bool :=
  (references.get? name).any TypeReference.needsImport

theorem mem_importedNames {scope : Scope} {name : String} :
    name ∈ scope.importedNames ↔ isImported scope.references name = true := by
  simp only [Scope.importedNames, List.mem_map, List.mem_filter, isImported, Option.any_eq_true]
  constructor
  · rintro ⟨⟨k, r⟩, ⟨hm, hr⟩, rfl⟩
    exact ⟨r, Entries.get?_of_mem scope.references.distinct hm, hr⟩
  · rintro ⟨r, hget, hr⟩
    exact ⟨(name, r), ⟨Entries.mem_of_get? hget, hr⟩, rfl⟩

namespace Name

/-- What a type is called next to a wrapper: `I`, the class name and the name,
unless it begins like that. -/
def localName (x className : Name) : Name :=
  if ('I' :: className.chars).isPrefixOf x.chars then x
  else ⟨'I' :: (className.chars ++ x.chars), by
    have hall : ∀ y : Name, y.chars.all isAsciiPart = true :=
      fun y => List.all_eq_true.mpr fun c hc => isAsciiPart_of_mem hc
    rw [isAsciiName, List.all_append, hall, hall]
    rfl⟩

/-- A leading name as it is written next to a wrapper. -/
def nextTo (className : Name) (references : References) (x : Name) : Name :=
  if isImported references x.text then x.localName className else x

/-- A leading name as it is qualified. -/
def qualifiedIn (className : Name) (references : References) (x : Name) : Name :=
  if Scope.isGlobal ⟨className.text, references⟩ x.chars then x else x.localName className

variable {className x : Name}

theorem chars_localName (references : References) : (x.localName className).chars =
    Scope.localName ⟨className.text, references⟩ x.chars := by
  have hstem : Scope.stem ⟨className.text, references⟩ = 'I' :: className.chars := by
    simp [Scope.stem, text]
  rw [localName, Scope.localName, hstem]
  split <;> rfl

theorem localName_localName : (x.localName className).localName className = x.localName className := by
  refine ext_chars ?_
  rw [chars_localName .empty, chars_localName .empty, Scope.localName_localName]

end Name

/-- Renaming whole words next to a wrapper, and the leading names of a tree. -/
def importRenaming (className : Name) (references : References) :
    Renaming ⟨className.text, references⟩ where
  words := renameWord ⟨className.text, references⟩ (Scope.importedNames ⟨className.text, references⟩)
  names := Name.nextTo className references
  qualified := Name.qualifiedIn className references
  words_eq x := by
    rw [renameWord, Name.nextTo]
    simp only [mem_importedNames]
    rw [← Name.text]
    by_cases h : isImported references x.text = true
    · rw [if_pos h, if_pos h]
      exact (Name.chars_localName references).symm
    · rw [if_neg h, if_neg h]
  qualified_eq x := by
    rw [Scope.qualifyName, Name.qualifiedIn]
    split
    · rfl
    · exact (Name.chars_localName references).symm

/-! ## Types in scope -/

/-- The imported names of a table are words, and none is called like a built-in
type. -/
structure HasPlainImports (references : References) : Prop where
  words : ∀ name, isImported references name = true → IsWord name.toList
  builtIns : ∀ name, isImported references name = true → isBuiltIn name = false

/-- The names that a type begins with are built in or in the table, and no
parameter is called like an imported type. -/
structure Ty.IsWellScoped (references : References) (t : Ty) : Prop where
  leading : ∀ x ∈ t.leadingNames, isBuiltIn x.text = true ∨ x.text ∈ references.keys
  parameters : ∀ x ∈ t.parameterNames, isImported references x.text = false

section Resolve

variable {className : Name} {references : References} {t : Ty}

/-- Names in scope that are not written as they are have to be imported. -/
theorem isImported_of_not_isGlobal {x : Name}
    (h : isBuiltIn x.text = true ∨ x.text ∈ references.keys)
    (hg : Scope.isGlobal ⟨className.text, references⟩ x.chars = false) :
    isImported references x.text = true := by
  simp only [Scope.isGlobal, Bool.or_eq_false_iff] at hg
  obtain ⟨hb, hr⟩ := hg
  have hkey : x.text ∈ references.keys := by
    rcases h with h | h
    · rw [Name.text, hb] at h
      cases h
    · exact h
  have hhas : (references.get? x.text).isSome = true := Entries.has_iff_mem_keys.mpr hkey
  obtain ⟨r, hget⟩ := Option.isSome_iff_exists.mp hhas
  have hget' : references.get? (String.ofList x.chars) = some r := hget
  rw [hget'] at hr
  rw [isImported, hget]
  simpa using hr

theorem Ty.IsWellScoped.fits (h : t.IsWellScoped references) (className : Name) :
    t.Fits (importRenaming className references) := by
  constructor
  · intro x hx
    show Name.nextTo className references (Name.qualifiedIn className references x) =
      Name.nextTo className references x
    rw [Name.qualifiedIn]
    cases hg : Scope.isGlobal ⟨className.text, references⟩ x.chars with
    | true => rfl
    | false =>
      have hi := isImported_of_not_isGlobal (h.leading x hx) hg
      rw [if_neg Bool.false_ne_true, Name.nextTo, Name.localName_localName, ite_self, Name.nextTo,
        if_pos hi]
  · intro x hx
    show Name.nextTo className references x = x
    rw [Name.nextTo, h.parameters x hx, if_neg Bool.false_ne_true]

theorem isWord_of_isBuiltIn {w : List Char} (h : isBuiltIn (String.ofList w) = true) : IsWord w := by
  have hall : builtIns.all (fun name => !name.isEmpty && name.toList.all isIdentifierChar) = true := by
    decide +kernel
  have hmem : String.ofList w ∈ builtIns := by simpa [isBuiltIn] using h
  have hw := List.all_eq_true.mp hall _ hmem
  rw [String.toList_ofList, Bool.and_eq_true] at hw
  refine ⟨?_, List.all_eq_true.mp hw.2⟩
  rintro rfl
  cases hw.1

/-- A type that is printed as a built-in name stays. -/
theorem mapNames_of_isBuiltIn (hi : HasPlainImports references) (h : t.IsWellScoped references)
    (hb : isBuiltIn (String.ofList t.print) = true) :
    (t.mapNames (Name.nextTo className references)).print = t.print := by
  have he := mapWords_eq_of_turns (Ty.turns_print_of_parameters (h.fits className).parameters)
  have hkept : renameWord ⟨className.text, references⟩
      (Scope.importedNames ⟨className.text, references⟩) t.print = t.print := by
    rw [renameWord, if_neg]
    intro hm
    rw [mem_importedNames] at hm
    rw [hi.builtIns _ hm] at hb
    cases hb
  have hword : mapWords (importRenaming className references).words {} t.print = t.print := by
    rw [← List.append_nil t.print, mapWords_word (isWord_of_isBuiltIn hb) rfl, mapWords_nil,
      List.append_nil, List.append_nil]
    show (if _ then renameWord _ _ t.print else t.print) = t.print
    rw [hkept, ite_self]
  rw [hword] at he
  exact he.symm

/-- Resolving a printed type renames its leading names. -/
theorem resolve_print (hi : HasPlainImports references) (h : t.IsWellScoped references) :
    (resolve ⟨className.text, references⟩ (String.ofList t.print)).text =
      String.ofList (t.mapNames (Name.nextTo className references)).print := by
  have hnormal : normalize (String.ofList t.print).toList = t.print := by
    rw [String.toList_ofList, (Ty.spaced_print t).normalize_eq]
  have hne : t.print.isEmpty = false := by
    simpa using (Ty.spaced_print t).ne_nil
  have hclass : ∀ c ∈ className.text.toList, isIdentifierChar c = true := by
    rw [Name.text, String.toList_ofList]
    exact className.isWord.chars
  rw [resolve.eq_def]
  simp only [hnormal, hne, Bool.false_eq_true, ↓reduceIte]
  split
  · rename_i hb
    exact congrArg String.ofList (mapNames_of_isBuiltIn hi h hb).symm
  · have he := mapWords_eq_of_turns
      (Ty.isQualified (importRenaming className references) t (h.fits className))
    have hwords : ∀ name ∈ Scope.importedNames ⟨className.text, references⟩, IsWord name.toList :=
      fun name hm => hi.words name (mem_importedNames.mp hm)
    have hren := @renameAll_eq_mapWords ⟨className.text, references⟩ hclass _ hwords
      (qualify ⟨className.text, references⟩ t.print)
    exact congrArg String.ofList (hren.trans he)

end Resolve

/-! ## Samples -/

def Name.foo : Name := ⟨['F', 'o', 'o'], by decide⟩

def Name.map : Name := ⟨['M', 'a', 'p'], by decide⟩

/-- `Foo`, to be imported, and if `dotted` also `Map.Foo` next to an ambient `Map`. -/
def sampleReferences (dotted : Bool) : References :=
  ⟨[("Foo", ⟨.sameModule, none, none⟩)] ++
    if dotted then [("Map", ⟨.ambient, none, none⟩), ("Map.Foo", ⟨.imported, none, none⟩)] else [],
    by cases dotted <;> decide⟩

/-- `Map<Foo>[] | { Foo?: (Map: Foo) => Map.Foo }`: an imported type, a key of the
same name, and the name after a dot. -/
def Ty.sample : Ty :=
  .join (.array (.generic .map [] [.path .foo []])) .union
    (.object [(⟨.foo, true⟩, .function [(⟨.map, false⟩, .path .foo [])] (.path .map [.foo]))])

theorem resolve_print_sample :
    String.ofList Ty.sample.print = "Map<Foo>[] | \x7b Foo?: (Map: Foo) => Map.Foo \x7d" ∧
      HasPlainImports (sampleReferences false) ∧ Ty.sample.IsWellScoped (sampleReferences false) ∧
        (resolve ⟨Name.map.text, sampleReferences false⟩ (String.ofList Ty.sample.print)).text =
          "Map<IMapFoo>[] | \x7b Foo?: (Map: IMapFoo) => Map.Foo \x7d" := by
  have hnames : Scope.importedNames ⟨"", sampleReferences false⟩ = ["Foo"] := by decide
  have honly : ∀ name, isImported (sampleReferences false) name = true → name = "Foo" := by
    intro name h
    have hm : name ∈ Scope.importedNames ⟨"", sampleReferences false⟩ := mem_importedNames.mpr h
    rw [hnames] at hm
    exact List.mem_singleton.mp hm
  have hi : HasPlainImports (sampleReferences false) := by
    constructor
    · intro name h
      rw [honly name h]
      exact Name.foo.isWord
    · intro name h
      rw [honly name h]
      decide
  have hs : Ty.sample.IsWellScoped (sampleReferences false) :=
    ⟨by decide +kernel, by decide +kernel⟩
  refine ⟨by decide +kernel, hi, hs, ?_⟩
  exact (resolve_print hi hs).trans (by decide +kernel)

/-- An imported name with a dot is renamed where a tree has a leading name and
another after its dot. -/
theorem not_resolve_print_dotted : ¬ ∀ (className : Name) (references : References) (t : Ty),
    (∀ name, isImported references name = true → isBuiltIn name = false) →
      t.IsWellScoped references →
        (resolve ⟨className.text, references⟩ (String.ofList t.print)).text =
          String.ofList (t.mapNames (Name.nextTo className references)).print := by
  intro h
  have hnames : Scope.importedNames ⟨"", sampleReferences true⟩ = ["Foo", "Map.Foo"] := by decide
  have hb : ∀ name, isImported (sampleReferences true) name = true → isBuiltIn name = false := by
    intro name hi
    have hm : name ∈ Scope.importedNames ⟨"", sampleReferences true⟩ := mem_importedNames.mpr hi
    rw [hnames] at hm
    rcases List.mem_cons.mp hm with rfl | hm
    · decide
    · rw [List.mem_singleton.mp hm]
      decide
  have hs : (Ty.path .map [.foo]).IsWellScoped (sampleReferences true) :=
    ⟨by decide +kernel, by decide +kernel⟩
  exact absurd (h .foo (sampleReferences true) (.path .map [.foo]) hb hs) (by decide +kernel)

end ElementWrappers.TypeExpr
