import Mathlib
import ElementWrappers.Proofs.LocalNames
import ElementWrappers.Proofs.TypeTokens

/-!
# Imports of event types

A unit imports the types that its public events need, each once, under the local
name that stands for it in the types of the interface: `importsOnce`. Events with
a blank or built-in payload need nothing, whatever their references are; and of
two references of one event with one local name only the first is imported.
-/

namespace ElementWrappers

/-! ## Renamed texts -/

namespace TypeExpr

variable {scope : Scope} {names : List String}

/-- Of a name that was renamed no use is left. -/
theorem rename_renameAll (hc : ∀ c ∈ scope.className.toList, isIdentifierChar c = true)
    (hn : ∀ name ∈ names, IsWord name.toList) {name : String} (hm : name ∈ names)
    (text : List Char) :
    rename name.toList (scope.localName name.toList) (renameAll scope names text) =
      renameAll scope names text := by
  have hword : ∀ w, replaceWord name.toList (scope.localName name.toList)
      (renameWord scope names w) = renameWord scope names w := by
    intro w
    unfold replaceWord
    split
    · rename_i he
      -- the name is the local name of a word, so it begins like one
      have hstem : scope.stem <+: name.toList := by
        rw [← he, renameWord]
        split
        · exact Scope.stem_prefix_localName w
        · rename_i hw
          rw [renameWord, if_neg hw] at he
          rw [he, String.ofList_toList] at hw
          exact absurd hm hw
      rw [Scope.localName_of_prefix hstem, he]
    · rfl
  rw [rename_eq_mapWords (hn name hm), renameAll_eq_mapWords hc hn,
    mapWords_mapWords (keepsWords_renameWord hc names)]
  exact congrArg (fun f => mapWords f {} text) (funext hword)

end TypeExpr

/-! ## The types of an event -/

namespace Event

open TypeExpr

/-- The names that the payload type of an event may use. -/
def scope (e : Event) (className : String) : Scope := ⟨className, e.payload.references⟩

/-- The event has a reference of this name that has to be imported. -/
def Needs (e : Event) (name : String) : Prop :=
  ∃ r : TypeReference, (name, r) ∈ e.payload.references.entries ∧ r.needsImport = true

/-- No reference before it that has to be imported has the same local name. -/
def TakesLocalName (e : Event) (className name : String) : Prop :=
  ∀ other ∈ (e.scope className).importedNames.takeWhile (fun other => other != name),
    localName className other ≠ localName className name

instance (e : Event) (className name : String) : Decidable (e.TakesLocalName className name) :=
  inferInstanceAs (Decidable (∀ _ ∈ List.takeWhile _ _, _))

variable {e : Event} {className name : String}

theorem mem_importedNames_scope : name ∈ (e.scope className).importedNames ↔ e.Needs name := by
  simp only [Scope.importedNames, List.mem_map, List.mem_filter, Needs]
  constructor
  · rintro ⟨⟨key, r⟩, ⟨hm, hr⟩, rfl⟩
    exact ⟨r, hm, hr⟩
  · rintro ⟨r, hm, hr⟩
    exact ⟨(name, r), ⟨hm, hr⟩, rfl⟩

/-- An open payload is written with local names, and these are imported. -/
theorem resolvedType_of_isOpen (h : e.isOpen = true) : e.resolvedType className =
    ⟨String.ofList (renameAll (e.scope className) (e.scope className).importedNames
        (qualify (e.scope className) (normalize e.payload.written.toList))),
      ((e.scope className).importedNames.map (e.scope className).importOf).foldl addImport []⟩ := by
  simp only [isOpen, Bool.and_eq_true, Bool.not_eq_true'] at h
  obtain ⟨hblank, hbuiltIn⟩ := h
  unfold resolvedType resolve
  simp only [hblank, hbuiltIn, Bool.false_eq_true, ↓reduceIte]
  rfl

theorem toList_localName :
    (localName className name).toList = (e.scope className).localName name.toList :=
  String.toList_ofList

/-- The text of an open payload, one renaming after the other. -/
theorem text_of_isOpen (h : e.isOpen = true) : (e.resolvedType className).text =
    String.ofList ((e.scope className).importedNames.foldl
      (fun text name => rename name.toList (localName className name).toList text)
      (qualify (e.scope className) (normalize e.payload.written.toList))) := by
  rw [resolvedType_of_isOpen h]
  simp only [@toList_localName e]
  rfl

/-- In the text of an open payload no needed name is used any more. -/
theorem rename_text_of_isOpen (h : e.isOpen = true)
    (hclass : ∀ ch ∈ className.toList, isIdentifierChar ch = true)
    (hwords : ∀ name, e.Needs name → IsWord name.toList) (hn : e.Needs name) :
    rename name.toList (localName className name).toList (e.resolvedType className).text.toList =
      (e.resolvedType className).text.toList := by
  rw [resolvedType_of_isOpen h, String.toList_ofList, @toList_localName e]
  exact rename_renameAll hclass (fun other hm => hwords other (mem_importedNames_scope.mp hm))
    (mem_importedNames_scope.mpr hn) _

/-- The first reference with a local name is imported under it. -/
theorem mem_imports (h : e.isOpen = true) (hn : e.Needs name)
    (hfirst : e.TakesLocalName className name) :
    ⟨name, localName className name⟩ ∈ (e.resolvedType className).imports := by
  obtain ⟨before, after, hs, hnew⟩ :=
    List.eq_append_cons_of_mem (mem_importedNames_scope.mpr hn)
  have hbefore : before ⊆
      (e.scope className).importedNames.takeWhile fun other => other != name := by
    have hother : ∀ other ∈ before, (other != name) = true := by
      intro other ho
      exact bne_iff_ne.mpr fun he => hnew (he ▸ ho)
    rw [hs, List.takeWhile_append_of_pos hother]
    exact List.subset_append_left _ _
  have hfind : ((e.scope className).importedNames.map (e.scope className).importOf).find?
      (fun i => i.localName == localName className name) =
        some ⟨name, localName className name⟩ := by
    rw [List.find?_map, hs, List.find?_append, List.find?_eq_none.mpr, Option.none_or,
      List.find?_cons_of_pos]
    · rfl
    · exact beq_self_eq_true _
    · intro other ho hsame
      exact hfirst other (hbefore ho) (eq_of_beq hsame)
  rw [resolvedType_of_isOpen h]
  have hkept : (((e.scope className).importedNames.map (e.scope className).importOf).foldl
      (addByKey TypeImport.localName) []).find? (fun i => i.localName == localName className name) =
        some ⟨name, localName className name⟩ := find?_addAll.trans hfind
  exact List.mem_of_find?_eq_some hkept

end Event

/-! ## The types of a component -/

theorem nodup_eventImports (className : String) (events : List Event) :
    (eventImports className events).Nodup := by
  have hnil : (List.map id ([] : List TypeImport)).Nodup := List.nodup_nil
  rw [eventImports_eq]
  simpa only [List.map_id] using nodup_keys_addAll hnil

namespace Wrapper

/-- The imports of a unit are those that the types of its component's events need. -/
structure ImportsTypesOf (w : Wrapper) (c : Component) : Prop where
  /-- Each needed type is imported once, under its local name. -/
  once : ∀ e ∈ c.publicEvents, e.isOpen = true → ∀ name, e.Needs name →
    e.TakesLocalName w.className name →
      w.typeImports.filter (fun i => i.name == name) =
        [⟨name, TypeExpr.localName w.className name⟩]
  /-- The local names stand for the needed types where the event is declared. -/
  replaced : ∀ e ∈ c.publicEvents, e.isOpen = true → (e.resolvedType w.className).text =
    String.ofList ((e.scope w.className).importedNames.foldl
      (fun text name =>
        TypeExpr.rename name.toList (TypeExpr.localName w.className name).toList text)
      (TypeExpr.qualify (e.scope w.className) (TypeExpr.normalize e.payload.written.toList)))
  /-- No use of a needed type under its own name is left there. -/
  gone : ∀ e ∈ c.publicEvents, e.isOpen = true →
    (∀ ch ∈ w.className.toList, TypeExpr.isIdentifierChar ch = true) →
      (∀ name, e.Needs name → TypeExpr.IsWord name.toList) → ∀ name, e.Needs name →
        TypeExpr.rename name.toList (TypeExpr.localName w.className name).toList
          (e.resolvedType w.className).text.toList = (e.resolvedType w.className).text.toList
  /-- Nothing else is imported. -/
  needed : ∀ i ∈ w.typeImports,
    c.Needs i.name ∧ i.localName = TypeExpr.localName w.className i.name

end Wrapper

namespace Component

/-- The types that the events of a component need are imported, each once. -/
theorem importsOnce (c : Component) (options : WrapperOptions) :
    (Wrapper.ofComponent c options).ImportsTypesOf c where
  once e he hopen name hn hfirst := by
    obtain ⟨hm, hp⟩ := List.mem_filter.mp he
    have hthere := mem_eventImports_iff.mpr
      ⟨e, hm, by simpa using hp, Event.mem_imports hopen hn hfirst⟩
    have hsame : ∀ i ∈ (Wrapper.ofComponent c options).typeImports, (i.name == name) =
        (i == ⟨name, TypeExpr.localName (Naming.className c.tag) name⟩) := by
      intro i hi
      have hl := (needs_of_import hi).2
      rw [Bool.eq_iff_iff, beq_iff_eq, beq_iff_eq]
      constructor
      · rintro rfl
        calc i = ⟨i.name, i.localName⟩ := rfl
          _ = _ := by rw [hl]
      · exact fun he => congrArg TypeImport.name he
    have honce : List.count ⟨name, TypeExpr.localName (Naming.className c.tag) name⟩
        (Wrapper.ofComponent c options).typeImports = 1 :=
      List.count_eq_one_of_mem (nodup_eventImports _ _) hthere
    rw [List.filter_congr hsame, List.filter_beq, honce]
    rfl
  replaced _ _ hopen := Event.text_of_isOpen hopen
  gone _ _ hopen hclass hwords _ hn := Event.rename_text_of_isOpen hopen hclass hwords hn
  needed _ hi := needs_of_import hi

/-- A row is selected, or a date. -/
def rowSelected : Event where
  name := "select"
  payload := ⟨"Row | Date", "",
    .ofList [("Row", { origin := .sameModule }), ("Date", { origin := .ambient })]⟩

/-- Two events need rows; a third has a built-in payload. -/
def table : Component where
  tag := "my-table"
  events :=
    [rowSelected,
      { name := "drop", payload := ⟨"Row[]", "", .ofList [("Row", { origin := .imported })]⟩ },
      { name := "tick", payload := ⟨"Date", "", .ofList [("Date", { origin := .sameModule })]⟩ }]

theorem importsOnce_table :
    (rowSelected ∈ table.publicEvents ∧ rowSelected.isOpen = true ∧ rowSelected.Needs "Row" ∧
        rowSelected.TakesLocalName "MyTable" "Row") ∧
      (Wrapper.ofComponent table {}).typeImports.filter (fun i => i.name == "Row") =
          [⟨"Row", "IMyTableRow"⟩] ∧
        (rowSelected.resolvedType "MyTable").text = "IMyTableRow | Date" ∧
          TypeExpr.rename "Row".toList "IMyTableRow".toList "IMyTableRow | Date".toList =
            "IMyTableRow | Date".toList := by
  have himports := importsOnce table {}
  have hclass : (Wrapper.ofComponent table {}).className = "MyTable" := by decide +kernel
  have hlocal : TypeExpr.localName "MyTable" "Row" = "IMyTableRow" := by decide +kernel
  have hmem : rowSelected ∈ table.publicEvents := List.mem_filter.mpr ⟨List.mem_cons_self, rfl⟩
  have hopen : rowSelected.isOpen = true := by decide +kernel
  have hneeds : rowSelected.Needs "Row" := ⟨{ origin := .sameModule }, by decide, rfl⟩
  have htakes : rowSelected.TakesLocalName "MyTable" "Row" := by decide +kernel
  have htext : (rowSelected.resolvedType "MyTable").text = "IMyTableRow | Date" := by
    decide +kernel
  have hwords : ∀ name, rowSelected.Needs name → TypeExpr.IsWord name.toList := by
    intro name hn
    have honly : (rowSelected.scope "MyTable").importedNames = ["Row"] := by decide
    have hm : name ∈ (rowSelected.scope "MyTable").importedNames :=
      Event.mem_importedNames_scope.mpr hn
    rw [honly] at hm
    rw [List.mem_singleton.mp hm]
    exact ⟨by decide, List.all_eq_true.mp (by decide +kernel)⟩
  have honce := himports.once _ hmem hopen "Row" hneeds
  have hgone := himports.gone _ hmem hopen
  rw [hclass] at honce hgone
  have hrow := hgone (List.all_eq_true.mp (by decide +kernel)) hwords "Row" hneeds
  rw [hlocal, htext] at hrow
  rw [hlocal] at honce
  exact ⟨⟨hmem, hopen, hneeds, htakes⟩, honce htakes, htext, hrow⟩

/-- A type that is called like a built-in one and makes the whole payload is not
imported. -/
theorem not_imported_clock : ¬ ∀ (c : Component) (options : WrapperOptions),
    ∀ e ∈ c.publicEvents, ∀ name, e.Needs name →
      (Wrapper.ofComponent c options).typeImports.filter (fun i => i.name == name) =
        [⟨name, TypeExpr.localName (Naming.className c.tag) name⟩] := by
  intro h
  have hmem : ∀ e ∈ (Target.emitter "my-clock" "Date").events,
      e ∈ (Target.emitter "my-clock" "Date").publicEvents := by
    intro e he
    exact List.mem_filter.mpr ⟨he, by rw [List.mem_singleton.mp he]; rfl⟩
  have hnone : (Wrapper.ofComponent (Target.emitter "my-clock" "Date") {}).typeImports = [] := by
    decide +kernel
  have hone := h (Target.emitter "my-clock" "Date") {} _ (hmem _ List.mem_cons_self) "Date"
    ⟨{ origin := .sameModule }, by decide, rfl⟩
  rw [hnone] at hone
  cases hone

end Component

end ElementWrappers
