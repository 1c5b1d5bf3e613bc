import Mathlib
import ElementWrappers.Proofs.ModuleLinks

/-!
# Local names of imported types

A type is imported as `I`, the class name and its name, joined without a mark,
unless it begins like that already. So two imports may share a local name:
`localName_eq_iff` lists all ways in which that happens.
-/

namespace ElementWrappers

namespace TypeExpr

/-- Whether the name of a type begins like a local name of the class already. -/
def Carries (className name : String) : Prop := ('I' :: className.toList) <+: name.toList

/-- How two types next to their classes come to share a local name. -/
inductive Clash (c n c' n' : String) : Prop
  /-- Class name and type name are split at different places of one word. -/
  | seam (first : ¬ Carries c n) (second : ¬ Carries c' n') (same : c ++ n = c' ++ n')
  /-- The first type is called like the second next to its class. -/
  | first (first : Carries c n) (second : ¬ Carries c' n') (same : n = "I" ++ c' ++ n')
  /-- The second type is called like the first next to its class. -/
  | second (first : ¬ Carries c n) (second : Carries c' n') (same : n' = "I" ++ c ++ n)
  /-- One type begins like the local names of both classes. -/
  | both (first : Carries c n) (second : Carries c' n') (same : n = n')

/-- The name under which a type is imported next to a class. -/
def localName (className name : String) : String :=
  (Scope.importOf ⟨className, .empty⟩ name).localName

theorem localName_of_carries {c n : String} (h : Carries c n) : localName c n = n := by
  show String.ofList (if ('I' :: c.toList).isPrefixOf n.toList then _ else _) = n
  rw [if_pos (List.isPrefixOf_iff_prefix.mpr h), String.ofList_toList]

theorem localName_of_not_carries {c n : String} (h : ¬ Carries c n) :
    localName c n = "I" ++ c ++ n := by
  show String.ofList (if ('I' :: c.toList).isPrefixOf n.toList then _ else _) = _
  rw [if_neg fun hp => h (List.isPrefixOf_iff_prefix.mp hp)]
  apply String.toList_injective
  simp [Scope.stem]

theorem localName_eq_iff {c n c' n' : String} :
    localName c n = localName c' n' ↔ Clash c n c' n' := by
  by_cases h : Carries c n <;> by_cases h' : Carries c' n'
  · rw [localName_of_carries h, localName_of_carries h']
    refine ⟨fun e => .both h h' e, ?_⟩
    rintro (⟨hn, -, -⟩ | ⟨-, hn, -⟩ | ⟨hn, -, -⟩ | ⟨-, -, e⟩)
    · exact absurd h hn
    · exact absurd h' hn
    · exact absurd h hn
    · exact e
  · rw [localName_of_carries h, localName_of_not_carries h']
    refine ⟨fun e => .first h h' e, ?_⟩
    rintro (⟨hn, -, -⟩ | ⟨-, -, e⟩ | ⟨hn, -, -⟩ | ⟨-, hc, -⟩)
    · exact absurd h hn
    · exact e
    · exact absurd h hn
    · exact absurd hc h'
  · rw [localName_of_not_carries h, localName_of_carries h']
    refine ⟨fun e => .second h h' e.symm, ?_⟩
    rintro (⟨-, hn, -⟩ | ⟨hc, -, -⟩ | ⟨-, -, e⟩ | ⟨hc, -, -⟩)
    · exact absurd h' hn
    · exact absurd hc h
    · exact e.symm
    · exact absurd hc h
  · rw [localName_of_not_carries h, localName_of_not_carries h', String.append_assoc,
      String.append_assoc, String.append_right_inj]
    refine ⟨fun e => .seam h h' e, ?_⟩
    rintro (⟨-, -, e⟩ | ⟨hc, -, -⟩ | ⟨-, hc, -⟩ | ⟨hc, -, -⟩)
    · exact e
    · exact absurd hc h
    · exact absurd hc h'
    · exact absurd hc h

end TypeExpr

/-! ## Items with distinct keys -/

section Keys

variable {α β : Type} [BEq β] {key : α → β}

/-- Adds an item unless there is one with the same key. -/
def addByKey (key : α → β) (items : List α) (item : α) : List α :=
  if items.any fun x => key x == key item then items else items ++ [item]

theorem mem_of_mem_addByKey {items : List α} {item x : α} (h : x ∈ addByKey key items item) :
    x ∈ items ∨ x = item := by
  unfold addByKey at h
  split at h
  · exact .inl h
  · exact (List.mem_append.mp h).imp_right List.mem_singleton.mp

/-- Adding items one after the other, each at most once, adds no others. -/
theorem mem_of_mem_addAll {items more : List α} {x : α}
    (h : x ∈ more.foldl (addByKey key) items) : x ∈ items ∨ x ∈ more := by
  induction more generalizing items with
  | nil => exact .inl h
  | cons item rest ih =>
    rcases ih h with hx | hx
    · rcases mem_of_mem_addByKey hx with hx | rfl
      · exact .inl hx
      · exact .inr List.mem_cons_self
    · exact .inr (List.mem_cons_of_mem _ hx)

variable [LawfulBEq β]

theorem any_key_iff {items : List α} {item : α} :
    (items.any fun x => key x == key item) = true ↔ key item ∈ items.map key := by
  simp only [List.any_eq_true, beq_iff_eq, List.mem_map]

theorem mem_keys_iff {items : List α} {k : β} :
    k ∈ items.map key ↔ (items.find? fun x => key x == k).isSome = true := by
  simp only [List.find?_isSome, beq_iff_eq, List.mem_map]

theorem nodup_keys_addByKey {items : List α} {item : α} (h : (items.map key).Nodup) :
    ((addByKey key items item).map key).Nodup := by
  unfold addByKey
  split
  · exact h
  · rename_i hnew
    rw [any_key_iff] at hnew
    rw [List.map_append, List.map_singleton]
    exact h.append (List.nodup_singleton _) (List.disjoint_singleton.mpr hnew)

/-- The item that is found by a key is the first one with it. -/
theorem find?_addAll {items more : List α} {k : β} :
    (more.foldl (addByKey key) items).find? (fun x => key x == k) =
      (items ++ more).find? fun x => key x == k := by
  induction more generalizing items with
  | nil => rw [List.foldl_nil, List.append_nil]
  | cons item rest ih =>
    rw [List.foldl_cons, ih, addByKey]
    split
    · rename_i hthere
      obtain ⟨x, hx, he⟩ := List.any_eq_true.mp hthere
      have hfirst : key item = k → (items.find? fun x => key x == k).isSome := by
        rintro rfl
        exact List.find?_isSome.mpr ⟨x, hx, he⟩
      rw [List.find?_append, List.find?_append]
      cases hi : items.find? fun x => key x == k with
      | some y => rfl
      | none =>
        have hne : (key item == k) = false := by
          by_contra heq
          rw [hi] at hfirst
          exact absurd (hfirst (by simpa using heq)) Bool.false_ne_true
        rw [List.find?_cons, hne]
    · rw [List.append_assoc, List.singleton_append]

theorem mem_keys_addAll {items more : List α} {k : β} :
    k ∈ (more.foldl (addByKey key) items).map key ↔ k ∈ items.map key ∨ k ∈ more.map key := by
  rw [mem_keys_iff, find?_addAll, ← mem_keys_iff, List.map_append, List.mem_append]

theorem nodup_keys_addAll {items more : List α} (h : (items.map key).Nodup) :
    ((more.foldl (addByKey key) items).map key).Nodup := by
  induction more generalizing items with
  | nil => exact h
  | cons item rest ih => exact ih (nodup_keys_addByKey h)

end Keys

/-! ## The types of a component -/

/-- Whether the payload type of an event is neither blank nor built in. -/
def Event.isOpen (e : Event) : Bool :=
  let text := TypeExpr.normalize e.payload.written.toList
  !text.isEmpty && !TypeExpr.isBuiltIn (String.ofList text)

/-- A public event of the component needs a type of this name. -/
def Component.Needs (c : Component) (name : String) : Prop :=
  ∃ e ∈ c.publicEvents, e.isOpen = true ∧
    ∃ r : TypeReference, (name, r) ∈ e.payload.references.entries ∧ r.needsImport = true

theorem addByKey_id {α : Type} [BEq α] [LawfulBEq α] (items : List α) (item : α) :
    addByKey id items item = if items.contains item then items else items ++ [item] := by
  have hany : (items.any fun x => id x == id item) = items.contains item := by
    rw [Bool.eq_iff_iff, any_key_iff, List.map_id, List.contains_iff_mem, id]
  rw [addByKey, hany]

theorem eventImports_eq (className : String) (events : List Event) :
    eventImports className events = ((events.filter fun e => !e.isInternal).flatMap fun e =>
      (e.resolvedType className).imports).foldl (addByKey id) [] := by
  unfold eventImports
  exact congrArg (fun add => List.foldl add _ _) (funext₂ fun items i => (addByKey_id items i).symm)

/-- A unit imports the imports of its public events, each once. -/
theorem mem_eventImports_iff {className : String} {events : List Event} {i : TypeImport} :
    i ∈ eventImports className events ↔
      ∃ e ∈ events, e.isInternal = false ∧ i ∈ (e.resolvedType className).imports := by
  rw [eventImports_eq, ← List.map_id (List.foldl _ _ _), mem_keys_addAll, List.map_id]
  simp [and_assoc]

/-- What a unit imports is a type that its component needs, under its local name. -/
theorem Component.needs_of_import {c : Component} {options : WrapperOptions} {i : TypeImport}
    (h : i ∈ (Wrapper.ofComponent c options).typeImports) :
    c.Needs i.name ∧ i.localName = TypeExpr.localName (Naming.className c.tag) i.name := by
  obtain ⟨e, he, hp, hi⟩ := mem_eventImports_iff.mp h
  unfold Event.resolvedType TypeExpr.resolve at hi
  extract_lets text at hi
  split at hi
  · cases hi
  rename_i hblank
  split at hi
  · cases hi
  rename_i hbuiltIn
  have hkeyed : i ∈ List.foldl (addByKey TypeImport.localName) [] _ := hi
  have hm := (mem_of_mem_addAll hkeyed).resolve_left List.not_mem_nil
  obtain ⟨name, hn, rfl⟩ := List.mem_map.mp hm
  obtain ⟨⟨key, r⟩, hr, rfl⟩ := List.mem_map.mp hn
  obtain ⟨hr, hneeds⟩ := List.mem_filter.mp hr
  refine ⟨⟨e, ?_, ?_, r, hr, hneeds⟩, rfl⟩
  · exact List.mem_filter.mpr ⟨he, by simp [hp]⟩
  · simp only [Event.isOpen, Bool.and_eq_true, Bool.not_eq_true']
    exact ⟨Bool.eq_false_of_not_eq_true hblank, Bool.eq_false_of_not_eq_true hbuiltIn⟩

/-! ## The types of a pass -/

/-- No local name is imported twice in a pass, unless by one unit for one type. -/
def Plan.HasUniqueImports (p : Plan) : Prop :=
  ∀ w ∈ p.wrappers, ∀ w' ∈ p.wrappers, ∀ i ∈ w.typeImports, ∀ i' ∈ w'.typeImports,
    i.localName = i'.localName → w = w' ∧ i.name = i'.name

/-- No two types that some components need share a local name. -/
def Component.AreApart (components : List Component) : Prop :=
  ∀ c ∈ components, ∀ c' ∈ components, ∀ n n', c.Needs n → c'.Needs n' →
    TypeExpr.localName (Naming.className c.tag) n = TypeExpr.localName (Naming.className c'.tag) n' →
      c = c' ∧ n = n'

/-- No two types that some components need clash. -/
def Component.AreClashFree (components : List Component) : Prop :=
  ∀ c ∈ components, ∀ c' ∈ components, ∀ n n', c.Needs n → c'.Needs n' →
    TypeExpr.Clash (Naming.className c.tag) n (Naming.className c'.tag) n' → c = c' ∧ n = n'

/-- Types never clash that begin like no local name, next to classes of which
none begins like another. -/
theorem Component.areClashFree_of_prefixFree {components : List Component}
    (hclass : ∀ c ∈ components, ∀ c' ∈ components,
      (Naming.className c.tag).toList <+: (Naming.className c'.tag).toList → c = c')
    (hname : ∀ c ∈ components, ∀ n, c.Needs n → ¬ TypeExpr.Carries (Naming.className c.tag) n) :
    Component.AreClashFree components := by
  rintro c hc c' hc' n n' hn hn' (⟨-, -, e⟩ | ⟨h, -, -⟩ | ⟨-, h, -⟩ | ⟨h, -, -⟩)
  · have hl := congrArg String.toList e
    rw [String.toList_append, String.toList_append] at hl
    have hcc : c = c' := by
      rcases List.append_eq_append_iff.mp hl with ⟨rest, hr, -⟩ | ⟨rest, hr, -⟩
      · exact hclass c hc c' hc' ⟨rest, hr.symm⟩
      · exact (hclass c' hc' c hc ⟨rest, hr.symm⟩).symm
    subst hcc
    refine ⟨rfl, String.toList_injective ?_⟩
    exact List.append_cancel_left hl
  · exact absurd h (hname c hc n hn)
  · exact absurd h (hname c' hc' n' hn')
  · exact absurd h (hname c hc n hn)

namespace Target

variable {t : Target} {view : FileView} {components : List Component} {config : BuildConfig}
  {p : Plan}

theorem wrappers_of_plan (h : t.plan view components config = .ok p) :
    ∃ options, p.wrappers =
      (Component.select t.excluded components).map fun c => .ofComponent c options := by
  obtain ⟨types, -, ha⟩ := assembly_of_plan h
  exact ⟨_, Assembly.wrappers_of_ofAssembly ha⟩

/-- The local names of a pass tell its types apart exactly when no two of them
clash. -/
theorem tellsApart_iff (h : t.plan view components config = .ok p) :
    p.HasUniqueImports ∧ Component.AreApart (Component.select t.excluded components) ↔
      Component.AreClashFree (Component.select t.excluded components) := by
  constructor
  · rintro ⟨-, hapart⟩ c hc c' hc' n n' hn hn' hclash
    exact hapart c hc c' hc' n n' hn hn' (TypeExpr.localName_eq_iff.mpr hclash)
  · intro hfree
    have hapart : Component.AreApart (Component.select t.excluded components) := by
      intro c hc c' hc' n n' hn hn' he
      exact hfree c hc c' hc' n n' hn hn' (TypeExpr.localName_eq_iff.mp he)
    refine ⟨?_, hapart⟩
    obtain ⟨options, hw⟩ := wrappers_of_plan h
    rw [Plan.HasUniqueImports, hw]
    intro w hm w' hm' i hi i' hi' he
    obtain ⟨c, hc, rfl⟩ := List.mem_map.mp hm
    obtain ⟨c', hc', rfl⟩ := List.mem_map.mp hm'
    obtain ⟨hn, hl⟩ := Component.needs_of_import hi
    obtain ⟨hn', hl'⟩ := Component.needs_of_import hi'
    rw [hl, hl'] at he
    obtain ⟨rfl, hname⟩ := hapart c hc c' hc' _ _ hn hn' he
    exact ⟨rfl, hname⟩

/-- All wrappers of a library in one file. -/
def aggregate : Target where
  corePackage := some "core"
  proxyFile := "angular/src/proxies.ts"

/-- A component with an event whose payload is of a type beside it. -/
def emitter (tag type : String) : Component where
  tag := tag
  events := [{ name := "change", payload :=
    { written := type, references := Table.ofList [(type, { origin := .sameModule })] } }]

theorem tellsApart_iff_aggregate :
    ∃ p, aggregate.plan (fun _ => .error .missing) [emitter "my-list" "Item"] repository = .ok p ∧
      (p.HasUniqueImports ∧ Component.AreApart
          (Component.select aggregate.excluded [emitter "my-list" "Item"]) ↔
        Component.AreClashFree (Component.select aggregate.excluded [emitter "my-list" "Item"])) := by
  obtain ⟨p, hp⟩ : ∃ p, aggregate.plan (fun _ => .error .missing) [emitter "my-list" "Item"]
    repository = .ok p := ⟨_, rfl⟩
  exact ⟨p, hp, tellsApart_iff hp⟩

/-- Two components whose types have the same local name: `MyList` and
`GroupItem` make one word with `MyListGroup` and `Item`. -/
def seamed : List Component := [emitter "my-list" "GroupItem", emitter "my-list-group" "Item"]

theorem select_seamed : Component.select aggregate.excluded seamed = seamed := by
  rw [Component.select, Component.sortByTag, List.mergeSort_of_pairwise (by decide)]
  rfl

theorem not_hasUniqueImports_seamed :
    ∃ p, aggregate.plan (fun _ => .error .missing) seamed repository = .ok p ∧
      ¬ p.HasUniqueImports := by
  obtain ⟨p, hp⟩ : ∃ p, aggregate.plan (fun _ => .error .missing) seamed repository = .ok p :=
    ⟨_, rfl⟩
  obtain ⟨options, hw⟩ := wrappers_of_plan hp
  rw [select_seamed] at hw
  have hm : ∀ c ∈ seamed, Wrapper.ofComponent c options ∈ p.wrappers := by
    intro c hc
    rw [hw]
    exact List.mem_map_of_mem hc
  have hi : (⟨"GroupItem", "IMyListGroupItem"⟩ : TypeImport) ∈
    eventImports (Naming.className "my-list") (emitter "my-list" "GroupItem").events := by
      decide +kernel
  have hi' : (⟨"Item", "IMyListGroupItem"⟩ : TypeImport) ∈
    eventImports (Naming.className "my-list-group") (emitter "my-list-group" "Item").events := by
      decide +kernel
  refine ⟨p, hp, ?_⟩
  intro h
  have hname := (h _ (hm _ List.mem_cons_self) _ (hm _ (List.mem_cons_of_mem _ List.mem_cons_self))
    _ hi _ hi' rfl).2
  exact absurd hname (by decide)

end Target

end ElementWrappers
