import Mathlib
import ElementWrappers.Proofs.ClassSource
import ElementWrappers.Proofs.DocBlocks

/-!
# The public surface of a wrapper

The lists that a wrapper is read as agree with each other and with its component:
`hasSurface` says that there is one output for each public event, in order and with one
payload type in the class and in the interface, and that the inputs are the public and
virtual properties, in the order of their names.
-/

namespace ElementWrappers

open Text

/-! ## The interface -/

/-- No part of the documentation ends the comment that it stands in. -/
def Doc.IsSealed (d : Doc) : Prop := ∀ line ∈ d.lines, ¬ Closes line.toList

instance (d : Doc) : Decidable d.IsSealed := inferInstanceAs (Decidable (∀ line ∈ d.lines, _))

namespace Source

/-- The lines that are not in a comment block. -/
def outsideComments (inside : Bool) : List String → List String
  | [] => []
  | line :: rest =>
    if inside then outsideComments (line != "   */") rest
    else if line = "  /**" then outsideComments true rest
    else line :: outsideComments false rest

/-- The members of an interface, which stand between its first line and its last. -/
def declarations (block : String) : List String :=
  (outsideComments false (linesOf block).tail.dropLast).filter fun line => line != ""

/-- An output in an interface. -/
def declarationLine (name type : String) : String :=
  "  " ++ Naming.member name ++ ": " ++ emitter type ++ ";"

variable {inner rest : List String} {line : String}

theorem outsideComments_line (h : line ≠ "  /**") (rest : List String) :
    outsideComments false (line :: rest) = line :: outsideComments false rest := by
  rw [outsideComments, if_neg (by simp), if_neg h]

theorem outsideComments_inside (h : "   */" ∉ inner) (rest : List String) :
    outsideComments true (inner ++ "   */" :: rest) = outsideComments false rest := by
  induction inner with
  | nil => rw [List.nil_append, outsideComments, if_pos rfl, bne_self_eq_false]
  | cons line inner ih =>
    obtain ⟨hline, hinner⟩ := List.ne_and_not_mem_of_not_mem_cons h
    rw [List.cons_append, outsideComments, if_pos rfl, bne_iff_ne.mpr hline.symm, ih hinner]

theorem outsideComments_block (h : "   */" ∉ inner) (rest : List String) :
    outsideComments false ("  /**" :: inner ++ "   */" :: rest) = outsideComments false rest := by
  rw [List.cons_append, outsideComments, if_neg (by simp), if_pos rfl, outsideComments_inside h]

end Source

/-- A declaration under a sealed documentation is all that is outside its comment. -/
theorem Doc.IsSealed.outsideComments_onTop {d : Doc} (h : d.IsSealed) {declaration : String}
    (hn : '\n' ∉ declaration.toList) (hd : declaration ≠ "  /**") (rest : List String) :
    Source.outsideComments false (linesOf (d.onTop "  " declaration) ++ rest) =
      declaration :: Source.outsideComments false rest := by
  unfold onTop
  cases hc : d.comment? "  " with
  | none =>
    rw [linesOf_single hn, List.singleton_append, Source.outsideComments_line hd]
  | some comment =>
    have hopen : "  " ++ "/**" = "  /**" := by simp
    have hend : "  " ++ " */" = "   */" := by simp
    have hinner : "   */" ∉ d.lines.flatMap fun line => linesOf (commentLine "  " line) := by
      rw [List.mem_flatMap]
      rintro ⟨line, hl, hm⟩
      have hline : ¬ Closes (commentLine "  " line).toList :=
        fun hc => h line hl ((closes_commentLine_iff (by simp) line).mp hc)
      exact not_closes_of_mem_linesOf hline hm (by decide_cbv)
    dsimp only
    rw [linesOf_append, linesOf_single hn, linesOf_comment (by simp) hc, hopen, hend,
      List.append_assoc, List.append_assoc, List.singleton_append, List.singleton_append,
      Source.outsideComments_block hinner, Source.outsideComments_line hd]

namespace InterfaceMember

/-- A member declares an output under some documentation or none. -/
def Declares (m : InterfaceMember) (output : String × String) : Prop :=
  ∃ d : Doc, m.text = d.onTop "  " (Source.declarationLine output.1 output.2) ∧
    m.documented = (d.comment? "  ").isSome

/-- The lines of members: a blank one goes before a member without documentation. -/
theorem linesOf_join (text : String) (rest : List InterfaceMember) :
    linesOf (text ++ String.join (rest.map fun m => m.gap ++ m.text)) =
      linesOf text ++ rest.flatMap fun m =>
        (if m.documented then [] else [""]) ++ linesOf m.text := by
  induction rest generalizing text with
  | nil => simp [String.join]
  | cons m rest ih =>
    rw [List.map_cons, String.join_cons, List.flatMap_cons, List.append_assoc, gap]
    cases m.documented with
    | true =>
      have htext : ∀ more : String,
          text ++ ("\n" ++ m.text ++ more) = text ++ "\n" ++ (m.text ++ more) :=
        fun more => by simp only [String.append_assoc]
      rw [if_pos rfl, if_pos rfl, htext, linesOf_append, ih, List.nil_append]
    | false =>
      have hgap : "\n\n" = "\n" ++ ("" ++ "\n") := by simp
      have htext : ∀ more : String, text ++ ("\n\n" ++ m.text ++ more) =
          text ++ "\n" ++ ("" ++ "\n" ++ (m.text ++ more)) := by
        intro more
        rw [hgap]
        simp only [String.append_assoc]
      rw [if_neg (by simp), if_neg (by simp), htext, linesOf_append, linesOf_append, ih]
      rfl

end InterfaceMember

theorem Output.ofOutput_eq (o : Output) : InterfaceMember.ofOutput o =
    ⟨o.event.docs.onTop "  " (Source.declarationLine o.property o.type),
      (o.event.docs.comment? "  ").isSome⟩ := rfl

/-- The text of an interface. -/
def interfaceText (className : String) (members : List InterfaceMember) : String :=
  "export declare interface " ++ className ++ " extends Components." ++ className ++ " \x7b\n" ++
    InterfaceMember.joinAll members ++ "\n\x7d"

theorem interfaceBlock?_eq (className : String) (events : List Event) :
    interfaceBlock? className events = match Output.ofEvents className events with
      | [] => none
      | o :: rest =>
        some (interfaceText className ((o :: rest).map InterfaceMember.ofOutput)) := rfl

theorem interfaceText_eq (className : String) (members : List InterfaceMember) :
    interfaceText className members = ("export declare interface " ++ className ++
      " extends Components." ++ className ++ " \x7b") ++ "\n" ++
        InterfaceMember.joinAll members ++ "\n" ++ "\x7d" := by
  have hopen : " \x7b\n" = " \x7b" ++ "\n" := by simp
  have hclose : "\n\x7d" = "\n" ++ "\x7d" := by simp
  unfold interfaceText
  rw [hopen, hclose]
  simp only [String.append_assoc]

/-- The members of an interface are on the lines between its first and its last. -/
theorem linesOf_interfaceText {className : String} (h : '\n' ∉ className.toList)
    (members : List InterfaceMember) :
    (linesOf (interfaceText className members)).tail.dropLast =
      linesOf (InterfaceMember.joinAll members) := by
  have hhead : '\n' ∉ ("export declare interface " ++ className ++ " extends Components." ++
      className ++ " \x7b").toList := by simp [h]
  rw [interfaceText_eq, linesOf_append, linesOf_append, linesOf_single hhead,
    linesOf_single (a := "\x7d") (by simp), List.singleton_append, List.cons_append, List.tail_cons,
    List.dropLast_concat]

theorem infix_linesOf_interfaceText (className : String) (members : List InterfaceMember) :
    linesOf (InterfaceMember.joinAll members) <:+: linesOf (interfaceText className members) := by
  rw [interfaceText_eq, linesOf_append, linesOf_append, List.append_assoc]
  exact List.infix_append' _ _ _

/-- A declaration is neither blank nor the first line of a comment. -/
theorem Source.declarationLine_ne (name type : String) :
    Source.declarationLine name type ≠ "" ∧ Source.declarationLine name type ≠ "  /**" := by
  have hlast : (Source.declarationLine name type).toList.getLast? = some ';' := by
    unfold Source.declarationLine
    rw [String.toList_append]
    exact List.getLast?_concat
  constructor <;> rintro he <;> rw [he] at hlast <;> simp at hlast

section Declarations

variable {outputs : List Output}

/-- What is read from members after the first, whose gaps are blank lines. -/
theorem declarations_rest (hs : ∀ o ∈ outputs, o.event.docs.IsSealed)
    (hn : ∀ o ∈ outputs, '\n' ∉ (Source.declarationLine o.property o.type).toList) :
    (Source.outsideComments false ((outputs.map InterfaceMember.ofOutput).flatMap fun m =>
        (if m.documented then [] else [""]) ++ linesOf m.text)).filter (fun line => line != "") =
      outputs.map fun o => Source.declarationLine o.property o.type := by
  induction outputs with
  | nil => rfl
  | cons o rest ih =>
    obtain ⟨hso, hsr⟩ := List.forall_mem_cons.mp hs
    obtain ⟨hno, hnr⟩ := List.forall_mem_cons.mp hn
    obtain ⟨hblank, hopen⟩ := Source.declarationLine_ne o.property o.type
    have hgap : ∀ (blank : Bool) (more : List String),
        (Source.outsideComments false ((if blank then [] else [""]) ++ more)).filter
          (fun line => line != "") =
        (Source.outsideComments false more).filter (fun line => line != "") := by
      intro blank more
      cases blank with
      | true => rfl
      | false =>
        rw [if_neg (by simp), List.singleton_append, Source.outsideComments_line (by simp),
          List.filter_cons_of_neg (by simp)]
    rw [List.map_cons, List.flatMap_cons, List.append_assoc, hgap, Output.ofOutput_eq,
      hso.outsideComments_onTop hno hopen,
      List.filter_cons_of_pos (p := fun line => line != "") (bne_iff_ne.mpr hblank), ih hsr hnr,
      List.map_cons]

/-- What is read from the members of an interface if their comments stay closed. -/
theorem declarations_joinAll (hs : ∀ o ∈ outputs, o.event.docs.IsSealed)
    (hn : ∀ o ∈ outputs, '\n' ∉ (Source.declarationLine o.property o.type).toList) :
    (Source.outsideComments false
      (linesOf (InterfaceMember.joinAll (outputs.map InterfaceMember.ofOutput)))).filter
        (fun line => line != "") =
      outputs.map fun o => Source.declarationLine o.property o.type := by
  cases outputs with
  | nil => decide_cbv
  | cons o rest =>
    obtain ⟨hso, hsr⟩ := List.forall_mem_cons.mp hs
    obtain ⟨hno, hnr⟩ := List.forall_mem_cons.mp hn
    obtain ⟨hblank, hopen⟩ := Source.declarationLine_ne o.property o.type
    rw [List.map_cons, InterfaceMember.joinAll, InterfaceMember.linesOf_join, Output.ofOutput_eq,
      hso.outsideComments_onTop hno hopen,
      List.filter_cons_of_pos (p := fun line => line != "") (bne_iff_ne.mpr hblank),
      declarations_rest hsr hnr, List.map_cons]

end Declarations

/-! ## The surface -/

namespace Component

/-- The outputs that a component should have, one for each public event: the name and the
type of its payload. -/
def outputs (c : Component) : List (String × String) :=
  c.publicEvents.map fun e =>
    (Naming.camelCase e.name, (e.resolvedType (Naming.className c.tag)).text)

/-- The names of a component can be read back from a list. -/
structure HasListableNames (c : Component) : Prop where
  tag : '\n' ∉ c.tag.toList
  properties : ∀ p ∈ c.publicProperties, Text.IsListable p.name
  virtualProperties : ∀ p ∈ c.virtualProperties, Text.IsListable p.name
  methods : ∀ m ∈ c.publicMethods, Text.IsListable m.name
  events : ∀ e ∈ c.publicEvents, Text.IsListable e.name

variable {c : Component}

theorem map_name_inputs (c : Component) : ((Input.ofComponent c).map Input.name).Perm
    (c.publicProperties.map Property.name ++ c.virtualProperties.map VirtualProperty.name) := by
  refine ((List.mergeSort_perm _ _).map Input.name).trans ?_
  rw [List.map_append, List.map_map, List.map_map]
  exact .refl _

theorem sorted_inputs (c : Component) :
    ((Input.ofComponent c).map Input.name).Pairwise fun a b => a ≤ b := by
  refine List.pairwise_map.mpr ((List.pairwise_mergeSort ?_ ?_ _).imp of_decide_eq_true)
  · intro a b d hab hbd
    exact decide_eq_true (le_trans (of_decide_eq_true hab) (of_decide_eq_true hbd))
  · intro a b
    rw [Bool.or_eq_true, decide_eq_true_iff, decide_eq_true_iff]
    exact le_total a.name b.name

/-- The outputs of a wrapper class are those that its component should have. -/
theorem outputs_eq (c : Component) : c.outputs =
    (Output.ofEvents (Naming.className c.tag) c.events).map fun o => (o.property, o.type) := by
  rw [outputs, Output.ofEvents, List.map_map]
  rfl

theorem HasListableNames.classOf (h : c.HasListableNames) (options : WrapperOptions) :
    (Wrapper.classOf c options).IsListable where
  tag := h.tag
  inputs := by
    intro i hi
    have hname := (map_name_inputs c).mem_iff.mp (List.mem_map_of_mem hi)
    rcases List.mem_append.mp hname with hname | hname
    · obtain ⟨p, hp, he⟩ := List.mem_map.mp hname
      exact he ▸ h.properties p hp
    · obtain ⟨p, hp, he⟩ := List.mem_map.mp hname
      exact he ▸ h.virtualProperties p hp
  methods := List.forall_mem_map.mpr h.methods
  setters := by
    intro p hp
    unfold Wrapper.classOf at hp
    cases hi : options.inlineProperties with
    | true => exact (h.properties p (by simpa [hi] using hp)).newline
    | false => simp [hi] at hp
  outputs := List.forall_mem_map.mpr h.events

/-- The properties with a setter of their own. -/
def setterNames (c : Component) (options : WrapperOptions) : List String :=
  if options.inlineProperties then c.publicProperties.map Property.name else []

theorem declaresMembers (c : Component) (options : WrapperOptions) :
    DeclaresMembers (Wrapper.ofComponent c options).definition (Naming.className c.tag)
      (wrapperMembers (c.setterNames options) c.outputs) := by
  have hmembers : (Wrapper.classOf c options).classMembers =
      wrapperMembers (c.setterNames options) c.outputs := by
    rw [WrapperClass.classMembers, outputs_eq]
    unfold setterNames Wrapper.classOf
    cases options.inlineProperties <;> rfl
  exact hmembers ▸ WrapperClass.declaresMembers_text (Wrapper.classOf c options)

end Component

/-- The lists of a wrapper agree with each other and with the component. -/
structure HasSurface (c : Component) (w : Wrapper) : Prop where
  names : w.outputNames = c.outputs.map Prod.fst
  options : Source.componentOutputs w.definition = c.outputs.map Prod.fst
  bound : (Source.boundEvents w.definition).map Naming.camelCase = c.outputs.map Prod.fst
  emitters : Source.emitters w.definition = c.outputs.map fun o => Source.emitterLine o.1 o.2
  declared : ∃ setters, DeclaresMembers w.definition w.className (wrapperMembers setters c.outputs)
  members : ∀ block ∈ w.interfaceBlock, ∃ members, block = interfaceText w.className members ∧
    List.Forall₂ InterfaceMember.Declares members c.outputs
  /-- Documentation that ends its comment puts more between the members. -/
  declarations : (∀ e ∈ c.publicEvents, e.docs.IsSealed) → ∀ block ∈ w.interfaceBlock,
    Source.declarations block = c.outputs.map fun o => Source.declarationLine o.1 o.2
  interface : w.interfaceBlock.isSome = true ↔ c.outputs ≠ []
  inputs : Source.decoratorInputs w.definition = Source.componentInputs w.definition
  sorted : (Source.componentInputs w.definition).Pairwise fun a b => a ≤ b
  complete : (Source.componentInputs w.definition).Perm
    (c.publicProperties.map Property.name ++ c.virtualProperties.map VirtualProperty.name)
  imports : w.typeImports ≠ [] → ∃ block ∈ w.interfaceBlock, ∃ before, w.aggregateSection =
    before ++ "\n\n" ++ ("\n".intercalate w.importStatements ++ "\n\n" ++ block)

/-- All lists of a wrapper. -/
structure Surface where
  outputNames : List String
  componentOutputs : List String
  boundEvents : List String
  emitters : List String
  interfaceBlock : Option String
  typeImports : List TypeImport
  decoratorInputs : List String
  componentInputs : List String
  deriving DecidableEq

namespace Wrapper

/-- The lists as they are read from a wrapper. -/
def surface (w : Wrapper) : Surface where
  outputNames := w.outputNames
  componentOutputs := Source.componentOutputs w.definition
  boundEvents := Source.boundEvents w.definition
  emitters := Source.emitters w.definition
  interfaceBlock := w.interfaceBlock
  typeImports := w.typeImports
  decoratorInputs := Source.decoratorInputs w.definition
  componentInputs := Source.componentInputs w.definition

theorem interfaceBlock_eq (c : Component) (options : WrapperOptions) :
    (ofComponent c options).interfaceBlock = if c.outputs = [] then none else
      some (interfaceText (Naming.className c.tag)
        ((Output.ofEvents (Naming.className c.tag) c.events).map InterfaceMember.ofOutput)) := by
  change interfaceBlock? (Naming.className c.tag) c.events = _
  rw [Component.outputs_eq, interfaceBlock?_eq]
  cases Output.ofEvents (Naming.className c.tag) c.events with
  | nil => rfl
  | cons o rest => rfl

/-- Every member of the interface declares its output. -/
theorem forall_declares (outputs : List Output) :
    List.Forall₂ InterfaceMember.Declares (outputs.map InterfaceMember.ofOutput)
      (outputs.map fun o => (o.property, o.type)) :=
  forall₂_map_map fun o _ => ⟨o.event.docs, rfl, rfl⟩

/-- An interface has one member for each output. -/
theorem exists_interfaceText (c : Component) (options : WrapperOptions) :
    ∀ block ∈ (ofComponent c options).interfaceBlock, ∃ members,
      block = interfaceText (Naming.className c.tag) members ∧
        List.Forall₂ InterfaceMember.Declares members c.outputs := by
  intro block hb
  rw [Option.mem_def, interfaceBlock_eq, Option.ite_none_left_eq_some, Option.some_inj] at hb
  rw [Component.outputs_eq]
  exact ⟨_, hb.2.symm, forall_declares _⟩

/-- The interface and its imports are the last part of a section. -/
theorem exists_aggregateSection {w : Wrapper} {block : String} (hb : w.interfaceBlock = some block)
    (hi : w.typeImports ≠ []) : ∃ before, w.aggregateSection =
      before ++ "\n\n" ++ ("\n".intercalate w.importStatements ++ "\n\n" ++ block) := by
  have hsection : w.interfaceSection block =
      "\n".intercalate w.importStatements ++ "\n\n" ++ block := by
    have hne : w.importStatements ≠ [] := by simpa [importStatements] using hi
    unfold interfaceSection
    cases hs : w.importStatements with
    | nil => exact absurd hs hne
    | cons s rest => rfl
  unfold aggregateSection
  rw [hb, Option.map_some, Option.toList_some, hsection]
  cases w.moduleDefinition with
  | none => exact ⟨w.definition, by simp⟩
  | some definition =>
    refine ⟨w.definition ++ "\n\n" ++ definition, ?_⟩
    simp only [Option.toList_some, List.cons_append, List.nil_append, String.intercalate_cons_cons,
      String.intercalate_singleton, String.append_assoc]

/-- A component without outputs needs no types. -/
theorem outputs_ne_nil {c : Component} {options : WrapperOptions}
    (h : (ofComponent c options).typeImports ≠ []) : c.outputs ≠ [] := by
  intro hn
  have hevents : (c.events.filter fun e => !e.isInternal) = [] := List.map_eq_nil_iff.mp hn
  refine h ?_
  change eventImports (Naming.className c.tag) c.events = []
  unfold eventImports
  rw [hevents]
  rfl

section Readings

variable {c : Component} (h : c.HasListableNames) (options : WrapperOptions)

theorem outputs_classOf (c : Component) (options : WrapperOptions) :
    (classOf c options).outputs = Output.ofEvents (Naming.className c.tag) c.events := rfl

include h

theorem componentOutputs_definition :
    Source.componentOutputs (ofComponent c options).definition = c.outputs.map Prod.fst := by
  change Source.componentOutputs (classOf c options).text = _
  rw [WrapperClass.componentOutputs_text (h.classOf options), outputs_classOf, Component.outputs_eq,
    List.map_map]
  rfl

theorem boundEvents_definition : Source.boundEvents (ofComponent c options).definition =
    c.publicEvents.map Event.name := by
  change Source.boundEvents (classOf c options).text = _
  rw [WrapperClass.boundEvents_text (h.classOf options), outputs_classOf, Output.ofEvents,
    List.map_map]
  rfl

theorem emitters_definition : Source.emitters (ofComponent c options).definition =
    c.outputs.map fun o => Source.emitterLine o.1 o.2 := by
  change Source.emitters (classOf c options).text = _
  rw [WrapperClass.emitters_text (h.classOf options), outputs_classOf, Component.outputs_eq,
    List.map_map]
  rfl

theorem decoratorInputs_definition : Source.decoratorInputs (ofComponent c options).definition =
    (Input.ofComponent c).map Input.name :=
  WrapperClass.decoratorInputs_text (h.classOf options)

theorem componentInputs_definition : Source.componentInputs (ofComponent c options).definition =
    (Input.ofComponent c).map Input.name :=
  WrapperClass.componentInputs_text (h.classOf options)

theorem declarations_interfaceBlock (hs : ∀ e ∈ c.publicEvents, e.docs.IsSealed) {block : String}
    (hb : (ofComponent c options).interfaceBlock = some block) : Source.declarations block =
      c.outputs.map fun o => Source.declarationLine o.1 o.2 := by
  have hclass := Naming.not_mem_className h.tag
  have hsealed : ∀ o ∈ Output.ofEvents (Naming.className c.tag) c.events, o.event.docs.IsSealed :=
    List.forall_mem_map.mpr hs
  have hline : ∀ o ∈ Output.ofEvents (Naming.className c.tag) c.events,
      '\n' ∉ (Source.declarationLine o.property o.type).toList := by
    refine List.forall_mem_map.mpr fun e he => ?_
    have hname := Naming.not_mem_camelCase (by decide) (h.events e he).newline
    have hmember := Naming.newline_not_mem_member hname
    have htype := Event.not_mem_resolvedType hclass e
    unfold Source.declarationLine Source.emitter
    simp [hmember, htype]
  rw [interfaceBlock_eq, Option.ite_none_left_eq_some, Option.some_inj] at hb
  obtain ⟨-, rfl⟩ := hb
  rw [Source.declarations, linesOf_interfaceText hclass, declarations_joinAll hsealed hline,
    Component.outputs_eq, List.map_map]
  rfl

end Readings

/-- A swatch reports the shade that is picked; its other event is internal. -/
def swatch : Component where
  tag := "my-swatch"
  properties := [{ name := "shade", required := true }, { name := "probe", isInternal := true }]
  virtualProperties := [{ name := "label" }]
  methods := [{ name := "reset" }]
  events :=
    [{ name := "shade-picked", docs := { text := "Picked by hand." },
       payload := ⟨"Shade", "", .ofList [("Shade", { origin := .imported })]⟩ },
      { name := "traced", isInternal := true }]

end Wrapper

end ElementWrappers
