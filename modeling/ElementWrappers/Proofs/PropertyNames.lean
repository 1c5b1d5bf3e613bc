import Mathlib
import ElementWrappers.Proofs.LiteralValues
import ElementWrappers.Proofs.PublicSurface

/-!
# Property names

The members that a wrapper has for its events are property names: identifiers as they
are, or literals. `names_outputs_iff` says which members are written as the property
that they are meant for: those with a dash or a slash, which are quoted, and those that
are identifiers. Any other character is written bare.
-/

namespace ElementWrappers

open Text

theorem Naming.needsQuotes_iff {name : String} :
    needsQuotes name = true ↔ '-' ∈ name.toList ∨ '/' ∈ name.toList := by
  simp [needsQuotes, List.any_eq_true, and_or_left, exists_or]

/-! ## Identifiers -/

/-- The letters beyond ASCII that an identifier may begin with or go on with. They depend
on the version of Unicode. -/
structure Letters where
  start : Char → Bool
  part : Char → Bool

namespace Letters

/-- No letters beyond ASCII. -/
def ascii : Letters := ⟨fun _ => false, fun _ => false⟩

/-- Whether an identifier may begin with `c`. -/
def isStart (letters : Letters) (c : Char) : Bool :=
  c.isAlpha || c == '_' || c == '$' || (127 < c.toNat && letters.start c)

/-- Whether an identifier may go on with `c`. -/
def isPart (letters : Letters) (c : Char) : Bool :=
  letters.isStart c || c.isDigit || (127 < c.toNat && letters.part c)

/-- The identifiers that can name a property, reserved words among them. -/
structure IsIdentifier (letters : Letters) (name : String) : Prop where
  first : name.toList.head?.any letters.isStart = true
  rest : name.toList.all letters.isPart = true

/-- A member that is read as the property `name`: an identifier as it is, or a literal
with this value. It is bare exactly if the name is an identifier. -/
structure Names (letters : Letters) (member name : String) : Prop where
  denotes : (letters.IsIdentifier member ∧ member = name) ∨
    Literal.read member.toList = some (Literal.units name.toList, [])
  bare : member.toList.head? ≠ some '\'' ↔ letters.IsIdentifier name

variable {letters : Letters} {name : String}

/-- No letter makes an identifier of another ASCII character. -/
theorem isPart_eq_false {c : Char} (hn : c.toNat ≤ 127)
    (h : (c.isAlpha || c == '_' || c == '$' || c.isDigit) = false) : letters.isPart c = false := by
  have hbig : decide (127 < c.toNat) = false := decide_eq_false (by omega)
  simp only [Bool.or_eq_false_iff] at h
  simp [isPart, isStart, hbig, h]

theorem IsIdentifier.not_mem (h : letters.IsIdentifier name) {c : Char} (hn : c.toNat ≤ 127)
    (hc : (c.isAlpha || c == '_' || c == '$' || c.isDigit) = false) : c ∉ name.toList := by
  intro hm
  have hpart := List.all_eq_true.mp h.rest c hm
  rw [isPart_eq_false hn hc] at hpart
  cases hpart

/-- What is quoted is no identifier. -/
theorem IsIdentifier.needsQuotes_eq_false (h : letters.IsIdentifier name) :
    Naming.needsQuotes name = false := by
  rw [Bool.eq_false_iff, ne_eq, Naming.needsQuotes_iff, not_or]
  exact ⟨h.not_mem (by decide) (by decide), h.not_mem (by decide) (by decide)⟩

/-- A name without escapes is written as itself if it has a dash or a slash or is an
identifier, and not otherwise. -/
theorem names_member_iff (h : Literal.IsQuotable name.toList) :
    letters.Names (Naming.member name) name ↔
      ('-' ∈ name.toList ∨ '/' ∈ name.toList) ∨ letters.IsIdentifier name := by
  rw [← Naming.needsQuotes_iff]
  have hopen : name.toList.head? ≠ some '\'' :=
    fun hh => h.quote_not_mem (List.mem_of_head? hh)
  cases hq : Naming.needsQuotes name with
  | true =>
    have hmember : Naming.member name = Naming.quoted name := if_pos hq
    have hread : Literal.read ((Naming.quoted name).toList ++ []) =
        some (Literal.units name.toList, []) := (Literal.read_quoted_iff []).mpr ⟨h, rfl⟩
    have hquote : (Naming.quoted name).toList.head? = some '\'' := by simp [Naming.quoted]
    have hnot : ¬ letters.IsIdentifier name := fun hi => by
      rw [hi.needsQuotes_eq_false] at hq
      cases hq
    rw [List.append_nil] at hread
    rw [hmember]
    exact iff_of_true ⟨.inr hread, iff_of_false (fun hne => hne hquote) hnot⟩ (.inl rfl)
  | false =>
    have hmember : Naming.member name = name := if_neg (by simp [hq])
    rw [hmember]
    constructor
    · exact fun hnames => .inr (hnames.bare.mp hopen)
    · intro hi
      have hid := hi.resolve_left Bool.false_ne_true
      exact ⟨.inl ⟨hid, rfl⟩, iff_of_true hopen hid⟩

end Letters

theorem Naming.isQuotable_camelCase {name : String} (h : Literal.IsQuotable name.toList) :
    Literal.IsQuotable (camelCase name).toList := by
  intro c hc
  by_contra hne
  have hupper : c.isUpper = false := by
    simp only [Literal.needsEscape, Bool.not_eq_false, Bool.or_eq_true, beq_iff_eq] at hne
    rcases hne with ((rfl | rfl) | rfl) | rfl <;> decide
  exact not_mem_camelCase hupper (fun hm => hne (h c hm)) hc

/-! ## The members of a wrapper -/

/-- The lines of the class and of the interface that declare an output. -/
structure EmitsMember (w : Wrapper) (member type : String) : Prop where
  field : linesOf ("  @Output() " ++ member ++ " = new " ++ Source.emitter type ++ "();") <:+:
    linesOf w.definition
  declaration : ∃ block ∈ w.interfaceBlock,
    linesOf ("  " ++ member ++ ": " ++ Source.emitter type ++ ";") <:+: linesOf block

section Members

variable {c : Component} {e : Event} {letters : Letters}

theorem WrapperClass.infix_linesOf_text {w : WrapperClass} {o : Output} (ho : o ∈ w.outputs) :
    linesOf (outputText o) <:+: linesOf w.text := by
  have hmember : outputText o ∈ w.members :=
    List.mem_append_right _ (List.mem_map_of_mem ho)
  have hmembers : linesOf ("\n".intercalate w.members) = w.members.flatMap linesOf :=
    linesOf_intercalate (List.ne_nil_of_mem hmember)
  rw [text_eq, linesOf_intercalate (List.cons_ne_nil _ _)]
  refine .trans ?_ (List.infix_flatMap_of_mem (a := "\n".intercalate w.members) (by simp) linesOf)
  rw [hmembers]
  exact List.infix_flatMap_of_mem hmember linesOf

theorem Doc.suffix_linesOf_onTop (d : Doc) (indent declaration : String) :
    linesOf declaration <:+ linesOf (d.onTop indent declaration) := by
  unfold onTop
  cases d.comment? indent with
  | none => exact List.suffix_refl _
  | some comment =>
    dsimp only
    rw [linesOf_append]
    exact List.suffix_append _ _

theorem InterfaceMember.infix_linesOf_joinAll {m : InterfaceMember} {members : List InterfaceMember}
    (hm : m ∈ members) : linesOf m.text <:+: linesOf (joinAll members) := by
  cases members with
  | nil => cases hm
  | cons first rest =>
    rw [joinAll, linesOf_join]
    rcases List.mem_cons.mp hm with rfl | hm
    · exact List.infix_append_left
    · obtain ⟨front, back, rfl⟩ := List.append_of_mem hm
      rw [List.flatMap_append, List.flatMap_cons]
      simp only [← List.append_assoc]
      exact List.infix_append _ _ _

theorem emitsMember_ofComponent (he : e ∈ c.publicEvents) (options : WrapperOptions) :
    EmitsMember (Wrapper.ofComponent c options) (Naming.member (Naming.camelCase e.name))
      (e.resolvedType (Naming.className c.tag)).text := by
  obtain ⟨o, ho, hp⟩ : ∃ o ∈ Output.ofEvents (Naming.className c.tag) c.events,
      o = ⟨e, Naming.camelCase e.name, (e.resolvedType (Naming.className c.tag)).text⟩ :=
    ⟨_, List.mem_map_of_mem he, rfl⟩
  have houtputs : c.outputs ≠ [] := by
    rw [Component.outputs_eq]
    exact List.ne_nil_of_mem (List.mem_map_of_mem ho)
  have hfield : linesOf (WrapperClass.outputText o) <:+:
      linesOf (Wrapper.ofComponent c options).definition :=
    WrapperClass.infix_linesOf_text (w := Wrapper.classOf c options) ho
  have hmember : linesOf (Source.declarationLine o.property o.type) <:+:
      linesOf (InterfaceMember.ofOutput o).text := by
    rw [Output.ofOutput_eq]
    exact (Doc.suffix_linesOf_onTop o.event.docs "  " _).isInfix
  have hblock := (hmember.trans (InterfaceMember.infix_linesOf_joinAll
    (List.mem_map_of_mem ho))).trans (infix_linesOf_interfaceText (Naming.className c.tag) _)
  subst hp
  refine ⟨hfield, ?_⟩
  rw [Wrapper.interfaceBlock_eq, if_neg houtputs]
  exact ⟨_, rfl, hblock⟩

/-- The members of a public event name its property exactly if the property has a dash or a
slash, which quote it, or is an identifier. -/
theorem names_outputs_iff (letters : Letters) (options : WrapperOptions)
    (he : e ∈ c.publicEvents) (hq : Literal.IsQuotable e.name.toList) :
    EmitsMember (Wrapper.ofComponent c options) (Naming.member (Naming.camelCase e.name))
        (e.resolvedType (Naming.className c.tag)).text ∧
      (letters.Names (Naming.member (Naming.camelCase e.name)) (Naming.camelCase e.name) ↔
        ('-' ∈ (Naming.camelCase e.name).toList ∨ '/' ∈ (Naming.camelCase e.name).toList) ∨
          letters.IsIdentifier (Naming.camelCase e.name)) :=
  ⟨emitsMember_ofComponent he options,
    Letters.names_member_iff (Naming.isQuotable_camelCase hq)⟩

def valueChanged : Event := { name := "value/changed", payload := { written := "number" } }

/-- A slider that tells when its value changes. -/
def slider : Component := { tag := "my-slider", events := [valueChanged] }

theorem names_outputs_iff_slider :
    valueChanged ∈ slider.publicEvents ∧ Literal.IsQuotable valueChanged.name.toList ∧
      EmitsMember (Wrapper.ofComponent slider {}) "'value/changed'"
        (valueChanged.resolvedType (Naming.className slider.tag)).text ∧
      Letters.ascii.Names "'value/changed'" "value/changed" := by
  have he : valueChanged ∈ slider.publicEvents := List.mem_singleton_self _
  have hq : Literal.IsQuotable valueChanged.name.toList := by
    simp [valueChanged, Literal.IsQuotable, Literal.needsEscape]
  have hcamel : Naming.camelCase valueChanged.name = "value/changed" := by decide_cbv
  have hmember : Naming.member "value/changed" = "'value/changed'" := by decide_cbv
  obtain ⟨hemits, hnames⟩ := names_outputs_iff Letters.ascii {} he hq
  rw [hcamel, hmember] at hemits
  rw [hcamel, hmember] at hnames
  exact ⟨he, hq, hemits, hnames.mpr (.inl (.inr (by decide_cbv)))⟩

/-- A colon is written bare, and no identifier has one. -/
theorem not_names_colon : Literal.IsQuotable "my:event".toList ∧ ¬ ∃ letters : Letters,
    letters.Names (Naming.member (Naming.camelCase "my:event")) (Naming.camelCase "my:event") := by
  have hq : Literal.IsQuotable "my:event".toList := by
    simp [Literal.IsQuotable, Literal.needsEscape]
  refine ⟨hq, ?_⟩
  rintro ⟨letters, hnames⟩
  have hcamel : Naming.camelCase "my:event" = "my:event" := by decide_cbv
  rw [hcamel, Letters.names_member_iff hq] at hnames
  rcases hnames with hquoted | hid
  · exact absurd hquoted (by decide_cbv)
  · exact hid.not_mem (c := ':') (by decide) (by decide) (by decide_cbv)

end Members

end ElementWrappers
