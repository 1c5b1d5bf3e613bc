import Mathlib
import ElementWrappers.Proofs.OneLine
import ElementWrappers.Proofs.SourceReading
import ElementWrappers.Wrapper.Basic

/-!
# Reading a wrapper class

A class names its outputs three times and its inputs twice. They are read back here from
the lines of its source, and every reading finds the inputs and outputs that the class is
made from.
-/

namespace ElementWrappers

open Text

/-! ## Readers -/

namespace Source

/-- The inputs that the decorator is told. -/
def decoratorInputs (source : String) : List String :=
  listed "  inputs: [" ((linesOf source).takeWhile fun line => line != "@Component(\x7b")

/-- The inputs in the component options. -/
def componentInputs (source : String) : List String :=
  listed "  inputs: [" (between "@Component(\x7b" "\x7d)" (linesOf source))

/-- The outputs in the component options. -/
def componentOutputs (source : String) : List String :=
  listed "  outputs: [" (between "@Component(\x7b" "\x7d)" (linesOf source))

/-- The line that begins the constructor. -/
def constructorHead : String :=
  "  constructor(c: ChangeDetectorRef, r: ElementRef, protected z: NgZone) \x7b"

/-- The events that the constructor binds. -/
def boundEvents (source : String) : List String :=
  listed "    proxyOutputs(this, this.el, ["
    ((linesOf source).rtakeWhile fun line => line != constructorHead)

/-- The type of an output with the given payload. -/
def emitter (type : String) : String := "EventEmitter<CustomEvent<" ++ type ++ ">>"

/-- An output in a class. -/
def emitterLine (name type : String) : String :=
  "  @Output() " ++ Naming.member name ++ " = new " ++ emitter type ++ "();"

/-- The output members, which stand right above the constructor. Comments of other
members stand above them, whatever they hold. -/
def emitters (source : String) : List String :=
  ((linesOf source).rdropWhile fun line => line != constructorHead).dropLast.rtakeWhile
    (startsWith "  @Output() ")

end Source

/-! ## The decorator -/

namespace Decorator

variable {d : Decorator}

/-- Nothing that a decorator is told keeps its lines from being read. -/
structure IsListable (d : Decorator) : Prop where
  definer : ∀ name ∈ d.definer, '\n' ∉ name.toList
  inputs : ∀ name ∈ d.inputs, Text.IsListable name
  methods : ∀ name ∈ d.methods, Text.IsListable name

theorem exists_line_of_mem_listOption {key : String} {names : List String} {option : String}
    (h : option ∈ listOption key names) :
    names ≠ [] ∧ option = "  " ++ key ++ ": [" ++ Naming.quotedList names ++ "]" := by
  cases names with
  | nil => cases h
  | cons name rest => exact ⟨List.cons_ne_nil _ _, List.mem_singleton.mp h⟩

theorem options_eq (d : Decorator) : d.options =
    (d.definer.toList.map fun name => "  defineCustomElementFn: " ++ name) ++
      listOption "inputs" d.inputs ++ listOption "methods" d.methods := by
  unfold options
  cases d.definer <;> rfl

/-- The options stand on lines of their own. -/
theorem options_line (h : d.IsListable) : ∀ option ∈ d.options,
    '\n' ∉ option.toList ∧ startsWith "  " option = true := by
  have hlist : ∀ {key : String} {names : List String}, '\n' ∉ key.toList →
      (∀ name ∈ names, Text.IsListable name) → ∀ option ∈ listOption key names,
        '\n' ∉ option.toList ∧ startsWith "  " option = true := by
    intro key names hk hn option ho
    obtain ⟨-, rfl⟩ := exists_line_of_mem_listOption ho
    refine ⟨by simp [hk, newline_not_mem_quotedList hn], ?_⟩
    simp only [String.append_assoc]
    exact startsWith_mono (by decide_cbv) _
  rw [options_eq]
  intro option ho
  rcases List.mem_append.mp ho with ho | ho
  · rcases List.mem_append.mp ho with ho | ho
    · obtain ⟨name, hd, rfl⟩ := List.mem_map.mp ho
      have hname := h.definer name (Option.mem_toList.mp hd)
      exact ⟨by simp [hname], startsWith_mono (by decide_cbv) name⟩
    · exact hlist (by decide_cbv) h.inputs option ho
  · exact hlist (by decide_cbv) h.methods option ho

theorem linesOf_text (d : Decorator) : linesOf d.text =
    if d.options = [] then ["@ProxyCmp(\x7b\x7d)"]
    else "@ProxyCmp(\x7b" :: (linesOf (",\n".intercalate d.options) ++ ["\x7d)"]) := by
  unfold text
  cases ho : d.options with
  | nil =>
    rw [if_pos rfl]
    decide_cbv
  | cons option rest =>
    have hopen : "(\x7b\n" = "(\x7b" ++ "\n" := by simp
    have hclose : "\n\x7d)" = "\n" ++ "\x7d)" := by simp
    have htext : "@" ++ Support.decorator ++ "(\x7b\n" ++ ",\n".intercalate (option :: rest) ++
        "\n\x7d)" = ("@ProxyCmp(\x7b" ++ "\n" ++ ",\n".intercalate (option :: rest)) ++ "\n" ++
          "\x7d)" := by
      have hname : "@" ++ Support.decorator ++ "(\x7b" = "@ProxyCmp(\x7b" := by
        simp [Support.decorator]
      rw [hopen, hclose, ← hname]
      simp only [String.append_assoc]
    rw [if_neg (List.cons_ne_nil _ _)]
    dsimp only
    rw [htext, linesOf_append, linesOf_append,
      linesOf_single (a := "@ProxyCmp(\x7b") (by decide_cbv),
      linesOf_single (a := "\x7d)") (by decide_cbv)]
    rfl

theorem not_mem_linesOf_text (h : d.IsListable) : "@Component(\x7b" ∉ linesOf d.text := by
  rw [linesOf_text]
  split
  · decide_cbv
  · rename_i hne
    have hindented := forall_linesOf_options (P := fun line => startsWith "  " line = true)
      (fun line hl => startsWith_mono hl ",") hne fun option ho line hl => by
        obtain ⟨hn, hs⟩ := options_line h option ho
        rw [linesOf_single hn] at hl
        exact List.mem_singleton.mp hl ▸ hs
    intro hm
    rcases List.mem_cons.mp hm with he | hm
    · exact absurd he (by decide_cbv)
    rcases List.mem_append.mp hm with hm | hm
    · exact absurd (hindented _ hm) (by decide_cbv)
    · exact absurd (List.mem_singleton.mp hm) (by decide_cbv)

/-- A list option is read as its names. -/
theorem listed_listOption {key : String} (hk : Text.IsListable key) {names : List String}
    (h : ∀ name ∈ names, Text.IsListable name) :
    ((listOption key names).flatMap fun option => listed ("  " ++ key ++ ": [") (linesOf option)) =
      names := by
  cases names with
  | nil => rfl
  | cons name rest =>
    have hmark : Text.IsListable ("  " ++ key ++ ": [") :=
      ⟨by simp [hk.quote], by simp [hk.newline]⟩
    rw [listOption, List.flatMap_singleton]
    exact listed_line (.quotedList fun n hn => (h n hn).quote) (newline_not_mem_quotedList h) hmark
      (by decide_cbv)

/-- The decorator is told all inputs. -/
theorem listed_text (h : d.IsListable) : listed "  inputs: [" (linesOf d.text) = d.inputs := by
  rw [linesOf_text]
  split
  · rename_i hn
    have hempty := (options_eq_nil_iff d).mp hn
    simp only [isEmpty, Bool.and_eq_true, List.isEmpty_iff] at hempty
    rw [hempty.1.2]
    decide_cbv
  · rename_i hne
    have hmark : "  inputs: [" = "  " ++ "inputs" ++ ": [" := by simp
    have hopen : listed "  inputs: [" ["@ProxyCmp(\x7b"] = [] := by decide_cbv
    have hclose : listed "  inputs: [" ["\x7d)"] = [] := by decide_cbv
    have hdefiner : ((d.definer.toList.map fun name =>
        "  defineCustomElementFn: " ++ name).flatMap fun option =>
          listed "  inputs: [" (linesOf option)) = [] := by
      refine List.flatMap_eq_nil_iff.mpr fun option ho => ?_
      obtain ⟨name, hd, rfl⟩ := List.mem_map.mp ho
      have hname := h.definer name (Option.mem_toList.mp hd)
      exact listed_other (by decide_cbv) (by decide_cbv) (by simp [hname])
    have hinputs : ((listOption "inputs" d.inputs).flatMap fun option =>
        listed "  inputs: [" (linesOf option)) = d.inputs := by
      rw [hmark]
      exact listed_listOption (by decide_cbv) h.inputs
    have hmethods : ((listOption "methods" d.methods).flatMap fun option =>
        listed "  inputs: [" (linesOf option)) = [] := by
      refine List.flatMap_eq_nil_iff.mpr fun option ho => ?_
      have hline := (options_line h option (options_eq d ▸ List.mem_append_right _ ho)).1
      obtain ⟨-, rfl⟩ := exists_line_of_mem_listOption ho
      rw [String.append_assoc] at hline ⊢
      exact listed_other (by decide_cbv) (by decide_cbv) hline
    rw [← List.singleton_append, listed_append, listed_append, hopen, hclose,
      listed_options (by decide_cbv) hne, options_eq, List.flatMap_append, List.flatMap_append,
      hdefiner, hinputs, hmethods]
    simp

end Decorator

/-! ## The class -/

theorem Input.quoting_text {i : Input} (h : '\'' ∉ i.name.toList) : Quoting i.text [i.name] := by
  unfold Input.text
  split
  · exact ((Quoting.bare (by decide_cbv)).append (.quoted h)).append (.bare (by decide_cbv))
  · exact .quoted h

theorem Input.newline_not_mem_text {i : Input} (h : '\n' ∉ i.name.toList) :
    '\n' ∉ i.text.toList := by
  unfold Input.text
  split <;> simp [Naming.quoted, h]

theorem Output.eq_of_mem_ofEvents {className : String} {events : List Event} {o : Output}
    (h : o ∈ Output.ofEvents className events) : o.property = Naming.camelCase o.event.name ∧
      o.type = (o.event.resolvedType className).text := by
  obtain ⟨e, -, rfl⟩ := List.mem_map.mp h
  exact ⟨rfl, rfl⟩

namespace WrapperClass

variable {w : WrapperClass}

/-- Nothing that a class is made from keeps its lines from being read. -/
structure IsListable (w : WrapperClass) : Prop where
  tag : '\n' ∉ w.tag.toList
  inputs : ∀ i ∈ w.inputs, Text.IsListable i.name
  methods : ∀ name ∈ w.methods, Text.IsListable name
  setters : ∀ p ∈ w.setters, '\n' ∉ p.name.toList
  outputs : ∀ o ∈ w.outputs, Text.IsListable o.event.name

namespace IsListable

variable (h : w.IsListable)

include h

theorem className : '\n' ∉ w.className.toList := Naming.not_mem_className h.tag

theorem decorator : w.decorator.IsListable where
  definer := by
    unfold WrapperClass.decorator
    intro name hn
    cases hd : w.importsDefiner with
    | false => simp [hd] at hn
    | true =>
      have hname : "define" ++ w.className = name := by simpa [hd] using hn
      simp [← hname, h.className]
  inputs := List.forall_mem_map.mpr h.inputs
  methods := h.methods

theorem property : ∀ name ∈ w.outputs.map Output.property, Text.IsListable name := by
  refine List.forall_mem_map.mpr fun o ho => ?_
  rw [(Output.eq_of_mem_ofEvents ho).1]
  have hname := h.outputs o ho
  exact ⟨Naming.not_mem_camelCase (by decide) hname.quote,
    Naming.not_mem_camelCase (by decide) hname.newline⟩

theorem emitterType {o : Output} (ho : o ∈ w.outputs) : '\n' ∉ o.emitterType.toList := by
  have htype := Event.not_mem_resolvedType h.className o.event
  rw [← (Output.eq_of_mem_ofEvents ho).2] at htype
  unfold Output.emitterType
  simp [htype]

end IsListable

/-- The comment above the inputs. -/
def inputsComment : String :=
  "  // eslint-disable-next-line @angular-eslint/no-inputs-metadata-property"

def inputsLine (w : WrapperClass) : String :=
  "  inputs: [" ++ ", ".intercalate (w.inputs.map Input.text) ++ "]"

theorem componentOptions_eq (w : WrapperClass) : w.componentOptions =
    ["  selector: " ++ Naming.quoted w.tag, "  changeDetection: ChangeDetectionStrategy.OnPush",
      "  template: '<ng-content></ng-content>'", inputsComment ++ "\n" ++ w.inputsLine] ++
      Decorator.listOption "outputs" (w.outputs.map Output.property) ++
        ["  standalone: " ++ if w.standalone then "true" else "false"] := by
  have hcomment :
      "  // eslint-disable-next-line @angular-eslint/no-inputs-metadata-property\n  inputs: [" =
        inputsComment ++ ("\n" ++ "  inputs: [") := by simp [inputsComment]
  have hkey : "  outputs: [" = "  " ++ "outputs" ++ ": [" := by simp
  unfold componentOptions inputsLine
  rw [hcomment, hkey]
  cases w.outputs with
  | nil => simp only [String.append_assoc, List.map_nil, Decorator.listOption]
  | cons o rest => simp only [String.append_assoc, List.map_cons, Decorator.listOption]

section Options

variable (h : w.IsListable)

include h

theorem newline_not_mem_inputsLine : '\n' ∉ w.inputsLine.toList := by
  have hlist : '\n' ∉ (", ".intercalate (w.inputs.map Input.text)).toList :=
    intercalate_of_forall (P := fun text => '\n' ∉ text) List.not_mem_nil
      (fun hx hy => List.not_mem_append hx hy) (by decide_cbv)
      (List.forall_mem_map.mpr fun i hi => Input.newline_not_mem_text (h.inputs i hi).newline)
  unfold inputsLine
  rw [String.toList_append, String.toList_append]
  exact List.not_mem_append (List.not_mem_append (by decide_cbv) hlist) (by decide_cbv)

theorem linesOf_inputs : linesOf (inputsComment ++ "\n" ++ w.inputsLine) =
    [inputsComment, w.inputsLine] := by
  rw [linesOf_append, linesOf_single (a := inputsComment) (by decide_cbv),
    linesOf_single (newline_not_mem_inputsLine h)]
  rfl

/-- All lines of the component options are indented. -/
theorem componentOptions_indented :
    ∀ line ∈ linesOf (",\n".intercalate w.componentOptions), startsWith "  " line = true := by
  refine forall_linesOf_options (P := fun line => startsWith "  " line = true)
    (fun line hl => startsWith_mono hl ",") (by simp [componentOptions]) ?_
  have hsingle : ∀ {option : String}, '\n' ∉ option.toList → startsWith "  " option = true →
      ∀ line ∈ linesOf option, startsWith "  " line = true := by
    intro option hn ho line hl
    rw [linesOf_single hn] at hl
    exact List.mem_singleton.mp hl ▸ ho
  have hinputs : startsWith "  " w.inputsLine = true := by
    unfold inputsLine
    rw [String.append_assoc]
    exact startsWith_mono (by decide_cbv) _
  rw [componentOptions_eq]
  intro option ho
  rcases List.mem_append.mp ho with ho | ho
  · rcases List.mem_append.mp ho with ho | ho
    · simp only [List.mem_cons, List.not_mem_nil, or_false] at ho
      rcases ho with rfl | rfl | rfl | rfl
      · exact hsingle (by simp [Naming.quoted, h.tag]) (startsWith_mono (by decide_cbv) _)
      · exact hsingle (by simp) (by decide_cbv)
      · exact hsingle (by simp) (by decide_cbv)
      · rw [linesOf_inputs h, List.forall_mem_cons, List.forall_mem_singleton]
        exact ⟨by decide_cbv, hinputs⟩
    · obtain ⟨-, rfl⟩ := Decorator.exists_line_of_mem_listOption ho
      have hlist := newline_not_mem_quotedList h.property
      refine hsingle (by simp [hlist]) ?_
      rw [String.append_assoc]
      exact startsWith_mono (by decide_cbv) _
  · obtain rfl := List.mem_singleton.mp ho
    refine hsingle ?_ (startsWith_mono (by decide_cbv) _)
    cases w.standalone <;> simp

/-- Only the lines of inputs and outputs matter to a mark that the other lines do not
begin with. -/
theorem listed_componentOptions {mark : String} (hcomma : mark.toList.getLast? ≠ some ',')
    (hselector : startsWith mark "  selector: " = false ∧ startsWith "  selector: " mark = false)
    (hfixed : ∀ line ∈ ["  changeDetection: ChangeDetectionStrategy.OnPush",
      "  template: '<ng-content></ng-content>'", inputsComment], startsWith mark line = false)
    (hstandalone : startsWith mark "  standalone: " = false ∧
      startsWith "  standalone: " mark = false) :
    listed mark (linesOf (",\n".intercalate w.componentOptions)) = listed mark [w.inputsLine] ++
      (Decorator.listOption "outputs" (w.outputs.map Output.property)).flatMap fun option =>
        listed mark (linesOf option) := by
  have hfirst : listed mark (linesOf ("  selector: " ++ Naming.quoted w.tag)) = [] :=
    listed_other hselector.1 hselector.2 (by simp [Naming.quoted, h.tag])
  have hlast : listed mark
      (linesOf ("  standalone: " ++ if w.standalone then "true" else "false")) = [] := by
    refine listed_other hstandalone.1 hstandalone.2 ?_
    cases w.standalone <;> decide_cbv
  have hnone : ∀ line ∈ ["  changeDetection: ChangeDetectionStrategy.OnPush",
      "  template: '<ng-content></ng-content>'", inputsComment], listed mark [line] = [] :=
    fun line hl => listed_eq_nil fun l hm => List.mem_singleton.mp hm ▸ hfixed line hl
  simp only [List.forall_mem_cons] at hnone
  obtain ⟨hchange, htemplate, hcomment, -⟩ := hnone
  have hinputs : listed mark (linesOf (inputsComment ++ "\n" ++ w.inputsLine)) =
      listed mark [w.inputsLine] := by
    rw [linesOf_inputs h, ← List.singleton_append, listed_append, hcomment, List.nil_append]
  rw [listed_options hcomma (by simp [componentOptions]), componentOptions_eq]
  simp only [List.flatMap_append, List.flatMap_cons, List.flatMap_nil, hfirst, hlast, hinputs,
    linesOf_single (a := "  changeDetection: ChangeDetectionStrategy.OnPush") (by decide_cbv),
    linesOf_single (a := "  template: '<ng-content></ng-content>'") (by decide_cbv),
    hchange, htemplate, List.nil_append, List.append_nil]

/-- The component options list all inputs. -/
theorem listed_inputs : listed "  inputs: [" (linesOf (",\n".intercalate w.componentOptions)) =
    w.inputs.map Input.name := by
  have hline : listed "  inputs: [" [w.inputsLine] = w.inputs.map Input.name := by
    have hseparator : Quoting ", " [] := .bare (by decide_cbv)
    have hlist := Quoting.intercalate hseparator fun i hi =>
      Input.quoting_text (h.inputs i hi).quote
    have hbody := newline_not_mem_inputsLine h
    rw [← linesOf_single hbody]
    unfold inputsLine at hbody ⊢
    rw [String.toList_append, String.toList_append, List.mem_append, List.mem_append, not_or,
      not_or] at hbody
    exact listed_line hlist hbody.1.2 (by decide_cbv) (by decide_cbv)
  have hother : ((Decorator.listOption "outputs" (w.outputs.map Output.property)).flatMap
      fun option => listed "  inputs: [" (linesOf option)) = [] := by
    refine List.flatMap_eq_nil_iff.mpr fun option ho => ?_
    obtain ⟨-, rfl⟩ := Decorator.exists_line_of_mem_listOption ho
    have hlist := newline_not_mem_quotedList h.property
    rw [String.append_assoc]
    exact listed_other (by decide_cbv) (by decide_cbv) (by simp [hlist])
  rw [listed_componentOptions h (by decide_cbv) (by decide_cbv) (by decide_cbv)
    (by decide_cbv), hline, hother, List.append_nil]

/-- The component options list all outputs. -/
theorem listed_outputs : listed "  outputs: [" (linesOf (",\n".intercalate w.componentOptions)) =
    w.outputs.map Output.property := by
  have hmark : "  outputs: [" = "  " ++ "outputs" ++ ": [" := by simp
  have hline : listed "  outputs: [" [w.inputsLine] = [] := by
    have hbody := newline_not_mem_inputsLine h
    rw [← linesOf_single hbody]
    unfold inputsLine at hbody ⊢
    rw [String.append_assoc] at hbody ⊢
    exact listed_other (by decide_cbv) (by decide_cbv) hbody
  rw [listed_componentOptions h (by decide_cbv) (by decide_cbv) (by decide_cbv)
    (by decide_cbv), hline, List.nil_append, hmark]
  exact Decorator.listed_listOption (by decide_cbv) h.property

end Options

/-! ### Lines -/

/-- What the constructor binds, if there are outputs. -/
def boundLine : List String → List String
  | [] => []
  | name :: rest =>
    ["    proxyOutputs(this, this.el, [" ++ Naming.quotedList (name :: rest) ++ "]);"]

def constructorRest (w : WrapperClass) : List String :=
  ["    c.detach();", "    this.el = r.nativeElement;"] ++
    boundLine (w.outputs.map fun o => o.event.name) ++ ["  \x7d"]

theorem constructorLines_eq (w : WrapperClass) :
    w.constructorLines = Source.constructorHead :: w.constructorRest := by
  have hopen : "    " ++ Support.outputBinder ++ "(this, this.el, [" =
      "    proxyOutputs(this, this.el, [" := by simp [Support.outputBinder]
  unfold constructorLines constructorRest
  cases w.outputs with
  | nil => rfl
  | cons o rest =>
    simp only [hopen]
    rfl

section Lines

variable (h : w.IsListable)

include h

theorem eventNames : ∀ name ∈ w.outputs.map fun o => o.event.name, Text.IsListable name :=
  List.forall_mem_map.mpr h.outputs

theorem newline_not_mem_boundLine :
    ∀ line ∈ boundLine (w.outputs.map fun o => o.event.name), '\n' ∉ line.toList ∧
      startsWith "    proxyOutputs(this, this.el, [" line = true := by
  have hnames := eventNames h
  cases hn : w.outputs.map fun o => o.event.name with
  | nil => exact fun line hl => by cases hl
  | cons name rest =>
    rw [hn] at hnames
    intro line hl
    obtain rfl := List.mem_singleton.mp hl
    refine ⟨by simp [newline_not_mem_quotedList hnames], ?_⟩
    rw [String.append_assoc]
    exact startsWith_mono (by decide_cbv) _

/-- The rest of the constructor has lines of its own. -/
theorem constructorRest_line : ∀ line ∈ w.constructorRest,
    '\n' ∉ line.toList ∧ line ≠ Source.constructorHead := by
  have hfixed : ∀ line ∈ ["    c.detach();", "    this.el = r.nativeElement;", "  \x7d"],
      '\n' ∉ line.toList ∧ line ≠ Source.constructorHead := by
    unfold Source.constructorHead
    simp
  intro line hl
  rw [constructorRest, List.append_assoc, List.mem_append, List.mem_append] at hl
  rcases hl with hl | hl | hl
  · exact hfixed line (List.mem_append_left ["  \x7d"] hl)
  · obtain ⟨hn, hs⟩ := newline_not_mem_boundLine h line hl
    refine ⟨hn, ?_⟩
    rintro rfl
    exact absurd hs (by decide_cbv)
  · refine hfixed line ?_
    exact List.mem_append_right ["    c.detach();", "    this.el = r.nativeElement;"] hl

/-- The constructor binds all events. -/
theorem listed_constructorRest :
    listed "    proxyOutputs(this, this.el, [" (w.constructorRest ++ ["\x7d"]) =
      w.outputs.map fun o => o.event.name := by
  have hnames := eventNames h
  have hbound : listed "    proxyOutputs(this, this.el, ["
      (boundLine (w.outputs.map fun o => o.event.name)) = w.outputs.map fun o => o.event.name := by
    cases hn : w.outputs.map fun o => o.event.name with
    | nil => rfl
    | cons name rest =>
      rw [hn] at hnames
      have hlist := newline_not_mem_quotedList hnames
      rw [boundLine, ← linesOf_single (by simp [hlist])]
      exact listed_line (.quotedList fun n hm => (hnames n hm).quote) hlist (by decide_cbv)
        (by decide_cbv)
  have hfirst : listed "    proxyOutputs(this, this.el, ["
      ["    c.detach();", "    this.el = r.nativeElement;"] = [] := by decide_cbv
  have hlast : listed "    proxyOutputs(this, this.el, [" (["  \x7d"] ++ ["\x7d"]) = [] := by
    decide_cbv
  rw [constructorRest, List.append_assoc, listed_append, listed_append, hfirst, hbound, hlast,
    List.nil_append, List.append_nil]

theorem newline_not_mem_outputText {o : Output} (ho : o ∈ w.outputs) :
    '\n' ∉ (outputText o).toList := by
  have hproperty := (h.property _ (List.mem_map_of_mem ho)).newline
  have hmember := Naming.newline_not_mem_member hproperty
  unfold outputText
  simp [hmember, h.emitterType ho]

end Lines

/-- A comment stands above its declaration. -/
theorem exists_linesOf_onTop (d : Doc) (indent : String) {declaration : String}
    (h : '\n' ∉ declaration.toList) :
    ∃ comment, linesOf (d.onTop indent declaration) = comment ++ [declaration] := by
  unfold Doc.onTop
  split
  · exact ⟨_, by rw [linesOf_append, linesOf_single h]⟩
  · exact ⟨[], linesOf_single h⟩

/-- A setter ends with a line that is no output. -/
theorem exists_linesOf_setterText (h : w.IsListable) {p : Property} (hp : p ∈ w.setters) :
    ∃ comment line, linesOf (w.setterText p) = comment ++ [line] ∧
      startsWith "  @Output() " line = false := by
  have hname := h.setters p hp
  have hmember := Naming.newline_not_mem_member hname
  have hline : '\n' ∉ ("  set " ++ Naming.member p.name ++ "(_: Components." ++ w.className ++
      "['" ++ p.name ++ "']) \x7b\x7d;").toList := by
    simp [hmember, h.className, hname]
  obtain ⟨comment, hc⟩ := exists_linesOf_onTop p.docs "  " hline
  refine ⟨comment, _, hc, ?_⟩
  simp only [String.append_assoc]
  exact startsWith_other (by decide_cbv) (by decide_cbv) _

/-- The output members are the last ones, behind a line that is none. -/
theorem exists_linesOf_members (h : w.IsListable) : ∃ front line,
    w.members.flatMap linesOf = front ++ line :: w.outputs.map outputText ∧
      startsWith "  @Output() " line = false := by
  have hfield : '\n' ∉ ("  protected el: HTML" ++ w.className ++ "Element;").toList := by
    simp [h.className]
  have houtputs : (w.outputs.map outputText).flatMap linesOf = w.outputs.map outputText :=
    flatMap_linesOf (List.forall_mem_map.mpr fun o ho => newline_not_mem_outputText h ho)
  rw [members, List.cons_append, List.flatMap_cons, List.flatMap_append, linesOf_single hfield,
    houtputs]
  rcases List.eq_nil_or_concat' w.setters with hs | ⟨setters, p, hs⟩
  · refine ⟨[], "  protected el: HTML" ++ w.className ++ "Element;", by simp [hs], ?_⟩
    rw [String.append_assoc]
    exact startsWith_other (by decide_cbv) (by decide_cbv) _
  · obtain ⟨comment, line, hc, hl⟩ := exists_linesOf_setterText h (p := p) (by simp [hs])
    refine ⟨("  protected el: HTML" ++ w.className ++ "Element;") ::
      ((setters.map w.setterText).flatMap linesOf ++ comment), line, ?_, hl⟩
    simp [hs, hc]

theorem text_eq (w : WrapperClass) : w.text = "\n".intercalate
    [w.decorator.text, "@Component(\x7b", ",\n".intercalate w.componentOptions, "\x7d)",
      "export class " ++ w.className ++ " \x7b", "\n".intercalate w.members,
      "\n".intercalate w.constructorLines, "\x7d"] := by
  have hcomponent : "\n@Component(\x7b\n" = "\n" ++ ("@Component(\x7b" ++ "\n") := by simp
  have hclass : "\n\x7d)\nexport class " = "\n" ++ ("\x7d)" ++ ("\n" ++ "export class ")) := by simp
  have hopen : " \x7b\n" = " \x7b" ++ "\n" := by simp
  have hclose : "\n\x7d" = "\n" ++ "\x7d" := by simp
  unfold text
  rw [hcomponent, hclass, hopen, hclose]
  simp only [String.intercalate_cons_cons, String.intercalate_singleton, String.append_assoc]

/-- The lines of a class: its decorator, its options, its members and its constructor. -/
theorem linesOf_text (h : w.IsListable) : linesOf w.text =
    linesOf w.decorator.text ++ "@Component(\x7b" ::
      (linesOf (",\n".intercalate w.componentOptions) ++ "\x7d)" ::
        (("export class " ++ w.className ++ " \x7b") ::
          (w.members.flatMap linesOf ++ (w.constructorLines ++ ["\x7d"])))) := by
  have hhead : '\n' ∉ ("export class " ++ w.className ++ " \x7b").toList := by simp [h.className]
  have hconstructor : linesOf ("\n".intercalate w.constructorLines) = w.constructorLines := by
    rw [constructorLines_eq]
    refine linesOf_intercalate_single (List.cons_ne_nil _ _) (List.forall_mem_cons.mpr ⟨?_, ?_⟩)
    · decide_cbv
    · exact fun line hl => (constructorRest_line h line hl).1
  have hmembers : linesOf ("\n".intercalate w.members) = w.members.flatMap linesOf :=
    linesOf_intercalate (by simp [members])
  rw [text_eq, linesOf_intercalate (List.cons_ne_nil _ _)]
  simp only [List.flatMap_cons, List.flatMap_nil, hconstructor, hmembers, linesOf_single hhead,
    linesOf_single (a := "@Component(\x7b") (by decide_cbv),
    linesOf_single (a := "\x7d)") (by decide_cbv),
    linesOf_single (a := "\x7d") (by decide_cbv), List.cons_append, List.nil_append]

/-! ### Readings -/

section Readings

variable (h : w.IsListable)

include h

theorem decoratorInputs_text : Source.decoratorInputs w.text = w.inputs.map Input.name := by
  have hfront : ∀ line ∈ linesOf w.decorator.text, (line != "@Component(\x7b") = true :=
    fun line hl => bne_iff_ne.mpr fun he =>
      Decorator.not_mem_linesOf_text h.decorator (he ▸ hl)
  rw [Source.decoratorInputs, linesOf_text h, List.takeWhile_append_of_pos hfront,
    List.takeWhile_cons_of_neg (by simp), List.append_nil, Decorator.listed_text h.decorator]
  rfl

theorem between_text : between "@Component(\x7b" "\x7d)" (linesOf w.text) =
    linesOf (",\n".intercalate w.componentOptions) := by
  have hend : "\x7d)" ∉ linesOf (",\n".intercalate w.componentOptions) := by
    intro hm
    exact absurd (componentOptions_indented h _ hm) (by decide_cbv)
  rw [linesOf_text h, between_append (Decorator.not_mem_linesOf_text h.decorator) hend]

theorem componentInputs_text : Source.componentInputs w.text = w.inputs.map Input.name := by
  rw [Source.componentInputs, between_text h, listed_inputs h]

theorem componentOutputs_text :
    Source.componentOutputs w.text = w.outputs.map Output.property := by
  rw [Source.componentOutputs, between_text h, listed_outputs h]

/-- What stands before the constructor and in it. -/
theorem exists_linesOf_text : ∃ front line, linesOf w.text =
    (front ++ line :: w.outputs.map outputText) ++
      Source.constructorHead :: (w.constructorRest ++ ["\x7d"]) ∧
        startsWith "  @Output() " line = false := by
  obtain ⟨front, line, hm, hl⟩ := exists_linesOf_members h
  refine ⟨linesOf w.decorator.text ++ "@Component(\x7b" ::
    (linesOf (",\n".intercalate w.componentOptions) ++ "\x7d)" ::
      (("export class " ++ w.className ++ " \x7b") :: front)), line, ?_, hl⟩
  rw [linesOf_text h, hm, constructorLines_eq]
  simp only [List.append_assoc, List.cons_append]

theorem constructorRest_ne :
    ∀ line ∈ w.constructorRest ++ ["\x7d"], (line != Source.constructorHead) = true := by
  intro line hl
  rw [bne_iff_ne]
  rcases List.mem_append.mp hl with hl | hl
  · exact (constructorRest_line h line hl).2
  · rw [List.mem_singleton.mp hl]
    decide_cbv

theorem boundEvents_text : Source.boundEvents w.text = w.outputs.map fun o => o.event.name := by
  obtain ⟨front, line, he, -⟩ := exists_linesOf_text h
  rw [Source.boundEvents, he, rtakeWhile_append (by simp) (constructorRest_ne h),
    listed_constructorRest h]

theorem emitters_text : Source.emitters w.text = w.outputs.map outputText := by
  obtain ⟨front, line, he, hl⟩ := exists_linesOf_text h
  have houtputs : ∀ l ∈ w.outputs.map outputText, startsWith "  @Output() " l = true := by
    refine List.forall_mem_map.mpr fun o ho => ?_
    unfold outputText
    simp only [String.append_assoc]
    exact startsWith_mono (startsWith_iff.mpr (List.prefix_refl _)) _
  rw [Source.emitters, he, rdropWhile_append (by simp) (constructorRest_ne h), List.dropLast_concat,
    rtakeWhile_append hl houtputs]

end Readings

end WrapperClass

/-! ## Members -/

/-- A member of a wrapper class. -/
inductive ClassMember where
  | field (name : String)
  | setter (name : String)
  | output (name type : String)
  /-- A parameter that the constructor keeps. -/
  | parameter (name : String)
  deriving DecidableEq, Repr

namespace ClassMember

def name : ClassMember → String
  | field name | setter name | output name _ | parameter name => name

/-- The text declares the member. -/
inductive Declared : ClassMember → String → Prop
  | field (name type : String) :
    Declared (.field name) ("  protected " ++ name ++ ": " ++ type ++ ";")
  | setter (docs : Doc) (name type : String) : Declared (.setter name)
    (docs.onTop "  " ("  set " ++ Naming.member name ++ "(_: " ++ type ++ ") \x7b\x7d;"))
  | output (name type : String) : Declared (.output name type) (Source.emitterLine name type)
  | parameter (before name type : String) : Declared (.parameter name)
    ("  constructor(" ++ before ++ "protected " ++ name ++ ": " ++ type ++ ") \x7b")

end ClassMember

/-- The class in a source declares the members in this order; what comes behind the last
one is the body of its constructor. -/
def DeclaresMembers (source className : String) (members : List ClassMember) : Prop :=
  ∃ before texts body, List.Forall₂ ClassMember.Declared members texts ∧
    source = before ++ "export class " ++ className ++ " \x7b\n" ++
      "\n".intercalate (texts ++ body) ∧
    ∀ line ∈ body, startsWith "    " line = true ∨ line = "  \x7d" ∨ line = "\x7d"

/-- The members that a wrapper class should have. -/
def wrapperMembers (setters : List String) (outputs : List (String × String)) :
    List ClassMember :=
  .field "el" :: (setters.map ClassMember.setter ++
    outputs.map fun o => ClassMember.output o.1 o.2) ++ [.parameter "z"]

/-- Two images of one list are related if those of each item are. -/
theorem forall₂_map_map {α β γ : Type} {R : β → γ → Prop} {f : α → β} {g : α → γ} {items : List α}
    (h : ∀ i ∈ items, R (f i) (g i)) : List.Forall₂ R (items.map f) (items.map g) := by
  rw [List.forall₂_map_left_iff, List.forall₂_map_right_iff, List.forall₂_same]
  exact h

namespace WrapperClass

theorem declared_field (className : String) :
    (ClassMember.field "el").Declared ("  protected el: HTML" ++ className ++ "Element;") := by
  have htext : "  protected " ++ "el" ++ ": " ++ ("HTML" ++ className ++ "Element") ++ ";" =
      "  protected el: HTML" ++ className ++ "Element;" := by
    rw [← String.toList_inj]
    simp
  exact htext ▸ .field _ _

theorem declared_setterText (w : WrapperClass) (p : Property) :
    (ClassMember.setter p.name).Declared (w.setterText p) := by
  have htext : "  set " ++ Naming.member p.name ++ "(_: " ++
      ("Components." ++ w.className ++ "['" ++ p.name ++ "']") ++ ") \x7b\x7d;" =
      "  set " ++ Naming.member p.name ++ "(_: Components." ++ w.className ++ "['" ++ p.name ++
        "']) \x7b\x7d;" := by
    rw [← String.toList_inj]
    simp
  rw [setterText, ← htext]
  exact .setter p.docs _ _

theorem declared_constructorHead :
    (ClassMember.parameter "z").Declared Source.constructorHead := by
  have htext : "  constructor(" ++ "c: ChangeDetectorRef, r: ElementRef, " ++ "protected " ++ "z" ++
      ": " ++ "NgZone" ++ ") \x7b" = Source.constructorHead := by
    unfold Source.constructorHead
    simp
  exact htext ▸ .parameter _ _ _

def classMembers (w : WrapperClass) : List ClassMember :=
  wrapperMembers (w.setters.map Property.name) (w.outputs.map fun o => (o.property, o.type))

theorem forall_declared (w : WrapperClass) : List.Forall₂ ClassMember.Declared w.classMembers
    (w.members ++ [Source.constructorHead]) := by
  have hsetters : List.Forall₂ ClassMember.Declared
      ((w.setters.map Property.name).map .setter) (w.setters.map w.setterText) := by
    rw [List.map_map]
    exact forall₂_map_map fun p _ => w.declared_setterText p
  have houtputs : List.Forall₂ ClassMember.Declared
      ((w.outputs.map fun o => (o.property, o.type)).map fun o => .output o.1 o.2)
      (w.outputs.map outputText) := by
    rw [List.map_map]
    exact forall₂_map_map fun o _ => .output o.property o.type
  exact List.rel_append (.cons (declared_field w.className) (List.rel_append hsetters houtputs))
    (.cons declared_constructorHead .nil)

/-- The constructor only has statements. -/
theorem constructorRest_statement (w : WrapperClass) :
    ∀ line ∈ w.constructorRest, startsWith "    " line = true ∨ line = "  \x7d" := by
  intro line hl
  rw [constructorRest, List.append_assoc, List.mem_append, List.mem_append] at hl
  rcases hl with hl | hl | hl
  · simp only [List.mem_cons, List.not_mem_nil, or_false] at hl
    rcases hl with rfl | rfl <;> exact .inl (by decide_cbv)
  · cases hn : w.outputs.map fun o => o.event.name with
    | nil =>
      rw [hn] at hl
      cases hl
    | cons name rest =>
      rw [hn, boundLine, List.mem_singleton] at hl
      rw [hl, String.append_assoc]
      exact .inl (startsWith_mono (by decide_cbv) _)
  · exact .inr (List.mem_singleton.mp hl)

/-- A class declares its members and no others. -/
theorem declaresMembers_text (w : WrapperClass) :
    DeclaresMembers w.text w.className w.classMembers := by
  refine ⟨w.decorator.text ++ "\n@Component(\x7b\n" ++ ",\n".intercalate w.componentOptions ++
    "\n\x7d)\n", _, w.constructorRest ++ ["\x7d"], w.forall_declared, ?_, ?_⟩
  · have hlines : w.members ++ [Source.constructorHead] ++ (w.constructorRest ++ ["\x7d"]) =
        w.members ++ (w.constructorLines ++ ["\x7d"]) := by
      rw [constructorLines_eq, List.append_assoc]
      rfl
    have hmembers : w.members ≠ [] := List.cons_ne_nil _ _
    have hconstructor : w.constructorLines ≠ [] := by
      rw [constructorLines_eq]
      exact List.cons_ne_nil _ _
    have hclass : "\n\x7d)\nexport class " = "\n\x7d)\n" ++ "export class " := by simp
    have hclose : "\n\x7d" = "\n" ++ "\x7d" := by simp
    rw [hlines, String.intercalate_append_of_ne_nil hmembers (by simp),
      String.intercalate_append_of_ne_nil hconstructor (by simp), String.intercalate_singleton]
    unfold text
    rw [hclass, hclose]
    simp only [String.append_assoc]
  · intro line hl
    rcases List.mem_append.mp hl with hl | hl
    · exact (w.constructorRest_statement line hl).imp_right .inl
    · exact .inr (.inr (List.mem_singleton.mp hl))

end WrapperClass

end ElementWrappers
