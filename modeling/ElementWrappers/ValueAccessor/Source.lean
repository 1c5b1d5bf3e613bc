import ElementWrappers.OutputFile
import ElementWrappers.Path
import ElementWrappers.ValueAccessor.Basic
import ElementWrappers.Wrapper.Support

/-!
# Value accessor sources

One directive for each group of configurations, and the base class that all of
them extend.
-/

namespace ElementWrappers

namespace AccessorGroup

/-- Stands for the event targets, also inside a selector. -/
def targetsMark : List Char := "<VALUE_ACCESSOR_EVENTTARGETS>".toList

/-- Puts `filling` wherever `mark` stands; the first `skipped` characters belong
to a mark that was found already. -/
def fillFrom (mark filling : List Char) (skipped : Nat) : List Char → List Char
  | [] => []
  | c :: rest =>
    match skipped with
    | n + 1 => fillFrom mark filling n rest
    | 0 =>
      if mark.isPrefixOf (c :: rest) then filling ++ fillFrom mark filling (mark.length - 1) rest
      else c :: fillFrom mark filling 0 rest

def fill (mark filling text : List Char) : List Char := fillFrom mark filling 0 text

/-- The host entry that handles one event. -/
def hostEntry (t : EventTarget) : String :=
  "'(" ++ t.event ++ ")': 'handleChangeEvent($event.target." ++ t.attr ++ ")'"

def host (g : AccessorGroup) : String := ",\n    ".intercalate (g.targets.map hostEntry)

/-- The selector of the directive. -/
def selector (g : AccessorGroup) : String :=
  String.ofList (fill targetsMark g.host.toList (", ".intercalate g.selectors).toList)

end AccessorGroup

namespace AccessorKind

def className : AccessorKind → String
  | .text => "TextValueAccessor"
  | .radio => "RadioValueAccessor"
  | .select => "SelectValueAccessor"
  | .number => "NumberValueAccessor"
  | .boolean => "BooleanValueAccessor"

/-- The members of the directive besides its constructor. -/
def members : AccessorKind → List String
  | .text | .radio | .select => []
  | .number =>
    ["",
      "  override registerOnChange(fn: (_: number | null) => void) \x7b",
      "    super.registerOnChange((value) => \x7b",
      "      fn(value === '' ? null : parseFloat(value));",
      "    \x7d);",
      "  \x7d"]
  | .boolean =>
    ["",
      "  override writeValue(value: any) \x7b",
      "    this.el.nativeElement.checked = this.lastValue = value == null ? false : value;",
      "  \x7d"]

end AccessorKind

namespace AccessorGroup

def fileName (g : AccessorGroup) : String := g.kind.name ++ "-value-accessor.ts"

def source (g : AccessorGroup) : String :=
  sourceText
    (["import \x7b Directive, ElementRef \x7d from '@angular/core';",
      "import \x7b NG_VALUE_ACCESSOR \x7d from '@angular/forms';",
      "",
      "import \x7b ValueAccessor \x7d from './value-accessor';",
      "",
      "@Directive(\x7b",
      "  /* tslint:disable-next-line:directive-selector */",
      "  selector: '" ++ g.selector ++ "',",
      "  host: \x7b",
      "    " ++ g.host,
      "  \x7d,",
      "  providers: [",
      "    \x7b",
      "      provide: NG_VALUE_ACCESSOR,",
      "      useExisting: " ++ g.kind.className ++ ",",
      "      multi: true",
      "    \x7d",
      "  ]",
      "\x7d)",
      "export class " ++ g.kind.className ++ " extends ValueAccessor \x7b",
      "  constructor(el: ElementRef) \x7b",
      "    super(el);",
      "  \x7d"] ++ g.kind.members ++ ["\x7d"])

end AccessorGroup

namespace ValueAccessor

/-- The file of the base class. -/
def baseFileName : String := "value-accessor.ts"

def baseLines : List String :=
  ["import \x7b Directive, ElementRef, HostListener \x7d from '@angular/core';",
   "import \x7b ControlValueAccessor \x7d from '@angular/forms';",
   "",
   "@Directive(\x7b\x7d)",
   "export class ValueAccessor implements ControlValueAccessor \x7b",
   "  private onChange: (value: any) => void = () => \x7b",
   "    /**/",
   "  \x7d;",
   "  private onTouched: () => void = () => \x7b",
   "    /**/",
   "  \x7d;",
   "  protected lastValue: any;",
   "",
   "  constructor(protected el: ElementRef) \x7b\x7d",
   "",
   "  writeValue(value: any) \x7b",
   "    this.el.nativeElement.value = this.lastValue = value == null ? '' : value;",
   "  \x7d",
   "",
   "  handleChangeEvent(value: any) \x7b",
   "    if (value !== this.lastValue) \x7b",
   "      this.lastValue = value;",
   "      this.onChange(value);",
   "    \x7d",
   "  \x7d",
   "",
   "  @HostListener('focusout')",
   "  _handleBlurEvent() \x7b",
   "    this.onTouched();",
   "  \x7d",
   "",
   "  registerOnChange(fn: (value: any) => void) \x7b",
   "    this.onChange = fn;",
   "  \x7d",
   "",
   "  registerOnTouched(fn: () => void) \x7b",
   "    this.onTouched = fn;",
   "  \x7d",
   "",
   "  setDisabledState(isDisabled: boolean) \x7b",
   "    this.el.nativeElement.disabled = isDisabled;",
   "  \x7d",
   "\x7d"]

def baseSource : String := sourceText baseLines

/-- A file for each group and the base class, if anything is configured. -/
def files (configs : List AccessorConfig) (directory : String) : List OutputFile :=
  match AccessorGroup.ofConfigs configs with
  | [] => []
  | g :: rest =>
    (g :: rest).map (fun g => ⟨Path.join directory [g.fileName], g.source⟩) ++
      [⟨Path.join directory [baseFileName], baseSource⟩]

end ValueAccessor

end ElementWrappers
