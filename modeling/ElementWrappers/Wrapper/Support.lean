/-!
# The support module

The TypeScript module that every wrapper imports its decorator from. It is
written next to the proxy file, in a directory of its own.
-/

namespace ElementWrappers

/-- The text of the given lines, each with its line break. -/
def sourceText (lines : List String) : String := String.join (lines.map (· ++ "\n"))

namespace Support

/-- The decorator that gives a wrapper its inputs and methods. -/
def decorator : String := "ProxyCmp"

/-- The function that turns element events into outputs. -/
def outputBinder : String := "proxyOutputs"

def directory : String := "angular-component-lib"

def fileName : String := "utils.ts"

def lines : List String :=
  ["/* eslint-disable */",
   "/* tslint:disable */",
   "import \x7b fromEvent \x7d from 'rxjs';",
   "",
   "export interface ProxyComponentConstructor<T = any> \x7b",
   "  new (...args: any[]): T;",
   "  prototype: T;",
   "\x7d",
   "",
   "export interface ProxyCmpOptions \x7b",
   "  defineCustomElementFn?: () => void;",
   "  inputs?: string[];",
   "  methods?: string[];",
   "\x7d",
   "",
   "const camelize = (name: string): string => name.replace(/-([a-z])/g, (_, letter: string) => letter.toUpperCase());",
   "",
   "export const proxyInputs = <T>(Cmp: ProxyComponentConstructor<T>, inputs: string[]): void => \x7b",
   "  const Prototype = Cmp.prototype;",
   "  inputs.forEach((item) => \x7b",
   "    Object.defineProperty(Prototype, item, \x7b",
   "      get(this: any) \x7b",
   "        return this.el[item];",
   "      \x7d,",
   "      set(this: any, val: unknown) \x7b",
   "        this.z.runOutsideAngular(() => (this.el[item] = val));",
   "      \x7d,",
   "      // proxyInputs may run more than once for the same class.",
   "      configurable: true,",
   "    \x7d);",
   "  \x7d);",
   "\x7d;",
   "",
   "export const proxyMethods = <T>(Cmp: ProxyComponentConstructor<T>, methods: string[]): void => \x7b",
   "  const Prototype = Cmp.prototype;",
   "  methods.forEach((methodName) => \x7b",
   "    Prototype[methodName] = function (this: any, ...args: unknown[]) \x7b",
   "      return this.z.runOutsideAngular(() => this.el[methodName].apply(this.el, args));",
   "    \x7d;",
   "  \x7d);",
   "\x7d;",
   "",
   "export const proxyOutputs = (instance: any, el: HTMLElement, events: string[]): void => \x7b",
   "  events.forEach((eventName) => (instance[camelize(eventName)] = fromEvent(el, eventName)));",
   "\x7d;",
   "",
   "export const defineCustomElement = (tagName: string, customElement: CustomElementConstructor | undefined): void => \x7b",
   "  if (customElement !== undefined && typeof customElements !== 'undefined' && !customElements.get(tagName)) \x7b",
   "    customElements.define(tagName, customElement);",
   "  \x7d",
   "\x7d;",
   "",
   "export function ProxyCmp(opts: ProxyCmpOptions) \x7b",
   "  return function <T extends ProxyComponentConstructor>(cls: T): T \x7b",
   "    const \x7b defineCustomElementFn, inputs, methods \x7d = opts;",
   "",
   "    if (defineCustomElementFn !== undefined) \x7b",
   "      defineCustomElementFn();",
   "    \x7d",
   "",
   "    if (inputs) \x7b",
   "      proxyInputs(cls, inputs);",
   "    \x7d",
   "    if (methods) \x7b",
   "      proxyMethods(cls, methods);",
   "    \x7d",
   "    return cls;",
   "  \x7d;",
   "\x7d"]

def source : String := sourceText lines

/-- What a wrapper file imports from the support module. -/
def imports (hasOutputs : Bool) : List String :=
  if hasOutputs then [decorator, outputBinder] else [decorator]

/-- What a wrapper file imports from Angular itself. -/
def coreImports (hasOutputs hasModules : Bool) : List String :=
  ["ChangeDetectionStrategy", "ChangeDetectorRef", "Component", "ElementRef"] ++
    (if hasOutputs then ["EventEmitter", "Output"] else []) ++ ["NgZone"] ++
    if hasModules then ["NgModule"] else []

end Support

end ElementWrappers
