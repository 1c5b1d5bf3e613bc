import ElementWrappers.Component.Basic
import ElementWrappers.Json.Decode

/-!
# Component metadata as JSON

Every field has a default, the origin of a type reference apart. Optional
fields of a type reference are left out where there is nothing to say.
-/

namespace ElementWrappers

open Json (Fields)

/-- A text or `null`. -/
def Json.ofOption : Option String → Json
  | none => .null
  | some text => .str text

/-! ## Documentation -/

namespace DocTag

def toJson (t : DocTag) : Json := .obj [("name", .str t.name), ("text", .ofOption t.text)]

def ofJson? (v : Json) : Option DocTag := do
  let fields ← v.record? ["name", "text"]
  let name ← fields.getD "name" "" Json.string?
  let text ← fields.getD "text" none (Json.optional? Json.string?)
  return { name, text }

end DocTag

namespace Doc

def toJson (d : Doc) : Json :=
  .obj [("text", .str d.text), ("tags", .arr (d.tags.map DocTag.toJson))]

def ofJson? (v : Json) : Option Doc := do
  let fields ← v.record? ["text", "tags"]
  let text ← fields.getD "text" "" Json.string?
  let tags ← fields.getD "tags" [] (Json.list? DocTag.ofJson?)
  return { text, tags }

end Doc

/-! ## Members -/

namespace Property

def toJson (p : Property) : Json :=
  .obj [("name", .str p.name), ("required", .bool p.required), ("internal", .bool p.isInternal),
    ("docs", p.docs.toJson)]

def ofJson? (v : Json) : Option Property := do
  let fields ← v.record? ["name", "required", "internal", "docs"]
  let name ← fields.getD "name" "" Json.string?
  let required ← fields.getD "required" false Json.bool?
  let isInternal ← fields.getD "internal" false Json.bool?
  let docs ← fields.getD "docs" {} Doc.ofJson?
  return { name, required, isInternal, docs }

end Property

namespace VirtualProperty

def toJson (p : VirtualProperty) : Json := .obj [("name", .str p.name), ("docs", .str p.docs)]

def ofJson? (v : Json) : Option VirtualProperty := do
  let fields ← v.record? ["name", "docs"]
  let name ← fields.getD "name" "" Json.string?
  let docs ← fields.getD "docs" "" Json.string?
  return { name, docs }

end VirtualProperty

namespace Method

def toJson (m : Method) : Json :=
  .obj [("name", .str m.name), ("internal", .bool m.isInternal), ("docs", m.docs.toJson)]

def ofJson? (v : Json) : Option Method := do
  let fields ← v.record? ["name", "internal", "docs"]
  let name ← fields.getD "name" "" Json.string?
  let isInternal ← fields.getD "internal" false Json.bool?
  let docs ← fields.getD "docs" {} Doc.ofJson?
  return { name, isInternal, docs }

end Method

/-! ## Events -/

namespace TypeOrigin

def text : TypeOrigin → String
  | .sameModule => "local"
  | .imported => "import"
  | .ambient => "global"
  | .unknown => "unknown"

/-- Every other name is an unknown origin. -/
def ofText : String → TypeOrigin
  | "local" => .sameModule
  | "import" => .imported
  | "global" => .ambient
  | _ => .unknown

def ofJson? (v : Json) : Option TypeOrigin := v.alternative?.map ofText

end TypeOrigin

namespace TypeReference

/-- A member with an optional text, left out where there is none. -/
def optionalMember (key : String) : Option String → Json.Members
  | none => []
  | some text => [(key, .str text)]

def toJson (r : TypeReference) : Json :=
  .obj (("location", .str r.origin.text) :: optionalMember "path" r.path ++
    optionalMember "id" r.id)

def ofJson? (v : Json) : Option TypeReference := do
  let fields ← v.record? ["location", "path", "id"]
  let origin ← fields.get "location" TypeOrigin.ofJson?
  let path ← fields.getD "path" none (Json.optional? Json.string?)
  let id ← fields.getD "id" none (Json.optional? Json.string?)
  return { origin, path, id }

end TypeReference

namespace PayloadType

def toJson (t : PayloadType) : Json :=
  .obj [("original", .str t.written), ("resolved", .str t.resolved),
    ("references", .obj (t.references.entries.map fun (name, r) => (name, r.toJson)))]

def ofJson? (v : Json) : Option PayloadType := do
  let fields ← v.record? ["original", "resolved", "references"]
  let written ← fields.getD "original" "" Json.string?
  let resolved ← fields.getD "resolved" "" Json.string?
  let references ← fields.getD "references" .empty (Json.table? TypeReference.ofJson?)
  return { written, resolved, references }

end PayloadType

namespace Event

def toJson (e : Event) : Json :=
  .obj [("name", .str e.name), ("internal", .bool e.isInternal),
    ("complexType", e.payload.toJson), ("docs", e.docs.toJson)]

def ofJson? (v : Json) : Option Event := do
  let fields ← v.record? ["name", "internal", "complexType", "docs"]
  let name ← fields.getD "name" "" Json.string?
  let isInternal ← fields.getD "internal" false Json.bool?
  let payload ← fields.getD "complexType" {} PayloadType.ofJson?
  let docs ← fields.getD "docs" {} Doc.ofJson?
  return { name, isInternal, payload, docs }

end Event

/-! ## Components -/

namespace Component

def toJson (c : Component) : Json :=
  .obj [("tagName", .str c.tag), ("internal", .bool c.isInternal),
    ("properties", .arr (c.properties.map Property.toJson)),
    ("virtualProperties", .arr (c.virtualProperties.map VirtualProperty.toJson)),
    ("methods", .arr (c.methods.map Method.toJson)),
    ("events", .arr (c.events.map Event.toJson))]

def ofJson? (v : Json) : Option Component := do
  let fields ← v.record?
    ["tagName", "internal", "properties", "virtualProperties", "methods", "events"]
  let tag ← fields.getD "tagName" "" Json.string?
  let isInternal ← fields.getD "internal" false Json.bool?
  let properties ← fields.getD "properties" [] (Json.list? Property.ofJson?)
  let virtualProperties ← fields.getD "virtualProperties" [] (Json.list? VirtualProperty.ofJson?)
  let methods ← fields.getD "methods" [] (Json.list? Method.ofJson?)
  let events ← fields.getD "events" [] (Json.list? Event.ofJson?)
  return { tag, isInternal, properties, virtualProperties, methods, events }

/-- A list of components, or an object that holds one under `components`. -/
def listOfJson? : Json → Option (List Component)
  | .arr items => Json.decodeAll ofJson? items
  | .obj members => do
    let fields ← (Json.obj members).record? ["components"]
    fields.get "components" (Json.list? ofJson?)
  | _ => none

end Component

end ElementWrappers
