import ElementWrappers.TypeExpr.Normal
import ElementWrappers.TypeExpr.Rename
import ElementWrappers.TypeExpr.Shape

/-!
# Resolving event types

The payload type of an event as it is written next to the wrapper, and the types
that have to be imported for it.
-/

namespace ElementWrappers

/-- A type imported under a name of its own. -/
structure TypeImport where
  name : String
  localName : String
  deriving DecidableEq, Repr

/-- The import as written between the braces. -/
def TypeImport.specifier (i : TypeImport) : String :=
  if i.name = i.localName then i.name else i.name ++ " as " ++ i.localName

/-- A payload type in scope, and its imports. -/
structure ResolvedType where
  text : String
  imports : List TypeImport
  deriving DecidableEq, Repr

namespace TypeExpr

/-- Renames the uses of each name to its local name, one name after the other. -/
def renameAll (scope : Scope) (names : List String) (text : List Char) : List Char :=
  names.foldl (fun text name => rename name.toList (scope.localName name.toList) text) text

/-- Adds an import unless there is one with the same local name. -/
def addImport (imports : List TypeImport) (i : TypeImport) : List TypeImport :=
  if imports.any (·.localName == i.localName) then imports else imports ++ [i]

def Scope.importOf (scope : Scope) (name : String) : TypeImport :=
  ⟨name, String.ofList (scope.localName name.toList)⟩

/-- Blank expressions are `any`; a built-in type needs no renaming. -/
def resolve (scope : Scope) (written : String) : ResolvedType :=
  let text := normalize written.toList
  if text.isEmpty then ⟨"any", []⟩
  else if isBuiltIn (String.ofList text) then ⟨String.ofList text, []⟩
  else
    ⟨String.ofList (renameAll scope scope.importedNames (qualify scope text)),
     (scope.importedNames.map scope.importOf).foldl addImport []⟩

end TypeExpr

/-- The payload type of an event on the wrapper `className`. -/
def Event.resolvedType (className : String) (e : Event) : ResolvedType :=
  TypeExpr.resolve ⟨className, e.payload.references⟩ e.payload.written

end ElementWrappers
