import ResourceCatalog.Files.Path
import ResourceCatalog.Import.Builder

/-!
# Importing a registry

A registry is a directory whose files each describe a resource. Files are imported in the order of
their paths. One that cannot be read goes into the report and the next one is taken; an error while
importing ends it all.
-/

namespace ResourceCatalog

/-- A file of a registry: its path and its document, or why there is none. -/
structure RegistryFile where
  path : String
  document : Except String Json

namespace RegistryFile

/-- The files that belong to a registry, in the order of their import. -/
def select (paths : List String) : List String :=
  (paths.filter fun path => Path.extension? path == some "json").mergeSort Path.le

/-- The name of the resource that a document describes: what it says itself, or else the name of its
file. -/
def typeName (path : String) (document : Json) : String :=
  ((document.member? "typeName").bind Json.asString?).getD (Path.stem path)

end RegistryFile

/-- Imports the files of a registry one after the other. -/
def Building.importFiles (legacy : Option LegacySpec) : List RegistryFile → Building Unit
  | [] => return ()
  | ⟨path, .error message⟩ :: rest => do
    modify fun state => { state with report := state.report.addFailure .loading path none message }
    importFiles legacy rest
  | ⟨path, .ok document⟩ :: rest => do
    let _ ← Building.importResource (RegistryFile.typeName path document) document legacy
    importFiles legacy rest

end ResourceCatalog
