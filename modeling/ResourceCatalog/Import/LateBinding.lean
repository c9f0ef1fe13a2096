import ResourceCatalog.Catalog.Database

/-!
# What is known of resources from elsewhere

After the import, resources are marked as stateful and linked to the regions that offer them. Names
without a resource are reported back. No identity changes.
-/

namespace ResourceCatalog

/-- A computation on a database and the supply of identities that keeps what it has changed when it
fails. -/
abbrev Binding := ExceptT GraphError (StateM (Database × Supply))

namespace Binding

/-- The identity of the resource with a name, if there is one. -/
def resource? (name : String) : Binding (Option Identity) := do
  let found ← liftM ((← get).1.resourceByTypeName name)
  return found.map Record.id

/-- Marks resources as stateful. Returns the names that no resource has. -/
def markStateful : List String → Binding (List String)
  | [] => return []
  | name :: rest => do
    match ← resource? name with
    | some id =>
      let (db, supply) ← get
      let resources ← liftM (db.resources.update id fun r => { r with isStateful := true })
      set ({ db with resources }, supply)
      markStateful rest
    | none => return name :: (← markStateful rest)

/-- Links resources to a region. Returns the names that no resource has. -/
def linkResources (region : Identity) : List String → Binding (List String)
  | [] => return []
  | name :: rest => do
    match ← resource? name with
    | some id =>
      modify fun (db, supply) =>
        ({ db with regionHasResource := db.regionHasResource.add region id () }, supply)
      linkResources region rest
    | none => return name :: (← linkResources region rest)

/-- Links resources to the region of a name, which is made if it is missing. -/
def linkRegion (region : String) (names : List String) : Binding (List String) := do
  let (db, supply) ← get
  let (id, db, supply) ← liftM (db.upsertRegion supply region)
  set (db, supply)
  linkResources id names

end Binding

end ResourceCatalog
