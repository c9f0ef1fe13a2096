import ResourceCatalog.Graph.Identity

/-!
# What can go wrong in a graph

An error of a graph means that the graph, or a question about it, breaks a rule: it is never due to
the documents from which the graph was made.
-/

namespace ResourceCatalog

/-- Why a collection refuses a request. -/
inductive GraphError where
  | notFound (collection : String) (id : Identity)
  | noSuchIndex (collection : String) (index : String)
  /-- There should have been one match for a query, or at most one. -/
  | notUnique (collection : String) (query : String) (count : Nat)
  | duplicateId (collection : String) (id : Identity)
  deriving DecidableEq, Repr

def GraphError.message : GraphError → String
  | .notFound collection id => s!"{collection}: no entity with id {id.text}"
  | .noSuchIndex collection index => s!"{collection}: no index named '{index}'"
  | .notUnique collection query count =>
    s!"{collection}: expected exactly one match for {query}, found {count}"
  | .duplicateId collection id => s!"{collection}: duplicate entity id {id.text}"

end ResourceCatalog
