import ResourceCatalog.Comparison.Basic
import ResourceCatalog.Text.Quoted

/-!
# Writing comparisons

A comparison is written as a document, with the fields of each part in a fixed order, or as a tree
of lines for people.
-/

namespace ResourceCatalog

/-! ### As a document -/

def FieldChange.toJson (c : FieldChange) : Json :=
  .obj [("field", .str c.field), ("old", .str c.old), ("new", .str c.new)]

def FieldChange.toJsons (changes : List FieldChange) : Json := .arr (changes.map FieldChange.toJson)

def KeyedChange.toJson {α : Type} (item : α → Json) (c : KeyedChange α) : Json :=
  .obj [("added", .strings c.added), ("removed", .strings c.removed),
    ("updated", .arr (c.updated.map item))]

def FieldChanges.toJson (c : FieldChanges) : Json :=
  .obj [("name", .str c.name), ("changes", FieldChange.toJsons c.changes)]

def DefinitionChange.toJson (c : DefinitionChange) : Json :=
  .obj [("name", .str c.name), ("changes", FieldChange.toJsons c.changes),
    ("properties", c.properties.toJson FieldChanges.toJson)]

def ResourceChange.toJson (c : ResourceChange) : Json :=
  .obj [("type_name", .str c.typeName), ("changes", FieldChange.toJsons c.changes),
    ("properties", c.properties.toJson FieldChanges.toJson),
    ("attributes", c.attributes.toJson FieldChanges.toJson),
    ("type_definitions", c.typeDefinitions.toJson DefinitionChange.toJson)]

def DatabaseChange.toJson (c : DatabaseChange) : Json :=
  .obj [("services", c.services.toJson FieldChanges.toJson),
    ("resources", c.resources.toJson ResourceChange.toJson)]

/-! ### As a tree -/

/-- A line and the lines below it. -/
inductive TextTree where
  | node (label : String) (children : List TextTree)

namespace TextTree

def label : TextTree → String
  | .node label _ => label

def children : TextTree → List TextTree
  | .node _ children => children

def leaf (label : String) : TextTree := .node label []

/-- The tree on its own in a list, if there is anything below its line. -/
def unlessBare (tree : TextTree) : List TextTree :=
  if tree.children.isEmpty then [] else [tree]

mutual

/-- The lines of a tree that is, or is not, the last one of its siblings, behind a margin. -/
def lines (margin : String) (last : Bool) : TextTree → String
  | .node label children =>
    margin ++ (if last then "└── " else "├── ") ++ label ++ "\n" ++
      linesOfAll (margin ++ (if last then "    " else "│   ")) children

def linesOfAll (margin : String) : List TextTree → String
  | [] => ""
  | [tree] => lines margin true tree
  | tree :: next :: rest => lines margin false tree ++ linesOfAll margin (next :: rest)

end

end TextTree

def FieldChange.tree (c : FieldChange) : TextTree :=
  .leaf (c.field ++ ": " ++ Text.quoted c.old ++ " -> " ++ Text.quoted c.new)

def KeyedChange.tree {α : Type} (label : String) (item : α → TextTree) (c : KeyedChange α) :
    TextTree :=
  .node label (c.added.map (fun name => .leaf ("+ " ++ name)) ++
    c.removed.map (fun name => .leaf ("- " ++ name)) ++ c.updated.map item)

def FieldChanges.tree (c : FieldChanges) : TextTree :=
  .node ("~ " ++ c.name) (c.changes.map FieldChange.tree)

def DefinitionChange.tree (c : DefinitionChange) : TextTree :=
  .node ("~ " ++ c.name) (c.changes.map FieldChange.tree ++
    (c.properties.tree "properties" FieldChanges.tree).unlessBare)

def ResourceChange.tree (c : ResourceChange) : TextTree :=
  .node ("~ " ++ c.typeName) (c.changes.map FieldChange.tree ++
    (c.properties.tree "properties" FieldChanges.tree).unlessBare ++
    (c.attributes.tree "attributes" FieldChanges.tree).unlessBare ++
    (c.typeDefinitions.tree "type definitions" DefinitionChange.tree).unlessBare)

/-- The tree of a comparison, line by line. -/
def DatabaseChange.text (c : DatabaseChange) : String :=
  if c.isEmpty then "No changes\n"
  else
    "changes\n" ++ TextTree.linesOfAll ""
      ((c.services.tree "services" FieldChanges.tree).unlessBare ++
        (c.resources.tree "resources" ResourceChange.tree).unlessBare)

end ResourceCatalog
