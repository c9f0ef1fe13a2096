import ResourceCatalog.Json.Printer

/-!
# Patches

A patch is one edit of a document, in the manner of RFC 6902. A correction is a patch together with
the place it was asked for, the reason, and what stands at that place before and after.
-/

namespace ResourceCatalog

/-- One edit of a document. -/
inductive Patch where
  | add (path : String) (value : Json)
  | remove (path : String)
  | replace (path : String) (value : Json)
  | move (source : String) (path : String)
  | copy (source : String) (path : String)
  deriving Repr, Inhabited

namespace Patch

/-- The pointer that the patch addresses. -/
def path : Patch → String
  | .add path _ | .remove path | .replace path _ | .move _ path | .copy _ path => path

def op : Patch → String
  | .add _ _ => "add"
  | .remove _ => "remove"
  | .replace _ _ => "replace"
  | .move _ _ => "move"
  | .copy _ _ => "copy"

def text : Patch → String
  | .move source path => s!"move {source} -> {path}"
  | .copy source path => s!"copy {source} -> {path}"
  | patch => s!"{patch.op} {patch.path}"

def toJson : Patch → Json
  | .add path value => .obj [("op", .str "add"), ("path", .str path), ("value", value)]
  | .remove path => .obj [("op", .str "remove"), ("path", .str path)]
  | .replace path value => .obj [("op", .str "replace"), ("path", .str path), ("value", value)]
  | .move source path => .obj [("from", .str source), ("op", .str "move"), ("path", .str path)]
  | .copy source path => .obj [("from", .str source), ("op", .str "copy"), ("path", .str path)]

end Patch

/-- A patch, where and why it was asked for, and what it does to the value at that place. -/
structure Correction where
  subject : String
  /-- The pointer of the place that asked for the patch. -/
  place : String
  patch : Patch
  reason : String
  before : Json
  /-- Nothing after a removal of the place itself. -/
  after? : Option Json
  deriving Repr, Inhabited

namespace Correction

/-- The reason of changes that put nothing right: they are made but not reported. -/
def noMistake : String := "no mistake"

/-- Whether the correction tells of a mistake in the document. -/
def isMistake (c : Correction) : Bool := c.reason != noMistake

def text (c : Correction) : String := s!"{c.patch.text} ({c.reason})"

/-- The members that describe a correction. -/
def toMembers (c : Correction) : Members :=
  [("new_value", c.after?.getD .null), ("old_value", c.before), ("patch", c.patch.toJson),
    ("path", .str c.place), ("reason", .str c.reason), ("subject", .str c.subject)]

def toJson (c : Correction) : Json := .obj c.toMembers

/-- The corrections of one pass, a line each. -/
def listing (corrections : List Correction) : String :=
  match corrections with
  | [] => "  (empty)\n"
  | _ => String.join (corrections.map fun c => s!"  {c.text}\n")

end Correction

end ResourceCatalog
