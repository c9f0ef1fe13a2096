import ResourceCatalog.Patch.Basic
import ResourceCatalog.Pointer.Basic

/-!
# Applying a patch

A patch either edits the document or is refused. A refused patch leaves the document as it was, with
one exception: a move takes its value away before it finds out whether it can be put anywhere, so a
move refused at its target has lost its source.
-/

namespace ResourceCatalog

/-- Why a patch cannot be applied. -/
inductive ApplyError where
  | invalidPointer (pointer : String)
  | missing (pointer : String)
  | notAContainer (pointer : String)
  | indexOutOfRange (pointer : String)
  | moveIntoChild (source : String) (path : String)
  deriving DecidableEq, Repr

def ApplyError.message : ApplyError → String
  | .invalidPointer pointer => s!"Invalid pointer '{pointer}'"
  | .missing pointer => s!"Nothing at '{pointer}'"
  | .notAContainer pointer => s!"Parent of '{pointer}' is not a container"
  | .indexOutOfRange pointer => s!"Array index out of range at '{pointer}'"
  | .moveIntoChild source path => s!"Cannot move '{source}' into its own child '{path}'"

/-- A document after a patch, and the refusal if the patch was refused. -/
structure Applied where
  document : Json
  error? : Option ApplyError

namespace Patch

/-- The index at which a token addresses an array of some length; the length itself is the place
after the last item. -/
def indexIn (token : String) (length : Nat) (path : String) : Except ApplyError Nat :=
  match Pointer.index? token with
  | none => .error (.invalidPointer path)
  | some i => if length < i then .error (.indexOutOfRange path) else .ok i

/-- Edits the container of the place that a pointer with tokens addresses. -/
def inContainer (document : Json) (path : String)
    (edit : (token : String) → Json → Except ApplyError Json) : Except ApplyError Json :=
  match Pointer.splitLast? path with
  | none => .error (.invalidPointer path)
  | some (container, token) =>
    match (Pointer.tokens? container).bind fun tokens =>
        document.modifyAt? (edit token) tokens with
    | none => .error (.missing container)
    | some result => result

/-- Puts a value into a container: under a key, in front of the item at an index, or after the last
item for the token `-`. -/
def putInto (path : String) (value : Json) (token : String) :
    Json → Except ApplyError Json
  | .obj members => .ok (.obj (Keyed.insert token value members))
  | .arr items =>
    if token = "-" then .ok (.arr (items ++ [value]))
    else do
      let i ← indexIn token items.length path
      return .arr (items.take i ++ value :: items.drop i)
  | _ => .error (.notAContainer path)

/-- Takes the value at a token out of its container. -/
def takeFrom (path : String) (token : String) : Json → Except ApplyError Json
  | .obj members =>
    if members.any (fun entry => entry.1 == token) then .ok (.obj (Keyed.erase token members))
    else .error (.missing path)
  | .arr items => do
    let i ← indexIn token items.length path
    if i = items.length then .error (.indexOutOfRange path) else return .arr (items.eraseIdx i)
  | _ => .error (.notAContainer path)

/-- The document with a value put at a pointer. -/
def insertAt (document : Json) (path : String) (value : Json) : Except ApplyError Json :=
  if path = "" then .ok value else inContainer document path (putInto path value)

/-- The document without the value at a pointer. The whole document leaves `null` behind. -/
def deleteAt (document : Json) (path : String) : Except ApplyError Json :=
  if path = "" then .ok .null else inContainer document path (takeFrom path)

/-- The document with the value at a pointer replaced. -/
def replaceAt (document : Json) (path : String) (value : Json) : Except ApplyError Json :=
  match (Pointer.tokens? path).bind fun tokens =>
      document.modifyAt? (fun _ => Except.ok (ε := ApplyError) value) tokens with
  | none => .error (.missing path)
  | some result => result

/-- The outcome of an edit that changes nothing when it is refused. -/
def whole (document : Json) : Except ApplyError Json → Applied
  | .ok edited => ⟨edited, none⟩
  | .error e => ⟨document, some e⟩

/-- Moves a value: deletes it, then inserts it. A move onto itself only checks that there is a
value, and a value cannot be moved below itself. -/
def moveFrom (document : Json) (source path : String) : Applied :=
  if source = path then
    match document.find? source with
    | some _ => ⟨document, none⟩
    | none => ⟨document, some (.missing source)⟩
  else if Text.startsWith (source ++ "/").toList path.toList then
    ⟨document, some (.moveIntoChild source path)⟩
  else
    match deleteAt document source with
    | .error e => ⟨document, some e⟩
    | .ok shorter =>
      whole shorter (insertAt shorter path (((document.find? source)).getD .null))

/-- Applies a patch to a document. -/
def apply (patch : Patch) (document : Json) : Applied :=
  match patch with
  | .add path value => whole document (insertAt document path value)
  | .remove path => whole document (deleteAt document path)
  | .replace path value => whole document (replaceAt document path value)
  | .move source path => moveFrom document source path
  | .copy source path =>
    match document.find? source with
    | some value => whole document (insertAt document path value)
    | none => ⟨document, some (.missing source)⟩

end Patch

end ResourceCatalog
