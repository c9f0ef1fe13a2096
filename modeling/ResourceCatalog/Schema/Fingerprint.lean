import ResourceCatalog.Digest.Sha256
import ResourceCatalog.Json.Printer

/-!
# Checksums of documents and fingerprints of schemas

The checksum of a document is the digest of its compact text, so equal documents have equal
checksums. The fingerprint of a schema is the checksum of what is left of it without its
documentation: the members `description`, `title`, `$comment` and `markdownDescription` are dropped
at every level, except where a key is the name of a property or of a definition.
-/

namespace ResourceCatalog

/-- The digest of a value's compact text. -/
def Json.checksum (value : Json) : String := Sha256.ofText value.compact

namespace Schema

/-- The members that only document. -/
def documentationKeys : List String := ["description", "title", "$comment", "markdownDescription"]

/-- The members whose keys are names of schemas. -/
def namingKeys : List String := ["properties", "patternProperties", "definitions", "$defs"]

mutual

/-- Drops the documentation from a value. `naming` tells whether its keys are names of schemas. -/
def strip (naming : Bool) : Json → Json
  | .obj members => .obj (stripMembers naming members)
  | .arr items => .arr (stripItems items)
  | other => other

def stripItems : List Json → List Json
  | [] => []
  | x :: xs => strip false x :: stripItems xs

def stripMembers (naming : Bool) : List (String × Json) → List (String × Json)
  | [] => []
  | (k, x) :: xs =>
    if !naming && documentationKeys.contains k then stripMembers naming xs
    else (k, strip (!naming && namingKeys.contains k) x) :: stripMembers naming xs

end

/-- A schema without its documentation. -/
def undocumented (schema : Json) : Json := strip false schema

/-- The checksum of a schema without its documentation. -/
def fingerprint (schema : Json) : String := (undocumented schema).checksum

end Schema

end ResourceCatalog
