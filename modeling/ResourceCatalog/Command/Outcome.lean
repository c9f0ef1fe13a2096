import ResourceCatalog.Files.Host
import ResourceCatalog.Graph.Error

/-!
# What a command leaves behind

A command prints lines as it goes on. When it fails, what it has printed stays, and the failure is
told with its causes, the outermost first.
-/

namespace ResourceCatalog

/-- Why a command fails: what was attempted, and below it what went wrong. -/
structure Failure where
  causes : List String
  deriving DecidableEq, Repr

namespace Failure

def message (failure : Failure) : String := ": ".intercalate failure.causes

/-- A cause that is named together with its kind and then on its own. -/
def ofKind (kind message : String) : Failure := ⟨[s!"{kind} error: {message}", message]⟩

def ofFile (error : FileError) : Failure := ofKind "IO" error.message

def ofGraph (error : GraphError) : Failure := ⟨[error.message]⟩

/-- The failure of something that was attempted. -/
def during (attempt : String) (failure : Failure) : Failure := ⟨attempt :: failure.causes⟩

end Failure

/-- What a command leaves behind beside its files. -/
structure Outcome where
  exitCode : Nat
  printed : String
  complaint : String
  deriving DecidableEq, Repr

/-- A command under way: it asks the system, prints, and may fail. -/
abbrev Session (m : Type → Type) := ExceptT Failure (StateT String m)

namespace Session

variable {m : Type → Type} [Monad m]

/-- Asks the system. -/
def ask {α : Type} (question : m α) : Session m α := liftM question

/-- Prints a text. -/
def print (text : String) : Session m Unit := modify (· ++ text)

/-- Prints a line. -/
def printLine (text : String) : Session m Unit := print (text ++ "\n")

def ofExcept {ε α : Type} (failure : ε → Failure) : Except ε α → Session m α
  | .ok a => return a
  | .error e => throw (failure e)

/-- Runs a command to its end. -/
def outcome (session : Session m Unit) : m Outcome := do
  let (result, printed) ← session.run.run ""
  match result with
  | .ok _ => return ⟨0, printed, ""⟩
  | .error failure => return ⟨1, printed, "❌ Error: " ++ failure.message ++ "\n"⟩

end Session

end ResourceCatalog
