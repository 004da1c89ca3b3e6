import Mathlib.Data.Int.Notation

/-!
# Exceptions

The exceptions that constructors and functions throw, with their texts.
-/

namespace Fiberexec.Support

/-- What a throwing function throws. -/
inductive Error
  /-- Boost rejects the size of the ring -/
  | fiberError
  | badAlloc
  | lengthError
  | runtimeError (what : String)
  | invalidArgument (what : String)
  | systemError (errno : ℤ) (what : String)
  deriving DecidableEq

end Fiberexec.Support
