set_option relaxedAutoImplicit false
set_option autoImplicit false

/-!
# Failures of reading a file

Why a text could not be read. The system's own failures carry its number for them.

## Main definitions

* `Stencil.ReadError` — the causes.
* `Stencil.ReadError.message` — their wording.
-/

namespace Stencil

/-- Why a file or a stream could not be read as text. -/
inductive ReadError where
  /-- Nothing lies at the path. -/
  | notFound
  /-- A part of the path that should be a directory is a file. -/
  | notDirectory
  /-- A directory lies at the path. -/
  | isDirectory
  /-- The path, or one of its parts, is longer than the system allows. -/
  | nameTooLong
  /-- The path contains the null character. -/
  | nullInName
  /-- The bytes are not UTF-8. -/
  | notText
  /-- A failure that the source of the text words itself. -/
  | other (text : String)
  deriving DecidableEq, Repr

/-- The wording of the failure. -/
def ReadError.message : ReadError → String
  | notFound => "No such file or directory (os error 2)"
  | notDirectory => "Not a directory (os error 20)"
  | isDirectory => "Is a directory (os error 21)"
  | nameTooLong => "File name too long (os error 36)"
  | nullInName => "file name contained an unexpected NUL byte"
  | notText => "stream did not contain valid UTF-8"
  | other text => text

end Stencil
