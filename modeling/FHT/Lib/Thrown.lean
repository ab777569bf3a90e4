import FHT.Lib.StdString

/-!
# Thrown values

What a C++ `throw` can raise, as far as the handlers of a program tell values apart: a class
derived from `std::exception`, a `const char*`, a `std::string`, or any other type.
-/

/-- A value on its way to a matching handler. The pointer of a `const char*` may be null. -/
inductive Thrown
  | exception (what : Str)
  | cString (s : Str)
  | nullCString
  | string (s : Str)
  | other
  deriving DecidableEq

namespace Thrown

/-- Whether `catch (std::exception const&)` matches. -/
def isException : Thrown → Bool
  | exception _ => true
  | cString _ | nullCString | string _ | other => false

/-- The `std::logic_error` that the construction of a `std::string` from a null pointer throws. -/
def nullString : Thrown := .exception "basic_string: construction from null is not valid".toList

end Thrown
