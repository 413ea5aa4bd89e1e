/-!
# Kinds of values and handles

A value is a scalar or refers to an object of the heap. A reference carries the kind of the object and its handle: the slot
it lives in, and the generation of the slot for which the handle was issued.
-/

namespace ScriptVM

/-- The kinds of objects a value can refer to. -/
inductive RefKind where
  | string
  | array
  | map
  | function
  | native
  | range
  | iterator
  | error
  deriving DecidableEq, Repr

/-- The name of a kind of object, as programs see it. -/
def RefKind.name : RefKind → String
  | string => "String"
  | array => "Array"
  | map => "Map"
  | function => "Function"
  | native => "NativeFunction"
  | range => "Range"
  | iterator => "Iterator"
  | error => "Error"

/-- A generational index of a heap slot. It resolves as long as the slot holds the object it was issued for. -/
structure Handle where
  index : UInt32
  generation : UInt32
  deriving DecidableEq, Repr, Hashable, Inhabited

end ScriptVM
