import ScriptVM.Kind
import ScriptVM.Num

/-!
# Values

A value is null, a boolean, a number, or a reference to an object of the heap.
-/

namespace ScriptVM

/-- A value of a running program. -/
inductive Value where
  | null
  | bool (b : Bool)
  | num (n : Num)
  | ref (kind : RefKind) (handle : Handle)
  deriving DecidableEq

instance : Inhabited Value := ⟨.null⟩

namespace Value

/-- The integer value of 32 bits. -/
def int (n : Int32) : Value := num (.int n)

/-- The name of a value's kind. -/
def kindName : Value → String
  | null => "Null"
  | bool _ => "Bool"
  | num n => n.kindName
  | ref kind _ => kind.name

/-- The handle of a reference. -/
def handle? : Value → Option Handle
  | ref _ h => some h
  | _ => none

/-- The narrowest integer value that holds a number of 64 bits. -/
def ofInt64 (n : Int64) : Value := num (.ofInt n.toInt)

/-- The value of a count, which wraps around in 64 bits. -/
def ofCount (n : Nat) : Value := ofInt64 (.ofNat n)

/-- The number of an integer value. -/
def toInt64? : Value → Option Int64
  | num (.int n) => some (.ofInt n.toInt)
  | num (.int64 n) => some n
  | _ => none

/-- Whether the value is an error. -/
def isError : Value → Bool
  | ref .error _ => true
  | _ => false

end Value

end ScriptVM
