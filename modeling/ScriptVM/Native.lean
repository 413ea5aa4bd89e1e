import ScriptVM.Heap.Access
import ScriptVM.Heap.Traversal

/-!
# Native functions

The functions that every machine provides, `len`, `type_of`, `str` and `range`, and those that a host may add to it.
-/

namespace ScriptVM

namespace Builtin

/-- The name that a builtin is bound to. -/
def name : Builtin → String
  | len => "len"
  | typeOf => "type_of"
  | str => "str"
  | range => "range"

/-- The number of arguments of a builtin; `range` takes any number. -/
def arity : Builtin → Option Nat
  | range => none
  | _ => some 1

/-- The builtins in the order in which a machine binds them. -/
def all : List Builtin := [len, typeOf, str, range]

/-- The length of a container. -/
def lenOf (v : Value) : HeapM Value :=
  match v with
  | .ref .string h => do return Value.ofCount (← HeapM.read (·.text h)).length
  | .ref .array h => do return Value.ofCount (← HeapM.read (·.array h)).size
  | .ref .map h => do return Value.ofCount (← HeapM.read (·.map h)).size
  | .ref .range h => do return Value.ofCount (← HeapM.read (·.range h)).length
  | .ref .error _ => return v
  | _ => HeapM.errorValue s!"len() expects a collection, got {v.kindName}"

/-- The displayed form of a value as a text; a text is its own. -/
def strOf (v : Value) : HeapM Value :=
  match v with
  | .ref .string _ => return v
  | _ => do HeapM.allocText (← HeapM.read fun h => return h.describe v)

/-- The integers of the arguments, or the first argument that is none. -/
def integers : List Value → Except Value (List Int64)
  | [] => .ok []
  | v :: rest =>
    match v.toInt64? with
    | some n => (integers rest).map (n :: ·)
    | none => .error v

/-- The array of a range. -/
def rangeArray (start stop step : Int64) : HeapM Value :=
  match Progression.ofBounds? start stop step with
  | some r => HeapM.allocArray (r.toList.map Value.ofInt64).toArray
  | none => HeapM.errorValue Progression.zeroStepMessage

/-- The array of the integers up to an end, from a start, in steps. -/
def rangeOf (args : List Value) : HeapM Value :=
  match integers args with
  | .error v => if v.isError then return v else HeapM.errorValue s!"range() expects integers, got {v.kindName}"
  | .ok [stop] => rangeArray 0 stop 1
  | .ok [start, stop] => rangeArray start stop 1
  | .ok [start, stop, step] => rangeArray start stop step
  | .ok _ => throw (.typeError s!"range() takes 1 to 3 arguments, got {args.length}")

/-- Calls a builtin. -/
def call (b : Builtin) (args : List Value) : HeapM Value :=
  let first := args.headD .null
  match b with
  | len => lenOf first
  | typeOf => HeapM.allocText first.kindName
  | str => strOf first
  | range => rangeOf args

end Builtin

namespace HostFunction

/-- Calls a host function. -/
def call (f : HostFunction) (args : List Value) : HeapM Value :=
  match f with
  | answer => return .int 42
  | count => return .num (.int64 (.ofNat args.length))
  | half => return .num (.double (.ofBits .double 0x3fe0000000000000))
  | yes => return .bool true
  | fail => throw (.typeError "native failure")
  | wrap => HeapM.allocError "wrapped" args.head?
  | push =>
    match args with
    | [.ref .array h, v] => do
      HeapM.arrayPush h v
      return .ref .array h
    | _ => throw (.typeError "push expects an Array")
  | put =>
    match args with
    | [.ref .map h, k, v] => do
      HeapM.mapInsert h k v
      return .ref .map h
    | _ => throw (.typeError "put expects a Map")
  | iter => do
    match ← HeapM.allocIterator (args.headD .null) with
    | some it => return it
    | none => return .null

end HostFunction

/-- Calls a native function. -/
def NativeCode.call : NativeCode → List Value → HeapM Value
  | builtin b => b.call
  | host h => h.call

end ScriptVM
