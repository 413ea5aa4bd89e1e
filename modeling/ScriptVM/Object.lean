import ScriptVM.MapKey
import ScriptVM.Progression
import ScriptVM.Table
import ScriptVM.Value

/-!
# Objects

The objects of the heap. An object may hold values in turn: the elements of an array, the entries of a map, the payload of
an error, the bindings of an environment. `Object.references` lists what an object keeps alive.
-/

namespace ScriptVM

/-- An entry of a map: the key as it was given, and the value. -/
structure MapEntry where
  key : Value
  value : Value
  deriving DecidableEq

/-- The code of a function. -/
structure Code where
  file : String
  name : String
  params : List String
  captures : List String
  isAsync : Bool
  instructions : Array UInt8
  deriving DecidableEq, Repr

/-- The number of parameters. -/
def Code.arity (c : Code) : Nat := c.params.length

/-- A function with the environment it was made in. -/
structure Closure where
  code : Code
  env : Handle
  deriving DecidableEq, Repr

/-- The functions that every machine provides. -/
inductive Builtin where
  | len
  | typeOf
  | str
  | range
  deriving DecidableEq, Repr

/-- The functions that a host may add: a few with a fixed answer, one that fails, and some that work on the heap. -/
inductive HostFunction where
  | answer
  | count
  | half
  | yes
  | fail
  | wrap
  | push
  | put
  | iter
  deriving DecidableEq, Repr

/-- The code of a native function. -/
inductive NativeCode where
  | builtin (b : Builtin)
  | host (h : HostFunction)
  deriving DecidableEq, Repr

/-- A function outside of the language; without an arity it takes any number of arguments. -/
structure Native where
  name : String
  arity : Option Nat
  code : NativeCode
  deriving DecidableEq, Repr

/-- An error: its message, and a value that belongs to it. -/
structure ErrorInfo where
  message : String
  payload : Option Value
  deriving DecidableEq

/-- A walk over a container: the container, and how far the walk has come. -/
inductive Traversal where
  | array (target : Handle) (index : Nat)
  | range (target : Handle) (index : Nat)
  | map (target : Handle) (cursor : Cursor)
  deriving DecidableEq, Repr

/-- The container of a walk. -/
def Traversal.target : Traversal → Handle
  | array h _ => h
  | range h _ => h
  | map h _ => h

/-- Bindings of names, and the environment around them. -/
structure Environment where
  bindings : Table String Value := ∅
  parent : Option Handle

/-- An object of the heap. -/
inductive Object where
  | text (s : String)
  | array (items : Array Value)
  | map (entries : Table MapKey MapEntry)
  | function (f : Closure)
  | native (n : Native)
  | range (r : Progression)
  | iterator (t : Traversal)
  | error (e : ErrorInfo)
  | environment (e : Environment)

namespace Object

/-- The kind of value that refers to an object; no value refers to an environment. -/
def kind? : Object → Option RefKind
  | text _ => some .string
  | array _ => some .array
  | map _ => some .map
  | function _ => some .function
  | native _ => some .native
  | range _ => some .range
  | iterator _ => some .iterator
  | error _ => some .error
  | environment _ => none

/-- The handles of the objects that an object keeps alive. -/
def references : Object → List Handle
  | text _ => []
  | array items => items.toList.filterMap Value.handle?
  | map entries => entries.values.flatMap fun e => e.key.handle?.toList ++ e.value.handle?.toList
  | function f => [f.env]
  | native _ => []
  | range _ => []
  | iterator t => [t.target]
  | error e => (e.payload.bind Value.handle?).toList
  | environment e => e.bindings.values.filterMap Value.handle? ++ e.parent.toList

end Object

end ScriptVM
