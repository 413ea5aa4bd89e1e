import ScriptVM.Decimal.Layout
import ScriptVM.Heap.Basic

/-!
# Inspected objects

The inspected form of an object shows its fields and, for the values in it, their kind and handle. It does not follow
handles.
-/

namespace ScriptVM

namespace Inspect

/-- A named record with its fields. -/
def record (name : String) (fields : List (String × String)) : String :=
  name ++ " \x7b " ++ String.intercalate ", " (fields.map fun (k, v) => k ++ ": " ++ v) ++ " \x7d"

/-- A name applied to a text. -/
def tagged (name content : String) : String := name ++ "(" ++ content ++ ")"

/-- Texts between brackets. -/
def listing (items : List String) : String := "[" ++ String.intercalate ", " items ++ "]"

/-- Pairs of keys and values between braces. -/
def table (entries : List (String × String)) : String :=
  "\x7b" ++ String.intercalate ", " (entries.map fun (k, v) => k ++ ": " ++ v) ++ "\x7d"

/-- A text that may be missing. -/
def optional (content : Option String) : String :=
  match content with
  | some s => tagged "Some" s
  | none => "None"

/-- A handle. -/
def handle (h : Handle) : String :=
  record "Handle" [("index", toString h.index.toNat), ("generation", toString h.generation.toNat)]

/-- A number. -/
def num : Num → String
  | .int n => tagged "Int" (toString n.toInt)
  | .int64 n => tagged "Int64" (toString n.toInt)
  | .float x => tagged "Float" (x.render .inspect)
  | .double x => tagged "Double" (x.render .inspect)

/-- A boolean. -/
def bool (b : Bool) : String := if b then "true" else "false"

/-- A value. -/
def value : Value → String
  | .null => "Null"
  | .bool b => tagged "Bool" (bool b)
  | .num n => num n
  | .ref kind h => tagged kind.name (handle h)

mutual

/-- The key of a map. -/
def key : MapKey → String
  | .null => "Null"
  | .bool b => tagged "Bool" (bool b)
  | .int n => tagged "Int" (toString n)
  | .float x => tagged "Float" (toString x.toBits)
  | .text s => tagged "Str" (Text.quote s)
  | .error m => tagged "Error" (Text.quote m)
  | .array items => tagged "Array" (listing (keys items))
  | .range a b c => tagged "Range" (String.intercalate ", " [toString a.toInt, toString b.toInt, toString c.toInt])
  | .ref h => tagged "Ref" (handle h)

/-- A list of keys. -/
def keys : List MapKey → List String
  | [] => []
  | k :: rest => key k :: keys rest

end

/-- A walk. -/
def traversal : Traversal → String
  | .array h i => record "Array" [("array", handle h), ("index", toString i)]
  | .range h i => record "Range" [("range", handle h), ("index", toString i)]
  | .map h c =>
    record "Map"
      [("map", handle h), ("cursor", record "TableCursor" [("bucket", toString c.chain), ("depth", toString c.depth)])]

/-- An entry of a map. -/
def entry (e : MapEntry) : String := record "MapEntry" [("key", value e.key), ("value", value e.value)]

end Inspect

/-- The inspected form of an object. -/
def Object.inspect : Object → String
  | text s => Inspect.tagged "String" (Text.quote s)
  | array items => Inspect.tagged "Array" (Inspect.listing (items.toList.map Inspect.value))
  | map entries => Inspect.tagged "Map" (Inspect.table (entries.toList.map fun (k, e) => (Inspect.key k, Inspect.entry e)))
  | function f => Inspect.tagged "Function" f.code.name
  | native n => Inspect.tagged "Native" n.name
  | range r =>
    Inspect.tagged "Range" (Inspect.record "Range"
      [("start", toString r.start.toInt), ("end", toString r.stop.toInt), ("step", toString r.step.toInt)])
  | iterator t => Inspect.tagged "Iterator" (Inspect.traversal t)
  | error e =>
    Inspect.tagged "Error" (Inspect.record "ErrorObject"
      [("message", Text.quote e.message), ("payload", Inspect.optional (e.payload.map Inspect.value))])
  | environment e =>
    Inspect.tagged "Environment" (Inspect.record "Environment"
      [("bindings", Inspect.table (e.bindings.toList.map fun (k, v) => (Text.quote k, Inspect.value v))),
        ("parent", Inspect.optional (e.parent.map Inspect.handle))])

end ScriptVM
