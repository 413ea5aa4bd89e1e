import ScriptVM.Kind
import ScriptVM.Num

/-!
# Keys of maps

Two values that are equal in the language have the same key, so a map finds an entry under every value that equals the key
it was stored with.
-/

namespace ScriptVM

/-- What a value is as the key of a map: numbers by value, so that `1` and `1.0` are one key, texts and errors by content,
arrays element by element, ranges by their bounds, and all other objects by identity. -/
inductive MapKey where
  | null
  | bool (b : Bool)
  | int (n : Int)
  | float (x : Double)
  | text (s : String)
  | error (message : String)
  | array (items : List MapKey)
  | range (start stop step : Int64)
  | ref (handle : Handle)

namespace MapKey

mutual

/-- Equality of keys. -/
def beq : MapKey → MapKey → Bool
  | null, null => true
  | bool a, bool b => a == b
  | int a, int b => a == b
  | float a, float b => a == b
  | text a, text b => a == b
  | error a, error b => a == b
  | array as, array bs => beqList as bs
  | range a b c, range a' b' c' => a == a' && b == b' && c == c'
  | ref a, ref b => a == b
  | _, _ => false

/-- Equality of lists of keys. -/
def beqList : List MapKey → List MapKey → Bool
  | [], [] => true
  | a :: as, b :: bs => beq a b && beqList as bs
  | _, _ => false

end

instance : BEq MapKey := ⟨beq⟩

mutual

/-- The hash of a key. All keys by identity have one hash: the order of a map does not depend on where its keys live. -/
def hashKey : MapKey → UInt64
  | null => 11
  | bool b => mixHash 13 (hash b)
  | int n => mixHash 17 (hash n)
  | float x => mixHash 19 (hash x.toBits)
  | text s => mixHash 23 (hash s)
  | error m => mixHash 29 (hash m)
  | array items => hashKeys 31 items
  | range a b c => mixHash (hash a.toInt) (mixHash (hash b.toInt) (hash c.toInt))
  | ref _ => 37

/-- The hash of a list of keys behind another hash. -/
def hashKeys (seed : UInt64) : List MapKey → UInt64
  | [] => seed
  | k :: ks => hashKeys (mixHash seed (hashKey k)) ks

end

instance : Hashable MapKey := ⟨hashKey⟩

/-- The key of a number: an integer where it stands for one of 64 bits, and one key for all NaNs. -/
def ofDouble (x : Double) : MapKey :=
  match x.toInt?.filter fits64 with
  | some n => int n
  | none => float (if x.isNaN then .ofBits .double 0x7ff8000000000000 else x)

end MapKey

end ScriptVM
