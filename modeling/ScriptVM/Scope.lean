import ScriptVM.Tree

/-!
# Scopes

The compiler follows the scopes of a program to check where names are declared and assigned, and to record which names a
function takes from the scopes around it. A stack of scopes is a list with the innermost scope first.
-/

namespace ScriptVM

/-- What a scope belongs to. -/
inductive ScopeKind where
  | global
  | function
  | block
  | loop
  /-- A branch of one statement without braces, which declares nothing. -/
  | single
  deriving DecidableEq, Repr

namespace ScopeKind

/-- The name of a kind of scope in messages. -/
def name : ScopeKind → String
  | global => "global"
  | function => "function"
  | block => "block"
  | loop => "loop"
  | single => "single-statement"

/-- All kinds of scopes. -/
def all : List ScopeKind := [global, function, block, loop, single]

/-- Whether a declaration may stand directly in a scope. -/
def allows : ScopeKind → DeclKind → Bool
  | global, .var => true
  | global, .localVar => false
  | global, .const => true
  | function, .var | block, .var | loop, .var => false
  | function, _ | block, _ | loop, _ => true
  | single, _ => false

/-- Whether a named function may be declared directly in a scope. -/
def allowsFunction (k : ScopeKind) : Bool := k != single

end ScopeKind

/-- A declared name. -/
structure Symbol where
  name : String
  isConst : Bool
  isGlobal : Bool
  span : Span
  deriving DecidableEq, Repr

/-- A scope: its symbols, the names its function takes from outside, and whether a return was seen in its function. -/
structure Scope where
  kind : ScopeKind
  symbols : List Symbol := []
  captures : List String := []
  returned : Bool := false
  deriving DecidableEq, Repr

namespace Scope

/-- The symbol of a name in this scope. -/
def lookup? (s : Scope) (name : String) : Option Symbol := s.symbols.find? fun x => x.name == name

/-- The scope with a further symbol, unless its name is already taken. -/
def declare? (s : Scope) (x : Symbol) : Option Scope :=
  if (s.lookup? x.name).isSome then none else some { s with symbols := x :: s.symbols }

/-- The scope with a captured name, which is listed once. -/
def capture (s : Scope) (name : String) : Scope :=
  if s.captures.contains name then s else { s with captures := s.captures ++ [name] }

/-- The symbol a name stands for, and the scopes with the capture recorded: every function scope between the use of a name
and its declaration takes the name, unless it is declared globally. -/
def resolve (name : String) : List Scope → Option (Symbol × List Scope)
  | [] => none
  | s :: outer =>
    match s.lookup? name with
    | some x => some (x, s :: outer)
    | none =>
      (resolve name outer).map fun (x, outer) =>
        (x, (if s.kind = .function && !x.isGlobal then s.capture name else s) :: outer)

/-- The scopes with a return recorded in the innermost function; `none` outside of functions. -/
def markReturned : List Scope → Option (List Scope)
  | [] => none
  | s :: outer =>
    if s.kind = .function then some ({ s with returned := true } :: outer)
    else (markReturned outer).map (s :: ·)

end Scope

end ScriptVM
