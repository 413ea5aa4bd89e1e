import ScriptVM.Text.Quoted
import ScriptVM.Tree

/-!
# Errors

Each stage has its causes of failure, and each cause one message. Operators that cannot be applied are not among them: they
give error values, which flow through a program like any other value.
-/

namespace ScriptVM

/-- Why an instruction cannot be encoded. -/
inductive EmitError where
  | nulInString (s : String)
  | tooMany (what : String) (count limit : Nat)
  | jumpTooFar (distance : Int)
  deriving DecidableEq, Repr

/-- The message of an encoding error. -/
def EmitError.message : EmitError → String
  | nulInString s => s!"string operand {Text.quote s} contains a NUL byte"
  | tooMany what count limit => s!"too many {what}: {count} exceeds the limit of {limit}"
  | jumpTooFar distance => s!"jump distance {distance} does not fit in 32 bits"

/-- Why a program is not compiled. -/
inductive CompileCause where
  | misplacedDeclaration (keyword scope : String)
  | redeclaration (name : String)
  | returnOutsideFunction
  | invalidAssignmentTarget
  | constAssignment (name : String)
  | missingOperand
  | missingInitializer (name : String)
  | unnamedFunction
  | duplicateParameter (name : String)
  | tooMany (what : String) (count limit : Nat)
  | emit (error : EmitError)
  deriving DecidableEq, Repr

/-- The part of a compile error's message between file and position. -/
def CompileCause.message : CompileCause → String
  | misplacedDeclaration keyword scope => s!"'{keyword}' declaration is not allowed in {scope} scope"
  | redeclaration name => s!"'{name}' is already declared in this scope"
  | returnOutsideFunction => "'return' outside of a function"
  | invalidAssignmentTarget => "invalid assignment target"
  | constAssignment name => s!"cannot assign to constant '{name}'"
  | missingOperand => "missing operand"
  | missingInitializer name => s!"constant '{name}' needs an initializer"
  | unnamedFunction => "function declaration needs a name"
  | duplicateParameter name => s!"duplicate parameter '{name}'"
  | tooMany what count limit => s!"too many {what}: {count} exceeds {limit}"
  | emit error => error.message

/-- A compile error: its cause, and the file and span it is reported at. -/
structure CompileError where
  cause : CompileCause
  file : String
  span : Span
  deriving DecidableEq, Repr

/-- The message of a compile error. -/
def CompileError.message (e : CompileError) : String := s!"{e.file}: {e.cause.message} at {e.span.text}"

/-- Why bytes are not a well formed module or instruction. -/
inductive BytecodeError where
  | badMagic (magic : Nat)
  | zeroSize
  | sizeMismatch (declared actual : Nat)
  | unsupportedVersion (version : Nat)
  | unknownOpcode (byte : UInt8) (offset : Nat)
  | truncated (offset : Nat)
  | unterminatedString (offset : Nat)
  | invalidUtf8 (offset : Nat)
  | jumpOutOfBounds (source : Nat) (target : Int)
  deriving DecidableEq, Repr

/-- A number in hexadecimal, filled with zeros to a width. -/
def hexPadded (width n : Nat) : String :=
  let ds := Nat.toDigits 16 n
  "0x" ++ String.ofList (List.replicate (width - ds.length) '0' ++ ds)

/-- The message of a bytecode error. -/
def BytecodeError.message : BytecodeError → String
  | badMagic magic => s!"bad magic number {hexPadded 8 magic}"
  | zeroSize => "declared module size is zero"
  | sizeMismatch declared actual => s!"declared module size {declared} does not match buffer length {actual}"
  | unsupportedVersion version => s!"unsupported bytecode version {version}"
  | unknownOpcode byte offset => s!"unknown opcode {hexPadded 2 byte.toNat} at offset {offset}"
  | truncated offset => s!"truncated operand at offset {offset}"
  | unterminatedString offset => s!"unterminated string operand at offset {offset}"
  | invalidUtf8 offset => s!"invalid UTF-8 in string operand at offset {offset}"
  | jumpOutOfBounds source target => s!"jump from offset {source} lands outside the code at {target}"

/-- Why the heap holds no further object. -/
inductive HeapError where
  | exhausted (limit : Nat)
  deriving DecidableEq, Repr

/-- The message of a heap error. -/
def HeapError.message : HeapError → String
  | exhausted limit => s!"heap exhausted: object limit of {limit} reached"

/-- Why a run is abandoned. -/
inductive RuntimeError where
  | undefinedName (name : String)
  | stackOverflow (capacity : Nat)
  | stackUnderflow
  | frameOverflow (limit : Nat)
  | notCallable (kind : String)
  | wrongArity (name : String) (expected got : Nat)
  | invalidHandle
  | typeError (message : String)
  | unsupported (message : String)
  | heap (error : HeapError)
  | bytecode (error : BytecodeError)
  deriving DecidableEq, Repr

/-- The message of a runtime error. -/
def RuntimeError.message : RuntimeError → String
  | undefinedName name => s!"undefined name '{name}'"
  | stackOverflow capacity => s!"stack overflow: capacity of {capacity} slots exceeded"
  | stackUnderflow => "stack underflow"
  | frameOverflow limit => s!"call depth limit of {limit} frames exceeded"
  | notCallable kind => s!"value of type {kind} is not callable"
  | wrongArity name expected got => s!"wrong number of arguments to '{name}': expected {expected}, got {got}"
  | invalidHandle => "dangling heap handle"
  | typeError message => s!"type error: {message}"
  | unsupported message => s!"unsupported: {message}"
  | heap error => error.message
  | bytecode error => error.message

/-- An error of any stage. -/
inductive ScriptError where
  | compile (error : CompileError)
  | bytecode (error : BytecodeError)
  | runtime (error : RuntimeError)
  | heap (error : HeapError)
  deriving DecidableEq, Repr

/-- The message of an error, which names its stage. -/
def ScriptError.message : ScriptError → String
  | compile error => s!"Compile error: {error.message}"
  | bytecode error => s!"Bytecode error: {error.message}"
  | runtime error => s!"Runtime error: {error.message}"
  | heap error => s!"Allocation failure: {error.message}"

end ScriptVM
