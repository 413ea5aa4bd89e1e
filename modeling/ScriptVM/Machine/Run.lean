import ScriptVM.Compile
import ScriptVM.Machine.Step

/-!
# Runs

A machine begins with its globals, in which the builtins are bound, and runs one module after the other on them. A run that
fails leaves no frames and no operands, but keeps the globals and the heap as the failure found them.
-/

namespace ScriptVM

/-- How a run ends: with a result, with an error, or not within the instructions allowed to it. -/
inductive RunResult where
  | finished (value : Value)
  | failed (error : ScriptError)
  | unfinished

namespace Machine

/-- Binds a native function in the globals. -/
def defineNative (n : Native) : EStateM ScriptError Machine Unit := fun m =>
  let globals := m.globals
  match MachineM.onHeap (HeapM.allocRef .native (.native n)) m with
  | .error (.heap e) m => .error (.heap e) m
  | .error e m => .error (.runtime e) m
  | .ok v m =>
    match MachineM.onHeap (HeapM.define globals n.name v) m with
    | .ok () m => .ok () m
    | .error e m => .error (.runtime e) m

/-- Binds a value in the globals. -/
def define (name : String) (v : Value) (m : Machine) : EStateM.Result RuntimeError Machine Unit :=
  let globals := m.globals
  MachineM.onHeap (HeapM.define globals name v) m

/-- A machine with the builtins. -/
def ofSettings (s : Settings) : Except ScriptError Machine :=
  match Heap.alloc (.environment { parent := none }) (.ofSettings s) with
  | .error e _ => .error (.heap e)
  | .ok globals heap =>
    let natives := Builtin.all.map fun b => (⟨b.name, b.arity, .builtin b⟩ : Native)
    match natives.forM defineNative { heap, globals, settings := s } with
    | .ok () m => .ok m
    | .error e _ => .error e

/-- The machine at the start of a module. -/
def start (image : Image) (m : Machine) : Machine :=
  let code : Code := ⟨image.path, image.name, [], [], false, image.code.toArray⟩
  { m with stack := #[], frames := #[⟨code, 0, m.globals, 0⟩] }

/-- The machine without frames and operands. -/
def abandon (m : Machine) : Machine := { m with stack := #[], frames := #[] }

/-- Steps until the run ends, at most `fuel` of them. -/
def steps : Nat → Machine → RunResult × Machine
  | 0, m => (.unfinished, m)
  | fuel + 1, m =>
    match MachineM.step m with
    | .ok (some v) m => (.finished v, m)
    | .ok none m => steps fuel m
    | .error e m => (.failed (.runtime e), m.abandon)

/-- Runs a module for at most `fuel` instructions. -/
def run (fuel : Nat) (bytes : List UInt8) (m : Machine) : RunResult × Machine :=
  match Image.decode bytes with
  | .ok image => steps fuel (m.start image)
  | .error e => (.failed (.bytecode e), m)

/-- Compiles a program and runs it for at most `fuel` instructions. -/
def runProgram (fuel : Nat) (p : Program) (m : Machine) : RunResult × Machine :=
  match p.compile with
  | .ok image => m.run fuel image.encode
  | .error e => (.failed (.compile e), m)

end Machine

/-- Compiles a program and runs it on a new machine for at most `fuel` instructions. A program that does not compile makes
no machine. -/
def Program.run (fuel : Nat) (s : Settings) (p : Program) : Except ScriptError (RunResult × Machine) :=
  match p.compile with
  | .ok image => (Machine.ofSettings s).map (Machine.run fuel image.encode)
  | .error e => .error (.compile e)

end ScriptVM
