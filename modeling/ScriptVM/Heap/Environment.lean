import ScriptVM.Heap.Basic

/-!
# Environments

Each module, call, block and loop pass has an environment of its own, chained to the one around it. A name stands for its
nearest binding along the chain.
-/

namespace ScriptVM

namespace Heap

/-- The nearest environment that binds a name, at most `fuel` links along the chain. -/
def ownerWithin (h : Heap) (name : String) : Nat → Handle → Except RuntimeError (Option Handle)
  | 0, _ => .error .invalidHandle
  | fuel + 1, env => do
    let e ← h.environment env
    if e.bindings.contains name then return some env
    else
      match e.parent with
      | some parent => h.ownerWithin name fuel parent
      | none => return none

/-- The nearest environment that binds a name. A chain has no more environments than the heap has slots. -/
def owner (h : Heap) (env : Handle) (name : String) : Except RuntimeError (Option Handle) :=
  h.ownerWithin name (h.slots.size + 1) env

/-- The value of a name in an environment, by its nearest binding. -/
def lookup (h : Heap) (env : Handle) (name : String) : Except RuntimeError (Option Value) := do
  match ← h.owner env name with
  | some nearest => return (← h.environment nearest).bindings.get? name
  | none => return none

end Heap

/-- An environment with a name bound; other objects stay as they are. -/
def Object.bind (name : String) (value : Value) : Object → Object
  | .environment e => .environment { e with bindings := e.bindings.insert name value }
  | o => o

namespace HeapM

/-- Allocates an environment inside another. -/
def allocEnvironment (parent : Option Handle) : HeapM Handle := alloc (.environment { parent })

/-- Binds a name in an environment itself. -/
def define (env : Handle) (name : String) (value : Value) : HeapM Unit := do
  let _ ← read (·.environment env)
  update env (Object.bind name value)

/-- Assigns the nearest binding of a name. -/
def assign (env : Handle) (name : String) (value : Value) : HeapM Unit := do
  match ← read (·.owner env name) with
  | some nearest => update nearest (Object.bind name value)
  | none => throw (.undefinedName name)

end HeapM

end ScriptVM
