import LexicalEnv.World

/-!
# Fault records

A fault of an environment as a record: its kind, its message, the symbol or the
arity that it is about and the bindings that were visible. The fields that a kind
of fault does not have hold nothing.
-/

namespace LexicalEnv

def Fault.kind : Fault → String
  | .unbound .. => "Unbound symbol"
  | .arity .. => "Arity error"
  | .parameters _ => "Parameter list error"
  | _ => "Environment error"

namespace FaultRecord

/-- A record with the given fields; a snapshot that counts as false becomes an empty one. -/
def make (kind message symbol expected got snapshot : Value) : Action Value := do
  let visible ← if ← Action.view (·.truthy snapshot) then pure snapshot
    else Action.alloc (.table [])
  Action.alloc (.table [(.str "kind", kind), (.str "message", message), (.str "symbol", symbol),
    (.str "expected", expected), (.str "got", got), (.str "env_snapshot", visible)])

def reported? (h : Heap) (v : Value) : Option Fault :=
  match h.obj? v with
  | some (.failure fault) => if fault.isReported then some fault else none
  | _ => none

def faultOf (v : Value) : Action Fault := do
  match ← Action.view (reported? · v) with
  | some fault => pure fault
  | none => throw .missingAttribute

def ofFault (fault : Fault) : Action Value :=
  let kind := Value.str fault.kind
  match fault with
  | .unbound symbol snapshot text => make kind (.str text) symbol .nil .nil snapshot
  | .arity _ expected got text => make kind (.str text) .nil expected got .nil
  | .environment message | .parameters message => make kind message .nil .nil .nil .nil
  | _ => throw .missingAttribute

def attributes : Fault → List (String × Value)
  | .unbound symbol snapshot text =>
    [("env_snapshot", snapshot), ("message", .str text), ("symbol", symbol)]
  | .arity name expected got text =>
    [("expected", expected), ("got", got), ("message", .str text), ("name", name)]
  | .environment message | .parameters message => [("message", message)]
  | _ => []

end FaultRecord

end LexicalEnv
