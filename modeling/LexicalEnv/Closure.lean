import LexicalEnv.Frame.Construction

/-!
# Closures

A closure is a tagged record of parameters, a body and the frame that it was
written in. A call runs in a new frame inside that one, so free names mean what
they mean where the closure was written.
-/

namespace LexicalEnv

namespace Closure

def paramsText (h : Heap) (entries : List Value) : Except Fault String := do
  Printing.spaced (← entries.mapM h.paramParts).flatten

def record (name params : Value) (text : String) (body env : Value) : Obj :=
  .table [(.str "name", name), (.str "params", params), (.str "params_text", .str text),
    (.str "body", body), (.str "closure_env", env)]

def make (params body env name : Value) : Action Value := do
  let list ← Action.read (·.paramList params)
  let entries ← list.store
  let text ← Action.read (paramsText · entries)
  let called ← Action.view fun h => if h.truthy name then name else .str "closure"
  let stored ← Action.alloc (.list entries)
  let closure ← Action.alloc (record called stored text body env)
  Tagged.make closure (.str "Closure")

def record? (h : Heap) (v : Value) : Option Value := do
  let (type, payload) ← h.tagged? v
  if type.text? = some "Closure" then some payload else none

def isClosure (h : Heap) (v : Value) : Bool := (record? h v).isSome

def report (h : Heap) (closure args : Value) : Except Fault String := do
  let name ← h.field closure "name"
  let text ← h.field closure "params_text"
  let count ← h.count args
  pure ("Call " ++ h.display name ++ " (" ++ h.display text ++ ") with " ++ Nat.repr count ++
    " argument(s)")

/-- The frame that a call with the given arguments runs in. -/
def enter (closure args : Value) (debug : Bool) : Action Value := do
  match ← Action.view (record? · closure) with
  | none => throw (← Action.view fun h => .closureRefused (h.quoted closure))
  | some record =>
    if debug then Action.say (← Action.read (report · record args))
    let env ← Action.read (·.field record "closure_env")
    let params ← Action.read (·.field record "params")
    let name ← Action.read (·.field record "name")
    Frame.extend env params args debug name

def body (h : Heap) (closure : Value) : Except Fault Value := do
  h.field (← h.field closure "value") "body"

end Closure

end LexicalEnv
