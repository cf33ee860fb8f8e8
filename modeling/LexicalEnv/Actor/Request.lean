import LexicalEnv.Frame.Lookup

/-!
# Requests to an actor

What an actor can be asked to do with its frame. A request comes as such or as a
message, a record of an operation and its arguments, whose operation is announced
before the arguments are read.
-/

namespace LexicalEnv

inductive Request where
  | set (key value : Value)
  | get (key : Value)
  | find (key : Value)
  | snapshot
  deriving DecidableEq, Repr

namespace Request

def op : Request → String
  | .set .. => "set"
  | .get _ => "get"
  | .find _ => "find"
  | .snapshot => "snapshot"

def ofMessage (h : Heap) (op message : Value) : Except Fault Request :=
  match op with
  | .text "set" _ => do pure (.set (← h.field message "key") (← h.field message "value"))
  | .text "get" _ => do pure (.get (← h.field message "key"))
  | .text "find" _ => do pure (.find (← h.field message "key"))
  | .text "snapshot" _ => pure .snapshot
  | _ => throw (.requestUnknown (h.display op))

def perform (frame : Value) : Request → Action Value
  | .set key value => Frame.set frame key value false
  | .get key => Frame.get frame key false
  | .find key => do pure (.bool ((← Frame.find frame key false) != .nil))
  | .snapshot => Frame.snapshot frame

end Request

end LexicalEnv
