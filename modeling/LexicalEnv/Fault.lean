import LexicalEnv.Value

/-!
# Faults

Everything that can go wrong, by cause. The first four are reported to the user
of an environment and can be passed around as values; the next ones refuse an
argument and say which; the last ones are operations that a value does not have.
-/

namespace LexicalEnv

inductive ParameterFault where
  | manyMarkers (count : Nat)
  | markerAlone
  | markerMisplaced
  | manyRests (count : Nat)
  | restMisplaced
  deriving DecidableEq, Repr

def ParameterFault.message : ParameterFault → String
  | .manyMarkers count => "Too many '&' markers in parameter list: " ++ Nat.repr count
  | .markerAlone => "'&' must be followed by a parameter name"
  | .markerMisplaced => "'&' must be the penultimate entry of a parameter list"
  | .manyRests count => "Too many rest entries in parameter list: " ++ Nat.repr count
  | .restMisplaced => "The rest entry must be the last entry of a parameter list"

inductive Fault where
  | environment (message : Value)
  /-- No frame of a chain binds the symbol; the snapshot is what was visible, if recorded. -/
  | unbound (symbol snapshot : Value) (text : String)
  | arity (name expected got : Value) (text : String)
  | parameters (message : Value)
  | keyRefused (shown : String)
  | tagRefused (shown : String)
  | tableAsSequence
  | textAsSequence
  | closureRefused (shown : String)
  | actorUnknown (shown : String)
  | requestUnknown (shown : String)
  | wrongType
  | missingKey
  | missingAttribute
  | wrongValue
  | outOfRange
  /-- Nesting or a chain of frames without end. -/
  | tooDeep
  | actorDead
  deriving DecidableEq, Repr

namespace Fault

def ofParameters (cause : ParameterFault) : Fault := .parameters (.str cause.message)

def isReported : Fault → Bool
  | .environment _ | .unbound .. | .arity .. | .parameters _ => true
  | _ => false

/-- The message of a fault; operations that a value does not have fail without one. -/
def message? : Fault → Option Value
  | .environment message | .parameters message => some message
  | .unbound _ _ text | .arity _ _ _ text => some (.str text)
  | .keyRefused shown => some (.str ("Cannot use " ++ shown ++ " as a binding key"))
  | .tagRefused shown => some (.str ("Expected a list or vector, got " ++ shown))
  | .tableAsSequence => some (.str "Expected a sequence, got dict")
  | .textAsSequence => some (.str "Expected a sequence, got str")
  | .closureRefused shown => some (.str ("Cannot apply non-closure value: " ++ shown))
  | .actorUnknown shown => some (.str ("Frame actor not found: " ++ shown))
  | .requestUnknown shown => some (.str ("Unknown frame operation: " ++ shown))
  | .wrongType | .missingKey | .missingAttribute | .wrongValue | .outOfRange | .tooDeep
  | .actorDead => none

end Fault

end LexicalEnv
