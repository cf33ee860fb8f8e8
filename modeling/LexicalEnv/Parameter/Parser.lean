import LexicalEnv.Parameter.Basic

/-!
# Parameter lists

A parameter list is written as names with a marker before the last one if that
takes the rest, or as records of parameters. Either form is checked by the same
rule: at most one parameter takes the rest, and it is the last.
-/

namespace LexicalEnv

namespace Param

def marker : String := "&"

def parse (names : List String) : Except ParameterFault (List Param) :=
  match names.count marker with
  | 0 => .ok (names.map positional)
  | 1 =>
    match names.reverse with
    | last :: mark :: front =>
      if mark = marker then .ok (front.reverse.map positional ++ [rest last])
      else .error .markerMisplaced
    | _ => .error .markerAlone
  | count => .error (.manyMarkers count)

/-- The rule for parameters, told which of them take the rest. -/
def checkRests (rests : List Bool) : Except ParameterFault Unit :=
  match rests.count true with
  | 0 => .ok ()
  | 1 => if rests.getLast? = some true then .ok () else .error .restMisplaced
  | count => .error (.manyRests count)

theorem parse_of_no_marker {names : List String} (plain : marker ∉ names) :
    parse names = .ok (names.map positional) := by
  simp [parse, List.count_eq_zero.mpr plain]

end Param

/-- A parameter list that has been checked: the records given, or parameters not stored yet. -/
inductive ParamList where
  | recorded (entries : List Value) (params : List Param)
  | parsed (params : List Param)
  deriving DecidableEq, Repr

namespace ParamList

def params : ParamList → List Param
  | .recorded _ params | .parsed params => params

def store : ParamList → Action (List Value)
  | .recorded entries _ => pure entries
  | .parsed params => params.mapM Param.store

end ParamList

namespace Heap

def checked {α : Type} : Except ParameterFault α → Except Fault α
  | .ok a => .ok a
  | .error cause => .error (.ofParameters cause)

def isParamRecords (h : Heap) (binds : Value) : Except Fault Bool := do
  pure ((← h.items binds).all fun entry => (h.param? entry).isSome)

def parseParams (h : Heap) (symbols : List Value) : Except Fault (List Param) := do
  checked (Param.parse (← symbols.mapM h.nameOf))

def validated (h : Heap) (records : Value) : Except Fault (List Value) := do
  let entries ← h.items records
  let kinds ← entries.mapM h.kindOf
  checked (Param.checkRests (kinds.map (· == some .rest)))
  pure entries

/-- The parameter list that a sequence describes: by records if all its members are records,
else by names. -/
def paramList (h : Heap) (binds : Value) : Except Fault ParamList := do
  let members ← h.sequenceOf binds
  match members.mapM h.param? with
  | some params =>
    checked (Param.checkRests (params.map (·.kind == .rest)))
    pure (.recorded members params)
  | none => pure (.parsed (← h.parseParams members))

def paramParts (h : Heap) (entry : Value) : Except Fault (List Value) := do
  let mark := if (← h.kindOf entry) = some .rest then [.str Param.marker] else []
  pure (mark ++ [← h.nameCarried (← h.field entry "name")])

end Heap

def ParamList.parse (symbols : Value) : Action Value := do
  let params ← Action.read fun h => do h.parseParams (← h.items symbols)
  Action.alloc (.list (← (parsed params).store))

def ParamList.validate (records : Value) : Action Value := do
  Action.alloc (.list (← Action.read (·.validated records)))

def ParamList.ensure (binds : Value) : Action Value := do
  let list ← Action.read (·.paramList binds)
  Action.alloc (.list (← list.store))

end LexicalEnv
