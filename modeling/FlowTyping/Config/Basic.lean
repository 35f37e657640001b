/-
The settings of an analysis.
-/

namespace FlowTyping

structure Config where
  /-- Derive the types of parameters from their use; otherwise a parameter may be anything. -/
  inferParameters : Bool
  /-- A name that may have no value on some path also holds `None`. -/
  unboundAsNone : Bool
  /-- Report constructors that return a value. -/
  checkConstructorReturns : Bool
  /-- Report jump statements that are out of place. -/
  reportConstructionErrors : Bool
  /-- Names that are not defined in a module and may be anything, whatever the built-ins say. -/
  builtinsAsAny : List String
deriving DecidableEq, Repr

namespace Config

/-- Everything switched on, and no special names. -/
def standard : Config := ⟨true, true, true, true, []⟩

instance : Inhabited Config := ⟨standard⟩

end Config

end FlowTyping
