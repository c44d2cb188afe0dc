import Amalgam.Entries
import Amalgam.Value

/-!
What the running of bodies needs of the world around it, over any kind of effects.
-/

namespace Amalgam

/-- What scripts and generated bodies need of the world around them. -/
structure Surroundings (m : Type → Type) where
  /-- The value of a name that is no local. -/
  lookUp : String → m Value
  attr : Value → String → m Value
  call : Value → List Value → Entries Value → m Value
  await : Value → m Value
  shown : Value → m String
  /-- The name of the class of a value, or of the value itself if it is a class. -/
  className : Value → m String
  raise : String → m Value
  /-- A name that is nowhere. -/
  unbound : m Value
  /-- A local that has no value yet. -/
  unassigned : m Value
  /-- A value of the wrong kind. -/
  misfit : m Value

/-- Surroundings in which the given names stand for locals that have no value yet. -/
def Surroundings.hide {m : Type → Type} (s : Surroundings m) (names : List String) : Surroundings m :=
  { s with lookUp := fun name => if names.contains name then s.unassigned else s.lookUp name }

end Amalgam
