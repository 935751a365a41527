import Mathlib.Data.Nat.Notation
import Mathlib.Logic.Function.Basic

/-!
# Property descriptions

A property description may have another as its opposite, which it refers to by name until the name
is resolved.
-/

namespace Etoile.EtoileFoundation

/-- A description, or a string in its place, or `nil`. -/
inductive Ref (α : Type)
  | null
  | string (name : String)
  | object (a : α)
  deriving DecidableEq

namespace Ref

variable {α : Type}

def isString : Ref α → Bool
  | string _ => true
  | null | object _ => false

end Ref

/-- The fields of the property descriptions `P`, whose owners and types are among the entity
descriptions `E`. -/
structure Properties (P E : Type) where
  opposite : P → Ref P := fun _ => .null
  isSettingOpposite : P → Bool := fun _ => false
  owner : P → Ref E := fun _ => .null
  type : P → Ref E := fun _ => .null

namespace Properties

variable {P E : Type} [DecidableEq P] (s : Properties P E)

def putOpposite (p : P) (opposite : Ref P) : Properties P E :=
  { s with opposite := Function.update s.opposite p opposite }

def putSetting (p : P) (isSetting : Bool) : Properties P E :=
  { s with isSettingOpposite := Function.update s.isSettingOpposite p isSetting }

def setType (p : P) (anEntityDescription : Ref E) : Properties P E :=
  { s with type := Function.update s.type p anEntityDescription }

/-- `[_opposite owner]`. -/
def ownerOf : Ref P → Ref E
  | .object q => s.owner q
  | .null | .string _ => .null

def withoutString (p : P) : Properties P E :=
  if (s.opposite p).isString then s.putOpposite p .null else s

/-- `-setOpposite:`, sent to what may be `nil`; a string does not understand it.  There is no result
if the calls are nested more deeply than the fuel. -/
def setOpposite : ℕ → Properties P E → Ref P → Ref P → Option (Properties P E)
  | 0, _, _, _ => none
  | _ + 1, s, .null, _ => some s
  | _ + 1, _, .string _, _ => none
  | fuel + 1, s, .object self, opposite =>
    let s := s.withoutString self
    if opposite.isString then some (s.putOpposite self opposite)
    else if s.isSettingOpposite self ∨ opposite = s.opposite self ∨ opposite = .object self then
      some s
    else
      let oldOpposite := s.opposite self
      let s := (s.putSetting self true).putOpposite self opposite
      let s := s.setType self (s.ownerOf (s.opposite self))
      (setOpposite fuel s oldOpposite .null).bind fun s =>
        (setOpposite fuel s (s.opposite self) (.object self)).map fun s =>
          s.putSetting self false

end Properties

end Etoile.EtoileFoundation
