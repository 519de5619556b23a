import LuaHost.Returns.Category
import LuaHost.Text.Separated

/-!
# LuaHost.Returns.Shape

Shapes: descriptions, chosen at run time, of how the values of a call are typed. A layer has at most
seven typed slots; more values are typed by a continuation.

- `Shape.isSupported`: whether a member type with the shape exists.
- `Shape.infer`, `Shape.inferFrom`: the best-fit shape of a list of values, or of those from an offset on.
- `Shape.name`: the text by which a shape is named.
-/

namespace LuaHost

/-- The number of typed slots in one layer; positions past it live in a continuation. -/
def layerArity : Nat := 7

inductive Shape where
  | untyped
  | fixed (slots : List Category)
  | continued (slots : List Category) (tail : Shape)
deriving DecidableEq, Repr

namespace Shape

/-- A fixed shape has one to seven slots, a continued one exactly seven in front of its tail. -/
def isSupported : Shape → Bool
  | .untyped => true
  | .fixed slots => decide (1 ≤ slots.length ∧ slots.length ≤ layerArity)
  | .continued slots tail => decide (slots.length = layerArity) && tail.isSupported

def slots : Shape → List Category
  | .untyped => []
  | .fixed slots => slots
  | .continued slots _ => slots

def continuation? : Shape → Option Shape
  | .continued _ tail => some tail
  | _ => none

def slotNames (slots : List Category) : String :=
  separated ", " (slots.map Category.name)

def name : Shape → String
  | .untyped => "MultiReturns"
  | .fixed slots => "MultiReturns" ++ toString slots.length ++ "<" ++ slotNames slots ++ ">"
  | .continued slots tail => "MultiReturns8<" ++ slotNames slots ++ ", " ++ tail.name ++ ">"

/-- Slots of the values' own categories, seven to a layer; untyped only for no values at all. -/
def infer (values : List Value) : Shape :=
  if values.isEmpty then
    .untyped
  else if values.length ≤ layerArity then
    .fixed (values.map Category.of)
  else
    .continued ((values.take layerArity).map Category.of) (infer (values.drop layerArity))
termination_by values.length
decreasing_by
  simp only [List.length_drop]
  have : layerArity = 7 := rfl
  omega

/-- The best-fit shape of the values from an offset on. Each layer is read off the whole list, seven
positions past the layer before it; past the end there are no values. -/
def inferFrom (offset : Nat) (values : List Value) : Shape :=
  let tail := values.drop offset
  if tail.isEmpty then
    .untyped
  else if tail.length ≤ layerArity then
    .fixed (tail.map Category.of)
  else
    .continued ((tail.take layerArity).map Category.of) (inferFrom (offset + layerArity) values)
termination_by values.length - offset
decreasing_by
  have harity : layerArity = 7 := rfl
  have hlength : tail.length = values.length - offset := List.length_drop ..
  omega

end Shape
end LuaHost
