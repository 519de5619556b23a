import LuaHost.Error
import LuaHost.Returns.Basic

/-!
# LuaHost.Returns.Shaped

Returns whose typing was chosen at run time by a shape.

- `Shaped.create`: values under a given shape; only an unsupported shape is an error.
- `Shaped.createInferred`: values under their own best-fit shape.
-/

namespace LuaHost

/-- One constructor for each form of shape; a continued one holds its first layer and the rest. -/
inductive Shaped where
  | untyped (view : Returns)
  | fixed (slots : List Category) (view : Returns)
  | continued (slots : List Category) (head : Returns) (rest : Shaped)
deriving DecidableEq, Inhabited, Repr

namespace Shaped

def shape : Shaped → Shape
  | .untyped _ => .untyped
  | .fixed slots _ => .fixed slots
  | .continued slots _ rest => .continued slots rest.shape

/-! ## Building -/

def build : Shape → Returns → Build Shaped
  | .untyped, values => pure (.untyped values)
  | .fixed slots, values => do
    let view ← values.conform slots
    pure (.fixed slots view)
  | .continued slots tail, values => do
    let head ← values.conform slots
    let rest ← build tail (values.drop layerArity)
    pure (.continued slots head rest)

/-- The values from an offset on, under a shape. -/
def create (shape : Shape) (offset : Nat) (values : List Value) : Except Error (Build Shaped) :=
  if shape.isSupported then
    .ok do
      let source ← Returns.ofList values
      build shape (source.drop offset)
  else
    .error (.unsupportedShape shape)

/-- The values under the shape inferred from them, which is always supported. -/
def createInferred (values : List Value) : Build Shaped := do
  let source ← Returns.ofList values
  build (Shape.infer values) source

/-! ## Reading -/

def rest? : Shaped → Option Shaped
  | .continued _ _ rest => some rest
  | _ => none

/-- Positions past the first layer are read in the continuation. -/
def get : Shaped → Nat → Value
  | .untyped view, i => view.get i
  | .fixed _ view, i => view.get i
  | .continued _ head rest, i =>
    if i < layerArity then head.get i else rest.get (i - layerArity)

/-- The first layer counts in full when anything follows it. -/
def length : Shaped → Nat
  | .untyped view => view.length
  | .fixed _ view => view.length
  | .continued _ head rest =>
    match rest.length with
    | 0 => head.length
    | n + 1 => layerArity + (n + 1)

def toReturns : Shaped → Build Returns
  | .untyped view => pure view
  | .fixed _ view => pure view
  | .continued _ head rest => do
    let tail ← rest.toReturns
    head.join layerArity tail

def equals : Shaped → Shaped → Bool
  | .untyped r, .untyped s => r.equals s
  | .fixed slots r, .fixed slots' s => slots == slots' && r.equals s
  | .continued slots r rest, .continued slots' s rest' =>
    slots == slots' && r.equals s && rest.equals rest'
  | _, _ => false

end Shaped
end LuaHost
