import LuaHost.Returns.Shaped

/-!
# LuaHost.Returns.Typed

The family of statically typed returns: untyped ones, one to seven typed slots, or seven typed slots
followed by another member of the family.

- `Layout`: the member types, and `Layout.shape`, the shape each of them has at run time.
- `Typed`: their objects. Each layer owns one window and converts on read.
- `Typed.ofReturns`, `Typed.adjust`: typing values, where what does not fit reads as nil.
- `Typed.widen`, `Typed.narrow` and their kin: conversions between neighbouring member types.
- `Shaped.adjust`, `Shaped.downcast?`: from shaped returns to any member type, and to that of their shape.
-/

namespace LuaHost

/-! ## Member types -/

inductive Layout where
  | untyped
  | fixed (slots : List Category) (arity : 1 ≤ slots.length ∧ slots.length ≤ layerArity)
  | continued (slots : List Category) (arity : slots.length = layerArity) (rest : Layout)
deriving DecidableEq

namespace Layout

def shape : Layout → Shape
  | .untyped => .untyped
  | .fixed slots _ => .fixed slots
  | .continued slots _ rest => .continued slots rest.shape

def slots : Layout → List Category
  | .untyped => []
  | .fixed slots _ => slots
  | .continued slots _ _ => slots

end Layout

/-! ## Objects -/

inductive Typed : Layout → Type where
  | untyped (view : Returns) : Typed .untyped
  | fixed {slots : List Category} {arity : 1 ≤ slots.length ∧ slots.length ≤ layerArity}
      (view : Returns) : Typed (.fixed slots arity)
  | continued {slots : List Category} {arity : slots.length = layerArity} {rest : Layout}
      (head : Returns) (tail : Typed rest) : Typed (.continued slots arity rest)

namespace Typed

variable {T : Layout}

def head : Typed T → Returns
  | .untyped view => view
  | .fixed view => view
  | .continued head _ => head

/-! ## Reading -/

def get {T : Layout} : Typed T → Nat → Value
  | .untyped view, i => view.get i
  | .fixed view, i => view.get i
  | .continued head tail, i =>
    if i < layerArity then head.get i else tail.get (i - layerArity)

/-- The first layer counts in full when anything follows it. -/
def length {T : Layout} : Typed T → Nat
  | .untyped view => view.length
  | .fixed view => view.length
  | .continued head tail =>
    match tail.length with
    | 0 => head.length
    | n + 1 => layerArity + (n + 1)

/-- The content of a slot of the first layer; none for nil. -/
def slot (x : Typed T) (k : Fin T.slots.length) : Option (T.slots.get k).Carrier :=
  (T.slots.get k).ofValue? (x.head.get k)

def toReturns {T : Layout} : Typed T → Build Returns
  | .untyped view => pure view
  | .fixed view => pure view
  | .continued head tail => do
    let tail ← tail.toReturns
    head.join layerArity tail

def rest {slots : List Category} {arity : slots.length = layerArity} {R : Layout} :
    Typed (.continued slots arity R) → Typed R
  | .continued _ tail => tail

/-- Untyped returns have their own equality, and types with a continuation have none. -/
def equals {slots : List Category} {arity : 1 ≤ slots.length ∧ slots.length ≤ layerArity}
    (x y : Typed (.fixed slots arity)) : Bool :=
  x.head.equals y.head

def debugText {T : Layout} : Typed T → String
  | .untyped view => view.debugText
  | @Typed.fixed slots _ view =>
    "MultiReturns" ++ toString slots.length ++ "(" ++ view.debugText ++ ")"
  | .continued head tail =>
    "MultiReturns8 \x7b head: " ++ head.debugText ++ ", rest: " ++ tail.debugText ++ " \x7d"

/-! ## Building -/

/-- The values typed by a layout; each that does not fit its slot is reported and reads as nil. -/
def ofReturns : (T : Layout) → Returns → Build (Typed T)
  | .untyped, values => pure (.untyped values)
  | .fixed slots _, values => do
    let view ← values.conform slots
    pure (.fixed view)
  | .continued slots _ R, values => do
    let head ← values.conform slots
    let tail ← ofReturns R (values.drop layerArity)
    pure (.continued head tail)

def ofList (T : Layout) (values : List Value) : Build (Typed T) := do
  let source ← Returns.ofList values
  ofReturns T source

/-- A choice of content for each of the slots. -/
abbrev Contents (slots : List Category) := (k : Fin slots.length) → Option (slots.get k).Carrier

def ofContents {slots : List Category} (contents : Contents slots) : Build Returns :=
  Returns.ofList <| List.ofFn fun k =>
    match contents k with
    | some content => (slots.get k).toValue content
    | none => .nil

def ofSlots {slots : List Category} {arity : 1 ≤ slots.length ∧ slots.length ≤ layerArity}
    (contents : Contents slots) : Build (Typed (.fixed slots arity)) := do
  let view ← ofContents contents
  pure (.fixed view)

def ofSlotsAnd {slots : List Category} {arity : slots.length = layerArity} {R : Layout}
    (contents : Contents slots) (rest : Typed R) : Build (Typed (.continued slots arity R)) := do
  let head ← ofContents contents
  pure (.continued head rest)

/-- As `ofSlotsAnd`, with the rest typed from plain values. -/
def ofSlotsAndList {slots : List Category} {arity : slots.length = layerArity} {R : Layout}
    (contents : Contents slots) (rest : List Value) :
    Build (Typed (.continued slots arity R)) := do
  let rest ← ofList R rest
  ofSlotsAnd contents rest

def empty {slots : List Category} {arity : 1 ≤ slots.length ∧ slots.length ≤ layerArity} :
    Build (Typed (.fixed slots arity)) := do
  let view ← Returns.empty
  pure (.fixed view)

/-! ## Conversions -/

def adjust (x : Typed T) (U : Layout) : Build (Typed U) := do
  let values ← x.toReturns
  ofReturns U values

def widen {slots : List Category} {arity : 1 ≤ slots.length ∧ slots.length ≤ layerArity}
    (x : Typed (.fixed slots arity)) (slot : Category)
    (room : 1 ≤ (slots ++ [slot]).length ∧ (slots ++ [slot]).length ≤ layerArity) :
    Typed (.fixed (slots ++ [slot]) room) :=
  .fixed x.head

/-- As many more slots as make seven, and an empty rest of any type. -/
def extend {slots : List Category} {arity : 1 ≤ slots.length ∧ slots.length ≤ layerArity}
    (x : Typed (.fixed slots arity)) (more : List Category)
    (full : (slots ++ more).length = layerArity) (R : Layout) :
    Build (Typed (.continued (slots ++ more) full R)) := do
  let tail ← ofList R []
  pure (.continued x.head tail)

def narrow {slots : List Category} {slot : Category}
    {room : 1 ≤ (slots ++ [slot]).length ∧ (slots ++ [slot]).length ≤ layerArity}
    (x : Typed (.fixed (slots ++ [slot]) room))
    (arity : 1 ≤ slots.length ∧ slots.length ≤ layerArity) : Typed (.fixed slots arity) :=
  .fixed (x.head.take slots.length)

def narrowRest {slots : List Category} {full : slots.length = layerArity} {R : Layout}
    (x : Typed (.continued slots full R)) :
    Typed (.fixed slots ⟨by rw [full]; decide, Nat.le_of_eq full⟩) :=
  .fixed x.head

end Typed

/-! ## From shapes to types -/

def Shaped.adjust (x : Shaped) (U : Layout) : Build (Typed U) := do
  let values ← x.toReturns
  Typed.ofReturns U values

/-- The member of the family whose shape this is; none for a layout of another shape. -/
def Shaped.downcast? (x : Shaped) (T : Layout) : Build (Option (Typed T)) :=
  if T.shape = x.shape then do
    let values ← x.toReturns
    let typed ← Typed.ofReturns T values
    pure (some typed)
  else
    pure none

end LuaHost
