import LuaHost.Proofs.Returns.Typing
import LuaHost.Returns.Typed

/-!
# LuaHost.Proofs.Returns.Erasure

The static family is the dynamic one with its shape in the type. `Typed.erase` forgets the type; it
commutes with reading, rejoining and building, so that what holds of shaped objects holds of typed ones.
-/

namespace LuaHost

theorem Layout.isSupported_shape (T : Layout) : T.shape.isSupported = true := by
  induction T with
  | untyped => rfl
  | fixed slots arity => simp [Layout.shape, Shape.isSupported, arity]
  | continued slots arity R ih => simp [Layout.shape, Shape.isSupported, arity, ih]

namespace Typed

def erase {T : Layout} : Typed T → Shaped
  | .untyped view => .untyped view
  | @Typed.fixed slots _ view => .fixed slots view
  | @Typed.continued slots _ _ head tail => .continued slots head tail.erase

theorem get_erase {T : Layout} (x : Typed T) (i : Nat) : x.erase.get i = x.get i := by
  induction x generalizing i with
  | untyped view => rfl
  | fixed view => rfl
  | continued head tail ih => simp only [erase, Shaped.get, get, ih]

theorem length_erase {T : Layout} (x : Typed T) : x.erase.length = x.length := by
  induction x with
  | untyped view => rfl
  | fixed view => rfl
  | continued head tail ih =>
    cases hlen : tail.length with
    | zero => simp [erase, Shaped.length, length, ih, hlen]
    | succ n => simp [erase, Shaped.length, length, ih, hlen]

theorem toReturns_erase {T : Layout} (x : Typed T) : x.erase.toReturns = x.toReturns := by
  induction x with
  | untyped view => rfl
  | fixed view => rfl
  | continued head tail ih => simp only [erase, Shaped.toReturns, toReturns, ih]

theorem run_build_shape (T : Layout) (values : Returns) (ledger : Ledger) :
    (Shaped.build T.shape values).run ledger =
      (((ofReturns T values).run ledger).1.erase, ((ofReturns T values).run ledger).2) := by
  induction T generalizing values ledger with
  | untyped => rfl
  | fixed slots arity => rfl
  | continued slots arity R ih =>
    let after := ((values.conform slots).run ledger).2
    show (Shaped.continued slots ((values.conform slots).run ledger).1
        ((Shaped.build R.shape (values.drop layerArity)).run after).1,
      ((Shaped.build R.shape (values.drop layerArity)).run after).2) = _
    rw [ih]
    rfl

theorem erase_ofReturns (T : Layout) (values : Returns) (ledger : Ledger) :
    ((ofReturns T values).run ledger).1.erase = ((Shaped.build T.shape values).run ledger).1 := by
  rw [run_build_shape]

theorem sound_ofReturns (T : Layout) {values : Returns} (hvalues : values.WellFormed)
    (ledger : Ledger) : ((ofReturns T values).run ledger).1.erase.Sound := by
  rw [erase_ofReturns]
  exact Shaped.sound_build T.isSupported_shape hvalues ledger

end Typed
end LuaHost
