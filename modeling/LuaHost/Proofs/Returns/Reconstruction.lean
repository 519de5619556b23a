import LuaHost.Proofs.Returns.Erasure
import LuaHost.Proofs.Returns.Misfits

/-!
# LuaHost.Proofs.Returns.Reconstruction

Values typed by a member type, and the same values typed at run time by the shape of that type.

* `Shaped.Agrees`: a shaped and a typed object that count and read alike in every layer.
* `Shaped.agrees_build`: objects built from windows that read alike agree, wherever the windows lie.
* `Shaped.exists_downcast`: taken down to the type of its shape, a built object reads as before.
* `Shaped.reconstructions_agree`: the two ways of typing values agree in what is read and in what is
  reported, and only the type of the shape can be taken down to.
-/

namespace LuaHost

namespace Shaped

/-! ## Agreement -/

structure ReadsAs (x : Shaped) {T : Layout} (y : Typed T) : Prop where
  length : x.length = y.length
  get : ∀ i, x.get i = y.get i

/-- The two objects read alike, and so do their continuations, layer by layer. -/
def Agrees : {T : Layout} → Shaped → Typed T → Prop
  | .untyped, x, y => x.ReadsAs y ∧ x.rest? = none
  | .fixed _ _, x, y => x.ReadsAs y ∧ x.rest? = none
  | .continued _ _ _, x, y => x.ReadsAs y ∧ ∃ rest, x.rest? = some rest ∧ rest.Agrees y.rest

/-- What is read of a sound object settles its length as well. -/
theorem readsAs_of_get {x : Shaped} {T : Layout} {y : Typed T} (hx : x.Sound) (hy : y.erase.Sound)
    (h : ∀ i, x.get i = y.get i) : x.ReadsAs y := by
  refine ⟨?_, h⟩
  rw [← y.length_erase]
  have hget : x.get = y.erase.get := funext fun i => (h i).trans (y.get_erase i).symm
  exact (hget ▸ hx.trimmed).length_unique hy.trimmed

theorem get_ofReturns (T : Layout) (values : Returns) (ledger : Ledger) (i : Nat) :
    ((Typed.ofReturns T values).run ledger).1.get i =
      ((build T.shape values).run ledger).1.get i := by
  rw [← Typed.get_erase, Typed.erase_ofReturns]

theorem readsAs_build (T : Layout) {r s : Returns} (hr : r.WellFormed) (hs : s.WellFormed)
    (h : ∀ i, r.get i = s.get i) (ledger ledger' : Ledger) :
    ((build T.shape r).run ledger).1.ReadsAs ((Typed.ofReturns T s).run ledger').1 := by
  refine readsAs_of_get (sound_build T.isSupported_shape hr ledger)
    (Typed.sound_ofReturns T hs ledger') fun i => ?_
  rw [get_ofReturns, get_build, get_build, h]

theorem agrees_build (T : Layout) {r s : Returns} (hr : r.WellFormed) (hs : s.WellFormed)
    (h : ∀ i, r.get i = s.get i) (ledger ledger' : Ledger) :
    ((build T.shape r).run ledger).1.Agrees ((Typed.ofReturns T s).run ledger').1 := by
  induction T generalizing r s ledger ledger' with
  | untyped => exact ⟨readsAs_build .untyped hr hs h ledger ledger', rfl⟩
  | fixed slots arity => exact ⟨readsAs_build (.fixed slots arity) hr hs h ledger ledger', rfl⟩
  | continued slots arity R ih =>
    have hread := readsAs_build (.continued slots arity R) hr hs h ledger ledger'
    have hdrop : ∀ i, (r.drop layerArity).get i = (s.drop layerArity).get i := by
      intro i
      rw [Returns.get_drop, Returns.get_drop, h]
    exact ⟨hread, _, rfl, ih (hr.drop layerArity) (hs.drop layerArity) hdrop _ _⟩

theorem misfits_ofReturns (T : Layout) (values : Returns) (ledger : Ledger) :
    ((Typed.ofReturns T values).run ledger).2.misfits =
      ledger.misfits ++ T.shape.misfits values.get := by
  rw [← misfits_build, Typed.run_build_shape]

/-! ## Taking down to a type -/

theorem misfits_join (head : Returns) (n : Nat) (tail : Returns) (ledger : Ledger) :
    ((head.join n tail).run ledger).2.misfits = ledger.misfits := by
  unfold Returns.join
  simp only []
  split
  · rfl
  · split
    · rfl
    · rfl

theorem misfits_toReturns (x : Shaped) (ledger : Ledger) :
    (x.toReturns.run ledger).2.misfits = ledger.misfits := by
  induction x generalizing ledger with
  | untyped view => rfl
  | fixed slots view => rfl
  | continued slots head rest ih => rw [toReturns_continued, misfits_join, ih]

theorem downcast_of_ne {x : Shaped} {T : Layout} (h : T.shape ≠ x.shape) (ledger : Ledger) :
    (x.downcast? T).run ledger = (none, ledger) := by
  rw [downcast?, if_neg h]
  rfl

/-- An object that fits its shape can be taken down to the type of the shape. It is typed anew, but
reads as before and has nothing to report. -/
theorem exists_downcast {x : Shaped} (hx : x.Sound) {T : Layout} (hshape : T.shape = x.shape)
    (hfits : T.shape.Fits x.get) (ledger : Ledger) :
    ∃ y after, (x.downcast? T).run ledger = (some y, after) ∧ x.ReadsAs y ∧
      after.misfits = ledger.misfits := by
  let rejoined := x.toReturns.run ledger
  have hwf : rejoined.1.WellFormed := hx.wellFormed_toReturns ledger
  have hget : rejoined.1.get = x.get := funext (hx.get_toReturns ledger)
  refine ⟨((Typed.ofReturns T rejoined.1).run rejoined.2).1,
    ((Typed.ofReturns T rejoined.1).run rejoined.2).2, ?_, ?_, ?_⟩
  · rw [downcast?, if_pos hshape]
    rfl
  · refine readsAs_of_get hx (Typed.sound_ofReturns T hwf rejoined.2) fun i => ?_
    rw [get_ofReturns, get_build_of_fits (hget ▸ hfits), hget]
  · rw [misfits_ofReturns, hget, Shape.misfits_eq_nil T.isSupported_shape hfits, List.append_nil]
    exact x.misfits_toReturns ledger

/-! ## The two reconstructions -/

/-- **The two ways of typing values agree.** The shape of a member type is always supported. Values
from any offset on, also past the end, are typed by the shape at run time as they are by the type
itself: in every layer the two objects count and read alike, and the values that do not fit their
slots are reported alike, in the same order, after whatever was reported before. The object made at
run time can be taken down to the type of its shape, where it reads as before, and to no type of
another shape. -/
theorem reconstructions_agree (T : Layout) (values : List Value) (offset : Nat)
    (ledger ledger' : Ledger) :
    T.shape.isSupported = true ∧
    ∃ dynamic, create T.shape offset values = .ok dynamic ∧
      let tail := values.drop offset
      let x := (dynamic.run ledger).1
      let static := (Typed.ofList T tail).run ledger'
      let misfits := T.shape.misfits fun i => Value.ofOption tail[i]?
      x.shape = T.shape ∧ x.Agrees static.1 ∧
      (dynamic.run ledger).2.misfits = ledger.misfits ++ misfits ∧
      static.2.misfits = ledger'.misfits ++ misfits ∧
      (∀ later, ∃ y after, (x.downcast? T).run later = (some y, after) ∧ x.ReadsAs y ∧
        after.misfits = later.misfits) ∧
      ∀ U : Layout, U.shape ≠ T.shape → ∀ later, (x.downcast? U).run later = (none, later) := by
  obtain ⟨dynamic, hcreate, hrun⟩ := exists_create T.isSupported_shape offset values
  refine ⟨T.isSupported_shape, dynamic, hcreate, ?_⟩
  rw [hrun]
  intro tail x static misfits
  let source := (Returns.ofList values).run ledger
  let source' := (Returns.ofList tail).run ledger'
  have hwf : (source.1.drop offset).WellFormed := (Returns.wellFormed_ofList values ledger).drop offset
  have hwf' : source'.1.WellFormed := Returns.wellFormed_ofList tail ledger'
  have hget : (source.1.drop offset).get = fun i => Value.ofOption tail[i]? :=
    funext (Returns.get_drop_ofList values offset ledger)
  have hget' : source'.1.get = fun i => Value.ofOption tail[i]? :=
    funext (Returns.get_ofList tail ledger')
  have hshape : x.shape = T.shape := shape_build T.shape _ source.2
  have hsound : x.Sound := sound_build T.isSupported_shape hwf source.2
  refine ⟨hshape, ?_, ?_, ?_, ?_, ?_⟩
  · refine agrees_build T hwf hwf' (fun i => ?_) source.2 source'.2
    rw [hget, hget']
  · rw [misfits_build, hget]
    rfl
  · show ((Typed.ofReturns T source'.1).run source'.2).2.misfits = _
    rw [misfits_ofReturns, hget']
    rfl
  · exact exists_downcast hsound hshape.symm (fits_build T.shape _ source.2)
  · intro U hU
    exact downcast_of_ne (hshape.symm ▸ hU)

end Shaped
end LuaHost
