import LuaHost.Proofs.Returns.Inference
import LuaHost.Proofs.Returns.Reconstruction

/-!
# LuaHost.Proofs.Returns.Adjustment

Adjusting an object of the family to another of its types.

* `Shape.filter`: reading through a shape. Each position keeps its value or reads as nil, whatever the
  other positions hold; hence two shapes can be read through in either order (`Shape.filter_comm`),
  and a shape changes nothing of what fits it (`Shape.filter_of_fits`).
* `Shape.admits_of_slot`, `Shape.admits_past`: what a shape admits, in terms of the slots of all its
  layers and of how it ends.
* `Built.get_adjust`, `Built.misfits_adjust`: an adjusted object reads as the original through the
  shape of its type. The layers in between leave no trace.
* `Built.adjust_filters`: adjustment is a pointwise filter.
-/

namespace LuaHost

/-! ## Reading through a shape -/

namespace Shape

def filter (shape : Shape) (get : Nat → Value) (i : Nat) : Value :=
  if shape.admits i (get i) then get i else .nil

theorem filter_of_admits {shape : Shape} {get : Nat → Value} {i : Nat}
    (h : shape.admits i (get i) = true) : shape.filter get i = get i :=
  if_pos h

theorem filter_of_not_admits {shape : Shape} {get : Nat → Value} {i : Nat}
    (h : shape.admits i (get i) = false) : shape.filter get i = .nil := by
  rw [filter, h]
  rfl

theorem filter_of_nil (shape : Shape) {get : Nat → Value} {i : Nat} (h : get i = .nil) :
    shape.filter get i = .nil := by
  rw [filter, h]
  split <;> rfl

theorem filter_of_fits {shape : Shape} {get : Nat → Value} (h : shape.Fits get) :
    shape.filter get = get := by
  funext i
  by_cases hnil : get i = .nil
  · rw [filter_of_nil shape hnil, hnil]
  · exact filter_of_admits (h i hnil)

theorem fits_filter (shape : Shape) (get : Nat → Value) : shape.Fits (shape.filter get) := by
  intro i hne
  cases hadmits : shape.admits i (get i) with
  | true => rwa [filter_of_admits hadmits]
  | false => exact absurd (filter_of_not_admits hadmits) hne

/-- A value is kept where both shapes admit it; else one of them leaves nil, which the other keeps. -/
theorem filter_filter (shape shape' : Shape) (get : Nat → Value) (i : Nat) :
    shape.filter (shape'.filter get) i =
      if shape'.admits i (get i) && shape.admits i (get i) then get i else .nil := by
  cases h : shape'.admits i (get i) with
  | false =>
    rw [filter_of_nil shape (filter_of_not_admits h)]
    rfl
  | true =>
    have hkept : shape'.filter get i = get i := filter_of_admits h
    rw [filter, hkept, Bool.true_and]

theorem filter_comm (shape shape' : Shape) (get : Nat → Value) :
    shape.filter (shape'.filter get) = shape'.filter (shape.filter get) := by
  funext i
  rw [filter_filter, filter_filter, Bool.and_comm]

/-! ## What a shape admits -/

/-- Whether the last layer is an untyped one, which holds any number of values. -/
def isOpen : Shape → Bool
  | .untyped => true
  | .fixed _ => false
  | .continued _ tail => tail.isOpen

theorem admits_of_slot {shape : Shape} (hshape : shape.isSupported = true) {i : Nat}
    {slot : Category} (h : shape.allSlots[i]? = some slot) (v : Value) :
    shape.admits i v = slot.accepts v := by
  induction shape generalizing i with
  | untyped => cases h
  | fixed slots => exact admitted_some h
  | continued slots tail ih =>
    simp only [isSupported, Bool.and_eq_true, decide_eq_true_eq] at hshape
    obtain ⟨harity, htail⟩ := hshape
    rw [allSlots] at h
    rw [admits]
    split
    · rename_i hi
      rw [List.getElem?_append_left (harity ▸ hi)] at h
      exact admitted_some h
    · rename_i hi
      rw [List.getElem?_append_right (by omega), harity] at h
      exact ih htail h

theorem admits_past {shape : Shape} (hshape : shape.isSupported = true) {i : Nat}
    (h : shape.allSlots.length ≤ i) (v : Value) : shape.admits i v = shape.isOpen := by
  induction shape generalizing i with
  | untyped => rfl
  | fixed slots => exact admitted_none (List.getElem?_eq_none h)
  | continued slots tail ih =>
    simp only [isSupported, Bool.and_eq_true, decide_eq_true_eq] at hshape
    obtain ⟨harity, htail⟩ := hshape
    rw [allSlots, List.length_append, harity] at h
    rw [admits, if_neg (by omega)]
    exact ih htail (by omega)

end Shape

/-! ## Adjusting -/

/-- Adjustment to a type, for each kind of object. -/
def Member.adjust (m : Member) (T : Layout) : Build (Typed T) :=
  match m with
  | .returns r => Typed.ofReturns T r
  | .typed x => x.adjust T
  | .shaped x => x.adjust T

/-- Adjusting types what is rejoined from the layers. -/
theorem Member.run_adjust (m : Member) (T : Layout) (ledger : Ledger) :
    (m.adjust T).run ledger =
      (Typed.ofReturns T (m.toReturns.run ledger).1).run (m.toReturns.run ledger).2 := by
  cases m with
  | returns r => rfl
  | typed x => rfl
  | shaped x => rfl

namespace Built

variable {m : Member}

theorem get_toReturns (h : Built m) (ledger : Ledger) : (m.toReturns.run ledger).1.get = m.get := by
  funext i
  rw [← m.toReturns_erase, h.sound.get_toReturns, m.get_erase]

protected theorem adjusted (h : Built m) (T : Layout) (ledger : Ledger) :
    Built (.typed ((m.adjust T).run ledger).1) := by
  rw [m.run_adjust]
  exact .ofReturns T _ (.toReturns ledger h)

theorem get_adjust (h : Built m) (T : Layout) (ledger : Ledger) :
    ((m.adjust T).run ledger).1.get = T.shape.filter m.get := by
  funext i
  rw [m.run_adjust, Shaped.get_ofReturns, Shaped.get_build, h.get_toReturns]
  rfl

/-- Only typing reports: rejoining the layers does not. -/
theorem misfits_adjust (h : Built m) (T : Layout) (ledger : Ledger) :
    ((m.adjust T).run ledger).2.misfits = ledger.misfits ++ T.shape.misfits m.get := by
  rw [m.run_adjust, Shaped.misfits_ofReturns, h.get_toReturns, ← m.toReturns_erase,
    m.erase.misfits_toReturns]

/-- **Adjustment is a pointwise filter.** Adjusted to a type, an object that was built in any way reads
at each slot of the type, counted through all its layers, as before where the slot accepts the value
and as nil where it does not. Behind the last slot it reads as before if the type ends in an untyped
rest, and as nil if not. Adjusting it to the type once more changes no position and reports nothing.
Adjusting to one type and then to another reads as adjusting to them in the other order. -/
theorem adjust_filters (h : Built m) (T : Layout) (ledger : Ledger) :
    let x := ((m.adjust T).run ledger).1
    (∀ i slot, T.shape.allSlots[i]? = some slot →
      x.get i = if slot.accepts (m.get i) then m.get i else .nil) ∧
    (∀ i, T.shape.allSlots.length ≤ i → x.get i = if T.shape.isOpen then m.get i else .nil) ∧
    (∀ later, let again := (x.adjust T).run later
      (∀ i, again.1.get i = x.get i) ∧ again.2.misfits = later.misfits) ∧
    ∀ (U : Layout) (later ledger' later' : Ledger), let y := ((m.adjust U).run ledger').1
      ∀ i, ((x.adjust U).run later).1.get i = ((y.adjust T).run later').1.get i := by
  intro x
  have hx : Built (.typed x) := h.adjusted T ledger
  have hget : x.get = T.shape.filter m.get := h.get_adjust T ledger
  have hfits : T.shape.Fits x.get := hget ▸ T.shape.fits_filter m.get
  refine ⟨?_, ?_, ?_, ?_⟩
  · intro i slot hslot
    rw [hget, Shape.filter, Shape.admits_of_slot T.isSupported_shape hslot]
  · intro i hi
    rw [hget, Shape.filter, Shape.admits_past T.isSupported_shape hi]
  · intro later again
    have hagain : again.1.get = T.shape.filter x.get := hx.get_adjust T later
    have hmisfits : again.2.misfits = later.misfits ++ T.shape.misfits x.get :=
      hx.misfits_adjust T later
    refine ⟨fun i => ?_, ?_⟩
    · rw [hagain, Shape.filter_of_fits hfits]
    · rw [hmisfits, Shape.misfits_eq_nil T.isSupported_shape hfits, List.append_nil]
  · intro U later ledger' later' y i
    have hy : Built (.typed y) := h.adjusted U ledger'
    have hget' : y.get = U.shape.filter m.get := h.get_adjust U ledger'
    have hfirst : ((x.adjust U).run later).1.get = U.shape.filter x.get := hx.get_adjust U later
    have hsecond : ((y.adjust T).run later').1.get = T.shape.filter y.get := hy.get_adjust T later'
    rw [hfirst, hsecond, hget, hget', Shape.filter_comm]

end Built

def nineBooleans : Layout :=
  .continued (List.replicate 7 .boolean) rfl
    (.fixed (List.replicate 2 .boolean) ⟨Nat.le_succ 1, by decide⟩)

/-- The string in the ninth position does not fit its slot, and there is no tenth slot. -/
theorem adjust_filters_sparse :
    Built sparseMember ∧
    let x := ((sparseMember.adjust nineBooleans).run {}).1
    sparseMember.get 8 = .string "last" ∧ x.get 8 = .nil ∧ x.get 7 = .boolean false ∧
    (∀ i, 9 ≤ i → x.get i = .nil) ∧ ((x.adjust nineBooleans).run {}).2.misfits = [] ∧
    let y := ((sparseMember.adjust openLayout).run {}).1
    ∀ i, ((x.adjust openLayout).run {}).1.get i = ((y.adjust nineBooleans).run {}).1.get i := by
  have hbuilt : Built sparseMember := .ofTypedList openLayout _ {}
  obtain ⟨hslots, hpast, hagain, hswap⟩ := hbuilt.adjust_filters nineBooleans {}
  refine ⟨hbuilt, by decide, ?_, ?_, hpast, (hagain {}).2, hswap openLayout {} {} {}⟩
  · exact (hslots 8 .boolean rfl).trans (by decide)
  · exact (hslots 7 .boolean rfl).trans (by decide)

end LuaHost
