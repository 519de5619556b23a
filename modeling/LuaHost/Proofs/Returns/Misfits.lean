import LuaHost.Proofs.Returns.Typing
import Mathlib.Data.List.Basic

/-!
# LuaHost.Proofs.Returns.Misfits

What is reported when values are typed.

* `Shape.misfits`: the values that their slots do not accept, layer after layer, each named by its
  position in its layer. They depend on what is read of the values and on nothing else.
* `Shaped.misfits_build`: typing values reports these, in this order.
* `Shape.misfits_eq_nil`: nothing is reported where the shape lets every value through.
-/

namespace LuaHost

/-- The positions of one layer whose value the slot does not accept, in the order of the slots. -/
def slotMisfits (slots : List Category) (get : Nat → Value) : List Misfit :=
  slots.zipIdx.filterMap fun (slot, i) =>
    if slot.accepts (get i) then none else some ⟨i, slot, (get i).kind⟩

def Shape.misfits : Shape → (Nat → Value) → List Misfit
  | .untyped, _ => []
  | .fixed slots, get => slotMisfits slots get
  | .continued slots tail, get =>
    slotMisfits slots get ++ tail.misfits fun i => get (layerArity + i)

theorem slotMisfits_congr {slots : List Category} {get get' : Nat → Value}
    (h : ∀ i, i < slots.length → get i = get' i) : slotMisfits slots get = slotMisfits slots get' := by
  apply List.filterMap_congr
  rintro ⟨slot, i⟩ hmem
  have hslot := List.mk_mem_zipIdx_iff_getElem?.1 hmem
  simp only [h i (List.getElem?_eq_some_iff.1 hslot).1]

theorem Category.accepts_nil (slot : Category) : slot.accepts .nil = true := by
  simp [accepts, Value.isNil]

theorem slotMisfits_eq_nil {slots : List Category} {get : Nat → Value}
    (h : ∀ i, i < slots.length → get i ≠ .nil → admitted slots i (get i) = true) :
    slotMisfits slots get = [] := by
  apply List.filterMap_eq_nil_iff.2
  rintro ⟨slot, i⟩ hmem
  have hslot := List.mk_mem_zipIdx_iff_getElem?.1 hmem
  apply if_pos
  by_cases hnil : get i = .nil
  · rw [hnil]
    exact slot.accepts_nil
  · rw [← admitted_some hslot]
    exact h i (List.getElem?_eq_some_iff.1 hslot).1 hnil

theorem Shape.misfits_eq_nil {shape : Shape} (hshape : shape.isSupported = true)
    {get : Nat → Value} (h : shape.Fits get) : shape.misfits get = [] := by
  induction shape generalizing get with
  | untyped => rfl
  | fixed slots => exact slotMisfits_eq_nil fun i _ hne => h i hne
  | continued slots tail ih =>
    simp only [isSupported, Bool.and_eq_true, decide_eq_true_eq] at hshape
    obtain ⟨harity, htail⟩ := hshape
    have hhead : slotMisfits slots get = [] := by
      refine slotMisfits_eq_nil fun i hi hne => ?_
      have hadmits := h i hne
      rwa [admits, if_pos (harity ▸ hi)] at hadmits
    have hrest : tail.misfits (fun i => get (layerArity + i)) = [] := by
      refine ih htail fun i hne => ?_
      have hadmits := h (layerArity + i) hne
      rwa [admits, if_neg (by omega), Nat.add_sub_cancel_left] at hadmits
    rw [misfits, hhead, hrest]
    rfl

namespace Returns

theorem misfits_conform (r : Returns) (slots : List Category) (ledger : Ledger) :
    ((r.conform slots).run ledger).2.misfits = ledger.misfits ++ slotMisfits slots r.get := by
  have hhead : (r.take slots.length).misfits slots = slotMisfits slots r.get := by
    refine slotMisfits_congr fun i hi => ?_
    rw [get_take, if_pos hi]
  rw [← hhead]
  unfold conform
  cases hm : (r.take slots.length).misfits slots with
  | nil =>
    simp only [hm, List.append_nil]
    rfl
  | cons m ms =>
    simp only [hm]
    rfl

end Returns

namespace Shaped

/-- Typing values reports those that do not fit, each layer after the layers before it. -/
theorem misfits_build (shape : Shape) (values : Returns) (ledger : Ledger) :
    ((build shape values).run ledger).2.misfits = ledger.misfits ++ shape.misfits values.get := by
  induction shape generalizing values ledger with
  | untyped => exact (List.append_nil _).symm
  | fixed slots => exact values.misfits_conform slots ledger
  | continued slots tail ih =>
    have hrun : ((build (.continued slots tail) values).run ledger).2 =
        ((build tail (values.drop layerArity)).run ((values.conform slots).run ledger).2).2 := rfl
    rw [hrun, ih, values.misfits_conform, List.append_assoc, Shape.misfits,
      funext (values.get_drop layerArity)]

end Shaped
end LuaHost
