import LuaHost.Proofs.Returns.Built
import LuaHost.Proofs.Returns.Misfits

/-!
# LuaHost.Proofs.Returns.Inference

Values typed by their own best-fit shape.

* `Shape.inferFrom_eq`: inferring from an offset on is inferring from the values that are left there.
* `Shape.allSlots_infer`, `Shape.packed_infer`: the inferred slots are the values' own categories, in as
  few layers as they fit in.
* `Shape.fits_infer`: so the shape lets every value through.
* `Shaped.inferred_reads_back`: typing values by their inferred shape loses nothing and reports nothing.
-/

namespace LuaHost

namespace Shape

/-- The slots of every layer, the first layer's first. -/
def allSlots : Shape → List Category
  | .untyped => []
  | .fixed slots => slots
  | .continued slots tail => slots ++ tail.allSlots

/-- Each layer but the last has seven slots, and the last has one to seven. -/
def Packed : Shape → Prop
  | .untyped => False
  | .fixed slots => 1 ≤ slots.length ∧ slots.length ≤ layerArity
  | .continued slots tail => slots.length = layerArity ∧ tail.Packed

/-! ## The inferred shape -/

theorem inferFrom_eq (offset : Nat) (values : List Value) :
    inferFrom offset values = infer (values.drop offset) := by
  fun_induction inferFrom offset values with
  | case1 offset tail hempty =>
    rw [infer, if_pos hempty]
  | case2 offset tail hne hle =>
    rw [infer, if_neg hne, if_pos hle]
  | case3 offset tail hne hlong ih =>
    rw [infer, if_neg hne, if_neg hlong, ih, List.drop_drop]

theorem allSlots_infer (values : List Value) :
    (infer values).allSlots = values.map Category.of := by
  fun_induction infer values with
  | case1 values hempty =>
    rw [List.isEmpty_iff.1 hempty]
    rfl
  | case2 values hne hle => rfl
  | case3 values hne hlong ih =>
    rw [allSlots, ih, ← List.map_append, List.take_append_drop]

theorem packed_infer {values : List Value} (h : values ≠ []) : (infer values).Packed := by
  fun_induction infer values with
  | case1 values hempty => exact absurd (List.isEmpty_iff.1 hempty) h
  | case2 values hne hle =>
    refine ⟨?_, ?_⟩
    · rw [List.length_map]
      exact List.length_pos_iff.2 h
    · rwa [List.length_map]
  | case3 values hne hlong ih =>
    refine ⟨?_, ih ?_⟩
    · rw [List.length_map, List.length_take]
      omega
    · -- More than seven values leave some behind the first seven.
      intro hdrop
      exact hlong (List.drop_eq_nil_iff.1 hdrop)

end Shape

theorem Category.accepts_of (v : Value) : (of v).accepts v = true := by
  simp [accepts]

/-- A slot of a value's own category lets it through. -/
theorem admitted_map_of {values : List Value} {i : Nat} (h : Value.ofOption values[i]? ≠ .nil) :
    admitted (values.map Category.of) i (Value.ofOption values[i]?) = true := by
  cases hv : values[i]? with
  | none =>
    rw [hv] at h
    exact absurd rfl h
  | some v =>
    have hslot : (values.map Category.of)[i]? = some (Category.of v) := by
      rw [List.getElem?_map, hv]
      rfl
    rw [admitted_some hslot]
    exact Category.accepts_of v

theorem Shape.fits_infer (values : List Value) :
    (infer values).Fits fun i => Value.ofOption values[i]? := by
  fun_induction infer values with
  | case1 values hempty => exact fun _ _ => rfl
  | case2 values hne hle => exact fun _ => admitted_map_of
  | case3 values hne hlong ih =>
    intro i hnil
    show (if i < layerArity then admitted _ i _ else admits _ (i - layerArity) _) = true
    split
    · rename_i hi
      have hhead : values[i]? = (values.take layerArity)[i]? := (List.getElem?_take_of_lt hi).symm
      simp only [hhead] at hnil ⊢
      exact admitted_map_of hnil
    · rename_i hi
      have hrest : values[i]? = (values.drop layerArity)[i - layerArity]? := by
        rw [List.getElem?_drop, show layerArity + (i - layerArity) = i by omega]
      simp only [hrest] at hnil ⊢
      exact ih (i - layerArity) hnil

namespace Shaped

/-- Typed by their inferred shape, values are all read and none is reported. -/
theorem build_infer {values : List Value} {r : Returns} (hr : r.WellFormed)
    (hget : r.get = fun i => Value.ofOption values[i]?) (ledger : Ledger) :
    let built := (build (Shape.infer values) r).run ledger
    built.2.misfits = ledger.misfits ∧
      (∀ i, built.1.get i = Value.ofOption values[i]?) ∧
      Trimmed built.1.length fun i => Value.ofOption values[i]? := by
  intro built
  have hshape := Shape.isSupported_infer values
  have hfits : (Shape.infer values).Fits r.get := hget ▸ Shape.fits_infer values
  have hread : ∀ i, built.1.get i = Value.ofOption values[i]? := by
    intro i
    rw [get_build_of_fits hfits, hget]
  refine ⟨?_, hread, ?_⟩
  · rw [misfits_build, Shape.misfits_eq_nil hshape hfits, List.append_nil]
  · rw [← funext hread]
    exact (sound_build hshape hr ledger).trimmed

theorem exists_create_inferFrom (values : List Value) (offset : Nat) :
    let tail := values.drop offset
    let shape := Shape.inferFrom offset values
    ∃ typed, create shape offset values = .ok typed ∧ ∀ ledger,
      let (x, after) := typed.run ledger
      x.shape = shape ∧ after.misfits = ledger.misfits ∧
      (∀ i, x.get i = Value.ofOption tail[i]?) ∧
      Trimmed x.length fun i => Value.ofOption tail[i]? := by
  intro tail shape
  have hshape : shape = Shape.infer tail := Shape.inferFrom_eq offset values
  obtain ⟨typed, hcreate, hrun⟩ :=
    exists_create (hshape ▸ Shape.isSupported_infer tail) offset values
  refine ⟨typed, hcreate, fun ledger => ?_⟩
  let source := (Returns.ofList values).run ledger
  have hwf : (source.1.drop offset).WellFormed := (Returns.wellFormed_ofList values ledger).drop offset
  have hget : (source.1.drop offset).get = fun i => Value.ofOption tail[i]? :=
    funext (Returns.get_drop_ofList values offset ledger)
  rw [hrun, hshape]
  exact ⟨shape_build _ _ _, build_infer hwf hget source.2⟩

theorem get_createInferred (values : List Value) (ledger : Ledger) (i : Nat) :
    ((createInferred values).run ledger).1.get i = Value.ofOption values[i]? := by
  have hget := funext (Returns.get_ofList values ledger)
  exact (build_infer (Returns.wellFormed_ofList values ledger) hget _).2.1 i

/-- **Typing values by their own shape is lossless.** The shape inferred from any offset on, also past
the end, is supported and is that of the values that are left there. Its slots are their categories in
order, with no layer begun before the one in front of it is full; it is untyped only where no values
are left. Values are never refused under it. Each is read at its position and nil behind them, the
length ends with the last that is not nil, and nothing is reported. Values that are typed without a
shape being given have the shape inferred from all of them, and read as under it. -/
theorem inferred_reads_back (values : List Value) (offset : Nat) :
    let tail := values.drop offset
    let shape := Shape.inferFrom offset values
    shape.isSupported = true ∧ shape = Shape.inferFrom 0 tail ∧
    shape.allSlots = tail.map Category.of ∧
    (tail = [] → shape = .untyped) ∧ (tail ≠ [] → shape.Packed) ∧
    (∃ typed, create shape offset values = .ok typed ∧ ∀ ledger,
      let (x, after) := typed.run ledger
      x.shape = shape ∧ after.misfits = ledger.misfits ∧
      (∀ i, x.get i = Value.ofOption tail[i]?) ∧
      Trimmed x.length fun i => Value.ofOption tail[i]?) ∧
    ∃ typed, create (Shape.inferFrom 0 values) 0 values = .ok typed ∧ ∀ ledger ledger',
      let x := (typed.run ledger).1
      let inferred := ((createInferred values).run ledger').1
      inferred.shape = x.shape ∧ ∀ i, inferred.get i = x.get i := by
  intro tail shape
  have hshape : shape = Shape.infer tail := Shape.inferFrom_eq offset values
  obtain ⟨whole, hcreate, hwhole⟩ := exists_create_inferFrom values 0
  refine ⟨?_, ?_, ?_, ?_, ?_, exists_create_inferFrom values offset, whole, hcreate, ?_⟩
  · rw [hshape]
    exact Shape.isSupported_infer tail
  · rw [hshape, Shape.inferFrom_eq]
    rfl
  · rw [hshape, Shape.allSlots_infer]
  · intro hnil
    rw [hshape, hnil, Shape.infer]
    rfl
  · intro hne
    rw [hshape]
    exact Shape.packed_infer hne
  · intro ledger ledger' x inferred
    obtain ⟨hof, -, hget, -⟩ := hwhole ledger
    refine ⟨?_, fun i => ?_⟩
    · exact (shape_build _ _ _).trans ((Shape.inferFrom_eq 0 values).symm.trans hof.symm)
    · exact (get_createInferred values ledger' i).trans (hget i).symm

end Shaped
end LuaHost
