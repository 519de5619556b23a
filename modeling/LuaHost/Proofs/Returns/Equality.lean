import LuaHost.Proofs.Returns.Listing

/-!
# LuaHost.Proofs.Returns.Equality

Equality of typed and of shaped objects.

* `Shaped.Sound.equals_iff`: two shaped objects are equal if they have one shape and read raw-equal at
  every position, whichever buffers their layers lie in.
* `Built.equals_typed`, `Built.equals_shaped`: so it is for all objects that can be built, typed ones with
  a fixed number of slots and shaped ones.
-/

namespace LuaHost

namespace Shaped

/-- All positions are those of the first layer and those of the rest. -/
theorem rawEq_get_continued {slots slots' : List Category} {head head' : Returns}
    {rest rest' : Shaped} :
    (∀ i, ((continued slots head rest).get i).rawEq ((continued slots' head' rest').get i) = true) ↔
      (∀ i, i < layerArity → (head.get i).rawEq (head'.get i) = true) ∧
      ∀ i, (rest.get i).rawEq (rest'.get i) = true := by
  constructor
  · intro h
    refine ⟨fun i hi => ?_, fun i => ?_⟩
    · have hfirst := h i
      rwa [get, get, if_pos hi, if_pos hi] at hfirst
    · have hlater := h (layerArity + i)
      have hge : ¬ layerArity + i < layerArity := by omega
      rwa [get, get, if_neg hge, if_neg hge, Nat.add_sub_cancel_left] at hlater
  · rintro ⟨hfirst, hlater⟩ i
    rw [get, get]
    split
    · rename_i hi
      exact hfirst i hi
    · exact hlater (i - layerArity)

/-- A layer has nothing past its seven positions, so it is equal to another if they read alike there. -/
theorem equals_layer_iff {r s : Returns} (hr : r.WellFormed) (hs : s.WellFormed)
    (hrange : r.length ≤ layerArity) (hrange' : s.length ≤ layerArity) :
    r.equals s = true ↔ ∀ i, i < layerArity → (r.get i).rawEq (s.get i) = true := by
  rw [hr.equals_iff hs]
  refine ⟨fun h i _ => h i, fun h i => ?_⟩
  rcases Nat.lt_or_ge i layerArity with hlt | hge
  · exact h i hlt
  · rw [r.get_of_length_le (Nat.le_trans hrange hge), s.get_of_length_le (Nat.le_trans hrange' hge)]
    rfl

/-- **Equality is shape and values.** -/
theorem Sound.equals_iff {x y : Shaped} (hx : x.Sound) (hy : y.Sound) :
    x.equals y = true ↔ x.shape = y.shape ∧ ∀ i, (x.get i).rawEq (y.get i) = true := by
  induction hx generalizing y with
  | untyped hview =>
    cases hy with
    | untyped hview' => simp only [equals, shape, get, hview.equals_iff hview', true_and]
    | _ => simp [equals, shape]
  | fixed hview hslots =>
    cases hy with
    | fixed hview' hslots' =>
      simp only [equals, shape, get, Bool.and_eq_true, beq_iff_eq, Shape.fixed.injEq,
        hview.equals_iff hview']
    | _ => simp [equals, shape]
  | continued hhead hslots hrest hjoin ih =>
    cases hy with
    | continued hhead' hslots' hrest' hjoin' =>
      rw [rawEq_get_continued]
      simp only [equals, shape, Bool.and_eq_true, beq_iff_eq, Shape.continued.injEq,
        equals_layer_iff hhead hhead' hslots hslots', ih hrest']
      constructor
      · rintro ⟨⟨hslots, hfirst⟩, hshape, hlater⟩
        exact ⟨⟨hslots, hshape⟩, hfirst, hlater⟩
      · rintro ⟨⟨hslots, hshape⟩, hfirst, hlater⟩
        exact ⟨⟨hslots, hfirst⟩, hshape, hlater⟩
    | _ => simp [equals, shape]

end Shaped

namespace Built

theorem equals_shaped {x y : Shaped} (hx : Built (.shaped x)) (hy : Built (.shaped y)) :
    x.equals y = true ↔ x.shape = y.shape ∧ ∀ i, (x.get i).rawEq (y.get i) = true :=
  Shaped.Sound.equals_iff hx.sound hy.sound

theorem equals_typed {slots : List Category} {arity : 1 ≤ slots.length ∧ slots.length ≤ layerArity}
    {x y : Typed (.fixed slots arity)} (hx : Built (.typed x)) (hy : Built (.typed y)) :
    x.equals y = true ↔ ∀ i, (x.get i).rawEq (y.get i) = true := by
  cases x with
  | fixed view =>
    cases y with
    | fixed view' =>
      exact (Typed.sound_fixed hx.sound).1.equals_iff (Typed.sound_fixed hy.sound).1

end Built
end LuaHost
