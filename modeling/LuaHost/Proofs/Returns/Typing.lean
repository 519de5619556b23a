import LuaHost.Proofs.Returns.Window
import LuaHost.Returns.Shaped

/-!
# LuaHost.Proofs.Returns.Typing

Values under a shape.

* `get_conform`, `Shaped.get_build`: what is read of values once they are typed. Each position keeps the
  value that its slot accepts and reads as nil else.
* `Shape.Fits`: values that a shape lets through as they are.
* `Shaped.Sound`: every layer is a well-formed window within its slots that can be joined to the layers
  behind it. All typed values are built so (`Shaped.sound_build`), and what is rejoined from them
  counts and reads as they do (`Shaped.Sound.length_toReturns`, `Shaped.Sound.get_toReturns`).
-/

namespace LuaHost

/-- Whether a list of slots lets a value through at a position; there is no slot past its end. -/
def admitted (slots : List Category) (i : Nat) (v : Value) : Bool :=
  match slots[i]? with
  | some slot => slot.accepts v
  | none => false

theorem admitted_some {slots : List Category} {i : Nat} {slot : Category} {v : Value}
    (h : slots[i]? = some slot) : admitted slots i v = slot.accepts v := by
  rw [admitted, h]

theorem admitted_none {slots : List Category} {i : Nat} {v : Value} (h : slots[i]? = none) :
    admitted slots i v = false := by
  rw [admitted, h]

def Shape.admits : Shape → Nat → Value → Bool
  | .untyped, _, _ => true
  | .fixed slots, i, v => admitted slots i v
  | .continued slots tail, i, v =>
    if i < layerArity then admitted slots i v else tail.admits (i - layerArity) v

/-- The shape lets everything through that is read. -/
def Shape.Fits (shape : Shape) (get : Nat → Value) : Prop :=
  ∀ i, get i ≠ .nil → shape.admits i (get i) = true

/-! ## One layer -/

namespace Returns

theorem misfits_eq_nil_iff {r : Returns} {slots : List Category} :
    r.misfits slots = [] ↔
      ∀ (i : Nat) (slot : Category), slots[i]? = some slot → slot.accepts (r.get i) = true := by
  simp only [misfits, List.filterMap_eq_nil_iff, Prod.forall, List.mk_mem_zipIdx_iff_getElem?]
  constructor
  · intro h i slot hslot
    have := h slot i hslot
    split at this
    · assumption
    · cases this
  · intro h slot i hslot
    rw [if_pos (h i slot hslot)]

theorem fitted_getElem? (r : Returns) (slots : List Category) (i : Nat) :
    Value.ofOption (r.fitted slots)[i]? = if admitted slots i (r.get i) then r.get i else .nil := by
  rw [fitted, admitted, List.getElem?_map, List.getElem?_zipIdx]
  cases hslot : slots[i]? with
  | some slot =>
    simp only [Option.map_some, Nat.zero_add]
    rfl
  | none => rfl

/-- The layer stays a window of the buffer, or its accepted values are copied. -/
theorem conform_cases (r : Returns) (slots : List Category) (ledger : Ledger) :
    ((∀ (i : Nat) (slot : Category), slots[i]? = some slot →
        slot.accepts ((r.take slots.length).get i) = true) ∧
      ((r.conform slots).run ledger).1 = r.take slots.length) ∨
    ∃ ledger', ((r.conform slots).run ledger).1 =
      ((ofList ((r.take slots.length).fitted slots)).run ledger').1 := by
  unfold conform
  cases hm : (r.take slots.length).misfits slots with
  | nil => exact .inl ⟨misfits_eq_nil_iff.1 hm, by simp only [hm]; rfl⟩
  | cons m ms =>
    refine .inr ⟨((report (m :: ms)).run ledger).2, ?_⟩
    simp only [hm]
    rfl

theorem get_conform (r : Returns) (slots : List Category) (ledger : Ledger) (i : Nat) :
    ((r.conform slots).run ledger).1.get i =
      if admitted slots i (r.get i) then r.get i else .nil := by
  have htake : ∀ slot, slots[i]? = some slot → (r.take slots.length).get i = r.get i := by
    intro slot hslot
    rw [get_take, if_pos (List.getElem?_eq_some_iff.1 hslot).1]
  rcases conform_cases r slots ledger with ⟨hfits, hrun⟩ | ⟨ledger', hrun⟩
  · rw [hrun]
    cases hslot : slots[i]? with
    | some slot =>
      have haccepts := hfits i slot hslot
      rw [htake slot hslot] at haccepts
      rw [htake slot hslot, admitted_some hslot, if_pos haccepts]
    | none =>
      rw [get_take, if_neg (Nat.not_lt.2 (List.getElem?_eq_none_iff.1 hslot)), admitted_none hslot]
      rfl
  · rw [hrun, get_ofList, fitted_getElem?]
    cases hslot : slots[i]? with
    | some slot => rw [htake slot hslot]
    | none =>
      rw [admitted_none hslot, admitted_none hslot]
      rfl

theorem wellFormed_conform {r : Returns} (hr : r.WellFormed) (slots : List Category)
    (ledger : Ledger) : ((r.conform slots).run ledger).1.WellFormed := by
  rcases conform_cases r slots ledger with ⟨_, hrun⟩ | ⟨ledger', hrun⟩
  · rw [hrun]
    exact hr.take _
  · rw [hrun]
    exact wellFormed_ofList _ _

theorem length_conform_le {r : Returns} (hr : r.WellFormed) (slots : List Category)
    (ledger : Ledger) : ((r.conform slots).run ledger).1.length ≤ slots.length := by
  apply (wellFormed_conform hr slots ledger).trimmed.length_le
  intro i hi
  rw [get_conform, admitted_none (List.getElem?_eq_none hi)]
  rfl

/-- A layer of a window that goes on behind it can be extended: where it was not copied it ends in that
window, and where it was copied nothing lies behind it. -/
theorem joinable_conform {r tail : Returns} (ht : tail.WellFormed) {slots : List Category}
    (hr : slots.length ≤ r.length) (ledger : Ledger) :
    ((r.conform slots).run ledger).1.Joinable slots.length tail := by
  rcases conform_cases r slots ledger with ⟨_, hrun⟩ | ⟨ledger', hrun⟩
  · rw [hrun]
    exact joinable_take hr
  · rw [hrun]
    apply joinable_of_short ht
    show ((r.take slots.length).fitted slots).length ≤ 0 + slots.length
    simp [fitted]

end Returns

/-! ## All layers -/

namespace Shaped

/-- Every layer is a well-formed window within its slots that can be joined to the layers behind it. -/
inductive Sound : Shaped → Prop where
  | untyped {view : Returns} (hview : view.WellFormed) : Sound (.untyped view)
  | fixed {slots : List Category} {view : Returns} (hview : view.WellFormed)
      (hslots : view.length ≤ slots.length) : Sound (.fixed slots view)
  | continued {slots : List Category} {head : Returns} {rest : Shaped} (hhead : head.WellFormed)
      (hslots : head.length ≤ layerArity) (hrest : rest.Sound)
      (hjoin : ∀ ledger, head.Joinable layerArity (rest.toReturns.run ledger).1) :
      Sound (.continued slots head rest)

theorem length_continued (slots : List Category) (head : Returns) (rest : Shaped) :
    (continued slots head rest).length =
      if rest.length = 0 then head.length else layerArity + rest.length := by
  rw [length]
  split
  · rename_i hzero
    rw [if_pos hzero]
  · rename_i n hsucc
    rw [if_neg (by omega), hsucc]

theorem Sound.trimmed {x : Shaped} (h : x.Sound) : Trimmed x.length x.get := by
  induction h with
  | untyped hview => exact hview.trimmed
  | fixed hview _ => exact hview.trimmed
  | @continued slots head rest hhead hslots _ _ ih =>
    rw [length_continued]
    split
    · rename_i hzero
      refine ⟨fun i hi => ?_, ?_⟩
      · rw [get]
        split
        · exact hhead.trimmed.1 i hi
        · exact ih.1 _ (by omega)
      · by_cases hpos : head.length = 0
        · exact .inl hpos
        · right
          rw [get, if_pos (by omega)]
          exact hhead.trimmed.2.resolve_left hpos
    · rename_i hpos
      refine ⟨fun i hi => ?_, .inr ?_⟩
      · rw [get, if_neg (by omega)]
        exact ih.1 _ (by omega)
      · rw [get, if_neg (by omega),
          show layerArity + rest.length - 1 - layerArity = rest.length - 1 by omega]
        exact ih.2.resolve_left hpos

theorem toReturns_continued (slots : List Category) (head : Returns) (rest : Shaped)
    (ledger : Ledger) :
    (toReturns (.continued slots head rest)).run ledger =
      (head.join layerArity (rest.toReturns.run ledger).1).run (rest.toReturns.run ledger).2 :=
  rfl

theorem Sound.wellFormed_toReturns {x : Shaped} (h : x.Sound) (ledger : Ledger) :
    (x.toReturns.run ledger).1.WellFormed := by
  induction h generalizing ledger with
  | untyped hview => exact hview
  | fixed hview _ => exact hview
  | continued hhead hslots _ _ ih =>
    rw [toReturns_continued]
    exact Returns.wellFormed_join hhead hslots (ih ledger) _

theorem Sound.get_toReturns {x : Shaped} (h : x.Sound) (ledger : Ledger) (i : Nat) :
    (x.toReturns.run ledger).1.get i = x.get i := by
  induction h generalizing ledger i with
  | untyped hview => rfl
  | fixed hview _ => rfl
  | continued hhead hslots hrest hjoin ih =>
    rw [toReturns_continued,
      Returns.get_join hhead hslots (hrest.wellFormed_toReturns ledger) (hjoin ledger)]
    simp only [get, ih]

theorem Sound.length_toReturns {x : Shaped} (h : x.Sound) (ledger : Ledger) :
    (x.toReturns.run ledger).1.length = x.length := by
  have hget : (x.toReturns.run ledger).1.get = x.get := funext (h.get_toReturns ledger)
  exact (hget ▸ (h.wellFormed_toReturns ledger).trimmed).length_unique h.trimmed

/-! ## Building -/

theorem build_continued (slots : List Category) (tail : Shape) (values : Returns)
    (ledger : Ledger) :
    ((build (.continued slots tail) values).run ledger).1 =
      .continued slots ((values.conform slots).run ledger).1
        ((build tail (values.drop layerArity)).run ((values.conform slots).run ledger).2).1 :=
  rfl

/-- Typing filters the values position by position. -/
theorem get_build (shape : Shape) (values : Returns) (ledger : Ledger) (i : Nat) :
    ((build shape values).run ledger).1.get i =
      if shape.admits i (values.get i) then values.get i else .nil := by
  induction shape generalizing values ledger i with
  | untyped => rfl
  | fixed slots => exact values.get_conform slots ledger i
  | continued slots tail ih =>
    rw [build_continued, get, Shape.admits]
    split
    · exact values.get_conform slots ledger i
    · rename_i hi
      rw [ih, Returns.get_drop, show layerArity + (i - layerArity) = i by omega]

theorem shape_build (shape : Shape) (values : Returns) (ledger : Ledger) :
    ((build shape values).run ledger).1.shape = shape := by
  induction shape generalizing values ledger with
  | untyped => rfl
  | fixed slots => rfl
  | continued slots tail ih => rw [build_continued, Shaped.shape, ih]

/-- What is read of a built object fits the shape it was built by. -/
theorem fits_build (shape : Shape) (values : Returns) (ledger : Ledger) :
    shape.Fits ((build shape values).run ledger).1.get := by
  intro i hne
  rw [get_build] at hne ⊢
  split at hne
  · rename_i hadmits
    rw [if_pos hadmits]
    exact hadmits
  · exact absurd rfl hne

theorem get_build_of_fits {shape : Shape} {values : Returns} (h : shape.Fits values.get)
    (ledger : Ledger) (i : Nat) : ((build shape values).run ledger).1.get i = values.get i := by
  rw [get_build]
  by_cases hnil : values.get i = .nil
  · rw [hnil]
    split <;> rfl
  · rw [if_pos (h i hnil)]

theorem sound_build {shape : Shape} (hshape : shape.isSupported = true) {values : Returns}
    (hvalues : values.WellFormed) (ledger : Ledger) :
    ((build shape values).run ledger).1.Sound := by
  induction shape generalizing values ledger with
  | untyped => exact .untyped hvalues
  | fixed slots =>
    exact .fixed (Returns.wellFormed_conform hvalues slots ledger)
      (Returns.length_conform_le hvalues slots ledger)
  | continued slots tail ih =>
    simp only [Shape.isSupported, Bool.and_eq_true, decide_eq_true_eq] at hshape
    obtain ⟨harity, htail⟩ := hshape
    have hrest := ih htail (hvalues.drop layerArity) ((values.conform slots).run ledger).2
    rw [build_continued]
    refine .continued (Returns.wellFormed_conform hvalues slots ledger)
      (harity ▸ Returns.length_conform_le hvalues slots ledger) hrest fun ledger' => ?_
    by_cases hlen : layerArity ≤ values.length
    · have hjoin := Returns.joinable_conform (hrest.wellFormed_toReturns ledger')
        (Nat.le_trans (Nat.le_of_eq harity) hlen) ledger
      rwa [harity] at hjoin
    · -- Nothing is left for the layers behind a first one that is not full.
      apply Returns.joinable_of_isEmpty
      rw [hrest.length_toReturns]
      apply Nat.le_zero.1
      apply hrest.trimmed.length_le
      intro i _
      rw [get_build, Returns.get_drop, values.get_of_length_le (by omega)]
      split <;> rfl

/-- A supported shape is never refused, and its object is built on the values from the offset on. -/
theorem exists_create {shape : Shape} (h : shape.isSupported = true) (offset : Nat)
    (values : List Value) : ∃ x, create shape offset values = .ok x ∧ ∀ ledger,
      let source := (Returns.ofList values).run ledger
      x.run ledger = (build shape (source.1.drop offset)).run source.2 :=
  ⟨_, if_pos h, fun _ => rfl⟩

theorem run_create {shape : Shape} {offset : Nat} {values : List Value} {x : Build Shaped}
    (h : create shape offset values = .ok x) : shape.isSupported = true ∧ ∀ ledger,
      let source := (Returns.ofList values).run ledger
      x.run ledger = (build shape (source.1.drop offset)).run source.2 := by
  by_cases hshape : shape.isSupported = true
  · obtain ⟨y, hy, hrun⟩ := exists_create hshape offset values
    cases hy.symm.trans h
    exact ⟨hshape, hrun⟩
  · rw [create, if_neg hshape] at h
    cases h

theorem length_build_of_isEmpty {shape : Shape} (hshape : shape.isSupported = true)
    {values : Returns} (hvalues : values.WellFormed) (hempty : values.length = 0) (ledger : Ledger) :
    ((build shape values).run ledger).1.length = 0 := by
  apply Nat.le_zero.1
  apply (sound_build hshape hvalues ledger).trimmed.length_le
  intro i _
  rw [get_build, values.get_of_length_le (by omega)]
  split <;> rfl

end Shaped
end LuaHost
