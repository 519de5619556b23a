import LuaHost.Proofs.Returns.Slots

/-!
# LuaHost.Proofs.Returns.Conversions

Converting typed objects between types with more and fewer slots.

* `Typed.get_widen`, `Typed.get_extend`, `Typed.get_narrow`, `Typed.get_narrowRest`: what is read after
  each of the conversions.
* `Typed.Resized`: any number of them, one after the other. Where no type on the way has too few slots
  for what is read at first, nothing is lost (`Typed.Resized.get`).
* `Built.slots_readable`: the slots of whatever has been built, through all conversions.
-/

namespace LuaHost

/-- Cutting off positions at which nothing is read. -/
theorem cut_eq_of_past {get : Nat → Value} {n : Nat} (h : ∀ i, n ≤ i → get i = .nil) (i : Nat) :
    (if i < n then get i else .nil) = get i := by
  split
  · rfl
  · rename_i hi
    exact (h i (Nat.le_of_not_lt hi)).symm

namespace Typed

variable {T U R : Layout} {slots : List Category}

/-! ## One conversion -/

section Conversions

variable {arity : 1 ≤ slots.length ∧ slots.length ≤ layerArity}

theorem get_of_slots_le {x : Typed (.fixed slots arity)} (h : x.erase.Sound) {i : Nat}
    (hi : slots.length ≤ i) : x.get i = .nil := by
  have hlen := (sound_fixed h).2
  cases x with
  | fixed view => exact view.get_of_length_le (Nat.le_trans hlen hi)

theorem get_widen (x : Typed (.fixed slots arity)) (slot : Category)
    (room : 1 ≤ (slots ++ [slot]).length ∧ (slots ++ [slot]).length ≤ layerArity) (i : Nat) :
    (x.widen slot room).get i = x.get i := by
  cases x with
  | fixed view => rfl

theorem get_ofList_nil (T : Layout) (ledger : Ledger) (i : Nat) :
    ((ofList T []).run ledger).1.get i = .nil := by
  show ((ofReturns T ((Returns.ofList []).run ledger).1).run _).1.get i = .nil
  rw [← get_erase, erase_ofReturns, Shaped.get_build, Returns.get_of_length_le _ (Nat.zero_le i)]
  split <;> rfl

/-- Nothing is counted in the empty rest, and nothing was counted there before. -/
theorem get_extend {x : Typed (.fixed slots arity)} (h : x.erase.Sound) (more : List Category)
    (full : (slots ++ more).length = layerArity) (R : Layout) (ledger : Ledger) (i : Nat) :
    ((x.extend more full R).run ledger).1.get i = x.get i := by
  show (if i < layerArity then x.head.get i
    else ((ofList R []).run ledger).1.get (i - layerArity)) = x.get i
  split
  · cases x with
    | fixed view => rfl
  · rename_i hi
    rw [get_ofList_nil, get_of_slots_le h (Nat.le_trans arity.2 (Nat.le_of_not_lt hi))]

theorem get_narrow {slot : Category}
    {room : 1 ≤ (slots ++ [slot]).length ∧ (slots ++ [slot]).length ≤ layerArity}
    (x : Typed (.fixed (slots ++ [slot]) room)) (i : Nat) :
    (x.narrow arity).get i = if i < slots.length then x.get i else .nil := by
  cases x with
  | fixed view => exact view.get_take slots.length i

theorem get_narrowRest {full : slots.length = layerArity} {x : Typed (.continued slots full R)}
    (h : x.erase.Sound) (i : Nat) :
    x.narrowRest.get i = if i < layerArity then x.get i else .nil := by
  have hlen := (sound_continued h).2.1
  cases x with
  | continued head tail =>
    show head.get i = if i < layerArity then
      (if i < layerArity then head.get i else tail.get (i - layerArity)) else .nil
    split
    · rfl
    · rename_i hi
      exact head.get_of_length_le (Nat.le_trans hlen (Nat.le_of_not_lt hi))

end Conversions

/-! ## Any number of conversions -/

/-- Conversions from an object on, one after the other, through types that all have the least number
of slots. -/
inductive Resized (least : Nat) (x : Typed T) : {U : Layout} → Typed U → Prop where
  | refl : Resized least x x
  | widen {slots : List Category} {arity : 1 ≤ slots.length ∧ slots.length ≤ layerArity}
      {y : Typed (.fixed slots arity)} (slot : Category)
      (room : 1 ≤ (slots ++ [slot]).length ∧ (slots ++ [slot]).length ≤ layerArity) :
      Resized least x y → Resized least x (y.widen slot room)
  | extend {slots : List Category} {arity : 1 ≤ slots.length ∧ slots.length ≤ layerArity}
      {y : Typed (.fixed slots arity)} (more : List Category)
      (full : (slots ++ more).length = layerArity) (R : Layout) (ledger : Ledger) :
      Resized least x y → Resized least x ((y.extend more full R).run ledger).1
  | narrow {slots : List Category} {slot : Category}
      {room : 1 ≤ (slots ++ [slot]).length ∧ (slots ++ [slot]).length ≤ layerArity}
      {y : Typed (.fixed (slots ++ [slot]) room)}
      (arity : 1 ≤ slots.length ∧ slots.length ≤ layerArity) :
      least ≤ slots.length → Resized least x y → Resized least x (y.narrow arity)
  | narrowRest {slots : List Category} {full : slots.length = layerArity} {R : Layout}
      {y : Typed (.continued slots full R)} :
      least ≤ layerArity → Resized least x y → Resized least x y.narrowRest

theorem Resized.built {least : Nat} {x : Typed T} {y : Typed U} (h : x.Resized least y)
    (hx : Built (.typed x)) : Built (.typed y) := by
  induction h with
  | refl => exact hx
  | widen slot room _ ih => exact .widen slot room ih
  | extend more full R ledger _ ih => exact .extend more full R ledger ih
  | narrow arity _ _ ih => exact .narrow arity ih
  | narrowRest _ _ ih => exact .narrowRest ih

/-- Nothing is read past the least number of slots, so the slots that are dropped had no content. -/
theorem Resized.get {least : Nat} {x : Typed T} {y : Typed U} (h : x.Resized least y)
    (hx : Built (.typed x)) (hpast : ∀ i, least ≤ i → x.get i = .nil) (i : Nat) :
    y.get i = x.get i := by
  induction h with
  | refl => rfl
  | widen slot room _ ih => rw [get_widen, ih]
  | extend more full R ledger hy ih => rw [get_extend (hy.built hx).sound, ih]
  | narrow arity hleast _ ih =>
    rw [get_narrow, ih]
    exact cut_eq_of_past (fun i hi => hpast i (Nat.le_trans hleast hi)) i
  | narrowRest hleast hy ih =>
    rw [get_narrowRest (hy.built hx).sound, ih]
    exact cut_eq_of_past (fun i hi => hpast i (Nat.le_trans hleast hi)) i

end Typed

namespace Built

theorem trimmed {m : Member} (h : Built m) : Trimmed m.length m.get := by
  rw [← m.length_erase, ← funext m.get_erase]
  exact h.sound.trimmed

/-- **Typed objects hold only what their slots can read.** However a typed object was built, its fixed
part counts no more positions than it has slots, and each slot has content exactly where a value is
read and stands for that very value. Widening, to one more slot or to seven and a rest, keeps the
positions of the slots there were; the others, and all of the rest, read as nil. Narrowing, by one slot
or by the rest, keeps exactly the positions of the slots that are left, and the length ends with the
last of them that is not nil. So conversions in any number and order, as long as no type on the way
has fewer slots than the first, read as the original at every position. -/
theorem slots_readable :
    (∀ {T : Layout} {x : Typed T}, Built (.typed x) → x.Readable) ∧
    (∀ {slots arity} {x : Typed (.fixed slots arity)}, Built (.typed x) →
      (∀ slot room i, (x.widen slot room).get i = if i < slots.length then x.get i else .nil) ∧
      (∀ more full R ledger, let wide := ((x.extend more full R).run ledger).1
        (∀ i, wide.get i = if i < slots.length then x.get i else .nil) ∧
        wide.rest.length = 0 ∧ ∀ i, wide.rest.get i = .nil) ∧
      ∀ {U : Layout} {y : Typed U}, x.Resized slots.length y → ∀ i, y.get i = x.get i) ∧
    (∀ {slots slot room} {x : Typed (.fixed (slots ++ [slot]) room)}, Built (.typed x) →
      ∀ arity, let y := x.narrow arity
      Trimmed y.length y.get ∧ ∀ i, y.get i = if i < slots.length then x.get i else .nil) ∧
    ∀ {slots full R} {x : Typed (.continued slots full R)}, Built (.typed x) →
      let y := x.narrowRest
      Trimmed y.length y.get ∧ ∀ i, y.get i = if i < layerArity then x.get i else .nil := by
  refine ⟨Built.readable, ?_, ?_, ?_⟩
  · intro slots arity x h
    have hpast : ∀ i, slots.length ≤ i → x.get i = .nil := fun i => Typed.get_of_slots_le h.sound
    refine ⟨?_, ?_, fun hy => hy.get h hpast⟩
    · intro slot room i
      rw [x.get_widen, cut_eq_of_past hpast]
    · intro more full R ledger wide
      have hrest : ∀ i, wide.rest.get i = .nil := Typed.get_ofList_nil R ledger
      have hbuilt : Built (.typed wide.rest) := .rest (.extend more full R ledger h)
      refine ⟨fun i => ?_, ?_, hrest⟩
      · rw [Typed.get_extend h.sound, cut_eq_of_past hpast]
      · exact Nat.le_zero.1 (hbuilt.trimmed.length_le fun i _ => hrest i)
  · intro slots slot room x h arity y
    exact ⟨(h.narrow arity).trimmed, x.get_narrow⟩
  · intro slots full R x h y
    exact ⟨h.narrowRest.trimmed, Typed.get_narrowRest h.sound⟩

end Built

/-- The integer does not fit the second slot, which therefore has no content. -/
def flagAndText : Typed (.fixed [.boolean, .string] ⟨Nat.le_succ 1, by decide⟩) :=
  ((Typed.ofList _ [.boolean true, .integer 5]).run {}).1

theorem slots_readable_mismatched :
    let long := ((flagAndText.extend (List.replicate 5 .any) rfl .untyped).run {}).1
    let wide := flagAndText.widen .number ⟨Nat.le_add_left 1 2, by decide⟩
    let back := wide.narrow ⟨Nat.le_succ 1, by decide⟩
    flagAndText.Readable ∧ long.Readable ∧ (flagAndText.slot ⟨0, by decide⟩).isSome = true ∧
    (flagAndText.slot ⟨1, by decide⟩).isSome = false ∧ long.rest.length = 0 ∧
    (∀ i, long.narrowRest.get i = if i < layerArity then long.get i else .nil) ∧
    Trimmed back.length back.get ∧ ∀ i, back.get i = flagAndText.get i := by
  intro long wide back
  have hbuilt : Built (.typed flagAndText) := .ofTypedList _ _ {}
  have hlong : Built (.typed long) := .extend _ rfl .untyped {} hbuilt
  have hwide : Built (.typed wide) := .widen .number _ hbuilt
  have hback : flagAndText.Resized 2 back := .narrow _ (Nat.le_refl 2) (.widen .number _ .refl)
  obtain ⟨hreadable, hwiden, hnarrow, hnarrowRest⟩ := Built.slots_readable
  have hslots := (hreadable hbuilt).isSome_slot
  refine ⟨hreadable hbuilt, hreadable hlong, ?_, ?_, ?_, ?_, ?_, ?_⟩
  · exact (hslots _).2 (by decide)
  · exact Bool.eq_false_iff.2 fun h => (hslots _).1 h (by decide)
  · exact ((hwiden hbuilt).2.1 _ rfl .untyped {}).2.1
  · exact (hnarrowRest hlong).2
  · exact (hnarrow hwide _).1
  · exact (hwiden hbuilt).2.2 hback

end LuaHost
