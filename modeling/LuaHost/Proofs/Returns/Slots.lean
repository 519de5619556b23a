import LuaHost.Proofs.Returns.Built
import LuaHost.Proofs.Returns.Misfits

/-!
# LuaHost.Proofs.Returns.Slots

Reading typed objects slot by slot.

* `Category.toValue_of_ofValue?`, `Category.isSome_ofValue?_iff`: what a slot makes of a value.
* `Shaped.Fitting`: every layer reads only values that its slots accept. All objects are built so
  (`Built.fitting`), also by the conversions, which move windows between types without a second look.
* `Typed.Readable`: each slot has content exactly where a value is read, and it is that value.
-/

namespace LuaHost

/-! ## The content of a slot -/

namespace Category

theorem accepts_iff {c : Category} {v : Value} :
    c.accepts v = true ↔ c = .any ∨ v = .nil ∨ of v = c := by
  have hnil : v.isNil = true ↔ v = .nil := by cases v <;> simp [Value.isNil]
  simp [accepts, hnil, or_assoc]

theorem toValue_of_ofValue? {c : Category} {v : Value} {content : c.Carrier}
    (h : c.ofValue? v = some content) : c.toValue content = v := by
  cases c <;> cases v <;> cases h <;> rfl

theorem ofValue?_nil (c : Category) : c.ofValue? .nil = none := by
  cases c <;> rfl

theorem exists_ofValue? {c : Category} {v : Value} (h : c.accepts v = true) (hne : v ≠ .nil) :
    ∃ content, c.ofValue? v = some content := by
  rcases accepts_iff.1 h with rfl | hnil | rfl
  · cases v with
    | nil => exact absurd rfl hne
    | _ => exact ⟨_, rfl⟩
  · exact absurd hnil hne
  · cases v with
    | nil => exact absurd rfl hne
    | _ => exact ⟨_, rfl⟩

theorem isSome_ofValue?_iff {c : Category} {v : Value} (h : c.accepts v = true) :
    (c.ofValue? v).isSome = true ↔ v ≠ .nil := by
  constructor
  · intro hsome hnil
    rw [hnil, ofValue?_nil] at hsome
    cases hsome
  · intro hne
    obtain ⟨content, hcontent⟩ := exists_ofValue? h hne
    rw [hcontent]
    rfl

theorem accepts_toValue (c : Category) (content : c.Carrier) :
    c.accepts (c.toValue content) = true := by
  cases c with
  | any => exact accepts_iff.2 (.inl rfl)
  | number => cases content <;> exact accepts_iff.2 (.inr (.inr rfl))
  | boolean | string | table | function | userdata => exact accepts_iff.2 (.inr (.inr rfl))

end Category

/-! ## Every layer fits its slots -/

theorem Shape.Fits.accepts {slots : List Category} {get : Nat → Value}
    (h : (Shape.fixed slots).Fits get) (k : Fin slots.length) :
    (slots.get k).accepts (get k) = true := by
  by_cases hnil : get k = .nil
  · rw [hnil]
    exact Category.accepts_nil _
  · have hadmits : admitted slots k (get k) = true := h k hnil
    rwa [admitted_some (List.getElem?_eq_getElem k.isLt)] at hadmits

theorem Shape.Fits.append {slots : List Category} {get : Nat → Value}
    (h : (Shape.fixed slots).Fits get) (more : List Category) :
    (Shape.fixed (slots ++ more)).Fits get := by
  intro i hne
  have hadmits : admitted slots i (get i) = true := h i hne
  show admitted (slots ++ more) i (get i) = true
  cases hslot : slots[i]? with
  | none =>
    rw [admitted_none hslot] at hadmits
    cases hadmits
  | some slot =>
    have hi : i < slots.length := (List.getElem?_eq_some_iff.1 hslot).1
    rw [admitted_some hslot] at hadmits
    rw [admitted_some ((List.getElem?_append_left hi).trans hslot)]
    exact hadmits

theorem Shape.Fits.take {slots more : List Category} {r : Returns}
    (h : (Shape.fixed (slots ++ more)).Fits r.get) :
    (Shape.fixed slots).Fits (r.take slots.length).get := by
  intro i hne
  rw [Returns.get_take] at hne ⊢
  split at hne
  · rename_i hi
    rw [if_pos hi]
    have hadmits : admitted (slots ++ more) i (r.get i) = true := h i hne
    rwa [admitted, List.getElem?_append_left hi] at hadmits
  · exact absurd rfl hne

namespace Shaped

/-- Every layer reads only values that its slots accept. -/
inductive Fitting : Shaped → Prop where
  | untyped (view : Returns) : Fitting (.untyped view)
  | fixed {slots : List Category} {view : Returns} (hview : (Shape.fixed slots).Fits view.get) :
      Fitting (.fixed slots view)
  | continued {slots : List Category} {head : Returns} {rest : Shaped}
      (hhead : (Shape.fixed slots).Fits head.get) (hrest : rest.Fitting) :
      Fitting (.continued slots head rest)

theorem fitting_build (shape : Shape) (values : Returns) (ledger : Ledger) :
    ((build shape values).run ledger).1.Fitting := by
  induction shape generalizing values ledger with
  | untyped => exact .untyped values
  | fixed slots => exact .fixed (fits_build (.fixed slots) values ledger)
  | continued slots tail ih =>
    rw [build_continued]
    exact .continued (fits_build (.fixed slots) values ledger) (ih _ _)

theorem Fitting.rest {x rest : Shaped} (h : x.Fitting) (hrest : x.rest? = some rest) :
    rest.Fitting := by
  cases h with
  | untyped _ => cases hrest
  | fixed _ => cases hrest
  | continued _ hfitting =>
    cases hrest
    exact hfitting

end Shaped

namespace Typed

variable {slots : List Category} {R : Layout}

theorem fitting_ofReturns (T : Layout) (values : Returns) (ledger : Ledger) :
    ((ofReturns T values).run ledger).1.erase.Fitting := by
  rw [erase_ofReturns]
  exact Shaped.fitting_build T.shape values ledger

theorem accepts_ofContents (contents : Contents slots) (ledger : Ledger) (k : Fin slots.length) :
    (slots.get k).accepts (((ofContents contents).run ledger).1.get k) = true := by
  rw [ofContents, Returns.get_ofList, List.getElem?_ofFn, dif_pos k.isLt]
  simp only [Value.ofOption]
  cases contents k with
  | none => exact Category.accepts_nil _
  | some content => exact (slots.get k).accepts_toValue content

theorem fits_ofContents (contents : Contents slots) (ledger : Ledger) :
    (Shape.fixed slots).Fits ((ofContents contents).run ledger).1.get := by
  intro i hne
  have hi : i < slots.length := by
    by_contra hi
    have hlen := length_ofContents_le contents ledger
    exact hne (Returns.get_of_length_le _ (Nat.le_trans hlen (Nat.le_of_not_lt hi)))
  show admitted slots i _ = true
  rw [admitted_some (List.getElem?_eq_getElem hi)]
  exact accepts_ofContents contents ledger ⟨i, hi⟩

theorem fits_fixed {arity : 1 ≤ slots.length ∧ slots.length ≤ layerArity}
    {x : Typed (.fixed slots arity)} (h : x.erase.Fitting) :
    (Shape.fixed slots).Fits x.head.get := by
  cases x with
  | fixed view => cases h with
    | fixed hview => exact hview

theorem fits_continued {arity : slots.length = layerArity} {x : Typed (.continued slots arity R)}
    (h : x.erase.Fitting) : (Shape.fixed slots).Fits x.head.get ∧ x.rest.erase.Fitting := by
  cases x with
  | continued head tail => cases h with
    | continued hhead hrest => exact ⟨hhead, hrest⟩

end Typed

theorem Built.fitting {m : Member} (h : Built m) : m.erase.Fitting := by
  induction h with
  | ofList | drop | take | toReturns | untyped => exact .untyped _
  | ofReturns T ledger _ _ => exact Typed.fitting_ofReturns T _ ledger
  | ofTypedList T values ledger => exact Typed.fitting_ofReturns T _ _
  | ofSlots arity contents ledger => exact .fixed (Typed.fits_ofContents contents ledger)
  | ofSlotsAnd arity contents ledger _ ih =>
    exact .continued (Typed.fits_ofContents contents ledger) ih
  | ofSlotsAndList arity R contents rest ledger =>
    exact .continued (Typed.fits_ofContents contents _) (Typed.fitting_ofReturns R _ _)
  | empty arity ledger =>
    refine .fixed fun i hne => ?_
    exact absurd (Returns.get_of_length_le _ (Nat.zero_le i)) hne
  | rest _ ih => exact (Typed.fits_continued ih).2
  | adjust U ledger _ _ => exact Typed.fitting_ofReturns U _ _
  -- Widening and narrowing change the slots of a window without typing it anew.
  | widen slot room _ ih => exact .fixed ((Typed.fits_fixed ih).append [slot])
  | extend more full R ledger _ ih =>
    exact .continued ((Typed.fits_fixed ih).append more) (Typed.fitting_ofReturns R _ _)
  | narrow arity _ ih => exact .fixed (Typed.fits_fixed ih).take
  | narrowRest _ ih => exact .fixed (Typed.fits_continued ih).1
  | create ledger h =>
    rw [(Shaped.run_create h).2]
    exact Shaped.fitting_build _ _ _
  | createInferred values ledger => exact Shaped.fitting_build _ _ _
  | shapedRest hrest _ ih => exact ih.rest hrest
  | downcast hy _ _ =>
    rw [Shaped.eq_ofReturns_of_downcast hy]
    exact Typed.fitting_ofReturns _ _ _

/-! ## Slots -/

namespace Typed

variable {T : Layout}

/-- The fixed part counts at most as many positions as there are slots, and a slot has content just
where a value is read, which the content stands for. -/
structure Readable (x : Typed T) : Prop where
  length_head : T ≠ .untyped → x.head.length ≤ T.slots.length
  isSome_slot : ∀ k, (x.slot k).isSome = true ↔ x.get k ≠ .nil
  toValue_slot : ∀ k content, x.slot k = some content → (T.slots.get k).toValue content = x.get k

theorem get_head (x : Typed T) (k : Fin T.slots.length) : x.head.get k = x.get k := by
  cases x with
  | untyped view => rfl
  | fixed view => rfl
  | @continued slots arity R head tail =>
    have hk : (k : Nat) < layerArity := arity ▸ k.isLt
    rw [Typed.head, Typed.get, if_pos hk]

theorem length_head_le {x : Typed T} (h : x.erase.Sound) (hT : T ≠ .untyped) :
    x.head.length ≤ T.slots.length := by
  cases T with
  | untyped => exact absurd rfl hT
  | fixed slots arity => exact (sound_fixed h).2
  | continued slots arity R =>
    have hhead := (sound_continued h).2.1
    exact Nat.le_trans hhead (Nat.le_of_eq arity.symm)

theorem accepts_get {x : Typed T} (h : x.erase.Fitting) (k : Fin T.slots.length) :
    (T.slots.get k).accepts (x.get k) = true := by
  rw [← x.get_head]
  cases T with
  | untyped => exact k.elim0
  | fixed slots arity => exact (fits_fixed h).accepts k
  | continued slots arity R => exact (fits_continued h).1.accepts k

end Typed

theorem Built.readable {T : Layout} {x : Typed T} (h : Built (.typed x)) : x.Readable := by
  refine ⟨Typed.length_head_le h.sound, fun k => ?_, fun k content hcontent => ?_⟩
  · rw [Typed.slot, x.get_head]
    exact Category.isSome_ofValue?_iff (Typed.accepts_get h.fitting k)
  · rw [Typed.slot, x.get_head] at hcontent
    exact Category.toValue_of_ofValue? hcontent

end LuaHost
