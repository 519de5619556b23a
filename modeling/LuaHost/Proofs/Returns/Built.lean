import LuaHost.Proofs.Returns.Erasure

/-!
# LuaHost.Proofs.Returns.Built

Objects of the family as programs come to hold them.

* `Built`: what the constructors and conversions make, one after the other and in any order.
* `Built.readings_agree`: length, reading by position and rejoining agree on every such object, and
  rejoining never shows more of a shared buffer than copying would.
-/

namespace LuaHost

inductive Member where
  | returns (r : Returns)
  | typed {T : Layout} (x : Typed T)
  | shaped (x : Shaped)

namespace Member

def length : Member → Nat
  | .returns r => r.length
  | .typed x => x.length
  | .shaped x => x.length

def get : Member → Nat → Value
  | .returns r, i => r.get i
  | .typed x, i => x.get i
  | .shaped x, i => x.get i

def toReturns : Member → Build Returns
  | .returns r => pure r
  | .typed x => x.toReturns
  | .shaped x => x.toReturns

def layers? : Member → Option (Returns × Member)
  | .typed (.continued head tail) => some (head, .typed tail)
  | .shaped (.continued _ head rest) => some (head, .shaped rest)
  | _ => none

/-- The object with its layout forgotten. -/
def erase : Member → Shaped
  | .returns r => .untyped r
  | .typed x => x.erase
  | .shaped x => x

theorem length_erase (m : Member) : m.erase.length = m.length := by
  cases m with
  | returns r => rfl
  | typed x => exact x.length_erase
  | shaped x => rfl

theorem get_erase (m : Member) (i : Nat) : m.erase.get i = m.get i := by
  cases m with
  | returns r => rfl
  | typed x => exact x.get_erase i
  | shaped x => rfl

theorem toReturns_erase (m : Member) : m.erase.toReturns = m.toReturns := by
  cases m with
  | returns r => rfl
  | typed x => exact x.toReturns_erase
  | shaped x => rfl

theorem erase_of_layers? {m rest : Member} {head : Returns} (h : m.layers? = some (head, rest)) :
    ∃ slots, m.erase = .continued slots head rest.erase := by
  cases m with
  | returns r => cases h
  | typed x =>
    cases x with
    | untyped view => cases h
    | fixed view => cases h
    | continued head tail =>
      cases h
      exact ⟨_, rfl⟩
  | shaped x =>
    cases x with
    | untyped view => cases h
    | fixed slots view => cases h
    | continued slots head rest =>
      cases h
      exact ⟨slots, rfl⟩

end Member

/-- What can be built. A step of building starts from the ledger that the steps before it have left,
whichever it is. -/
inductive Built : Member → Prop where
  -- untyped returns
  | ofList (values : List Value) (ledger : Ledger) :
      Built (.returns ((Returns.ofList values).run ledger).1)
  | drop {r : Returns} (n : Nat) : Built (.returns r) → Built (.returns (r.drop n))
  | take {r : Returns} (n : Nat) : Built (.returns r) → Built (.returns (r.take n))
  | toReturns {m : Member} (ledger : Ledger) :
      Built m → Built (.returns (m.toReturns.run ledger).1)
  -- static types
  | untyped {r : Returns} : Built (.returns r) → Built (.typed (.untyped r))
  | ofReturns {r : Returns} (T : Layout) (ledger : Ledger) :
      Built (.returns r) → Built (.typed ((Typed.ofReturns T r).run ledger).1)
  | ofTypedList (T : Layout) (values : List Value) (ledger : Ledger) :
      Built (.typed ((Typed.ofList T values).run ledger).1)
  | ofSlots {slots : List Category} (arity : 1 ≤ slots.length ∧ slots.length ≤ layerArity)
      (contents : Typed.Contents slots) (ledger : Ledger) :
      Built (.typed ((Typed.ofSlots contents : Build (Typed (.fixed slots arity))).run ledger).1)
  | ofSlotsAnd {slots : List Category} (arity : slots.length = layerArity) {R : Layout}
      (contents : Typed.Contents slots) {rest : Typed R} (ledger : Ledger) :
      Built (.typed rest) →
        Built (.typed
          ((Typed.ofSlotsAnd contents rest : Build (Typed (.continued slots arity R))).run ledger).1)
  | ofSlotsAndList {slots : List Category} (arity : slots.length = layerArity) (R : Layout)
      (contents : Typed.Contents slots) (rest : List Value) (ledger : Ledger) :
      Built (.typed
        ((Typed.ofSlotsAndList contents rest : Build (Typed (.continued slots arity R))).run ledger).1)
  | empty {slots : List Category} (arity : 1 ≤ slots.length ∧ slots.length ≤ layerArity)
      (ledger : Ledger) :
      Built (.typed ((Typed.empty : Build (Typed (.fixed slots arity))).run ledger).1)
  | rest {slots : List Category} {arity : slots.length = layerArity} {R : Layout}
      {x : Typed (.continued slots arity R)} : Built (.typed x) → Built (.typed x.rest)
  | adjust {T : Layout} {x : Typed T} (U : Layout) (ledger : Ledger) :
      Built (.typed x) → Built (.typed ((x.adjust U).run ledger).1)
  | widen {slots : List Category} {arity : 1 ≤ slots.length ∧ slots.length ≤ layerArity}
      {x : Typed (.fixed slots arity)} (slot : Category)
      (room : 1 ≤ (slots ++ [slot]).length ∧ (slots ++ [slot]).length ≤ layerArity) :
      Built (.typed x) → Built (.typed (x.widen slot room))
  | extend {slots : List Category} {arity : 1 ≤ slots.length ∧ slots.length ≤ layerArity}
      {x : Typed (.fixed slots arity)} (more : List Category)
      (full : (slots ++ more).length = layerArity) (R : Layout) (ledger : Ledger) :
      Built (.typed x) → Built (.typed ((x.extend more full R).run ledger).1)
  | narrow {slots : List Category} {slot : Category}
      {room : 1 ≤ (slots ++ [slot]).length ∧ (slots ++ [slot]).length ≤ layerArity}
      {x : Typed (.fixed (slots ++ [slot]) room)}
      (arity : 1 ≤ slots.length ∧ slots.length ≤ layerArity) :
      Built (.typed x) → Built (.typed (x.narrow arity))
  | narrowRest {slots : List Category} {full : slots.length = layerArity} {R : Layout}
      {x : Typed (.continued slots full R)} : Built (.typed x) → Built (.typed x.narrowRest)
  -- shapes
  | create {shape : Shape} {offset : Nat} {values : List Value} {build : Build Shaped}
      (ledger : Ledger) : Shaped.create shape offset values = .ok build →
        Built (.shaped (build.run ledger).1)
  | createInferred (values : List Value) (ledger : Ledger) :
      Built (.shaped ((Shaped.createInferred values).run ledger).1)
  | shapedRest {x rest : Shaped} : x.rest? = some rest → Built (.shaped x) → Built (.shaped rest)
  | downcast {x : Shaped} {T : Layout} {y : Typed T} {ledger ledger' : Ledger} :
      (x.downcast? T).run ledger = (some y, ledger') → Built (.shaped x) → Built (.typed y)

/-! ## Every step of building keeps the layers sound -/

namespace Typed

variable {slots : List Category} {R : Layout}

theorem sound_fixed {arity : 1 ≤ slots.length ∧ slots.length ≤ layerArity}
    {x : Typed (.fixed slots arity)} (h : x.erase.Sound) :
    x.head.WellFormed ∧ x.head.length ≤ slots.length := by
  cases x with
  | fixed view => cases h with
    | fixed hview hslots => exact ⟨hview, hslots⟩

theorem sound_continued {arity : slots.length = layerArity} {x : Typed (.continued slots arity R)}
    (h : x.erase.Sound) :
    x.head.WellFormed ∧ x.head.length ≤ layerArity ∧ x.rest.erase.Sound := by
  cases x with
  | continued head tail => cases h with
    | continued hhead hslots hrest _ => exact ⟨hhead, hslots, hrest⟩

theorem length_ofContents_le (contents : Contents slots) (ledger : Ledger) :
    ((ofContents contents).run ledger).1.length ≤ slots.length := by
  apply (Returns.wellFormed_ofList _ ledger).trimmed.length_le
  intro i hi
  rw [Returns.get_ofList, List.getElem?_eq_none (by simpa using hi)]
  rfl

/-- A new layer in front of any rest: its buffer has nothing behind the slots. -/
theorem sound_ofSlotsAnd {arity : slots.length = layerArity} (contents : Contents slots)
    {rest : Typed R} (hrest : rest.erase.Sound) (ledger : Ledger) :
    ((ofSlotsAnd contents rest : Build (Typed (.continued slots arity R))).run ledger).1.erase.Sound := by
  refine .continued (Returns.wellFormed_ofList _ ledger)
    (arity ▸ length_ofContents_le contents ledger) hrest fun ledger' => ?_
  apply Returns.joinable_of_short (hrest.wellFormed_toReturns ledger')
  show (List.ofFn _).length ≤ 0 + layerArity
  simp [arity]

theorem sound_ofList (T : Layout) (values : List Value) (ledger : Ledger) :
    ((ofList T values).run ledger).1.erase.Sound :=
  sound_ofReturns T (Returns.wellFormed_ofList values ledger) _

/-- An old layer in front of an empty rest: there is nothing to join. -/
theorem sound_extend {arity : 1 ≤ slots.length ∧ slots.length ≤ layerArity}
    {x : Typed (.fixed slots arity)} (h : x.erase.Sound) (more : List Category)
    (full : (slots ++ more).length = layerArity) (ledger : Ledger) :
    ((x.extend more full R).run ledger).1.erase.Sound := by
  obtain ⟨hhead, hslots⟩ := sound_fixed h
  have hrest := sound_ofList R [] ledger
  refine .continued hhead (Nat.le_trans hslots arity.2) hrest fun ledger' => ?_
  have hempty : ((ofList R []).run ledger).1.erase.length = 0 := by
    show ((ofReturns R ((Returns.ofList []).run ledger).1).run _).1.erase.length = 0
    rw [erase_ofReturns]
    exact Shaped.length_build_of_isEmpty R.isSupported_shape (Returns.wellFormed_ofList _ _) rfl _
  exact Returns.joinable_of_isEmpty ((hrest.length_toReturns ledger').trans hempty)

end Typed

theorem Shaped.sound_create {shape : Shape} {offset : Nat} {values : List Value}
    {x : Build Shaped} (h : create shape offset values = .ok x) (ledger : Ledger) :
    (x.run ledger).1.Sound := by
  obtain ⟨hshape, hrun⟩ := run_create h
  rw [hrun]
  exact sound_build hshape ((Returns.wellFormed_ofList values ledger).drop offset) _

theorem Shape.isSupported_infer (values : List Value) : (infer values).isSupported = true := by
  fun_induction infer values with
  | case1 values hempty => rfl
  | case2 values hne hle =>
    have hpos : values.length ≠ 0 := by simpa using hne
    simp only [isSupported, List.length_map, decide_eq_true_eq]
    omega
  | case3 values hne hlong ih =>
    simp only [isSupported, List.length_map, List.length_take, ih, Bool.and_true,
      decide_eq_true_eq]
    omega

theorem Shaped.Sound.rest {x rest : Shaped} (h : x.Sound) (hrest : x.rest? = some rest) :
    rest.Sound := by
  cases h with
  | untyped _ => cases hrest
  | fixed _ _ => cases hrest
  | continued _ _ hsound _ =>
    cases hrest
    exact hsound

theorem Shaped.eq_ofReturns_of_downcast {x : Shaped} {T : Layout} {y : Typed T}
    {ledger ledger' : Ledger} (hy : (x.downcast? T).run ledger = (some y, ledger')) :
    let rejoined := x.toReturns.run ledger
    y = ((Typed.ofReturns T rejoined.1).run rejoined.2).1 := by
  unfold downcast? at hy
  split at hy
  · cases hy
    rfl
  · cases hy

theorem Shaped.sound_downcast {x : Shaped} (h : x.Sound) {T : Layout} {y : Typed T}
    {ledger ledger' : Ledger} (hy : (x.downcast? T).run ledger = (some y, ledger')) :
    y.erase.Sound := by
  rw [eq_ofReturns_of_downcast hy]
  exact Typed.sound_ofReturns T (h.wellFormed_toReturns ledger) _

theorem Built.sound {m : Member} (h : Built m) : m.erase.Sound := by
  have view {r : Returns} (hr : (Member.returns r).erase.Sound) : r.WellFormed := by
    cases hr with
    | untyped hview => exact hview
  induction h with
  | ofList values ledger => exact .untyped (Returns.wellFormed_ofList values ledger)
  | drop n _ ih => exact .untyped ((view ih).drop n)
  | take n _ ih => exact .untyped ((view ih).take n)
  | @toReturns m ledger _ ih =>
    refine .untyped ?_
    rw [← m.toReturns_erase]
    exact ih.wellFormed_toReturns ledger
  | untyped _ ih => exact ih
  | ofReturns T ledger _ ih => exact Typed.sound_ofReturns T (view ih) ledger
  | ofTypedList T values ledger => exact Typed.sound_ofList T values ledger
  | ofSlots arity contents ledger =>
    exact .fixed (Returns.wellFormed_ofList _ ledger) (Typed.length_ofContents_le contents ledger)
  | ofSlotsAnd arity contents ledger _ ih => exact Typed.sound_ofSlotsAnd contents ih ledger
  | ofSlotsAndList arity R contents rest ledger =>
    exact Typed.sound_ofSlotsAnd contents (Typed.sound_ofList R rest ledger) _
  | empty arity ledger => exact .fixed (Returns.wellFormed_ofList [] ledger) (Nat.zero_le _)
  | rest _ ih => exact (Typed.sound_continued ih).2.2
  | @adjust T x U ledger _ ih =>
    refine Typed.sound_ofReturns U ?_ _
    rw [← x.toReturns_erase]
    exact ih.wellFormed_toReturns ledger
  | widen slot room _ ih =>
    obtain ⟨hhead, hslots⟩ := Typed.sound_fixed ih
    exact .fixed hhead (by rw [List.length_append]; omega)
  | extend more full R ledger _ ih => exact Typed.sound_extend ih more full ledger
  | @narrow slots slot room x arity _ ih =>
    obtain ⟨hhead, _⟩ := Typed.sound_fixed ih
    exact .fixed (hhead.take slots.length)
      (Nat.le_trans (x.head.length_take_le slots.length) (Nat.min_le_left _ _))
  | @narrowRest slots full R x _ ih =>
    obtain ⟨hhead, hslots, _⟩ := Typed.sound_continued ih
    exact .fixed hhead (by omega)
  | create ledger h => exact Shaped.sound_create h ledger
  | createInferred values ledger =>
    exact Shaped.sound_build (Shape.isSupported_infer values)
      (Returns.wellFormed_ofList values ledger) _
  | shapedRest hrest _ ih => exact ih.rest hrest
  | downcast hy _ ih => exact Shaped.sound_downcast ih hy

/-! ## What is read -/

/-- The values of a joined object, where they were copied and where the head's window was extended. -/
theorem Shaped.Sound.join_eq_copy {slots : List Category} {head : Returns} {rest : Shaped}
    (h : (Shaped.continued slots head rest).Sound) (ledger₁ ledger₂ ledger₃ : Ledger) (i : Nat) :
    ((head.join layerArity (rest.toReturns.run ledger₁).1).run ledger₂).1.get i =
      ((Returns.ofList (head.joinedValues layerArity (rest.toReturns.run ledger₁).1)).run
        ledger₃).1.get i := by
  cases h with
  | continued hhead hslots hrest hjoin =>
    have htail := hrest.wellFormed_toReturns ledger₁
    rw [Returns.get_join hhead hslots htail (hjoin ledger₁), Returns.get_ofList,
      Returns.joinedValues_getElem? htail]

/-- **The readings of an object agree.** On whatever has been built, the length is one past the last
value that is read as not nil, and the values rejoined from the layers count and read as the object
does. Where a continuation lies in the buffer of the layer before it, right behind that layer's seven
positions, the buffer holds at these what the object reads there; so joining by extending the window
reads as joining by copying. -/
theorem Built.readings_agree {m : Member} (h : Built m) (ledger : Ledger) :
    (∀ i, m.length ≤ i → m.get i = .nil) ∧
    (m.length = 0 ∨ m.get (m.length - 1) ≠ .nil) ∧
    (m.toReturns.run ledger).1.length = m.length ∧
    (∀ i, (m.toReturns.run ledger).1.get i = m.get i) ∧
    ∀ head rest, m.layers? = some (head, rest) → ∀ ledger₁ ledger₂ ledger₃,
      let tail := (rest.toReturns.run ledger₁).1
      let joined := ((head.join layerArity tail).run ledger₂).1
      let copied := ((Returns.ofList (head.firstValues layerArity ++ tail.toList)).run ledger₃).1
      (tail.isEmpty = false → head.sharesBuffer tail = true →
        tail.offset = head.offset + layerArity →
        ∀ i, i < layerArity → Value.ofOption head.buffer.values[head.offset + i]? = m.get i) ∧
      joined.length = copied.length ∧ ∀ i, joined.get i = copied.get i := by
  have hsound := h.sound
  have hlen := m.length_erase
  have hget := m.get_erase
  have htrimmed : Trimmed m.length m.get := by
    rw [← hlen, ← funext hget]
    exact hsound.trimmed
  refine ⟨htrimmed.1, htrimmed.2, ?_, ?_, ?_⟩
  · rw [← m.toReturns_erase, hsound.length_toReturns, hlen]
  · intro i
    rw [← m.toReturns_erase, hsound.get_toReturns, hget]
  · intro head rest hlayers ledger₁ ledger₂ ledger₃
    obtain ⟨slots, herase⟩ := Member.erase_of_layers? hlayers
    rw [herase] at hsound
    rw [← rest.toReturns_erase]
    have hread : ∀ i, i < layerArity → m.get i = head.get i := by
      intro i hi
      rw [← hget, herase, Shaped.get, if_pos hi]
    have hcopy := hsound.join_eq_copy ledger₁ ledger₂ ledger₃
    cases hsound with
    | continued hhead hslots hrest hjoin =>
      refine ⟨?_, ?_, hcopy⟩
      · intro hne hshared hoffset i hi
        rw [hread i hi]
        exact hjoin ledger₁ hne (by simpa [Returns.sharesBuffer] using hshared) hoffset i hi
      · have hwf := Returns.wellFormed_join hhead hslots (hrest.wellFormed_toReturns ledger₁) ledger₂
        exact hwf.length_congr (Returns.wellFormed_ofList _ ledger₃) hcopy

def openLayout : Layout := .continued (List.replicate 7 .any) rfl .untyped

/-- One value, six nils and two values: the first layer counts one position, and the rest lies behind
seven in the same buffer. -/
def sparseMember : Member :=
  .typed ((Typed.ofList openLayout ([.boolean true] ++ List.replicate 6 .nil ++
    [.boolean false, .string "last"])).run {}).1

theorem readings_agree_sparse :
    Built sparseMember ∧ sparseMember.length = 9 ∧
      (sparseMember.toReturns.run {}).1.length = sparseMember.length ∧
      ∀ i, (sparseMember.toReturns.run {}).1.get i = sparseMember.get i := by
  have hbuilt : Built sparseMember := .ofTypedList openLayout _ {}
  have h := hbuilt.readings_agree {}
  exact ⟨hbuilt, by decide, h.2.2.1, h.2.2.2.1⟩

end LuaHost
