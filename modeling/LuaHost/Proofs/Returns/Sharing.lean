import LuaHost.Proofs.Returns.Adjustment

/-!
# LuaHost.Proofs.Returns.Sharing

Typing values that fit their slots.

* `Shape.Accepts`: every slot of every layer accepts the value at its position.
* `Returns.exists_join_take`: a window from behind the first positions of another is rejoined to these
  without a new buffer.
* `Shaped.windows`: the layers as windows of the values, one behind the other. Typing values that fit
  comes to these (`Shaped.build_of_accepts`), and rejoining them gives one window again
  (`Shaped.exists_rejoins`).
* `Member.Nested`: the rests of an object, the rests of these, and so on.
* `typing_shares_buffer`: where values fit, all layers, and all that is rejoined from them, lie in the
  values' own buffer.
-/

namespace LuaHost

/-! ## Values that fit -/

namespace Shape

/-- Each slot, counted through all layers, accepts what is read at its position. -/
def Accepts (shape : Shape) (get : Nat → Value) : Prop :=
  ∀ (i : Nat) (slot : Category), shape.allSlots[i]? = some slot → slot.accepts (get i) = true

/-- A position for which there is a slot, or which falls to an untyped rest. -/
def HasPosition (shape : Shape) (i : Nat) : Prop :=
  i < shape.allSlots.length ∨ shape.isOpen = true

instance (shape : Shape) (get : Nat → Value) : Decidable (shape.Accepts get) :=
  decidable_of_iff (∀ i : Fin shape.allSlots.length, (shape.allSlots[i]).accepts (get i) = true)
    ⟨fun h i _ hslot =>
      (List.getElem?_eq_some_iff.1 hslot).2 ▸ h ⟨i, (List.getElem?_eq_some_iff.1 hslot).1⟩,
    fun h i => h i _ (List.getElem?_eq_getElem i.isLt)⟩

instance (shape : Shape) (i : Nat) : Decidable (shape.HasPosition i) :=
  inferInstanceAs (Decidable (_ ∨ _))

section Continued

variable {slots : List Category} {tail : Shape}

theorem Accepts.head {get : Nat → Value} (h : (continued slots tail).Accepts get) {i : Nat}
    {slot : Category} (hslot : slots[i]? = some slot) : slot.accepts (get i) = true := by
  refine h i slot ?_
  rw [allSlots, List.getElem?_append_left (List.getElem?_eq_some_iff.1 hslot).1]
  exact hslot

theorem Accepts.behind {v : Returns} (harity : slots.length = layerArity)
    (h : (continued slots tail).Accepts v.get) : tail.Accepts (v.drop layerArity).get := by
  intro i slot hslot
  rw [Returns.get_drop]
  refine h (layerArity + i) slot ?_
  rw [allSlots, List.getElem?_append_right (by omega), harity, Nat.add_sub_cancel_left]
  exact hslot

theorem hasPosition_of_lt (harity : slots.length = layerArity) {i : Nat} (hi : i < layerArity) :
    (continued slots tail).HasPosition i := by
  refine .inl ?_
  rw [allSlots, List.length_append]
  omega

theorem hasPosition_continued (harity : slots.length = layerArity) {i : Nat} (hi : layerArity ≤ i) :
    (continued slots tail).HasPosition i ↔ tail.HasPosition (i - layerArity) := by
  simp only [HasPosition, allSlots, List.length_append, isOpen, harity]
  refine or_congr_left ?_
  omega

end Continued
end Shape

/-! ## Without a new buffer -/

namespace Returns

theorem conform_of_accepts {v : Returns} {slots : List Category}
    (h : ∀ (i : Nat) (slot : Category), slots[i]? = some slot → slot.accepts (v.get i) = true)
    (ledger : Ledger) : (v.conform slots).run ledger = (v.take slots.length, ledger) := by
  have hnone : (v.take slots.length).misfits slots = [] := by
    refine misfits_eq_nil_iff.2 fun i slot hslot => ?_
    rw [get_take, if_pos (List.getElem?_eq_some_iff.1 hslot).1]
    exact h i slot hslot
  unfold conform
  simp only [hnone]
  rfl

section Join

variable {head tail : Returns} {n : Nat}

theorem join_of_isEmpty (h : tail.length = 0) (ledger : Ledger) :
    (head.join n tail).run ledger = (head.take n, ledger) := by
  unfold join
  simp only [isEmpty_iff.2 h, if_true]
  rfl

theorem join_of_adjacent (h : tail.length ≠ 0) (hbuffer : head.buffer = tail.buffer)
    (hoffset : tail.offset = head.offset + n) (ledger : Ledger) :
    (head.join n tail).run ledger = ({ head with count := n + tail.count }, ledger) := by
  have hne : ¬ tail.isEmpty = true := fun hempty => h (isEmpty_iff.1 hempty)
  have hshares :
      ((head.take n).sharesBuffer tail && tail.offset == (head.take n).offset + n) = true := by
    rw [Bool.and_eq_true]
    exact ⟨beq_iff_eq.2 hbuffer, beq_iff_eq.2 hoffset⟩
  unfold join
  simp only [if_neg hne, if_pos hshares]
  rfl

end Join

/-- The first `n` positions of a window and a part of what is behind them, rejoined: one window that
begins where the whole one does. A part that is not empty lies right behind the `n` positions, since
there is something behind them only where all `n` are counted. -/
theorem exists_join_take (v : Returns) (n : Nat) {rest : Returns} (hbuffer : rest.buffer = v.buffer)
    (hoffset : rest.offset = (v.drop n).offset) (hlength : rest.length ≤ (v.drop n).length) :
    ∃ r : Returns, (∀ ledger, ((v.take n).join n rest).run ledger = (r, ledger)) ∧
      r.buffer = v.buffer ∧ r.offset = v.offset ∧ r.length ≤ v.length ∧
      ∀ i, r.get i = if i < n then v.get i else rest.get (i - n) := by
  by_cases hempty : rest.length = 0
  · refine ⟨(v.take n).take n, join_of_isEmpty hempty, rfl, rfl, ?_, fun i => ?_⟩
    · have htake := v.length_take_le n
      have htwice := (v.take n).length_take_le n
      omega
    · rw [get_take, get_take, rest.get_of_length_le (by omega)]
      split
      · rfl
      · rfl
  · have hleft : (v.drop n).length = v.length - min n v.length := rfl
    have hfull : n ≤ v.length := by omega
    have hstart : rest.offset = v.offset + n := by
      rw [hoffset]
      show v.offset + min n v.length = v.offset + n
      rw [Nat.min_eq_left hfull]
    refine ⟨{ v with count := n + rest.count }, join_of_adjacent hempty hbuffer.symm hstart, rfl, rfl,
      ?_, fun i => ?_⟩
    · show n + rest.length ≤ v.length
      omega
    · by_cases hi : i < n
      · rw [if_pos hi, get_of_lt (r := { v with count := _ }) (Nat.lt_add_right _ hi),
          get_of_lt (by omega)]
      · rw [if_neg hi, get_extended hbuffer.symm hstart (Nat.le_of_not_lt hi)]

end Returns

/-! ## Layers as windows -/

namespace Shaped

/-- The window of the first layer. -/
def head : Shaped → Returns
  | .untyped view => view
  | .fixed _ view => view
  | .continued _ head _ => head

/-- Each layer as a window of the values, behind that of the layer before it. -/
def windows : Shape → Returns → Shaped
  | .untyped, v => .untyped v
  | .fixed slots, v => .fixed slots (v.take slots.length)
  | .continued slots tail, v =>
    .continued slots (v.take slots.length) (windows tail (v.drop layerArity))

theorem buffer_head_windows (shape : Shape) (v : Returns) :
    (windows shape v).head.buffer = v.buffer := by
  cases shape with
  | untyped => rfl
  | fixed slots => rfl
  | continued slots tail => rfl

theorem shape_windows (shape : Shape) (v : Returns) : (windows shape v).shape = shape := by
  induction shape generalizing v with
  | untyped => rfl
  | fixed slots => rfl
  | continued slots tail ih => rw [windows, Shaped.shape, ih]

theorem build_of_accepts {shape : Shape} (hshape : shape.isSupported = true) {v : Returns}
    (h : shape.Accepts v.get) (ledger : Ledger) :
    (build shape v).run ledger = (windows shape v, ledger) := by
  induction shape generalizing v ledger with
  | untyped => rfl
  | fixed slots =>
    have hview : (v.conform slots).run ledger = (v.take slots.length, ledger) :=
      Returns.conform_of_accepts h ledger
    show ((fixed slots ((v.conform slots).run ledger).1, ((v.conform slots).run ledger).2) :
      Shaped × Ledger) = _
    rw [hview]
    rfl
  | continued slots tail ih =>
    simp only [Shape.isSupported, Bool.and_eq_true, decide_eq_true_eq] at hshape
    obtain ⟨harity, htail⟩ := hshape
    have hhead := Returns.conform_of_accepts (fun i slot => h.head) ledger
    have hrest := ih htail (h.behind harity) ledger
    let after := ((v.conform slots).run ledger).2
    have hafter : after = ledger := congrArg Prod.snd hhead
    show ((continued slots ((v.conform slots).run ledger).1
        ((build tail (v.drop layerArity)).run after).1,
      ((build tail (v.drop layerArity)).run after).2) : Shaped × Ledger) = _
    rw [hafter, hhead, hrest]
    rfl

/-- What the layers are rejoined to: a window that begins where the values do and is no longer, with
nothing new made for it. -/
structure Rejoins (shape : Shape) (v r : Returns) : Prop where
  run : ∀ ledger, (windows shape v).toReturns.run ledger = (r, ledger)
  buffer : r.buffer = v.buffer
  offset : r.offset = v.offset
  length_le : r.length ≤ v.length
  get : ∀ i, r.get i = if shape.HasPosition i then v.get i else .nil

theorem exists_rejoins {shape : Shape} (hshape : shape.isSupported = true) (v : Returns) :
    ∃ r, Rejoins shape v r := by
  induction shape generalizing v with
  | untyped => exact ⟨v, fun _ => rfl, rfl, rfl, Nat.le_refl _, fun i => (if_pos (.inr rfl)).symm⟩
  | fixed slots =>
    refine ⟨v.take slots.length, fun _ => rfl, rfl, rfl, ?_, fun i => ?_⟩
    · exact Nat.le_trans (v.length_take_le _) (Nat.min_le_right _ _)
    · rw [Returns.get_take]
      simp only [Shape.HasPosition, Shape.allSlots, Shape.isOpen, Bool.false_eq_true, or_false]
  | continued slots tail ih =>
    simp only [Shape.isSupported, Bool.and_eq_true, decide_eq_true_eq] at hshape
    obtain ⟨harity, htail⟩ := hshape
    obtain ⟨rest, hrest⟩ := ih htail (v.drop layerArity)
    obtain ⟨r, hrun, hbuffer, hoffset, hlength, hget⟩ :=
      v.exists_join_take layerArity hrest.buffer hrest.offset hrest.length_le
    refine ⟨r, fun ledger => ?_, hbuffer, hoffset, hlength, fun i => ?_⟩
    · rw [windows, toReturns_continued, hrest.run, harity, hrun]
    · rw [hget]
      by_cases hi : i < layerArity
      · rw [if_pos hi, if_pos (Shape.hasPosition_of_lt harity hi)]
      · have hle := Nat.le_of_not_lt hi
        rw [if_neg hi, hrest.get, Returns.get_drop, Nat.add_sub_cancel' hle]
        simp only [Shape.hasPosition_continued harity hle]

end Shaped

/-! ## Nested rests -/

namespace Member

def shape (m : Member) : Shape := m.erase.shape

/-- The window of the first layer. -/
def head : Member → Returns
  | .returns r => r
  | .typed x => x.head
  | .shaped x => x.head

/-- The `k`-th rest of an object: itself, its rest, the rest of that, and so on. -/
inductive Nested : Nat → Member → Member → Prop where
  | self (m : Member) : Nested 0 m m
  | rest {k : Nat} {m rest inner : Member} {head : Returns} :
      m.layers? = some (head, rest) → Nested k rest inner → Nested (k + 1) m inner

/-- The object lies in the buffer of the values and shows them from `start` on: its first layer and
what is rejoined from all its layers are windows of that buffer, rejoining makes no other, and it reads
what the values hold at the positions that it has. -/
structure Shows (m : Member) (v : Returns) (start : Nat) : Prop where
  head : m.head.sharesBuffer v = true
  rejoined : ∃ r, (∀ ledger, m.toReturns.run ledger = (r, ledger)) ∧ r.sharesBuffer v = true ∧
    ∀ i, r.get i = if m.shape.HasPosition i then v.get (start + i) else .nil

theorem head_erase (m : Member) : m.erase.head = m.head := by
  cases m with
  | returns r => rfl
  | typed x => cases x <;> rfl
  | shaped x => rfl

/-- The layers of an object are those of the object with its layout forgotten. -/
theorem Nested.erase {k : Nat} {m inner : Member} (h : Nested k m inner) :
    Nested k (.shaped m.erase) (.shaped inner.erase) := by
  induction h with
  | self m => exact .self _
  | rest hlayers _ ih =>
    obtain ⟨slots, herase⟩ := erase_of_layers? hlayers
    rw [herase]
    exact .rest rfl ih

theorem Shows.of_erase {m : Member} {v : Returns} {start : Nat}
    (h : (shaped m.erase).Shows v start) : m.Shows v start := by
  have hhead : (shaped m.erase).head = m.head := m.head_erase
  have hrejoin : (shaped m.erase).toReturns = m.toReturns := m.toReturns_erase
  have hshape : (shaped m.erase).shape = m.shape := rfl
  refine ⟨hhead ▸ h.head, ?_⟩
  rw [← hrejoin, ← hshape]
  exact h.rejoined

theorem Shows.of_drop {m : Member} {v : Returns} {n start : Nat} (h : m.Shows (v.drop n) start) :
    m.Shows v (n + start) := by
  obtain ⟨r, hrun, hshares, hget⟩ := h.rejoined
  refine ⟨h.head, r, hrun, hshares, fun i => ?_⟩
  rw [hget, Returns.get_drop, Nat.add_assoc]

theorem shows_windows {shape : Shape} (hshape : shape.isSupported = true) (v : Returns) :
    (shaped (Shaped.windows shape v)).Shows v 0 := by
  obtain ⟨r, hr⟩ := Shaped.exists_rejoins hshape v
  refine ⟨beq_iff_eq.2 (Shaped.buffer_head_windows shape v), r, hr.run, beq_iff_eq.2 hr.buffer,
    fun i => ?_⟩
  have hof : (shaped (Shaped.windows shape v)).shape = shape := Shaped.shape_windows shape v
  rw [hr.get, hof, Nat.zero_add]

theorem shows_of_nested {shape : Shape} (hshape : shape.isSupported = true) {v : Returns} {k : Nat}
    {inner : Member} (h : Nested k (.shaped (Shaped.windows shape v)) inner) :
    inner.Shows v (k * layerArity) := by
  induction shape generalizing v k with
  | untyped =>
    cases h with
    | self => exact shows_windows hshape v
    | rest hlayers _ => cases hlayers
  | fixed slots =>
    cases h with
    | self => exact shows_windows hshape v
    | rest hlayers _ => cases hlayers
  | continued slots tail ih =>
    cases h with
    | self =>
      rw [Nat.zero_mul]
      exact shows_windows hshape v
    | @rest k _ _ _ _ hlayers hrest =>
      cases hlayers
      simp only [Shape.isSupported, Bool.and_eq_true, decide_eq_true_eq] at hshape
      have hinner := (ih hshape.2 hrest).of_drop
      rwa [Nat.add_comm, ← Nat.succ_mul] at hinner

end Member

/-! ## Typing -/

/-- **Typing values that fit makes no copy.** Take any window of any buffer, and any type of the family
or supported shape of which each slot, in whichever layer, accepts the value at its position. Typing the
values reports nothing and makes no buffer. The window of every layer lies in the values' own buffer.
So does what is rejoined from the whole object, from its rest, from the rest of that, and so on, and
rejoining makes no buffer either: it reads as the values do, from seven positions further on for each
layer left behind, at the positions that the type or shape has, and as nil at all others. -/
theorem typing_shares_buffer (v : Returns) (ledger : Ledger) :
    (∀ T : Layout, T.shape.Accepts v.get →
      ∃ x, (Typed.ofReturns T v).run ledger = (x, ledger) ∧
        ∀ k inner, Member.Nested k (.typed x) inner → inner.Shows v (k * layerArity)) ∧
    ∀ shape : Shape, shape.isSupported = true → shape.Accepts v.get →
      ∃ x, (Shaped.build shape v).run ledger = (x, ledger) ∧ x.shape = shape ∧
        ∀ k inner, Member.Nested k (.shaped x) inner → inner.Shows v (k * layerArity) := by
  refine ⟨fun T haccepts => ?_, fun shape hshape haccepts => ?_⟩
  · have hbuild := Shaped.build_of_accepts T.isSupported_shape haccepts ledger
    rw [Typed.run_build_shape, Prod.mk.injEq] at hbuild
    obtain ⟨herase, hledger⟩ := hbuild
    refine ⟨((Typed.ofReturns T v).run ledger).1, Prod.ext rfl hledger, fun k inner hnested => ?_⟩
    have hwindows := hnested.erase
    rw [show (Member.typed _).erase = Shaped.windows T.shape v from herase] at hwindows
    exact (Member.shows_of_nested T.isSupported_shape hwindows).of_erase
  · refine ⟨_, Shaped.build_of_accepts hshape haccepts ledger, Shaped.shape_windows shape v, ?_⟩
    exact fun k inner hnested => Member.shows_of_nested hshape hnested

/-- All positions of a buffer but the first, which holds an integer: seven nils and a boolean. -/
def laterWindow : Returns :=
  ((Returns.ofList ([.integer 0] ++ List.replicate 7 .nil ++ [.boolean true])).run {}).1.drop 1

/-- The first layer is empty, and the rest begins behind the seven positions that it spans. -/
theorem typing_shares_buffer_later :
    nineBooleans.shape.Accepts laterWindow.get ∧
    let x := ((Typed.ofReturns nineBooleans laterWindow).run {}).1
    (Member.typed x).head.length = 0 ∧
    ∃ head rest, (Member.typed x).layers? = some (head, rest) ∧ rest.Shows laterWindow layerArity ∧
      (rest.toReturns.run {}).1.get 0 = .boolean true := by
  have haccepts : nineBooleans.shape.Accepts laterWindow.get := by decide
  obtain ⟨x, hrun, hnested⟩ := (typing_shares_buffer laterWindow {}).1 nineBooleans haccepts
  have hx : x = ((Typed.ofReturns nineBooleans laterWindow).run {}).1 := by rw [hrun]
  subst hx
  exact ⟨haccepts, by decide, _, _, rfl, hnested 1 _ (.rest rfl (.self _)), by decide⟩

end LuaHost
