import LuaHost.Returns.Basic

/-!
# LuaHost.Proofs.Returns.Window

Windows of buffers, and what the operations on them keep.

* `Trimmed`: a length that ends with the last value that is read as not nil. What is read fixes the
  length (`Trimmed.length_unique`).
* `Returns.WellFormed`: a window that lies in its buffer and is trimmed. Every window is made so, and
  `drop`, `take`, `join` and `conform` keep it so.
* `Returns.Joinable`: what `join` relies on when it extends a window instead of copying it.
-/

namespace LuaHost

/-- Nothing but nil is read from `length` on, and something else just before it. -/
def Trimmed (length : Nat) (get : Nat → Value) : Prop :=
  (∀ i, length ≤ i → get i = .nil) ∧ (length = 0 ∨ get (length - 1) ≠ .nil)

theorem Trimmed.length_le {n m : Nat} {get : Nat → Value} (hn : Trimmed n get)
    (hm : ∀ i, m ≤ i → get i = .nil) : n ≤ m := by
  rcases hn.2 with h | h
  · omega
  · by_cases hle : n ≤ m
    · exact hle
    · exact absurd (hm (n - 1) (by omega)) h

theorem Trimmed.length_unique {n m : Nat} {get : Nat → Value} (hn : Trimmed n get)
    (hm : Trimmed m get) : n = m :=
  Nat.le_antisymm (hn.length_le hm.1) (hm.length_le hn.1)

theorem trimmed_trimmedLength (values : List Value) :
    Trimmed (trimmedLength values) fun i => Value.ofOption values[i]? := by
  refine ⟨fun i hi => isNil_of_trimmedLength_le hi, ?_⟩
  induction values with
  | nil => exact .inl rfl
  | cons value rest ih =>
    simp only [trimmedLength]
    cases hrest : trimmedLength rest with
    | zero =>
      cases value <;> simp [Value.isNil, Value.ofOption]
    | succ n =>
      rw [hrest] at ih
      rcases ih with h | h
      · omega
      · exact .inr (by simpa using h)

namespace Returns

/-! ## Well-formed windows -/

structure WellFormed (r : Returns) : Prop where
  inside : r.offset + r.length ≤ r.buffer.values.length
  trimmed : Trimmed r.length r.get

/-- Only the last counted value is left to look at: past the end nil is read by definition. -/
theorem WellFormed.of_last {r : Returns} (inside : r.offset + r.length ≤ r.buffer.values.length)
    (last : r.length = 0 ∨ r.get (r.length - 1) ≠ .nil) : r.WellFormed :=
  ⟨inside, fun _ h => r.get_of_length_le h, last⟩

theorem get_of_lt {r : Returns} {i : Nat} (h : i < r.length) :
    r.get i = Value.ofOption r.buffer.values[r.offset + i]? :=
  if_pos h

theorem isEmpty_iff {r : Returns} : r.isEmpty = true ↔ r.length = 0 := by
  simp [isEmpty, length]

theorem WellFormed.length_congr {r s : Returns} (hr : r.WellFormed) (hs : s.WellFormed)
    (h : ∀ i, r.get i = s.get i) : r.length = s.length := by
  have hget : r.get = s.get := funext h
  exact (hget ▸ hr.trimmed).length_unique hs.trimmed

theorem wellFormed_ofList (values : List Value) (ledger : Ledger) :
    ((ofList values).run ledger).1.WellFormed := by
  refine ⟨?_, ?_⟩
  · show 0 + trimmedLength values ≤ values.length
    rw [Nat.zero_add]
    exact trimmedLength_le values
  · rw [funext (get_ofList values ledger)]
    exact trimmed_trimmedLength values

theorem get_drop_ofList (values : List Value) (offset : Nat) (ledger : Ledger) (i : Nat) :
    (((ofList values).run ledger).1.drop offset).get i =
      Value.ofOption (values.drop offset)[i]? := by
  rw [get_drop, get_ofList, List.getElem?_drop]

theorem WellFormed.drop {r : Returns} (h : r.WellFormed) (n : Nat) : (r.drop n).WellFormed := by
  have hlen : (r.drop n).length = r.length - min n r.length := rfl
  refine .of_last ?_ ?_
  · show r.offset + min n r.length + (r.length - min n r.length) ≤ r.buffer.values.length
    have := h.inside
    omega
  · rw [get_drop, hlen]
    by_cases hn : r.length ≤ n
    · left; omega
    · right
      rw [show n + (r.length - min n r.length - 1) = r.length - 1 by omega]
      rcases h.trimmed.2 with hzero | hlast
      · omega
      · exact hlast

/-- What `take` counts and reads, as a window of the values it is taken from. -/
theorem take_trimmed (r : Returns) (n : Nat) : Trimmed (r.take n).length (r.take n).get := by
  refine ⟨fun i hi => (r.take n).get_of_length_le hi, ?_⟩
  let window := (r.buffer.values.drop r.offset).take (min n r.count)
  have hlen : (r.take n).length = trimmedLength window := rfl
  by_cases hz : (r.take n).length = 0
  · exact .inl hz
  · right
    have hle := trimmedLength_le window
    rw [← hlen, List.length_take, List.length_drop] at hle
    have hlast : Value.ofOption window[(r.take n).length - 1]? ≠ .nil :=
      (trimmed_trimmedLength window).2.resolve_left (hlen ▸ hz)
    rw [List.getElem?_take_of_lt (by omega), List.getElem?_drop] at hlast
    rw [get_of_lt (by omega)]
    exact hlast

theorem length_take_le (r : Returns) (n : Nat) : (r.take n).length ≤ min n r.length := by
  apply (r.take_trimmed n).length_le
  intro i hi
  rw [get_take]
  split
  · exact r.get_of_length_le (by omega)
  · rfl

theorem WellFormed.take {r : Returns} (h : r.WellFormed) (n : Nat) : (r.take n).WellFormed := by
  refine ⟨?_, r.take_trimmed n⟩
  have := r.length_take_le n
  have := h.inside
  show r.offset + (r.take n).length ≤ r.buffer.values.length
  omega

/-! ## Joining -/

/-- Where the tail lies right behind the first `n` positions of the head's buffer, the buffer holds at
those positions what the head reads there. -/
def Joinable (head : Returns) (n : Nat) (tail : Returns) : Prop :=
  tail.isEmpty = false → head.buffer = tail.buffer → tail.offset = head.offset + n →
    ∀ i, i < n → Value.ofOption head.buffer.values[head.offset + i]? = head.get i

theorem joinable_of_isEmpty {head tail : Returns} {n : Nat} (h : tail.length = 0) :
    head.Joinable n tail := by
  intro hne
  rw [isEmpty_iff.2 h] at hne
  cases hne

/-- A buffer that ends at position `n` has no tail behind it. -/
theorem joinable_of_short {head tail : Returns} {n : Nat} (ht : tail.WellFormed)
    (hshort : head.buffer.values.length ≤ head.offset + n) : head.Joinable n tail := by
  intro hne hbuf hoff
  have hin := ht.inside
  have hpos : tail.length ≠ 0 := by
    intro hzero
    rw [isEmpty_iff.2 hzero] at hne
    cases hne
  rw [← hbuf, hoff] at hin
  omega

/-- The first `n` positions of a window that counts that many are those of its buffer. -/
theorem joinable_take {r tail : Returns} {n : Nat} (hr : n ≤ r.length) :
    (r.take n).Joinable n tail := by
  intro _ _ _ i hi
  rw [get_take, if_pos hi, get_of_lt (by omega)]
  rfl

theorem take_eq_of_length_le {r : Returns} {n : Nat} (hr : r.WellFormed) (hn : r.length ≤ n) :
    r.take n = r := by
  have hcount : (r.take n).length = r.length := by
    apply (hr.take n).length_congr hr
    intro i
    rw [get_take]
    split
    · rfl
    · rw [r.get_of_length_le (by omega)]
  show { r with count := (r.take n).count } = r
  rw [show (r.take n).count = r.count from hcount]

/-- The values that `join` copies where it does not extend the window. -/
def joinedValues (head : Returns) (n : Nat) (tail : Returns) : List Value :=
  head.firstValues n ++ tail.toList

theorem toList_getElem? {r : Returns} (h : r.WellFormed) (i : Nat) :
    Value.ofOption r.toList[i]? = r.get i := by
  have hin := h.inside
  by_cases hi : i < r.length
  · rw [get_of_lt hi, toList, List.getElem?_take_of_lt (show i < r.count from hi),
      List.getElem?_drop]
  · have hlen : r.toList.length ≤ i := by
      rw [toList, List.length_take, List.length_drop]
      have : r.count = r.length := rfl
      omega
    rw [List.getElem?_eq_none hlen, r.get_of_length_le (Nat.le_of_not_lt hi)]
    rfl

theorem joinedValues_getElem? {head tail : Returns} {n : Nat} (ht : tail.WellFormed) (i : Nat) :
    Value.ofOption (head.joinedValues n tail)[i]? =
      if i < n then head.get i else tail.get (i - n) := by
  have hlen : (head.firstValues n).length = n := by simp [firstValues]
  by_cases hi : i < n
  · rw [if_pos hi, joinedValues, List.getElem?_append_left (by omega)]
    simp [firstValues, hi, Value.ofOption]
  · rw [if_neg hi, joinedValues, List.getElem?_append_right (by omega), hlen, toList_getElem? ht]

theorem join_cases {head : Returns} {n : Nat} (hh : head.WellFormed) (hn : head.length ≤ n)
    (tail : Returns) (ledger : Ledger) :
    (tail.length = 0 ∧ ((head.join n tail).run ledger).1 = head) ∨
    (tail.isEmpty = false ∧ head.buffer = tail.buffer ∧ tail.offset = head.offset + n ∧
      ((head.join n tail).run ledger).1 = { head with count := n + tail.count }) ∨
    ((head.join n tail).run ledger).1 = ((ofList (head.joinedValues n tail)).run ledger).1 := by
  unfold join
  simp only [take_eq_of_length_le hh hn]
  split
  · rename_i hempty
    exact .inl ⟨isEmpty_iff.1 hempty, rfl⟩
  · rename_i hempty
    split
    · rename_i hshared
      simp only [sharesBuffer, Bool.and_eq_true, beq_iff_eq] at hshared
      exact .inr (.inl ⟨by simpa using hempty, hshared.1, hshared.2, rfl⟩)
    · exact .inr (.inr rfl)

/-- A window extended over what lies behind its first `n` positions reads it there. -/
theorem get_extended {head tail : Returns} {n : Nat} (hbuf : head.buffer = tail.buffer)
    (hoff : tail.offset = head.offset + n) {i : Nat} (hi : n ≤ i) :
    Returns.get { head with count := n + tail.count } i = tail.get (i - n) := by
  show (if i < n + tail.count then Value.ofOption head.buffer.values[head.offset + i]? else .nil) =
    if i - n < tail.count then Value.ofOption tail.buffer.values[tail.offset + (i - n)]? else .nil
  rw [← hbuf, hoff, show head.offset + n + (i - n) = head.offset + i by omega]
  by_cases hc : i < n + tail.count
  · rw [if_pos hc, if_pos (by omega)]
  · rw [if_neg hc, if_neg (by omega)]

/-- Joining reads the head at its positions and the tail behind them, copied or not. -/
theorem get_join {head tail : Returns} {n : Nat} (hh : head.WellFormed) (hn : head.length ≤ n)
    (ht : tail.WellFormed) (hj : head.Joinable n tail) (ledger : Ledger) (i : Nat) :
    ((head.join n tail).run ledger).1.get i = if i < n then head.get i else tail.get (i - n) := by
  rcases join_cases hh hn tail ledger with ⟨hzero, hrun⟩ | ⟨hne, hbuf, hoff, hrun⟩ | hrun
  · rw [hrun]
    split
    · rfl
    · rw [head.get_of_length_le (by omega), tail.get_of_length_le (by omega)]
  · rw [hrun]
    by_cases hi : i < n
    · rw [if_pos hi, get_of_lt (Nat.lt_add_right _ hi)]
      exact hj hne hbuf hoff i hi
    · rw [if_neg hi, get_extended hbuf hoff (Nat.le_of_not_lt hi)]
  · rw [hrun, get_ofList, joinedValues_getElem? ht]

theorem wellFormed_join {head tail : Returns} {n : Nat} (hh : head.WellFormed)
    (hn : head.length ≤ n) (ht : tail.WellFormed) (ledger : Ledger) :
    ((head.join n tail).run ledger).1.WellFormed := by
  rcases join_cases hh hn tail ledger with
    ⟨_, hrun⟩ | ⟨hne, hbuf, hoff, hrun⟩ | hrun
  · rw [hrun]
    exact hh
  · have hin := ht.inside
    have hpos : tail.length ≠ 0 := by
      intro hzero
      rw [isEmpty_iff.2 hzero] at hne
      cases hne
    rw [hrun]
    refine .of_last ?_ (.inr ?_)
    · show head.offset + (n + tail.length) ≤ head.buffer.values.length
      rw [hbuf]
      omega
    · have hlast : tail.get (tail.length - 1) ≠ .nil := by
        rcases ht.trimmed.2 with hzero | hlast
        · exact absurd hzero hpos
        · exact hlast
      rw [get_of_lt (by omega)] at hlast
      have hlen : Returns.length { head with count := n + tail.count } = n + tail.length := rfl
      rw [get_of_lt (by omega), hlen]
      show Value.ofOption head.buffer.values[head.offset + (n + tail.length - 1)]? ≠ .nil
      rw [hbuf, show head.offset + (n + tail.length - 1) = tail.offset + (tail.length - 1) by omega]
      exact hlast
  · rw [hrun]
    exact wellFormed_ofList _ ledger

end Returns
end LuaHost
