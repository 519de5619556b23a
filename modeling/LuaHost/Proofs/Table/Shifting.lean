import LuaHost.Proofs.Table.Filling

/-!
# LuaHost.Proofs.Table.Shifting

Insertion and removal at a position, against whatever length is reported.

* `Value.Outside`: the keys that a shift over a range of positions does not touch.
* `Table.getAt_shiftUp`, `Table.getAt_shiftDown`: where a shift takes the values, holes included.
* `Table.Inserted`, `Table.Removed`: what insertion and removal make of every key.
* `Table.WellFormed.count_insertWithin`, `Table.WellFormed.count_removeAt`: how many entries they leave.
* `Table.insertChecked_eq`, `Table.removeChecked_eq`: the loops with a 64-bit index, none of which
  overflows.
-/

namespace LuaHost

/-! ## Keys outside a range -/

namespace Value

/-- The key is none of the integers `low, …, high`, and no float with the value of one of them. -/
def Outside (key : Value) (low high : Int) : Prop :=
  ∀ i, low ≤ i → i ≤ high → key.rawEq (.integer (Int64.ofInt i)) = false

theorem Outside.mono {key : Value} {low high low' high' : Int} (h : key.Outside low high)
    (hlow : low ≤ low') (hhigh : high' ≤ high) : key.Outside low' high' :=
  fun i hi hi' => h i (by omega) (by omega)

theorem outside_or (key : Value) (low high : Int) : key.Outside low high ∨
    ∃ i, low ≤ i ∧ i ≤ high ∧ key.rawEq (.integer (Int64.ofInt i)) = true := by
  by_cases h : ∃ i, low ≤ i ∧ i ≤ high ∧ key.rawEq (.integer (Int64.ofInt i)) = true
  · exact .inr h
  · refine .inl fun i hlow hhigh => ?_
    rw [← Bool.not_eq_true]
    exact fun heq => h ⟨i, hlow, hhigh, heq⟩

theorem integer_outside {i low high : Int} (hi : 0 ≤ i) (hi' : i < Nat.pow 2 63) (hlow : 0 ≤ low)
    (hhigh : high < Nat.pow 2 63) (hout : i < low ∨ high < i) :
    (Value.integer (Int64.ofInt i)).Outside low high := by
  intro j hj hj'
  refine beq_false_of_ne fun heq => ?_
  have hint := congrArg Int64.toInt heq
  rw [Table.toInt_ofInt hi hi', Table.toInt_ofInt (by omega) (by omega)] at hint
  omega

/-- The number of entries that a value takes in a table. -/
def occupancy (v : Value) : Nat := if v.isNil then 0 else 1

theorem occupancy_of_ne_nil {v : Value} (h : v ≠ .nil) : v.occupancy = 1 := by
  cases v with
  | nil => exact absurd rfl h
  | _ => rfl

end Value

namespace Table

/-! ## One assignment -/

theorem toInt_lt_pow (i : Int64) : i.toInt < Nat.pow 2 63 := by
  have hlt := i.toInt_lt
  simp only [Nat.pow_eq]
  omega

theorem getAt_setAt_same (t : Table) (i : Int) (value : Value) : (t.setAt i value).getAt i = value :=
  t.get_put_same (Value.isKey_integer _) value

theorem get_setAt_other {key : Value} {i : Int} (h : key.Outside i i) (t : Table) (value : Value) :
    (t.setAt i value).get key = t.get key := by
  refine get_put_other ?_ t value
  rw [Value.rawEq_comm]
  exact h i (Int.le_refl i) (Int.le_refl i)

theorem getAt_setAt_other {i j : Int} (hi : 0 ≤ i) (hi' : i < Nat.pow 2 63) (hj : 0 ≤ j)
    (hj' : j < Nat.pow 2 63) (hne : j ≠ i) (t : Table) (value : Value) :
    (t.setAt i value).getAt j = t.getAt j :=
  get_setAt_other (Value.integer_outside hj hj' hi hi' (by omega)) t value

theorem containsAt_setAt_nil (t : Table) (i : Int) : (t.setAt i .nil).containsAt i = false := by
  rw [containsAt, contains, setAt, put, Value.isNil, if_pos rfl, Entries.contains_eq_any,
    Entries.keys_erase, Bool.and_eq_false_iff]
  refine .inr (List.any_eq_false.2 fun key hkey => ?_)
  have hother := (List.mem_filter.1 hkey).2
  simpa using hother

theorem WellFormed.containsAt_iff {t : Table} (h : t.WellFormed) (i : Int) :
    t.containsAt i = true ↔ t.getAt i ≠ .nil :=
  h.contains_iff _

theorem WellFormed.occupancy_getAt {t : Table} (h : t.WellFormed) (i : Int) :
    (t.getAt i).occupancy = if t.containsAt i then 1 else 0 := by
  have hiff := h.containsAt_iff i
  cases hget : t.getAt i with
  | nil =>
    rw [hget] at hiff
    exact (if_neg fun hpresent => hiff.1 hpresent rfl).symm
  | _ =>
    rw [hget] at hiff
    exact (if_pos (hiff.2 nofun)).symm

theorem WellFormed.count_setAt {t : Table} (h : t.WellFormed) (i : Int) (value : Value) :
    (t.setAt i value).count + (t.getAt i).occupancy = t.count + value.occupancy := by
  rw [h.occupancy_getAt]
  exact h.count_put (Value.isKey_integer (Int64.ofInt i)) value

/-! ## Shifts -/

section Shifts

variable {start : Int} {n : Nat}

theorem get_shiftUp_of_outside {key : Value} (h : key.Outside (start + 1) (start + n)) (t : Table) :
    (shiftUp start n t).get key = t.get key := by
  induction n generalizing t with
  | zero => rfl
  | succ n ih =>
    have hlast : key.Outside (start + n + 1) (start + n + 1) := h.mono (by omega) (by omega)
    rw [shiftUp, ih (h.mono (Int.le_refl _) (by omega)), get_setAt_other hlast]

theorem get_shiftDown_of_outside {key : Value} (h : key.Outside start (start + n - 1)) (t : Table) :
    (shiftDown start n t).get key = t.get key := by
  induction n generalizing start t with
  | zero => rfl
  | succ n ih =>
    have hfirst : key.Outside start start := h.mono (Int.le_refl _) (by omega)
    rw [shiftDown, ih (h.mono (by omega) (by omega)), get_setAt_other hfirst]

variable (start n)
variable (hstart : 0 ≤ start) (hlast : start + n < Nat.pow 2 63)
include hstart hlast

/-- The value at every position is read one above it. It was moved after those above it were, and is
not written over by those below. -/
theorem getAt_shiftUp {k : Nat} (hk : k < n) (t : Table) :
    (shiftUp start n t).getAt (start + k + 1) = t.getAt (start + k) := by
  induction n generalizing t with
  | zero => exact absurd hk (Nat.not_lt_zero k)
  | succ n ih =>
    rw [shiftUp]
    rcases Nat.lt_succ_iff_lt_or_eq.1 hk with hlt | rfl
    · rw [ih (by omega) hlt]
      exact getAt_setAt_other (by omega) (by omega) (by omega) (by omega) (by omega) t _
    · have hout : (Value.integer (Int64.ofInt (start + k + 1))).Outside (start + 1) (start + k) :=
        Value.integer_outside (by omega) (by omega) (by omega) (by omega) (by omega)
      exact (get_shiftUp_of_outside hout _).trans (getAt_setAt_same t _ _)

theorem getAt_shiftDown {k : Nat} (hk : k < n) (t : Table) :
    (shiftDown start n t).getAt (start + k) = t.getAt (start + k + 1) := by
  induction n generalizing start k t with
  | zero => exact absurd hk (Nat.not_lt_zero k)
  | succ n ih =>
    rw [shiftDown]
    cases k with
    | zero =>
      have hout : (Value.integer (Int64.ofInt start)).Outside (start + 1) (start + 1 + n - 1) :=
        Value.integer_outside (by omega) (by omega) (by omega) (by omega) (by omega)
      rw [Int.natCast_zero, Int.add_zero]
      exact (get_shiftDown_of_outside hout _).trans (getAt_setAt_same t _ _)
    | succ k =>
      have hnext := ih (start + 1) (by omega) (by omega) (Nat.lt_of_succ_lt_succ hk)
        (t.setAt start (t.getAt (start + 1)))
      rw [show start + (k + 1 : Nat) = start + 1 + k by omega, hnext]
      exact getAt_setAt_other hstart (by omega) (by omega) (by omega) (by omega) t _

/-- What the shift writes over at its end is lost, and what it leaves behind at its start is there
twice. -/
theorem WellFormed.count_shiftUp {t : Table} (h : t.WellFormed) :
    (Table.shiftUp start n t).count + (t.getAt (start + n)).occupancy =
      t.count + (t.getAt start).occupancy := by
  induction n generalizing t with
  | zero =>
    rw [Int.natCast_zero, Int.add_zero]
    rfl
  | succ n ih =>
    have hstep := h.count_setAt (start + n + 1) (t.getAt (start + n))
    have hrest := ih (by omega) (h.setAt (start + n + 1) (t.getAt (start + n)))
    rw [getAt_setAt_other (by omega) (by omega) (by omega) (by omega) (by omega),
      getAt_setAt_other (by omega) (by omega) (by omega) (by omega) (by omega)] at hrest
    rw [Table.shiftUp, show start + (n + 1 : Nat) = start + n + 1 by omega]
    omega

theorem WellFormed.count_shiftDown {t : Table} (h : t.WellFormed) :
    (Table.shiftDown start n t).count + (t.getAt start).occupancy =
      t.count + (t.getAt (start + n)).occupancy := by
  induction n generalizing start t with
  | zero =>
    rw [Int.natCast_zero, Int.add_zero]
    rfl
  | succ n ih =>
    have hstep := h.count_setAt start (t.getAt (start + 1))
    cases n with
    | zero => exact hstep
    | succ n =>
      have hrest := ih (start + 1) (by omega) (by omega)
        (h.setAt start (t.getAt (start + 1)))
      rw [getAt_setAt_other (by omega) (by omega) (by omega) (by omega) (by omega),
        getAt_setAt_other (by omega) (by omega) (by omega) (by omega) (by omega)] at hrest
      rw [Table.shiftDown, show start + (n + 1 + 1 : Nat) = start + 1 + (n + 1 : Nat) by omega]
      omega

end Shifts

/-! ## Insertion -/

/-- The positions at which a sequence of the length can grow. -/
def Insertable (length position : Int64) : Prop :=
  length ≠ Int64.maxValue ∧ 1 ≤ position.toInt ∧ position.toInt ≤ length.toInt + 1

/-- What insertion makes of every key: the position holds the value, what was at the position and up
to the length is one further up, and nothing else is touched. -/
structure Inserted (t t' : Table) (length position : Int) (value : Value) : Prop where
  here : t'.getAt position = value
  moved : ∀ k, position ≤ k → k ≤ length → t'.getAt (k + 1) = t.getAt k
  other : ∀ key : Value, key.Outside position (length + 1) → t'.get key = t.get key
  metatable : t'.metatable = t.metatable

section Insertion

variable {t : Table} {length position : Int64} {value : Value}

theorem Insertable.lt (h : Insertable length position) : length.toInt + 1 < Nat.pow 2 63 := by
  obtain ⟨hmax, -, -⟩ := h
  have hlt := length.toInt_lt
  have hne : length.toInt ≠ Int64.maxValue.toInt := fun heq => hmax (Int64.toInt_inj.1 heq)
  rw [Int64.toInt_maxValue] at hne
  simp only [Nat.pow_eq]
  omega

theorem insertWithin_of_not_insertable (h : ¬ Insertable length position) :
    t.insertWithin length position value = .error (.positionOutOfBounds .insert position) :=
  if_neg h

theorem insertWithin_of_insertable (t : Table) (value : Value) (h : Insertable length position) :
    ∃ n : Nat, position.toInt + n = length.toInt + 1 ∧ t.insertWithin length position value =
      .ok ((shiftUp position.toInt n t).setAt position.toInt value) := by
  refine ⟨(length.toInt + 1 - position.toInt).toNat, ?_, if_pos h⟩
  obtain ⟨-, -, hhigh⟩ := h
  omega

theorem inserted_of_insertWithin {t' : Table} (h : Insertable length position)
    (hins : t.insertWithin length position value = .ok t') :
    Inserted t t' length.toInt position.toInt value := by
  have hlast := h.lt
  obtain ⟨n, hn, hrun⟩ := insertWithin_of_insertable t value h
  obtain ⟨-, hlow, -⟩ := h
  rw [hrun] at hins
  cases hins
  refine ⟨getAt_setAt_same _ _ _, ?_, ?_, (stable_metatable _).shiftUp _ _ rfl⟩
  · intro k hk hk'
    have hmoved := getAt_shiftUp position.toInt n (by omega) (by omega)
      (k := (k - position.toInt).toNat) (by omega) t
    rw [show position.toInt + (k - position.toInt).toNat = k by omega] at hmoved
    rw [getAt_setAt_other (by omega) (by omega) (by omega) (by omega) (by omega), hmoved]
  · intro key hkey
    rw [get_setAt_other (hkey.mono (Int.le_refl _) (by omega)),
      get_shiftUp_of_outside (hkey.mono (by omega) (by omega))]

/-- Only an entry right past the length is written over. -/
theorem WellFormed.count_insertWithin {t' : Table} (ht : t.WellFormed)
    (h : Insertable length position) (hins : t.insertWithin length position value = .ok t') :
    t'.count + (t.getAt (length.toInt + 1)).occupancy = t.count + value.occupancy := by
  have hlast := h.lt
  obtain ⟨n, hn, hrun⟩ := insertWithin_of_insertable t value h
  obtain ⟨-, hlow, -⟩ := h
  rw [hrun] at hins
  cases hins
  have hshift := ht.count_shiftUp position.toInt n (by omega) (by omega)
  have hstore := (ht.shiftUp position.toInt n).count_setAt position.toInt value
  have hout : (Value.integer (Int64.ofInt position.toInt)).Outside (position.toInt + 1)
      (position.toInt + n) :=
    Value.integer_outside (by omega) (by omega) (by omega) (by omega) (by omega)
  have hkept : (Table.shiftUp position.toInt n t).getAt position.toInt = t.getAt position.toInt :=
    get_shiftUp_of_outside hout t
  rw [hn] at hshift
  rw [hkept] at hstore
  omega

end Insertion

/-! ## Removal -/

/-- What removal makes of every key: what was behind the position, up to the length, is one further
down, nothing is left at the length, and nothing else is touched. -/
structure Removed (t t' : Table) (length position : Int) : Prop where
  moved : ∀ k, position ≤ k → k < length → t'.getAt k = t.getAt (k + 1)
  last : t'.containsAt length = false
  other : ∀ key : Value, key.Outside position length → t'.get key = t.get key
  metatable : t'.metatable = t.metatable

/-- The positions of a sequence of the length. -/
def Removable (length position : Int64) : Prop :=
  1 ≤ position.toInt ∧ position.toInt ≤ length.toInt

section Removal

variable {t : Table} {length position : Int64}

theorem removeWithin_of_not_removable (h : ¬ Removable length position) :
    t.removeWithin length (some position) = .error (.positionOutOfBounds .remove position) :=
  if_neg h

theorem removeWithin_of_removable (t : Table) (given : Option Int64)
    (h : Removable length (given.getD length)) :
    t.removeWithin length given = .ok (t.removeAt length (given.getD length)) := by
  cases given with
  | some position => exact if_pos h
  | none => exact if_neg (Int.not_le.2 (Int.lt_of_lt_of_le Int.zero_lt_one h.1))

theorem removeAt_eq (t : Table) (hhigh : position.toInt ≤ length.toInt) :
    ∃ n : Nat, position.toInt + n = length.toInt ∧ (t.removeAt length position).2 =
      (shiftDown position.toInt n t).setAt length.toInt .nil :=
  ⟨(length.toInt - position.toInt).toNat, by omega, rfl⟩

theorem removed_removeAt (t : Table) (h : Removable length position) :
    Removed t (t.removeAt length position).2 length.toInt position.toInt := by
  have hlast := toInt_lt_pow length
  obtain ⟨hlow, hhigh⟩ := h
  obtain ⟨n, hn, hrun⟩ := removeAt_eq t hhigh
  rw [hrun]
  refine ⟨?_, containsAt_setAt_nil _ _, ?_, (stable_metatable _).shiftDown _ _ rfl⟩
  · intro k hk hk'
    have hmoved := getAt_shiftDown position.toInt n (by omega) (by omega)
      (k := (k - position.toInt).toNat) (by omega) t
    rw [show position.toInt + (k - position.toInt).toNat = k by omega] at hmoved
    rw [getAt_setAt_other (by omega) (by omega) (by omega) (by omega) (by omega), hmoved]
  · intro key hkey
    rw [get_setAt_other (hkey.mono hhigh (Int.le_refl _)),
      get_shiftDown_of_outside (hkey.mono (Int.le_refl _) (by omega))]

/-- Only what was at the position is gone. -/
theorem WellFormed.count_removeAt (ht : t.WellFormed) (h : Removable length position) :
    (t.removeAt length position).2.count + (t.getAt position.toInt).occupancy = t.count := by
  have hlast := toInt_lt_pow length
  obtain ⟨hlow, hhigh⟩ := h
  obtain ⟨n, hn, hrun⟩ := removeAt_eq t hhigh
  have hshift := ht.count_shiftDown position.toInt n (by omega) (by omega)
  have hstore := (ht.shiftDown n position.toInt).count_setAt length.toInt .nil
  have hout : (Value.integer (Int64.ofInt length.toInt)).Outside position.toInt
      (position.toInt + n - 1) :=
    Value.integer_outside (by omega) (by omega) (by omega) (by omega) (by omega)
  have hkept : (Table.shiftDown position.toInt n t).getAt length.toInt = t.getAt length.toInt :=
    get_shiftDown_of_outside hout t
  have hnil : Value.nil.occupancy = 0 := rfl
  rw [hn] at hshift
  rw [hkept] at hstore
  rw [hrun]
  omega

end Removal

/-! ## The raw length -/

section RawLength

variable {t t' : Table} {position : Int64} {value : Value}

theorem insertable_of_insertWithin {length : Int64}
    (hins : t.insertWithin length position value = .ok t') : Insertable length position := by
  by_contra h
  rw [insertWithin_of_not_insertable h] at hins
  cases hins

/-- The key past the sequence, which the last element moves to, is free. -/
theorem WellFormed.absent_past_rawLength (ht : t.WellFormed) (hfits : t.Fits)
    (h : Insertable t.rawLength position) : t.containsAt (t.rawLength.toInt + 1) = false := by
  have hlast := h.lt
  rw [toInt_rawLength hfits] at hlast ⊢
  exact ht.containsAt_after_length (by omega)

theorem WellFormed.length_removeAt (ht : t.WellFormed) (hfits : t.Fits)
    (h : Removable t.rawLength position) :
    (t.removeAt t.rawLength position).2.length + 1 = t.length := by
  have hraw := toInt_rawLength hfits
  have hlength := toInt_lt_pow t.rawLength
  have ht' := ht.removeAt t.rawLength position
  have hremoved := removed_removeAt t h
  obtain ⟨hlow, hhigh⟩ := h
  rw [hraw] at hremoved hlength hhigh
  have hborder := ht'.length_eq_of_border (n := t.length - 1) (by omega) ?_ ?_
  · omega
  · intro k hk hk'
    rw [ht'.containsAt_iff]
    rcases Int.lt_or_le k position.toInt with hlt | hge
    · have hout : (Value.integer (Int64.ofInt k)).Outside position.toInt t.length :=
        Value.integer_outside (by omega) (by omega) (by omega) (by omega) (by omega)
      rw [show (t.removeAt t.rawLength position).2.getAt k = t.getAt k from hremoved.other _ hout,
        ← ht.containsAt_iff]
      exact containsAt_of_le_length hk (by omega)
    · rw [hremoved.moved k hge (by omega), ← ht.containsAt_iff, ← Int.natCast_succ]
      exact containsAt_of_le_length (Nat.succ_pos k) (by omega)
  · rw [show t.length - 1 + 1 = t.length by omega]
    exact hremoved.last

theorem removable_of_remove {given : Option Int64} {removed : Value}
    (hrem : t.remove given = .ok (removed, t')) (hpos : 0 < t.rawLength.toInt) :
    Removable t.rawLength (given.getD t.rawLength) := by
  cases given with
  | none => exact ⟨hpos, Int.le_refl _⟩
  | some p =>
    by_contra h
    have hrefused : t.remove (some p) = _ := removeWithin_of_not_removable h
    rw [hrefused] at hrem
    cases hrem

/-- Removal from a sequence that is not empty leaves it shorter by one, and the table smaller by one
entry. -/
theorem WellFormed.rawLength_remove (ht : t.WellFormed) (hfits : t.Fits) {given : Option Int64}
    {removed : Value} (hrem : t.remove given = .ok (removed, t')) (hpos : 0 < t.rawLength.toInt) :
    t'.rawLength.toInt = t.rawLength.toInt - 1 ∧ t'.count + 1 = t.count := by
  have h := removable_of_remove hrem hpos
  have hrun : t.remove given = _ := removeWithin_of_removable t given h
  have ht' : (t.removeAt t.rawLength (given.getD t.rawLength)).2 = t' :=
    congrArg Prod.snd (Except.ok.inj (hrun.symm.trans hrem))
  have hlength := ht.length_removeAt hfits h
  have hcount := ht.count_removeAt h
  rw [ht'] at hlength hcount
  have hraw := toInt_rawLength hfits
  obtain ⟨hlow, hhigh⟩ := h
  have hpresent : t.containsAt (given.getD t.rawLength).toInt = true := by
    have hk := containsAt_of_le_length (t := t) (k := (given.getD t.rawLength).toInt.toNat)
      (by omega) (by omega)
    rwa [Int.toNat_of_nonneg (by omega)] at hk
  rw [ht.occupancy_getAt, hpresent, if_pos rfl] at hcount
  have hfits' : t'.Fits := Nat.lt_trans (by omega) hfits
  rw [toInt_rawLength hfits', hraw]
  exact ⟨by omega, hcount⟩

end RawLength

/-! ## Indices -/

/-- An index as a 64-bit integer, if it is in their range. -/
def index? (i : Int) : Option Int64 :=
  if Int64.minValue.toInt ≤ i ∧ i ≤ Int64.maxValue.toInt then some (Int64.ofInt i) else none

/-- The upward shift as a loop whose index counts down from `i`. It gives nothing when the index, or
the key above it, overflows. -/
def shiftUpChecked (i : Int64) : (n : Nat) → Table → Option Table
  | 0, t => some t
  | n + 1, t => do
    let above ← index? (i.toInt + 1)
    let below ← index? (i.toInt - 1)
    shiftUpChecked below n (t.put (.integer above) (t.get (.integer i)))

/-- The downward shift as a loop whose index counts up from `i`. -/
def shiftDownChecked (i : Int64) : (n : Nat) → Table → Option Table
  | 0, t => some t
  | n + 1, t => do
    let above ← index? (i.toInt + 1)
    shiftDownChecked above n (t.put (.integer i) (t.get (.integer above)))

def insertChecked (t : Table) (length position : Int64) (value : Value) : Option Table := do
  let shifted ← shiftUpChecked length (length.toInt + 1 - position.toInt).toNat t
  pure (shifted.put (.integer position) value)

def removeChecked (t : Table) (length position : Int64) : Option Table := do
  let shifted ← shiftDownChecked position (length.toInt - position.toInt).toNat t
  pure (shifted.put (.integer length) .nil)

theorem index?_of_range {i : Int} (hlow : 0 ≤ i) (hhigh : i < Nat.pow 2 63) :
    index? i = some (Int64.ofInt i) := by
  refine if_pos ⟨?_, ?_⟩
  · rw [Int64.toInt_minValue]
    omega
  · rw [Int64.toInt_maxValue]
    simp only [Nat.pow_eq] at hhigh
    omega

theorem shiftUpChecked_eq {start : Int} {n : Nat} (hstart : 1 ≤ start)
    (hlast : start + n < Nat.pow 2 63) (t : Table) :
    shiftUpChecked (Int64.ofInt (start + n - 1)) n t = some (shiftUp start n t) := by
  induction n generalizing t with
  | zero => rfl
  | succ n ih =>
    have hint : (Int64.ofInt (start + (n + 1 : Nat) - 1)).toInt = start + n := by
      rw [toInt_ofInt (by omega) (by omega)]
      omega
    rw [shiftUpChecked, hint, index?_of_range (by omega) (by omega),
      index?_of_range (by omega) (by omega)]
    show shiftUpChecked (Int64.ofInt (start + n - 1)) n _ = _
    rw [ih (by omega), shiftUp, show start + (n + 1 : Nat) - 1 = start + n by omega]
    rfl

theorem shiftDownChecked_eq {start : Int} {n : Nat} (hstart : 1 ≤ start)
    (hlast : start + n < Nat.pow 2 63) (t : Table) :
    shiftDownChecked (Int64.ofInt start) n t = some (shiftDown start n t) := by
  induction n generalizing start t with
  | zero => rfl
  | succ n ih =>
    rw [shiftDownChecked, toInt_ofInt (by omega) (by omega), index?_of_range (by omega) (by omega)]
    show shiftDownChecked (Int64.ofInt (start + 1)) n _ = _
    rw [ih (by omega) (by omega), shiftDown]
    rfl

theorem insertChecked_eq {t t' : Table} {length position : Int64} {value : Value}
    (h : Insertable length position) (hins : t.insertWithin length position value = .ok t') :
    t.insertChecked length position value = some t' := by
  have hlast := h.lt
  obtain ⟨n, hn, hrun⟩ := insertWithin_of_insertable t value h
  obtain ⟨-, hlow, -⟩ := h
  rw [hrun] at hins
  cases hins
  have hshift := shiftUpChecked_eq (n := n) hlow (by omega) t
  rw [show position.toInt + n - 1 = length.toInt by omega, Int64.ofInt_toInt] at hshift
  rw [insertChecked, show (length.toInt + 1 - position.toInt).toNat = n by omega, hshift, setAt,
    Int64.ofInt_toInt]
  rfl

theorem removeChecked_eq {length position : Int64} (t : Table) (h : Removable length position) :
    t.removeChecked length position = some (t.removeAt length position).2 := by
  have hlast := toInt_lt_pow length
  obtain ⟨hlow, hhigh⟩ := h
  have hshift := shiftDownChecked_eq (n := (length.toInt - position.toInt).toNat) hlow (by omega) t
  rw [Int64.ofInt_toInt] at hshift
  rw [removeChecked, hshift, removeAt, setAt, Int64.ofInt_toInt]
  rfl

end Table
end LuaHost
