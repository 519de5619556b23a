import LuaHost.Proofs.Table.Shifting
import Mathlib.Data.Nat.Nth

/-!
# LuaHost.Proofs.Table.Appending

Appending many values to a table that may have occupied keys behind its sequence.

* `Table.FreeAt`, `Table.freeKey`: the positive keys that are absent, and the `j`-th smallest of them.
* `Table.le_count_free`: up to any key there are at most as many others as entries.
* `Table.next_of_free`: one step of the loop goes from a free key to the next free one, although the
  table has grown in between.
* `Table.filled_appendFrom`: the whole loop, by induction on the values. Its invariant is that the table
  is still the first one from the cursor on.
* `Table.appendAll_fills`: where every value goes, and what else is left alone.
-/

namespace LuaHost

namespace Table

/-! ## Free keys -/

/-- A positive integer that is no key of the table. -/
def FreeAt (t : Table) (k : Nat) : Prop := 1 ≤ k ∧ k < Nat.pow 2 63 ∧ t.containsAt k = false

instance (t : Table) : DecidablePred t.FreeAt :=
  fun k => inferInstanceAs (Decidable (1 ≤ k ∧ k < Nat.pow 2 63 ∧ t.containsAt k = false))

/-- A positive integer that is one. -/
def TakenAt (t : Table) (k : Nat) : Prop := 1 ≤ k ∧ t.containsAt k = true

instance (t : Table) : DecidablePred t.TakenAt :=
  fun k => inferInstanceAs (Decidable (1 ≤ k ∧ t.containsAt k = true))

/-- The free keys in ascending order, counted from 0. -/
noncomputable def freeKey (t : Table) (j : Nat) : Nat := Nat.nth t.FreeAt j

/-- The two tables have the same positions from `k` on. -/
def AgreesFrom (t u : Table) (k : Nat) : Prop :=
  ∀ i : Nat, k ≤ i → i < Nat.pow 2 63 → u.containsAt i = t.containsAt i

section Free

variable {t u : Table} {k n : Nat}

theorem freeKey_count (h : t.FreeAt k) : t.freeKey (Nat.count t.FreeAt k) = k := Nat.nth_count h

theorem containsAt_run {i : Nat} (h : i < u.runLength u.count k) :
    u.containsAt (k + i : Nat) = true := by
  rw [Int.natCast_add]
  exact containsAt_of_lt_runLength h

theorem count_free_of_present (h : ∀ i : Nat, i < n → t.containsAt (k + i : Nat) = true) :
    Nat.count t.FreeAt (k + n) = Nat.count t.FreeAt k := by
  have hnone : Nat.count (fun i => t.FreeAt (k + i)) n = 0 := by
    rw [Nat.count_iff_forall_not]
    rintro i hi ⟨-, -, habsent⟩
    rw [h i hi] at habsent
    cases habsent
  rw [Nat.count_add, hnone, Nat.add_zero]

theorem count_taken_le (t : Table) (hk : k ≤ Nat.pow 2 63) : Nat.count t.TakenAt k ≤ t.count := by
  have hlength := Entries.length_le_of_contains t.entries
    (Finset.nodup_toList {i ∈ Finset.range k | t.TakenAt i}) ?_
  · rwa [Finset.length_toList, ← Nat.count_eq_card_filter_range] at hlength
  · intro i hi
    obtain ⟨hlt, -, hpresent⟩ := Finset.mem_filter.1 (Finset.mem_toList.1 hi)
    exact ⟨Nat.lt_of_lt_of_le (Finset.mem_range.1 hlt) hk, hpresent⟩

theorem taken_or_free (t : Table) (hlow : 1 ≤ k) (hhigh : k < Nat.pow 2 63) :
    t.TakenAt k ∨ t.FreeAt k := by
  cases hpresent : t.containsAt k with
  | true => exact .inl ⟨hlow, hpresent⟩
  | false => exact .inr ⟨hlow, hhigh, hpresent⟩

/-- All positions but 0 are counted among the taken or the free ones. -/
theorem le_count_taken_add (t : Table) (hk : k ≤ Nat.pow 2 63) :
    k ≤ Nat.count t.TakenAt k + Nat.count t.FreeAt k + 1 := by
  induction k with
  | zero => exact Nat.zero_le _
  | succ k ih =>
    have hprev := ih (Nat.le_of_succ_le hk)
    rw [Nat.count_succ, Nat.count_succ]
    rcases Nat.eq_zero_or_pos k with rfl | hpos
    · omega
    · rcases t.taken_or_free hpos hk with htaken | hfree
      · rw [if_pos htaken]
        omega
      · rw [if_pos hfree]
        omega

/-- Below any key there are at most as many others as entries. -/
theorem le_count_free (t : Table) (hk : k ≤ Nat.pow 2 63) :
    k ≤ t.count + Nat.count t.FreeAt k + 1 := by
  have hall := t.le_count_taken_add hk
  have htaken := t.count_taken_le hk
  omega

/-- The run of present keys from `k` on ends at the next free key. It cannot reach the greatest integer
while the entries and the free keys before `k` are too few to fill all positions. -/
theorem free_runLength (hagree : t.AgreesFrom u k) (hlow : 1 ≤ k) (hhigh : k ≤ Nat.pow 2 63)
    (hroom : t.count + Nat.count t.FreeAt k + 1 < Nat.pow 2 63) :
    t.FreeAt (k + u.runLength u.count k) ∧
      Nat.count t.FreeAt (k + u.runLength u.count k) = Nat.count t.FreeAt k := by
  have hlast : k + u.runLength u.count k < Nat.pow 2 63 := by
    by_contra hge
    have hfull : ∀ i : Nat, i < Nat.pow 2 63 - k → t.containsAt (k + i : Nat) = true := by
      intro i hi
      rw [← hagree (k + i) (by omega) (by omega)]
      exact containsAt_run (by omega)
    have hcount := count_free_of_present hfull
    rw [Nat.add_sub_cancel' hhigh] at hcount
    have hle := t.le_count_free (Nat.le_refl (Nat.pow 2 63))
    omega
  have habsent : u.containsAt (k + u.runLength u.count k : Nat) = false := by
    rcases Nat.lt_or_ge (u.runLength u.count k) u.count with hlt | hge
    · rw [Int.natCast_add]
      exact containsAt_runLength hlt
    · -- with all entries in the run, one key more would be one too many
      rw [← Bool.not_eq_true]
      intro hnext
      have hlength := Entries.length_le_of_contains u.entries
        (List.nodup_range' (s := k) (n := u.runLength u.count k + 1)) ?_
      · rw [List.length_range'] at hlength
        exact absurd hlength (Nat.not_le.2 (Nat.lt_succ_of_le hge))
      · intro i hi
        obtain ⟨hi, hi'⟩ := List.mem_range'_1.1 hi
        have hpresent : u.containsAt i = true := by
          rcases Nat.lt_or_ge (i - k) (u.runLength u.count k) with hlt | hge
          · rw [show i = k + (i - k) by omega]
            exact containsAt_run hlt
          · rw [show i = k + u.runLength u.count k by omega]
            exact hnext
        exact ⟨by omega, hpresent⟩
  refine ⟨⟨by omega, hlast, ?_⟩, count_free_of_present fun i hi => ?_⟩
  · rw [← hagree _ (by omega) hlast, habsent]
  · rw [← hagree _ (by omega) (by omega)]
    exact containsAt_run hi

end Free

/-! ## One step -/

/-- The search for a free key as a loop whose index counts up. It gives nothing when the index
overflows, or when there is no free key within the bound. -/
def firstFreeChecked (t : Table) : (bound : Nat) → (i : Int64) → Option Int64
  | 0, _ => none
  | bound + 1, i =>
    if t.contains (.integer i) then do
      let above ← index? (i.toInt + 1)
      firstFreeChecked t bound above
    else
      some i

/-- Appending as a loop with a 64-bit index, which gives nothing when the index overflows or a search
does not end within one step more than there are entries. -/
def appendFromChecked : (i : Int64) → List Value → Table → Option Table
  | _, [], t => some t
  | i, value :: rest, t => do
    let t := t.put (.integer i) value
    let above ← index? (i.toInt + 1)
    let next ← t.firstFreeChecked (t.count + 1) above
    appendFromChecked next rest t

def appendAllChecked (t : Table) (values : List Value) : Option Table := do
  let start ← t.firstFreeChecked (t.count + 1) 1
  appendFromChecked start values t

theorem firstFreeChecked_eq {t : Table} {bound k n : Nat}
    (hpresent : ∀ i : Nat, i < n → t.containsAt (k + i : Nat) = true)
    (hfree : t.FreeAt (k + n)) (hbound : n < bound) :
    t.firstFreeChecked bound (Int64.ofInt k) = some (Int64.ofInt (k + n : Nat)) := by
  induction n generalizing bound k with
  | zero =>
    obtain ⟨bound, rfl⟩ : ∃ b, bound = b + 1 := ⟨bound - 1, by omega⟩
    obtain ⟨-, -, habsent⟩ := hfree
    exact if_neg (Bool.eq_false_iff.1 habsent)
  | succ n ih =>
    obtain ⟨bound, rfl⟩ : ∃ b, bound = b + 1 := ⟨bound - 1, by omega⟩
    have hhere : t.contains (.integer (Int64.ofInt k)) = true := hpresent 0 (Nat.succ_pos n)
    have hlast := hfree.2.1
    have hnext : t.firstFreeChecked bound (Int64.ofInt (k + 1 : Nat)) =
        some (Int64.ofInt (k + 1 + n : Nat)) := by
      refine ih ?_ ?_ (by omega)
      · intro i hi
        rw [show k + 1 + i = k + (i + 1) by omega]
        exact hpresent (i + 1) (by omega)
      · rw [show k + 1 + n = k + (n + 1) by omega]
        exact hfree
    rw [firstFreeChecked, if_pos hhere, toInt_position (by omega),
      index?_of_range (by omega) (by omega), ← Int.natCast_succ,
      show k + (n + 1) = k + 1 + n by omega]
    exact hnext

section Step

variable {t u : Table} {start : Nat}

/-- What one step of the loop comes to: the value is stored at a free key, and the cursor is at the
next free one. -/
structure Next (t u : Table) (start next : Nat) : Prop where
  free : t.FreeAt next
  count : Nat.count t.FreeAt next = Nat.count t.FreeAt start + 1
  agrees : t.AgreesFrom u next
  after : start < next
  between : ∀ i : Nat, start < i → i < next → u.containsAt i = true
  checked : u.firstFreeChecked (u.count + 1) (Int64.ofInt (start + 1 : Nat)) =
    some (Int64.ofInt next)

/-- Behind the key just stored at, the table is still the first one. -/
theorem AgreesFrom.setAt (h : t.AgreesFrom u start) (hu : u.WellFormed)
    (hstart : start < Nat.pow 2 63) (value : Value) :
    t.AgreesFrom (u.setAt start value) (start + 1) := by
  have hu' := hu.setAt start value
  intro i hi hi'
  rw [← h i (by omega) hi', Bool.eq_iff_iff, hu'.containsAt_iff, hu.containsAt_iff,
    getAt_setAt_other (by omega) (by omega) (by omega) (by omega) (by omega)]

theorem next_of_free (hu : u.WellFormed) (hfree : t.FreeAt start) (hagree : t.AgreesFrom u start)
    (hroom : t.count + Nat.count t.FreeAt start + 2 < Nat.pow 2 63) (value : Value) :
    ∃ next, t.Next (u.setAt start value) start next ∧
      ∀ rest, appendFrom start (value :: rest) u = appendFrom next rest (u.setAt start value) := by
  have hhigh := hfree.2.1
  have hcount : Nat.count t.FreeAt (start + 1) = Nat.count t.FreeAt start + 1 := by
    rw [Nat.count_succ, if_pos hfree]
  have hagree' := hagree.setAt hu hhigh value
  obtain ⟨hnext, hcount'⟩ := free_runLength hagree' (by omega) (by omega) (by omega)
  refine ⟨_, ⟨hnext, hcount'.trans hcount, ?_, by omega, ?_, ?_⟩, fun rest => ?_⟩
  · exact fun i hi hi' => hagree' i (by omega) hi'
  · intro i hi hi'
    rw [show i = start + 1 + (i - (start + 1)) by omega]
    exact containsAt_run (by omega)
  · have hfree' := (hagree' _ (by omega) hnext.2.1).trans hnext.2.2
    exact firstFreeChecked_eq (fun i hi => containsAt_run hi) ⟨hnext.1, hnext.2.1, hfree'⟩
      (Nat.lt_succ_of_le (runLength_le _ _ _))
  · rw [appendFrom, Int.natCast_add, Int.natCast_succ]

end Step

/-! ## The loop -/

/-- The `i`-th free key from `start` on. -/
noncomputable def keyFrom (t : Table) (start i : Nat) : Nat :=
  t.freeKey (Nat.count t.FreeAt start + i)

/-- What filling the free keys of `t` from `start` on makes of a table. -/
structure Filled (t : Table) (start : Nat) (values : List Value) (u u' : Table) : Prop where
  free : ∀ i, i < values.length → t.FreeAt (t.keyFrom start i)
  above : ∀ i, i < values.length → start ≤ t.keyFrom start i
  stored : ∀ i (hi : i < values.length), u'.getAt (t.keyFrom start i) = values[i]
  other : ∀ key : Value, (∀ i, i < values.length →
    key.rawEq (.integer (Int64.ofInt (t.keyFrom start i))) = false) → u'.get key = u.get key

section Loop

variable {t u u' : Table} {start next : Nat} {value : Value} {rest : List Value}

theorem keyFrom_zero (hfree : t.FreeAt start) : t.keyFrom start 0 = start := freeKey_count hfree

theorem keyFrom_succ (hcount : Nat.count t.FreeAt next = Nat.count t.FreeAt start + 1) (i : Nat) :
    t.keyFrom start (i + 1) = t.keyFrom next i := by
  rw [keyFrom, keyFrom, hcount]
  congr 1
  omega

/-- A value stored at a free key stays there, since all later ones are stored at greater keys. -/
theorem Filled.cons (hfree : t.FreeAt start) (hafter : start < next)
    (hcount : Nat.count t.FreeAt next = Nat.count t.FreeAt start + 1)
    (h : t.Filled next rest (u.setAt start value) u') : t.Filled start (value :: rest) u u' := by
  have hfirst := keyFrom_zero hfree
  have hlater := keyFrom_succ hcount
  have hhigh := hfree.2.1
  refine ⟨?_, ?_, ?_, ?_⟩
  · intro i hi
    cases i with
    | zero => rwa [hfirst]
    | succ i =>
      rw [hlater]
      exact h.free i (Nat.lt_of_succ_lt_succ hi)
  · intro i hi
    cases i with
    | zero => rw [hfirst]
    | succ i =>
      have habove := h.above i (Nat.lt_of_succ_lt_succ hi)
      rw [hlater]
      omega
  · intro i hi
    cases i with
    | zero =>
      have hkept : u'.getAt start = (u.setAt start value).getAt start := by
        refine h.other (.integer (Int64.ofInt start)) fun i hi => ?_
        have habove := h.above i hi
        have hlast := (h.free i hi).2.1
        have hout : (Value.integer (Int64.ofInt start)).Outside next (Nat.pow 2 63 - 1) :=
          Value.integer_outside (by omega) (by omega) (by omega) (by omega) (by omega)
        exact hout _ (by omega) (by omega)
      rw [hfirst, hkept]
      exact getAt_setAt_same u start value
    | succ i =>
      rw [hlater]
      exact h.stored i (Nat.lt_of_succ_lt_succ hi)
  · intro key hkey
    have hhere := hkey 0 (Nat.succ_pos _)
    rw [hfirst, Value.rawEq_comm] at hhere
    refine (h.other key fun i hi => ?_).trans (get_put_other hhere u value)
    rw [← hlater]
    exact hkey (i + 1) (Nat.succ_lt_succ hi)

/-- From a free key on, the loop fills the free keys of the first table in their order, and the cursor
stays among the 64-bit integers. -/
theorem filled_appendFrom (values : List Value) (hu : u.WellFormed)
    (hfree : t.FreeAt start) (hagree : t.AgreesFrom u start)
    (hroom : t.count + Nat.count t.FreeAt start + values.length + 1 < Nat.pow 2 63) :
    t.Filled start values u (appendFrom start values u) ∧
      appendFromChecked (Int64.ofInt start) values u = some (appendFrom start values u) := by
  induction values generalizing u start with
  | nil => exact ⟨⟨nofun, nofun, nofun, fun _ _ => rfl⟩, rfl⟩
  | cons value rest ih =>
    rw [List.length_cons] at hroom
    obtain ⟨next, hnext, hrun⟩ := next_of_free hu hfree hagree (by omega) value
    have hcount := hnext.count
    obtain ⟨hfilled, hchecked⟩ := ih (hu.setAt start value) hnext.free hnext.agrees (by omega)
    rw [hrun]
    refine ⟨hfilled.cons hfree hnext.after hcount, ?_⟩
    have hsearch := hnext.checked
    have hafter := hnext.after
    have hlast := hnext.free.2.1
    rw [appendFromChecked, toInt_position hfree.2.1, ← Int.natCast_succ,
      index?_of_range (by omega) (by omega)]
    show (firstFreeChecked (u.setAt start value) ((u.setAt start value).count + 1) _ >>= _) = _
    rw [hsearch]
    exact hchecked

/-- The first free key is the one past the sequence. -/
theorem freeAt_after_length (h : t.WellFormed) (hroom : t.count + 1 < Nat.pow 2 63) :
    t.FreeAt (t.length + 1) ∧ Nat.count t.FreeAt (t.length + 1) = 0 := by
  have hlength := t.length_le_count
  refine ⟨⟨Nat.succ_pos _, by omega, h.containsAt_after_length (by omega)⟩, ?_⟩
  rw [Nat.count_iff_forall_not]
  rintro k hk ⟨hlow, -, habsent⟩
  rw [containsAt_of_le_length hlow (by omega)] at habsent
  cases habsent

theorem setAt_eq_append (t : Table) (value : Value) :
    t.setAt (t.length + 1 : Nat) value = t.append value := by
  rw [append, Int.natCast_succ]

/-- After a value that is not nil has been appended, the cursor is one past the sequence again. -/
theorem Next.length_append (h : t.WellFormed) (hvalue : value ≠ .nil)
    (hnext : t.Next (t.append value) (t.length + 1) next) :
    (t.append value).length + 1 = next := by
  have h' : (t.append value).WellFormed := h.setAt _ value
  have hafter := hnext.after
  have hlast := hnext.free.2.1
  have hborder := h'.length_eq_of_border (n := next - 1) (by omega) ?_ ?_
  · omega
  · intro k hlow hhigh
    rcases Nat.lt_trichotomy k (t.length + 1) with hlt | rfl | hgt
    · have hold := containsAt_of_le_length hlow (Nat.le_of_lt_succ hlt)
      rw [h.containsAt_iff] at hold
      rwa [h'.containsAt_iff, ← setAt_eq_append,
        getAt_setAt_other (by omega) (by omega) (by omega) (by omega) (by omega)]
    · rw [h'.containsAt_iff, ← setAt_eq_append, getAt_setAt_same]
      exact hvalue
    · exact hnext.between k hgt (by omega)
  · rw [Nat.sub_add_cancel (by omega), hnext.agrees next (Nat.le_refl next) hlast]
    exact hnext.free.2.2

/-- Without nils each value goes where a single value would be appended. -/
theorem appendFrom_eq_foldl (values : List Value) (hvalues : ∀ v ∈ values, v ≠ .nil)
    (h : t.WellFormed) (hroom : t.count + values.length + 1 < Nat.pow 2 63) :
    appendFrom (t.length + 1 : Nat) values t = values.foldl append t := by
  induction values generalizing t with
  | nil => rfl
  | cons value rest ih =>
    obtain ⟨hvalue, hrest⟩ := List.forall_mem_cons.1 hvalues
    rw [List.length_cons] at hroom
    obtain ⟨hfree, hcount⟩ := freeAt_after_length h (by omega)
    obtain ⟨next, hnext, hrun⟩ := next_of_free h hfree (fun _ _ _ => rfl) (by omega) value
    have hsize := h.count_setAt (t.length + 1 : Nat) value
    rw [setAt_eq_append] at hnext hrun hsize
    rw [Value.occupancy_of_ne_nil hvalue] at hsize
    rw [hrun, ← hnext.length_append h hvalue, List.foldl_cons]
    exact ih hrest (h.setAt _ value) (by omega)

end Loop

/-- **Appending many values fills the free keys.** However many keys behind the sequence are occupied,
the `j`-th value is stored at the `j`-th smallest positive integer that is no key of the table; a nil
uses up its key and leaves it absent. No other key is touched, so no entry is overwritten or removed.
The loops over a 64-bit index end without overflow. Without nils, appending one value after the other
makes the same table. -/
theorem appendAll_fills (t : Table) (values : List Value) (h : t.WellFormed)
    (hroom : (t.count + values.length : Int) < Int64.maxValue.toInt) :
    let t' := t.appendAll values
    t.appendAllChecked values = some t' ∧
    (∀ j (hj : j < values.length), t.FreeAt (t.freeKey j) ∧
      t'.getAt (t.freeKey j) = values[j] ∧ t'.containsAt (t.freeKey j) = !values[j].isNil) ∧
    (∀ key : Value,
      (∀ j < values.length, key.rawEq (.integer (Int64.ofInt (t.freeKey j))) = false) →
        t'.get key = t.get key ∧ t'.contains key = t.contains key) ∧
    (∀ key, t.contains key = true → t'.contains key = true ∧ t'.get key = t.get key) ∧
    t'.metatable = t.metatable ∧
    ((∀ v ∈ values, v ≠ .nil) → t' = values.foldl append t) := by
  intro t'
  have hfits : t.count + values.length + 1 < Nat.pow 2 63 := by
    rw [Int64.toInt_maxValue] at hroom
    simp only [Nat.pow_eq]
    omega
  obtain ⟨hfree, hcount⟩ := freeAt_after_length h (by omega)
  obtain ⟨hfilled, hchecked⟩ := filled_appendFrom values h hfree (fun _ _ _ => rfl) (by omega)
  rw [Int.natCast_succ] at hfilled hchecked
  have h' : t'.WellFormed := WellFormed.stable.appendFrom values _ h
  have hkeys (j : Nat) : t.keyFrom (t.length + 1) j = t.freeKey j := by
    rw [keyFrom, hcount, Nat.zero_add]
  have hplaces : ∀ j, j < values.length → t.FreeAt (t.freeKey j) := by
    intro j hj
    rw [← hkeys]
    exact hfilled.free j hj
  have hkept : ∀ key : Value,
      (∀ j < values.length, key.rawEq (.integer (Int64.ofInt (t.freeKey j))) = false) →
        t'.get key = t.get key ∧ t'.contains key = t.contains key := by
    intro key hkey
    have hget : t'.get key = t.get key := by
      refine hfilled.other key fun j hj => ?_
      rw [hkeys]
      exact hkey j hj
    refine ⟨hget, ?_⟩
    rw [Bool.eq_iff_iff, h'.contains_iff, h.contains_iff, hget]
  refine ⟨?_, ?_, hkept, ?_, (stable_metatable _).appendFrom values _ rfl, fun hvalues => ?_⟩
  · have hsearch : t.firstFreeChecked (t.count + 1) 1 =
        some (Int64.ofInt (t.length + 1 : Nat)) := by
      rw [Nat.add_comm t.length] at hfree ⊢
      exact firstFreeChecked_eq (fun i hi => containsAt_run hi) hfree
        (Nat.lt_succ_of_le t.length_le_count)
    rw [appendAllChecked, hsearch, Int.natCast_succ]
    exact hchecked
  · intro j hj
    have hstored : t'.getAt (t.freeKey j) = values[j] := by
      rw [← hkeys]
      exact hfilled.stored j hj
    refine ⟨hplaces j hj, hstored, ?_⟩
    rw [Bool.eq_iff_iff, h'.containsAt_iff, hstored]
    cases values[j] <;> simp [Value.isNil]
  · intro key hpresent
    -- a key that is present is not one of the free ones
    obtain ⟨hget, hcontains⟩ := hkept key fun j hj => by
      rw [← Bool.not_eq_true]
      intro heq
      rw [t.contains_congr heq] at hpresent
      exact Bool.false_ne_true ((hplaces j hj).2.2.symm.trans hpresent)
    exact ⟨hcontains.trans hpresent, hget⟩
  · have heach := appendFrom_eq_foldl values hvalues h (by omega)
    rwa [Int.natCast_succ] at heach

/-- The keys 1, 3 and 4 are present: the values go to 2, 5 and 6, and the nil at 5 leaves a hole. -/
theorem appendAll_fills_holes :
    let t := ofList [.string "a", .nil, .string "c", .string "d"]
    let values := [.string "x", .nil, .string "y"]
    let t' := t.appendAll values
    t.WellFormed ∧ (t.count + values.length : Int) < Int64.maxValue.toInt ∧
    t.freeKey 0 = 2 ∧ t.freeKey 1 = 5 ∧ t.freeKey 2 = 6 ∧ t.appendAllChecked values = some t' ∧
    t'.getAt 2 = .string "x" ∧ t'.containsAt 5 = false ∧ t'.getAt 6 = .string "y" ∧
    t'.getAt 3 = .string "c" ∧
    t.appendAll [.string "x", .string "y"] = (t.append (.string "x")).append (.string "y") := by
  intro t values t'
  have h : t.WellFormed := wellFormed_ofList _
  have hroom : (t.count + values.length : Int) < Int64.maxValue.toInt := by decide
  have hfirst : t.freeKey 0 = 2 := freeKey_count (k := 2) (by decide)
  have hsecond : t.freeKey 1 = 5 := freeKey_count (k := 5) (by decide)
  have hthird : t.freeKey 2 = 6 := freeKey_count (k := 6) (by decide)
  obtain ⟨hchecked, hstored, -, hkept, -⟩ := appendAll_fills t values h hroom
  obtain ⟨-, hone, -⟩ := hstored 0 (by decide)
  obtain ⟨-, -, htwo⟩ := hstored 1 (by decide)
  obtain ⟨-, hthree, -⟩ := hstored 2 (by decide)
  rw [hfirst] at hone
  rw [hsecond] at htwo
  rw [hthird] at hthree
  have hold := (hkept (.integer 3) (by decide)).2
  have heach := (appendAll_fills t [.string "x", .string "y"] h (by decide)).2.2.2.2.2 (by decide)
  exact ⟨h, hroom, hfirst, hsecond, hthird, hchecked, hone, htwo, hthree, hold, heach⟩

end Table
end LuaHost
