import LuaHost.Proofs.Table.Appending

/-!
# LuaHost.Proofs.Table.Border

The loops over a sequence, each of which goes up from a key for as long as keys are present.

* `Table.BorderAt`: a border among all integers, of whatever size. `Table.WellFormed.borderAt_iff`: the
  length is the only one.
* `Table.Run`: what such a loop meets, key by key. `Table.Clears`: the same where the loop takes away
  what it meets.
* `Table.Run.countChecked_eq`, `Table.Run.collectChecked_eq`, `Table.Clears.clearChecked_eq`: the loops
  with a 64-bit index, by induction on these. None overflows, and all of them stop at the same key.
* `Table.Clears.entries`, `Table.Clears.count`: what clearing leaves of the entries.
* `Table.fillChecked_eq`: the loop that fills a table from a list, without overflow.
* `Table.WellFormed.length_eq_count_iff_keys`: the count test for tables that are a sequence.
-/

namespace LuaHost

namespace Table

variable {t u : Table} {start n : Nat}

/-! ## Borders -/

/-- The integer is a key of the table. One that does not fit in 64 bits never is. -/
def HasKey (t : Table) (k : Int) : Prop :=
  ∃ i : Int64, i.toInt = k ∧ t.contains (.integer i) = true

/-- The keys `1, …, n` are present, and the key `n + 1` is not. -/
def BorderAt (t : Table) (n : Nat) : Prop :=
  (∀ k : Int, 1 ≤ k → k ≤ n → t.HasKey k) ∧ ¬ t.HasKey (n + 1)

theorem hasKey_iff {k : Int} (hlow : 0 ≤ k) (hhigh : k < Nat.pow 2 63) :
    t.HasKey k ↔ t.containsAt k = true := by
  constructor
  · rintro ⟨i, rfl, hpresent⟩
    rwa [containsAt, Int64.ofInt_toInt]
  · intro hpresent
    exact ⟨Int64.ofInt k, toInt_ofInt hlow hhigh, hpresent⟩

theorem HasKey.lt {k : Int} (h : t.HasKey k) : k < Nat.pow 2 63 := by
  obtain ⟨i, rfl, -⟩ := h
  exact toInt_lt_pow i

theorem WellFormed.borderAt_iff (h : t.WellFormed) (hroom : t.count + 1 < Nat.pow 2 63) (m : Nat) :
    t.BorderAt m ↔ m = t.length := by
  have hlength := t.length_le_count
  constructor
  · rintro ⟨hall, hnext⟩
    have hm : m < Nat.pow 2 63 := by
      rcases Nat.eq_zero_or_pos m with rfl | hpos
      · exact Nat.pow_pos (Nat.succ_pos 1)
      · exact Int.ofNat_lt.1 (hall m (by omega) (Int.le_refl _)).lt
    have hpresent : ∀ k : Nat, 1 ≤ k → k ≤ m → t.containsAt k = true := by
      intro k hlow hhigh
      exact (hasKey_iff (by omega) (by omega)).1 (hall k (by omega) (by omega))
    have hcount := h.le_count hm hpresent
    refine (h.length_eq_of_border hm hpresent ?_).symm
    rwa [Int.natCast_succ, ← Bool.not_eq_true, ← hasKey_iff (by omega) (by omega)]
  · rintro rfl
    refine ⟨fun k hlow hhigh => ?_, ?_⟩
    · have hpresent := containsAt_of_le_length (t := t) (k := k.toNat) (by omega) (by omega)
      rw [Int.toNat_of_nonneg (by omega)] at hpresent
      exact (hasKey_iff (by omega) (by omega)).2 hpresent
    · rw [hasKey_iff (by omega) (by omega), Bool.not_eq_true]
      exact h.containsAt_after_length (by omega)

/-! ## Runs -/

/-- From `start` on, `n` keys are present and the next one is absent, all of them below `2 ^ 63`. -/
inductive Run (t : Table) : (start n : Nat) → Prop where
  | stop {start : Nat} : start < Nat.pow 2 63 → t.containsAt start = false → Run t start 0
  | step {start n : Nat} : t.containsAt start = true → Run t (start + 1) n → Run t start (n + 1)

namespace Run

theorem last (h : t.Run start n) : start + n < Nat.pow 2 63 := by
  induction h with
  | stop hlast _ => exact hlast
  | step _ _ ih => omega

theorem of_border (hpresent : ∀ k < n, t.containsAt (start + k : Nat) = true)
    (habsent : t.containsAt (start + n : Nat) = false) (hlast : start + n < Nat.pow 2 63) :
    t.Run start n := by
  induction n generalizing start with
  | zero => exact .stop hlast habsent
  | succ n ih =>
    refine .step (hpresent 0 (Nat.succ_pos n)) (ih ?_ ?_ (by omega))
    · intro k hk
      rw [Nat.add_assoc, Nat.add_comm 1 k]
      exact hpresent (k + 1) (Nat.succ_lt_succ hk)
    · rwa [Nat.add_assoc, Nat.add_comm 1 n]

theorem congr (h : t.Run start n) (hagree : t.AgreesFrom u start) : u.Run start n := by
  induction h with
  | stop hlast habsent => exact .stop hlast ((hagree _ (Nat.le_refl _) hlast).trans habsent)
  | step hpresent hrest ih =>
    have hlast := hrest.last
    refine .step ((hagree _ (Nat.le_refl _) (by omega)).trans hpresent) (ih fun i hi => ?_)
    exact hagree i (by omega)

/-- Clearing the first key leaves the keys behind it as they are. -/
theorem cleared (h : t.Run (start + 1) n) (ht : t.WellFormed) :
    (t.setAt start .nil).Run (start + 1) n := by
  have hlast := h.last
  have hsame : t.AgreesFrom t start := fun _ _ _ => rfl
  exact h.congr (hsame.setAt ht (by omega) .nil)

end Run

theorem WellFormed.run (h : t.WellFormed) (hroom : t.count + 1 < Nat.pow 2 63) : t.Run 1 t.length := by
  have hlength := t.length_le_count
  refine .of_border (fun k hk => ?_) ?_ (by omega)
  · exact containsAt_of_le_length (Nat.le_add_right 1 k) (by omega)
  · rw [Nat.add_comm, Int.natCast_succ]
    exact h.containsAt_after_length (by omega)

/-! ## Loops -/

/-- Counting present keys from `first` on. The loop gives nothing when its count or its key overflows,
or when the bound is used up. -/
def countChecked (t : Table) (first : Int64) : (bound : Nat) → (n : Int64) → Option Int64
  | 0, _ => none
  | bound + 1, n => do
    let i ← index? (first.toInt + n.toInt)
    if t.contains (.integer i) then do
      let next ← index? (n.toInt + 1)
      countChecked t first bound next
    else some n

/-- The values at the keys after `i`, up to the first nil. The index goes up before each of them is
read. -/
def collectChecked (t : Table) : (bound : Nat) → (i : Int64) → Option (List Value)
  | 0, _ => none
  | bound + 1, i => do
    let above ← index? (i.toInt + 1)
    match t.get (.integer above) with
    | .nil => some []
    | value => do
      let rest ← collectChecked t bound above
      some (value :: rest)

/-- Clearing keys from `i` on, up to the first that was absent. -/
def clearChecked : (bound : Nat) → (i : Int64) → Table → Option Table
  | 0, _, _ => none
  | bound + 1, i, t =>
    if t.contains (.integer i) then do
      let above ← index? (i.toInt + 1)
      clearChecked bound above (t.put (.integer i) .nil)
    else some t

/-- The keys `start, …, start + n - 1`. -/
def keysFrom (start n : Nat) : List Value :=
  (List.range' start n).map fun k : Nat => .integer (Int64.ofInt k)

theorem keysFrom_one (n : Nat) : keysFrom 1 n = positions n := by
  rw [keysFrom, positions, List.range'_eq_map_range, List.map_map]
  refine List.map_congr_left fun k _ => ?_
  rw [Function.comp_apply, Nat.add_comm]

theorem keysFrom_succ (start n : Nat) :
    keysFrom start (n + 1) = .integer (Int64.ofInt start) :: keysFrom (start + 1) n := by
  rw [keysFrom, List.range'_succ, List.map_cons, keysFrom]

section Turns

variable {bound : Nat}

theorem collectChecked_of_absent (hlast : start + 1 < Nat.pow 2 63)
    (habsent : t.containsAt (start + 1 : Nat) = false) :
    t.collectChecked (bound + 1) (Int64.ofInt start) = some [] := by
  have hnil := get_of_not_contains habsent
  rw [collectChecked, toInt_position (by omega), ← Int.natCast_succ,
    index?_of_range (by omega) (by omega)]
  show (match t.get _ with | .nil => _ | _ => _) = _
  rw [hnil]

theorem collectChecked_of_present (ht : t.WellFormed) (hlast : start + 1 < Nat.pow 2 63)
    (hpresent : t.containsAt (start + 1 : Nat) = true) {rest : List Value}
    (hrest : t.collectChecked bound (Int64.ofInt (start + 1 : Nat)) = some rest) :
    t.collectChecked (bound + 1) (Int64.ofInt start) =
      some (t.getAt (start + 1 : Nat) :: rest) := by
  have hvalue : t.get (.integer (Int64.ofInt (start + 1 : Nat))) ≠ .nil :=
    (ht.containsAt_iff _).1 hpresent
  rw [collectChecked, toInt_position (by omega), ← Int.natCast_succ,
    index?_of_range (by omega) (by omega)]
  show (match t.get _ with | .nil => _ | _ => t.collectChecked bound _ >>= _) = _
  rw [hrest]
  split
  · contradiction
  · rfl

end Turns

namespace Run

variable {bound : Nat}

theorem countChecked_eq {first done : Nat} (h : t.Run (first + done) n) (hbound : n < bound) :
    t.countChecked (Int64.ofInt first) bound (Int64.ofInt done) =
      some (Int64.ofInt (done + n : Nat)) := by
  generalize hstart : first + done = start at h
  induction h generalizing done bound with
  | stop hlast habsent =>
    obtain ⟨bound, rfl⟩ := Nat.exists_eq_add_one_of_ne_zero (Nat.ne_zero_of_lt hbound)
    rw [countChecked, toInt_position (by omega), toInt_position (by omega), ← Int.natCast_add, hstart,
      index?_of_range (by omega) (by omega)]
    exact if_neg (Bool.eq_false_iff.1 habsent)
  | step hpresent hrest ih =>
    obtain ⟨bound, rfl⟩ := Nat.exists_eq_add_one_of_ne_zero (Nat.ne_zero_of_lt hbound)
    have hlast := hrest.last
    have hnext := @ih bound (done + 1) (by omega) (by omega)
    rw [countChecked, toInt_position (by omega), toInt_position (by omega), ← Int.natCast_add, hstart,
      index?_of_range (by omega) (by omega), ← Int.natCast_succ,
      index?_of_range (by omega) (by omega)]
    rw [Nat.add_assoc, Nat.add_comm 1] at hnext
    exact (if_pos hpresent).trans hnext

theorem collectChecked_eq (h : t.Run (start + 1) n) (ht : t.WellFormed) (hbound : n < bound) :
    t.collectChecked bound (Int64.ofInt start) = some ((keysFrom (start + 1) n).map t.get) := by
  generalize hfirst : start + 1 = first at h
  induction h generalizing start bound with
  | stop hlast habsent =>
    subst hfirst
    obtain ⟨bound, rfl⟩ := Nat.exists_eq_add_one_of_ne_zero (Nat.ne_zero_of_lt hbound)
    exact collectChecked_of_absent hlast habsent
  | step hpresent hrest ih =>
    subst hfirst
    obtain ⟨bound, rfl⟩ := Nat.exists_eq_add_one_of_ne_zero (Nat.ne_zero_of_lt hbound)
    have hlast := hrest.last
    have hnext := ih (Nat.lt_of_succ_lt_succ hbound) rfl
    rw [keysFrom_succ]
    exact collectChecked_of_present ht (by omega) hpresent hnext

end Run

/-! ## Clearing -/

/-- Keys in stored form are raw-equal only if they are the same. -/
theorem WellFormed.entries_setAt_nil (h : t.WellFormed) (i : Int) :
    (t.setAt i .nil).entries =
      t.entries.filter fun entry => entry.1 ≠ .integer (Int64.ofInt i) := by
  refine List.filter_congr fun entry hentry => ?_
  have hkey := h.keys entry.1 (List.mem_map_of_mem hentry)
  rw [Bool.eq_iff_iff, decide_eq_true_iff, Bool.not_eq_true', ← Bool.not_eq_true, not_iff_not,
    Value.rawEq_iff]
  constructor
  · rintro ⟨-, hprint⟩
    exact hkey.eq_of_fingerprint (Value.isKey_integer _) hprint
  · intro heq
    exact ⟨hkey.notNaN, congrArg _ heq⟩

/-- The course of clearing: one present key after the other, up to an absent one. -/
inductive Clears : (start n : Nat) → Table → Table → Prop where
  | stop {start : Nat} {t : Table} :
    start < Nat.pow 2 63 → t.containsAt start = false → Clears start 0 t t
  | step {start n : Nat} {t u : Table} : t.containsAt start = true →
    Clears (start + 1) n (t.setAt start .nil) u → Clears start (n + 1) t u

theorem Run.clears {bound : Nat} (h : t.Run start n) (ht : t.WellFormed) (hbound : n ≤ bound) :
    Clears start n t (clearFrom bound start t) := by
  induction n generalizing t start bound with
  | zero =>
    cases h with
    | stop hlast habsent =>
      have hkept : clearFrom bound start t = t := by
        cases bound with
        | zero => rfl
        | succ bound => exact if_neg (Bool.eq_false_iff.1 habsent)
      rw [hkept]
      exact .stop hlast habsent
  | succ n ih =>
    obtain ⟨bound, rfl⟩ := Nat.exists_eq_add_one_of_ne_zero (Nat.ne_zero_of_lt hbound)
    cases h with
    | step hpresent hrest =>
      have hnext := ih (hrest.cleared ht) (ht.setAt _ _) (Nat.le_of_succ_le_succ hbound)
      rw [clearFrom, if_pos hpresent, ← Int.natCast_succ]
      exact .step hpresent hnext

namespace Clears

theorem last (h : Clears start n t u) : start + n < Nat.pow 2 63 := by
  induction h with
  | stop hlast _ => exact hlast
  | step _ _ ih => omega

theorem clearChecked_eq {bound : Nat} (h : Clears start n t u) (hbound : n < bound) :
    clearChecked bound (Int64.ofInt start) t = some u := by
  induction h generalizing bound with
  | stop hlast habsent =>
    obtain ⟨bound, rfl⟩ := Nat.exists_eq_add_one_of_ne_zero (Nat.ne_zero_of_lt hbound)
    exact if_neg (Bool.eq_false_iff.1 habsent)
  | step hpresent hrest ih =>
    obtain ⟨bound, rfl⟩ := Nat.exists_eq_add_one_of_ne_zero (Nat.ne_zero_of_lt hbound)
    have hlast := hrest.last
    have hnext := ih (Nat.lt_of_succ_lt_succ hbound)
    rw [clearChecked, toInt_position (by omega), ← Int.natCast_succ,
      index?_of_range (by omega) (by omega)]
    exact (if_pos hpresent).trans hnext

theorem count (h : Clears start n t u) (ht : t.WellFormed) : u.count + n = t.count := by
  induction h with
  | stop _ _ => exact Nat.add_zero _
  | @step start n t u hpresent _ ih =>
    have hstep := ht.count_setAt start .nil
    have hnil : Value.nil.occupancy = 0 := rfl
    rw [ht.occupancy_getAt, if_pos hpresent, hnil] at hstep
    have hrest := ih (ht.setAt _ _)
    omega

theorem entries (h : Clears start n t u) (ht : t.WellFormed) :
    u.entries = t.entries.filter fun entry => entry.1 ∉ keysFrom start n := by
  induction h with
  | stop _ _ => exact (List.filter_eq_self.2 fun entry _ => decide_eq_true List.not_mem_nil).symm
  | step _ _ ih =>
    rw [ih (ht.setAt _ _), ht.entries_setAt_nil, List.filter_filter]
    refine List.filter_congr fun entry _ => ?_
    rw [keysFrom_succ, Bool.eq_iff_iff, Bool.and_eq_true, decide_eq_true_iff, decide_eq_true_iff,
      decide_eq_true_iff, List.mem_cons, not_or, and_comm]

end Clears

/-! ## Filling -/

/-- Filling a table from a list whose first value has the index `i`, counted from 0. The loop gives
nothing when the position that belongs to an index overflows. -/
def fillChecked : (i : Nat) → List Value → Table → Option Table
  | _, [], t => some t
  | i, value :: rest, t => do
    let position ← index? (i + 1)
    fillChecked (i + 1) rest (t.put (.integer position) value)

theorem fillChecked_eq (values : List Value) {i : Nat} (hlast : i + values.length < Nat.pow 2 63)
    (t : Table) : fillChecked i values t = some (setFrom (i + 1) values t) := by
  induction values generalizing i t with
  | nil => rfl
  | cons value rest ih =>
    rw [List.length_cons] at hlast
    have hrest := @ih (i + 1) (by omega) (t.setAt (i + 1) value)
    rw [Int.natCast_succ] at hrest
    rw [fillChecked, index?_of_range (by omega) (by omega), setFrom]
    exact hrest

/-! ## The whole sequence -/

section Whole

variable {bound : Nat} (h : t.WellFormed)
include h

theorem WellFormed.sequence_eq_map : t.sequence = (positions t.length).map t.get := by
  rw [h.sequence_eq, positions, List.map_map]
  rfl

theorem WellFormed.ne_nil_of_mem_sequence {v : Value} (hv : v ∈ t.sequence) : v ≠ .nil := by
  rw [h.sequence_eq] at hv
  obtain ⟨k, hk, rfl⟩ := List.mem_map.1 hv
  exact (h.containsAt_iff _).1 (containsAt_of_le_length (Nat.succ_pos k) (List.mem_range.1 hk))

/-- **The count test.** The length is the number of entries exactly if all keys are positions up to it. -/
theorem WellFormed.length_eq_count_iff_keys (hfits : t.Fits) :
    t.length = t.count ↔ ∀ key ∈ Entries.keys t.entries,
      ∃ i : Int64, key = .integer i ∧ 1 ≤ i.toInt ∧ i.toInt ≤ t.length := by
  have hlength := t.length_le_count
  have hn : t.length < Nat.pow 2 63 := Nat.lt_of_le_of_lt hlength hfits
  constructor
  · intro heq key hkey
    exact (h.keysUpTo_length hfits heq key).1 hkey
  · intro hkeys
    have hsub : Entries.keys t.entries ⊆ positions t.length :=
      fun key hkey => (mem_positions hn).2 (hkeys key hkey)
    have hcount := (h.nodup_keys.subperm hsub).length_le
    rw [length_positions, ← count_eq_length_keys] at hcount
    exact Nat.le_antisymm hlength hcount

variable (hroom : t.count + 1 < Nat.pow 2 63)
include hroom

theorem WellFormed.countChecked_eq (hbound : t.length < bound) :
    t.countChecked 1 bound 0 = some t.rawLength := by
  have hcount := @Run.countChecked_eq t _ bound 1 0 (h.run hroom) hbound
  rwa [Nat.zero_add, Int64.ofInt_eq_ofNat (n := t.length)] at hcount

theorem WellFormed.collectChecked_eq (hbound : t.length < bound) :
    t.collectChecked bound 0 = some t.sequence := by
  have hvalues := @Run.collectChecked_eq t 0 _ bound (h.run hroom) h hbound
  rwa [Nat.zero_add, keysFrom_one, ← h.sequence_eq_map] at hvalues

theorem WellFormed.clears : Clears 1 t.length t t.clearSequence :=
  (h.run hroom).clears h t.length_le_count

theorem WellFormed.entries_clearSequence : t.clearSequence.entries =
    t.entries.filter fun entry => entry.1 ∉ positions t.length := by
  rw [← keysFrom_one]
  exact (h.clears hroom).entries h

theorem WellFormed.length_clearSequence : t.clearSequence.length = 0 := by
  have hlength := t.length_le_count
  have hcleared : t.clearSequence.WellFormed := WellFormed.stable.clearFrom t.count 1 h
  refine hcleared.length_eq_of_border (Nat.pow_pos (Nat.succ_pos 1)) (by omega) ?_
  rw [← Bool.not_eq_true, hcleared.containsAt_iff_mem, Entries.keys, h.entries_clearSequence hroom]
  intro hmem
  obtain ⟨entry, hentry, hkey⟩ := List.mem_map.1 hmem
  obtain ⟨hold, hkept⟩ := List.mem_filter.1 hentry
  rcases Nat.eq_zero_or_pos t.length with hzero | hpos
  · -- nothing was cleared, since the first key was absent already
    have habsent := h.containsAt_after_length (by omega)
    rw [hzero, ← Bool.not_eq_true, h.containsAt_iff_mem] at habsent
    exact habsent (List.mem_map.2 ⟨entry, hold, hkey⟩)
  · refine of_decide_eq_true hkept ?_
    rw [hkey, mem_positions (by omega)]
    exact ⟨1, rfl, Int.le_refl _, Int.ofNat_le.2 hpos⟩

end Whole

end Table
end LuaHost
