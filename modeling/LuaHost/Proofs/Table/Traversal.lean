import LuaHost.Proofs.Table.Filling

/-!
# LuaHost.Proofs.Table.Traversal

The traversal of a table by its keys, while its values may change.

* `Table.Resumes`: the keys from which the traversal goes on with the `n`-th entry.
  `Table.WellFormed.next?_of_resumes`: it does.
* `Table.Overwritten`: what becomes of a table whose present keys are assigned values. Its keys stay, in
  their order.
* `Table.getElem?_traverseThrough`: a whole traversal, of a table that may be another at every step.
-/

namespace LuaHost

namespace Entries

theorem after?_congr {key other : Value} (h : key.fingerprint = other.fingerprint)
    (entries : Entries) : after? key entries = after? other entries := by
  induction entries with
  | nil => rfl
  | cons entry rest ih =>
    obtain ⟨k, v⟩ := entry
    rw [after?, after?, Value.rawEq_congr_right h, ih]

theorem after?_of_absent {key : Value} {entries : Entries} (h : contains key entries = false) :
    after? key entries = none := by
  induction entries with
  | nil => rfl
  | cons entry rest ih =>
    obtain ⟨k, v⟩ := entry
    obtain ⟨hk, hrest⟩ := Bool.or_eq_false_iff.1 h
    rw [after?, if_neg (Bool.eq_false_iff.1 hk), ih hrest]

/-- The entry after a key is the one at the next position: the search does not stop before, since no
key is raw-equal to another. -/
theorem after?_of_getElem? {entries : Entries}
    (hdistinct : entries.keys.Pairwise fun a b => a.rawEq b = false) {n : Nat} {key : Value}
    (hkey : entries.keys[n]? = some key) (hself : key.rawEq key = true) :
    after? key entries = entries[n + 1]? := by
  induction entries generalizing n with
  | nil => cases hkey
  | cons entry rest ih =>
    obtain ⟨k, v⟩ := entry
    obtain ⟨hfirst, hrest⟩ := List.pairwise_cons.1 hdistinct
    cases n with
    | zero =>
      cases hkey
      rw [after?, if_pos hself, List.getElem?_cons_succ, List.head?_eq_getElem?]
    | succ n =>
      have hkey : (keys rest)[n]? = some key := hkey
      have hother := hfirst key (List.mem_of_getElem? hkey)
      rw [after?, if_neg (Bool.eq_false_iff.1 hother), ih hrest hkey, List.getElem?_cons_succ]

/-- Of keys that are pairwise different, at most one is raw-equal to a given key. -/
theorem countP_keys {entries : Entries}
    (hdistinct : entries.keys.Pairwise fun a b => a.rawEq b = false) (key : Value) :
    entries.keys.countP (·.rawEq key) = if contains key entries then 1 else 0 := by
  rw [contains_eq_any]
  generalize entries.keys = keys at hdistinct
  induction keys with
  | nil => rfl
  | cons k rest ih =>
    obtain ⟨hfirst, hrest⟩ := List.pairwise_cons.1 hdistinct
    rw [List.countP_cons, ih hrest, List.any_cons]
    cases hk : k.rawEq key with
    | false => rfl
    | true =>
      -- a later key that is raw-equal too would be raw-equal to the first
      have hnone : rest.any (·.rawEq key) = false := by
        rw [List.any_eq_false]
        intro other hother heq
        rw [Value.rawEq_comm] at heq
        exact Bool.false_ne_true ((hfirst other hother).symm.trans (Value.rawEq_trans hk heq))
      rw [hnone]
      rfl

end Entries

namespace Table

variable {t u : Table} {key other : Value}

/-! ## One step -/

/-- The traversal goes on with the `n`-th entry from the key before it, in either number subtype, and
starts without a key or at nil. -/
inductive Resumes (t : Table) : Nat → Option Value → Prop where
  | start : t.Resumes 0 none
  | nil : t.Resumes 0 (some .nil)
  | after {n : Nat} {stored key : Value} : (Entries.keys t.entries)[n]? = some stored →
      stored.rawEq key = true → t.Resumes (n + 1) (some key)

theorem next?_of_ne_nil (t : Table) (h : key ≠ .nil) :
    t.next? (some key) = Entries.after? key t.entries := by
  cases key with
  | nil => exact absurd rfl h
  | _ => rfl

theorem next?_congr (t : Table) (h : key.rawEq other = true) :
    t.next? (some key) = t.next? (some other) := by
  have hnil := Value.isNil_eq_of_rawEq h
  by_cases hkey : key = .nil
  · subst hkey
    rw [Value.rawEq_comm] at h
    rw [Value.eq_nil_of_rawEq_nil h]
  · have hother : other ≠ .nil := by
      rintro rfl
      exact hkey (Value.eq_nil_of_rawEq_nil h)
    rw [next?_of_ne_nil t hkey, next?_of_ne_nil t hother,
      Entries.after?_congr (Value.fingerprint_eq_of_rawEq h)]

theorem next?_of_absent (hnil : key ≠ .nil) (h : t.contains key = false) :
    t.next? (some key) = none := by
  rw [next?_of_ne_nil t hnil]
  refine Entries.after?_of_absent ?_
  rw [contains] at h
  cases key with
  | nil => exact absurd rfl hnil
  | _ => exact h

theorem not_contains_of_isNaN (t : Table) (h : key.isNaN = true) : t.contains key = false := by
  rw [contains, Entries.contains_eq_any, Bool.and_eq_false_iff]
  refine .inr (List.any_eq_false.2 fun stored _ heq => ?_)
  rw [Value.rawEq_comm, Value.rawEq_iff, h] at heq
  cases heq.1

namespace WellFormed

theorem rawEq_self (h : t.WellFormed) (hkey : key ∈ Entries.keys t.entries) :
    key.rawEq key = true :=
  (Value.rawEq_iff key key).2 ⟨(h.keys key hkey).notNaN, rfl⟩

theorem contains_eq (h : t.WellFormed) (key : Value) :
    t.contains key = Entries.contains key t.entries := by
  cases key with
  | nil =>
    -- nil is no key, so it is not found among the keys either
    rw [contains, Entries.contains_eq_any, List.any_eq_false.2]
    · rfl
    · intro stored hstored heq
      exact (h.keys stored hstored).notNil (Value.eq_nil_of_rawEq_nil heq)
  | _ => rfl

theorem countP_keys (h : t.WellFormed) (key : Value) :
    (Entries.keys t.entries).countP (·.rawEq key) = if t.contains key then 1 else 0 := by
  rw [h.contains_eq]
  exact Entries.countP_keys h.distinct key

/-- The entries are the keys with what is read at them. -/
theorem entries_eq (h : t.WellFormed) :
    t.entries = (Entries.keys t.entries).map fun key => (key, t.get key) := by
  rw [Entries.keys, List.map_map]
  refine (List.map_id _).symm.trans (List.map_congr_left fun entry hentry => ?_)
  rw [Function.comp_apply, h.get_of_mem hentry]
  rfl

theorem next?_of_resumes (h : t.WellFormed) {n : Nat} {at? : Option Value} (hat : t.Resumes n at?) :
    t.next? at? = t.entries[n]? := by
  cases hat with
  | start => exact List.head?_eq_getElem? ..
  | nil => exact List.head?_eq_getElem? ..
  | @after n stored key hstored heq =>
    have hmem := List.mem_of_getElem? hstored
    rw [← t.next?_congr heq, next?_of_ne_nil t (h.keys stored hmem).notNil]
    exact Entries.after?_of_getElem? h.distinct hstored (h.rawEq_self hmem)

/-- After an entry the traversal goes on with the next. -/
theorem resumes_after (h : t.WellFormed) {n : Nat} {entry : Value × Value}
    (hentry : t.entries[n]? = some entry) : t.Resumes (n + 1) (some entry.1) := by
  have hkey : (Entries.keys t.entries)[n]? = some entry.1 := by
    rw [Entries.keys, List.getElem?_map, hentry]
    rfl
  exact .after hkey (h.rawEq_self (List.mem_of_getElem? hkey))

end WellFormed

/-! ## Values that change -/

/-- What becomes of the table when keys that are present are assigned values other than nil. -/
inductive Overwritten (t : Table) : Table → Prop where
  | refl : t.Overwritten t
  | set {u u' : Table} {key value : Value} : t.Overwritten u → u.contains key = true →
      value ≠ .nil → u.set key value = .ok u' → t.Overwritten u'

namespace Overwritten

theorem trans {u' : Table} (h : t.Overwritten u) (h' : u.Overwritten u') : t.Overwritten u' := by
  induction h' with
  | refl => exact h
  | set _ hcontains hvalue hset ih => exact .set ih hcontains hvalue hset

theorem wellFormed (h : t.Overwritten u) (ht : t.WellFormed) : u.WellFormed := by
  induction h with
  | refl => exact ht
  | set _ _ _ hset ih => exact ih.set hset

/-- The keys stay the same, in the same order. -/
theorem keys (h : t.Overwritten u) : Entries.keys u.entries = Entries.keys t.entries := by
  induction h with
  | refl => rfl
  | @set u u' key value _ hcontains hvalue hset ih =>
    rw [← ih]
    unfold Table.set at hset
    split at hset
    · cases hset
    · rename_i stored hstored
      cases hset
      have hpresent : Entries.contains stored u.entries = true := by
        rw [Entries.contains_congr (normalizeKey_ok hstored).1]
        exact (Bool.and_eq_true_iff.1 hcontains).2
      have hnil : ¬ value.isNil = true := by
        cases value with
        | nil => exact absurd rfl hvalue
        | _ => exact Bool.false_ne_true
      rw [put, if_neg hnil, Entries.keys_store, if_pos hpresent]

theorem contains_eq (h : t.Overwritten u) (key : Value) : u.contains key = t.contains key := by
  rw [contains, contains, Entries.contains_eq_any, Entries.contains_eq_any, h.keys]

theorem count_eq (h : t.Overwritten u) : u.count = t.count := by
  rw [count, count, ← Entries.length_keys, ← Entries.length_keys, h.keys]

/-- Every key is still present, so none of them reads as nil. -/
theorem get_ne_nil (h : t.Overwritten u) (ht : t.WellFormed) (hkey : key ∈ Entries.keys t.entries) :
    u.get key ≠ .nil := by
  have hu := h.wellFormed ht
  rw [← hu.contains_iff, h.contains_eq, ht.contains_iff_mem (ht.keys key hkey)]
  exact hkey

theorem resumes (h : t.Overwritten u) {n : Nat} {at? : Option Value} (hat : t.Resumes n at?) :
    u.Resumes n at? := by
  cases hat with
  | start => exact .start
  | nil => exact .nil
  | after hstored heq =>
    rw [← h.keys] at hstored
    exact .after hstored heq

end Overwritten

/-! ## Whole traversals -/

/-- The traversal of a table that may be another one at each step: the `n`-th step finds `tables n`. -/
def traverseThrough (tables : Nat → Table) : (bound : Nat) → (key : Option Value) → Entries
  | 0, _ => []
  | bound + 1, key =>
    match (tables 0).next? key with
    | none => []
    | some (k, v) => (k, v) :: traverseThrough (fun n => tables (n + 1)) bound (some k)

theorem traverse_eq_traverseThrough (t : Table) (bound : Nat) (key : Option Value) :
    t.traverse bound key = traverseThrough (fun _ => t) bound key := by
  induction bound generalizing key with
  | zero => rfl
  | succ bound ih =>
    rw [traverse, traverseThrough]
    cases t.next? key with
    | none => rfl
    | some entry => exact congrArg _ (ih (some entry.1))

theorem overwritten_of_steps {tables : Nat → Table}
    (hsteps : ∀ n, (tables n).Overwritten (tables (n + 1))) (n : Nat) :
    (tables 0).Overwritten (tables n) := by
  induction n with
  | zero => exact .refl
  | succ n ih => exact ih.trans (hsteps n)

/-- Every step finds the entry that is at its position by then. -/
theorem getElem?_traverseThrough {tables : Nat → Table} (h : (tables 0).WellFormed)
    (hsteps : ∀ n, (tables n).Overwritten (tables (n + 1))) {n : Nat} {at? : Option Value}
    (hat : (tables 0).Resumes n at?) (bound i : Nat) :
    (traverseThrough tables bound at?)[i]? =
      if i < bound then (tables i).entries[n + i]? else none := by
  induction bound generalizing tables n at? i with
  | zero => rfl
  | succ bound ih =>
    rw [traverseThrough, h.next?_of_resumes hat]
    cases hentry : (tables 0).entries[n]? with
    | none =>
      -- there are no more entries at any later time
      have hend : (tables 0).count ≤ n := List.getElem?_eq_none_iff.1 hentry
      have hlater : (tables i).entries[n + i]? = none := by
        have hcount := (overwritten_of_steps hsteps i).count_eq
        exact List.getElem?_eq_none (show (tables i).count ≤ n + i by omega)
      rw [hlater, ite_self]
      rfl
    | some entry =>
      cases i with
      | zero => exact hentry.symm
      | succ i =>
        have hnext := @ih (fun n => tables (n + 1)) ((hsteps 0).wellFormed h)
          (fun n => hsteps (n + 1)) _ _ ((hsteps 0).resumes (h.resumes_after hentry)) i
        simp only [List.getElem?_cons_succ, hnext, Nat.add_lt_add_iff_right]
        rw [Nat.add_right_comm, Nat.add_assoc n i 1]

theorem WellFormed.traverse_eq_take (h : t.WellFormed) (bound : Nat) :
    t.traverse bound none = t.entries.take bound := by
  refine List.ext_getElem? fun i => ?_
  rw [traverse_eq_traverseThrough, getElem?_traverseThrough h (fun _ => .refl) .start, Nat.zero_add,
    List.getElem?_take]

end Table
end LuaHost
