import LuaHost.Json.Bridge
import LuaHost.Proofs.Table.Sequence
import Mathlib.Data.List.TakeWhile

/-!
# LuaHost.Proofs.Table.Filling

The entries of new tables that are filled from a list.

* `Table.entries_ofList`, `Table.mem_entries_ofList_iff`: values at consecutive keys; nils leave no entry.
* `Table.entries_ofMembers`: values at different names; nils leave no entry.
* `Table.sequence_ofList`, `Table.isSequence_ofList_iff`: how far the sequence goes, and when it is all.
-/

namespace LuaHost

namespace Entries

theorem store_of_absent {key : Value} {entries : Entries} (h : contains key entries = false)
    (value : Value) : store key value entries = entries ++ [(key, value)] := by
  induction entries with
  | nil => rfl
  | cons entry rest ih =>
    obtain ⟨k, v⟩ := entry
    obtain ⟨hk, hrest⟩ := Bool.or_eq_false_iff.1 h
    rw [store, if_neg (Bool.eq_false_iff.1 hk), ih hrest]
    rfl

theorem erase_of_absent {key : Value} {entries : Entries} (h : contains key entries = false) :
    erase key entries = entries := by
  refine List.filter_eq_self.2 fun entry hentry => ?_
  have hk := List.any_eq_false.1 h entry hentry
  simpa using hk

end Entries

namespace Table

/-! ## Stored values -/

theorem mem_entries_put {t : Table} {key value : Value} {entry : Value × Value}
    (h : entry ∈ (t.put key value).entries) : entry.2 = value ∨ entry ∈ t.entries := by
  unfold put at h
  cases hvalue : value.isNil with
  | true =>
    rw [hvalue] at h
    exact .inr (List.mem_filter.1 h).1
  | false =>
    rw [hvalue] at h
    exact Entries.mem_store h

theorem mem_of_mem_ofList {values : List Value} {entry : Value × Value}
    (h : entry ∈ (ofList values).entries) : entry.2 ∈ values := by
  have hfrom (start : Int) (t : Table) (hmem : entry ∈ (setFrom start values t).entries) :
      entry.2 ∈ values ∨ entry ∈ t.entries := by
    clear h
    induction values generalizing start t with
    | nil => exact .inr hmem
    | cons value rest ih =>
      rcases ih _ _ hmem with hrest | hput
      · exact .inl (List.mem_cons_of_mem _ hrest)
      · exact (mem_entries_put hput).imp_left fun heq => List.mem_cons.2 (.inl heq)
  exact (hfrom 1 {} h).resolve_right List.not_mem_nil

/-- Members are assigned to a table that has entries already. -/
def putAll (t : Table) (members : List (String × Value)) : Table :=
  members.foldl (fun t (name, value) => t.put (.string name) value) t

theorem ofMembers_eq (members : List (String × Value)) : ofMembers members = putAll {} members := rfl

theorem putAll_cons (t : Table) (member : String × Value) (rest : List (String × Value)) :
    putAll t (member :: rest) = putAll (t.put (.string member.1) member.2) rest := rfl

theorem mem_of_mem_putAll {t : Table} {members : List (String × Value)} {entry : Value × Value}
    (h : entry ∈ (putAll t members).entries) :
    (∃ member ∈ members, entry.2 = member.2) ∨ entry ∈ t.entries := by
  induction members generalizing t with
  | nil => exact .inr h
  | cons member rest ih =>
    rcases ih h with ⟨other, hother, heq⟩ | hput
    · exact .inl ⟨other, List.mem_cons_of_mem _ hother, heq⟩
    · exact (mem_entries_put hput).imp_left fun heq => ⟨member, List.mem_cons_self .., heq⟩

theorem mem_of_mem_ofMembers {members : List (String × Value)} {entry : Value × Value}
    (h : entry ∈ (ofMembers members).entries) : ∃ member ∈ members, entry.2 = member.2 :=
  (mem_of_mem_putAll h).resolve_right List.not_mem_nil

/-- What assignment at an absent key adds. -/
def entryOf (key value : Value) : Entries := if value.isNil then [] else [(key, value)]

theorem entryOf_of_ne_nil (key : Value) {value : Value} (h : value ≠ .nil) :
    entryOf key value = [(key, value)] := by
  cases value with
  | nil => exact absurd rfl h
  | _ => rfl

theorem entries_put_of_absent {t : Table} {key : Value}
    (h : Entries.contains key t.entries = false) (value : Value) :
    (t.put key value).entries = t.entries ++ entryOf key value := by
  unfold put entryOf
  cases value.isNil with
  | true => exact (Entries.erase_of_absent h).trans (List.append_nil _).symm
  | false => exact Entries.store_of_absent h value

theorem mem_entryOf {key value : Value} {entry : Value × Value} (h : entry ∈ entryOf key value) :
    entry = (key, value) := by
  unfold entryOf at h
  split at h
  · cases h
  · exact List.mem_singleton.1 h

/-! ## Consecutive keys -/

/-- The entries of values at consecutive keys. -/
def numbered : (start : Int) → List Value → Entries
  | _, [] => []
  | start, value :: rest => entryOf (.integer (Int64.ofInt start)) value ++ numbered (start + 1) rest

theorem mem_numbered {values : List Value} {start : Int} {entry : Value × Value}
    (h : entry ∈ numbered start values) : (∃ i, entry.1 = .integer i) ∧ entry.2 ∈ values := by
  induction values generalizing start with
  | nil => cases h
  | cons value rest ih =>
    rcases List.mem_append.1 h with hhead | hrest
    · rw [mem_entryOf hhead]
      exact ⟨⟨_, rfl⟩, List.mem_cons_self ..⟩
    · obtain ⟨hkey, hvalue⟩ := ih hrest
      exact ⟨hkey, List.mem_cons_of_mem _ hvalue⟩

/-- Every value but nil is stored at its own position. -/
theorem mem_numbered_iff {values : List Value} {start : Int} {key value : Value} :
    (key, value) ∈ numbered start values ↔
      ∃ k : Nat, key = .integer (Int64.ofInt (start + k)) ∧ values[k]? = some value ∧ value ≠ .nil := by
  induction values generalizing start with
  | nil => simp [numbered]
  | cons first rest ih =>
    rw [numbered, List.mem_append, ih]
    constructor
    · rintro (hhead | ⟨k, hkey, hvalue⟩)
      · have hnil : first.isNil ≠ true := fun hnil => by simp [entryOf, hnil] at hhead
        cases mem_entryOf hhead
        refine ⟨0, by rw [Int.natCast_zero, Int.add_zero], rfl, ?_⟩
        rintro rfl
        exact hnil rfl
      · refine ⟨k + 1, ?_, hvalue⟩
        rw [hkey, Int.natCast_succ, Int.add_comm (k : Int), Int.add_assoc]
    · rintro ⟨k, hkey, hvalue, hnil⟩
      cases k with
      | zero =>
        rw [Int.natCast_zero, Int.add_zero] at hkey
        cases hvalue
        rw [hkey, entryOf_of_ne_nil _ hnil]
        exact .inl (List.mem_singleton_self _)
      | succ k =>
        refine .inr ⟨k, ?_, hvalue, hnil⟩
        rw [hkey, Int.natCast_succ, Int.add_comm (k : Int), Int.add_assoc]

theorem toInt_ofInt {n : Int} (hlow : 0 ≤ n) (hhigh : n < Nat.pow 2 63) :
    (Int64.ofInt n).toInt = n := by
  have hn := toInt_position (k := n.toNat) (by omega)
  rwa [Int.toNat_of_nonneg hlow] at hn

theorem entries_setFrom (values : List Value) {start : Int} {t : Table} (hstart : 0 ≤ start)
    (hlast : start + values.length ≤ Nat.pow 2 63)
    (hbefore : ∀ key ∈ Entries.keys t.entries, ∃ i : Int64, key = .integer i ∧ i.toInt < start) :
    (setFrom start values t).entries = t.entries ++ numbered start values := by
  induction values generalizing start t with
  | nil => exact (List.append_nil _).symm
  | cons value rest ih =>
    rw [List.length_cons, Int.natCast_succ] at hlast
    have hint : (Int64.ofInt start).toInt = start := toInt_ofInt hstart (by omega)
    have habsent : Entries.contains (.integer (Int64.ofInt start)) t.entries = false := by
      rw [Entries.contains_eq_any, List.any_eq_false]
      intro key hkey heq
      obtain ⟨i, rfl, hi⟩ := hbefore key hkey
      rw [beq_iff_eq.1 heq, hint] at hi
      exact Int.lt_irrefl _ hi
    have hput := entries_put_of_absent habsent value
    rw [setFrom, numbered, ih (by omega) (by omega), setAt, hput, List.append_assoc]
    intro key hkey
    rw [setAt, hput, Entries.keys, List.map_append] at hkey
    rcases List.mem_append.1 hkey with hold | hnew
    · obtain ⟨i, heq, hi⟩ := hbefore key hold
      exact ⟨i, heq, by omega⟩
    · obtain ⟨entry, hentry, rfl⟩ := List.mem_map.1 hnew
      exact ⟨Int64.ofInt start, by rw [mem_entryOf hentry], by omega⟩

theorem metatable_ofList (values : List Value) : (ofList values).metatable = none :=
  (stable_metatable none).setFrom values 1 rfl

theorem entries_ofList {values : List Value} (h : values.length < Nat.pow 2 63) :
    (ofList values).entries = numbered 1 values :=
  entries_setFrom values (by omega) (by omega) nofun

/-! ## Names -/

/-- The entries of values at names. -/
def named : List (String × Value) → Entries
  | [] => []
  | (name, value) :: rest => entryOf (.string name) value ++ named rest

theorem mem_named {members : List (String × Value)} {entry : Value × Value}
    (h : entry ∈ named members) : ∃ name, entry.1 = .string name ∧ (name, entry.2) ∈ members := by
  induction members with
  | nil => cases h
  | cons member rest ih =>
    rcases List.mem_append.1 h with hhead | hrest
    · exact ⟨member.1, by rw [mem_entryOf hhead], by rw [mem_entryOf hhead]; exact List.mem_cons_self ..⟩
    · obtain ⟨name, hname, hmem⟩ := ih hrest
      exact ⟨name, hname, List.mem_cons_of_mem _ hmem⟩

theorem mem_named_of_mem {members : List (String × Value)} {member : String × Value}
    (h : member ∈ members) (hvalue : member.2 ≠ .nil) :
    (.string member.1, member.2) ∈ named members := by
  induction members with
  | nil => cases h
  | cons first rest ih =>
    rcases List.mem_cons.1 h with rfl | hrest
    · rw [named, entryOf_of_ne_nil _ hvalue]
      exact List.mem_cons_self ..
    · exact List.mem_append_right _ (ih hrest)

theorem entries_putAll {t : Table} {members : List (String × Value)}
    (h : (members.map Prod.fst).Nodup)
    (habsent : ∀ name ∈ members.map Prod.fst, Entries.contains (.string name) t.entries = false) :
    (putAll t members).entries = t.entries ++ named members := by
  induction members generalizing t with
  | nil => exact (List.append_nil _).symm
  | cons member rest ih =>
    obtain ⟨name, value⟩ := member
    obtain ⟨hname, hrest⟩ := List.nodup_cons.1 h
    have hput := entries_put_of_absent (habsent name (List.mem_cons_self ..)) value
    rw [putAll_cons, ih hrest, hput, named, List.append_assoc]
    intro other hother
    have hold := habsent other (List.mem_cons_of_mem _ hother)
    rw [hput, Entries.contains, List.any_append, ← Entries.contains, hold, Bool.false_or]
    unfold entryOf
    split
    · rfl
    · -- the name just assigned is none of those that follow
      have hne : name ≠ other := fun heq => hname (heq ▸ hother)
      simpa [Value.rawEq] using hne

theorem entries_ofMembers {members : List (String × Value)}
    (h : (members.map Prod.fst).Nodup) : (ofMembers members).entries = named members := by
  rw [ofMembers_eq, entries_putAll h fun _ _ => rfl]
  rfl

theorem metatable_putAll (t : Table) (members : List (String × Value)) :
    (putAll t members).metatable = t.metatable := by
  induction members generalizing t with
  | nil => rfl
  | cons member rest ih => exact ih _

theorem metatable_ofMembers (members : List (String × Value)) :
    (ofMembers members).metatable = none :=
  metatable_putAll {} members

theorem kind_of_mem_ofMembers {members : List (String × Value)} (h : (members.map Prod.fst).Nodup)
    {key : Value} (hkey : key ∈ Entries.keys (ofMembers members).entries) : key.kind = .string := by
  rw [entries_ofMembers h] at hkey
  obtain ⟨entry, hentry, rfl⟩ := List.mem_map.1 hkey
  obtain ⟨name, hname, _⟩ := mem_named hentry
  rw [hname]
  rfl

theorem members_ofMembers {members : List (String × Value)} (h : (members.map Prod.fst).Nodup)
    (hvalues : ∀ member ∈ members, member.2 ≠ .nil) : (ofMembers members).members = members := by
  rw [Table.members, entries_ofMembers h]
  clear h
  induction members with
  | nil => rfl
  | cons member rest ih =>
    obtain ⟨hhead, hrest⟩ := List.forall_mem_cons.1 hvalues
    obtain ⟨name, value⟩ := member
    rw [named, entryOf_of_ne_nil _ hhead, List.filterMap_append, ih hrest]
    rfl

/-! ## No sequence -/

/-- Without number keys nothing is in the sequence. -/
theorem length_of_no_number {t : Table} (h : ∀ key ∈ Entries.keys t.entries, key.kind ≠ .number) :
    t.length = 0 := by
  have habsent : t.containsAt 1 = false := by
    rw [containsAt, contains, Entries.contains_eq_any, Bool.and_eq_false_iff]
    refine .inr (List.any_eq_false.2 fun key hkey heq => ?_)
    exact h key hkey (Value.kind_eq_of_rawEq heq)
  rw [length]
  cases t.count with
  | zero => rfl
  | succ bound => rw [runLength, habsent, if_neg Bool.false_ne_true]

theorem isSequence_of_no_number {t : Table} (h : ∀ key ∈ Entries.keys t.entries, key.kind ≠ .number) :
    t.isSequence = true ↔ t.entries = [] := by
  rw [isSequence, length_of_no_number h, beq_iff_eq, eq_comm, count, List.length_eq_zero_iff]

/-! ## The sequence of a list -/

theorem lookup_entryOf_append (key value : Value) (entries : Entries) {other : Value} :
    Entries.lookup other (entryOf key value ++ entries) =
      if key.rawEq other = true ∧ value.isNil = false then value else Entries.lookup other entries := by
  unfold entryOf
  cases hvalue : value.isNil with
  | true => rw [if_pos rfl, if_neg (by simp), List.nil_append]
  | false =>
    rw [if_neg Bool.false_ne_true, List.singleton_append, Entries.lookup]
    simp

theorem lookup_numbered (values : List Value) {start : Int} (hstart : 0 ≤ start)
    (hlast : start + values.length ≤ Nat.pow 2 63) (i : Int64) :
    Entries.lookup (.integer i) (numbered start values) =
      if i.toInt < start then .nil else Value.ofOption values[(i.toInt - start).toNat]? := by
  induction values generalizing start with
  | nil =>
    rw [List.getElem?_nil]
    split <;> rfl
  | cons value rest ih =>
    rw [List.length_cons, Int.natCast_succ] at hlast
    have hint : (Int64.ofInt start).toInt = start := toInt_ofInt hstart (by omega)
    have heq : (Value.integer (Int64.ofInt start)).rawEq (.integer i) = true ↔ start = i.toInt := by
      conv => rhs; rw [← hint, Int64.toInt_inj]
      exact beq_iff_eq (a := Int64.ofInt start)
    rw [numbered, lookup_entryOf_append, ih (by omega) (by omega)]
    simp only [heq]
    rcases Int.lt_trichotomy i.toInt start with hlt | hsame | hgt
    · rw [if_neg (by omega), if_pos (by omega), if_pos hlt]
    · -- a nil at this key leaves no entry, and reads as the nil that it is
      rw [hsame, if_pos (Int.lt_succ start), if_neg (Int.lt_irrefl start), Int.sub_self]
      cases value with
      | nil => exact if_neg fun hstored => Bool.noConfusion hstored.2
      | _ => exact if_pos ⟨rfl, rfl⟩
    · have hnext : (i.toInt - start).toNat = (i.toInt - (start + 1)).toNat + 1 := by omega
      rw [if_neg (by omega), if_neg (by omega), if_neg (by omega), hnext, List.getElem?_cons_succ]

/-- The values at a row of keys are taken up to the first nil among them. -/
theorem valuesFrom_of_getAt {t : Table} {bound : Nat} {start : Int} {values : List Value}
    (hget : ∀ k : Nat, k < bound → t.getAt (start + k) = Value.ofOption values[k]?) :
    t.valuesFrom bound start = (values.takeWhile (!·.isNil)).take bound := by
  induction bound generalizing start values with
  | zero => rfl
  | succ bound ih =>
    have hfirst := hget 0 (Nat.succ_pos bound)
    rw [Int.natCast_zero, Int.add_zero] at hfirst
    rw [valuesFrom, hfirst]
    cases values with
    | nil => rfl
    | cons value rest =>
      have hnext : ∀ k : Nat, k < bound → t.getAt (start + 1 + k) = Value.ofOption rest[k]? := by
        intro k hk
        have hk := hget (k + 1) (Nat.succ_lt_succ hk)
        rwa [Int.natCast_succ, Int.add_comm (k : Int), ← Int.add_assoc, List.getElem?_cons_succ] at hk
      have hrest := ih hnext
      cases value with
      | nil => rfl
      | _ => exact congrArg _ hrest

theorem length_numbered (values : List Value) (start : Int) :
    (numbered start values).length = (values.filter (!·.isNil)).length := by
  induction values generalizing start with
  | nil => rfl
  | cons value rest ih =>
    rw [numbered, List.length_append, ih, List.filter_cons, entryOf]
    cases value.isNil with
    | true => exact Nat.zero_add _
    | false => exact Nat.add_comm _ _

/-- What is stored at a key is read there. -/
theorem WellFormed.get_of_mem {t : Table} (h : t.WellFormed) {key value : Value}
    (hmem : (key, value) ∈ t.entries) : t.get key = value := by
  have hkey := h.keys key (List.mem_map_of_mem hmem)
  have hself : key.rawEq key = true := (Value.rawEq_iff key key).2 ⟨hkey.notNaN, rfl⟩
  have hnil : key.isNil = false := by
    cases key with
    | nil => exact absurd rfl hkey.notNil
    | _ => rfl
  have hdistinct := h.distinct
  rw [get, hnil, if_neg Bool.false_ne_true]
  generalize t.entries = entries at hmem hdistinct
  induction entries with
  | nil => cases hmem
  | cons entry rest ih =>
    obtain ⟨hhead, hrest⟩ := List.pairwise_cons.1 hdistinct
    rcases List.mem_cons.1 hmem with rfl | hmem
    · rw [Entries.lookup, if_pos hself]
    · -- an entry before it has another key
      have hother := hhead key (List.mem_map_of_mem hmem)
      rw [Entries.lookup, if_neg (Bool.eq_false_iff.1 hother)]
      exact ih hmem hrest

theorem WellFormed.length_sequence {t : Table} (h : t.WellFormed) : t.sequence.length = t.length := by
  rw [h.sequence_eq, List.length_map, List.length_range]

section OfList

variable {values : List Value} (h : values.length < Nat.pow 2 63)
include h

theorem count_ofList : (ofList values).count = (values.filter (!·.isNil)).length := by
  rw [count, entries_ofList h, length_numbered]

theorem mem_entries_ofList_iff {key value : Value} :
    (key, value) ∈ (ofList values).entries ↔ ∃ (i : Int64) (k : Nat),
      key = .integer i ∧ i.toInt = k + 1 ∧ values[k]? = some value ∧ value ≠ .nil := by
  rw [entries_ofList h, mem_numbered_iff]
  constructor
  · rintro ⟨k, hkey, hvalue, hnil⟩
    have hk := (List.getElem?_eq_some_iff.1 hvalue).1
    exact ⟨_, k, hkey, by rw [toInt_ofInt (by omega) (by omega), Int.add_comm], hvalue, hnil⟩
  · rintro ⟨i, k, hkey, hi, hvalue, hnil⟩
    exact ⟨k, by rw [hkey, Int.add_comm, ← hi, Int64.ofInt_toInt], hvalue, hnil⟩

theorem getAt_ofList {k : Nat} (hk : k < values.length) :
    (ofList values).getAt (1 + k) = Value.ofOption values[k]? := by
  have hint : (Int64.ofInt (1 + k)).toInt = 1 + k := toInt_ofInt (by omega) (by omega)
  have hindex : (((1 : Int) + k) - 1).toNat = k := by omega
  have hlookup := @lookup_numbered values 1 (by omega) (by omega) (Int64.ofInt (1 + k))
  rw [hint, if_neg (by omega), hindex] at hlookup
  rw [← hlookup, ← entries_ofList h]
  rfl

/-- The sequence stops at the first nil. -/
theorem sequence_ofList : (ofList values).sequence = values.takeWhile (!·.isNil) := by
  have hcount : (values.filter (!·.isNil)).length ≤ values.length := List.length_filter_le ..
  have hsub : (values.takeWhile (!·.isNil)).length ≤ (values.filter (!·.isNil)).length := by
    have hfilter := (List.takeWhile_sublist (!·.isNil) (l := values)).filter (!·.isNil)
    have hself : (values.takeWhile (!·.isNil)).filter (!·.isNil) = values.takeWhile (!·.isNil) :=
      List.filter_eq_self.2 fun v => List.mem_takeWhile_imp (p := fun v : Value => !v.isNil)
    exact hself ▸ hfilter.length_le
  rw [sequence, count_ofList h]
  rw [valuesFrom_of_getAt fun k hk => getAt_ofList h (Nat.lt_of_lt_of_le hk hcount)]
  exact List.take_of_length_le hsub

/-- All is sequence where only nils follow the first nil. -/
theorem isSequence_ofList_iff : (ofList values).isSequence = true ↔
    ∀ v ∈ values.dropWhile (!·.isNil), v = .nil := by
  have hsplit : values.filter (!·.isNil) =
      values.takeWhile (!·.isNil) ++ (values.dropWhile (!·.isNil)).filter (!·.isNil) := by
    conv => lhs; rw [← List.takeWhile_append_dropWhile (p := (!·.isNil)) (l := values)]
    rw [List.filter_append, List.filter_eq_self.2 fun v => List.mem_takeWhile_imp (p := fun v : Value => !v.isNil)]
  rw [isSequence, beq_iff_eq, ← (wellFormed_ofList values).length_sequence, sequence_ofList h,
    count_ofList h, hsplit, List.length_append, Nat.left_eq_add, List.length_eq_zero_iff,
    List.filter_eq_nil_iff]
  refine forall_congr' fun v => imp_congr_right fun _ => ?_
  cases v <;> simp [Value.isNil]

theorem keys_ofList_of_ne_nil (hvalues : ∀ v ∈ values, v ≠ .nil) :
    Entries.keys (ofList values).entries = positions values.length := by
  rw [entries_ofList h]
  clear h
  have hrow (start : Nat) : Entries.keys (numbered (start + 1 : Nat) values) =
      (List.range values.length).map fun k : Nat => .integer (Int64.ofInt (start + k + 1 : Nat)) := by
    induction values generalizing start with
    | nil => rfl
    | cons value rest ih =>
      obtain ⟨hhead, hrest⟩ := List.forall_mem_cons.1 hvalues
      have hcons : Entries.keys (numbered (start + 1 : Nat) (value :: rest)) =
          .integer (Int64.ofInt (start + 1 : Nat)) :: Entries.keys (numbered (start + 1 + 1 : Nat) rest) := by
        rw [numbered, entryOf_of_ne_nil _ hhead]
        rfl
      rw [hcons, ih hrest (start + 1), List.length_cons, List.range_succ_eq_map, List.map_cons,
        List.map_map]
      refine congrArg _ (List.map_congr_left fun k _ => ?_)
      rw [Function.comp_apply, Nat.succ_eq_add_one, Nat.add_right_comm start 1 k, Nat.add_assoc start k 1]
  have hone := hrow 0
  simp only [Nat.zero_add] at hone
  exact hone

/-- Without nils the list comes back. -/
theorem sequence_ofList_of_ne_nil (hvalues : ∀ v ∈ values, v ≠ .nil) :
    (ofList values).isSequence = true ∧ (ofList values).sequence = values := by
  have hstored : ∀ v ∈ values, (!v.isNil) = true := by
    intro v hv
    cases v with
    | nil => exact absurd rfl (hvalues _ hv)
    | _ => rfl
  rw [isSequence_ofList_iff h, sequence_ofList h, List.takeWhile_eq_self_iff.2 hstored,
    List.dropWhile_eq_nil_iff.2 hstored]
  exact ⟨nofun, rfl⟩

end OfList

end Table
end LuaHost
