import LuaHost.Proofs.Json.Acyclicity
import LuaHost.Proofs.Json.Decoding
import LuaHost.Proofs.Json.Members
import LuaHost.Proofs.Json.Reachability
import LuaHost.Proofs.Number.Rounding
import LuaHost.Proofs.Table.Filling

/-!
# LuaHost.Proofs.Json.RoundTrip

JSON that becomes a value and then JSON again.

* `Json.WellFormed`: the JSON values that there are. `Json.Faithful`: those that lose nothing.
* `Heap.settles_table`: a table with good contents has JSON that loses nothing more.
* `Heap.Holds.settles`, `Heap.Holds.encodes`: what a held value becomes, and when it is what it was.
* `Json.roundTrip_settles`: every JSON value settles in one round trip.
-/

namespace LuaHost

namespace Json

/-- A JSON value in memory: the elements of an array can be counted by a 64-bit integer, and an object
is a map, whose members are listed in the order of their names. -/
inductive WellFormed : Json → Prop where
  | null : WellFormed .null
  | bool (b : Bool) : WellFormed (.bool b)
  | number (n : JsonNumber) : WellFormed (.number n)
  | string (s : String) : WellFormed (.string s)
  | array {elements : List Json} (hlength : elements.length < Nat.pow 2 63)
      (helements : ∀ e ∈ elements, WellFormed e) : WellFormed (.array elements)
  | object {members : List (String × Json)} (hascending : Ascending members)
      (hmembers : ∀ m ∈ members, WellFormed m.2) : WellFormed (.object members)

/-- At every depth no null is an element or a member, no object is empty, and no integer is above the
greatest signed 64-bit one. -/
inductive Faithful : Json → Prop where
  | null : Faithful .null
  | bool (b : Bool) : Faithful (.bool b)
  | integer {n : Int} {inRange : -Int.pow 2 63 ≤ n ∧ n < Int.pow 2 64} (hsmall : n < Int.pow 2 63) :
      Faithful (.number (.integer n inRange))
  | float (x : Double) (finite : x.isFinite = true) : Faithful (.number (.float x finite))
  | string (s : String) : Faithful (.string s)
  | array {elements : List Json} (hnull : ∀ e ∈ elements, e ≠ .null)
      (helements : ∀ e ∈ elements, Faithful e) : Faithful (.array elements)
  | object {members : List (String × Json)} (hne : members ≠ [])
      (hnull : ∀ m ∈ members, m.2 ≠ .null) (hmembers : ∀ m ∈ members, Faithful m.2) :
      Faithful (.object members)

/-- The value of the JSON value, and the JSON of that value. -/
def roundTrip (j : Json) (h : Heap) : Except Error Json :=
  (j.toValue.run h).2.toJson (j.toValue.run h).1

end Json

/-! ## Numbers -/

/-- Only integers that fit in 64 bits come back as they are; the others come back as doubles. -/
theorem JsonNumber.exists_scalarJson (n : JsonNumber) : ∃ n' : JsonNumber,
    n.toNumber.toValue.scalarJson = .ok (.number n') ∧ (Json.number n').Faithful ∧
      ((Json.number n).Faithful → n' = n) := by
  cases n with
  | integer n inRange =>
    by_cases hsmall : n < Int.pow 2 63
    · have hint : (Int64.ofInt n).toInt = n := Int64.toInt_ofInt_of_le inRange.1 hsmall
      have hback : ofInt64 (Int64.ofInt n) = .integer n inRange := by
        simp only [ofInt64, hint]
      refine ⟨.integer n inRange, ?_, .integer hsmall, fun _ => rfl⟩
      rw [toNumber, if_pos hsmall, ← hback]
      rfl
    · have hfinite : (Double.ofInt n).isFinite = true := by
        have hpos : 0 ≤ n := Int.le_trans (by decide) (Int.not_lt.1 hsmall)
        have hpow : Int.pow 2 64 = (Nat.pow 2 64 : Nat) := rfl
        apply Double.isFinite_ofInt
        omega
      refine ⟨.float (Double.ofInt n) hfinite, ?_, .float _ hfinite, ?_⟩
      · rw [toNumber, if_neg hsmall]
        simp only [Number.toValue, Value.scalarJson, ofDouble?, dif_pos hfinite]
      · intro hfaithful
        cases hfaithful with
        | integer hsmall' => exact absurd hsmall' hsmall
  | float x finite =>
    refine ⟨.float x finite, ?_, .float x finite, fun _ => rfl⟩
    simp only [toNumber, Number.toValue, Value.scalarJson, ofDouble?, dif_pos finite]

/-! ## Entries -/

namespace Table

theorem exists_entry_of_lookup {key : Value} {entries : Entries}
    (h : Entries.lookup key entries ≠ .nil) : ∃ k, (k, Entries.lookup key entries) ∈ entries := by
  induction entries with
  | nil => exact absurd rfl h
  | cons entry rest ih =>
    obtain ⟨k, v⟩ := entry
    rw [Entries.lookup] at h ⊢
    split at h
    · rename_i hk
      rw [if_pos hk]
      exact ⟨k, List.mem_cons_self ..⟩
    · rename_i hk
      obtain ⟨k', hmem⟩ := ih h
      rw [if_neg hk]
      exact ⟨k', List.mem_cons_of_mem _ hmem⟩

theorem exists_entry_of_mem_valuesFrom {t : Table} {bound : Nat} {start : Int} {v : Value}
    (h : v ∈ t.valuesFrom bound start) : ∃ key, (key, v) ∈ t.entries := by
  induction bound generalizing start with
  | zero => cases h
  | succ bound ih =>
    rw [valuesFrom] at h
    split at h
    · cases h
    · rename_i hvalue
      rcases List.mem_cons.1 h with rfl | hrest
      · exact exists_entry_of_lookup hvalue
      · exact ih hrest

end Table

namespace Heap

variable {h : Heap}

/-- What becomes an element or a member is stored in the table. -/
theorem exists_entry_of_mem_contents {t : TableId} {w : Value} (hw : w ∈ h.contents t) :
    ∃ key, (key, w) ∈ (h.table t).entries := by
  unfold contents at hw
  split at hw
  · exact Table.exists_entry_of_mem_valuesFrom hw
  · obtain ⟨key, hentry, _⟩ := mem_members.1 hw
    exact ⟨key, hentry⟩

theorem members_ne_nil {t : Table}
    (hkeys : ∀ key ∈ Entries.keys t.entries, key.kind.namesMember = true)
    (hseq : ¬ t.isSequence = true) : t.members ≠ [] := by
  have hentries : t.entries ≠ [] := by
    intro hnil
    apply hseq
    rw [Table.isSequence, Table.length, Table.count, hnil]
    rfl
  obtain ⟨⟨key, value⟩, hentry⟩ := List.exists_mem_of_ne_nil _ hentries
  have hvalue : value ∈ t.members.map Prod.snd :=
    mem_members.2 ⟨key, hentry, hkeys key (List.mem_map_of_mem hentry)⟩
  intro hnil
  rw [hnil] at hvalue
  cases hvalue

/-! ## Settling -/

/-- The value has JSON that loses nothing more. -/
def Settles (h : Heap) (v : Value) : Prop :=
  ∃ j, h.Encodes v j ∧ j.WellFormed ∧ j.Faithful ∧ (j = .null → v = .nil)

/-- Nils are not stored, and a table with entries that are all named becomes no empty object. -/
theorem settles_table {t : TableId} (ht : (h.table t).WellFormed)
    (hlength : (h.table t).sequence.length < Nat.pow 2 63)
    (hkeys : ∀ key ∈ Entries.keys (h.table t).entries, key.kind.namesMember = true)
    (hvalues : ∀ entry ∈ (h.table t).entries, h.Settles entry.2) : h.Settles (.table t) := by
  have hcontents : ∀ w ∈ h.contents t,
      ∃ j, h.Encodes w j ∧ j.WellFormed ∧ j.Faithful ∧ j ≠ .null := by
    intro w hw
    obtain ⟨key, hentry⟩ := exists_entry_of_mem_contents hw
    obtain ⟨j, hj, hwf, hfaithful, hnull⟩ := hvalues _ hentry
    exact ⟨j, hj, hwf, hfaithful, fun heq => ht.values _ hentry (hnull heq)⟩
  choose! json hjson hwf hfaithful hnull using hcontents
  refine ⟨_, .table json hjson, ?_⟩
  by_cases hseq : (h.table t).isSequence = true
  · rw [contents, if_pos hseq] at hwf hfaithful hnull ⊢
    rw [tableJson, if_pos hseq]
    refine ⟨.array ?_ (List.forall_mem_map.2 hwf), .array (List.forall_mem_map.2 hnull)
      (List.forall_mem_map.2 hfaithful), fun heq => Json.noConfusion heq⟩
    rwa [List.length_map]
  · rw [tableJson_of_not_isSequence hseq]
    rw [contents, if_neg hseq] at hwf hfaithful hnull
    obtain ⟨sorted, hobject, hascending, hne, hsub, _⟩ := Json.exists_objectOf
      ((h.table t).members.map fun m => (m.1, json m.2))
    have hall {P : Json → Prop} (hP : ∀ w ∈ (h.table t).members.map Prod.snd, P (json w)) :
        ∀ m ∈ sorted, P m.2 := by
      intro m hm
      obtain ⟨member, hmember, rfl⟩ := List.mem_map.1 (hsub m hm)
      exact hP _ (List.mem_map_of_mem hmember)
    rw [hobject]
    refine ⟨.object hascending (hall hwf), .object (hne ?_) (hall (P := (· ≠ .null)) hnull)
      (hall hfaithful), fun heq => Json.noConfusion heq⟩
    exact mt List.map_eq_nil_iff.1 (members_ne_nil hkeys hseq)

theorem settles_array {t : TableId} {values : List Value} (htable : h.table t = Table.ofList values)
    (hshort : values.length < Nat.pow 2 63) (hvalues : ∀ v ∈ values, h.Settles v) :
    h.Settles (.table t) := by
  refine settles_table ?_ ?_ ?_ ?_
  · rw [htable]
    exact Table.wellFormed_ofList values
  · rw [htable, Table.sequence_ofList hshort]
    exact Nat.lt_of_le_of_lt (List.takeWhile_sublist _).length_le hshort
  · rw [htable, Table.entries_ofList hshort]
    intro key hkey
    obtain ⟨entry, hentry, rfl⟩ := List.mem_map.1 hkey
    obtain ⟨⟨i, hi⟩, _⟩ := Table.mem_numbered hentry
    rw [hi]
    rfl
  · rw [htable, Table.entries_ofList hshort]
    exact fun entry hentry => hvalues _ (Table.mem_numbered hentry).2

theorem settles_object {t : TableId} {members : List (String × Value)}
    (htable : h.table t = Table.ofMembers members) (hdistinct : (members.map Prod.fst).Nodup)
    (hmembers : ∀ m ∈ members, h.Settles m.2) : h.Settles (.table t) := by
  have hstring : ∀ key ∈ Entries.keys (h.table t).entries, key.kind = .string := by
    rw [htable]
    exact fun key => Table.kind_of_mem_ofMembers hdistinct
  have hwf : (h.table t).WellFormed := htable ▸ Table.wellFormed_ofMembers _
  refine settles_table hwf ?_ ?_ ?_
  · rw [hwf.length_sequence, Table.length_of_no_number fun key hkey => by rw [hstring key hkey]; nofun]
    exact Nat.two_pow_pos 63
  · intro key hkey
    rw [hstring key hkey]
    rfl
  · rw [htable, Table.entries_ofMembers hdistinct]
    intro entry hentry
    obtain ⟨name, _, hmember⟩ := Table.mem_named hentry
    exact hmembers _ hmember

theorem Holds.settles {base : Nat} {j : Json} {v : Value} (hv : h.Holds base j v)
    (hj : j.WellFormed) : h.Settles v := by
  induction hv with
  | null => exact ⟨.null, .scalar rfl, .null, .null, fun _ => rfl⟩
  | bool b => exact ⟨.bool b, .scalar rfl, .bool b, .bool b, nofun⟩
  | number n =>
    obtain ⟨n', hn', hfaithful, _⟩ := n.exists_scalarJson
    exact ⟨.number n', .scalar hn', .number n', hfaithful, nofun⟩
  | string s => exact ⟨.string s, .scalar rfl, .string s, .string s, nofun⟩
  | @array elements values t _ _ htable hlength _ _ ih =>
    cases hj with
    | array hshort helements =>
      refine settles_array htable (hlength ▸ hshort) fun v hv => ?_
      obtain ⟨e, hmem⟩ := exists_mem_zip_right hlength hv
      exact ih _ hmem (helements e (List.of_mem_zip hmem).1)
  | @object members values t _ _ htable hlength _ _ ih =>
    cases hj with
    | object hascending hmembers =>
      have hdistinct := names_zip_values hlength ▸ hascending.nodup
      refine settles_object htable hdistinct fun m hm => ?_
      have hlength' : (members.map Prod.snd).length = values.length := by
        rw [List.length_map, hlength]
      obtain ⟨e, hmem⟩ := exists_mem_zip_right hlength' (List.of_mem_zip hm).2
      obtain ⟨member, hmember, rfl⟩ := List.mem_map.1 (List.of_mem_zip hmem).1
      exact ih _ hmem (hmembers member hmember)

/-! ## Faithful values -/

theorem Holds.eq_null {base : Nat} {j : Json} {v : Value} (hv : h.Holds base j v) (hnil : v = .nil) :
    j = .null := by
  cases hv with
  | null => rfl
  | number n =>
    have hkind := n.kind_toValue
    rw [hnil] at hkind
    cases hkind
  | _ => cases hnil

/-- The JSON of values that are listed with it. -/
theorem exists_json_of_zip {elements : List Json} {values : List Value}
    (hlength : elements.length = values.length)
    (hall : ∀ p ∈ elements.zip values, h.Encodes p.2 p.1) :
    ∃ json : Value → Json, (∀ w ∈ values, h.Encodes w (json w)) ∧ values.map json = elements := by
  have hexists : ∀ w ∈ values, ∃ j, h.Encodes w j := by
    intro w hw
    obtain ⟨e, hmem⟩ := exists_mem_zip_right hlength hw
    exact ⟨e, hall _ hmem⟩
  choose! json hjson using hexists
  have helements := List.map_fst_zip (Nat.le_of_eq hlength)
  have hvalues := List.map_snd_zip (Nat.le_of_eq hlength.symm)
  refine ⟨json, hjson, ?_⟩
  rw [← helements, ← hvalues, List.map_map, List.map_snd_zip (Nat.le_of_eq hlength.symm)]
  refine List.map_congr_left fun p hp => ?_
  exact (hjson _ (List.of_mem_zip hp).2).unique (hall p hp)

theorem ne_nil_of_zip {base : Nat} {elements : List Json} {values : List Value}
    (hlength : elements.length = values.length)
    (hvalues : ∀ p ∈ elements.zip values, h.Holds base p.1 p.2)
    (hnull : ∀ e ∈ elements, e ≠ .null) : ∀ v ∈ values, v ≠ .nil := by
  intro v hv hnil
  obtain ⟨e, hmem⟩ := exists_mem_zip_right hlength hv
  exact hnull e (List.of_mem_zip hmem).1 ((hvalues _ hmem).eq_null hnil)

theorem encodes_array {elements : List Json} {values : List Value} {t : TableId}
    (htable : h.table t = Table.ofList values) (hshort : values.length < Nat.pow 2 63)
    (hlength : elements.length = values.length) (hnil : ∀ v ∈ values, v ≠ .nil)
    (hall : ∀ p ∈ elements.zip values, h.Encodes p.2 p.1) : h.Encodes (.table t) (.array elements) := by
  obtain ⟨json, hjson, rfl⟩ := exists_json_of_zip hlength hall
  have hlist := htable ▸ Table.sequence_ofList_of_ne_nil hshort hnil
  have hcontents : h.contents t = values := (if_pos hlist.1).trans hlist.2
  have hencodes := Encodes.table json (hcontents.symm ▸ hjson)
  rwa [tableJson, if_pos hlist.1, hcontents] at hencodes

theorem encodes_object {members : List (String × Json)} {values : List Value} {t : TableId}
    (htable : h.table t = Table.ofMembers ((members.map Prod.fst).zip values))
    (hascending : Json.Ascending members) (hne : members ≠ [])
    (hlength : members.length = values.length) (hnil : ∀ v ∈ values, v ≠ .nil)
    (hall : ∀ p ∈ (members.map Prod.snd).zip values, h.Encodes p.2 p.1) :
    h.Encodes (.table t) (.object members) := by
  have hnames := names_zip_values hlength
  have hdistinct := hnames ▸ hascending.nodup
  have hmembers : (h.table t).members = (members.map Prod.fst).zip values :=
    htable ▸ Table.members_ofMembers hdistinct fun m hm => hnil _ (List.of_mem_zip hm).2
  have hseq : ¬ (h.table t).isSequence = true := by
    rw [Table.isSequence_of_no_number fun key hkey => by
      rw [Table.kind_of_mem_ofMembers hdistinct (htable ▸ hkey)]
      nofun]
    intro hempty
    rw [Table.members, hempty, List.filterMap_nil] at hmembers
    rw [← hmembers] at hnames
    exact hne (List.map_eq_nil_iff.1 hnames.symm)
  obtain ⟨json, hjson, hmap⟩ := exists_json_of_zip (by rw [List.length_map, hlength]) hall
  have hcontents : h.contents t = values := by
    rw [contents, if_neg hseq, hmembers, values_zip_values hlength]
  have hencodes := Encodes.table json (hcontents.symm ▸ hjson)
  have hzip : (members.map Prod.fst).zip (members.map Prod.snd) = members := by
    rw [List.zip_map']
    exact List.map_id members
  rwa [tableJson, if_neg hseq, hcontents, hmap, hmembers, hnames, hzip,
    Json.objectOf_of_ascending hascending] at hencodes

theorem Holds.encodes {base : Nat} {j : Json} {v : Value} (hv : h.Holds base j v)
    (hj : j.WellFormed) (hfaithful : j.Faithful) : h.Encodes v j := by
  induction hv with
  | null => exact .scalar rfl
  | bool b => exact .scalar rfl
  | number n =>
    obtain ⟨n', hn', _, hsame⟩ := n.exists_scalarJson
    rw [hsame hfaithful] at hn'
    exact .scalar hn'
  | string s => exact .scalar rfl
  | @array elements values t _ _ htable hlength hvalues _ ih =>
    cases hj with
    | array hshort hwf =>
      cases hfaithful with
      | array hnull hfaithful =>
        refine encodes_array htable (hlength ▸ hshort) hlength (ne_nil_of_zip hlength hvalues hnull) ?_
        intro p hp
        have hmem := (List.of_mem_zip hp).1
        exact ih p hp (hwf _ hmem) (hfaithful _ hmem)
  | @object members values t _ _ htable hlength hvalues _ ih =>
    cases hj with
    | object hascending hwf =>
      cases hfaithful with
      | object hne hnull hfaithful =>
        have hnil := ne_nil_of_zip (by rw [List.length_map, hlength]) hvalues (List.forall_mem_map.2 hnull)
        refine encodes_object htable hascending hne hlength hnil ?_
        intro p hp
        obtain ⟨member, hmember, heq⟩ := List.mem_map.1 (List.of_mem_zip hp).1
        exact ih p hp (heq ▸ hwf _ hmember) (heq ▸ hfaithful _ hmember)

end Heap

namespace Json

/-- **A JSON value settles in one round trip.** It becomes a value, which has JSON again, and that is
left as it is by all round trips to come, whatever tables there are. It is the JSON value that it was
exactly if at no depth a null is an element or a member, an object is empty, or an integer is above the
greatest signed 64-bit one. -/
theorem roundTrip_settles {j : Json} (hj : j.WellFormed) (h : Heap) :
    ∃ j', j.roundTrip h = .ok j' ∧ (∀ h', j'.roundTrip h' = .ok j') ∧ (j' = j ↔ j.Faithful) := by
  have hkept {k : Json} (hk : k.WellFormed) (hfaithful : k.Faithful) (h' : Heap) :
      k.roundTrip h' = .ok k :=
    Heap.toJson_eq_ok_iff.2 ((k.reads h' _ (Nat.le_refl _)).2.encodes hk hfaithful)
  obtain ⟨j', hj', hwf, hfaithful, _⟩ := (j.reads h _ (Nat.le_refl _)).2.settles hj
  have htrip : j.roundTrip h = .ok j' := Heap.toJson_eq_ok_iff.2 hj'
  refine ⟨j', htrip, hkept hwf hfaithful, fun heq => heq ▸ hfaithful, fun hj' => ?_⟩
  rw [hkept hj hj' h] at htrip
  exact (Except.ok.inj htrip).symm

/-- A null before other elements leaves an object with decimal names, and the empty object an array. -/
example : (array [.null, .object [], .bool true]).roundTrip {} =
    .ok (.object [("2", .array []), ("3", .bool true)]) := rfl

/-- An array with a hole in it, an empty object and an integer that is above the signed range. -/
def lossy : Json := .array [.bool true, .object [], .null,
  .object [("count", .number (.integer 18446744073709551615 (by decide)))]]

theorem roundTrip_settles_lossy : lossy.WellFormed ∧
    ∃ j', lossy.roundTrip {} = .ok j' ∧ (∀ h', j'.roundTrip h' = .ok j') ∧ j' ≠ lossy := by
  have hwf : lossy.WellFormed := by
    refine .array (by decide) ?_
    simp only [List.forall_mem_cons]
    refine ⟨.bool true, .object .nil nofun, .null, .object (List.pairwise_singleton ..) ?_, nofun⟩
    exact List.forall_mem_singleton.2 (.number _)
  have hlossy : ¬ lossy.Faithful := by
    intro hfaithful
    cases hfaithful with
    | array hnull _ => exact hnull .null (by simp) rfl
  obtain ⟨j', htrip, hkept, hiff⟩ := roundTrip_settles hwf {}
  exact ⟨hwf, j', htrip, hkept, fun heq => hlossy (hiff.1 heq)⟩

end Json
end LuaHost
