import LuaHost.Proofs.Json.RoundTrip
import Mathlib.Data.List.Pairwise

/-!
# LuaHost.Proofs.Json.Copy

Values that become JSON and then values again.

* `Heap.Copies`: a value and its copy, table by table.
* `Heap.copies_sequence`, `Heap.copies_named`: sequences and tables with names as keys are copied if
  their contents are.
* `Heap.copies_of_encodes`: the value of the JSON of a value is a copy of it.
* `Heap.copies_of_toJson`: which values are copied by way of JSON.
-/

namespace LuaHost

/-- A table with strings as keys is nothing but its members. -/
theorem Table.entries_of_string {t : Table}
    (hstring : ∀ key ∈ Entries.keys t.entries, key.kind = .string) :
    t.entries = t.members.map fun (name, value) => (.string name, value) := by
  unfold members
  generalize t.entries = entries at hstring
  induction entries with
  | nil => rfl
  | cons entry rest ih =>
    obtain ⟨hhead, hrest⟩ := List.forall_mem_cons.1 hstring
    obtain ⟨key, value⟩ := entry
    have hrest := ih hrest
    cases key with
    | string name => exact congrArg _ hrest
    | _ => cases hhead

theorem Table.distinct_members {t : Table} (h : t.WellFormed)
    (hstring : ∀ key ∈ Entries.keys t.entries, key.kind = .string) :
    (t.members.map Prod.fst).Nodup := by
  have hkeys : Entries.keys t.entries = (t.members.map Prod.fst).map Value.string := by
    conv => lhs; rw [entries_of_string hstring]
    rw [Entries.keys, List.map_map, List.map_map]
    rfl
  exact List.Nodup.of_map Value.string (hkeys ▸ h.nodup_keys)

namespace Heap

/-- The second value is a copy of the first one, which is in another heap. Scalars are the same, down to
the bits of floats. Tables are new ones without a metatable, that have the same keys and hold copies; a
table that was shared by what is at two keys is copied for each of them. -/
inductive Copies (h h' : Heap) : Value → Value → Prop where
  | scalar {v : Value} (hscalar : ∀ t, v ≠ .table t) : Copies h h' v v
  | table {t t' : TableId} (hnew : h.tables.size ≤ t'.index)
      (hmetatable : (h'.table t').metatable = none)
      (hkeys : ∀ key, key ∈ Entries.keys (h'.table t').entries ↔ key ∈ Entries.keys (h.table t).entries)
      (hvalues : ∀ key ∈ Entries.keys (h.table t).entries,
        Copies h h' ((h.table t).get key) ((h'.table t').get key))
      (hapart : ∀ key ∈ Entries.keys (h'.table t').entries, ∀ key' ∈ Entries.keys (h'.table t').entries,
        key ≠ key' → h'.Apart ((h'.table t').get key) ((h'.table t').get key')) :
      Copies h h' (.table t) (.table t')

variable {h h' : Heap}

theorem Copies.eq_nil {v v' : Value} (hv : h.Copies h' v v') (hnil : v' = .nil) : v = .nil := by
  cases hv with
  | scalar => exact hnil
  | table => cases hnil

theorem eq_of_scalarJson {v v' : Value} {j : Json} {base : Nat} (hv : v.scalarJson = .ok j)
    (hheld : h.Holds base j v') : v' = v := by
  cases v with
  | nil =>
    cases hv
    cases hheld
    rfl
  | boolean b =>
    cases hv
    cases hheld
    rfl
  | integer i =>
    cases hv
    cases hheld
    have hsmall : i.toInt < Int.pow 2 63 := i.toInt_lt
    simp only [JsonNumber.ofInt64, JsonNumber.toNumber, if_pos hsmall, Number.toValue, Int64.ofInt_toInt]
  | float x =>
    simp only [Value.scalarJson, JsonNumber.ofDouble?] at hv
    split at hv
    · rename_i n hn
      split at hn
      · cases hn
        cases hv
        cases hheld
        rfl
      · cases hn
    · cases hv
  | string s =>
    cases hv
    cases hheld
    rfl
  | _ => cases hv

theorem copies_sequence {t t' : TableId} {values : List Value} (ht : (h.table t).WellFormed)
    (hfits : (h.table t).Fits) (hseq : (h.table t).isSequence = true)
    (hnew : h.tables.size ≤ t'.index) (htable : h'.table t' = Table.ofList values)
    (hlength : (h.table t).sequence.length = values.length)
    (hvalues : ∀ p ∈ (h.table t).sequence.zip values, h.Copies h' p.1 p.2)
    (hapart : values.Pairwise h'.Apart) : h.Copies h' (.table t) (.table t') := by
  have hcount : (h.table t).length = (h.table t).count := beq_iff_eq.1 hseq
  rw [ht.length_sequence] at hlength
  have hshort : values.length < Nat.pow 2 63 := by
    rw [← hlength, hcount]
    exact hfits
  have hnil : ∀ v ∈ values, v ≠ .nil := by
    intro v hv heq
    obtain ⟨w, hmem⟩ := exists_mem_zip_right (ht.length_sequence.trans hlength) hv
    obtain ⟨key, hentry⟩ := Table.exists_entry_of_mem_valuesFrom (List.of_mem_zip hmem).1
    exact ht.values _ hentry ((hvalues _ hmem).eq_nil heq)
  have hkeys : (Entries.keys (h.table t).entries).Perm (positions values.length) := by
    rw [← ht.keysUpTo_iff_perm hshort, ← hlength]
    exact ht.keysUpTo_length hfits hcount
  have hkeys' : Entries.keys (h'.table t').entries = positions values.length := by
    rw [htable, Table.keys_ofList_of_ne_nil hshort hnil]
  have hget {k : Nat} (hk : k < values.length) :
      (h'.table t').get (.integer (Int64.ofInt (k + 1 : Nat))) = values[k] := by
    have hat := Table.getAt_ofList hshort hk
    rw [List.getElem?_eq_getElem hk, Int.add_comm, ← Int.natCast_succ] at hat
    rw [htable]
    exact hat
  refine .table hnew ?_ (fun key => ?_) ?_ ?_
  · rw [htable, Table.metatable_ofList]
  · rw [hkeys', hkeys.mem_iff]
  · intro key hkey
    obtain ⟨k, hk, rfl⟩ := List.mem_map.1 (hkeys.mem_iff.1 hkey)
    have hk : k < values.length := List.mem_range.1 hk
    have hold : (h.table t).sequence[k]? = some ((h.table t).getAt (k + 1 : Nat)) := by
      rw [ht.sequence_eq, List.getElem?_map, List.getElem?_range (hlength ▸ hk)]
      rfl
    have hpair : (_, values[k]) ∈ (h.table t).sequence.zip values :=
      List.mem_of_getElem? (List.getElem?_zip_eq_some.2 ⟨hold, List.getElem?_eq_getElem hk⟩)
    rw [hget hk]
    exact hvalues _ hpair
  · intro key hkey key' hkey' hne
    rw [hkeys'] at hkey hkey'
    obtain ⟨k, hk, rfl⟩ := List.mem_map.1 hkey
    obtain ⟨k', hk', rfl⟩ := List.mem_map.1 hkey'
    have hk : k < values.length := List.mem_range.1 hk
    have hk' : k' < values.length := List.mem_range.1 hk'
    rw [hget hk, hget hk']
    rcases Nat.lt_trichotomy k k' with hlt | heq | hgt
    · exact List.pairwise_iff_getElem.1 hapart k k' hk hk' hlt
    · exact absurd (by rw [heq]) hne
    · exact (List.pairwise_iff_getElem.1 hapart k' k hk' hk hgt).symm

/-- Strings are the keys of both tables. -/
theorem copies_named {t t' : TableId} {members : List (String × Value)} (ht : (h.table t).WellFormed)
    (hstring : ∀ key ∈ Entries.keys (h.table t).entries, key.kind = .string)
    (hnew : h.tables.size ≤ t'.index) (htable : h'.table t' = Table.ofMembers members)
    (hdistinct : (members.map Prod.fst).Nodup)
    (hnames : ∀ member ∈ members, member.1 ∈ (h.table t).members.map Prod.fst)
    (hvalues : ∀ member ∈ (h.table t).members,
      ∃ value, (member.1, value) ∈ members ∧ h.Copies h' member.2 value)
    (hapart : members.Pairwise fun a b => h'.Apart a.2 b.2) : h.Copies h' (.table t) (.table t') := by
  have hentries := Table.entries_of_string hstring
  have hentry : ∀ member ∈ (h.table t).members, (.string member.1, member.2) ∈ (h.table t).entries := by
    rw [hentries]
    exact fun member => List.mem_map_of_mem
  have hkey : ∀ key ∈ Entries.keys (h.table t).entries,
      ∃ member ∈ (h.table t).members, key = .string member.1 := by
    intro key hkey
    rw [hentries, Entries.keys, List.map_map] at hkey
    obtain ⟨member, hmember, rfl⟩ := List.mem_map.1 hkey
    exact ⟨member, hmember, rfl⟩
  have hstored : ∀ member ∈ (h.table t).members, ∃ value,
      (.string member.1, value) ∈ (h'.table t').entries ∧ h.Copies h' member.2 value := by
    intro member hmember
    obtain ⟨value, hvalue, hcopy⟩ := hvalues member hmember
    have hnil : value ≠ .nil := fun heq => ht.values _ (hentry member hmember) (hcopy.eq_nil heq)
    refine ⟨value, ?_, hcopy⟩
    rw [htable, Table.entries_ofMembers hdistinct]
    exact Table.mem_named_of_mem hvalue hnil
  have hwf : (h'.table t').WellFormed := htable ▸ Table.wellFormed_ofMembers members
  have hkey' : ∀ key ∈ Entries.keys (h'.table t').entries, ∃ member ∈ members,
      key = .string member.1 ∧ (h'.table t').get key = member.2 := by
    intro key hnewKey
    obtain ⟨entry, hmem, rfl⟩ := List.mem_map.1 hnewKey
    have hget := hwf.get_of_mem hmem
    rw [htable, Table.entries_ofMembers hdistinct] at hmem
    obtain ⟨name, heq, hmember⟩ := Table.mem_named hmem
    exact ⟨_, hmember, heq, hget⟩
  refine .table hnew ?_ (fun key => ⟨fun hnewKey => ?_, fun hold => ?_⟩) (fun key hold => ?_) ?_
  · rw [htable, Table.metatable_ofMembers]
  · obtain ⟨_, hmember, rfl, _⟩ := hkey' key hnewKey
    obtain ⟨member, hold, heq⟩ := List.mem_map.1 (hnames _ hmember)
    rw [← heq]
    exact List.mem_map_of_mem (hentry member hold)
  · obtain ⟨member, hmember, rfl⟩ := hkey key hold
    obtain ⟨value, hvalue, _⟩ := hstored member hmember
    exact List.mem_map_of_mem hvalue
  · obtain ⟨member, hmember, rfl⟩ := hkey key hold
    obtain ⟨value, hvalue, hcopy⟩ := hstored member hmember
    rwa [ht.get_of_mem (hentry member hmember), hwf.get_of_mem hvalue]
  · intro key hnewKey key' hnewKey' hne
    obtain ⟨member, hmember, rfl, hget⟩ := hkey' key hnewKey
    obtain ⟨member', hmember', rfl, hget'⟩ := hkey' key' hnewKey'
    rw [hget, hget']
    have hsymm : Std.Symm fun a b : String × Value => h'.Apart a.2 b.2 := ⟨fun _ _ hab => hab.symm⟩
    exact hapart.forall hmember hmember' fun heq => hne (heq ▸ rfl)

/-- The members of the object that the table became are its own, in the order of their names. -/
theorem copies_object {base : Nat} {t t' : TableId} {json : Value → Json}
    {members : List (String × Json)} {values : List Value} (ht : (h.table t).WellFormed)
    (hstring : ∀ key ∈ Entries.keys (h.table t).entries, key.kind = .string)
    (hascending : Json.Ascending members)
    (hperm : members.Perm ((h.table t).members.map fun m => (m.1, json m.2)))
    (hnew : h.tables.size ≤ t'.index)
    (htable : h'.table t' = Table.ofMembers ((members.map Prod.fst).zip values))
    (hlength : members.length = values.length)
    (hheld : ∀ p ∈ (members.map Prod.snd).zip values, h'.Holds base p.1 p.2)
    (hcopies : ∀ w ∈ (h.table t).members.map Prod.snd,
      ∀ w', h'.Holds base (json w) w' → h.Copies h' w w')
    (hapart : values.Pairwise h'.Apart) : h.Copies h' (.table t) (.table t') := by
  refine copies_named ht hstring hnew htable ?_ ?_ ?_ ?_
  · rw [names_zip_values hlength]
    exact hascending.nodup
  · intro member hmember
    obtain ⟨m, hm, heq⟩ := List.mem_map.1 (List.of_mem_zip hmember).1
    obtain ⟨old, hold, rfl⟩ := List.mem_map.1 (hperm.mem_iff.1 hm)
    rw [← heq]
    exact List.mem_map_of_mem hold
  · intro member hmember
    have hmem : (member.1, json member.2) ∈ members :=
      hperm.mem_iff.2 (List.mem_map.2 ⟨member, hmember, rfl⟩)
    obtain ⟨value, hvalue⟩ := exists_mem_zip_left hlength hmem
    refine ⟨value, ?_, hcopies member.2 (List.mem_map_of_mem hmember) value
      (hheld (json member.2, value) ?_)⟩
    · rw [List.zip_map_left]
      exact List.mem_map_of_mem hvalue
    · rw [List.zip_map_left]
      exact List.mem_map_of_mem hvalue
  · exact List.pairwise_map.1 ((values_zip_values hlength).symm ▸ hapart)

/-- The keys of a table that is no sequence are strings, at every depth. -/
theorem copies_of_encodes (hwf : h.WellFormed) (hfits : h.Fits) {v v' : Value} {j : Json}
    (hv : h.Encodes v j) (hheld : h'.Holds h.tables.size j v')
    (hkeys : ∀ t, Relation.ReflTransGen h.Visits v (.table t) → (h.table t).isSequence = true ∨
      ∀ key ∈ Entries.keys (h.table t).entries, key.kind = .string) : h.Copies h' v v' := by
  induction hv generalizing v' with
  | @scalar v j hscalar =>
    rw [eq_of_scalarJson hscalar hheld]
    refine .scalar ?_
    rintro t rfl
    cases hscalar
  | @table t json hcontents ih =>
    have hcopies : ∀ w ∈ h.contents t, ∀ w', h'.Holds h.tables.size (json w) w' → h.Copies h' w w' := by
      intro w hw w' hw'
      exact ih w hw hw' fun u hu => hkeys u (.head ⟨t, rfl, hw⟩ hu)
    by_cases hseq : (h.table t).isSequence = true
    · rw [contents, if_pos hseq] at hcopies
      rw [tableJson, if_pos hseq, contents, if_pos hseq] at hheld
      cases hheld with
      | @array _ values t' hnew _ htable hlength hvalues hapart =>
        rw [List.length_map] at hlength
        refine copies_sequence (hwf t) (hfits t) hseq hnew htable hlength (fun p hp => ?_) hapart
        refine hcopies p.1 (List.of_mem_zip hp).1 p.2 (hvalues (json p.1, p.2) ?_)
        rw [List.zip_map_left]
        exact List.mem_map_of_mem hp
    · have hstring := (hkeys t .refl).resolve_left hseq
      rw [contents, if_neg hseq] at hcopies
      rw [tableJson_of_not_isSequence hseq] at hheld
      obtain ⟨sorted, hobject, hascending, _, _, hperm⟩ := Json.exists_objectOf
        ((h.table t).members.map fun m => (m.1, json m.2))
      rw [hobject] at hheld
      cases hheld with
      | @object _ values t' hnew _ htable hlength hvalues hapart =>
        have hdistinct := Table.distinct_members (hwf t) hstring
        refine copies_object (hwf t) hstring hascending (hperm ?_) hnew htable hlength hvalues hcopies hapart
        rwa [List.map_map]

/-- **Copying by way of JSON.** A value has JSON, and the value of that JSON is a copy of it, if it leads
to no cycle and to no function, userdata or number that is not finite, and if the keys of each table that
it leads to are `1, …, n` or all strings. Nothing else is changed in the heap. -/
theorem copies_of_toJson (hwf : h.WellFormed) (hfits : h.Fits) {v : Value}
    (hacyclic : ∀ t, h.Reaches v (.table t) → ¬ h.Cyclic t) (hjson : ∀ w, h.Reaches v w → w.HasJson)
    (hkeys : ∀ t, h.Reaches v (.table t) → (∃ n, (h.table t).KeysUpTo n) ∨
      ∀ key ∈ Entries.keys (h.table t).entries, key.kind = .string) :
    ∃ j, h.toJson v = .ok j ∧ h.Extends (j.toValue.run h).2 ∧
      h.Copies (j.toValue.run h).2 v (j.toValue.run h).1 := by
  unfold Reaches at hacyclic hjson hkeys
  unfold Cyclic at hacyclic
  rw [child_eq_visits hwf hfits] at hacyclic hjson hkeys
  obtain ⟨j, hj⟩ := exists_encode isPath_nil (Nat.le_refl _) nofun hacyclic hjson
  obtain ⟨hext, hheld⟩ := j.reads h _ (Nat.le_refl _)
  refine ⟨j, hj, hext, copies_of_encodes hwf hfits (encodes_of_encode hj) hheld fun t ht => ?_⟩
  exact (hkeys t ht).imp_left (Table.isSequence_iff (hwf t) (hfits t)).2

/-- One table stands at a decimal name and at another one, beside an empty table. It holds the negative
zero and a float that is an integer. -/
def nestedRun : List Step := [
  .request (.newTable [.integer 3, .float ⟨0x4008000000000000⟩, .float ⟨0x8000000000000000⟩]),
  .request (.newTable []),
  .request (.newTable []),
  .request (.editTable ⟨2⟩ (.set (.string "1") (.table ⟨0⟩))),
  .request (.editTable ⟨2⟩ (.set (.string "again") (.table ⟨0⟩))),
  .request (.editTable ⟨2⟩ (.set (.string "empty") (.table ⟨1⟩)))]

theorem copies_of_toJson_nested :
    let h := (World.after 1 {} nestedRun).heap
    h.WellFormed ∧ h.Fits ∧ (∀ t, h.Reaches (.table ⟨2⟩) (.table t) → ¬ h.Cyclic t) ∧
    (∀ w, h.Reaches (.table ⟨2⟩) w → w.HasJson) ∧
    (∀ t, h.Reaches (.table ⟨2⟩) (.table t) → (∃ n, (h.table t).KeysUpTo n) ∨
      ∀ key ∈ Entries.keys (h.table t).entries, key.kind = .string) ∧
    ∃ j, h.toJson (.table ⟨2⟩) = .ok j ∧ h.Extends (j.toValue.run h).2 ∧
      h.Copies (j.toValue.run h).2 (.table ⟨2⟩) (j.toValue.run h).1 := by
  intro h
  have hwf : h.WellFormed := World.wellFormed_after 1 nestedRun
  have hfits : h.Fits := fits_of_forall_lt (by decide)
  have hencodes : ∃ j, h.Encodes (.table ⟨2⟩) j := ⟨_, toJson_eq_ok_iff.1 rfl⟩
  obtain ⟨j, hj⟩ := hencodes
  have hacyclic : ∀ t, h.Reaches (.table ⟨2⟩) (.table t) → ¬ h.Cyclic t := by
    unfold Reaches Cyclic
    rw [child_eq_visits hwf hfits]
    exact fun t => hj.acyclic
  have hjson : ∀ w, h.Reaches (.table ⟨2⟩) w → w.HasJson := by
    unfold Reaches
    rw [child_eq_visits hwf hfits]
    exact fun w => hj.hasJson
  have hkeys : ∀ t, h.Reaches (.table ⟨2⟩) (.table t) → (∃ n, (h.table t).KeysUpTo n) ∨
      ∀ key ∈ Entries.keys (h.table t).entries, key.kind = .string := by
    intro t _
    have hall := forall_table (h := h) (P := fun table => table.isSequence = true ∨
      ∀ key ∈ Entries.keys table.entries, key.kind = .string) (by decide) (by decide) t
    exact hall.imp_left (Table.isSequence_iff (hwf t) (hfits t)).1
  exact ⟨hwf, hfits, hacyclic, hjson, hkeys, copies_of_toJson hwf hfits hacyclic hjson hkeys⟩

end Heap
end LuaHost
