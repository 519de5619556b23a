import LuaHost.Proofs.Json.Members
import LuaHost.Proofs.Json.Reachability
import LuaHost.Proofs.Table.Enumeration
import LuaHost.Proofs.Value.Text
import Mathlib.Data.List.Pairwise

/-!
# LuaHost.Proofs.Json.Objects

Tables that become objects: which entries become which members.

* `Value.eq_or_spells`: two keys with one member name are a string and a number or boolean.
* `Table.NamesApart`, `Table.nodup_names`: without such a pair, each name comes from one entry.
* `Heap.members_of_entries`: entries and members correspond one to one.
* `Heap.Encodes.of_perm`: the JSON of a value does not depend on the order of entries.
* `Heap.toJson_object`: both for all tables that are no sequence.
-/

namespace LuaHost

/-! ## Member names -/

namespace Value

theorem memberName?_of_isPlain {key : Value} (hplain : key.IsPlain) :
    key.memberName? = some key.text := by
  cases key with
  | boolean b => rfl
  | integer i => rfl
  | float x => rfl
  | _ => rcases hplain with hkind | hkind <;> cases hkind

/-- A string that is the text of a number or boolean, such as `"1"` or `"true"`. -/
def Spells (a b : Value) : Prop := b.IsPlain ∧ a = .string b.text

instance (key : Value) : Decidable key.IsPlain :=
  inferInstanceAs (Decidable (key.kind = .number ∨ key.kind = .boolean))

instance (a b : Value) : Decidable (a.Spells b) :=
  inferInstanceAs (Decidable (b.IsPlain ∧ a = .string b.text))

theorem string_or_isPlain {key : Value} (hkind : key.kind.namesMember = true) :
    (∃ s, key = .string s) ∨ key.IsPlain := by
  cases key with
  | string s => exact .inl ⟨s, rfl⟩
  | boolean b => exact .inr (.inr rfl)
  | integer i => exact .inr (.inl rfl)
  | float x => exact .inr (.inl rfl)
  | _ => cases hkind

theorem eq_or_spells {a b : Value} (ha : a.IsKey) (hb : b.IsKey) {name : String}
    (hname : a.memberName? = some name) (hname' : b.memberName? = some name) :
    a = b ∨ a.Spells b ∨ b.Spells a := by
  rcases string_or_isPlain (namesMember_of_memberName? hname) with ⟨s, rfl⟩ | hplain
  · cases hname
    rcases string_or_isPlain (namesMember_of_memberName? hname') with ⟨s', rfl⟩ | hplain'
    · cases hname'
      exact .inl rfl
    · rw [memberName?_of_isPlain hplain'] at hname'
      cases hname'
      exact .inr (.inl ⟨hplain', rfl⟩)
  · rw [memberName?_of_isPlain hplain] at hname
    cases hname
    rcases string_or_isPlain (namesMember_of_memberName? hname') with ⟨s', rfl⟩ | hplain'
    · cases hname'
      exact .inr (.inr ⟨hplain, rfl⟩)
    · rw [memberName?_of_isPlain hplain'] at hname'
      exact .inl (eq_of_text ha hb hplain hplain' (Option.some.inj hname').symm)

end Value

namespace Table

/-- No string among the keys is the text of a number or boolean among them. -/
def NamesApart (t : Table) : Prop :=
  ∀ a ∈ Entries.keys t.entries, ∀ b ∈ Entries.keys t.entries, ¬ a.Spells b

instance (t : Table) : Decidable t.NamesApart :=
  inferInstanceAs (Decidable
    (∀ a ∈ Entries.keys t.entries, ∀ b ∈ Entries.keys t.entries, ¬ a.Spells b))

variable {t : Table}

theorem eq_of_memberName? (h : t.WellFormed) (hapart : t.NamesApart) {a b : Value}
    (ha : a ∈ Entries.keys t.entries) (hb : b ∈ Entries.keys t.entries) {name : String}
    (hname : a.memberName? = some name) (hname' : b.memberName? = some name) : a = b := by
  rcases Value.eq_or_spells (h.keys a ha) (h.keys b hb) hname hname' with heq | hspells | hspells
  · exact heq
  · exact absurd hspells (hapart a ha b hb)
  · exact absurd hspells (hapart b hb a ha)

theorem nodup_names (h : t.WellFormed) (hapart : t.NamesApart) :
    (t.members.map Prod.fst).Nodup := by
  have hentries : t.entries.Pairwise fun e e' => e.1 ≠ e'.1 := List.pairwise_map.1 h.nodup_keys
  unfold members List.Nodup
  rw [List.pairwise_map, List.pairwise_filterMap]
  refine hentries.imp_of_mem ?_
  intro e e' he he' hne m hm m' hm' heq
  obtain ⟨name, hname, rfl⟩ := Option.map_eq_some_iff.1 hm
  obtain ⟨name', hname', rfl⟩ := Option.map_eq_some_iff.1 hm'
  cases heq
  have hkey : e.1 ∈ Entries.keys t.entries := List.mem_map_of_mem he
  have hkey' : e'.1 ∈ Entries.keys t.entries := List.mem_map_of_mem he'
  exact hne (eq_of_memberName? h hapart hkey hkey' hname hname')

end Table

namespace Heap

variable {h h' : Heap}

/-! ## Entries and members -/

/-- An entry becomes a member with the name of its key and the JSON of its value. -/
def Becomes (h : Heap) (entry : Value × Value) (member : String × Json) : Prop :=
  entry.1.memberName? = some member.1 ∧ h.toJson entry.2 = .ok member.2

theorem Becomes.unique {entry : Value × Value} {m m' : String × Json} (hm : h.Becomes entry m)
    (hm' : h.Becomes entry m') : m = m' := by
  have hname := hm.1.symm.trans hm'.1
  have hjson := hm.2.symm.trans hm'.2
  exact Prod.ext (Option.some.inj hname) (Except.ok.inj hjson)

theorem exists_object_of_encodes {t : TableId} {j : Json} (hseq : ¬ (h.table t).isSequence = true)
    (hv : h.Encodes (.table t) j) : ∃ json : Value → Json,
      (∀ member ∈ (h.table t).members, h.Encodes member.2 (json member.2)) ∧
      j = Json.objectOf ((h.table t).members.map fun m => (m.1, json m.2)) := by
  cases hv with
  | scalar hscalar => cases hscalar
  | table json hcontents =>
    refine ⟨json, fun member hmember => hcontents _ ?_, tableJson_of_not_isSequence hseq json⟩
    rw [contents, if_neg hseq]
    exact List.mem_map_of_mem hmember

theorem members_of_entries {t : TableId} (ht : (h.table t).WellFormed)
    (hseq : ¬ (h.table t).isSequence = true) (hapart : (h.table t).NamesApart) {j : Json}
    (hv : h.Encodes (.table t) j) :
    ∃ members, j = .object members ∧ Json.Ascending members ∧
      (∀ entry ∈ (h.table t).entries, entry.1.kind.namesMember = true →
        ∃! member, member ∈ members ∧ h.Becomes entry member) ∧
      ∀ member ∈ members, ∃! entry, entry ∈ (h.table t).entries ∧ h.Becomes entry member := by
  obtain ⟨json, hjson, rfl⟩ := exists_object_of_encodes hseq hv
  obtain ⟨sorted, hobject, hascending, _, _, hperm⟩ :=
    Json.exists_objectOf ((h.table t).members.map fun m => (m.1, json m.2))
  have hsorted : sorted.Perm ((h.table t).members.map fun m => (m.1, json m.2)) := by
    refine hperm ?_
    rw [List.map_map]
    exact Table.nodup_names ht hapart
  have hbecomes {key value : Value} {name : String} (hentry : (key, value) ∈ (h.table t).entries)
      (hname : key.memberName? = some name) :
      (name, json value) ∈ sorted ∧ h.Becomes (key, value) (name, json value) := by
    have hmember : (name, value) ∈ (h.table t).members := Table.mem_members.2 ⟨key, hentry, hname⟩
    refine ⟨hsorted.mem_iff.2 (List.mem_map.2 ⟨_, hmember, rfl⟩), hname, ?_⟩
    exact toJson_eq_ok_iff.2 (hjson _ hmember)
  refine ⟨sorted, hobject, hascending, ?_, ?_⟩
  · rintro ⟨key, value⟩ hentry hkind
    rw [← key.isSome_memberName?, Option.isSome_iff_exists] at hkind
    obtain ⟨name, hname⟩ := hkind
    obtain ⟨hmem, hmember⟩ := hbecomes hentry hname
    exact ⟨_, ⟨hmem, hmember⟩, fun m hm => hm.2.unique hmember⟩
  · intro m hm
    obtain ⟨⟨name, value⟩, hmember, rfl⟩ := List.mem_map.1 (hsorted.mem_iff.1 hm)
    obtain ⟨key, hentry, hname⟩ := Table.mem_members.1 hmember
    refine ⟨(key, value), ⟨hentry, (hbecomes hentry hname).2⟩, ?_⟩
    rintro ⟨key', value'⟩ ⟨hentry', hname', _⟩
    have hkey : key' = key := Table.eq_of_memberName? ht hapart (List.mem_map_of_mem hentry')
      (List.mem_map_of_mem hentry) hname' hname
    -- a key has one value
    subst hkey
    exact Prod.ext rfl ((ht.get_of_mem hentry').symm.trans (ht.get_of_mem hentry))

/-! ## The order of entries -/

theorem contents_perm (hwf : h.WellFormed) {t : TableId}
    (hperm : (h.table t).entries.Perm (h'.table t).entries) :
    (h.contents t).Perm (h'.contents t) := by
  rw [contents, contents, Table.isSequence_of_perm hperm]
  split
  · rw [(hwf t).sequence_of_perm hperm]
  · exact (Table.members_perm hperm).map Prod.snd

theorem tableJson_of_perm (hwf : h.WellFormed) {t : TableId} (hapart : (h.table t).NamesApart)
    (hperm : (h.table t).entries.Perm (h'.table t).entries) (json : Value → Json) :
    h'.tableJson t ((h'.contents t).map json) = h.tableJson t ((h.contents t).map json) := by
  have hiff := Table.isSequence_of_perm hperm
  by_cases hseq : (h.table t).isSequence = true
  · have hseq' : (h'.table t).isSequence = true := hiff.trans hseq
    rw [tableJson, tableJson, if_pos hseq, if_pos hseq', contents, contents, if_pos hseq, if_pos hseq',
      (hwf t).sequence_of_perm hperm]
  · have hseq' : ¬ (h'.table t).isSequence = true := hiff ▸ hseq
    rw [tableJson_of_not_isSequence hseq, tableJson_of_not_isSequence hseq']
    refine (Json.objectOf_of_perm ((Table.members_perm hperm).map _) ?_).symm
    rw [List.map_map]
    exact Table.nodup_names (hwf t) hapart

/-- At every depth the names of members have to be apart, since objects with the same members are the
same only then. -/
theorem Encodes.of_perm (hwf : h.WellFormed)
    (hperm : ∀ t, (h.table t).entries.Perm (h'.table t).entries) {v : Value} {j : Json}
    (hv : h.Encodes v j)
    (hapart : ∀ t, Relation.ReflTransGen h.Visits v (.table t) → (h.table t).NamesApart) :
    h'.Encodes v j := by
  induction hv with
  | scalar hscalar => exact .scalar hscalar
  | @table t json hcontents ih =>
    rw [← tableJson_of_perm hwf (hapart t .refl) (hperm t)]
    refine .table json fun w hw => ?_
    have hold : w ∈ h.contents t := (contents_perm hwf (hperm t)).mem_iff.2 hw
    exact ih w hold fun u hu => hapart u (.head ⟨t, rfl, hold⟩ hu)

/-! ## Tables as objects -/

/-- **Tables as objects.** Two keys of a table have one member name only if one of them is a string that
is the text of the other one, a number or boolean: numbers and booleans never share a name. In a table
without such strings that is no sequence and that has JSON, the entries with strings, numbers and
booleans as keys and the members of its object correspond one to one, and each member holds the JSON of
its entry's value. If no table that it leads to has such strings, then its JSON is the same whatever the
orders of the entries are. -/
theorem toJson_object (hwf : h.WellFormed) (hfits : h.Fits) {t : TableId} {j : Json}
    (hkeys : ∀ n, ¬ (h.table t).KeysUpTo n) (hj : h.toJson (.table t) = .ok j) :
    (∀ a ∈ Entries.keys (h.table t).entries, ∀ b ∈ Entries.keys (h.table t).entries, ∀ name,
      a.memberName? = some name → b.memberName? = some name → a = b ∨ a.Spells b ∨ b.Spells a) ∧
    ((h.table t).NamesApart →
      ∃ members, j = .object members ∧ Json.Ascending members ∧
        (∀ entry ∈ (h.table t).entries, entry.1.kind.namesMember = true →
          ∃! member, member ∈ members ∧ h.Becomes entry member) ∧
        ∀ member ∈ members, ∃! entry, entry ∈ (h.table t).entries ∧ h.Becomes entry member) ∧
    ((∀ u, h.Reaches (.table t) (.table u) → (h.table u).NamesApart) →
      ∀ h' : Heap, (∀ u, (h.table u).entries.Perm (h'.table u).entries) →
        h'.toJson (.table t) = .ok j) := by
  have hv := toJson_eq_ok_iff.1 hj
  have hseq : ¬ (h.table t).isSequence = true := fun hs =>
    not_exists.2 hkeys ((Table.isSequence_iff (hwf t) (hfits t)).1 hs)
  refine ⟨?_, fun hapart => members_of_entries (hwf t) hseq hapart hv, ?_⟩
  · intro a ha b hb name hname hname'
    exact Value.eq_or_spells ((hwf t).keys a ha) ((hwf t).keys b hb) hname hname'
  · intro hapart h' hperm
    unfold Reaches at hapart
    rw [child_eq_visits hwf hfits] at hapart
    exact toJson_eq_ok_iff.2 (hv.of_perm hwf hperm hapart)

/-- A table beside another one, to which the entries are assigned in the given order. -/
def assigningRun (entries : List (Value × Value)) : List Step :=
  .request (.newTable [.integer 7]) :: .request (.newTable []) ::
    entries.map fun (key, value) => .request (.editTable ⟨1⟩ (.set key value))

theorem perm_of_forall_lt (hsize : h.tables.size = h'.tables.size)
    (hall : ∀ i < h.tables.size, (h.table ⟨i⟩).entries.Perm (h'.table ⟨i⟩).entries) (t : TableId) :
    (h.table t).entries.Perm (h'.table t).entries := by
  rcases Nat.lt_or_ge t.index h.tables.size with hlt | hge
  · exact hall t.index hlt
  · rw [table_of_size_le hge, table_of_size_le (hsize ▸ hge)]

theorem not_keysUpTo {t : TableId} (ht : (h.table t).WellFormed) (hfits : (h.table t).Fits)
    (hseq : (h.table t).isSequence = false) (n : Nat) : ¬ (h.table t).KeysUpTo n := fun hkeys =>
  Bool.eq_false_iff.1 hseq ((Table.isSequence_iff ht hfits).2 ⟨n, hkeys⟩)

/-- Keys of all kinds that name a member: 1, 2.5, true, and a string at which the other table stands. -/
def mixedEntries : List (Value × Value) := [
  (.integer 1, .boolean true), (.float ⟨0x4004000000000000⟩, .string "half"),
  (.boolean true, .boolean false), (.string "list", .table ⟨0⟩)]

theorem toJson_object_mixed :
    let h := (World.after 1 {} (assigningRun mixedEntries)).heap
    let h' := (World.after 1 {} (assigningRun mixedEntries.reverse)).heap
    let j := Json.object [("1", .bool true), ("2.5", .string "half"),
      ("list", .array [.number (.ofInt64 7)]), ("true", .bool false)]
    h.WellFormed ∧ h.Fits ∧ (∀ n, ¬ (h.table ⟨1⟩).KeysUpTo n) ∧ h.toJson (.table ⟨1⟩) = .ok j ∧
    (∀ u, h.Reaches (.table ⟨1⟩) (.table u) → (h.table u).NamesApart) ∧
    (∀ u, (h.table u).entries.Perm (h'.table u).entries) ∧ h'.toJson (.table ⟨1⟩) = .ok j := by
  intro h h' j
  have hwf : h.WellFormed := World.wellFormed_after 1 _
  have hfits : h.Fits := fits_of_forall_lt (by decide)
  have hkeys : ∀ n, ¬ (h.table ⟨1⟩).KeysUpTo n := not_keysUpTo (hwf _) (hfits _) (by decide)
  have hj : h.toJson (.table ⟨1⟩) = .ok j := rfl
  have hapart : ∀ u, (h.table u).NamesApart := forall_table (by decide) (by decide)
  have hperm : ∀ u, (h.table u).entries.Perm (h'.table u).entries :=
    perm_of_forall_lt rfl (by decide)
  obtain ⟨_, _, horder⟩ := toJson_object hwf hfits hkeys hj
  exact ⟨hwf, hfits, hkeys, hj, fun u _ => hapart u, hperm, horder (fun u _ => hapart u) h' hperm⟩

/-- The integer 1 and the string that spells it have one member, which holds the value that comes last
in the order of the entries. -/
theorem toJson_object_collision :
    let entries : List (Value × Value) := [(.integer 1, .boolean true), (.string "1", .boolean false)]
    let h := (World.after 1 {} (assigningRun entries)).heap
    let h' := (World.after 1 {} (assigningRun entries.reverse)).heap
    h.WellFormed ∧ h.Fits ∧ (∀ n, ¬ (h.table ⟨1⟩).KeysUpTo n) ∧
    (h.table ⟨1⟩).entries = entries ∧ (∀ u, (h.table u).entries.Perm (h'.table u).entries) ∧
    h.toJson (.table ⟨1⟩) = .ok (.object [("1", .bool false)]) ∧
    h'.toJson (.table ⟨1⟩) = .ok (.object [("1", .bool true)]) := by
  intro entries h h'
  have hwf : h.WellFormed := World.wellFormed_after 1 _
  have hfits : h.Fits := fits_of_forall_lt (by decide)
  have hkeys : ∀ n, ¬ (h.table ⟨1⟩).KeysUpTo n := not_keysUpTo (hwf _) (hfits _) (by decide)
  have hperm : ∀ u, (h.table u).entries.Perm (h'.table u).entries :=
    perm_of_forall_lt rfl (by decide)
  exact ⟨hwf, hfits, hkeys, rfl, hperm, rfl, rfl⟩

end Heap
end LuaHost
