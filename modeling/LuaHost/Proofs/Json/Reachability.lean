import LuaHost.Proofs.Host.Run
import LuaHost.Proofs.Json.Acyclicity
import LuaHost.Proofs.Table.Sequence

/-!
# LuaHost.Proofs.Json.Reachability

Which values have JSON, read off the values that they lead to.

* `Heap.Child`: one step into a table. `Heap.Reaches`, `Heap.Cyclic`: any number of steps.
* `Heap.child_eq_visits`: the children are what the encoding visits.
* `Heap.toJson_of_sameMembers`: entries that become no member decide nothing.
* `Heap.toJson_succeeds_iff`: the values that have JSON.
-/

namespace LuaHost

/-- Of the keys of an object-like table, only those of these kinds name a member. -/
def Kind.namesMember : Kind → Bool
  | .string => true
  | .number => true
  | .boolean => true
  | _ => false

theorem Value.isSome_memberName? (key : Value) :
    key.memberName?.isSome = key.kind.namesMember := by
  cases key with
  | _ => rfl

theorem Value.namesMember_of_memberName? {key : Value} {name : String}
    (hname : key.memberName? = some name) : key.kind.namesMember = true := by
  rw [← key.isSome_memberName?, hname]
  rfl

theorem Table.mem_members {t : Table} {name : String} {value : Value} :
    (name, value) ∈ t.members ↔ ∃ key, (key, value) ∈ t.entries ∧ key.memberName? = some name := by
  simp only [members, List.mem_filterMap, Option.map_eq_some_iff]
  constructor
  · rintro ⟨⟨key, value'⟩, hentry, name', hname, heq⟩
    cases heq
    exact ⟨key, hentry, hname⟩
  · rintro ⟨key, hentry, hname⟩
    exact ⟨(key, value), hentry, name, hname, rfl⟩

theorem Table.isSequence_iff {t : Table} (h : t.WellFormed) (hfits : t.Fits) :
    t.isSequence = true ↔ ∃ n, t.KeysUpTo n := by
  rw [isSequence, beq_iff_eq]
  exact h.length_eq_count_iff hfits

namespace Heap

def Fits (h : Heap) : Prop := ∀ t, (h.table t).Fits

theorem fits_of_forall_lt {h : Heap} (hall : ∀ i < h.tables.size, (h.table ⟨i⟩).Fits) : h.Fits :=
  forall_table (by decide) hall

/-! ## Children -/

/-- The children of a table are the values of its sequence if its keys are `1, …, n`, and otherwise
its values at strings, numbers and booleans. -/
inductive Child (h : Heap) : Value → Value → Prop where
  | element {t : TableId} {n : Nat} {i : Int64} (hkeys : (h.table t).KeysUpTo n)
      (hlow : 1 ≤ i.toInt) (hhigh : i.toInt ≤ n) :
      Child h (.table t) ((h.table t).get (.integer i))
  | member {t : TableId} {key value : Value} (hkeys : ∀ n, ¬ (h.table t).KeysUpTo n)
      (hentry : (key, value) ∈ (h.table t).entries) (hkind : key.kind.namesMember = true) :
      Child h (.table t) value

/-- A value leads to another through any number of children, and to itself through none. -/
def Reaches (h : Heap) : Value → Value → Prop := Relation.ReflTransGen h.Child

/-- A table leads back to itself through one or more children. -/
def Cyclic (h : Heap) (t : TableId) : Prop := Relation.TransGen h.Child (.table t) (.table t)

variable {h : Heap}

theorem mem_members {t : Table} {w : Value} : w ∈ t.members.map Prod.snd ↔
    ∃ key, (key, w) ∈ t.entries ∧ key.kind.namesMember = true := by
  rw [List.mem_map]
  constructor
  · rintro ⟨⟨name, value⟩, hmember, rfl⟩
    obtain ⟨key, hentry, hname⟩ := Table.mem_members.1 hmember
    exact ⟨key, hentry, Value.namesMember_of_memberName? hname⟩
  · rintro ⟨key, hentry, hkind⟩
    rw [← key.isSome_memberName?, Option.isSome_iff_exists] at hkind
    obtain ⟨name, hname⟩ := hkind
    exact ⟨(name, w), Table.mem_members.2 ⟨key, hentry, hname⟩, rfl⟩

theorem mem_sequence {t : Table} (ht : t.WellFormed) (hfits : t.Fits) {n : Nat}
    (hkeys : t.KeysUpTo n) {w : Value} :
    w ∈ t.sequence ↔ ∃ i : Int64, 1 ≤ i.toInt ∧ i.toInt ≤ n ∧ w = t.get (.integer i) := by
  have hlength := ht.keysUpTo_length hfits ((ht.length_eq_count_iff hfits).2 ⟨n, hkeys⟩)
  have hrange (i : Int64) : (1 ≤ i.toInt ∧ i.toInt ≤ n) ↔ 1 ≤ i.toInt ∧ i.toInt ≤ t.length := by
    have hn := hkeys (.integer i)
    rw [hlength (.integer i)] at hn
    simpa using hn.symm
  rw [ht.sequence_eq, List.mem_map]
  constructor
  · rintro ⟨k, hk, rfl⟩
    have hk := List.mem_range.1 hk
    have hint : (Int64.ofInt (k + 1 : Nat)).toInt = (k + 1 : Nat) :=
      toInt_position (Nat.lt_of_le_of_lt (Nat.le_trans hk t.length_le_count) hfits)
    have hin := (hrange (Int64.ofInt (k + 1 : Nat))).2 (by omega)
    exact ⟨_, hin.1, hin.2, rfl⟩
  · rintro ⟨i, hlow, hhigh, rfl⟩
    have hin := (hrange i).1 ⟨hlow, hhigh⟩
    refine ⟨i.toInt.toNat - 1, List.mem_range.2 (by omega), ?_⟩
    have hback : ((i.toInt.toNat - 1 + 1 : Nat) : Int) = i.toInt := by omega
    rw [hback, Table.getAt_toInt]

/-- The children are what the encoding visits. -/
theorem child_eq_visits (hwf : h.WellFormed) (hfits : h.Fits) : h.Child = h.Visits := by
  funext v w
  apply propext
  constructor
  · intro hchild
    cases hchild with
    | @element t n i hkeys hlow hhigh =>
      have hseq := (Table.isSequence_iff (hwf t) (hfits t)).2 ⟨n, hkeys⟩
      refine ⟨t, rfl, ?_⟩
      rw [contents, if_pos hseq, mem_sequence (hwf t) (hfits t) hkeys]
      exact ⟨i, hlow, hhigh, rfl⟩
    | @member t key w hkeys hentry hkind =>
      have hseq := fun hs => not_exists.2 hkeys ((Table.isSequence_iff (hwf t) (hfits t)).1 hs)
      refine ⟨t, rfl, ?_⟩
      rw [contents, if_neg hseq, mem_members]
      exact ⟨key, hentry, hkind⟩
  · rintro ⟨t, rfl, hmem⟩
    have hseq := Table.isSequence_iff (hwf t) (hfits t)
    unfold contents at hmem
    split at hmem
    · rename_i hs
      obtain ⟨n, hkeys⟩ := hseq.1 hs
      obtain ⟨i, hlow, hhigh, rfl⟩ := (mem_sequence (hwf t) (hfits t) hkeys).1 hmem
      exact .element hkeys hlow hhigh
    · rename_i hs
      obtain ⟨key, hentry, hkind⟩ := mem_members.1 hmem
      exact .member (fun n hkeys => hs (hseq.2 ⟨n, hkeys⟩)) hentry hkind

end Heap

/-! ## Entries that become no member -/

/-- The same keys in the same order, with the same values at all keys that name a member. -/
def Table.SameMembers (t u : Table) : Prop :=
  List.Forall₂ (fun a b => a.1 = b.1 ∧ (a.1.kind.namesMember = true → a.2 = b.2)) t.entries u.entries

namespace Table.SameMembers

variable {t u : Table}

theorem keys_eq (hsame : t.SameMembers u) : Entries.keys t.entries = Entries.keys u.entries := by
  unfold SameMembers at hsame
  generalize t.entries = entries at hsame
  generalize u.entries = entries' at hsame
  induction hsame with
  | nil => rfl
  | cons hhead _ ih => exact congrArg₂ List.cons hhead.1 ih

theorem lookup_eq (hsame : t.SameMembers u) {key : Value} (hkey : key.kind.namesMember = true) :
    Entries.lookup key t.entries = Entries.lookup key u.entries := by
  unfold SameMembers at hsame
  generalize t.entries = entries at hsame
  generalize u.entries = entries' at hsame
  induction hsame with
  | nil => rfl
  | @cons a b rest rest' hhead _ ih =>
    obtain ⟨k, v⟩ := a
    obtain ⟨k', v'⟩ := b
    obtain ⟨hk, hv⟩ := hhead
    cases hk
    simp only [Entries.lookup, ih]
    split
    · rename_i heq
      exact hv (Value.kind_eq_of_rawEq heq ▸ hkey)
    · rfl

theorem count_eq (hsame : t.SameMembers u) : t.count = u.count := hsame.length_eq

theorem containsAt_eq (hsame : t.SameMembers u) (i : Int) : t.containsAt i = u.containsAt i := by
  simp only [containsAt, contains, Entries.contains_eq_any, hsame.keys_eq]

theorem getAt_eq (hsame : t.SameMembers u) (i : Int) : t.getAt i = u.getAt i :=
  hsame.lookup_eq rfl

theorem length_eq (hsame : t.SameMembers u) : t.length = u.length :=
  length_congr hsame.containsAt_eq hsame.count_eq

theorem sequence_eq (hsame : t.SameMembers u) : t.sequence = u.sequence :=
  sequence_congr hsame.getAt_eq hsame.count_eq

theorem isSequence_eq (hsame : t.SameMembers u) : t.isSequence = u.isSequence := by
  rw [isSequence, isSequence, hsame.length_eq, hsame.count_eq]

theorem members_eq (hsame : t.SameMembers u) : t.members = u.members := by
  unfold SameMembers at hsame
  unfold members
  generalize t.entries = entries at hsame ⊢
  generalize u.entries = entries' at hsame ⊢
  induction hsame with
  | nil => rfl
  | @cons a b rest rest' hhead _ ih =>
    obtain ⟨k, v⟩ := a
    obtain ⟨k', v'⟩ := b
    obtain ⟨hk, hv⟩ := hhead
    cases hk
    simp only [List.filterMap_cons, ih]
    cases hname : k.memberName? with
    | none => rfl
    | some name =>
      have hvalue : v = v' := hv (Value.namesMember_of_memberName? hname)
      rw [hvalue]

end Table.SameMembers

namespace Heap

variable {h h' : Heap}

theorem encode_of_sameMembers (hsame : ∀ t, (h.table t).SameMembers (h'.table t)) (bound : Nat)
    (path : List TableId) (v : Value) : h'.encode bound path v = h.encode bound path v := by
  have hcontents (t : TableId) : h'.contents t = h.contents t := by
    rw [contents, contents, (hsame t).isSequence_eq, (hsame t).sequence_eq, (hsame t).members_eq]
  have hjson (t : TableId) : h'.tableJson t = h.tableJson t := by
    funext elements
    rw [tableJson, tableJson, (hsame t).isSequence_eq, (hsame t).members_eq]
  induction bound generalizing path v with
  | zero => rfl
  | succ bound ih =>
    by_cases hv : ∃ t, v = .table t
    · obtain ⟨t, rfl⟩ := hv
      by_cases ht : t ∈ path
      · rw [encode_of_mem ht, encode_of_mem ht]
      · rw [encode_table ht, encode_table ht, hcontents, hjson,
          mapM_congr_left fun w _ => ih (t :: path) w]
    · rw [encode_scalar (not_exists.1 hv), encode_scalar (not_exists.1 hv)]

/-- Both heaps are given room for the tables of the larger one. -/
theorem toJson_of_sameMembers (hsame : ∀ t, (h.table t).SameMembers (h'.table t)) (v : Value) :
    h'.toJson v = h.toJson v := by
  have hbound := encode_of_sameMembers hsame (h.tables.size + h'.tables.size + 1) [] v
  rwa [encode_eq_toJson (by omega), encode_eq_toJson (by omega)] at hbound

/-- **The values that have JSON.** The encoding comes to an end on every heap, cyclic or not: however
many tables it may be inside of beyond all that there are, its outcome is the same. It succeeds exactly
for the values that lead to no table which leads back to itself, and to no function, userdata or number
that is not finite; otherwise it fails with a runtime error. A table that is reached on several paths
is no cycle: a cycle is reported only where there is one. And what stands at tables, functions and
userdata as keys is never visited: it may be replaced by anything. -/
theorem toJson_succeeds_iff (hwf : h.WellFormed) (hfits : h.Fits) (v : Value) :
    (∀ bound, h.tables.size + 1 ≤ bound → h.encode bound [] v = h.toJson v) ∧
    ((∃ j, h.toJson v = .ok j) ↔
      (∀ t, h.Reaches v (.table t) → ¬ h.Cyclic t) ∧ ∀ w, h.Reaches v w → w.HasJson) ∧
    ((¬ ∃ j, h.toJson v = .ok j) → ∃ r, h.toJson v = .error (.runtime r)) ∧
    ((∀ t, h.Reaches v (.table t) → ¬ h.Cyclic t) →
      h.toJson v ≠ .error (.runtime .circularReference)) ∧
    ∀ h' : Heap, (∀ t, (h.table t).SameMembers (h'.table t)) → h'.toJson v = h.toJson v := by
  unfold Reaches Cyclic
  rw [child_eq_visits hwf hfits]
  refine ⟨fun bound hbound => encode_eq_toJson hbound v, ⟨?_, ?_⟩, ?_, ?_,
    fun h' hsame => toJson_of_sameMembers hsame v⟩
  · rintro ⟨j, hj⟩
    have hv := encodes_of_encode hj
    exact ⟨fun t => hv.acyclic, fun w => hv.hasJson⟩
  · rintro ⟨hacyclic, hjson⟩
    exact exists_encode isPath_nil (Nat.le_refl _) nofun hacyclic hjson
  · intro hfail
    cases hv : h.toJson v with
    | ok j => exact absurd ⟨j, hv⟩ hfail
    | error e =>
      obtain ⟨r, rfl⟩ := exists_runtime_of_encode hv
      exact ⟨r, rfl⟩
  · intro hacyclic hcircular
    obtain ⟨t, hreach, ht⟩ := exists_cycle_of_encode isPath_nil (Nat.le_refl _) hcircular
    rcases ht with ht | ht
    · cases ht
    · exact hacyclic t hreach ht

/-- Two members hold the same table, and the table itself stands only at a table as key. -/
def sharingRun : List Step := [
  .request (.newTable [.integer 10, .integer 20]),
  .request (.newTable []),
  .request (.editTable ⟨1⟩ (.set (.string "left") (.table ⟨0⟩))),
  .request (.editTable ⟨1⟩ (.set (.string "right") (.table ⟨0⟩))),
  .request (.editTable ⟨1⟩ (.set (.table ⟨0⟩) (.table ⟨1⟩)))]

theorem toJson_succeeds_iff_sharing :
    let h := (World.after 1 {} sharingRun).heap
    h.WellFormed ∧ h.Fits ∧ (∃ j, h.toJson (.table ⟨1⟩) = .ok j) ∧
    (∀ t, h.Reaches (.table ⟨1⟩) (.table t) → ¬ h.Cyclic t) ∧
    ∀ bound, h.tables.size + 1 ≤ bound → h.encode bound [] (.table ⟨1⟩) = h.toJson (.table ⟨1⟩) := by
  intro h
  have hwf : h.WellFormed := World.wellFormed_after 1 sharingRun
  have hfits : h.Fits := fits_of_forall_lt (by decide)
  have hok : ∃ j, h.toJson (.table ⟨1⟩) = .ok j := ⟨_, rfl⟩
  obtain ⟨hbound, hiff, _⟩ := toJson_succeeds_iff hwf hfits (.table ⟨1⟩)
  exact ⟨hwf, hfits, hok, (hiff.1 hok).1, hbound⟩

end Heap
end LuaHost
