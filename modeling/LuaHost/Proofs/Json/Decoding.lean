import LuaHost.Proofs.Heap.Cells
import LuaHost.Proofs.Table.Filling
import Mathlib.Logic.Relation

/-!
# LuaHost.Proofs.Json.Decoding

The value of a JSON value as a relation to the heap that holds it.

* `Json.induction`: what holds of a JSON value if it holds of its elements or members.
* `Heap.Extends`: new tables are allocated, and the old ones stay as they are.
* `Heap.Apart`: two values in which no table is stored twice.
* `Heap.Holds`: a value stands for a JSON value, table by table.
* `Json.holds_toValue`: reading a JSON value extends the heap, by new tables that hold it.
-/

namespace LuaHost

/-! ## Lists side by side -/

section

variable {α β : Type} {as : List α} {bs : List β} (hlength : as.length = bs.length)
include hlength

theorem exists_mem_zip_left {a : α} (ha : a ∈ as) : ∃ b, (a, b) ∈ as.zip bs := by
  rw [← List.map_fst_zip (Nat.le_of_eq hlength)] at ha
  obtain ⟨⟨a, b⟩, hmem, rfl⟩ := List.mem_map.1 ha
  exact ⟨b, hmem⟩

theorem exists_mem_zip_right {b : β} (hb : b ∈ bs) : ∃ a, (a, b) ∈ as.zip bs := by
  rw [← List.map_snd_zip (Nat.le_of_eq hlength.symm)] at hb
  obtain ⟨⟨a, b⟩, hmem, rfl⟩ := List.mem_map.1 hb
  exact ⟨a, hmem⟩

end

section

variable {α β : Type} {members : List (String × α)} {values : List β}
  (hlength : members.length = values.length)
include hlength

theorem names_zip_values :
    ((members.map Prod.fst).zip values).map Prod.fst = members.map Prod.fst :=
  List.map_fst_zip (by rw [List.length_map, hlength])

theorem values_zip_values : ((members.map Prod.fst).zip values).map Prod.snd = values :=
  List.map_snd_zip (by rw [List.length_map, hlength])

end

@[elab_as_elim]
theorem Json.induction {motive : Json → Prop} (null : motive .null) (bool : ∀ b, motive (.bool b))
    (number : ∀ n, motive (.number n)) (string : ∀ s, motive (.string s))
    (array : ∀ elements, (∀ e ∈ elements, motive e) → motive (.array elements))
    (object : ∀ members, (∀ m ∈ members, motive m.2) → motive (.object members)) (j : Json) :
    motive j :=
  @Json.rec motive (fun elements => ∀ e ∈ elements, motive e)
    (fun members => ∀ m ∈ members, motive m.2) (fun member => motive member.2)
    null bool number string array object
    nofun (fun _ _ hhead hrest => List.forall_mem_cons.2 ⟨hhead, hrest⟩)
    nofun (fun _ _ hhead hrest => List.forall_mem_cons.2 ⟨hhead, hrest⟩)
    (fun _ _ hjson => hjson) j

theorem JsonNumber.kind_toValue (n : JsonNumber) : n.toNumber.toValue.kind = .number := by
  cases n.toNumber with
  | _ => rfl

namespace Heap

/-! ## Allocation -/

structure Extends (h h' : Heap) : Prop where
  size_le : h.tables.size ≤ h'.tables.size
  table_eq : ∀ t : TableId, t.index < h.tables.size → h'.table t = h.table t

theorem extends_refl (h : Heap) : h.Extends h := ⟨Nat.le_refl _, fun _ _ => rfl⟩

theorem Extends.trans {h h' h'' : Heap} (hext : h.Extends h') (hext' : h'.Extends h'') :
    h.Extends h'' where
  size_le := Nat.le_trans hext.size_le hext'.size_le
  table_eq t ht := by
    rw [hext'.table_eq t (Nat.lt_of_lt_of_le ht hext.size_le), hext.table_eq t ht]

theorem size_newTable (h : Heap) (table : Table) :
    (h.newTable table).2.tables.size = h.tables.size + 1 := by
  simp [newTable, Store.alloc, Store.size]

theorem extends_newTable (h : Heap) (table : Table) : h.Extends (h.newTable table).2 where
  size_le := by
    rw [size_newTable]
    exact Nat.le_succ _
  table_eq t ht := by
    refine h.table_newTable_other table ?_
    rintro rfl
    exact Nat.lt_irrefl _ ht

/-! ## Values in tables -/

def Stores (h : Heap) (v w : Value) : Prop := ∃ t key, v = .table t ∧ (key, w) ∈ (h.table t).entries

/-- No table is in both values, at any depth. -/
def Apart (h : Heap) (v w : Value) : Prop :=
  ∀ t, Relation.ReflTransGen h.Stores v (.table t) → ¬ Relation.ReflTransGen h.Stores w (.table t)

theorem Apart.symm {h : Heap} {v w : Value} (hvw : h.Apart v w) : h.Apart w v :=
  fun t hw hv => hvw t hv hw

/-! ## Held values -/

/-- The value stands for the JSON value, by tables that are none of the first `base` ones, and each of
which is stored once. Nulls are nils, whose assignment leaves no entry. -/
inductive Holds (h : Heap) (base : Nat) : Json → Value → Prop where
  | null : Holds h base .null .nil
  | bool (b : Bool) : Holds h base (.bool b) (.boolean b)
  | number (n : JsonNumber) : Holds h base (.number n) n.toNumber.toValue
  | string (s : String) : Holds h base (.string s) (.string s)
  | array {elements : List Json} {values : List Value} {t : TableId} (hbase : base ≤ t.index)
      (hsize : t.index < h.tables.size) (htable : h.table t = Table.ofList values)
      (hlength : elements.length = values.length)
      (hvalues : ∀ p ∈ elements.zip values, Holds h base p.1 p.2) (hapart : values.Pairwise h.Apart) :
      Holds h base (.array elements) (.table t)
  | object {members : List (String × Json)} {values : List Value} {t : TableId}
      (hbase : base ≤ t.index) (hsize : t.index < h.tables.size)
      (htable : h.table t = Table.ofMembers ((members.map Prod.fst).zip values))
      (hlength : members.length = values.length)
      (hvalues : ∀ p ∈ (members.map Prod.snd).zip values, Holds h base p.1 p.2)
      (hapart : values.Pairwise h.Apart) :
      Holds h base (.object members) (.table t)

variable {h h' : Heap} {base : Nat}

theorem holds_of_zip {elements : List Json} {values : List Value}
    (hlength : elements.length = values.length)
    (hvalues : ∀ p ∈ elements.zip values, h.Holds base p.1 p.2) :
    ∀ v ∈ values, ∃ j, h.Holds base j v := by
  intro v hv
  obtain ⟨e, hmem⟩ := exists_mem_zip_right hlength hv
  exact ⟨e, hvalues _ hmem⟩

theorem Holds.base_le {base' : Nat} {j : Json} {v : Value} (hv : h.Holds base j v)
    (hle : base' ≤ base) : h.Holds base' j v := by
  induction hv with
  | null => exact .null
  | bool b => exact .bool b
  | number n => exact .number n
  | string s => exact .string s
  | array hbase hsize htable hlength _ hapart ih =>
    exact .array (Nat.le_trans hle hbase) hsize htable hlength ih hapart
  | object hbase hsize htable hlength _ hapart ih =>
    exact .object (Nat.le_trans hle hbase) hsize htable hlength ih hapart

theorem Holds.allocated {j : Json} {v : Value} {t : TableId} (hv : h.Holds base j v)
    (heq : v = .table t) : base ≤ t.index ∧ t.index < h.tables.size := by
  cases hv with
  | number n =>
    have hkind := n.kind_toValue
    rw [heq] at hkind
    cases hkind
  | array hbase hsize =>
    cases heq
    exact ⟨hbase, hsize⟩
  | object hbase hsize =>
    cases heq
    exact ⟨hbase, hsize⟩
  | _ => cases heq

theorem Holds.stores {j : Json} {v w : Value} (hv : h.Holds base j v) (hw : h.Stores v w) :
    ∃ k, h.Holds base k w := by
  obtain ⟨t, key, heq, hentry⟩ := hw
  cases hv with
  | number n =>
    have hkind := n.kind_toValue
    rw [heq] at hkind
    cases hkind
  | @array elements values _ _ _ htable hlength hvalues _ =>
    cases heq
    rw [htable] at hentry
    exact holds_of_zip hlength hvalues w (Table.mem_of_mem_ofList hentry)
  | @object members values _ _ _ htable hlength hvalues _ =>
    cases heq
    rw [htable] at hentry
    obtain ⟨member, hmember, hvalue⟩ := Table.mem_of_mem_ofMembers hentry
    have hmem : w ∈ values := by
      rw [show w = member.2 from hvalue]
      exact (List.of_mem_zip hmember).2
    exact holds_of_zip ((List.length_map _).trans hlength) hvalues w hmem
  | _ => cases heq

theorem Holds.reaches {j : Json} {v w : Value} (hv : h.Holds base j v)
    (hw : Relation.ReflTransGen h.Stores v w) : ∃ k, h.Holds base k w := by
  induction hw with
  | refl => exact ⟨j, hv⟩
  | tail _ hstep ih =>
    obtain ⟨k, hk⟩ := ih
    exact hk.stores hstep

/-- All that is in a held value was allocated with it, so nothing is changed there. -/
theorem Holds.reaches_of_extends {j : Json} {v w : Value} (hv : h.Holds base j v) (hext : h.Extends h')
    (hw : Relation.ReflTransGen h'.Stores v w) : Relation.ReflTransGen h.Stores v w := by
  induction hw with
  | refl => exact .refl
  | tail _ hstep ih =>
    obtain ⟨t, key, rfl, hentry⟩ := hstep
    obtain ⟨k, hk⟩ := hv.reaches ih
    rw [hext.table_eq t (hk.allocated rfl).2] at hentry
    exact ih.tail ⟨t, key, rfl, hentry⟩

theorem Apart.mono {values : List Value} (hheld : ∀ v ∈ values, ∃ j, h.Holds base j v)
    (hapart : values.Pairwise h.Apart) (hext : h.Extends h') : values.Pairwise h'.Apart := by
  refine hapart.imp_of_mem fun {v w} hv hw happ t hreach hreach' => ?_
  obtain ⟨_, hv⟩ := hheld v hv
  obtain ⟨_, hw⟩ := hheld w hw
  exact happ t (hv.reaches_of_extends hext hreach) (hw.reaches_of_extends hext hreach')

theorem Holds.mono {j : Json} {v : Value} (hv : h.Holds base j v) (hext : h.Extends h') :
    h'.Holds base j v := by
  induction hv with
  | null => exact .null
  | bool b => exact .bool b
  | number n => exact .number n
  | string s => exact .string s
  | array hbase hsize htable hlength hvalues hapart ih =>
    have hheld := holds_of_zip hlength hvalues
    exact .array hbase (Nat.lt_of_lt_of_le hsize hext.size_le) ((hext.table_eq _ hsize).trans htable)
      hlength ih (Apart.mono hheld hapart hext)
  | object hbase hsize htable hlength hvalues hapart ih =>
    have hheld := holds_of_zip ((List.length_map _).trans hlength) hvalues
    exact .object hbase (Nat.lt_of_lt_of_le hsize hext.size_le) ((hext.table_eq _ hsize).trans htable)
      hlength ih (Apart.mono hheld hapart hext)

end Heap

namespace Json

/-! ## Reading -/

/-- The values of the members are read like those of elements. -/
theorem memberValues_eq (members : List (String × Json)) :
    memberValues members = (do
      let values ← toValues (members.map Prod.snd)
      pure ((members.map Prod.fst).zip values)) := by
  induction members with
  | nil => rfl
  | cons member rest ih =>
    obtain ⟨name, json⟩ := member
    rw [memberValues, ih]
    rfl

theorem toValue_object (members : List (String × Json)) :
    (object members).toValue = (do
      let values ← toValues (members.map Prod.snd)
      let t ← modifyGet (·.newTable (Table.ofMembers ((members.map Prod.fst).zip values)))
      pure (.table t)) := by
  rw [toValue, memberValues_eq]
  rfl

/-- Reading the value, from any heap, is an extension of it by tables that hold the value. -/
def Reads (j : Json) : Prop :=
  ∀ (h : Heap) (base : Nat), base ≤ h.tables.size →
    h.Extends (j.toValue.run h).2 ∧ (j.toValue.run h).2.Holds base j (j.toValue.run h).1

theorem holds_toValues {elements : List Json} (hall : ∀ e ∈ elements, e.Reads) (h : Heap) {base : Nat}
    (hbase : base ≤ h.tables.size) :
    h.Extends ((toValues elements).run h).2 ∧
      elements.length = ((toValues elements).run h).1.length ∧
      (∀ p ∈ elements.zip ((toValues elements).run h).1,
        ((toValues elements).run h).2.Holds base p.1 p.2) ∧
      ((toValues elements).run h).1.Pairwise ((toValues elements).run h).2.Apart := by
  induction elements generalizing h base with
  | nil => exact ⟨h.extends_refl, rfl, nofun, .nil⟩
  | cons element rest ih =>
    obtain ⟨hhead, hrest⟩ := List.forall_mem_cons.1 hall
    obtain ⟨hext, hvalue⟩ := hhead h base hbase
    -- the tables of the rest are past all those of the first element
    obtain ⟨hexts, hlength, hvalues, hapart⟩ := ih hrest (element.toValue.run h).2 (Nat.le_refl _)
    refine ⟨hext.trans hexts, congrArg Nat.succ hlength, ?_, List.pairwise_cons.2 ⟨?_, hapart⟩⟩
    · intro p hp
      rcases List.mem_cons.1 hp with rfl | hp
      · exact hvalue.mono hexts
      · exact (hvalues p hp).base_le (Nat.le_trans hbase hext.size_le)
    · intro w hw t hreach hreach'
      obtain ⟨e, hmem⟩ := exists_mem_zip_right hlength hw
      obtain ⟨_, hfirst⟩ := hvalue.reaches (hvalue.reaches_of_extends hexts hreach)
      obtain ⟨_, hlater⟩ := (hvalues _ hmem).reaches hreach'
      exact Nat.lt_irrefl _ (Nat.lt_of_lt_of_le (hfirst.allocated rfl).2 (hlater.allocated rfl).1)

theorem reads (j : Json) : j.Reads := by
  induction j using Json.induction with
  | null => exact fun h _ _ => ⟨h.extends_refl, .null⟩
  | bool b => exact fun h _ _ => ⟨h.extends_refl, .bool b⟩
  | number n => exact fun h _ _ => ⟨h.extends_refl, .number n⟩
  | string s => exact fun h _ _ => ⟨h.extends_refl, .string s⟩
  | array elements ih =>
    intro h base hbase
    obtain ⟨hext, hlength, hvalues, hapart⟩ := holds_toValues ih h hbase
    refine ⟨hext.trans (Heap.extends_newTable _ _), .array ?_ ?_ ?_ hlength ?_ ?_⟩
    · exact Nat.le_trans hbase hext.size_le
    · exact Nat.lt_of_lt_of_eq (Nat.lt_succ_self _) (Heap.size_newTable _ _).symm
    · exact Heap.table_newTable_same _ _
    · exact fun p hp => (hvalues p hp).mono (Heap.extends_newTable _ _)
    · exact Heap.Apart.mono (Heap.holds_of_zip hlength hvalues) hapart (Heap.extends_newTable _ _)
  | object members ih =>
    intro h base hbase
    obtain ⟨hext, hlength, hvalues, hapart⟩ := holds_toValues (List.forall_mem_map.2 ih) h hbase
    rw [List.length_map] at hlength
    rw [toValue_object]
    refine ⟨hext.trans (Heap.extends_newTable _ _), .object ?_ ?_ ?_ hlength ?_ ?_⟩
    · exact Nat.le_trans hbase hext.size_le
    · exact Nat.lt_of_lt_of_eq (Nat.lt_succ_self _) (Heap.size_newTable _ _).symm
    · exact Heap.table_newTable_same _ _
    · exact fun p hp => (hvalues p hp).mono (Heap.extends_newTable _ _)
    · have hheld := Heap.holds_of_zip ((List.length_map _).trans hlength) hvalues
      exact Heap.Apart.mono hheld hapart (Heap.extends_newTable _ _)

end Json
end LuaHost
