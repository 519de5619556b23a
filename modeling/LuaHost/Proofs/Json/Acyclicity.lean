import LuaHost.Proofs.Json.Encoding
import Mathlib.Data.List.Nodup
import Mathlib.Data.List.Perm.Subperm
import Mathlib.Logic.Relation

/-!
# LuaHost.Proofs.Json.Acyclicity

A value has JSON exactly if it leads to no cycle, and to nothing that has no form in JSON.

* `Heap.Visits`: one step of the encoding, from a table to what is in it.
* `Heap.encode_of_room`: the bound on the nesting is never met, so it decides nothing.
* `Heap.Encodes.acyclic`, `Heap.exists_encode`: values that have JSON lead to no cycle, and values that
  lead to none are encoded.
* `Heap.exists_cycle_of_encode`: a cycle is reported only where there is one.
* `Heap.toJson_eq_ok_iff`: the JSON of a value is the one that it is related to.
-/

namespace LuaHost

/-! ## Scalars -/

/-- Tables have JSON or not with what is in them. -/
def Value.HasJson : Value → Prop
  | .float x => x.isFinite = true
  | .function _ => False
  | .userdata _ => False
  | _ => True

theorem Value.exists_scalarJson {v : Value} (hv : ∀ t, v ≠ .table t) :
    (∃ j, v.scalarJson = .ok j) ↔ v.HasJson := by
  cases v with
  | float x =>
    simp only [scalarJson, JsonNumber.ofDouble?, HasJson]
    by_cases hx : x.isFinite = true
    · rw [dif_pos hx]
      exact ⟨fun _ => hx, fun _ => ⟨_, rfl⟩⟩
    · rw [dif_neg hx]
      exact ⟨nofun, fun hfinite => absurd hfinite hx⟩
  | table t => exact absurd rfl (hv t)
  | function f => exact ⟨nofun, nofun⟩
  | userdata u => exact ⟨nofun, nofun⟩
  | _ => exact ⟨fun _ => trivial, fun _ => ⟨_, rfl⟩⟩

theorem Value.exists_runtime_of_scalarJson {v : Value} {e : Error} (h : v.scalarJson = .error e) :
    ∃ r, e = .runtime r ∧ (r = .circularReference → ∃ t, v = .table t) := by
  cases v with
  | float x =>
    simp only [scalarJson] at h
    split at h
    · cases h
    · cases h
      exact ⟨_, rfl, nofun⟩
  | table t =>
    cases h
    exact ⟨_, rfl, fun _ => ⟨t, rfl⟩⟩
  | function f =>
    cases h
    exact ⟨_, rfl, nofun⟩
  | userdata u =>
    cases h
    exact ⟨_, rfl, nofun⟩
  | _ => cases h

namespace Heap

/-! ## Visited values -/

/-- The encoding goes from a table to its contents. -/
def Visits (h : Heap) (v w : Value) : Prop := ∃ t, v = .table t ∧ w ∈ h.contents t

variable {h : Heap}

theorem eq_of_visits_scalar {v w : Value} (hreach : Relation.ReflTransGen h.Visits v w)
    (hv : ∀ t, v ≠ .table t) : w = v := by
  cases hreach.cases_head with
  | inl heq => exact heq.symm
  | inr hstep =>
    obtain ⟨c, ⟨t, ht, _⟩, _⟩ := hstep
    exact absurd ht (hv t)

theorem Encodes.hasJson {v w : Value} {j : Json} (hv : h.Encodes v j)
    (hreach : Relation.ReflTransGen h.Visits v w) : w.HasJson := by
  induction hv with
  | @scalar v j hscalar =>
    have htable (t : TableId) : v ≠ .table t := by
      rintro rfl
      cases hscalar
    rw [eq_of_visits_scalar hreach htable]
    exact (Value.exists_scalarJson htable).1 ⟨_, hscalar⟩
  | table json hcontents ih =>
    cases hreach.cases_head with
    | inl heq =>
      rw [← heq]
      trivial
    | inr hstep =>
      obtain ⟨c, ⟨t, ht, hc⟩, hrest⟩ := hstep
      cases ht
      exact ih c hc hrest

/-- A cycle through a table would come back to one of its contents, which is encoded before it. -/
theorem Encodes.acyclic {v : Value} {j : Json} (hv : h.Encodes v j) {t : TableId}
    (hreach : Relation.ReflTransGen h.Visits v (.table t)) :
    ¬ Relation.TransGen h.Visits (.table t) (.table t) := by
  induction hv with
  | @scalar v j hscalar =>
    have htable (t : TableId) : v ≠ .table t := by
      rintro rfl
      cases hscalar
    exact absurd (eq_of_visits_scalar hreach htable).symm (htable t)
  | table json hcontents ih =>
    cases hreach.cases_head with
    | inl heq =>
      cases heq
      intro hcyclic
      obtain ⟨c, ⟨t, ht, hc⟩, hback⟩ := Relation.TransGen.head'_iff.1 hcyclic
      cases ht
      exact ih c hc hback hcyclic
    | inr hstep =>
      obtain ⟨c, ⟨t, ht, hc⟩, hrest⟩ := hstep
      cases ht
      exact ih c hc hrest

/-! ## Paths -/

/-- The tables that the encoding is inside of: each of them once, and all of them allocated. -/
structure IsPath (h : Heap) (path : List TableId) : Prop where
  nodup : path.Nodup
  allocated : ∀ t ∈ path, t.index < h.tables.size

theorem isPath_nil : h.IsPath [] := ⟨.nil, nofun⟩

theorem IsPath.length_le {path : List TableId} (hpath : h.IsPath path) :
    path.length ≤ h.tables.size := by
  have hindices : (path.map TableId.index).Nodup := by
    refine hpath.nodup.map ?_
    intro a b heq
    cases a
    cases b
    exact congrArg TableId.mk heq
  have hsub : path.map TableId.index ⊆ List.range h.tables.size := by
    intro i hi
    obtain ⟨t, ht, rfl⟩ := List.mem_map.1 hi
    exact List.mem_range.2 (hpath.allocated t ht)
  have hlength := (hindices.subperm hsub).length_le
  rwa [List.length_map, List.length_range] at hlength

/-- What holds of the empty table and of the allocated ones holds of all. -/
theorem forall_table {P : Table → Prop} (hempty : P {}) (hall : ∀ i < h.tables.size, P (h.table ⟨i⟩))
    (t : TableId) : P (h.table t) := by
  rcases Nat.lt_or_ge t.index h.tables.size with hlt | hge
  · exact hall t.index hlt
  · rw [table_of_size_le hge]
    exact hempty

theorem contents_of_size_le {t : TableId} (ht : h.tables.size ≤ t.index) : h.contents t = [] := by
  simp only [contents, table_of_size_le ht]
  rfl

/-- A table that was never allocated has nothing in it, so the path goes on only inside the others. -/
theorem IsPath.cons {path : List TableId} (hpath : h.IsPath path) {t : TableId} (ht : t ∉ path)
    (hcontents : h.contents t ≠ []) : h.IsPath (t :: path) := by
  refine ⟨List.nodup_cons.2 ⟨ht, hpath.nodup⟩, ?_⟩
  intro u hu
  rcases List.mem_cons.1 hu with rfl | hu
  · by_contra hsize
    exact hcontents (contents_of_size_le (Nat.le_of_not_lt hsize))
  · exact hpath.allocated u hu

/-! ## The bound -/

/-- There is room for every allocated table that is not on the path, and for one that is empty. -/
def HasRoom (h : Heap) (bound : Nat) (path : List TableId) : Prop :=
  h.tables.size + 1 ≤ bound + path.length

theorem HasRoom.exists_succ {bound : Nat} {path : List TableId} (hroom : h.HasRoom bound path)
    (hpath : h.IsPath path) : ∃ rest, bound = rest + 1 := by
  have hlength := hpath.length_le
  unfold HasRoom at hroom
  exact ⟨bound - 1, by omega⟩

theorem HasRoom.cons {bound : Nat} {path : List TableId} (hroom : h.HasRoom (bound + 1) path)
    (t : TableId) : h.HasRoom bound (t :: path) := by
  unfold HasRoom at hroom ⊢
  rw [List.length_cons]
  omega

theorem encode_of_room {bound bound' : Nat} {path : List TableId} (hpath : h.IsPath path)
    (hroom : h.HasRoom bound path) (hroom' : h.HasRoom bound' path) (v : Value) :
    h.encode bound path v = h.encode bound' path v := by
  induction bound generalizing bound' path v with
  | zero =>
    obtain ⟨_, hzero⟩ := hroom.exists_succ hpath
    cases hzero
  | succ bound ih =>
    obtain ⟨bound', rfl⟩ := hroom'.exists_succ hpath
    by_cases hv : ∃ t, v = .table t
    · obtain ⟨t, rfl⟩ := hv
      by_cases ht : t ∈ path
      · rw [encode_of_mem ht, encode_of_mem ht]
      · rw [encode_table ht, encode_table ht]
        congr 1
        refine mapM_congr_left fun w hw => ?_
        exact ih (hpath.cons ht (List.ne_nil_of_mem hw)) (hroom.cons t) (hroom'.cons t) w
    · rw [encode_scalar (not_exists.1 hv), encode_scalar (not_exists.1 hv)]

theorem encode_eq_toJson {bound : Nat} (hbound : h.tables.size + 1 ≤ bound) (v : Value) :
    h.encode bound [] v = h.toJson v :=
  encode_of_room isPath_nil hbound (Nat.le_refl _) v

/-! ## Success and failure -/

/-- No table of the path is met again: the induction needs it of the path that leads to the contents. -/
theorem exists_encode {bound : Nat} {path : List TableId} {v : Value} (hpath : h.IsPath path)
    (hroom : h.HasRoom bound path)
    (hnew : ∀ t ∈ path, ¬ Relation.ReflTransGen h.Visits v (.table t))
    (hacyclic : ∀ t, Relation.ReflTransGen h.Visits v (.table t) →
      ¬ Relation.TransGen h.Visits (.table t) (.table t))
    (hjson : ∀ w, Relation.ReflTransGen h.Visits v w → w.HasJson) :
    ∃ j, h.encode bound path v = .ok j := by
  induction bound generalizing path v with
  | zero =>
    obtain ⟨_, hzero⟩ := hroom.exists_succ hpath
    cases hzero
  | succ bound ih =>
    by_cases hv : ∃ t, v = .table t
    · obtain ⟨t, rfl⟩ := hv
      have ht : t ∉ path := fun hmem => hnew t hmem .refl
      have hcontents : ∀ w ∈ h.contents t, ∃ j, h.encode bound (t :: path) w = .ok j := by
        intro w hw
        have hstep : h.Visits (.table t) w := ⟨t, rfl, hw⟩
        refine ih (hpath.cons ht (List.ne_nil_of_mem hw)) (hroom.cons t) ?_ ?_ ?_
        · intro u hu hreach
          rcases List.mem_cons.1 hu with rfl | hu
          · exact hacyclic u .refl (.head' hstep hreach)
          · exact hnew u hu (.head hstep hreach)
        · exact fun u hreach => hacyclic u (.head hstep hreach)
        · exact fun u hreach => hjson u (.head hstep hreach)
      choose! json hjson using hcontents
      exact ⟨_, encode_table_of_ok ht hjson⟩
    · have hscalar := not_exists.1 hv
      rw [encode_scalar hscalar]
      exact (Value.exists_scalarJson hscalar).2 (hjson v .refl)

/-- A reported cycle goes through a table of the path, or is met on the way. -/
theorem exists_cycle_of_encode {bound : Nat} {path : List TableId} {v : Value}
    (hpath : h.IsPath path) (hroom : h.HasRoom bound path)
    (herror : h.encode bound path v = .error (.runtime .circularReference)) :
    ∃ t, Relation.ReflTransGen h.Visits v (.table t) ∧
      (t ∈ path ∨ Relation.TransGen h.Visits (.table t) (.table t)) := by
  induction bound generalizing path v with
  | zero =>
    obtain ⟨_, hzero⟩ := hroom.exists_succ hpath
    cases hzero
  | succ bound ih =>
    by_cases hv : ∃ t, v = .table t
    · obtain ⟨t, rfl⟩ := hv
      by_cases ht : t ∈ path
      · exact ⟨t, .refl, .inl ht⟩
      · obtain ⟨w, hw, hfail⟩ := encode_table_error herror ht
        have hstep : h.Visits (.table t) w := ⟨t, rfl, hw⟩
        obtain ⟨u, hreach, hu⟩ :=
          ih (hpath.cons ht (List.ne_nil_of_mem hw)) (hroom.cons t) hfail
        rcases hu with hu | hu
        · rcases List.mem_cons.1 hu with rfl | hu
          · exact ⟨u, .refl, .inr (.head' hstep hreach)⟩
          · exact ⟨u, .head hstep hreach, .inl hu⟩
        · exact ⟨u, .head hstep hreach, .inr hu⟩
    · rw [encode_scalar (not_exists.1 hv)] at herror
      obtain ⟨_, hruntime, htable⟩ := Value.exists_runtime_of_scalarJson herror
      cases hruntime
      exact absurd (htable rfl) hv

theorem toJson_eq_ok_iff {v : Value} {j : Json} : h.toJson v = .ok j ↔ h.Encodes v j := by
  refine ⟨encodes_of_encode, fun hv => ?_⟩
  obtain ⟨j', hj'⟩ := exists_encode isPath_nil (Nat.le_refl _) nofun (fun t => hv.acyclic)
    (fun w => hv.hasJson)
  rw [hv.unique (encodes_of_encode hj')]
  exact hj'

theorem exists_runtime_of_encode {bound : Nat} {path : List TableId} {v : Value} {e : Error}
    (herror : h.encode bound path v = .error e) : ∃ r, e = .runtime r := by
  induction bound generalizing path v with
  | zero =>
    obtain ⟨r, hr, _⟩ := Value.exists_runtime_of_scalarJson herror
    exact ⟨r, hr⟩
  | succ bound ih =>
    by_cases hv : ∃ t, v = .table t
    · obtain ⟨t, rfl⟩ := hv
      by_cases ht : t ∈ path
      · rw [encode_of_mem ht] at herror
        cases herror
        exact ⟨_, rfl⟩
      · obtain ⟨w, _, hfail⟩ := encode_table_error herror ht
        exact ih hfail
    · rw [encode_scalar (not_exists.1 hv)] at herror
      obtain ⟨r, hr, _⟩ := Value.exists_runtime_of_scalarJson herror
      exact ⟨r, hr⟩

end Heap
end LuaHost
