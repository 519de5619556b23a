import LuaHost.Json.Bridge
import LuaHost.Proofs.Heap.Cells

/-!
# LuaHost.Proofs.Json.Encoding

The JSON of a value as a relation, which knows neither the path that leads to the value nor a bound on
the nesting.

* `Heap.contents`: the values of a table that become elements or members.
* `Heap.Encodes`: a value and its JSON, table by table.
* `Heap.encode_table_ok`, `Heap.encode_table_error`: what one table does to the encoding.
* `Heap.encodes_of_encode`: whatever is encoded is encoded so.
* `Heap.Encodes.unique`: a value has one JSON.
-/

namespace LuaHost

/-! ## Lists of fallible steps -/

section

variable {ε α β : Type}

theorem mapM_of_ok {f : α → Except ε β} {g : α → β} {as : List α} (h : ∀ a ∈ as, f a = .ok (g a)) :
    as.mapM f = .ok (as.map g) := by
  induction as with
  | nil => rfl
  | cons a rest ih =>
    have hrest := ih fun b hb => h b (List.mem_cons_of_mem a hb)
    rw [List.mapM_cons, h a (List.mem_cons_self ..), hrest]
    rfl

theorem exists_map_of_mapM [Inhabited β] {f : α → Except ε β} {as : List α} {bs : List β}
    (h : as.mapM f = .ok bs) : ∃ g : α → β, (∀ a ∈ as, f a = .ok (g a)) ∧ bs = as.map g := by
  have hsteps : ∀ a ∈ as, ∃ b, f a = .ok b := by
    induction as generalizing bs with
    | nil => nofun
    | cons a rest ih =>
      rw [List.mapM_cons] at h
      cases ha : f a with
      | error e =>
        rw [ha] at h
        cases h
      | ok b =>
        rw [ha] at h
        cases hrest : rest.mapM f with
        | error e =>
          rw [hrest] at h
          cases h
        | ok bs =>
          intro c hc
          rcases List.mem_cons.1 hc with rfl | hc
          · exact ⟨b, ha⟩
          · exact ih hrest c hc
  have hchoice : ∀ a ∈ as, f a = .ok ((f a).toOption.getD default) := by
    intro a ha
    obtain ⟨b, hb⟩ := hsteps a ha
    rw [hb]
    rfl
  have hmap := mapM_of_ok hchoice
  rw [h] at hmap
  exact ⟨_, hchoice, Except.ok.inj hmap⟩

theorem exists_error_of_mapM {f : α → Except ε β} {as : List α} {e : ε}
    (h : as.mapM f = .error e) : ∃ a ∈ as, f a = .error e := by
  induction as with
  | nil => cases h
  | cons a rest ih =>
    rw [List.mapM_cons] at h
    cases ha : f a with
    | error e' =>
      rw [ha] at h
      cases h
      exact ⟨a, List.mem_cons_self .., ha⟩
    | ok b =>
      rw [ha] at h
      cases hrest : rest.mapM f with
      | error e' =>
        rw [hrest] at h
        cases h
        obtain ⟨c, hc, hfail⟩ := ih hrest
        exact ⟨c, List.mem_cons_of_mem a hc, hfail⟩
      | ok bs =>
        rw [hrest] at h
        cases h

theorem mapM_congr_left {f g : α → Except ε β} {as : List α} (h : ∀ a ∈ as, f a = g a) :
    as.mapM f = as.mapM g := by
  induction as with
  | nil => rfl
  | cons a rest ih =>
    have hrest := ih fun b hb => h b (List.mem_cons_of_mem a hb)
    rw [List.mapM_cons, List.mapM_cons, h a (List.mem_cons_self ..), hrest]

theorem mapM_named (f : α → Except ε β) (members : List (String × α)) :
    (members.mapM fun (name, a) => do
      let b ← f a
      pure (name, b)) = (do
      let bs ← (members.map Prod.snd).mapM f
      pure ((members.map Prod.fst).zip bs)) := by
  induction members with
  | nil => rfl
  | cons member rest ih =>
    obtain ⟨name, a⟩ := member
    simp only [List.mapM_cons, List.map_cons, ih]
    cases f a with
    | error e => rfl
    | ok b => cases (rest.map Prod.snd).mapM f with
      | error e => rfl
      | ok bs => rfl

end

namespace Heap

/-! ## The contents of a table -/

/-- The values that become the elements of an array, or the members of an object. -/
def contents (h : Heap) (t : TableId) : List Value :=
  if (h.table t).isSequence then (h.table t).sequence else (h.table t).members.map Prod.snd

/-- The JSON of a table, from the JSON of its contents. -/
def tableJson (h : Heap) (t : TableId) (contents : List Json) : Json :=
  if (h.table t).isSequence then .array contents
  else Json.objectOf (((h.table t).members.map Prod.fst).zip contents)

theorem tableJson_of_not_isSequence {h : Heap} {t : TableId} (hseq : ¬ (h.table t).isSequence = true)
    (json : Value → Json) : h.tableJson t ((h.contents t).map json) =
      Json.objectOf ((h.table t).members.map fun m => (m.1, json m.2)) := by
  rw [tableJson, if_neg hseq, contents, if_neg hseq, List.map_map, List.zip_map']
  rfl

/-- A value and its JSON. -/
inductive Encodes (h : Heap) : Value → Json → Prop where
  | scalar {v : Value} {j : Json} (hscalar : v.scalarJson = .ok j) : Encodes h v j
  | table {t : TableId} (json : Value → Json)
      (hcontents : ∀ w ∈ h.contents t, Encodes h w (json w)) :
      Encodes h (.table t) (h.tableJson t ((h.contents t).map json))

variable {h : Heap}

/-! ## One table -/

theorem encode_of_mem {t : TableId} {path : List TableId} (ht : t ∈ path) (bound : Nat) :
    h.encode bound path (.table t) = .error (.runtime .circularReference) := by
  cases bound with
  | zero => rfl
  | succ bound => simp only [encode, if_pos ht]

theorem encode_scalar {v : Value} (hv : ∀ t, v ≠ .table t) (bound : Nat) (path : List TableId) :
    h.encode bound path v = v.scalarJson := by
  cases bound with
  | zero => rfl
  | succ bound =>
    cases v with
    | table t => exact absurd rfl (hv t)
    | _ => rfl

theorem encode_table {t : TableId} {path : List TableId} (ht : t ∉ path) (bound : Nat) :
    h.encode (bound + 1) path (.table t) = (do
      let contents ← (h.contents t).mapM (h.encode bound (t :: path))
      pure (h.tableJson t contents)) := by
  unfold contents tableJson
  simp only [encode, if_neg ht]
  split
  · rfl
  · rw [mapM_named]
    cases ((h.table t).members.map Prod.snd).mapM (h.encode bound (t :: path)) with
    | error e => rfl
    | ok contents => rfl

theorem encode_table_of_ok {bound : Nat} {path : List TableId} {t : TableId} (ht : t ∉ path)
    {json : Value → Json} (hall : ∀ w ∈ h.contents t, h.encode bound (t :: path) w = .ok (json w)) :
    h.encode (bound + 1) path (.table t) = .ok (h.tableJson t ((h.contents t).map json)) := by
  rw [encode_table ht, mapM_of_ok hall]
  rfl

theorem encode_table_ok {bound : Nat} {path : List TableId} {t : TableId} {j : Json}
    (hok : h.encode (bound + 1) path (.table t) = .ok j) : t ∉ path ∧ ∃ json : Value → Json,
      (∀ w ∈ h.contents t, h.encode bound (t :: path) w = .ok (json w)) ∧
      j = h.tableJson t ((h.contents t).map json) := by
  have ht : t ∉ path := by
    intro hmem
    rw [encode_of_mem hmem] at hok
    cases hok
  rw [encode_table ht] at hok
  cases hcontents : (h.contents t).mapM (h.encode bound (t :: path)) with
  | error e =>
    rw [hcontents] at hok
    cases hok
  | ok contents =>
    rw [hcontents] at hok
    cases hok
    obtain ⟨json, hjson, rfl⟩ := exists_map_of_mapM hcontents
    exact ⟨ht, json, hjson, rfl⟩

theorem encode_table_error {bound : Nat} {path : List TableId} {t : TableId} {e : Error}
    (herror : h.encode (bound + 1) path (.table t) = .error e) (ht : t ∉ path) :
    ∃ w ∈ h.contents t, h.encode bound (t :: path) w = .error e := by
  rw [encode_table ht] at herror
  cases hcontents : (h.contents t).mapM (h.encode bound (t :: path)) with
  | error e' =>
    rw [hcontents] at herror
    cases herror
    exact exists_error_of_mapM hcontents
  | ok contents =>
    rw [hcontents] at herror
    cases herror

/-! ## Encoding and the relation -/

theorem encodes_of_encode {bound : Nat} {path : List TableId} {v : Value} {j : Json}
    (hok : h.encode bound path v = .ok j) : h.Encodes v j := by
  induction bound generalizing path v j with
  | zero => exact .scalar hok
  | succ bound ih =>
    by_cases hv : ∃ t, v = .table t
    · obtain ⟨t, rfl⟩ := hv
      obtain ⟨_, json, hcontents, rfl⟩ := encode_table_ok hok
      exact .table json fun w hw => ih (hcontents w hw)
    · rw [encode_scalar (not_exists.1 hv)] at hok
      exact .scalar hok

theorem Encodes.unique {v : Value} {j j' : Json} (hv : h.Encodes v j) (hv' : h.Encodes v j') :
    j = j' := by
  induction hv generalizing j' with
  | scalar hscalar =>
    cases hv' with
    | scalar hscalar' =>
      rw [hscalar] at hscalar'
      exact Except.ok.inj hscalar'
    | table json hcontents => cases hscalar
  | table json hcontents ih =>
    cases hv' with
    | scalar hscalar => cases hscalar
    | table json' hcontents' =>
      rw [List.map_congr_left fun w hw => ih w hw (hcontents' w hw)]

end Heap
end LuaHost
