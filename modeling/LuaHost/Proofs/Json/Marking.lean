import LuaHost.Proofs.Json.Acyclicity
import LuaHost.Proofs.Json.Members
import Mathlib.Data.Finset.Basic

/-!
# LuaHost.Proofs.Json.Marking

The encoding with one set of marks in place of the path: a table is marked when the encoding enters it,
and the mark is taken off when the encoding leaves it, with JSON or with an error.

* `Marking.Restores`: a step that leaves the marks as it found them.
* `Heap.encodeMarking`: the encoding that changes the marks as it goes.
* `Heap.restores_encodeMarking`: it gives what the encoding inside a path gives, and restores the marks.
* `Heap.encodeMarking_eq_toJson`: without marks it gives the JSON of the value, and leaves none.
-/

namespace LuaHost

/-- A step of the encoding: what it gives, which may be an error, and the marks that it leaves. -/
abbrev Marking := ExceptT Error (StateM (Finset TableId))

namespace Marking

variable {α β : Type} {marked : Finset TableId}

/-- Inside of a table: its mark stands until the encoding leaves it. -/
def inside (t : TableId) (x : Marking α) : Marking α :=
  ExceptT.mk fun marked =>
    if t ∈ marked then (.error (.runtime .circularReference), marked)
    else
      let (result, marked') := x.run.run (insert t marked)
      (result, marked'.erase t)

/-- From these marks on the step gives the result, and leaves the marks as it found them. -/
def Restores (x : Marking α) (marked : Finset TableId) (result : Except Error α) : Prop :=
  x.run.run marked = (result, marked)

theorem restores_liftExcept (result : Except Error α) :
    Restores (liftExcept result) marked result := by
  cases result with
  | error e => rfl
  | ok a => rfl

theorem Restores.bind {x : Marking α} {result : Except Error α} {f : α → Marking β}
    {g : α → Except Error β} (hx : Restores x marked result)
    (hf : ∀ a, Restores (f a) marked (g a)) : Restores (x >>= f) marked (result >>= g) := by
  unfold Restores at hx ⊢
  rw [ExceptT.run_bind, StateT.run_bind, hx]
  cases result with
  | error e => rfl
  | ok a => exact hf a

theorem Restores.mapM {f : α → Marking β} {g : α → Except Error β}
    (h : ∀ a, Restores (f a) marked (g a)) (as : List α) :
    Restores (as.mapM f) marked (as.mapM g) := by
  induction as with
  | nil => rfl
  | cons a rest ih =>
    rw [List.mapM_cons, List.mapM_cons]
    exact (h a).bind fun b => ih.bind fun bs => rfl

theorem Restores.foldlM {f : β → α → Marking β} {g : β → α → Except Error β}
    (h : ∀ b a, Restores (f b a) marked (g b a)) (as : List α) (b : β) :
    Restores (as.foldlM f b) marked (as.foldlM g b) := by
  induction as generalizing b with
  | nil => rfl
  | cons a rest ih =>
    rw [List.foldlM_cons, List.foldlM_cons]
    exact (h b a).bind ih

theorem restores_inside_of_mem {t : TableId} (ht : t ∈ marked) (x : Marking α) :
    Restores (inside t x) marked (.error (.runtime .circularReference)) :=
  if_pos ht

/-- The mark that is taken off is the one that was set, since the table had none. -/
theorem Restores.inside {t : TableId} {x : Marking α} {result : Except Error α}
    (hx : Restores x (insert t marked) result) (ht : t ∉ marked) :
    Restores (inside t x) marked result := by
  have hrun : x (insert t marked) = (result, insert t marked) := hx
  show (if t ∈ marked then _ else ((x (insert t marked)).1, (x (insert t marked)).2.erase t)) = _
  rw [if_neg ht, hrun, Finset.erase_insert ht]

end Marking

namespace Heap

/-- The member of an entry goes to its place; a key that has no name is passed over with its value. -/
def placeMember {m : Type → Type} [Monad m] (encode : Value → m Json)
    (sorted : List (String × Json)) : Value × Value → m (List (String × Json))
  | (key, value) =>
    match key.memberName? with
    | none => pure sorted
    | some name => do
      let json ← encode value
      pure (Json.insertMember name json sorted)

/-- The JSON of a value from marks on, where at most `bound` tables are nested. -/
def encodeMarking (h : Heap) : (bound : Nat) → Value → Marking Json
  | 0, v => liftExcept v.scalarJson
  | bound + 1, v =>
    match v with
    | .table t => Marking.inside t do
      if (h.table t).isSequence then
        let elements ← (h.table t).sequence.mapM (encodeMarking h bound)
        pure (.array elements)
      else
        let members ← (h.table t).entries.foldlM (placeMember (encodeMarking h bound)) []
        pure (.object members)
    | v => liftExcept v.scalarJson

/-! ## Members, one by one and all at once -/

theorem restores_placeMember {marked : Finset TableId} {encode : Value → Marking Json}
    {encode' : Value → Except Error Json}
    (h : ∀ v, Marking.Restores (encode v) marked (encode' v)) (sorted : List (String × Json))
    (entry : Value × Value) :
    Marking.Restores (placeMember encode sorted entry) marked (placeMember encode' sorted entry) := by
  obtain ⟨key, value⟩ := entry
  simp only [placeMember]
  cases key.memberName? with
  | none => rfl
  | some name => exact (h value).bind fun json => rfl

/-- An entry without a name has no member, so it makes no difference to those after it. -/
theorem foldlM_placeMember (t : Table) (encode : Value → Except Error Json)
    (sorted : List (String × Json)) :
    t.entries.foldlM (placeMember encode) sorted = (do
      let members ← t.members.mapM fun (name, value) => do
        let json ← encode value
        pure (name, json)
      pure (Json.insertAll sorted members)) := by
  obtain ⟨entries, metatable⟩ := t
  simp only [Table.members]
  induction entries generalizing sorted with
  | nil => rfl
  | cons entry rest ih =>
    obtain ⟨key, value⟩ := entry
    rw [List.foldlM_cons, List.filterMap_cons]
    simp only [placeMember]
    cases key.memberName? with
    | none => exact ih sorted
    | some name =>
      rw [Option.map_some, List.mapM_cons]
      cases encode value with
      | error e => rfl
      | ok json =>
        simp only [pure_bind, bind_assoc, Json.insertAll_cons]
        exact ih (Json.insertMember name json sorted)

theorem object_placeMember (t : Table) (encode : Value → Except Error Json) :
    (do
      let members ← t.entries.foldlM (placeMember encode) []
      pure (Json.object members)) = (do
      let members ← t.members.mapM fun (name, value) => do
        let json ← encode value
        pure (name, json)
      pure (Json.objectOf members)) := by
  rw [foldlM_placeMember]
  simp only [bind_assoc, pure_bind, Json.objectOf_eq]

/-! ## Marks and paths -/

variable {h : Heap}

/-- The marked tables are those of the path: one more while the contents of a table are encoded, and the
same as before once they have been. -/
theorem restores_encodeMarking (bound : Nat) (path : List TableId) (v : Value) :
    Marking.Restores (h.encodeMarking bound v) path.toFinset (h.encode bound path v) := by
  induction bound generalizing path v with
  | zero => exact Marking.restores_liftExcept _
  | succ bound ih =>
    cases v with
    | table t =>
      simp only [encodeMarking, encode]
      by_cases ht : t ∈ path
      · rw [if_pos ht]
        exact Marking.restores_inside_of_mem (List.mem_toFinset.2 ht) _
      · rw [if_neg ht]
        refine Marking.Restores.inside ?_ fun hmem => ht (List.mem_toFinset.1 hmem)
        rw [← List.toFinset_cons]
        have hcontents := ih (t :: path)
        split
        · exact (Marking.Restores.mapM hcontents _).bind fun elements => rfl
        · rw [← object_placeMember]
          exact (Marking.Restores.foldlM (restores_placeMember hcontents) _ []).bind fun members => rfl
    | _ =>
      simp only [encodeMarking, encode]
      exact Marking.restores_liftExcept _

/-- **Marks answer as paths do.** With any bound past the number of tables the encoding gives the JSON of
the value, or its error, and either way it has taken off every mark. -/
theorem encodeMarking_eq_toJson {bound : Nat} (hbound : h.tables.size + 1 ≤ bound) (v : Value) :
    (h.encodeMarking bound v).run.run ∅ = (h.toJson v, ∅) := by
  have hrun := restores_encodeMarking (h := h) bound [] v
  rw [encode_eq_toJson hbound] at hrun
  exact hrun

end Heap
end LuaHost
