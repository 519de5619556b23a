import LuaHost.Proofs.Host.Run

/-!
# LuaHost.Proofs.Host.Protection

Metatables that protect themselves.

* `Heap.Guarded`: a value whose metatable holds a given field under the protecting name.
* `Request.Spares`: a request that assigns neither the field nor, past its protection, the slot.
* `Heap.Guarded.changes`: such a request leaves the value guarded by the same field.
* `metatable_protected`: no run replaces a protected metatable, whatever its requests and the functions
  that they call; and replacing one that is not protected changes its slot only.
-/

namespace LuaHost

open Operation

/-! ## Guarded values -/

/-- The metatable of the value is `m`, which holds the field under the name that protects it. -/
structure Heap.Guarded (v : Value) (m : TableId) (field : Value) (h : Heap) : Prop where
  slot : h.metatable? v = some m
  held : (h.table m).getString Metafield.metatable.name = field

/-- The request, asked in the heap, does not itself assign the protecting field of `m`, nor the metatable
of `v` where no protection is asked for. -/
def Request.Spares (v : Value) (m : TableId) (request : Request) (h : Heap) : Prop :=
  match request with
  | .editTable t edit => t = m → ∀ value, edit ≠ .set (.string Metafield.metatable.name) value
  | .assignMetatable t _ => v ≠ .table t
  | .newIndex u key _ =>
    h.assignee? key defaultHopLimit u = some m → key ≠ .string Metafield.metatable.name
  | _ => True

/-- In this world the metatable of the value is `m`, programs see the field in its place, and they cannot
replace it. -/
structure World.Protects (w : World) (v : Value) (m : TableId) (field : Value) : Prop where
  slot : w.heap.metatable? v = some m
  seen : w.heap.getMetatable v = field
  refused : ∀ metatable, setMetatable v metatable w =
    (.error .protectedMetatable, { w with events := w.events.push (.keepingProtected v.kind) })

namespace Heap.Guarded

variable {v : Value} {m : TableId} {field : Value} {h : Heap} (hg : h.Guarded v m field)
include hg

theorem metafield : h.metafield v Metafield.metatable.name = field := by
  rw [Heap.metafield, hg.slot]
  exact hg.held

/-- Replacing one table keeps the guard, if the slot and the field are kept where the table has them. -/
theorem setTable {t : TableId} {table : Table}
    (hslot : v = .table t → table.metatable = (h.table t).metatable)
    (hheld : t = m → table.getString Metafield.metatable.name =
      (h.table m).getString Metafield.metatable.name) :
    (h.setTable t table).Guarded v m field where
  slot := (metatable?_setTable hslot).trans hg.slot
  held := by
    by_cases hm : t = m
    · rw [hm, h.table_setTable_same, hheld hm]
      exact hg.held
    · rw [h.table_setTable_other table (Ne.symm hm)]
      exact hg.held

theorem setUserdata {u : UserdataId} {data : Userdata}
    (hslot : v = .userdata u → data.metatable = (h.userdata u).metatable) :
    (h.setUserdata u data).Guarded v m field where
  slot := (metatable?_setUserdata hslot).trans hg.slot
  held := hg.held

theorem setShifted {t : TableId} {table : Table} (hshifts : (h.table t).Shifts table) :
    (h.setTable t table).Guarded v m field := by
  refine hg.setTable (fun _ => (Table.stable_metatable _).shifts rfl hshifts) ?_
  rintro rfl
  exact (Table.stable_getString _ _).shifts rfl hshifts

variable (hfield : field ≠ .nil)
include hfield

/-- A table that holds a field was allocated before, so the new table is another. -/
theorem newTable (table : Table) : (h.newTable table).2.Guarded v m field where
  slot := metatable?_newTable_of_some hg.slot table
  held := by
    have hallocated : h.table m ≠ {} := by
      intro hempty
      have hheld := hg.held
      rw [hempty] at hheld
      exact hfield hheld.symm
    rw [table_newTable_of_ne_empty hallocated]
    exact hg.held

theorem changes {request : Request} {h' : Heap} (hspares : request.Spares v m h)
    (hchange : request.Changes h h') : h'.Guarded v m field := by
  -- a value that is not protected is another one
  have hother {u : Value} (hnil : h.metafield u Metafield.metatable.name = .nil) : v ≠ u := by
    rintro rfl
    exact hfield (hg.metafield.symm.trans hnil)
  cases hchange with
  | newTable values => exact hg.newTable hfield _
  | fromJson json =>
    exact Json.preserved_toValue (P := Heap.Guarded v m field)
      (fun _ table _ hg => hg.newTable hfield table) json hg
  | editTable hedit =>
    refine hg.setTable (fun _ => Table.metatable_apply hedit) ?_
    rintro rfl
    exact Table.getString_apply (hspares rfl) hedit
  | assignMetatable t metatable =>
    refine hg.setTable (fun hv => absurd hv hspares) ?_
    rintro rfl
    rfl
  | writePayload u payload => exact hg.setUserdata fun _ => rfl
  | setTableMetatable hnil =>
    refine hg.setTable (fun hv => absurd hv (hother hnil)) ?_
    rintro rfl
    rfl
  | setUserdataMetatable hnil => exact hg.setUserdata fun hv => absurd hv (hother hnil)
  | newIndex hassignee hset =>
    refine hg.setTable (fun _ => (Table.set_other hset).1) ?_
    rintro rfl
    exact Table.getString_set (hspares hassignee) hset
  | pairs u => exact ⟨hg.slot, hg.held⟩
  | ipairs u => exact ⟨hg.slot, hg.held⟩

end Heap.Guarded

theorem Heap.Guarded.protects {v : Value} {m : TableId} {field : Value} {w : World}
    (hg : w.heap.Guarded v m field) (hfield : field ≠ .nil) : w.Protects v m field where
  slot := hg.slot
  seen := by
    rw [Heap.getMetatable, hg.slot]
    simp only [hg.held]
  refused metatable := by
    have hnil : (!(w.heap.metafield v Metafield.metatable.name).isNil) = true := by
      rw [hg.metafield]
      cases field with
      | nil => exact absurd rfl hfield
      | _ => rfl
    rw [setMetatable, getHeap_bind, if_pos hnil]
    rfl

theorem keptBy_guarded {v : Value} {m : TableId} {field : Value} (hfield : field ≠ .nil) :
    KeptBy (Heap.Guarded v m field) (Request.Spares v m) := by
  intro invoke request w hinvoke hg hspares
  refine preserved_answer hg hinvoke (fun _ _ _ hshifts hg => hg.setShifted hshifts) ?_
  exact fun h' hchange => hg.changes hfield hspares hchange

/-! ## Values that are not protected -/

/-- The second heap is the first but for the metatable of one value. -/
structure Heap.SameButSlot (h h' : Heap) (v : Value) : Prop where
  entries : ∀ t, (h'.table t).entries = (h.table t).entries
  payloads : ∀ u, h'.payload u = h.payload u
  functions : h'.functions = h.functions
  slots : ∀ y, y ≠ v → h'.metatable? y = h.metatable? y

namespace Heap

theorem sameButSlot_setTableMetatable (h : Heap) (t : TableId) (metatable : Option TableId) :
    h.SameButSlot (h.setTableMetatable t metatable) (.table t) where
  entries u := by
    by_cases hu : u = t
    · rw [hu, setTableMetatable, h.table_setTable_same]
    · rw [setTableMetatable, h.table_setTable_other _ hu]
  payloads _ := rfl
  functions := rfl
  slots _ hy := metatable?_setTable fun heq => absurd heq hy

theorem sameButSlot_setUserdataMetatable (h : Heap) (u : UserdataId) (metatable : Option TableId) :
    h.SameButSlot (h.setUserdataMetatable u metatable) (.userdata u) where
  entries _ := rfl
  payloads x := by
    by_cases hx : x = u
    · rw [hx, payload, setUserdataMetatable, h.userdata_setUserdata_same]
      rfl
    · rw [payload, setUserdataMetatable, h.userdata_setUserdata_other _ hx]
      rfl
  functions := rfl
  slots _ hy := metatable?_setUserdata fun heq => absurd heq hy

end Heap

theorem setMetatable_of_unprotected {v : Value} {w : World}
    (hnil : w.heap.metafield v Metafield.metatable.name = .nil) (metatable : Option TableId) :
    (∃ h', setMetatable v metatable w = (.ok (), { w with heap := h' }) ∧
      h'.metatable? v = metatable ∧ w.heap.SameButSlot h' v) ∨
    (v.kind ≠ .table ∧ v.kind ≠ .userdata ∧ ∃ e, setMetatable v metatable w = (.error e, w)) := by
  cases v with
  | table t =>
    refine .inl ⟨w.heap.setTableMetatable t metatable, ?_, ?_,
      w.heap.sameButSlot_setTableMetatable t metatable⟩
    · rw [setMetatable, getHeap_bind, hnil]
      rfl
    · rw [Heap.setTableMetatable, Heap.metatable?, Heap.table_setTable_same]
  | userdata u =>
    refine .inl ⟨w.heap.setUserdataMetatable u metatable, ?_, ?_,
      w.heap.sameButSlot_setUserdataMetatable u metatable⟩
    · rw [setMetatable, getHeap_bind, hnil]
      rfl
    · rw [Heap.setUserdataMetatable, Heap.metatable?, Heap.userdata_setUserdata_same]
  | _ =>
    refine .inr ⟨?_, ?_, ?_⟩
    · intro hkind
      cases hkind
    · intro hkind
      cases hkind
    · rw [setMetatable, getHeap_bind, hnil]
      exact ⟨_, rfl⟩

/-- **A protected metatable is never replaced.** Take any world, and any value whose metatable `m` holds a
field under the protecting name. Take any run of requests: of whatever kinds and on whatever values, with
whatever functions they call, which make such requests themselves, nested to any depth. As long as none of
them assigns that field of `m`, nor a metatable past all protection, the metatable of the value is still
`m` after each request of the run, and before and after each that is asked in the course of it; programs
see the field in its place; and every attempt to replace it fails and leaves the heap as it is. Where the
value is not protected, its metatable is replaced if it is a table or a userdata, and nothing else in the
heap changes. -/
theorem metatable_protected (depth : Nat) (w : World) (v : Value) :
    (∀ (m : TableId) (requests : List Request),
      let field := (w.heap.table m).getString Metafield.metatable.name
      w.heap.metatable? v = some m → field ≠ .nil →
      AllAsked (Request.Spares v m) depth (.requests requests) w →
      (∀ before, before <+: requests →
        (World.after depth w (before.map .request)).Protects v m field) ∧
      ∀ request u inner, Asked request u inner depth (.requests requests) w →
        u.Protects v m field ∧ (answer (invokeAt inner) request u).2.Protects v m field) ∧
    (w.heap.metafield v Metafield.metatable.name = .nil → ∀ metatable,
      (v.kind = .table ∨ v.kind = .userdata → (setMetatable v metatable w).1 = .ok ()) ∧
      ∀ u, setMetatable v metatable w = (.ok (), u) →
        u = { w with heap := u.heap } ∧ u.heap.metatable? v = metatable ∧
        w.heap.SameButSlot u.heap v) := by
  refine ⟨?_, ?_⟩
  · intro m requests field hslot hfield hall
    have hg : w.heap.Guarded v m field := ⟨hslot, rfl⟩
    refine ⟨?_, ?_⟩
    · intro before hbefore
      exact (hall.after (keptBy_guarded hfield) hg hbefore).protects hfield
    · intro request u inner hasked
      exact ⟨(hall.holds (keptBy_guarded hfield) hg hasked).protects hfield,
        (hall.answered (keptBy_guarded hfield) hg hasked).protects hfield⟩
  · intro hnil metatable
    rcases setMetatable_of_unprotected hnil metatable with
      ⟨h', hrun, hslot, hsame⟩ | ⟨ht, hu, e, hrun⟩
    · rw [hrun]
      refine ⟨fun _ => rfl, ?_⟩
      intro u hu
      cases hu
      exact ⟨rfl, hslot, hsame⟩
    · rw [hrun]
      refine ⟨fun hkind => ?_, nofun⟩
      rcases hkind with hkind | hkind
      · exact absurd hkind ht
      · exact absurd hkind hu

/-- Table 1 protects table 0, and is its own metatable. Its handler of assignments tries to take the
metatable of table 0 away. -/
def lockedWorld : World where
  heap := {
    tables := ⟨#[
      { metatable := some ⟨1⟩ },
      { entries := [(.string "__metatable", .string "locked"), (.string "__newindex", .function ⟨0⟩)],
        metatable := some ⟨1⟩ },
      {}]⟩
    functions := ⟨#[
      .host fun _ => .perform (.setMetatable (.table ⟨0⟩) none) fun _ => .finish []]⟩ }

def attemptingRun : List Request :=
  [.newIndex (.table ⟨0⟩) (.string "x") (.integer 1), .setMetatable (.table ⟨0⟩) (some ⟨2⟩)]

theorem calls_of_attempt :
    Calls (answer · (.newIndex (.table ⟨0⟩) (.string "x") (.integer 1))) lockedWorld ⟨0⟩
      [.table ⟨0⟩, .string "x", .integer 1]
      { lockedWorld with events := #[.callingFor .newIndex (.string "x")] } := by
  intro invoke e u' hfails
  have hhandler : newIndex invoke (.table ⟨0⟩) (.string "x") (.integer 1) lockedWorld =
      (invoke ⟨0⟩ [.table ⟨0⟩, .string "x", .integer 1] >>= fun _ => pure ())
        { lockedWorld with events := #[.callingFor .newIndex (.string "x")] } := rfl
  exact bind_of_error (hhandler.trans (bind_of_error hfails))

theorem allAsked_attempt :
    AllAsked (Request.Spares (.table ⟨0⟩) ⟨1⟩) 1 (.requests attemptingRun) lockedWorld := by
  have hsetMetatable (metatable : Option TableId) (w : World) (f : FunctionId) (args : List Value)
      (u : World) : ¬ Calls (answer · (.setMetatable (.table ⟨0⟩) metatable)) w f args u :=
    not_calls_of_eq fun _ => rfl
  refine .requests_cons ?_ (.requests_cons ?_ .requests_nil)
  · refine .request_of_calls nofun calls_of_attempt (.call_host rfl ?_)
    exact .program_perform (.request_of_not_calls trivial (hsetMetatable none _))
      (.program_finish _)
  · exact .request_of_not_calls trivial (hsetMetatable _ _)

theorem metatable_protected_attempted :
    let h := lockedWorld.heap
    h.metatable? (.table ⟨0⟩) = some ⟨1⟩ ∧
    (h.table ⟨1⟩).getString Metafield.metatable.name ≠ .nil ∧
    AllAsked (Request.Spares (.table ⟨0⟩) ⟨1⟩) 1 (.requests attemptingRun) lockedWorld ∧
    (World.after 1 lockedWorld (attemptingRun.map .request)).Protects (.table ⟨0⟩) ⟨1⟩
      (.string "locked") ∧
    (∃ u, Asked (.setMetatable (.table ⟨0⟩) none) u 0 1 (.requests attemptingRun) lockedWorld ∧
      u.Protects (.table ⟨0⟩) ⟨1⟩ (.string "locked")) ∧
    h.metafield (.table ⟨2⟩) Metafield.metatable.name = .nil ∧
    ∃ u, setMetatable (.table ⟨2⟩) (some ⟨1⟩) lockedWorld = (.ok (), u) ∧
      u.heap.metatable? (.table ⟨2⟩) = some ⟨1⟩ ∧ h.SameButSlot u.heap (.table ⟨2⟩) := by
  intro h
  have hfield : (h.table ⟨1⟩).getString Metafield.metatable.name ≠ .nil := nofun
  obtain ⟨hlocked, -⟩ := metatable_protected 1 lockedWorld (.table ⟨0⟩)
  obtain ⟨-, hopen⟩ := metatable_protected 1 lockedWorld (.table ⟨2⟩)
  obtain ⟨hafter, hasked⟩ := hlocked ⟨1⟩ attemptingRun rfl hfield allAsked_attempt
  have hnested : Asked (.setMetatable (.table ⟨0⟩) none) _ 0 1 (.requests attemptingRun) lockedWorld :=
    .head (.called calls_of_attempt (.body rfl (.first .here)))
  obtain ⟨hok, hchanged⟩ := hopen rfl (some ⟨1⟩)
  refine ⟨rfl, hfield, allAsked_attempt, hafter _ (List.prefix_refl _), 
    ⟨_, hnested, (hasked _ _ _ hnested).1⟩,
    rfl, _, Prod.ext (hok (.inl rfl)) rfl, ?_⟩
  exact (hchanged _ (Prod.ext (hok (.inl rfl)) rfl)).2

end LuaHost
