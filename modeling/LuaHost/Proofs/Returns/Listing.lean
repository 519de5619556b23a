import LuaHost.Proofs.Returns.Built
import LuaHost.Proofs.Value.RawEquality
import Mathlib.Data.List.DropRight

/-!
# LuaHost.Proofs.Returns.Listing

Windows of a buffer as lists.

* `Returns.toList_drop`, `Returns.toList_take`: a smaller window lists what is left of the list, less the
  nils that `take` leaves at its end.
* `Returns.WellFormed.equals_iff`: two windows are equal if they read raw-equal at every position.
* `Returns.splits`: seven values and a rest, over and over, until no rest is left.
  `Returns.WellFormed.flatMap_splits`: the values split off are those of the list, and nils behind them.
* `Built.window_reads_as_list`: all of it, for every window that can be built.
-/

namespace LuaHost

/-! ## Trailing nils -/

theorem rdropWhile_cons {α : Type} (p : α → Bool) (a : α) (l : List α) :
    (a :: l).rdropWhile p =
      if (l.rdropWhile p).isEmpty then [a].rdropWhile p else a :: l.rdropWhile p := by
  simp only [List.rdropWhile, List.reverse_cons, List.dropWhile_append, List.isEmpty_reverse]
  split
  · rfl
  · rw [List.reverse_append]
    rfl

theorem take_trimmedLength (values : List Value) :
    values.take (trimmedLength values) = values.rdropWhile Value.isNil := by
  induction values with
  | nil => rfl
  | cons value rest ih =>
    rw [rdropWhile_cons, ← ih]
    simp only [trimmedLength]
    cases hrest : trimmedLength rest with
    | zero =>
      rw [List.take_zero, if_pos List.isEmpty_nil]
      cases value with
      | nil => rfl
      | _ => rfl
    | succ n =>
      have hle := trimmedLength_le rest
      have hne : rest.take (n + 1) ≠ [] := by
        intro hnil
        have hlength := congrArg List.length hnil
        rw [List.length_take, List.length_nil] at hlength
        omega
      show value :: rest.take (n + 1) = _
      rw [if_neg (by simpa using hne)]

/-! ## Lists that are raw-equal -/

namespace Value

theorem listRawEq_iff {vs ws : List Value} :
    listRawEq vs ws = true ↔
      vs.length = ws.length ∧ ∀ i : Nat, (ofOption vs[i]?).rawEq (ofOption ws[i]?) = true := by
  induction vs generalizing ws with
  | nil =>
    cases ws with
    | nil => exact ⟨fun _ => ⟨rfl, fun _ => rfl⟩, fun _ => rfl⟩
    | cons w ws => exact ⟨nofun, fun h => nomatch h.1⟩
  | cons v vs ih =>
    cases ws with
    | nil => exact ⟨nofun, fun h => nomatch h.1⟩
    | cons w ws =>
      rw [listRawEq, Bool.and_eq_true, ih, List.length_cons, List.length_cons, Nat.succ_inj]
      constructor
      · rintro ⟨hhead, hlength, hrest⟩
        refine ⟨hlength, fun i => ?_⟩
        cases i with
        | zero => exact hhead
        | succ i => exact hrest i
      · rintro ⟨hlength, hall⟩
        exact ⟨hall 0, hlength, fun i => hall (i + 1)⟩

/-- Nil is raw-equal to nothing else. -/
theorem eq_nil_iff_of_rawEq {v w : Value} (h : v.rawEq w = true) : v = .nil ↔ w = .nil := by
  have hkind := kind_eq_of_rawEq h
  have hnil (u : Value) : u = .nil ↔ u.kind = .nil := by cases u <;> simp [kind]
  rw [hnil v, hnil w, hkind]

end Value

namespace Returns

/-! ## Smaller windows -/

theorem drop_drop (r : Returns) (a b : Nat) : (r.drop a).drop b = r.drop (a + b) := by
  have hcount : r.count - min a r.count - min b (r.count - min a r.count) =
      r.count - min (a + b) r.count := by omega
  have hoffset : r.offset + min a r.count + min b (r.count - min a r.count) =
      r.offset + min (a + b) r.count := by omega
  show Returns.mk r.buffer (r.offset + min a r.count + min b (r.count - min a r.count))
      (r.count - min a r.count - min b (r.count - min a r.count)) =
    ⟨r.buffer, r.offset + min (a + b) r.count, r.count - min (a + b) r.count⟩
  rw [hcount, hoffset]

theorem toList_drop (r : Returns) (n : Nat) : (r.drop n).toList = r.toList.drop n := by
  show (r.buffer.values.drop (r.offset + min n r.count)).take (r.count - min n r.count) =
    ((r.buffer.values.drop r.offset).take r.count).drop n
  rw [List.drop_take, List.drop_drop]
  rcases Nat.le_total n r.count with h | h
  · rw [Nat.min_eq_left h]
  · rw [Nat.min_eq_right h, Nat.sub_self, Nat.sub_eq_zero_of_le h, List.take_zero, List.take_zero]

theorem toList_take (r : Returns) (n : Nat) :
    (r.take n).toList = (r.toList.take n).rdropWhile Value.isNil := by
  let window := (r.buffer.values.drop r.offset).take (min n r.count)
  have hwindow : r.toList.take n = window := List.take_take
  have hle : trimmedLength window ≤ min n r.count :=
    Nat.le_trans (trimmedLength_le window) (List.length_take_le _ _)
  have hcounted : (r.take n).toList = window.take (trimmedLength window) := by
    show (r.buffer.values.drop r.offset).take (trimmedLength window) = _
    rw [List.take_take, Nat.min_eq_left hle]
  rw [hcounted, hwindow, take_trimmedLength]

/-! ## Reading the list -/

section Reading

variable {r s : Returns}

theorem WellFormed.length_toList (h : r.WellFormed) : r.toList.length = r.length := by
  have hinside := h.inside
  have hcount : r.count = r.length := rfl
  rw [toList, List.length_take, List.length_drop]
  omega

/-- Past the shorter of the two windows one of them reads nil, so the other does. -/
theorem WellFormed.equals_iff (hr : r.WellFormed) (hs : s.WellFormed) :
    r.equals s = true ↔ ∀ i, (r.get i).rawEq (s.get i) = true := by
  rw [equals, Value.listRawEq_iff, hr.length_toList, hs.length_toList]
  simp only [toList_getElem? hr, toList_getElem? hs]
  refine ⟨And.right, fun h => ⟨?_, h⟩⟩
  apply Nat.le_antisymm
  · refine hr.trimmed.length_le fun i hi => ?_
    exact (Value.eq_nil_iff_of_rawEq (h i)).2 (s.get_of_length_le hi)
  · refine hs.trimmed.length_le fun i hi => ?_
    exact (Value.eq_nil_iff_of_rawEq (h i)).1 (r.get_of_length_le hi)

theorem length_firstValues (r : Returns) (n : Nat) : (r.firstValues n).length = n := by
  rw [firstValues, List.length_map, List.length_range]

theorem WellFormed.firstValues_eq (h : r.WellFormed) (n : Nat) :
    r.firstValues n = r.toList.take n ++ List.replicate (n - r.length) .nil := by
  have hlength := h.length_toList
  refine List.ext_getElem ?_ fun i hi hi' => ?_
  · rw [length_firstValues, List.length_append, List.length_take, List.length_replicate]
    omega
  · rw [length_firstValues] at hi
    have hget : (r.firstValues n)[i] = r.get i := by simp [firstValues]
    rw [hget, ← toList_getElem? h]
    rcases Nat.lt_or_ge i r.toList.length with hlt | hge
    · rw [List.getElem_append_left (by rw [List.length_take]; omega), List.getElem_take,
        List.getElem?_eq_getElem hlt]
      rfl
    · rw [List.getElem_append_right (by rw [List.length_take]; omega), List.getElem_replicate,
        List.getElem?_eq_none hge]
      rfl

end Reading

/-! ## Splitting -/

/-- Seven values and the rest behind them. -/
def split (r : Returns) : List Value × Returns := (r.firstValues layerArity, r.drop layerArity)

/-- What is split off one after the other, from the rest that the one before has left, until a rest is
empty. -/
def splits (r : Returns) : List (List Value × Returns) :=
  if r.split.2.isEmpty then [r.split] else r.split :: splits r.split.2
termination_by r.length
decreasing_by
  rename_i hrest
  have hne : r.length - min layerArity r.length ≠ 0 := fun h => hrest (isEmpty_iff.2 h)
  have harity : layerArity = 7 := rfl
  show r.length - min layerArity r.length < r.length
  omega

section Splits

variable {r : Returns}

theorem mem_splits {s : List Value × Returns} (h : s ∈ r.splits) :
    s.1.length = layerArity ∧ s.2.buffer = r.buffer := by
  fun_induction splits r with
  | case1 r hempty =>
    rw [List.mem_singleton.1 h]
    exact ⟨r.length_firstValues layerArity, rfl⟩
  | case2 r hrest ih =>
    rcases List.mem_cons.1 h with rfl | hmem
    · exact ⟨r.length_firstValues layerArity, rfl⟩
    · exact ih hmem

theorem getLast?_splits (r : Returns) :
    ∃ s, r.splits.getLast? = some s ∧ s.2.isEmpty = true := by
  fun_induction splits r with
  | case1 r hempty => exact ⟨r.split, rfl, hempty⟩
  | case2 r hrest ih =>
    obtain ⟨s, hlast, hempty⟩ := ih
    refine ⟨s, ?_, hempty⟩
    rw [List.getLast?_cons, hlast]
    rfl

/-- Only the last values split off are filled up with nils: a rest that is not empty has seven values
in front of it. -/
theorem WellFormed.flatMap_splits (h : r.WellFormed) :
    ∃ n, r.splits.flatMap Prod.fst = r.toList ++ List.replicate n .nil := by
  fun_induction splits r with
  | case1 r hempty =>
    have hle : r.toList.length ≤ layerArity := by
      have hzero : r.length - min layerArity r.length = 0 := isEmpty_iff.1 hempty
      rw [h.length_toList]
      omega
    refine ⟨layerArity - r.length, ?_⟩
    rw [List.flatMap_singleton]
    show r.firstValues layerArity = _
    rw [h.firstValues_eq, List.take_of_length_le hle]
  | case2 r hrest ih =>
    have hlong : layerArity - r.length = 0 := by
      have hne : r.length - min layerArity r.length ≠ 0 := fun h => hrest (isEmpty_iff.2 h)
      omega
    obtain ⟨n, hn⟩ := ih (h.drop layerArity)
    refine ⟨n, ?_⟩
    rw [List.flatMap_cons, hn]
    show r.firstValues layerArity ++ ((r.drop layerArity).toList ++ _) = _
    rw [h.firstValues_eq, hlong, List.replicate_zero, List.append_nil, toList_drop,
      ← List.append_assoc, List.take_append_drop]

end Splits
end Returns

/-! ## Windows that are built -/

/-- **Windows read as lists.** Whatever window has been built, it lies in its buffer and does not end
with a nil. It reads, position by position, what it lists. Without its first `n` positions it lists what
is behind the first `n` values, and limited to them, these values less the nils at their end; going
without `a` and then without `b` positions is going without `a + b`. Equality with another window is
raw equality of what the two read, wherever in whichever buffers they lie. Splitting off seven values
and a rest, until a rest is empty, gives the listed values in order and only nils behind them; every
rest is a window of the same buffer. -/
theorem Built.window_reads_as_list {r : Returns} (h : Built (.returns r)) :
    r.offset + r.length ≤ r.buffer.values.length ∧
    (r.length = 0 ∨ r.get (r.length - 1) ≠ .nil) ∧
    (r.toList.length = r.length ∧ ∀ i, r.get i = Value.ofOption r.toList[i]?) ∧
    (∀ n, (r.drop n).toList = r.toList.drop n) ∧
    (∀ n, (r.take n).toList = (r.toList.take n).rdropWhile Value.isNil) ∧
    (∀ a b, (r.drop a).drop b = r.drop (a + b)) ∧
    (∀ s, Built (.returns s) →
      (r.equals s = true ↔ ∀ i, (r.get i).rawEq (s.get i) = true)) ∧
    (∃ n, r.splits.flatMap Prod.fst = r.toList ++ List.replicate n .nil) ∧
    (∃ s, r.splits.getLast? = some s ∧ s.2.isEmpty = true) ∧
    ∀ s ∈ r.splits, s.1.length = layerArity ∧ s.2.sharesBuffer r = true := by
  have view {s : Returns} (hs : Built (.returns s)) : s.WellFormed := by
    cases hs.sound with
    | untyped hview => exact hview
  have hr := view h
  refine ⟨hr.inside, hr.trimmed.2, ⟨hr.length_toList, fun i => (Returns.toList_getElem? hr i).symm⟩,
    r.toList_drop, r.toList_take, r.drop_drop, fun s hs => hr.equals_iff (view hs),
    hr.flatMap_splits, r.getLast?_splits, fun s hs => ?_⟩
  obtain ⟨hlength, hbuffer⟩ := Returns.mem_splits hs
  exact ⟨hlength, beq_iff_eq.2 hbuffer⟩

/-- Positions 1 to 3 of a buffer of five values, the last of them a nil. -/
def innerWindow : Returns :=
  (((Returns.ofList [.boolean true, .nil, .integer 2, .nil, .integer 4]).run {}).1.drop 1).take 3

theorem window_reads_as_list_inner :
    Built (.returns innerWindow) ∧ innerWindow.toList = [.nil, .integer 2] ∧
    (innerWindow.drop 1).toList = [.integer 2] ∧ (innerWindow.take 1).toList = [] ∧
    ∃ n, innerWindow.splits.flatMap Prod.fst = [.nil, .integer 2] ++ List.replicate n .nil := by
  have hbuilt : Built (.returns innerWindow) := .take 3 (.drop 1 (.ofList _ {}))
  obtain ⟨-, -, -, hdrop, htake, -, -, hsplits, -, -⟩ := hbuilt.window_reads_as_list
  exact ⟨hbuilt, by decide, hdrop 1, htake 1, hsplits⟩

end LuaHost
