import LuaHost.Proofs.Protocol.Looping
import LuaHost.Proofs.Protocol.ReadAlong
import LuaHost.Proofs.Protocol.ReadBack
import LuaHost.Proofs.Protocol.Unmediated
import Mathlib.Data.Nat.Find

/-!
# LuaHost.Proofs.Protocol.Elements

The loop over the elements `1, 2, …` of a value, read through its chain of delegation.

* `elementStep_outcome`: a step of the loop is one reading.
* `exists_first_stop`: there is a first position at which reading gives nil or fails.
* `course_of_elements`: what the loop goes through up to there, by induction on the positions that are
  left.
* `ipairs_visits_elements`: the whole loop.
-/

namespace LuaHost

open Operation

/-! ## One step -/

/-- What reading at a position means to the loop. -/
def elementOutcome (i : Int64) : Except Error Value → Except LoopEnd (Value × Value)
  | .error e => .error (.failed e)
  | .ok .nil => .error .finished
  | .ok value => .ok (.integer i, value)

theorem elementStep_outcome (invoke : Invoke) (v : Value) (i : Int64) (w : World) :
    stepOutcome (elementStep invoke [v, .integer i] w).1 =
        elementOutcome (i + 1) (index invoke v (.integer (i + 1)) w).1 ∧
      (elementStep invoke [v, .integer i] w).2.heap =
        (index invoke v (.integer (i + 1)) w).2.heap := by
  show stepOutcome ((index invoke v (.integer (i + 1)) >>= _) w).1 = _ ∧
    ((index invoke v (.integer (i + 1)) >>= _) w).2.heap = _
  rw [bind_apply]
  rcases index invoke v (.integer (i + 1)) w with ⟨outcome, w'⟩
  cases outcome with
  | error e => exact ⟨rfl, rfl⟩
  | ok value => cases value with
    | _ => exact ⟨rfl, rfl⟩

/-! ## The loop -/

/-- Where the sequence of elements ends: at nil, and at an error. -/
def StopsAt (outcome : Except Error Value) : Prop := ∀ value, outcome = .ok value → value = .nil

/-- How the loop ends there. -/
def endingAt : Except Error Value → LoopEnd
  | .ok _ => .finished
  | .error e => .failed e

theorem elementOutcome_of_stopsAt {outcome : Except Error Value} (h : StopsAt outcome) (i : Int64) :
    elementOutcome i outcome = .error (endingAt outcome) := by
  cases outcome with
  | error e => rfl
  | ok value =>
    rw [h value rfl]
    rfl

theorem exists_of_not_stopsAt {outcome : Except Error Value} (h : ¬ StopsAt outcome) :
    ∃ value, outcome = .ok value ∧ value ≠ .nil := by
  simpa [StopsAt] using h

theorem elementOutcome_of_ne_nil {value : Value} (h : value ≠ .nil) (i : Int64) :
    elementOutcome i (.ok value) = .ok (.integer i, value) := by
  cases value with
  | nil => exact absurd rfl h
  | _ => rfl

namespace Heap

/-- What is read at the key, with nil where nothing is. -/
def readOrNil (h : Heap) (v key : Value) : Value :=
  match h.readAlong? key defaultHopLimit v with
  | some (.ok value) => value
  | _ => .nil

/-- What is read at the positions `1, …, m`. -/
def elements (h : Heap) (v : Value) (m : Nat) : List Value := (positions m).map (h.readOrNil v)

theorem length_elements (h : Heap) (v : Value) (m : Nat) : (h.elements v m).length = m := by
  rw [elements, List.length_map, length_positions]

theorem getElem_elements {h : Heap} {v : Value} {m i : Nat} (hi : i < (h.elements v m).length) :
    (h.elements v m)[i] = h.readOrNil v (.integer (Int64.ofInt (i + 1 : Nat))) := by
  simp only [elements, positions, List.getElem_map, List.getElem_range]

/-- The heaps of a loop over the elements: the data stays as it was. -/
structure Walks (h₀ : Heap) (f : FunctionId) (h : Heap) : Prop where
  tables : h.tables = h₀.tables
  userdatas : h.userdatas = h₀.userdatas
  step : h.body f = .ipairs

end Heap

theorem drop_positions {i m : Nat} (hi : i < m) : (positions m).drop i =
    .integer (Int64.ofInt (i + 1 : Nat)) :: (positions m).drop (i + 1) := by
  rw [List.drop_eq_getElem_cons (by rwa [length_positions])]
  congr 1
  simp only [positions, List.getElem_map, List.getElem_range]

theorem position_add_one (i : Nat) : Int64.ofInt i + 1 = Int64.ofInt (i + 1 : Nat) := by
  rw [Int.natCast_succ, Int64.ofInt_add]
  rfl

/-- The loop head is the step through elements, the value and 0. -/
theorem ipairs_head (v : Value) (w : World) :
    ∃ results w', ipairs v w = (.ok results, w') ∧
      results.get 0 = .function (w.heap.newFunction .ipairs).1 ∧ results.get 1 = v ∧
      results.get 2 = .integer (Int64.ofInt (0 : Nat)) ∧
      w'.heap = (w.heap.newFunction .ipairs).2 :=
  ⟨_, _, rfl, rfl, rfl, rfl, rfl⟩

section Loop

variable {h₀ : Heap} {f : FunctionId} {v : Value} {outcome : Nat → Except Error Value}
  (houtcome : ∀ i : Nat,
    h₀.readAlong? (.integer (Int64.ofInt i)) defaultHopLimit v = some (outcome i))
include houtcome

theorem outcome_of_not_stopsAt {i : Nat} (h : ¬ StopsAt (outcome i)) :
    outcome i = .ok (h₀.readOrNil v (.integer (Int64.ofInt i))) ∧
      h₀.readOrNil v (.integer (Int64.ofInt i)) ≠ .nil := by
  obtain ⟨value, hvalue, hne⟩ := exists_of_not_stopsAt h
  rw [Heap.readOrNil, houtcome, hvalue]
  exact ⟨rfl, hne⟩

/-- The elements come to a stop: before it every position has an entry of its own. -/
theorem exists_first_stop (hroom : h₀.entries.length + 1 < Nat.pow 2 63) :
    ∃ m, m ≤ h₀.entries.length ∧ StopsAt (outcome (m + 1)) ∧
      ∀ i, i < m → ¬ StopsAt (outcome (i + 1)) := by
  have hexists : ∃ m, m ≤ h₀.entries.length ∧ StopsAt (outcome (m + 1)) := by
    by_contra hnone
    have hle : h₀.entries.length + 1 ≤ h₀.entries.length := by
      refine Heap.le_length_entries hroom fun i hi => ?_
      have hgoes : ¬ StopsAt (outcome (i + 1)) := fun hstop =>
        hnone ⟨i, Nat.le_of_lt_succ hi, hstop⟩
      obtain ⟨hvalue, hne⟩ := outcome_of_not_stopsAt houtcome hgoes
      exact Heap.exists_contains_of_readAlong (by rw [houtcome, hvalue]) hne
    omega
  classical
  obtain ⟨hle, hstop⟩ := Nat.find_spec hexists
  refine ⟨_, hle, hstop, fun i hi hbefore => ?_⟩
  exact Nat.find_min hexists hi ⟨Nat.le_trans (Nat.le_of_lt hi) hle, hbefore⟩

theorem call_elementStep {w : World} (hw : h₀.Walks f w.heap) (depth i : Nat) :
    let called := call (invokeAt (depth + 1)) (.function f) [v, .integer (Int64.ofInt i)] w
    stepOutcome called.1 = elementOutcome (Int64.ofInt (i + 1 : Nat)) (outcome (i + 1)) ∧
      called.2.heap = w.heap := by
  have hread := houtcome (i + 1)
  rw [← Heap.readAlong_congr hw.tables hw.userdatas] at hread
  obtain ⟨hindex, hheap⟩ := Heap.indexWithin_of_readAlong (invokeAt depth) hread
  have hstep := elementStep_outcome (invokeAt depth) v (Int64.ofInt i) w
  rw [position_add_one, index, hindex, hheap] at hstep
  rw [call_ipairs hw.step]
  exact hstep

section Stop

variable {m : Nat} (hbefore : ∀ i, i < m → ¬ StopsAt (outcome (i + 1)))
  (hstop : StopsAt (outcome (m + 1)))
include hbefore hstop

/-- From each position on, the loop visits the positions that are left up to the first stop. -/
theorem course_of_elements (depth : Nat) {i : Nat} (hi : i ≤ m) :
    Course (h₀.Walks f) (fun _ key => h₀.readOrNil v key)
      (fun control => call (invokeAt (depth + 1)) (.function f) [v, control])
      (endingAt (outcome (m + 1))) (.integer (Int64.ofInt i)) ((positions m).drop i) := by
  induction hleft : m - i generalizing i with
  | zero =>
    obtain rfl : i = m := by omega
    rw [List.drop_of_length_le (Nat.le_of_eq (length_positions i))]
    refine .ends fun w hw => ?_
    rw [(call_elementStep houtcome hw depth i).1, elementOutcome_of_stopsAt hstop]
  | succ left ih =>
    have hlt : i < m := by omega
    obtain ⟨hvalue, hne⟩ := outcome_of_not_stopsAt houtcome (hbefore i hlt)
    rw [drop_positions hlt]
    refine .visits (fun w hw => ?_) (ih hlt (by omega))
    obtain ⟨hstep, hheap⟩ := call_elementStep houtcome hw depth i
    rw [hvalue, elementOutcome_of_ne_nil hne] at hstep
    exact ⟨hstep, hheap⟩

theorem loop_of_elements {w : World} (hw : w.heap = h₀) (depth bound : Nat) :
    (looping (ipairs v) (fun step state => forLoop (invokeAt (depth + 1)) step state bound) w).1 =
      .ok (((positions m).zip (h₀.elements v m)).take bound,
        if m < bound then endingAt (outcome (m + 1)) else .cut) := by
  obtain ⟨results, w', hhead, hstep, hstate, hcontrol, hheap⟩ := ipairs_head v w
  have hstart : h₀.Walks (w.heap.newFunction .ipairs).1 w'.heap := by
    rw [hheap, ← hw]
    exact ⟨rfl, rfl, w.heap.body_newFunction_same .ipairs⟩
  have hcourse := course_of_elements houtcome hbefore hstop depth (Nat.zero_le m)
    (f := (w.heap.newFunction .ipairs).1)
  rw [List.drop_zero] at hcourse
  have hloop := forLoop_of_course hcourse bound hstart (h₀.readOrNil v) fun _ _ _ => rfl
  rw [looping_of_ok hhead, hstep, hstate, hcontrol, hloop, length_positions, List.map_take,
    List.map_prod_left_eq_zip, Heap.elements]

end Stop
end Loop

/-- Where every position reads as in the table itself, the elements are its sequence. -/
theorem elements_eq_sequence {h : Heap} {v : Value} {table : Table} (hwf : table.WellFormed)
    {m : Nat} (hm : m < Nat.pow 2 63)
    (hread : ∀ i, i < m →
      h.readOrNil v (.integer (Int64.ofInt (i + 1 : Nat))) = table.getAt (i + 1 : Nat))
    (hbefore : ∀ i : Nat, i < m → table.getAt (i + 1 : Nat) ≠ .nil)
    (hstop : table.getAt (m + 1 : Nat) = .nil) : h.elements v m = table.sequence := by
  have hborder : table.length = m := by
    refine hwf.length_eq_of_border hm (fun k hlow hhigh => ?_) ?_
    · have hvalue := hbefore (k - 1) (by omega)
      rw [Nat.sub_add_cancel hlow] at hvalue
      exact (hwf.contains_iff _).2 hvalue
    · rw [← Bool.not_eq_true]
      exact fun hpresent => (hwf.contains_iff _).1 hpresent hstop
  rw [hwf.sequence_eq, hborder, Heap.elements, positions, List.map_map]
  exact List.map_congr_left fun i hi => hread i (List.mem_range.1 hi)

/-- **The loop over elements reads position after position.** Take a value whose chain of `__index`
has no function on it. Then there are elements, at most as many as all tables have entries, that reading
gives at the positions `1, 2, …`, and behind them reading gives nil or fails. The loop visits these
positions in order, each with what is read there, whichever table of the chain holds it, and ends as
reading does: it is finished at nil, and fails with the error. Without a `__index` the elements are the
table's sequence. -/
theorem ipairs_visits_elements (depth : Nat) (w : World) (v : Value)
    (hroom : (w.heap.entries.length : Int) < Int64.maxValue.toInt)
    (hfun : w.heap.Unhandled defaultHopLimit v) :
    let invoke := invokeAt (depth + 1)
    let read (i : Nat) := (index invoke v (.integer (Int64.ofInt i)) w).1
    ∃ values ending, values.length ≤ w.heap.entries.length ∧
      (∀ i (hi : i < values.length), read (i + 1) = .ok values[i] ∧ values[i] ≠ .nil) ∧
      (match read (values.length + 1) with
        | .ok value => value = .nil ∧ ending = .finished
        | .error e => ending = .failed e) ∧
      (∀ bound, (looping (ipairs v) (fun step state => forLoop invoke step state bound) w).1 =
        .ok (((positions values.length).zip values).take bound,
          if values.length < bound then ending else .cut)) ∧
      ∀ t, v = .table t → w.heap.Lacks t .index → (w.heap.table t).WellFormed →
        values = (w.heap.table t).sequence ∧ ending = .finished := by
  intro invoke read
  have hroom' : w.heap.entries.length + 1 < Nat.pow 2 63 := by
    rw [Int64.toInt_maxValue] at hroom
    simp only [Nat.pow_eq]
    omega
  choose outcome houtcome using fun i : Nat => Heap.exists_readAlong hfun (.integer (Int64.ofInt i))
  have hread (i : Nat) : read i = outcome i := (Heap.indexWithin_of_readAlong invoke (houtcome i)).1
  obtain ⟨m, hm, hstop, hbefore⟩ := exists_first_stop houtcome hroom'
  have hlength := w.heap.length_elements v m
  refine ⟨w.heap.elements v m, endingAt (outcome (m + 1)), ?_, ?_, ?_, ?_, ?_⟩
  · rwa [hlength]
  · intro i hi
    rw [hread, Heap.getElem_elements]
    rw [hlength] at hi
    exact outcome_of_not_stopsAt houtcome (hbefore i hi)
  · rw [hlength, hread]
    cases hlast : outcome (m + 1) with
    | ok value => exact ⟨hstop value hlast, rfl⟩
    | error e => rfl
  · rw [hlength]
    exact loop_of_elements houtcome hbefore hstop rfl depth
  · rintro t rfl hlacks hwf
    have hraw (i : Nat) : outcome i = .ok ((w.heap.table t).getAt i) := by
      rw [← hread]
      exact congrArg Prod.fst (indexWithin_of_lacks hlacks _ _)
    rw [hraw]
    refine ⟨elements_eq_sequence hwf (by omega) ?_ ?_ (hstop _ (hraw _)), rfl⟩
    · intro i hi
      have hvalue := (outcome_of_not_stopsAt houtcome (hbefore i hi)).1
      rw [hraw] at hvalue
      exact (Except.ok.inj hvalue).symm
    · intro i hi hnil
      refine hbefore i hi ?_
      rw [hraw, hnil]
      exact fun value hvalue => (Except.ok.inj hvalue).symm

/-- Table 0 has holes, which table 2 fills. Behind table 2 there is a boolean, which cannot be read. -/
def layeredWorld : World where
  heap := { tables := ⟨#[
    { entries := [(.integer 1, .string "a"), (.integer 3, .string "c")], metatable := some ⟨1⟩ },
    { entries := [(.string "__index", .table ⟨2⟩)] },
    { entries := [(.integer 4, .string "d"), (.integer 2, .string "b"), (.integer 1, .string "x")],
      metatable := some ⟨3⟩ },
    { entries := [(.string "__index", .boolean true)] }]⟩ }

theorem ipairs_visits_elements_layered :
    let h := layeredWorld.heap
    (h.entries.length : Int) < Int64.maxValue.toInt ∧ h.Unhandled defaultHopLimit (.table ⟨0⟩) ∧
    ∃ values ending, values.length ≤ h.entries.length ∧
      (positions values.length).zip values =
        [(.integer 1, .string "a"), (.integer 2, .string "b"), (.integer 3, .string "c"),
          (.integer 4, .string "d")] ∧
      ending = .failed (.indexNotSupported .boolean) ∧
      (looping (ipairs (.table ⟨0⟩)) (fun step state => forLoop (invokeAt 1) step state 9)
        layeredWorld).1 = .ok ((positions values.length).zip values, ending) := by
  intro h
  have hroom : (h.entries.length : Int) < Int64.maxValue.toInt := by decide
  have hend (j : Nat) : h.chain .index (.table ⟨0⟩) (j + 3) = .nil := by
    rw [Nat.add_comm]
    exact Heap.chain_of_nil (by decide) j
  have hfun : h.Unhandled defaultHopLimit (.table ⟨0⟩) := by
    intro j _ f
    match j with
    | 0 | 1 | 2 => exact nofun
    | j + 3 =>
      rw [hend]
      exact nofun
  obtain ⟨values, ending, hlength, -, -, hloop, -⟩ :=
    ipairs_visits_elements 0 layeredWorld (.table ⟨0⟩) hroom hfun
  have hshort : values.length < 9 := Nat.lt_of_le_of_lt hlength (by decide)
  have hrun := hloop 9
  rw [if_pos hshort, List.take_of_length_le] at hrun
  · have hvisits : (looping (ipairs (.table ⟨0⟩))
        (fun step state => forLoop (invokeAt 1) step state 9) layeredWorld).1 =
        .ok ([(.integer 1, .string "a"), (.integer 2, .string "b"), (.integer 3, .string "c"),
          (.integer 4, .string "d")], .failed (.indexNotSupported .boolean)) := by
      decide +kernel
    obtain ⟨hpairs, hending⟩ := Prod.mk.inj (Except.ok.inj (hrun.symm.trans hvisits))
    exact ⟨hroom, hfun, values, ending, hlength, hpairs, hending, hrun⟩
  · rw [List.length_zip, length_positions, Nat.min_self]
    exact Nat.le_of_lt hshort

end LuaHost
