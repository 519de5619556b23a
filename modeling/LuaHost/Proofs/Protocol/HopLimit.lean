import LuaHost.Proofs.Protocol.Assigning
import LuaHost.Proofs.Protocol.Reading

/-!
# LuaHost.Proofs.Protocol.HopLimit

What the limit of a chain of delegation counts.

* `walk_of_first_end`: a walk finishes at the first end of its chain if the limit is past its position,
  and fails if it is not.
* `limit_counts_values`: so the limit counts the values that are looked at. A chain of `n` links has one
  value more, and takes the limit `n + 1`.
* `limit_excludes_last_link`: with the limit `n` it is given up, even where there is no link at all.
-/

namespace LuaHost

open Operation

theorem walk_of_first_end {α : Type} {field : Metafield} {hop : Heap → Value → Hop}
    {finish : Value → Hop → Operation α} {v : Value} {w : World} {j : Nat}
    (hlinks : ∀ i, i < j →
      hop w.heap (w.heap.chain field v i) = .link (w.heap.chain field v (i + 1)))
    (hstop : ∀ next, hop w.heap (w.heap.chain field v j) ≠ .link next) (limit : Nat) :
    walkWithin field hop finish limit v w =
      if limit ≤ j then (.error (.delegationLoop field), w.followed field v limit)
      else finish (w.heap.chain field v j) (hop w.heap (w.heap.chain field v j))
        (w.followed field v j) := by
  by_cases hle : limit ≤ j
  · rw [if_pos hle, walk_of_endless fun i hi => hlinks i (Nat.lt_of_lt_of_le hi hle)]
  · rw [if_neg hle, walk_of_stop (Nat.lt_of_not_le hle) hlinks hstop]

namespace Heap

variable {h : Heap} {field : Metafield} {key v : Value}

theorem delegate_ne_link (hend : h.metafield v field.name = .nil ∨
    ∃ f, h.metafield v field.name = .function f) (next : Value) :
    h.delegate field v ≠ .link next := by
  rcases hend with hnil | ⟨f, hf⟩
  · by_cases hkind : v.kind = .table
    · obtain ⟨t, rfl⟩ := Value.exists_table_of_kind hkind
      rw [delegate_table_of_nil hnil]
      nofun
    · rw [delegate_of_nil hkind hnil]
      nofun
  · rw [delegate_of_function hf]
    nofun

/-- No link leaves a value where reading ends. -/
theorem indexHop_ne_link (hend : h.ReadEndsAt key v) (next : Value) :
    h.indexHop key v ≠ .link next := by
  by_cases hraw : h.rawIndex key v = .nil
  · rw [indexHop_of_rawIndex_nil hraw]
    exact delegate_ne_link (hend.resolve_left fun hvalue => hvalue hraw) next
  · obtain ⟨t, hhop, -⟩ := indexHop_of_rawIndex hraw
    rw [hhop]
    nofun

theorem newIndexHop_ne_link (hend : h.WriteEndsAt key v) (next : Value) :
    h.newIndexHop key v ≠ .link next := by
  cases hraw : h.rawContains key v with
  | true =>
    obtain ⟨t, rfl⟩ := exists_table_of_rawContains hraw
    rw [newIndexHop_of_rawContains hraw]
    nofun
  | false =>
    rw [newIndexHop_of_rawContains_false hraw]
    exact delegate_ne_link (hend.resolve_left (Bool.eq_false_iff.1 hraw)) next

end Heap

/-- **The limit counts values, not links.** Let the chain of `v` end at position `j`, which is after `j`
links. With a limit up to `j` reading and assigning give up, as they do on a chain without an end.
With every greater limit they finish at the value at position `j`, and the limit makes no further
difference. -/
theorem limit_counts_values (invoke : Invoke) (key value v : Value) (w : World) (j limit : Nat) :
    (FirstAt (w.heap.ReadEndsAt key) (w.heap.chain .index v) j →
      indexWithin invoke key limit v w =
        if limit ≤ j then (.error (.delegationLoop .index), w.followed .index v limit)
        else
          let last := w.heap.chain .index v j
          finishIndex invoke key last (w.heap.indexHop key last) (w.followed .index v j)) ∧
    (FirstAt (w.heap.WriteEndsAt key) (w.heap.chain .newIndex v) j →
      newIndexWithin invoke key value limit v w =
        if limit ≤ j then (.error (.delegationLoop .newIndex), w.followed .newIndex v limit)
        else
          let last := w.heap.chain .newIndex v j
          finishNewIndex invoke key value last (w.heap.newIndexHop key last)
            (w.followed .newIndex v j)) := by
  refine ⟨fun hfirst => ?_, fun hfirst => ?_⟩
  · rw [indexWithin_eq_walk]
    exact walk_of_first_end (index_links hfirst.before) (Heap.indexHop_ne_link hfirst.here) limit
  · rw [newIndexWithin_eq_walk]
    exact walk_of_first_end (newIndex_links hfirst.before) (Heap.newIndexHop_ne_link hfirst.here)
      limit

/-- The value that one link leads to is not read with the limit 1, and what a table holds itself is not
read with the limit 0. -/
theorem limit_excludes_last_link :
    (inheritingWorld.heap.rawIndex (.string "width")
        (inheritingWorld.heap.chain .index (.table ⟨0⟩) 1) = .integer 42 ∧
      (indexWithin invoke (.string "width") 1 (.table ⟨0⟩) inheritingWorld).1 =
        .error (.delegationLoop .index)) ∧
    (inheritingWorld.heap.rawIndex (.string "width") (.table ⟨1⟩) = .integer 42 ∧
      (indexWithin invoke (.string "width") 0 (.table ⟨1⟩) inheritingWorld).1 =
        .error (.delegationLoop .index)) :=
  ⟨⟨by decide, rfl⟩, ⟨by decide, rfl⟩⟩

end LuaHost
