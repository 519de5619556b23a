import LuaHost.Proofs.Table.Shifting

/-!
# LuaHost.Proofs.Table.Concatenation

Concatenation of a range of elements, wherever its ends are.

* `Value.Concatenable`: the elements that have a text.
* `Table.mem_indices`: the 64-bit indices of a range. `Table.range_induction`: a range from its last
  index down.
* `Table.concatRange_of_lt`, `Table.concatRange_last`, `Table.concatRange_of_refused`: what one element
  adds to the concatenation of those behind it, or makes of it.
* `Table.concatChecked_eq`: the loop with a 64-bit index, which never steps past the greatest integer.
* `Table.concatRange_joins`: the texts of the range with the separator between neighbours, or the first
  index without a text.
-/

namespace LuaHost

namespace Value

/-- Strings and numbers. -/
def Concatenable (v : Value) : Prop := v.kind = .string ∨ v.kind = .number

instance (v : Value) : Decidable v.Concatenable := inferInstanceAs (Decidable (_ ∨ _))

end Value

namespace Table

theorem elementText?_of_concatenable {v : Value} (h : v.Concatenable) :
    elementText? v = some v.text := by
  cases v with
  | integer i => rfl
  | float x => rfl
  | string s => rfl
  | _ => rcases h with h | h <;> cases h

theorem elementText?_of_not_concatenable {v : Value} (h : ¬ v.Concatenable) :
    elementText? v = none := by
  cases v with
  | integer i => exact absurd (.inr rfl) h
  | float x => exact absurd (.inr rfl) h
  | string s => exact absurd (.inl rfl) h
  | _ => rfl

/-! ## Ranges of indices -/

section Ranges

variable {first last i j : Int64}

/-- The number of indices from `first` to `last`. -/
def span (first last : Int64) : Nat := (last.toInt + 1 - first.toInt).toNat

/-- The indices `first, …, last` in order. -/
def indices (first last : Int64) : List Int64 :=
  (List.range (span first last)).map fun k : Nat => Int64.ofInt (first.toInt + k)

theorem exists_succ (h : i < last) :
    ∃ next : Int64, next.toInt = i.toInt + 1 ∧ index? (i.toInt + 1) = some next := by
  have hlow := i.minValue_le_toInt
  have hhigh := last.toInt_le
  rw [Int64.lt_iff_toInt_lt] at h
  have hrange : Int64.minValue.toInt ≤ i.toInt + 1 ∧ i.toInt + 1 ≤ Int64.maxValue.toInt :=
    ⟨by omega, by omega⟩
  exact ⟨_, Int64.toInt_ofInt_of_le hrange.1 (Int.lt_of_le_of_lt h last.toInt_lt), if_pos hrange⟩

theorem lt_iff_succ_le {next : Int64} (hnext : next.toInt = i.toInt + 1) : i < j ↔ next ≤ j := by
  rw [Int64.lt_iff_toInt_lt, Int64.le_iff_toInt_le]
  omega

theorem le_iff_lt_succ {next : Int64} (hnext : next.toInt = i.toInt + 1) : j ≤ i ↔ j < next := by
  rw [Int64.lt_iff_toInt_lt, Int64.le_iff_toInt_le]
  omega

theorem le_iff_eq_or_succ_le {next : Int64} (hnext : next.toInt = i.toInt + 1) :
    i ≤ j ↔ j = i ∨ next ≤ j := by
  rw [Int64.le_iff_toInt_le, Int64.le_iff_toInt_le, ← Int64.toInt_inj]
  omega

/-- To prove something of the part of a range from any index on: prove it of the empty part, of the last
index alone, and of a part from what it is without its first index. -/
theorem range_induction (last : Int64) {P : Int64 → Prop} (past : ∀ i, last < i → P i)
    (single : P last)
    (step : ∀ i next : Int64, i < last → next.toInt = i.toInt + 1 → P next → P i) (i : Int64) :
    P i := by
  induction hn : span i last generalizing i with
  | zero =>
    refine past i (Int64.lt_iff_toInt_lt.2 ?_)
    simp only [span] at hn
    omega
  | succ n ih =>
    simp only [span] at hn
    rcases Int.lt_trichotomy i.toInt last.toInt with hlt | heq | hgt
    · obtain ⟨next, hnext, -⟩ := exists_succ (Int64.lt_iff_toInt_lt.2 hlt)
      refine step i next (Int64.lt_iff_toInt_lt.2 hlt) hnext (ih next ?_)
      simp only [span]
      omega
    · rwa [Int64.toInt_inj.1 heq]
    · exact past i (Int64.lt_iff_toInt_lt.2 hgt)

theorem span_of_lt (h : last < first) : span first last = 0 := by
  rw [Int64.lt_iff_toInt_lt] at h
  simp only [span]
  omega

theorem span_self (i : Int64) : span i i = 1 := by
  simp only [span]
  omega

theorem span_succ {next : Int64} (h : i < last) (hnext : next.toInt = i.toInt + 1) :
    span i last = span next last + 1 := by
  rw [Int64.lt_iff_toInt_lt] at h
  simp only [span]
  omega

theorem span_pos (h : i ≤ last) : ∃ n, span i last = n + 1 := by
  rw [Int64.le_iff_toInt_le] at h
  refine ⟨span i last - 1, ?_⟩
  simp only [span]
  omega

theorem indices_of_lt (h : last < first) : indices first last = [] := by
  rw [indices, span_of_lt h]
  rfl

theorem indices_self (i : Int64) : indices i i = [i] := by
  rw [indices, span_self]
  simp

theorem indices_succ {next : Int64} (h : i < last) (hnext : next.toInt = i.toInt + 1) :
    indices i last = i :: indices next last := by
  rw [indices, indices, span_succ h hnext, List.range_succ_eq_map, List.map_cons, List.map_map, hnext]
  congr 1
  · simp
  · refine List.map_congr_left fun k _ => ?_
    show Int64.ofInt (i.toInt + (k + 1 : Nat)) = Int64.ofInt (i.toInt + 1 + k)
    congr 1
    omega

theorem mem_indices : j ∈ indices first last ↔ first ≤ j ∧ j ≤ last := by
  induction first using range_induction last with
  | past i h =>
    rw [indices_of_lt h, Int64.le_iff_toInt_le, Int64.le_iff_toInt_le]
    rw [Int64.lt_iff_toInt_lt] at h
    simp only [List.not_mem_nil, false_iff]
    omega
  | single =>
    rw [indices_self, List.mem_singleton, ← Int64.toInt_inj, Int64.le_iff_toInt_le,
      Int64.le_iff_toInt_le]
    omega
  | step i next h hnext ih =>
    rw [indices_succ h hnext, List.mem_cons, ih, le_iff_eq_or_succ_le hnext, or_and_right]
    refine or_congr_left (iff_self_and.2 fun heq => ?_)
    exact heq ▸ Int64.le_of_lt h

end Ranges

/-! ## One element -/

section Elements

variable {t : Table} {separator : String} {last i next : Int64}

theorem length_of_elementTexts {start : Int} {n : Nat} {texts : List String}
    (h : t.elementTexts start n = .ok texts) : texts.length = n := by
  induction n generalizing start texts with
  | zero =>
    cases h
    rfl
  | succ n ih =>
    rw [elementTexts] at h
    split at h
    · cases h
    · split at h
      · cases h
      · rename_i hrest
        cases h
        rw [List.length_cons, ih hrest]

theorem concatRange_past (t : Table) (separator : String) (h : last < i) :
    t.concatRange separator i last = .ok "" := by
  have hspan : (last.toInt + 1 - i.toInt).toNat = 0 := span_of_lt h
  rw [concatRange, hspan]
  rfl

theorem concatRange_last (separator : String) (h : (t.get (.integer i)).Concatenable) :
    t.concatRange separator i i = .ok (t.get (.integer i)).text := by
  have hspan : (i.toInt + 1 - i.toInt).toNat = 1 := span_self i
  rw [concatRange, hspan, elementTexts, getAt_toInt, elementText?_of_concatenable h]
  rfl

theorem concatRange_of_refused (separator : String) (hle : i ≤ last)
    (h : ¬ (t.get (.integer i)).Concatenable) :
    t.concatRange separator i last = .error (.runtime (.notConcatenable i)) := by
  obtain ⟨n, hn⟩ := span_pos hle
  have hspan : (last.toInt + 1 - i.toInt).toNat = n + 1 := hn
  rw [concatRange, hspan, elementTexts, getAt_toInt, elementText?_of_not_concatenable h,
    Int64.ofInt_toInt]

/-- The range behind an element is not empty, so that the separator stands between the two. -/
theorem concatRange_of_lt (separator : String) (hlt : i < last) (hnext : next.toInt = i.toInt + 1)
    (h : (t.get (.integer i)).Concatenable) :
    t.concatRange separator i last =
      (t.concatRange separator next last).map ((t.get (.integer i)).text ++ separator ++ ·) := by
  obtain ⟨n, hn⟩ := span_pos ((lt_iff_succ_le hnext).1 hlt)
  have hbehind : (last.toInt + 1 - next.toInt).toNat = n + 1 := hn
  have hspan : (last.toInt + 1 - i.toInt).toNat = n + 1 + 1 := hn ▸ span_succ hlt hnext
  rw [concatRange, hspan, elementTexts, getAt_toInt, elementText?_of_concatenable h, concatRange,
    hbehind, hnext]
  cases hrest : t.elementTexts (i.toInt + 1) (n + 1) with
  | error e => rfl
  | ok rest =>
    cases rest with
    | nil => exact absurd (length_of_elementTexts hrest) (Nat.succ_ne_zero n).symm
    | cons text rest => rfl

end Elements

/-! ## The loop -/

/-- The concatenation as a loop with a 64-bit index, which is left at the last index before this is
stepped. It gives nothing when the index overflows, and nothing after as many turns as the bound. -/
def concatChecked (t : Table) (separator : String) (last : Int64) :
    (bound : Nat) → (i : Int64) → (text : String) → Option (Except Error String)
  | 0, _, _ => none
  | bound + 1, i, text =>
    if i ≤ last then
      match elementText? (t.get (.integer i)) with
      | none => some (.error (.runtime (.notConcatenable i)))
      | some element =>
        if i = last then some (.ok (text ++ element))
        else do
          let next ← index? (i.toInt + 1)
          concatChecked t separator last bound next (text ++ element ++ separator)
    else some (.ok text)

theorem concatChecked_eq (t : Table) (separator : String) {last i : Int64} {bound : Nat}
    (h : span i last < bound) (text : String) :
    t.concatChecked separator last bound i text =
      some ((t.concatRange separator i last).map (text ++ ·)) := by
  induction bound generalizing i text with
  | zero => exact absurd h (Nat.not_lt_zero _)
  | succ bound ih =>
    rw [concatChecked]
    by_cases hle : i ≤ last
    · rw [if_pos hle]
      by_cases hel : (t.get (.integer i)).Concatenable
      · rw [elementText?_of_concatenable hel]
        by_cases heq : i = last
        · subst heq
          rw [concatRange_last separator hel]
          exact if_pos rfl
        · have hlt := Int64.lt_of_le_of_ne hle heq
          obtain ⟨next, hnext, hindex⟩ := exists_succ hlt
          have hbound : span next last < bound := by
            rw [span_succ hlt hnext] at h
            omega
          have hrest := ih hbound (text ++ (t.get (.integer i)).text ++ separator)
          rw [concatRange_of_lt separator hlt hnext hel]
          simp only [if_neg heq, hindex]
          refine hrest.trans ?_
          cases t.concatRange separator next last with
          | error e => rfl
          | ok rest => simp only [Except.map, String.append_assoc]
      · rw [elementText?_of_not_concatenable hel, concatRange_of_refused separator hle hel]
        rfl
    · rw [if_neg hle, concatRange_past t separator (Int64.not_le.1 hle)]
      simp only [Except.map, String.append_empty]

/-! ## The whole range -/

/-- The first index from `first` on whose element has no text. -/
structure FirstRefused (t : Table) (first i : Int64) : Prop where
  le : first ≤ i
  refused : ¬ (t.get (.integer i)).Concatenable
  before : ∀ j, first ≤ j → j < i → (t.get (.integer j)).Concatenable

section Range

variable {t : Table} {first last i next : Int64}

theorem concatenable_from_succ (hnext : next.toInt = first.toInt + 1)
    (hel : (t.get (.integer first)).Concatenable) {P : Int64 → Prop} :
    (∀ i, first ≤ i → P i → (t.get (.integer i)).Concatenable) ↔
      ∀ i, next ≤ i → P i → (t.get (.integer i)).Concatenable := by
  refine ⟨fun h i hle => h i ((le_iff_eq_or_succ_le hnext).2 (.inr hle)), fun h i hle hP => ?_⟩
  rcases (le_iff_eq_or_succ_le hnext).1 hle with rfl | hnextle
  · exact hel
  · exact h i hnextle hP

theorem firstRefused_from_succ (hnext : next.toInt = first.toInt + 1)
    (hel : (t.get (.integer first)).Concatenable) :
    t.FirstRefused first i ↔ t.FirstRefused next i := by
  have hbefore := concatenable_from_succ (t := t) hnext hel (P := (· < i))
  refine ⟨fun ⟨hle, hrefused, h⟩ => ⟨?_, hrefused, hbefore.1 h⟩,
    fun ⟨hle, hrefused, h⟩ => ⟨?_, hrefused, hbefore.2 h⟩⟩
  · rcases (le_iff_eq_or_succ_le hnext).1 hle with rfl | hnextle
    · exact absurd hel hrefused
    · exact hnextle
  · exact (le_iff_eq_or_succ_le hnext).2 (.inr hle)

/-- Every element of a range has a text, or one is the first that has none. -/
theorem concatenable_or_firstRefused (t : Table) (first last : Int64) :
    (∀ i, first ≤ i → i ≤ last → (t.get (.integer i)).Concatenable) ∨
      ∃ i, i ≤ last ∧ t.FirstRefused first i := by
  have here {i : Int64} (hrefused : ¬ (t.get (.integer i)).Concatenable) : t.FirstRefused i i :=
    ⟨Int64.le_refl i, hrefused, fun j hle hlt => absurd hle (Int64.not_le.2 hlt)⟩
  induction first using range_induction last with
  | past first hlt =>
    exact .inl fun i hlow hhigh => absurd (Int64.le_trans hlow hhigh) (Int64.not_le.2 hlt)
  | single =>
    by_cases hel : (t.get (.integer last)).Concatenable
    · refine .inl fun i hlow hhigh => ?_
      rwa [Int64.le_antisymm hhigh hlow]
    · exact .inr ⟨last, Int64.le_refl last, here hel⟩
  | step first next hlt hnext ih =>
    by_cases hel : (t.get (.integer first)).Concatenable
    · refine ih.imp (concatenable_from_succ hnext hel).2 fun ⟨i, hle, hi⟩ => ⟨i, hle, ?_⟩
      exact (firstRefused_from_succ hnext hel).2 hi
    · exact .inr ⟨first, Int64.le_of_lt hlt, here hel⟩

theorem concatRange_of_concatenable (separator : String)
    (h : ∀ i, first ≤ i → i ≤ last → (t.get (.integer i)).Concatenable) :
    t.concatRange separator first last =
      .ok (separator.intercalate ((indices first last).map fun i => (t.get (.integer i)).text)) := by
  induction first using range_induction last with
  | past first hlt =>
    rw [concatRange_past t separator hlt, indices_of_lt hlt]
    rfl
  | single =>
    have hel := h last (Int64.le_refl last) (Int64.le_refl last)
    rw [concatRange_last separator hel, indices_self, List.map_singleton,
      String.intercalate_singleton]
  | step first next hlt hnext ih =>
    have hel := h first (Int64.le_refl first) (Int64.le_of_lt hlt)
    have hrest := ih ((concatenable_from_succ hnext hel).1 h)
    rw [concatRange_of_lt separator hlt hnext hel, hrest, indices_succ hlt hnext]
    -- The indices behind the first are some, so that a separator follows its text.
    cases hbehind : indices next last with
    | nil =>
      have hmem := mem_indices.2 ⟨(lt_iff_succ_le hnext).1 hlt, Int64.le_refl last⟩
      rw [hbehind] at hmem
      cases hmem
    | cons second rest =>
      rw [List.map_cons, List.map_cons, List.map_cons, String.intercalate_cons_cons]
      rfl

theorem concatRange_of_firstRefused (separator : String) (hle : i ≤ last)
    (h : t.FirstRefused first i) :
    t.concatRange separator first last = .error (.runtime (.notConcatenable i)) := by
  induction first using range_induction last with
  | past first hlt => exact absurd (Int64.le_trans h.le hle) (Int64.not_le.2 hlt)
  | single =>
    have heq : i = last := Int64.le_antisymm hle h.le
    subst heq
    exact concatRange_of_refused separator hle h.refused
  | step first next hlt hnext ih =>
    rcases (le_iff_eq_or_succ_le hnext).1 h.le with rfl | hnextle
    · exact concatRange_of_refused separator hle h.refused
    · have hel := h.before first (Int64.le_refl first) ((lt_iff_succ_le hnext).2 hnextle)
      rw [concatRange_of_lt separator hlt hnext hel, ih ((firstRefused_from_succ hnext hel).1 h)]
      rfl

end Range

/-- **Concatenation joins a range.** For all ends, the least and the greatest integer included: the loop
with a 64-bit index comes to its end within one turn for each index of the range and one more, without
an overflow. A range with its first end past its last gives the empty text. The concatenation succeeds
exactly when every element of the range is a string or a number, and then it is their texts, in order of
their indices, with the separator between neighbours. It fails exactly when some element is not, and
names the first index of such a one. Where no ends are given the range is from 1 to the raw length, and
an element that it fails on is present, and in a well-formed table no nil. -/
theorem concatRange_joins (t : Table) (separator : String) (first last : Int64) :
    (∀ bound, span first last < bound →
      t.concatChecked separator last bound first "" = some (t.concatRange separator first last)) ∧
    (last < first → t.concatRange separator first last = .ok "") ∧
    (∀ text, t.concatRange separator first last = .ok text ↔
      (∀ i, first ≤ i → i ≤ last → (t.get (.integer i)).Concatenable) ∧
      text = separator.intercalate
        ((indices first last).map fun i => (t.get (.integer i)).text)) ∧
    (∀ e, t.concatRange separator first last = .error e ↔
      ∃ i, i ≤ last ∧ t.FirstRefused first i ∧ e = .runtime (.notConcatenable i)) ∧
    t.concat separator none none = t.concatRange separator 1 t.rawLength ∧
    ∀ e, t.concat separator none none = .error e →
      ∃ i, i ≤ t.rawLength ∧ t.FirstRefused 1 i ∧ e = .runtime (.notConcatenable i) ∧
        t.contains (.integer i) = true ∧ (t.WellFormed → t.get (.integer i) ≠ .nil) := by
  have herror (first last : Int64) (e : Error) :
      t.concatRange separator first last = .error e ↔
        ∃ i, i ≤ last ∧ t.FirstRefused first i ∧ e = .runtime (.notConcatenable i) := by
    refine ⟨fun hrun => ?_, fun ⟨i, hle, hi, he⟩ => he ▸ concatRange_of_firstRefused separator hle hi⟩
    rcases t.concatenable_or_firstRefused first last with hall | ⟨i, hle, hi⟩
    · rw [concatRange_of_concatenable separator hall] at hrun
      cases hrun
    · rw [concatRange_of_firstRefused separator hle hi] at hrun
      cases hrun
      exact ⟨i, hle, hi, rfl⟩
  refine ⟨fun bound hbound => ?_, concatRange_past t separator, fun text => ?_, herror first last, rfl,
    fun e he => ?_⟩
  · rw [concatChecked_eq t separator hbound]
    cases t.concatRange separator first last with
    | error e => rfl
    | ok text => simp only [Except.map, String.empty_append]
  · refine ⟨fun hrun => ?_, fun ⟨hall, htext⟩ => htext ▸ concatRange_of_concatenable separator hall⟩
    rcases t.concatenable_or_firstRefused first last with hall | ⟨i, hle, hi⟩
    · rw [concatRange_of_concatenable separator hall] at hrun
      cases hrun
      exact ⟨hall, rfl⟩
    · rw [concatRange_of_firstRefused separator hle hi] at hrun
      cases hrun
  · obtain ⟨i, hle, hi, heq⟩ := (herror 1 t.rawLength e).1 he
    have hpresent := contains_of_le_rawLength hi.le hle
    exact ⟨i, hle, hi, heq, hpresent, fun ht => (ht.contains_iff _).1 hpresent⟩

/-- Two elements at the greatest integers, a boolean at 2, and holes in between. -/
def elementsAtEnds : Table :=
  ((ofList [.string "a", .boolean true]).put (.integer (Int64.maxValue - 1)) (.string "y")).put
    (.integer Int64.maxValue) (.string "z")

theorem concatRange_joins_ends :
    elementsAtEnds.WellFormed ∧
    elementsAtEnds.concatChecked "," Int64.maxValue 3 (Int64.maxValue - 1) "" =
      some (.ok (",".intercalate ["y", "z"])) ∧
    elementsAtEnds.concatRange "," Int64.maxValue Int64.minValue = .ok "" ∧
    elementsAtEnds.concatRange "," Int64.minValue Int64.maxValue =
      .error (.runtime (.notConcatenable Int64.minValue)) ∧
    elementsAtEnds.concatRange "," 1 Int64.maxValue = .error (.runtime (.notConcatenable 2)) ∧
    ∃ i, elementsAtEnds.concat "," none none = .error (.runtime (.notConcatenable i)) ∧
      elementsAtEnds.get (.integer i) ≠ .nil := by
  have hwell : elementsAtEnds.WellFormed :=
    ((wellFormed_ofList _).put (Value.isKey_integer _) _).put (Value.isKey_integer _) _
  have hsecond : elementsAtEnds.FirstRefused 1 2 := by
    refine ⟨by decide, by decide, fun j hlow hlt => ?_⟩
    have hmem : j ∈ indices 1 1 := mem_indices.2 ⟨hlow, (le_iff_lt_succ rfl).2 hlt⟩
    rw [indices_self, List.mem_singleton] at hmem
    subst hmem
    decide
  obtain ⟨hloop, -, hok, -, -, -⟩ :=
    elementsAtEnds.concatRange_joins "," (Int64.maxValue - 1) Int64.maxValue
  obtain ⟨-, hempty, -, -, -, -⟩ := elementsAtEnds.concatRange_joins "," Int64.maxValue Int64.minValue
  obtain ⟨-, -, -, hleast, -, -⟩ := elementsAtEnds.concatRange_joins "," Int64.minValue Int64.maxValue
  obtain ⟨-, -, -, herror, -, hdefault⟩ := elementsAtEnds.concatRange_joins "," 1 Int64.maxValue
  have hends : elementsAtEnds.concatRange "," (Int64.maxValue - 1) Int64.maxValue =
      .ok (",".intercalate ["y", "z"]) := by
    refine (hok _).2 ⟨fun i hlow hhigh => ?_, rfl⟩
    have hmem := mem_indices.2 ⟨hlow, hhigh⟩
    rw [show indices (Int64.maxValue - 1) Int64.maxValue =
      [Int64.maxValue - 1, Int64.maxValue] by decide] at hmem
    rcases List.mem_pair.1 hmem with rfl | rfl <;> decide
  have hseq : elementsAtEnds.concat "," none none = .error (.runtime (.notConcatenable 2)) :=
    concatRange_of_firstRefused "," (by decide) hsecond
  refine ⟨hwell, (hloop 3 (by decide)).trans (congrArg some hends), hempty (by decide),
    (hleast _).2 ⟨_, by decide, ⟨Int64.le_refl _, by decide, ?_⟩, rfl⟩,
    (herror _).2 ⟨2, by decide, hsecond, rfl⟩, 2, hseq, ?_⟩
  · exact fun j hle hlt => absurd hle (Int64.not_le.2 hlt)
  · obtain ⟨i, -, -, heq, -, hne⟩ := hdefault _ hseq
    cases heq
    exact hne hwell

end Table
end LuaHost
