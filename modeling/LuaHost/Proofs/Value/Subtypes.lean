import LuaHost.Proofs.Value.Text

/-!
# LuaHost.Proofs.Value.Subtypes

Which floats have a text that is the text of no integer.

* `Double.text_of_small`, `Double.exists_text_of_large`: a float that is an integer has the digits of
  that integer with a mark behind them, or nothing but the digits of an integer that rounds to it.
* `Double.text_ne_of_beyond`, `Double.exists_integerText`: these are no 64-bit integer's digits from
  `2 ^ 63` on, and one's before.
* `Value.text_shared_iff`: so the two number subtypes share the texts of the integers between `10 ^ 16`
  and `2 ^ 63`, and no others.
-/

namespace LuaHost

/-! ## Marks -/

/-- A point is what the digits of an integer never have. -/
theorem not_mem_toDigits (n : Nat) : '.' ∉ Nat.toDigits 10 n := by
  intro hmem
  cases isDigit_of_mem_toDigits hmem

theorem signedText_marked (negative : Bool) (cs : List Char) :
    signedText negative (cs ++ ['.', '0']) = signedText negative cs ++ ".0" := by
  rw [signedText, signedText, ← List.append_assoc, String.ofList_append]

theorem signedText_ne_marked (negative : Bool) {cs : List Char} (h : '.' ∉ cs) (s : String) :
    signedText negative cs ≠ s ++ ".0" := by
  intro heq
  have hmem : '.' ∈ (signedText negative cs).toList := by
    rw [heq, String.toList_append]
    exact List.mem_append_right _ (List.mem_cons_self ..)
  rw [signedText, String.toList_ofList] at hmem
  rcases List.mem_append.1 hmem with hsign | hdigits
  · cases negative with
    | _ => exact absurd hsign (by decide)
  · exact h hdigits

namespace Double

variable {x : Double} {n : Int}

/-! ## Floats that are integers -/

theorem text_of_small (hn : x.integer? = some n) (hsmall : n.natAbs < positionalBound) :
    x.text = signedText x.negative (Nat.toDigits 10 n.natAbs) ++ ".0" := by
  rw [text_eq_signedText (integer?_eq_some hn).1, hn, ← signedText_marked]
  exact congrArg _ (if_pos hsmall)

theorem exists_text_of_large (hn : x.integer? = some n) (hlarge : positionalBound ≤ n.natAbs) :
    ∃ d : Nat, 0 < d ∧ x.Rounds d ∧ (x.shortest .up).positional = Nat.toDigits 10 d ∧
      x.text = signedText x.negative (Nat.toDigits 10 d) := by
  obtain ⟨d, hpos, hrounds, hdigits⟩ := positional_shortest_of_large .up hn hlarge
  refine ⟨d, hpos, hrounds, hdigits, ?_⟩
  rw [text_eq_signedText (integer?_eq_some hn).1, hn, ← hdigits]
  exact congrArg _ (if_neg (Nat.not_lt.2 hlarge))

theorem exists_signed (negative : Bool) {d : Nat} (hpos : 0 < d) :
    ∃ k : Int, k.natAbs = d ∧ decide (k < 0) = negative := by
  cases negative with
  | true => exact ⟨-d, by omega, decide_eq_true (by omega)⟩
  | false => exact ⟨d, by omega, decide_eq_false (by omega)⟩

/-- Before `2 ^ 63` the digits are those of a 64-bit integer, of either sign. -/
theorem exists_integerText (hn : x.integer? = some n) (hlarge : positionalBound ≤ n.natAbs)
    (hsmall : n.natAbs < Nat.pow 2 63) : ∃ i : Int64, x.text = integerText i := by
  obtain ⟨d, hpos, hrounds, -, htext⟩ := exists_text_of_large hn hlarge
  have hd : d < 2 ^ 63 := lt_pow_of_rounds (magnitude_lt_firstBeyond hn hsmall) hrounds
  obtain ⟨signed, habs, hneg⟩ := exists_signed x.negative hpos
  have hint : (Int64.ofInt signed).toInt = signed := Int64.toInt_ofInt_of_le (by omega) (by omega)
  refine ⟨Int64.ofInt signed, ?_⟩
  rw [integerText_eq, hint, hneg, habs, htext]

/-- From `2 ^ 63` on the digits are above those of every 64-bit integer. At `2 ^ 63` itself it is the
rounding of the shortest decimal that makes them so. -/
theorem text_ne_of_beyond (hn : x.integer? = some n) (hbeyond : Nat.pow 2 63 ≤ n.natAbs) (i : Int64) :
    x.text ≠ integerText i := by
  intro heq
  have hbound : positionalBound ≤ Nat.pow 2 63 := by decide
  obtain ⟨d, -, hrounds, hdigits, htext⟩ := exists_text_of_large hn (Nat.le_trans hbound hbeyond)
  rw [htext, integerText_eq] at heq
  have hsame := (signedText_inj (numeric_toDigits _).not_mem (numeric_toDigits _).not_mem heq).2
  have hd : d = i.toInt.natAbs := toDigits_inj hsame
  have hlow := i.le_toInt
  have hhigh := i.toInt_lt
  have hle : d ≤ Nat.pow 2 63 := by
    simp only [Nat.pow_eq]
    omega
  rcases Nat.lt_or_eq_of_le (magnitude_firstBeyond_le hn hbeyond) with hlt | hmagnitude
  · exact Nat.not_lt.2 hle (pow_lt_of_rounds hlt hrounds)
  · have hshortest : (x.shortest .up).positional = Nat.toDigits 10 9223372036854776000 := by
      rcases eq_of_magnitude_firstBeyond hmagnitude.symm with rfl | rfl <;> decide
    have hfixed := toDigits_inj (hdigits.symm.trans hshortest)
    rw [hfixed] at hle
    exact absurd hle (by decide)

end Double

namespace Value

/-- **The texts that the number subtypes share.** The text of a finite float that is an integer ends in
`.0` exactly below `10 ^ 16` in absolute value. From there on it has digits only, and so it is the text
of a 64-bit integer if it is below `2 ^ 63`; of no other finite float is this so. -/
theorem text_shared_iff {x : Double} (hfinite : x.isFinite = true) :
    (∀ n, x.integer? = some n →
      ((∃ s, (Value.float x).text = s ++ ".0") ↔ n.natAbs < Nat.pow 10 16)) ∧
    ((∃ i, (Value.float x).text = (Value.integer i).text) ↔
      ∃ n, x.integer? = some n ∧ Nat.pow 10 16 ≤ n.natAbs ∧ n.natAbs < Nat.pow 2 63) := by
  refine ⟨fun n hn => ⟨?_, fun hsmall => ⟨_, Double.text_of_small hn hsmall⟩⟩, ?_, ?_⟩
  · rintro ⟨s, hs⟩
    refine Nat.lt_of_not_le fun hlarge => ?_
    obtain ⟨d, -, -, -, htext⟩ := Double.exists_text_of_large hn hlarge
    exact signedText_ne_marked _ (not_mem_toDigits d) s (htext.symm.trans hs)
  · rintro ⟨i, hi⟩
    have hi : x.text = integerText i := hi
    cases hinteger : x.integer? with
    | none =>
      -- a float that is no integer has no integer's text
      have hint64 : x.int64? = none := by rw [Double.int64?, hinteger]
      rw [Double.text_of_isFinite hfinite hint64, integerText_eq] at hi
      have hdigits := (signedText_inj (Double.numeric_shortest hint64).not_mem
        (numeric_toDigits _).not_mem hi).2
      exact absurd hdigits.symm (toDigits_ne_shortest hfinite hint64 i)
    | some n =>
      refine ⟨n, rfl, Nat.le_of_not_lt fun hsmall => ?_, Nat.lt_of_not_le fun hbeyond => ?_⟩
      · rw [Double.text_of_small hinteger hsmall, integerText_eq] at hi
        exact signedText_ne_marked _ (not_mem_toDigits _) _ hi.symm
      · exact Double.text_ne_of_beyond hinteger hbeyond i hi
  · rintro ⟨n, hn, hlarge, hsmall⟩
    exact Double.exists_integerText hn hlarge hsmall

/-- The float and the integer `10 ^ 16` have one text. So have the float `2 ^ 60` and an integer that is
another number. -/
theorem text_without_mark :
    (float ⟨0x4341C37937E08000⟩).text = "10000000000000000" ∧
    (integer 10000000000000000).text = "10000000000000000" ∧
    (float ⟨0x43B0000000000000⟩).text = (integer 1152921504606847000).text ∧
    (float ⟨0x43B0000000000000⟩).rawEq (integer 1152921504606847000) = false :=
  ⟨by decide, by decide, by decide, by decide⟩

end Value
end LuaHost
