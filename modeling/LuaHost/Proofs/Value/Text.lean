import LuaHost.Proofs.Number.Integral
import LuaHost.Proofs.Number.Positional
import LuaHost.Proofs.Table.Map
import LuaHost.Value.Text

/-!
# LuaHost.Proofs.Value.Text

The texts of the keys that are no strings.

* `Value.text_eq_spelling`: a sign, and letters or digits behind it.
* `Value.eq_of_spelling`: what is spelled so is one key, whatever kind it has.
* `Value.eq_of_text`: so numbers and booleans in stored form have different texts.
-/

namespace LuaHost

/-! ## Signs -/

def signedText (negative : Bool) (cs : List Char) : String :=
  String.ofList ((if negative then ['-'] else []) ++ cs)

theorem signedText_inj {a b : Bool} {cs ds : List Char} (hcs : '-' ∉ cs) (hds : '-' ∉ ds)
    (h : signedText a cs = signedText b ds) : a = b ∧ cs = ds := by
  have hlist := String.ofList_inj.1 h
  cases a with
  | true => cases b with
    | true => exact ⟨rfl, List.tail_eq_of_cons_eq hlist⟩
    | false =>
      have hcons : '-' :: cs = ds := hlist
      exact absurd (hcons ▸ List.mem_cons_self ..) hds
  | false => cases b with
    | true =>
      have hcons : cs = '-' :: ds := hlist
      exact absurd (hcons ▸ List.mem_cons_self ..) hcs
    | false => exact ⟨rfl, hlist⟩

/-- Digits, perhaps around a point. -/
def Numeric (cs : List Char) : Prop := ∀ c ∈ cs, c.isDigit = true ∨ c = '.'

theorem Numeric.not_mem {cs : List Char} (h : Numeric cs) : '-' ∉ cs := by
  intro hmem
  rcases h '-' hmem with hdigit | hpoint
  · cases hdigit
  · cases hpoint

theorem not_numeric_cons {c : Char} {cs : List Char} (hdigit : c.isDigit = false) (hpoint : c ≠ '.') :
    ¬ Numeric (c :: cs) := by
  intro hnumeric
  rcases hnumeric c (List.mem_cons_self ..) with htrue | heq
  · rw [hdigit] at htrue
    cases htrue
  · exact hpoint heq

theorem isDigit_of_mem_toDigits {n : Nat} {c : Char} (h : c ∈ Nat.toDigits 10 n) :
    c.isDigit = true :=
  Nat.isDigit_of_mem_toDigits (by decide) (by decide) h

theorem numeric_toDigits (n : Nat) : Numeric (Nat.toDigits 10 n) :=
  fun _ hc => .inl (isDigit_of_mem_toDigits hc)

theorem toDigits_inj {n m : Nat} (h : Nat.toDigits 10 n = Nat.toDigits 10 m) : n = m := by
  have hback := congrArg (Nat.ofDigitChars 10 · 0) h
  rwa [Nat.ofDigitChars_ten_toDigits, Nat.ofDigitChars_ten_toDigits] at hback

/-! ## Texts of numbers -/

theorem integerText_eq (i : Int64) :
    integerText i = signedText (decide (i.toInt < 0)) (Nat.toDigits 10 i.toInt.natAbs) := by
  have htext : integerText i = i.toInt.repr := rfl
  rw [htext, Int.repr_eq_if, signedText]
  by_cases hneg : i.toInt < 0
  · have habs : (-i.toInt).toNat = i.toInt.natAbs := by omega
    rw [if_neg (Int.not_le.2 hneg), if_pos (decide_eq_true hneg), habs, Nat.repr_eq_ofList_toDigits,
      String.ofList_append]
  · have habs : i.toInt.toNat = i.toInt.natAbs := by omega
    rw [if_pos (Int.not_lt.1 hneg), if_neg (by simpa using hneg), habs, Nat.repr_eq_ofList_toDigits,
      List.nil_append]

theorem readPositional_toDigits (n : Nat) : readPositional (Nat.toDigits 10 n) = n := by
  rw [readPositional_whole fun _ => isDigit_of_mem_toDigits, Nat.ofDigitChars_ten_toDigits]

namespace Double

theorem isZero_of_int64? {x : Double} (h : x.int64? = none) : x.isZero = false := by
  rw [← Bool.not_eq_true]
  intro hzero
  rw [int64?, integer?_of_isZero hzero] at h
  cases h

/-- Behind the sign there are the digits of an integer with a mark, or the shortest decimal. -/
theorem text_eq_signedText {x : Double} (hfinite : x.isFinite = true) :
    x.text = signedText x.negative (match x.integer? with
      | some n =>
        if n.natAbs < positionalBound then Nat.toDigits 10 n.natAbs ++ ['.', '0']
        else (x.shortest .up).positional
      | none => (x.shortest .up).positional) := by
  have hinfinite : ¬ x.isInfinite = true := by
    simp only [isFinite, isInfinite, decide_eq_true_eq] at hfinite ⊢
    omega
  have hnan : ¬ x.isNaN = true := Bool.eq_false_iff.1 (isNaN_of_isFinite hfinite)
  simp only [text, if_neg hnan, if_neg hinfinite]
  cases x.integer? with
  | none => rfl
  | some n =>
    simp only
    split
    · rw [signedText, List.append_assoc]
    · rfl

theorem text_of_isFinite {x : Double} (hfinite : x.isFinite = true) (h : x.int64? = none) :
    x.text = signedText x.negative (x.shortest .up).positional := by
  rw [text_eq_signedText hfinite]
  cases hinteger : x.integer? with
  | none => rfl
  | some n =>
    -- an integer that is written out digit by digit would be a 64-bit integer
    have hlarge : ¬ n.natAbs < positionalBound := by
      intro hsmall
      have hbound : positionalBound < Nat.pow 2 63 := by decide
      have hpow : Int.pow 2 63 = (Nat.pow 2 63 : Nat) := rfl
      have hrange : -Int.pow 2 63 ≤ n ∧ n < Int.pow 2 63 := by omega
      simp only [int64?, hinteger, if_pos hrange] at h
      cases h
    simp only [if_neg hlarge]

theorem text_of_isInfinite {x : Double} (h : x.isInfinite = true) :
    x.text = signedText x.negative ['i', 'n', 'f'] := by
  have hnan : ¬ x.isNaN = true := by
    simp only [isNaN, isInfinite, decide_eq_true_eq] at h ⊢
    omega
  simp only [text, if_neg hnan, if_pos h]
  rfl

theorem numeric_shortest {x : Double} (h : x.int64? = none) : Numeric (x.shortest .up).positional :=
  fun _ => Numeral.mem_positional (isDigit_of_mem_shortest .up (isZero_of_int64? h))

end Double

namespace Value

/-! ## Spellings -/

/-- The sign of a number or boolean in stored form, and what its text has behind the sign. -/
def spelling : Value → Bool × List Char
  | .boolean true => (false, ['t', 'r', 'u', 'e'])
  | .boolean false => (false, ['f', 'a', 'l', 's', 'e'])
  | .integer i => (decide (i.toInt < 0), Nat.toDigits 10 i.toInt.natAbs)
  | .float x => (x.negative, if x.isFinite then (x.shortest .up).positional else ['i', 'n', 'f'])
  | _ => (false, [])

/-- The keys that become names and are not strings. -/
def IsPlain (key : Value) : Prop := key.kind = .number ∨ key.kind = .boolean

theorem IsKey.isInfinite {x : Double} (h : (Value.float x).IsKey) (hfinite : x.isFinite = false) :
    x.isInfinite = true := by
  have hnan : x.isNaN = false := h.notNaN
  simp only [Double.isNaN, Double.isFinite, Double.isInfinite, decide_eq_false_iff_not,
    decide_eq_true_eq] at hnan hfinite ⊢
  omega

theorem text_eq_spelling {key : Value} (hkey : key.IsKey) (hplain : key.IsPlain) :
    key.text = signedText key.spelling.1 key.spelling.2 ∧ '-' ∉ key.spelling.2 := by
  cases key with
  | boolean b =>
    cases b with
    | true => exact ⟨rfl, by decide⟩
    | false => exact ⟨rfl, by decide⟩
  | integer i => exact ⟨integerText_eq i, (numeric_toDigits _).not_mem⟩
  | float x =>
    have hint64 := hkey.notIntegral x rfl
    cases hfinite : x.isFinite with
    | true =>
      simp only [spelling, hfinite, if_true]
      exact ⟨Double.text_of_isFinite hfinite hint64, (Double.numeric_shortest hint64).not_mem⟩
    | false =>
      simp only [spelling, hfinite, Bool.false_eq_true, if_false]
      exact ⟨Double.text_of_isInfinite (hkey.isInfinite hfinite), by decide⟩
  | _ => rcases hplain with hkind | hkind <;> cases hkind

/-! ## Different keys -/

theorem numeric_float {x : Double} (hx : (Value.float x).IsKey) (hfinite : x.isFinite = true) :
    Numeric (Value.float x).spelling.2 := by
  simp only [spelling, hfinite, if_true]
  exact Double.numeric_shortest (hx.notIntegral x rfl)

theorem spelling_of_infinite {x : Double} (hfinite : x.isFinite = false) :
    (Value.float x).spelling = (x.negative, ['i', 'n', 'f']) := by
  simp only [spelling, hfinite, Bool.false_eq_true, if_false]

theorem not_numeric_boolean (b : Bool) : ¬ Numeric (Value.boolean b).spelling.2 := by
  cases b with
  | true => exact not_numeric_cons rfl (by decide)
  | false => exact not_numeric_cons rfl (by decide)

theorem boolean_ne_integer (b : Bool) (i : Int64) :
    (Value.boolean b).spelling ≠ (Value.integer i).spelling := by
  intro heq
  have hnumeric : Numeric (Value.integer i).spelling.2 := numeric_toDigits _
  exact not_numeric_boolean b (heq ▸ hnumeric)

theorem boolean_ne_float (b : Bool) {x : Double} (hx : (Value.float x).IsKey) :
    (Value.boolean b).spelling ≠ (Value.float x).spelling := by
  intro heq
  cases hfinite : x.isFinite with
  | true => exact not_numeric_boolean b (heq ▸ numeric_float hx hfinite)
  | false =>
    have hspelled : (Value.boolean b).spelling.2 = ['i', 'n', 'f'] := by
      rw [heq, spelling_of_infinite hfinite]
    cases b with
    | _ => exact absurd hspelled (by decide)

/-- The digits of an integer are read as a number that rounds to no float among the keys. -/
theorem toDigits_ne_shortest {x : Double} (hfinite : x.isFinite = true) (hx : x.int64? = none)
    (i : Int64) : Nat.toDigits 10 i.toInt.natAbs ≠ (x.shortest .up).positional := by
  intro heq
  have hrounds := Double.rounds_shortest .up (Double.isZero_of_int64? hx)
  rw [← heq, readPositional_toDigits] at hrounds
  rw [Double.eq_firstBeyond_of_rounds hfinite hx hrounds] at heq
  -- the one float that is left has a text of its own, which is above its value
  have hbeyond : (Double.firstBeyond.shortest .up).positional = Nat.toDigits 10 9223372036854776000 := by
    decide
  have habs := toDigits_inj (heq.trans hbeyond)
  have hlow := i.le_toInt
  have hhigh := i.toInt_lt
  omega

theorem integer_ne_float (i : Int64) {x : Double} (hx : (Value.float x).IsKey) :
    (Value.integer i).spelling ≠ (Value.float x).spelling := by
  intro heq
  cases hfinite : x.isFinite with
  | true =>
    have hspelled := congrArg Prod.snd heq
    simp only [spelling, hfinite, if_true] at hspelled
    exact toDigits_ne_shortest hfinite (hx.notIntegral x rfl) i hspelled
  | false =>
    have hnumeric : Numeric (Value.integer i).spelling.2 := numeric_toDigits _
    rw [heq, spelling_of_infinite hfinite] at hnumeric
    exact absurd hnumeric (not_numeric_cons rfl (by decide))

theorem float_eq_of_spelling {x y : Double} (hx : (Value.float x).IsKey) (hy : (Value.float y).IsKey)
    (h : (Value.float x).spelling = (Value.float y).spelling) : x = y := by
  have hsign : x.negative = y.negative := congrArg Prod.fst h
  refine Double.ext_of_negative_magnitude hsign ?_
  cases hfx : x.isFinite with
  | true => cases hfy : y.isFinite with
    | true =>
      have hspelled := congrArg Prod.snd h
      simp only [spelling, hfx, hfy, if_true] at hspelled
      have hrx := Double.rounds_shortest .up (Double.isZero_of_int64? (hx.notIntegral x rfl))
      have hry := Double.rounds_shortest .up (Double.isZero_of_int64? (hy.notIntegral y rfl))
      rw [hspelled] at hrx
      exact Double.magnitude_eq_of_rounds hrx hry
    | false =>
      have hnumeric := numeric_float hx hfx
      rw [h, spelling_of_infinite hfy] at hnumeric
      exact absurd hnumeric (not_numeric_cons rfl (by decide))
  | false => cases hfy : y.isFinite with
    | true =>
      have hnumeric := numeric_float hy hfy
      rw [← h, spelling_of_infinite hfx] at hnumeric
      exact absurd hnumeric (not_numeric_cons rfl (by decide))
    | false =>
      have hix := hx.isInfinite hfx
      have hiy := hy.isInfinite hfy
      rw [Double.isInfinite, decide_eq_true_eq] at hix hiy
      rw [hix, hiy]

theorem eq_of_spelling {a b : Value} (ha : a.IsKey) (hb : b.IsKey) (hplain : a.IsPlain)
    (hplain' : b.IsPlain) (h : a.spelling = b.spelling) : a = b := by
  cases a with
  | boolean p => cases b with
    | boolean q =>
      cases p with
      | _ => cases q with
        | _ => first | rfl | cases h
    | integer j => exact absurd h (boolean_ne_integer p j)
    | float y => exact absurd h (boolean_ne_float p hb)
    | _ => rcases hplain' with hkind | hkind <;> cases hkind
  | integer i => cases b with
    | boolean q => exact absurd h.symm (boolean_ne_integer q i)
    | integer j =>
      have hsign := decide_eq_decide.1 (congrArg Prod.fst h)
      have habs : i.toInt.natAbs = j.toInt.natAbs := toDigits_inj (congrArg Prod.snd h)
      rw [Int64.toInt_inj.1 (by omega : i.toInt = j.toInt)]
    | float y => exact absurd h (integer_ne_float i hb)
    | _ => rcases hplain' with hkind | hkind <;> cases hkind
  | float x => cases b with
    | boolean q => exact absurd h.symm (boolean_ne_float q ha)
    | integer j => exact absurd h.symm (integer_ne_float j ha)
    | float y => rw [float_eq_of_spelling ha hb h]
    | _ => rcases hplain' with hkind | hkind <;> cases hkind
  | _ => rcases hplain with hkind | hkind <;> cases hkind

/-- **Numbers and booleans that are different keys have different texts.** -/
theorem eq_of_text {a b : Value} (ha : a.IsKey) (hb : b.IsKey) (hplain : a.IsPlain)
    (hplain' : b.IsPlain) (h : a.text = b.text) : a = b := by
  obtain ⟨htext, hdash⟩ := text_eq_spelling ha hplain
  obtain ⟨htext', hdash'⟩ := text_eq_spelling hb hplain'
  rw [htext, htext'] at h
  obtain ⟨hsign, hspelled⟩ := signedText_inj hdash hdash' h
  exact eq_of_spelling ha hb hplain hplain' (Prod.ext hsign hspelled)

end Value
end LuaHost
