import LuaHost.Returns.Shaped

/-!
# LuaHost.Proofs.Returns.Naming

The names of shapes can be read in one way only.

* `Category.name_append_inj`: a category name is told from whatever follows it.
* `Shape.slotNames_append_inj`: so is a list of slots, up to what cannot be read as a further slot.
* `Shape.name_append_inj`: so is the name of a shape, up to the bracket that closes a name around it.
* `Shape.name_identifies`: names, and the messages that speak of them, are different for different
  shapes.
-/

namespace LuaHost

/-! ## Categories -/

namespace Category

/-- No name is the beginning of another. -/
theorem eq_of_name_begins {x y : Category} (h : x.name.toList <+: y.name.toList) : x = y := by
  revert h
  cases x <;> cases y <;> decide

theorem name_append_inj {x y : Category} {u v : List Char}
    (h : x.name.toList ++ u = y.name.toList ++ v) : x = y ∧ u = v := by
  have hx : x.name.toList <+: y.name.toList ++ v := ⟨u, h⟩
  have hxy : x = y := by
    rcases List.prefix_or_prefix_of_prefix hx (List.prefix_append _ v) with hle | hge
    · exact eq_of_name_begins hle
    · exact (eq_of_name_begins hge).symm
  subst hxy
  exact ⟨rfl, List.append_cancel_left h⟩

/-- Brackets, the comma and the first letter of a shape's name begin no category name. -/
theorem name_ne_cons {c : Char} (hc : c = '>' ∨ c = ',' ∨ c = 'M') (x : Category) (u w : List Char) :
    c :: w ≠ x.name.toList ++ u := by
  intro h
  rcases hc with rfl | rfl | rfl <;> cases x <;> cases h

end Category

namespace Shape

/-! ## Slots -/

/-- A further slot with the separator in front of it. -/
def nextSlot (x : Category) : List Char := ',' :: ' ' :: x.name.toList

theorem slotNames_cons (x : Category) (slots : List Category) :
    (slotNames (x :: slots)).toList = x.name.toList ++ slots.flatMap nextSlot := by
  induction slots generalizing x with
  | nil => exact (List.append_nil _).symm
  | cons y rest ih =>
    have hcons : slotNames (x :: y :: rest) = x.name ++ ", " ++ slotNames (y :: rest) := rfl
    rw [hcons, String.toList_append, String.toList_append, ih, List.flatMap_cons, nextSlot,
      List.append_assoc]
    rfl

/-- What cannot be read as one slot more, be it the first or a further one. -/
structure EndsSlots (u : List Char) : Prop where
  notFirst : ∀ (x : Category) (w : List Char), u ≠ x.name.toList ++ w
  notNext : ∀ (x : Category) (w : List Char), u ≠ nextSlot x ++ w

theorem nextSlots_append_inj {a b : List Category} {u v : List Char} (hu : EndsSlots u)
    (hv : EndsSlots v) (h : a.flatMap nextSlot ++ u = b.flatMap nextSlot ++ v) : a = b ∧ u = v := by
  induction a generalizing b with
  | nil => cases b with
    | nil => exact ⟨rfl, h⟩
    | cons y b =>
      rw [List.flatMap_cons, List.append_assoc] at h
      exact absurd h (hu.notNext y _)
  | cons x a ih => cases b with
    | nil =>
      rw [List.flatMap_cons, List.append_assoc] at h
      exact absurd h.symm (hv.notNext x _)
    | cons y b =>
      rw [List.flatMap_cons, List.flatMap_cons, List.append_assoc, List.append_assoc] at h
      have hnames := List.tail_eq_of_cons_eq (List.tail_eq_of_cons_eq h)
      obtain ⟨rfl, hrest⟩ := Category.name_append_inj hnames
      obtain ⟨rfl, huv⟩ := ih hrest
      exact ⟨rfl, huv⟩

theorem slotNames_append_inj {a b : List Category} {u v : List Char} (hu : EndsSlots u)
    (hv : EndsSlots v) (h : (slotNames a).toList ++ u = (slotNames b).toList ++ v) :
    a = b ∧ u = v := by
  cases a with
  | nil => cases b with
    | nil => exact ⟨rfl, h⟩
    | cons y b =>
      rw [slotNames_cons, List.append_assoc] at h
      exact absurd h (hu.notFirst y _)
  | cons x a => cases b with
    | nil =>
      rw [slotNames_cons, List.append_assoc] at h
      exact absurd h.symm (hv.notFirst x _)
    | cons y b =>
      rw [slotNames_cons, slotNames_cons, List.append_assoc, List.append_assoc] at h
      obtain ⟨rfl, hrest⟩ := Category.name_append_inj h
      obtain ⟨rfl, huv⟩ := nextSlots_append_inj hu hv hrest
      exact ⟨rfl, huv⟩

/-! ## Names -/

/-- What every name begins with. -/
def nameStem : List Char := "MultiReturns".toList

/-- The digits that stand behind the stem: the number of slots, or 8 in front of a continuation. -/
def nameDigits : Shape → List Char
  | .untyped => []
  | .fixed slots => Nat.toDigits 10 slots.length
  | .continued _ _ => ['8']

/-- What stands between the slots and the closing bracket: the name of the continuation. -/
def nameTail : Shape → List Char
  | .continued _ tail => ',' :: ' ' :: tail.name.toList
  | _ => []

theorem name_untyped : untyped.name.toList = nameStem := rfl

theorem name_append_of_ne {s : Shape} (h : s ≠ untyped) (r : List Char) :
    s.name.toList ++ r =
      nameStem ++ (s.nameDigits ++ '<' :: ((slotNames s.slots).toList ++ (s.nameTail ++ '>' :: r))) := by
  cases s with
  | untyped => exact absurd rfl h
  | fixed slots =>
    have hname : (fixed slots).name =
        "MultiReturns" ++ toString slots.length ++ "<" ++ slotNames slots ++ ">" := rfl
    simp only [hname, String.toList_append, Nat.toString_eq_repr, Nat.toList_repr, List.append_assoc]
    rfl
  | continued slots tail =>
    have hname : (continued slots tail).name =
        "MultiReturns8<" ++ slotNames slots ++ ", " ++ tail.name ++ ">" := rfl
    simp only [hname, String.toList_append, List.append_assoc]
    rfl

theorem exists_name_append (s : Shape) (r : List Char) : ∃ w, s.name.toList ++ r = 'M' :: w := by
  by_cases hs : s = untyped
  · subst hs
    exact ⟨_, rfl⟩
  · exact ⟨_, name_append_of_ne hs r⟩

theorem isDigit_of_mem_nameDigits {s : Shape} {c : Char} (h : c ∈ s.nameDigits) :
    c.isDigit = true := by
  cases s with
  | untyped => cases h
  | fixed slots => exact Nat.isDigit_of_mem_toDigits (by decide) (by decide) h
  | continued slots tail =>
    rw [List.mem_singleton.1 h]
    rfl

theorem endsSlots_nameTail (s : Shape) (r : List Char) : EndsSlots (s.nameTail ++ '>' :: r) := by
  have hbracket : EndsSlots ('>' :: r) := by
    refine ⟨fun x v => Category.name_ne_cons (by decide) x v _, fun x v h => ?_⟩
    exact absurd (List.cons.inj h).1 (by decide)
  cases s with
  | untyped => exact hbracket
  | fixed slots => exact hbracket
  | continued slots tail =>
    refine ⟨fun x v => Category.name_ne_cons (by decide) x v _, fun x v h => ?_⟩
    obtain ⟨w, hw⟩ := exists_name_append tail ('>' :: r)
    have hname := List.tail_eq_of_cons_eq (List.tail_eq_of_cons_eq h)
    exact Category.name_ne_cons (by decide) x v w (hw.symm.trans hname)

/-! ## One name in front of another text -/

/-- The text that can follow a name: none, or the bracket that closes the name around it. -/
def Closes (r : List Char) : Prop := r = [] ∨ ∃ w, r = '>' :: w

theorem Closes.ne_digits {r : List Char} (hr : Closes r) (s : Shape) (w : List Char) :
    r ≠ s.nameDigits ++ '<' :: w := by
  intro h
  rcases hr with rfl | ⟨v, rfl⟩
  · exact List.append_ne_nil_of_right_ne_nil _ (List.cons_ne_nil _ _) h.symm
  · cases hdigits : s.nameDigits with
    | nil =>
      rw [hdigits] at h
      exact absurd (List.cons.inj h).1 (by decide)
    | cons d ds =>
      rw [hdigits] at h
      have hdigit : d.isDigit = true := isDigit_of_mem_nameDigits (hdigits ▸ List.mem_cons_self ..)
      rw [← (List.cons.inj h).1] at hdigit
      cases hdigit

theorem digits_append_inj {s t : Shape} {u v : List Char}
    (h : s.nameDigits ++ '<' :: u = t.nameDigits ++ '<' :: v) : u = v := by
  have hdrop (s : Shape) (w : List Char) :
      (s.nameDigits ++ '<' :: w).dropWhile Char.isDigit = '<' :: w := by
    rw [List.dropWhile_append_of_pos fun c => isDigit_of_mem_nameDigits]
    rfl
  have hrest := congrArg (List.dropWhile Char.isDigit) h
  rw [hdrop, hdrop] at hrest
  exact List.tail_eq_of_cons_eq hrest

/-- Two names with brackets have the same slots, and go on in the same way. -/
theorem bracketed_append_inj {s t : Shape} {r r' : List Char}
    (h : s.name.toList ++ r = t.name.toList ++ r') (hs : s ≠ untyped) (ht : t ≠ untyped) :
    s.slots = t.slots ∧ s.nameTail ++ '>' :: r = t.nameTail ++ '>' :: r' := by
  rw [name_append_of_ne hs, name_append_of_ne ht] at h
  have hslots := digits_append_inj (List.append_cancel_left h)
  exact slotNames_append_inj (endsSlots_nameTail s r) (endsSlots_nameTail t r') hslots

theorem untyped_append_ne {t : Shape} {r r' : List Char} (hr : Closes r) (ht : t ≠ untyped) :
    untyped.name.toList ++ r ≠ t.name.toList ++ r' := by
  intro h
  rw [name_append_of_ne ht, name_untyped] at h
  exact hr.ne_digits t _ (List.append_cancel_left h)

/-- **A name ends where its shape does**: in front of any text that can follow, it is the name of one
shape only. -/
theorem name_append_inj {s t : Shape} {r r' : List Char} (hr : Closes r) (hr' : Closes r')
    (h : s.name.toList ++ r = t.name.toList ++ r') : s = t ∧ r = r' := by
  induction s generalizing t r r' with
  | untyped =>
    by_cases ht : t = untyped
    · subst ht
      exact ⟨rfl, List.append_cancel_left h⟩
    · exact absurd h (untyped_append_ne hr ht)
  | fixed slots => cases t with
    | untyped => exact absurd h.symm (untyped_append_ne hr' nofun)
    | fixed slots' =>
      obtain ⟨hslots, hrest⟩ := bracketed_append_inj h nofun nofun
      exact ⟨congrArg fixed hslots, List.tail_eq_of_cons_eq hrest⟩
    | continued slots' tail' =>
      -- a bracket where the other name has a comma
      have hrest := (bracketed_append_inj h nofun nofun).2
      exact absurd (List.cons.inj hrest).1 (by decide)
  | continued slots tail ih => cases t with
    | untyped => exact absurd h.symm (untyped_append_ne hr' nofun)
    | fixed slots' =>
      have hrest := (bracketed_append_inj h nofun nofun).2
      exact absurd (List.cons.inj hrest).1 (by decide)
    | continued slots' tail' =>
      obtain ⟨hslots, hrest⟩ := bracketed_append_inj h nofun nofun
      have htails := List.tail_eq_of_cons_eq (List.tail_eq_of_cons_eq hrest)
      obtain ⟨htail, hclosed⟩ := ih (.inr ⟨r, rfl⟩) (.inr ⟨r', rfl⟩) htails
      have hslots : slots = slots' := hslots
      rw [hslots, htail]
      exact ⟨rfl, List.tail_eq_of_cons_eq hclosed⟩

theorem eq_of_name {s t : Shape} (h : s.name = t.name) : s = t :=
  (name_append_inj (.inl rfl) (.inl rfl) (congrArg (String.toList · ++ []) h)).1

end Shape

/-! ## Refused shapes -/

theorem Error.toList_message_unsupportedShape (s : Shape) :
    (Error.unsupportedShape s).message.toList =
      "type '".toList ++ (s.name.toList ++ "' is not a supported MultiReturns type".toList) := by
  have hmessage : (unsupportedShape s).message =
    "type '" ++ s.name ++ "' is not a supported MultiReturns type" := rfl
  rw [hmessage, String.toList_append, String.toList_append, List.append_assoc]

theorem Error.eq_of_message_unsupportedShape {s t : Shape}
    (h : (Error.unsupportedShape s).message = (Error.unsupportedShape t).message) : s = t := by
  have hnames := congrArg String.toList h
  rw [toList_message_unsupportedShape, toList_message_unsupportedShape] at hnames
  have hname := List.append_cancel_right (List.append_cancel_left hnames)
  exact Shape.eq_of_name (String.toList_inj.1 hname)

theorem Shaped.eq_of_create_error {s : Shape} {offset : Nat} {values : List Value} {e : Error}
    (h : create s offset values = .error e) : e = .unsupportedShape s := by
  unfold create at h
  split at h
  · cases h
  · cases h
    rfl

/-- **A name identifies its shape.** Of all shapes, supported or not, with any numbers of slots and any
nesting of continuations, no two have the same name. So the message with which values are refused under
an unsupported shape is that of no other shape either. -/
theorem Shape.name_identifies (s t : Shape) :
    (s.name = t.name ↔ s = t) ∧
    ∀ (offset offset' : Nat) (values values' : List Value) (e e' : Error),
      Shaped.create s offset values = .error e → Shaped.create t offset' values' = .error e' →
        (e.message = e'.message ↔ s = t) := by
  refine ⟨⟨eq_of_name, congrArg name⟩, ?_⟩
  intro offset offset' values values' e e' hs ht
  rw [Shaped.eq_of_create_error hs, Shaped.eq_of_create_error ht]
  exact ⟨Error.eq_of_message_unsupportedShape, fun heq => heq ▸ rfl⟩

/-- Both names begin with `MultiReturns8<` and seven slots. -/
theorem Shape.name_identifies_eight :
    let s := Shape.fixed (List.replicate 8 .any)
    let t := Shape.continued (List.replicate 7 .any) (.fixed [])
    Shaped.create s 0 [] = .error (.unsupportedShape s) ∧
    Shaped.create t 0 [] = .error (.unsupportedShape t) ∧ s.name ≠ t.name ∧
    (Error.unsupportedShape s).message ≠ (Error.unsupportedShape t).message := by
  intro s t
  have hs : Shaped.create s 0 [] = .error (.unsupportedShape s) := if_neg (by decide)
  have ht : Shaped.create t 0 [] = .error (.unsupportedShape t) := if_neg (by decide)
  have hne : s ≠ t := nofun
  obtain ⟨hname, hmessage⟩ := name_identifies s t
  exact ⟨hs, ht, fun h => hne (hname.1 h), fun h => hne ((hmessage 0 0 [] [] _ _ hs ht).1 h)⟩

end LuaHost
