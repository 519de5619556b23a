import LuaHost.Json.Basic

/-!
# LuaHost.Proofs.Json.Members

Members of an object in the order of their names.

* `Json.Ascending`: each name once, in ascending order; `Json.ascending_insertMember` keeps it.
* `Json.objectOf_of_ascending`: members in order are left as they are.
* `Json.exists_objectOf`: of members with different names none is lost.
* `Json.objectOf_of_perm`: so their order does not matter.
-/

namespace LuaHost.Json

def Ascending (members : List (String × Json)) : Prop := members.Pairwise fun a b => a.1 < b.1

theorem Ascending.nodup {members : List (String × Json)} (h : Ascending members) :
    (members.map Prod.fst).Nodup :=
  List.pairwise_map.2 (h.imp String.ne_of_lt)

/-- The members are put to their places among those that are in order already. -/
def insertAll (sorted members : List (String × Json)) : List (String × Json) :=
  members.foldl (fun sorted (name, value) => insertMember name value sorted) sorted

theorem insertAll_cons (sorted : List (String × Json)) (member : String × Json)
    (rest : List (String × Json)) :
    insertAll sorted (member :: rest) = insertAll (insertMember member.1 member.2 sorted) rest := rfl

theorem objectOf_eq (members : List (String × Json)) :
    objectOf members = .object (insertAll [] members) := rfl

theorem lt_of_not_lt {a b : String} (hlt : ¬ a < b) (hne : a ≠ b) : b < a := by
  apply Decidable.byContradiction
  intro hge
  exact hne (String.le_antisymm (String.not_lt.1 hge) (String.not_lt.1 hlt))

/-! ## One member -/

theorem mem_insertMember {name : String} {value : Json} {members : List (String × Json)}
    {member : String × Json} (h : member ∈ insertMember name value members) :
    member = (name, value) ∨ member ∈ members := by
  induction members with
  | nil => exact .inl (List.mem_singleton.1 h)
  | cons first rest ih =>
    obtain ⟨other, old⟩ := first
    rw [insertMember] at h
    split at h
    · exact List.mem_cons.1 h
    · split at h
      · rcases List.mem_cons.1 h with heq | hrest
        · exact .inl heq
        · exact .inr (List.mem_cons_of_mem _ hrest)
      · rcases List.mem_cons.1 h with heq | hrest
        · exact .inr (List.mem_cons.2 (.inl heq))
        · rcases ih hrest with heq | hmem
          · exact .inl heq
          · exact .inr (List.mem_cons_of_mem _ hmem)

theorem ascending_insertMember {name : String} {value : Json} {members : List (String × Json)}
    (h : Ascending members) : Ascending (insertMember name value members) := by
  induction members with
  | nil => exact List.pairwise_singleton ..
  | cons first rest ih =>
    obtain ⟨other, old⟩ := first
    obtain ⟨hfirst, hrest⟩ := List.pairwise_cons.1 h
    rw [insertMember]
    split
    · rename_i hlt
      refine List.pairwise_cons.2 ⟨fun member hmember => ?_, h⟩
      rcases List.mem_cons.1 hmember with rfl | hmember
      · exact hlt
      · exact String.lt_trans hlt (hfirst member hmember)
    · split
      · rename_i heq
        subst heq
        exact List.pairwise_cons.2 ⟨hfirst, hrest⟩
      · rename_i hlt hne
        refine List.pairwise_cons.2 ⟨fun member hmember => ?_, ih hrest⟩
        rcases mem_insertMember hmember with rfl | hmember
        · exact lt_of_not_lt hlt hne
        · exact hfirst member hmember

/-- A name after all others goes to the end. -/
theorem insertMember_of_last {name : String} {value : Json} {members : List (String × Json)}
    (h : ∀ member ∈ members, member.1 < name) :
    insertMember name value members = members ++ [(name, value)] := by
  induction members with
  | nil => rfl
  | cons first rest ih =>
    obtain ⟨other, old⟩ := first
    have hfirst : other < name := h (other, old) (List.mem_cons_self ..)
    rw [insertMember, if_neg (String.lt_asymm hfirst), if_neg (String.ne_of_lt hfirst).symm,
      ih fun member hmember => h member (List.mem_cons_of_mem _ hmember)]
    rfl

theorem insertMember_perm {name : String} {value : Json} {members : List (String × Json)}
    (h : name ∉ members.map Prod.fst) :
    (insertMember name value members).Perm ((name, value) :: members) := by
  induction members with
  | nil => exact .refl _
  | cons first rest ih =>
    obtain ⟨other, old⟩ := first
    rw [List.map_cons, List.mem_cons, not_or] at h
    rw [insertMember]
    split
    · exact .refl _
    · rw [if_neg h.1]
      exact ((ih h.2).cons _).trans (.swap ..)

theorem insertMember_ne_nil (name : String) (value : Json) (members : List (String × Json)) :
    insertMember name value members ≠ [] := by
  cases members with
  | nil => exact List.cons_ne_nil _ _
  | cons first rest =>
    rw [insertMember]
    split
    · exact List.cons_ne_nil _ _
    · split
      · exact List.cons_ne_nil _ _
      · exact List.cons_ne_nil _ _

/-! ## All members -/

theorem ascending_insertAll {sorted : List (String × Json)} (h : Ascending sorted)
    (members : List (String × Json)) : Ascending (insertAll sorted members) := by
  induction members generalizing sorted with
  | nil => exact h
  | cons first rest ih =>
    have hnext : Ascending (insertMember first.1 first.2 sorted) := ascending_insertMember h
    exact ih hnext

theorem mem_of_mem_insertAll {sorted members : List (String × Json)} {member : String × Json}
    (h : member ∈ insertAll sorted members) : member ∈ sorted ∨ member ∈ members := by
  induction members generalizing sorted with
  | nil => exact .inl h
  | cons first rest ih =>
    rw [insertAll_cons] at h
    rcases ih h with hinserted | hrest
    · rcases mem_insertMember hinserted with heq | hsorted
      · exact .inr (List.mem_cons.2 (.inl heq))
      · exact .inl hsorted
    · exact .inr (List.mem_cons_of_mem _ hrest)

theorem insertAll_of_ascending {sorted members : List (String × Json)}
    (h : Ascending (sorted ++ members)) : insertAll sorted members = sorted ++ members := by
  induction members generalizing sorted with
  | nil => exact (List.append_nil sorted).symm
  | cons first rest ih =>
    have hlast : ∀ member ∈ sorted, member.1 < first.1 := fun member hmember =>
      (List.pairwise_append.1 h).2.2 member hmember first (List.mem_cons_self ..)
    have hnext : sorted ++ first :: rest = (sorted ++ [first]) ++ rest := by simp
    rw [hnext] at h
    rw [insertAll_cons, insertMember_of_last hlast, hnext]
    exact ih h

theorem insertAll_perm {sorted members : List (String × Json)}
    (h : ((members ++ sorted).map Prod.fst).Nodup) :
    (insertAll sorted members).Perm (members ++ sorted) := by
  induction members generalizing sorted with
  | nil => exact .refl _
  | cons first rest ih =>
    have hnew : first.1 ∉ sorted.map Prod.fst := by
      intro hmem
      have hfirst := (List.nodup_cons.1 h).1
      exact hfirst (List.map_append ▸ List.mem_append_right _ hmem)
    have hperm : (insertMember first.1 first.2 sorted).Perm (first :: sorted) := insertMember_perm hnew
    have hstep : (rest ++ insertMember first.1 first.2 sorted).Perm (first :: rest ++ sorted) :=
      (hperm.append_left rest).trans List.perm_middle
    exact (ih ((hstep.map Prod.fst).nodup_iff.2 h)).trans hstep

theorem insertAll_ne_nil {sorted : List (String × Json)} (h : sorted ≠ [])
    (members : List (String × Json)) : insertAll sorted members ≠ [] := by
  induction members generalizing sorted with
  | nil => exact h
  | cons first rest ih =>
    have hnext := insertMember_ne_nil first.1 first.2 sorted
    exact ih hnext

/-- The members of an object, in their order. -/
theorem exists_objectOf (members : List (String × Json)) : ∃ sorted, objectOf members = .object sorted ∧
    Ascending sorted ∧ (members ≠ [] → sorted ≠ []) ∧ (∀ member ∈ sorted, member ∈ members) ∧
    ((members.map Prod.fst).Nodup → sorted.Perm members) := by
  refine ⟨insertAll [] members, rfl, ascending_insertAll .nil members, ?_, ?_, ?_⟩
  · intro hne
    cases members with
    | nil => exact absurd rfl hne
    | cons first rest =>
      have hfirst := insertMember_ne_nil first.1 first.2 []
      exact insertAll_ne_nil hfirst rest
  · intro member hmember
    rcases mem_of_mem_insertAll hmember with hnil | hmem
    · cases hnil
    · exact hmem
  · intro hdistinct
    have hperm : (insertAll [] members).Perm (members ++ []) :=
      insertAll_perm (by rwa [List.append_nil])
    rwa [List.append_nil] at hperm

theorem objectOf_of_ascending {members : List (String × Json)} (h : Ascending members) :
    objectOf members = .object members := by
  have hsorted : Ascending ([] ++ members) := h
  rw [objectOf_eq, insertAll_of_ascending hsorted]
  rfl

/-- Objects with the same members, all of different names, are the same. -/
theorem objectOf_of_perm {members members' : List (String × Json)} (hperm : members.Perm members')
    (hdistinct : (members.map Prod.fst).Nodup) : objectOf members = objectOf members' := by
  obtain ⟨sorted, hobject, hascending, _, _, hsorted⟩ := exists_objectOf members
  obtain ⟨sorted', hobject', hascending', _, _, hsorted'⟩ := exists_objectOf members'
  have hall : sorted.Perm sorted' :=
    (hsorted hdistinct).trans (hperm.trans (hsorted' ((hperm.map Prod.fst).nodup_iff.1 hdistinct)).symm)
  rw [hobject, hobject', hall.eq_of_pairwise ?_ hascending hascending']
  intro a b _ _ hab hba
  exact absurd hba (String.lt_asymm hab)

end LuaHost.Json
