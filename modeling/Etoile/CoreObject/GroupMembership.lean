import Etoile.CoreObject.COGroup
import Etoile.Lib.Links
import Etoile.Lib.Runs

/-!
# Group membership at both ends

An object is a member of a group just when the group is one of its parents, as long as an object is
replaced by one that goes where it is, and that is not there yet.
-/

namespace Etoile.CoreObject

open Function List Option

namespace ObjectGraph

open MembersProperty COMergeResult

variable {O : Type} {isa : O → ObjectClass} {x : ObjectGraph O}
  {property : MembersProperty} {self object anObject otherObject : O} {ignored temporal : Bool}
  {l : List O}

/-- An object is a member of a group just when the group is one of its parents, once each. -/
structure Bidirectional (isa : O → ObjectClass) (x : ObjectGraph O) : Prop where
  nodup : ∀ property self, (x.value property self).Nodup
  nodup_parents : ∀ object, (x.parentGroups object).Nodup
  mem_iff : ∀ self object, (isa object).kind.isKindOfCOObject = true →
    ((∃ property, object ∈ x.value property self) ↔ self ∈ x.parentGroups object)

/-- The object that is replaced is in the array where the other goes, and the other is not; or
nothing is replaced; or neither object keeps its parents. -/
def Replaceable (isa : O → ObjectClass) (x : ObjectGraph O) (self anObject otherObject : O)
    (temporal : Bool) : Prop :=
  temporal = true ∧ isa otherObject ≠ isa anObject
    ∨ (∀ property, anObject ∉ x.value property self)
    ∨ anObject ∈ x.value (targetProperty isa otherObject) self
      ∧ (otherObject = anObject ∨ otherObject ∉ x.value (targetProperty isa otherObject) self)
    ∨ anObject ∉ x.value (targetProperty isa otherObject) self
      ∧ (isa anObject).kind.isKindOfCOObject = false
      ∧ (isa otherObject).kind.isKindOfCOObject = false

def Proper (x : ObjectGraph O) : Call isa → Prop
  | .replaceObject self anObject otherObject temporal =>
    x.Replaceable isa self anObject otherObject temporal
  | .addMember _ _ _ | .removeMember _ _ _ | .addGroup _ _ _ | .removeGroup _ _ _ => True

/-- The property of a group that holds a `COObject`. -/
def Belongs (isa : O → ObjectClass) (property : MembersProperty) (object : O) : Prop :=
  (isa object).kind.isKindOfCOObject = true ∧ targetProperty isa object = property

instance : DecidablePred (Belongs isa property) :=
  fun _ => inferInstanceAs (Decidable (_ ∧ _))

structure Inv (isa : O → ObjectClass) (x : ObjectGraph O) : Prop where
  linked : ∀ property, Linked (Belongs isa property) (x.value property) x.parentGroups
  belongs : ∀ property self object, object ∈ x.value property self →
    (isa object).kind.isKindOfCOObject = true → targetProperty isa object = property
  parents : ∀ object, (isa object).kind.isKindOfCOObject = true → x.parents object ≠ none

theorem Inv.bidirectional (h : Inv isa x) : x.Bidirectional isa := by
  refine ⟨fun property => (h.linked property).nodup,
    (h.linked kCOGroupChildrenProperty).nodup_up, ?_⟩
  intro self object hobject
  constructor
  · rintro ⟨property, hmem⟩
    exact ((h.linked property).mem_iff self object
      ⟨hobject, h.belongs property self object hmem hobject⟩).1 hmem
  · intro hmem
    exact ⟨targetProperty isa object,
      ((h.linked _).mem_iff self object ⟨hobject, rfl⟩).2 hmem⟩

theorem inv_empty : Inv isa (empty isa) := by
  have hparents : ∀ object, (empty isa).parentGroups object = [] := by
    intro object
    show (if (isa object).kind.isKindOfCOObject then some [] else none).getD [] = []
    split_ifs <;> rfl
  refine ⟨fun property => ⟨fun _ => nodup_nil, ?_, ?_⟩, ?_, ?_⟩
  · intro object
    rw [hparents]
    exact nodup_nil
  · intro self object _
    rw [hparents]
    exact iff_of_false (by simp [empty]) (by simp)
  · intro property self object hmem
    cases hmem
  · intro object hobject
    show (if (isa object).kind.isKindOfCOObject then some [] else none) ≠ none
    rw [if_pos hobject]
    simp

/-- A `COObject` conforms to `COGroup` if it is one. -/
theorem targetProperty_eq (hkind : (isa object).kind.isKindOfCOObject = true) :
    targetProperty isa object = if (isa object).kind.conformsToCOGroup then
      kCOGroupSubgroupsProperty else kCOGroupChildrenProperty := by
  unfold targetProperty
  cases hk : (isa object).kind <;> rw [hk] at hkind <;> first | rfl | cases hkind

variable [DecidableEq O]

theorem value_setValue_self :
    (x.setValue property self l).value property = update (x.value property) self l :=
  update_self ..

theorem value_setValue_of_ne {property' : MembersProperty} (h : property' ≠ property) :
    (x.setValue property self l).value property' = x.value property' :=
  update_of_ne h ..

theorem setValue_self (h : x.value property self = l) : x.setValue property self l = x := by
  subst h
  unfold setValue
  rw [update_eq_self, update_eq_self]

theorem addAsParent_value : (x.addAsParent isa self object).value = x.value := by
  unfold addAsParent
  split_ifs
  · cases x.parents object <;> rfl
  · rfl

theorem removeAsParent_value : (x.removeAsParent isa self object).value = x.value := by
  unfold removeAsParent
  split_ifs
  · cases x.parents object <;> rfl
  · rfl

theorem parentGroups_addAsParent (h : (isa object).kind.isKindOfCOObject = true)
    (hparents : x.parents object ≠ none) : (x.addAsParent isa self object).parentGroups
      = update x.parentGroups object (x.parentGroups object ++ [self]) := by
  obtain ⟨a, ha⟩ := ne_none_iff_exists'.1 hparents
  unfold addAsParent
  rw [if_pos h, ha]
  funext o
  by_cases ho : o = object
  · subst ho
    simp [parentGroups, ha]
  · simp [parentGroups, ho]

theorem parentGroups_addAsParent_of_ne {o : O} (h : o ≠ object) :
    (x.addAsParent isa self object).parentGroups o = x.parentGroups o := by
  unfold addAsParent
  split_ifs
  · cases x.parents object <;> simp [parentGroups, h]
  · rfl

theorem parentGroups_removeAsParent (h : (isa object).kind.isKindOfCOObject = true)
    (hparents : x.parents object ≠ none) : (x.removeAsParent isa self object).parentGroups
      = update x.parentGroups object (removeObject (x.parentGroups object) self) := by
  obtain ⟨a, ha⟩ := ne_none_iff_exists'.1 hparents
  unfold removeAsParent
  rw [if_pos h, ha]
  funext o
  by_cases ho : o = object
  · subst ho
    simp [parentGroups, ha]
  · simp [parentGroups, ho]

theorem addAsParent_other (h : ¬ (isa object).kind.isKindOfCOObject = true) :
    x.addAsParent isa self object = x := if_neg h

theorem removeAsParent_other (h : ¬ (isa object).kind.isKindOfCOObject = true) :
    x.removeAsParent isa self object = x := if_neg h

theorem parents_addAsParent {o : O} (h : x.parents o ≠ none) :
    (x.addAsParent isa self object).parents o ≠ none := by
  unfold addAsParent
  split_ifs
  · cases x.parents object with
    | none =>
      show update x.parents object (some []) o ≠ none
      rw [update_apply]
      split_ifs <;> simp [h]
    | some a =>
      show update x.parents object (some (a ++ [self])) o ≠ none
      rw [update_apply]
      split_ifs <;> simp [h]
  · exact h

theorem parents_removeAsParent {o : O} (h : x.parents o ≠ none) :
    (x.removeAsParent isa self object).parents o ≠ none := by
  unfold removeAsParent
  split_ifs
  · cases x.parents object with
    | none => exact h
    | some a =>
      show update x.parents object (some (removeObject a self)) o ≠ none
      rw [update_apply]
      split_ifs <;> simp [h]
  · exact h

theorem removeObject_eq_erase {a : List O} (h : a.Nodup) :
    removeObject a object = a.erase object := (h.erase_eq_filter object).symm

theorem Inv.setValue {y : ObjectGraph O} (h : Inv isa x) (hvalue : y.value = x.value)
    (hlink : Linked (Belongs isa property) (update (x.value property) self l)
      y.parentGroups)
    (hsame : ∀ o, ¬ Belongs isa property o → y.parentGroups o = x.parentGroups o)
    (hl : ∀ o ∈ l, (isa o).kind.isKindOfCOObject = true → targetProperty isa o = property)
    (hparents : ∀ o, x.parents o ≠ none → y.parents o ≠ none) :
    Inv isa (y.setValue property self l) := by
  refine ⟨?_, ?_, fun o ho => hparents o (h.parents o ho)⟩
  · intro property'
    by_cases hp : property' = property
    · subst hp
      rw [value_setValue_self, hvalue]
      exact hlink
    · rw [value_setValue_of_ne hp, hvalue]
      exact (h.linked property').congr hlink.nodup_up fun o ho =>
        hsame o fun hb => hp (ho.2.symm.trans hb.2)
  · intro property' self' o ho hkind
    by_cases hp : property' = property
    · subst hp
      rw [value_setValue_self, hvalue, update_apply] at ho
      split_ifs at ho with hself
      · exact hl o ho hkind
      · exact h.belongs property' self' o ho hkind
    · rw [value_setValue_of_ne hp, hvalue] at ho
      exact h.belongs property' self' o ho hkind

theorem Inv.insert (h : Inv isa x) (hmem : object ∉ x.value property self)
    (hproperty : (isa object).kind.isKindOfCOObject = true → targetProperty isa object = property)
    (hl : l.Perm (object :: x.value property self)) :
    Inv isa ((x.addAsParent isa self object).setValue property self l) := by
  have hup : Belongs isa property object → (x.addAsParent isa self object).parentGroups
      = update x.parentGroups object (x.parentGroups object ++ [self]) :=
    fun hb => parentGroups_addAsParent hb.1 (h.parents object hb.1)
  have hother : ¬ Belongs isa property object →
      (x.addAsParent isa self object).parentGroups = x.parentGroups := by
    intro hb
    rw [addAsParent_other fun hobject => hb ⟨hobject, hproperty hobject⟩]
  refine h.setValue addAsParent_value ((h.linked property).link hmem hl hup hother) ?_ ?_
    fun o => parents_addAsParent
  · intro o ho
    by_cases hb : Belongs isa property object
    · rw [hup hb]
      refine update_of_ne ?_ ..
      rintro rfl
      exact ho hb
    · rw [hother hb]
  · intro o ho hkind
    rw [hl.mem_iff, mem_cons] at ho
    rcases ho with rfl | ho
    · exact hproperty hkind
    · exact h.belongs property self o ho hkind

theorem Inv.delete (h : Inv isa x) (hmem : object ∈ x.value property self) :
    Inv isa ((x.removeAsParent isa self object).setValue property self
      (removeObject (x.value property self) object)) := by
  have hup : Belongs isa property object → (x.removeAsParent isa self object).parentGroups
      = update x.parentGroups object ((x.parentGroups object).erase self) := by
    intro hb
    rw [parentGroups_removeAsParent hb.1 (h.parents object hb.1),
      removeObject_eq_erase ((h.linked property).nodup_up object)]
  have hother : ¬ Belongs isa property object →
      (x.removeAsParent isa self object).parentGroups = x.parentGroups := by
    intro hb
    rw [removeAsParent_other fun hobject =>
      hb ⟨hobject, h.belongs property self object hmem hobject⟩]
  have hl : removeObject (x.value property self) object = (x.value property self).erase object :=
    removeObject_eq_erase ((h.linked property).nodup self)
  refine h.setValue removeAsParent_value ((h.linked property).unlink (by rw [hl]) hup hother) ?_ ?_
    fun o => parents_removeAsParent
  · intro o ho
    by_cases hb : Belongs isa property object
    · rw [hup hb]
      refine update_of_ne ?_ ..
      rintro rfl
      exact ho hb
    · rw [hother hb]
  · intro o ho hkind
    exact h.belongs property self o (mem_filter.1 ho).1 hkind

theorem Inv.add (h : Inv isa x)
    (hproperty : (isa object).kind.isKindOfCOObject = true → targetProperty isa object = property) :
    Inv isa (x.add isa property self object ignored).1 := by
  unfold ObjectGraph.add
  dsimp only
  split_ifs with hmem
  · exact h
  · exact h
  · exact h.insert hmem hproperty (perm_append_singleton ..)

theorem Inv.remove (h : Inv isa x) : Inv isa (x.remove isa property self object ignored).1 := by
  unfold ObjectGraph.remove
  dsimp only
  split_ifs with hmem
  · exact h
  · exact h.delete hmem
  · exact h

theorem Inv.addMember (h : Inv isa x) : Inv isa (x.addMember isa self object ignored).1 := by
  unfold ObjectGraph.addMember addGroup
  split_ifs with hgroup
  · exact h.add fun hkind => by rw [targetProperty_eq hkind, if_pos hgroup]
  · exact h.add fun hkind => by rw [targetProperty_eq hkind, if_neg hgroup]

theorem Inv.removeMember (h : Inv isa x) : Inv isa (x.removeMember isa self object ignored).1 := by
  unfold ObjectGraph.removeMember removeGroup
  split_ifs
  · exact h.remove
  · exact h.remove

theorem replaceObject_eq (hclass : ¬ (temporal = true ∧ isa otherObject ≠ isa anObject))
    {property' : MembersProperty} (hmem : anObject ∈ x.value property' self) :
    x.replaceObject isa self anObject otherObject temporal =
      let property := targetProperty isa otherObject
      let a := removeObject (x.value property self) anObject
      let y := ((x.removeAsParent isa self anObject).setValue property self a).addAsParent isa self
        otherObject
      match (x.value property self).idxOf? anObject with
      | none => (y, none)
      | some index => (y.setValue property self (a.insertIdx index otherObject),
          some COMergeResultSucceeded) := by
  refine (if_neg hclass).trans (if_neg ?_)
  rw [not_not, mem_append]
  cases property' with
  | kCOGroupChildrenProperty => exact .inl hmem
  | kCOGroupSubgroupsProperty => exact .inr hmem

theorem idxOf?_le_length {a : List O} (ha : a.Nodup) {index : ℕ}
    (h : a.idxOf? anObject = some index) : index ≤ (removeObject a anObject).length := by
  obtain ⟨hlt, hget, -⟩ := idxOf?_eq_some_iff.1 h
  have hmem := mem_of_getElem (by simpa using hget)
  rw [removeObject_eq_erase ha, length_erase_of_mem hmem]
  omega

theorem removeObject_eq_self {a : List O} (h : object ∉ a) : removeObject a object = a := by
  unfold removeObject
  rw [filter_eq_self]
  intro o ho
  rw [bne_iff_ne]
  rintro rfl
  exact h ho

theorem not_mem_removeObject (a : List O) : object ∉ removeObject a object := by
  unfold removeObject
  simp

theorem mem_removeObject {a : List O} (h : otherObject ∈ a) (hne : otherObject ≠ anObject) :
    otherObject ∈ removeObject a anObject :=
  mem_filter.2 ⟨h, bne_iff_ne.2 hne⟩

theorem Inv.replaceObject_mem (h : Inv isa x)
    (hclass : ¬ (temporal = true ∧ isa otherObject ≠ isa anObject))
    (hmem : anObject ∈ x.value (targetProperty isa otherObject) self)
    (hnew : otherObject = anObject ∨ otherObject ∉ x.value (targetProperty isa otherObject) self) :
    Inv isa (x.replaceObject isa self anObject otherObject temporal).1 := by
  have hnodup := (h.linked (targetProperty isa otherObject)).nodup self
  obtain ⟨index, hindex⟩ := isSome_iff_exists.1 (isSome_idxOf?.2 hmem)
  have hvalue : ((x.removeAsParent isa self anObject).setValue (targetProperty isa otherObject) self
      (removeObject (x.value (targetProperty isa otherObject) self) anObject)).value
        (targetProperty isa otherObject) self
      = removeObject (x.value (targetProperty isa otherObject) self) anObject := by
    rw [value_setValue_self, update_self]
  have hinsert := perm_insertIdx otherObject
    (removeObject (x.value (targetProperty isa otherObject) self) anObject)
    (idxOf?_le_length hnodup hindex)
  rw [replaceObject_eq hclass hmem]
  dsimp only
  rw [hindex]
  rw [← hvalue] at hinsert
  refine (h.delete hmem).insert ?_ (fun _ => rfl) (by rw [hvalue] at hinsert ⊢; exact hinsert)
  rw [hvalue]
  intro ho
  rcases hnew with rfl | hnew
  · exact not_mem_removeObject _ ho
  · exact hnew (mem_filter.1 ho).1

theorem Inv.replaceObject (h : Inv isa x)
    (hr : x.Replaceable isa self anObject otherObject temporal) :
    Inv isa (x.replaceObject isa self anObject otherObject temporal).1 := by
  by_cases hclass : temporal = true ∧ isa otherObject ≠ isa anObject
  · unfold ObjectGraph.replaceObject
    rw [if_pos hclass]
    exact h
  by_cases hmem : ∃ property, anObject ∈ x.value property self
  · obtain ⟨property, hmem⟩ := hmem
    rcases hr with hr | hr | ⟨htarget, hnew⟩ | ⟨htarget, hany, hother⟩
    · exact absurd hr hclass
    · exact absurd hmem (hr property)
    · exact h.replaceObject_mem hclass htarget hnew
    · -- no property changes, and the index is not found
      have hindex := idxOf?_eq_none_iff.2 htarget
      rw [replaceObject_eq hclass hmem]
      dsimp only
      rw [hindex, removeObject_eq_self htarget, removeAsParent_other (by simp [hany]),
        setValue_self rfl, addAsParent_other (by simp [hother])]
      exact h
  · have hnone : anObject ∉ x.value kCOGroupChildrenProperty self
        ++ x.value kCOGroupSubgroupsProperty self := by
      rw [mem_append]
      rintro (hc | hs)
      · exact hmem ⟨_, hc⟩
      · exact hmem ⟨_, hs⟩
    unfold ObjectGraph.replaceObject
    rw [if_neg hclass, if_pos hnone]
    exact h

/-- Another replacement leaves a duplicate, or a parent or a member with nothing at the other
end. -/
theorem Inv.not_bidirectional (h : Inv isa x)
    (hr : ¬ x.Replaceable isa self anObject otherObject temporal) :
    ¬ (x.replaceObject isa self anObject otherObject temporal).1.Bidirectional isa := by
  unfold Replaceable at hr
  rw [not_or, not_or, not_or] at hr
  obtain ⟨hclass, hmem, htarget, hforeign⟩ := hr
  rw [not_forall_not] at hmem
  obtain ⟨property, hmem⟩ := hmem
  rw [replaceObject_eq hclass hmem]
  intro hb
  dsimp only at hb
  by_cases hany : anObject ∈ x.value (targetProperty isa otherObject) self
  · -- the other object is a member already
    obtain ⟨hne, hnew⟩ := not_or.1 fun hnew => htarget ⟨hany, hnew⟩
    rw [not_not] at hnew
    obtain ⟨index, hindex⟩ := isSome_iff_exists.1 (isSome_idxOf?.2 hany)
    rw [hindex] at hb
    have hnodup := hb.nodup (targetProperty isa otherObject) self
    rw [value_setValue_self, update_self] at hnodup
    rw [(perm_insertIdx otherObject _ (idxOf?_le_length
      ((h.linked (targetProperty isa otherObject)).nodup self) hindex)).nodup_iff] at hnodup
    exact (nodup_cons.1 hnodup).1 (mem_removeObject hnew hne)
  · rw [idxOf?_eq_none_iff.2 hany, removeObject_eq_self hany] at hb
    dsimp only at hb
    rw [setValue_self (by rw [removeAsParent_value])] at hb
    by_cases hobject : (isa anObject).kind.isKindOfCOObject = true
    · -- the object stays where it is, without its parent
      have hproperty := h.belongs property self anObject hmem hobject
      have hne : anObject ≠ otherObject := by
        rintro rfl
        exact hany (by rwa [hproperty])
      have hself := (hb.mem_iff self anObject hobject).1
        ⟨property, by rwa [addAsParent_value, removeAsParent_value]⟩
      rw [parentGroups_addAsParent_of_ne hne,
        parentGroups_removeAsParent hobject (h.parents anObject hobject),
        update_self] at hself
      exact not_mem_removeObject _ hself
    · -- the other gets a parent that it is no member of, or has already
      have hother : (isa otherObject).kind.isKindOfCOObject = true := by
        by_contra hother
        exact hforeign ⟨hany, by simpa using hobject, by simpa using hother⟩
      rw [removeAsParent_other hobject] at hb
      have hself := (hb.mem_iff self otherObject hother).2
      have hnodup := hb.nodup_parents otherObject
      rw [parentGroups_addAsParent hother (h.parents otherObject hother), update_self]
        at hself hnodup
      obtain ⟨property', hproperty'⟩ := hself (by simp)
      rw [addAsParent_value] at hproperty'
      have hparent := (h.bidirectional.mem_iff self otherObject hother).1 ⟨property', hproperty'⟩
      rw [nodup_append_comm] at hnodup
      exact (nodup_cons.1 hnodup).1 hparent

theorem Inv.perform (h : Inv isa x) : ∀ {call : Call isa}, Proper x call → Inv isa (x.perform call)
  | .addMember _ _ _, _ => h.addMember
  | .removeMember _ _ _, _ => h.removeMember
  | .addGroup _ aGroup _, _ =>
    h.add fun hkind => by rw [targetProperty_eq hkind, if_pos aGroup.2]
  | .removeGroup _ _ _, _ => h.remove
  | .replaceObject _ _ _ _, hproper => h.replaceObject hproper

/-- The members and the parents of all objects agree along a run, if nothing is replaced by what
goes elsewhere or is there already, and only then. -/
theorem bidirectional_iff_proper (calls : List (Call isa)) :
    Along perform (fun x call => (x.perform call).Bidirectional isa) (empty isa) calls
      ↔ Along perform Proper (empty isa) calls := by
  refine along_iff ?_ (fun x call h hproper => h.perform hproper) inv_empty
  intro x call h
  refine ⟨fun hb => ?_, fun hproper => (h.perform hproper).bidirectional⟩
  cases call with
  | replaceObject self anObject otherObject temporal =>
    by_contra hproper
    exact h.not_bidirectional hproper hb
  | _ => trivial

def oneGroup (o : ℕ) : ObjectClass :=
  if o = 0 then ⟨"COGroup", .coGroup⟩ else ⟨"COObject", .coObject⟩

/-- A member is replaced by another. -/
theorem member_replaced_by_member :
    ¬ Along (@perform ℕ _ oneGroup) (fun x call => (x.perform call).Bidirectional oneGroup)
      (empty oneGroup)
      [.addMember 0 1 false, .addMember 0 2 false, .replaceObject 0 1 2 false] := by
  rintro ⟨-, -, h, -⟩
  exact absurd (h.nodup .kCOGroupChildrenProperty 0) (by decide)

end ObjectGraph

end Etoile.CoreObject
