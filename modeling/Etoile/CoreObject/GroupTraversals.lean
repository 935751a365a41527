import Etoile.CoreObject.PropertyListOutput

/-!
# Traversals of groups

`-allObjects`, `-allGroups` and `-parentGroups` recurse along the links between groups and keep no
record of the groups they have been to.  The first two pass over a group that is a member of
itself, and none sees a longer cycle, which `-addGroup:` allows.
-/

namespace Etoile.CoreObject

open Function List

namespace ObjectGraph

open MembersProperty

variable {O : Type} {isa : O → ObjectClass}

def Call.receiver : Call isa → O
  | .addMember self _ _ | .removeMember self _ _ | .addGroup self _ _ | .removeGroup self _ _
  | .replaceObject self _ _ _ => self

def Call.objects : Call isa → List O
  | .addMember self object _ | .removeMember self object _ => [self, object]
  | .addGroup self aGroup _ | .removeGroup self aGroup _ => [self, aGroup.1]
  | .replaceObject self _ otherObject _ => [self, otherObject]

/-- Only groups have members, which are in their place if they have members too; all of them are in
`S`. -/
structure Within (isa : O → ObjectClass) (S : List O) (x : ObjectGraph O) : Prop where
  member : ∀ property self, ∀ o ∈ x.value property self, o ∈ S ∧ (isa self).kind = .coGroup
    ∧ ((isa o).kind = .coGroup → property = kCOGroupSubgroupsProperty)
  parent : ∀ o, ∀ s ∈ x.parentGroups o, s ∈ S

variable [DecidableEq O] {x : ObjectGraph O} {S : List O} {property : MembersProperty}
  {self object o s : O} {l : List O} {ignored : Bool}

theorem mem_parentGroups_addAsParent (h : s ∈ (x.addAsParent isa self object).parentGroups o) :
    s ∈ x.parentGroups o ∨ s = self := by
  unfold addAsParent parentGroups at h
  split_ifs at h
  · cases ha : x.parents object with
    | none =>
      rw [ha] at h
      dsimp only at h
      rw [update_apply] at h
      split_ifs at h
      · cases h
      · exact .inl h
    | some a =>
      rw [ha] at h
      dsimp only at h
      rw [update_apply] at h
      split_ifs at h with ho
      · rcases mem_append.1 h with h | h
        · unfold parentGroups
          rw [ho, ha]
          exact .inl h
        · exact .inr (mem_singleton.1 h)
      · exact .inl h
  · exact .inl h

theorem mem_parentGroups_removeAsParent
    (h : s ∈ (x.removeAsParent isa self object).parentGroups o) : s ∈ x.parentGroups o := by
  unfold removeAsParent parentGroups at h
  split_ifs at h
  · cases ha : x.parents object with
    | none =>
      rw [ha] at h
      exact h
    | some a =>
      rw [ha] at h
      dsimp only at h
      rw [update_apply] at h
      split_ifs at h with ho
      · unfold parentGroups
        rw [ho, ha]
        exact (mem_filter.1 h).1
      · exact h
  · exact h

omit [DecidableEq O] in
theorem within_empty : Within isa S (empty isa) := by
  refine ⟨fun _ _ o ho => (by cases ho), fun o s hs => ?_⟩
  unfold parentGroups empty at hs
  dsimp only at hs
  split_ifs at hs <;> cases hs

theorem Within.setValue (h : Within isa S x) (hl : ∀ o ∈ l, o ∈ S ∧ (isa self).kind = .coGroup
    ∧ ((isa o).kind = .coGroup → property = kCOGroupSubgroupsProperty)) :
    Within isa S (x.setValue property self l) := by
  refine ⟨fun property' self' o ho => ?_, h.parent⟩
  by_cases hp : property' = property
  · subst hp
    rw [value_setValue_self, update_apply] at ho
    split_ifs at ho with hs
    · rw [hs]
      exact hl o ho
    · exact h.member _ _ o ho
  · rw [value_setValue_of_ne hp] at ho
    exact h.member _ _ o ho

theorem Within.addAsParent (h : Within isa S x) (hself : self ∈ S) :
    Within isa S (x.addAsParent isa self object) := by
  refine ⟨?_, fun o s hs => ?_⟩
  · rw [addAsParent_value]
    exact h.member
  · rcases mem_parentGroups_addAsParent hs with hs | rfl
    · exact h.parent o s hs
    · exact hself

theorem Within.removeAsParent (h : Within isa S x) :
    Within isa S (x.removeAsParent isa self object) := by
  refine ⟨?_, fun o s hs => h.parent o s (mem_parentGroups_removeAsParent hs)⟩
  rw [removeAsParent_value]
  exact h.member

theorem Within.removeObject (h : Within isa S x) :
    ∀ o ∈ removeObject (x.value property self) object, o ∈ S ∧ (isa self).kind = .coGroup
      ∧ ((isa o).kind = .coGroup → property = kCOGroupSubgroupsProperty) :=
  fun o ho => h.member property self o (mem_filter.1 ho).1

theorem Within.add (h : Within isa S x) (hself : (isa self).kind = .coGroup) (hselfS : self ∈ S)
    (hobject : object ∈ S)
    (hproperty : (isa object).kind = .coGroup → property = kCOGroupSubgroupsProperty) :
    Within isa S (x.add isa property self object ignored).1 := by
  unfold ObjectGraph.add
  dsimp only
  split_ifs
  · exact h
  · exact h
  · refine (h.addAsParent hselfS).setValue fun o ho => ?_
    rcases mem_append.1 ho with ho | ho
    · exact h.member property self o ho
    · obtain rfl := mem_singleton.1 ho
      exact ⟨hobject, hself, hproperty⟩

theorem Within.remove (h : Within isa S x) :
    Within isa S (x.remove isa property self object ignored).1 := by
  unfold ObjectGraph.remove
  dsimp only
  split_ifs
  · exact h
  · exact h.removeAsParent.setValue h.removeObject
  · exact h

theorem Within.replaceObject {anObject otherObject : O} {temporal : Bool} (h : Within isa S x)
    (hself : (isa self).kind = .coGroup) (hselfS : self ∈ S) (hother : otherObject ∈ S) :
    Within isa S (x.replaceObject isa self anObject otherObject temporal).1 := by
  unfold ObjectGraph.replaceObject
  dsimp only
  split_ifs
  · exact h
  · have hx : Within isa S ((x.removeAsParent isa self anObject).setValue
        (targetProperty isa otherObject) self
        (ObjectGraph.removeObject (x.value (targetProperty isa otherObject) self) anObject)) :=
      h.removeAsParent.setValue h.removeObject
    split
    · exact hx.addAsParent hselfS
    · refine (hx.addAsParent hselfS).setValue fun o ho => ?_
      rcases eq_or_mem_of_mem_insertIdx ho with rfl | ho
      · refine ⟨hother, hself, fun hkind => ?_⟩
        unfold targetProperty
        rw [hkind]
        rfl
      · exact h.removeObject o ho
  · exact h

theorem Within.perform (h : Within isa S x) : ∀ {call : Call isa},
    (isa call.receiver).kind = .coGroup → call.objects ⊆ S → Within isa S (x.perform call)
  | .addMember self object ignored, hself, hS => by
    show Within isa S (x.addMember isa self object ignored).1
    unfold ObjectGraph.addMember addGroup
    split_ifs with hgroup
    · exact h.add hself (hS (by simp [Call.objects])) (hS (by simp [Call.objects])) fun _ => rfl
    · refine h.add hself (hS (by simp [Call.objects])) (hS (by simp [Call.objects])) fun hkind => ?_
      rw [hkind] at hgroup
      exact absurd rfl hgroup
  | .removeMember self object ignored, _, _ => by
    show Within isa S (x.removeMember isa self object ignored).1
    unfold ObjectGraph.removeMember removeGroup
    split_ifs
    · exact h.remove
    · exact h.remove
  | .addGroup _ _ _, hself, hS =>
    h.add hself (hS (by simp [Call.objects])) (hS (by simp [Call.objects])) fun _ => rfl
  | .removeGroup _ _ _, _, _ => h.remove
  | .replaceObject _ _ _ _, hself, hS =>
    h.replaceObject hself (hS (by simp [Call.objects])) (hS (by simp [Call.objects]))

theorem Within.foldl {calls : List (Call isa)} (h : Within isa S x)
    (hself : ∀ call ∈ calls, (isa call.receiver).kind = .coGroup)
    (hS : ∀ call ∈ calls, call.objects ⊆ S) : Within isa S (calls.foldl ObjectGraph.perform x) := by
  induction calls generalizing x with
  | nil => exact h
  | cons call calls ih =>
    exact ih (h.perform (hself call (by simp)) (hS call (by simp)))
      (fun c hc => hself c (by simp [hc])) fun c hc => hS c (by simp [hc])

end ObjectGraph

namespace GroupGraph

open MembersProperty ObjectGraph Relation

variable {U A : Type} [DecidableEq U] (g : GroupGraph U A)

/-- `-parentGroups` of `COObject`; the property itself is `ObjectGraph.parentGroups`. -/
def parentGroups : ℕ → U → Option (List U)
  | 0, _ => none
  | fuel + 1, self => (g.relations.parentGroups self).foldlM (fun set group =>
      (parentGroups fuel group).map fun a => (set ++ a).dedup) (g.relations.parentGroups self).dedup

def BuiltBy (calls : List (Call g.isa)) : Prop :=
  (∀ call ∈ calls, (g.isa call.receiver).kind = .coGroup)
    ∧ g.relations = calls.foldl perform (empty g.isa)

def Member (s o : U) : Prop := o ∈ g.members s

def Subgroup (s o : U) : Prop := o ∈ g.groups s

def Parent (o s : U) : Prop := s ∈ g.relations.parentGroups o

def OtherSubgroup (s o : U) : Prop := o ∈ g.groups s ∧ o ≠ s

def Acyclic (r : U → U → Prop) (a : U) : Prop := ∀ s, ReflTransGen r a s → ¬ TransGen r s s

variable {g} {calls : List (Call g.isa)} {root o : U}

theorem parentGroups_eq_gather : ∀ (fuel : ℕ) (self : U), g.parentGroups fuel self
    = gather g.relations.parentGroups g.relations.parentGroups (fun _ _ => false) fuel self
  | 0, _ => rfl
  | fuel + 1, self => by
    rw [parentGroups, gather]
    simp only [parentGroups_eq_gather fuel, Bool.false_eq_true, if_false]

theorem BuiltBy.within (h : g.BuiltBy calls) :
    Within g.isa (calls.flatMap Call.objects) g.relations := by
  rw [h.2]
  exact within_empty.foldl h.1 fun call hcall o ho => mem_flatMap.2 ⟨call, hcall, ho⟩

theorem BuiltBy.finite (h : g.BuiltBy calls) : { s | ReflTransGen g.Subgroup root s }.Finite := by
  refine Set.Finite.subset (finite_toSet (root :: calls.flatMap Call.objects)) ?_
  intro s hs
  rcases hs.cases_tail with rfl | ⟨s', -, hs⟩
  · exact mem_cons_self
  · exact mem_cons_of_mem _ (h.within.member _ s' s hs).1

theorem BuiltBy.finite_parents (h : g.BuiltBy calls) :
    { s | ReflTransGen g.Parent o s }.Finite := by
  refine Set.Finite.subset (finite_toSet (o :: calls.flatMap Call.objects)) ?_
  intro s hs
  rcases hs.cases_tail with rfl | ⟨s', -, hs⟩
  · exact mem_cons_self
  · exact mem_cons_of_mem _ (h.within.parent s' s hs)

theorem BuiltBy.member_iff (h : g.BuiltBy calls) : TransGen g.Member root o
    ↔ ∃ s, ReflTransGen g.Subgroup root s ∧ o ∈ g.members s := by
  rw [TransGen.tail'_iff]
  refine exists_congr fun s => and_congr_left fun ho => ?_
  have hkind : ∀ {a b : U}, b ∈ g.members a → (g.isa a).kind = .coGroup := by
    intro a b hb
    rcases mem_append.1 hb with hb | hb
    · exact (h.within.member _ a b hb).2.1
    · exact (h.within.member _ a b hb).2.1
  constructor
  · intro hs
    have hgroup := hkind ho
    clear ho
    induction hs with
    | refl => exact .refl
    | tail hab hb ih =>
      refine (ih (hkind hb)).tail ?_
      rcases mem_append.1 hb with hc | hs
      · exact absurd ((h.within.member _ _ _ hc).2.2 hgroup) (by simp)
      · exact hs
  · exact ReflTransGen.mono (fun a b hb => mem_append_right _ hb) root s

theorem acyclic_iff_followed : Acyclic (Followed g.groups fun a b => decide (b = a)) root
    ↔ Acyclic g.OtherSubgroup root := by
  have hlinks : (Followed g.groups fun a b => decide (b = a)) = g.OtherSubgroup := by
    funext a b
    simp [Followed, OtherSubgroup]
  rw [hlinks]

theorem collect_lists_iff (h : g.BuiltBy calls) {found : U → List U} {P : U → Prop}
    (hP : ∀ o, P o ↔ ∃ s, ReflTransGen g.Subgroup root s ∧ o ∈ found s) :
    Lists (fun fuel => g.collect found fuel root) P ↔ Acyclic g.OtherSubgroup root := by
  simp only [collect_eq_gather]
  rw [← acyclic_iff_followed]
  exact lists_gather_iff (fun a b hab => of_decide_eq_true hab) h.finite hP

theorem parentGroups_lists_iff (h : g.BuiltBy calls) :
    Lists (fun fuel => g.parentGroups fuel o) (TransGen g.Parent o) ↔ Acyclic g.Parent o := by
  have hlinks : (Followed g.relations.parentGroups fun _ _ => false) = g.Parent := by
    funext a b
    simp [Followed, Parent]
  simp only [parentGroups_eq_gather]
  rw [← hlinks]
  rw [lists_gather_iff (fun a b hab => (by cases hab)) h.finite_parents]
  · rfl
  · intro s
    rw [hlinks]
    exact TransGen.tail'_iff

theorem BuiltBy.parent_iff (h : g.BuiltBy calls) (hproper : Along perform Proper (empty g.isa) calls)
    {s : U} (ho : (g.isa o).kind.isKindOfCOObject = true) : g.Parent o s ↔ g.Member s o := by
  have hinv : Inv g.isa g.relations := by
    rw [h.2]
    exact Along.invariant (fun x call h hproper => h.perform hproper) inv_empty hproper
  refine (hinv.bidirectional.mem_iff s o ho).symm.trans ?_
  unfold Member members groups
  rw [mem_append]
  constructor
  · rintro ⟨_ | _, hmem⟩
    · exact .inl hmem
    · exact .inr hmem
  · rintro (hmem | hmem)
    · exact ⟨_, hmem⟩
    · exact ⟨_, hmem⟩

/-- In every graph that is built by calls, the objects and groups below a group are listed, each
once, exactly if no group below is in a longer cycle, and the groups above an object exactly if none
is in any.  The groups above are those that the object is below, where every replacement is
proper. -/
theorem traversals_exact_iff (h : g.BuiltBy calls) :
    (∀ root, Lists (fun fuel => g.allObjects fuel root) (TransGen g.Member root)
        ↔ Acyclic g.OtherSubgroup root)
      ∧ (∀ root, Lists (fun fuel => g.allGroups fuel root) (TransGen g.Subgroup root)
        ↔ Acyclic g.OtherSubgroup root)
      ∧ (∀ o, Lists (fun fuel => g.parentGroups fuel o) (TransGen g.Parent o)
        ↔ Acyclic g.Parent o)
      ∧ (Along perform Proper (empty g.isa) calls →
        ∀ o s, (g.isa o).kind.isKindOfCOObject = true → (g.Parent o s ↔ g.Member s o)) :=
  ⟨fun _ => collect_lists_iff h fun _ => h.member_iff,
    fun _ => collect_lists_iff h fun _ => TransGen.tail'_iff,
    fun _ => parentGroups_lists_iff h, fun hproper _ _ ho => h.parent_iff hproper ho⟩

def onlyGroups (_ : ℕ) : ObjectClass := ⟨"COGroup", .coGroup⟩

def groupsOf (calls : List (Call onlyGroups)) : GroupGraph ℕ Unit where
  isa := onlyGroups
  properties _ := []
  relations := calls.foldl perform (empty onlyGroups)

theorem groupsOf_builtBy (calls : List (Call onlyGroups)) : (groupsOf calls).BuiltBy calls :=
  ⟨fun _ _ => rfl, rfl⟩

def intoItself : List (Call onlyGroups) := [.addGroup 0 ⟨0, rfl⟩ false]

theorem own_subgroup_listed : Lists (fun fuel => (groupsOf intoItself).allObjects fuel 0)
    (TransGen (groupsOf intoItself).Member 0) := by
  refine ((traversals_exact_iff (groupsOf_builtBy intoItself)).1 0).2 ?_
  have hnext : ∀ s, ¬ (groupsOf intoItself).OtherSubgroup 0 s :=
    fun s hs => hs.2 (mem_singleton.1 hs.1)
  intro s hs hself
  rcases hs.cases_head with rfl | ⟨s', hs', -⟩
  · obtain ⟨s', hs', -⟩ := TransGen.head'_iff.1 hself
    exact hnext s' hs'
  · exact hnext s' hs'

def intoEachOther : List (Call onlyGroups) :=
  [.addGroup 0 ⟨1, rfl⟩ false, .addGroup 1 ⟨0, rfl⟩ false]

theorem two_groups_not_listed : ¬ ∀ (calls : List (Call onlyGroups)) (root : ℕ),
    Lists (fun fuel => (groupsOf calls).allObjects fuel root)
      (TransGen (groupsOf calls).Member root) := by
  intro h
  have hbuilt := groupsOf_builtBy intoEachOther
  have hthere : (groupsOf intoEachOther).OtherSubgroup 0 1 := ⟨by decide, by decide⟩
  have hback : (groupsOf intoEachOther).OtherSubgroup 1 0 := ⟨by decide, by decide⟩
  exact (collect_lists_iff hbuilt fun _ => hbuilt.member_iff).1 (h intoEachOther 0) 0 .refl
    (.tail (.single hthere) hback)

end GroupGraph

end Etoile.CoreObject
