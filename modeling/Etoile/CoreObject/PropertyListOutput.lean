import Etoile.CoreObject.COPropertyListFormat
import Etoile.CoreObject.GroupMembership
import Etoile.Lib.Walks

/-!
# What is written of a group

The objects and groups below a group are collected if no group below it is below itself, and only
then; its property list has each of them once, and the members of each group.
-/

namespace Etoile.CoreObject

open List Option

namespace GroupGraph

open MembersProperty ObjectGraph Relation

variable {U A : Type} {g : GroupGraph U A} {types : PropertyTypes} {self root : U}

def Below (g : GroupGraph U A) : U → U → Prop := ReflTransGen fun a b => b ∈ g.groups a

def Connected (g : GroupGraph U A) (root o : U) : Prop :=
  o = root ∨ ∃ s, g.Below root s ∧ o ∈ g.members s

/-- Members are where they belong, once; each property is there once, a multivalue if its type says
so. -/
structure WellFormed (g : GroupGraph U A) (types : PropertyTypes) : Prop where
  nodup : ∀ property u, (g.relations.value property u).Nodup
  belongs : ∀ property u, ∀ o ∈ g.relations.value property u,
    ObjectGraph.Belongs g.isa property o
  typed : ∀ u, ∀ entry ∈ g.properties u, types.isMultiValue (g.isa u) entry.1 = entry.2.isMulti

theorem below_cases_tail {s : U} :
    g.Below self s ↔ (∃ s', g.Below self s' ∧ s ∈ g.groups s') ∨ s = self := by
  unfold Below
  rw [ReflTransGen.cases_tail_iff, or_comm]

theorem WellFormed.mem_groups (hwf : g.WellFormed types) {s o : U} (ho : o ∈ g.members s)
    (hgroup : (g.isa o).kind.isKindOfCOGroup = true) : o ∈ g.groups s := by
  rcases mem_append.1 ho with hc | hs
  · have hproperty := (hwf.belongs _ s o hc).2
    unfold targetProperty at hproperty
    rw [if_pos hgroup] at hproperty
    cases hproperty
  · exact hs

theorem WellFormed.isKindOfCOObject (hwf : g.WellFormed types) {s o : U} (ho : o ∈ g.members s) :
    (g.isa o).kind.isKindOfCOObject = true := by
  rcases mem_append.1 ho with ho | ho
  · exact (hwf.belongs _ s o ho).1
  · exact (hwf.belongs _ s o ho).1

theorem Below.connected {s : U} (h : g.Below root s) : g.Connected root s := by
  rcases below_cases_tail.1 h with ⟨s', hs', hmem⟩ | rfl
  · exact .inr ⟨s', hs', mem_append_right _ hmem⟩
  · exact .inl rfl

theorem WellFormed.isKindOfCOGroup (hwf : g.WellFormed types) {s o : U} (ho : o ∈ g.groups s) :
    (g.isa o).kind.isKindOfCOGroup = true := by
  have hproperty := (hwf.belongs kCOGroupSubgroupsProperty s o ho).2
  unfold targetProperty at hproperty
  split_ifs at hproperty with hgroup
  exact hgroup

theorem ne_root (hwf : g.WellFormed types) (hacc : Acc (fun b a => b ∈ g.groups a) root)
    (hroot : (g.isa root).kind.isKindOfCOGroup = true) {s o : U} (hs : g.Below root s)
    (ho : o ∈ g.members s) : o ≠ root := by
  rintro rfl
  exact not_self_of_acc hacc.transGen (TransGen.tail' hs (hwf.mem_groups ho hroot)).swap

theorem Below.isKindOfCOGroup {s : U} (h : g.Below root s) (hwf : g.WellFormed types)
    (hroot : (g.isa root).kind.isKindOfCOGroup = true) : (g.isa s).kind.isKindOfCOGroup = true := by
  rcases below_cases_tail.1 h with ⟨s', -, hs⟩ | rfl
  · exact hwf.isKindOfCOGroup hs
  · exact hroot

theorem Connected.below {o : U} (h : g.Connected root o) (hwf : g.WellFormed types)
    (hgroup : (g.isa o).kind.isKindOfCOGroup = true) : g.Below root o := by
  rcases h with rfl | ⟨s, hs, hmem⟩
  · exact .refl
  · exact hs.tail (hwf.mem_groups hmem hgroup)

def outputEntry (g : GroupGraph U A) (o : U) : ObjectList U A :=
  if (g.isa o).kind.isKindOfCOGroup then g.outputSubgroup o else g.outputObject o

theorem keys_of_forall₂ {V : Type} : ∀ {l : List U} {bs : List (U × V)},
    Forall₂ (fun u b => b.1 = u) l bs → bs.map Prod.fst = l
  | [], [], .nil => rfl
  | _ :: _, _ :: _, .cons h hrest => by
    rw [map_cons, h, keys_of_forall₂ hrest]

variable [DecidableEq U]

theorem lookup_map_of_mem {V : Type} {f : U → V} {o : U} : ∀ {l : List U}, o ∈ l →
    (l.map fun u => (u, f u)).lookup o = some (f o)
  | u :: l, h => by
    rw [map_cons, lookup_cons]
    split
    · next heq => rw [beq_iff_eq.1 heq]
    · next hne =>
      exact lookup_map_of_mem ((mem_cons.1 h).resolve_left fun ho => by simp [ho] at hne)

theorem lookup_map_of_not_mem {V : Type} {f : U → V} {o : U} : ∀ {l : List U}, o ∉ l →
    (l.map fun u => (u, f u)).lookup o = none
  | [], _ => rfl
  | u :: l, h => by
    rw [mem_cons, not_or] at h
    rw [map_cons, lookup_cons]
    split
    · next heq => exact absurd (beq_iff_eq.1 heq) h.1
    · exact lookup_map_of_not_mem h.2

theorem exists_of_mapM {α β : Type} {f : α → Option β} : ∀ {l : List α} {bs : List β},
    l.mapM f = some bs → ∀ a ∈ l, ∃ b, f a = some b
  | [], _, _, a, ha => by cases ha
  | a :: l, bs, h, a', ha' => by
    rw [mapM_cons] at h
    obtain ⟨b, hb, h⟩ := bind_eq_some_iff.1 h
    obtain ⟨bs', hbs', -⟩ := bind_eq_some_iff.1 h
    rcases mem_cons.1 ha' with rfl | ha'
    · exact ⟨b, hb⟩
    · exact exists_of_mapM hbs' a' ha'

theorem collect_eq_gather (found : U → List U) : ∀ (fuel : ℕ) (self : U),
    g.collect found fuel self = gather g.groups found (fun a b => decide (b = a)) fuel self
  | 0, _ => rfl
  | fuel + 1, self => by
    rw [collect, gather]
    simp only [collect_eq_gather found fuel, decide_eq_true_eq]

theorem collect_settles (found : U → List U) (h : Acc (fun b a => b ∈ g.groups a) self) :
    ∃ l, Settles (fun fuel => g.collect found fuel self) l ∧ l.Nodup
      ∧ ∀ o, o ∈ l ↔ ∃ s, g.Below self s ∧ o ∈ found s := by
  simp only [collect_eq_gather]
  exact gather_settles (fun a b hab => of_decide_eq_true hab)
    (Subrelation.accessible (fun hba => hba.1) h)

structure Written (g : GroupGraph U A) (types : PropertyTypes) (root : U)
    (propertyList : GroupList U A) : Prop where
  object : propertyList.object = g.outputObject root
  types_eq : propertyList.types = types (g.isa root)
  allObjects : ∀ o, (∃ s, g.Below root s ∧ o ∈ g.members s) →
    propertyList.allObjects.lookup o = some (g.outputEntry o)
  keys : ∀ entry ∈ propertyList.allObjects, ∃ s, g.Below root s ∧ entry.1 ∈ g.members s
  allClasses : ∀ c ∈ propertyList.allClasses, c.2 = types c.1
  allGroups : ∀ s, g.Below root s →
    propertyList.allGroups.lookup s = some (g.members s ++ g.groups s)
  groupKeys : ∀ entry ∈ propertyList.allGroups, g.Below root entry.1

theorem lookup_of_forall₂ {V : Type} {o : U} {v : V} : ∀ {l : List U} {bs : List (U × V)},
    Forall₂ (fun u b => b.1 = u ∧ (u = o → b.2 = v)) l bs → o ∈ l → bs.lookup o = some v
  | [], _, _, ho => by cases ho
  | u :: l, (key, value) :: bs, .cons ⟨hkey, hvalue⟩ hrest, ho => by
    obtain rfl : key = u := hkey
    rw [lookup_cons]
    split
    · next heq => rw [← hvalue (beq_iff_eq.1 heq).symm]
    · next hne =>
      refine lookup_of_forall₂ hrest ((mem_cons.1 ho).resolve_left fun ho => ?_)
      simp [ho] at hne

theorem outputGroup_settles (hwf : g.WellFormed types)
    (h : Acc (fun b a => b ∈ g.groups a) self) :
    ∃ propertyList, Settles (fun fuel => g.outputGroup types fuel self) propertyList
      ∧ g.Written types self propertyList := by
  have hbelow : ∀ {self o s}, g.Below self s → o ∈ g.members s →
      (g.isa o).kind.isKindOfCOGroup = true → TransGen (fun b a => b ∈ g.groups a) o self := by
    intro self o s hs ho hgroup
    exact (TransGen.tail' hs (hwf.mem_groups ho hgroup)).swap
  induction h.transGen with
  | intro self _ ih =>
    obtain ⟨objects, hobjects, -, hfound⟩ := collect_settles g.members h
    obtain ⟨groups, hgroups, -, hfoundGroups⟩ := collect_settles g.groups h
    have hentry : ∀ o ∈ objects, ∃ entry, Settles (fun fuel =>
        if (g.isa o).kind.isKindOfCOGroup then
          (g.outputGroup types fuel o).map fun propertyList => (o, propertyList.object)
        else some (o, g.outputObject o)) entry
        ∧ entry.1 = o ∧ ((g.isa o).kind.isKindOfCOGroup = false → entry.2 = g.outputObject o) := by
      intro o ho
      obtain ⟨s, hs, hmem⟩ := (hfound o).1 ho
      by_cases hgroup : (g.isa o).kind.isKindOfCOGroup = true
      · have htrans := hbelow hs hmem hgroup
        obtain ⟨propertyList, hsettles, -⟩ := ih o htrans (h.inv_of_transGen htrans)
        refine ⟨(o, propertyList.object), ?_, rfl, fun hfalse => absurd hgroup (by simp [hfalse])⟩
        simp only [if_pos hgroup]
        exact hsettles.map _
      · refine ⟨(o, g.outputObject o), ?_, rfl, fun _ => rfl⟩
        simp only [if_neg hgroup]
        exact settles_some _
    obtain ⟨entries, hentries, hall⟩ := settles_mapM hentry
    refine ⟨_, settles_of_succ (hobjects.bind (hentries.bind (hgroups.bind (settles_some _)))), ?_⟩
    refine ⟨rfl, rfl, ?_, ?_, ?_, ?_, ?_⟩
    · intro o ho
      obtain ⟨s, hs, hmem⟩ := ho
      show (groups.map (fun u => (u, g.outputSubgroup u)) ++ entries).lookup o = _
      rw [lookup_append]
      unfold outputEntry
      by_cases hgroup : (g.isa o).kind.isKindOfCOGroup = true
      · rw [lookup_map_of_mem ((hfoundGroups o).2 ⟨s, hs, hwf.mem_groups hmem hgroup⟩),
          if_pos hgroup]
        rfl
      · have hnot : o ∉ groups := fun ho => by
          obtain ⟨s', -, hmem'⟩ := (hfoundGroups o).1 ho
          exact hgroup (hwf.isKindOfCOGroup hmem')
        rw [lookup_map_of_not_mem hnot, if_neg hgroup, none_or]
        refine lookup_of_forall₂ (hall.imp ?_) ((hfound o).2 ⟨s, hs, hmem⟩)
        rintro u entry ⟨hkey, hvalue⟩
        refine ⟨hkey, ?_⟩
        rintro rfl
        exact hvalue (by simpa using hgroup)
    · intro entry hentry
      rcases mem_append.1 hentry with hentry | hentry
      · obtain ⟨u, hu, rfl⟩ := mem_map.1 hentry
        obtain ⟨s, hs, hmem⟩ := (hfoundGroups u).1 hu
        exact ⟨s, hs, mem_append_right _ hmem⟩
      · refine (hfound _).1 ?_
        rw [← keys_of_forall₂ (hall.imp fun _ _ h => h.1)]
        exact mem_map_of_mem hentry
    · intro c hc
      obtain ⟨cls, -, rfl⟩ := mem_map.1 hc
      rfl
    · intro s hs
      refine @lookup_map_of_mem U _ _ (fun u => g.members u ++ g.groups u) s _ ?_
      rw [mem_append, mem_singleton, hfoundGroups]
      exact below_cases_tail.1 hs
    · intro entry hentry
      obtain ⟨u, hu, rfl⟩ := mem_map.1 hentry
      rw [mem_append, mem_singleton, hfoundGroups] at hu
      exact below_cases_tail.2 hu

/-- A group that is written is not below itself, nor is any other that it leads to. -/
theorem acc_of_outputGroup (hwf : g.WellFormed types) : ∀ {fuel : ℕ} {self : U}
    {propertyList : GroupList U A}, g.outputGroup types fuel self = some propertyList →
    Acc (fun b a => b ∈ g.groups a) self
  | 0, _, _, h => by cases h
  | fuel + 1, self, propertyList, h => by
    rw [outputGroup] at h
    obtain ⟨objects, hobjects, h⟩ := bind_eq_some_iff.1 h
    obtain ⟨entries, hentries, -⟩ := bind_eq_some_iff.1 h
    refine .intro self fun s hs => ?_
    have hgroup := hwf.isKindOfCOGroup hs
    obtain ⟨b, hb⟩ := exists_of_mapM hentries s
      (subset_of_gather ((collect_eq_gather g.members fuel self).symm.trans hobjects)
        (mem_append_right _ hs))
    rw [if_pos hgroup] at hb
    obtain ⟨propertyList', h', -⟩ := map_eq_some_iff.1 hb
    exact acc_of_outputGroup hwf h'

end GroupGraph

end Etoile.CoreObject
