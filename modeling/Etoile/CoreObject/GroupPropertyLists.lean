import Mathlib.Data.Set.Finite.Lattice
import Etoile.CoreObject.PropertyListOutput

/-!
# What the property list of a group gives back

A group is read back whole if no group below it is below itself, no group below it has a multivalue,
none of the groups is read only and not empty, and every object has all the properties that it was
initialized with.
-/

namespace Etoile.CoreObject

open List Option

namespace GroupGraph

open MembersProperty ObjectGraph Relation

variable {U A : Type} {g : GroupGraph U A} {types : PropertyTypes} {self root : U}

theorem initWithPropertyList_propertyList (mv : COMultiValue A) :
    COMultiValue.initWithPropertyList mv.propertyList = some mv := by
  obtain ⟨values, primaryIdentifier⟩ := mv
  cases primaryIdentifier <;>
    simp [COMultiValue.initWithPropertyList, COMultiValue.propertyList, PList.objectForKey,
      lookup_cons, pMultiValueKey, pPrimaryIdentifierKey]

theorem readValue_propertyList {cls : ObjectClass} {entry : String × PropertyValue A}
    (h : types.isMultiValue cls entry.1 = entry.2.isMulti) :
    readValue types cls (entry.1, entry.2.propertyList) = some entry := by
  obtain ⟨key, value⟩ := entry
  unfold readValue
  dsimp only at h ⊢
  rw [h]
  cases value with
  | plain value => rfl
  | multi mv =>
    rw [if_pos (by rfl)]
    show (COMultiValue.initWithPropertyList mv.propertyList).map _ = _
    rw [initWithPropertyList_propertyList]
    rfl

theorem mapM_eq_map {α β : Type} {f : α → Option β} {k : α → β} : ∀ {l : List α},
    (∀ a ∈ l, f a = some (k a)) → l.mapM f = some (l.map k)
  | [], _ => rfl
  | a :: l, h => by
    rw [mapM_cons, h a (by simp), mapM_eq_map fun b hb => h b (by simp [hb])]
    rfl

theorem mapM_map {α β : Type} {f : β → Option α} {k : α → β} : ∀ {l : List α},
    (∀ a ∈ l, f (k a) = some a) → (l.map k).mapM f = some l
  | [], _ => rfl
  | a :: l, h => by
    rw [map_cons, mapM_cons, h a (by simp), mapM_map fun b hb => h b (by simp [hb])]
    rfl

theorem readObject_outputObject (init : ObjectClass → Entries A) (hwf : g.WellFormed types)
    (o : U) : readObject types init (g.outputObject o)
      = some { cls := g.isa o, uid := o, properties := g.properties o ++ init (g.isa o) } := by
  have hvalues : ((g.properties o).map fun entry => (entry.1, entry.2.propertyList)).mapM
      (readValue types (g.isa o)) = some (g.properties o) :=
    mapM_map fun entry hentry => readValue_propertyList (hwf.typed o entry hentry)
  unfold readObject
  rw [if_neg (by simp [outputObject])]
  show (((g.properties o).map fun entry => (entry.1, entry.2.propertyList)).mapM
    (readValue types (g.isa o))).bind _ = _
  rw [hvalues]
  rfl

section Types

def SameTypes (types types' : PropertyTypes) : Prop :=
  ∀ cls key, (types' cls).lookup key = (types cls).lookup key

variable {types' : PropertyTypes}

theorem SameTypes.addPropertiesAndTypes (h : SameTypes types types') (cls : ObjectClass) :
    SameTypes types (types'.addPropertiesAndTypes cls (types cls)) := by
  intro cls' key
  unfold PropertyTypes.addPropertiesAndTypes
  rw [Function.update_apply]
  split_ifs with hcls
  · rw [hcls, lookup_append, h cls key, Option.or_self]
  · exact h cls' key

theorem SameTypes.foldl : ∀ {classes : List (ObjectClass × List (String × COPropertyType))}
    {types' : PropertyTypes}, SameTypes types types' → (∀ c ∈ classes, c.2 = types c.1) →
    SameTypes types (classes.foldl (fun types c => types.addPropertiesAndTypes c.1 c.2) types')
  | [], _, h, _ => h
  | c :: classes, types', h, hc => by
    have hadd := h.addPropertiesAndTypes c.1
    rw [← hc c (by simp)] at hadd
    rw [foldl_cons]
    exact SameTypes.foldl hadd fun c' hc' => hc c' (by simp [hc'])

theorem SameTypes.wellFormed (h : SameTypes types types') (hwf : g.WellFormed types) :
    g.WellFormed types' := by
  refine ⟨hwf.nodup, hwf.belongs, fun u entry hentry => ?_⟩
  rw [← hwf.typed u entry hentry]
  unfold PropertyTypes.isMultiValue PropertyTypes.typeOfProperty
  rw [h]

end Types

variable [DecidableEq U]

section Reading

variable {init : ObjectClass → Entries A}

/-- The properties that are read: no value of a group below becomes a multivalue. -/
def readProperties (g : GroupGraph U A) (init : ObjectClass → Entries A) (root o : U) : Entries A :=
  if o ≠ root ∧ (g.isa o).kind.isKindOfCOGroup then
    (g.properties o).map (fun entry => (entry.1, .plain entry.2.propertyList)) ++ init (g.isa o)
  else g.properties o ++ init (g.isa o)

theorem readEntry_outputEntry (hwf : g.WellFormed types) {o : U} (hroot : o ≠ root)
    (hobject : (g.isa o).kind.isKindOfCOObject = true) :
    readEntry types init (g.outputEntry o)
      = some { cls := g.isa o, uid := o, properties := g.readProperties init root o } := by
  by_cases hgroup : (g.isa o).kind.isKindOfCOGroup = true
  · have hentry : g.outputEntry o = g.outputSubgroup o := if_pos hgroup
    have hread : readEntry types init (g.outputSubgroup o) = some _ := if_pos hgroup
    rw [hentry, hread]
    unfold readProperties
    rw [if_pos ⟨hroot, hgroup⟩]
    simp [outputSubgroup]
  · have hentry : g.outputEntry o = g.outputObject o := if_neg hgroup
    have hread : readEntry types init (g.outputObject o)
        = readObject types init (g.outputObject o) := (if_neg hgroup).trans (if_pos hobject)
    rw [hentry, hread, readObject_outputObject init hwf]
    unfold readProperties
    rw [if_neg fun h => hgroup h.2]

variable {x : ObjectGraph U}

theorem add_value {isa : U → ObjectClass} {property : MembersProperty}
    {uid o : U} (property' : MembersProperty) (u : U) :
    (x.add isa property uid o false).1.value property' u
      = if property' = property ∧ u = uid ∧ o ∉ x.value property uid then
          x.value property uid ++ [o] else x.value property' u := by
  unfold ObjectGraph.add
  dsimp only
  by_cases hmem : o ∈ x.value property uid
  · rw [if_pos hmem, if_neg fun h => h.2.2 hmem]
  · rw [if_neg hmem, if_neg (by simp)]
    by_cases hp : property' = property
    · subst hp
      show (ObjectGraph.setValue _ property' uid _).value property' u = _
      rw [value_setValue_self, addAsParent_value, Function.update_apply]
      by_cases hu : u = uid
      · rw [if_pos hu, if_pos ⟨rfl, hu, hmem⟩]
      · rw [if_neg hu, if_neg fun h => hu h.2.1]
    · show (ObjectGraph.setValue _ property uid _).value property' u = _
      rw [value_setValue_of_ne hp, addAsParent_value, if_neg fun h => hp h.1]

theorem foldl_add {isa : U → ObjectClass} {property : MembersProperty} {uid : U} :
    ∀ {l : List U} {x : ObjectGraph U}, (x.value property uid ++ l).Nodup →
      ∀ property' u, (l.foldl (fun x o => (x.add isa property uid o false).1) x).value property' u
        = if property' = property ∧ u = uid then x.value property uid ++ l
          else x.value property' u
  | [], x, _, property', u => by
    split_ifs with h
    · obtain ⟨rfl, rfl⟩ := h
      simp
    · rfl
  | o :: l, x, h, property', u => by
    have ho : o ∉ x.value property uid := by
      intro ho
      rw [nodup_append] at h
      exact h.2.2 o ho o (by simp) rfl
    have hvalue : (x.add isa property uid o false).1.value property uid
        = x.value property uid ++ [o] := by
      rw [add_value, if_pos ⟨rfl, rfl, ho⟩]
    have hfold := @foldl_add isa property uid l (x.add isa property uid o false).1
      (by rw [hvalue]; simpa using h) property' u
    rw [foldl_cons, hfold, hvalue, add_value, append_assoc]
    split_ifs with h₁ h₂
    · rfl
    · exact absurd ⟨h₂.1, h₂.2.1⟩ h₁
    · rfl

theorem foldl_add_mem {isa : U → ObjectClass} {property : MembersProperty} {uid : U} : ∀ {l : List U}, l ⊆ x.value property uid →
      l.foldl (fun x o => (x.add isa property uid o false).1) x = x
  | [], _ => rfl
  | o :: l, h => by
    have hadd : (x.add isa property uid o false).1 = x := by
      unfold ObjectGraph.add
      dsimp only
      rw [if_pos (h (by simp))]
    rw [foldl_cons, hadd]
    exact foldl_add_mem fun o' ho' => h (by simp [ho'])

variable {intValue : PropertyValue A → ℤ} {objects : List (U × ReadObject U A)}

theorem readMember_eq {object group : ReadObject U A} {uid mid : U}
    (hlookup : objects.lookup mid = some object)
    (hobject : object.cls.kind.isKindOfCOObject = true) :
    readMember intValue objects uid group x mid
      = (x.add (readClass objects) (targetProperty (readClass objects) mid) uid mid
        (isReadOnly intValue fun key => group.properties.lookup key)).1 := by
  have hclass : readClass objects mid = object.cls := by
    unfold readClass
    rw [hlookup]
  unfold readMember targetProperty ObjectGraph.addMember ObjectGraph.addGroup
  rw [hlookup]
  dsimp only
  rw [hclass]
  cases hk : object.cls.kind <;> rw [hk] at hobject <;> first | rfl | cases hobject

def objectRead (g : GroupGraph U A) (init : ObjectClass → Entries A) (root o : U) :
    ReadObject U A where
  cls := g.isa o
  uid := o
  properties := g.readProperties init root o

def AllRead (g : GroupGraph U A) (init : ObjectClass → Entries A) (root : U)
    (objects : List (U × ReadObject U A)) : Prop :=
  ∀ o, g.Connected root o → objects.lookup o = some (g.objectRead init root o)

def readValues (g : GroupGraph U A) (init : ObjectClass → Entries A)
    (intValue : PropertyValue A → ℤ) (root : U) (property : MembersProperty) (s : U) : List U :=
  if isReadOnly intValue fun key => (g.readProperties init root s).lookup key then []
  else g.relations.value property s

theorem readMembers_value (intValue : PropertyValue A → ℤ) (hwf : g.WellFormed types)
    (hread : g.AllRead init root objects) {s : U}
    (hs : g.Below root s) {groups : List (U × List U)}
    (hgroups : groups.lookup s = some (g.members s ++ g.groups s))
    (hempty : ∀ property, x.value property s = []) (property : MembersProperty) (u : U) :
    (readMembers intValue objects groups x s).value property u
      = if u = s then g.readValues init intValue root property s else x.value property u := by
  have hself : objects.lookup s = some _ := hread s hs.connected
  -- what is done for a member, in the terms of the graph
  have hmember : ∀ (x : ObjectGraph U), ∀ o ∈ g.members s ++ g.groups s,
      readMember intValue objects s (g.objectRead init root s) x o
        = (x.add (readClass objects) (targetProperty g.isa o) s o (isReadOnly intValue fun key =>
          (g.readProperties init root s).lookup key)).1 := by
    intro x o ho
    have hmem : o ∈ g.members s := by
      rcases mem_append.1 ho with ho | ho
      · exact ho
      · exact mem_append_right _ ho
    have hlookup := hread o (.inr ⟨s, hs, hmem⟩)
    have hclass : readClass objects o = g.isa o := by
      unfold readClass
      rw [hlookup]
      rfl
    have htarget : targetProperty (readClass objects) o = targetProperty g.isa o := by
      unfold targetProperty
      rw [hclass]
    rw [readMember_eq hlookup (hwf.isKindOfCOObject hmem), htarget]
    rfl
  unfold readMembers readValues
  rw [hgroups, hself]
  dsimp only
  rw [foldl_ext _ _ _ hmember]
  cases isReadOnly intValue fun key => (g.readProperties init root s).lookup key with
  | true =>
    have hadd : ∀ o, (x.add (readClass objects) (targetProperty g.isa o) s o true).1 = x := by
      intro o
      unfold ObjectGraph.add
      dsimp only
      by_cases hmem : o ∈ x.value (targetProperty g.isa o) s
      · rw [if_pos hmem]
      · rw [if_neg hmem, if_pos rfl]
    rw [foldl_fixed' hadd, if_pos rfl]
    split_ifs with hu
    · rw [hu, hempty]
    · rfl
  | false =>
    have hpart : ∀ {property : MembersProperty} (x : ObjectGraph U),
        (g.relations.value property s).foldl (fun x o =>
            (x.add (readClass objects) (targetProperty g.isa o) s o false).1) x
          = (g.relations.value property s).foldl (fun x o =>
            (x.add (readClass objects) property s o false).1) x := by
      intro property x
      refine foldl_ext _ _ _ fun x o ho => ?_
      rw [(hwf.belongs property s o ho).2]
    unfold GroupGraph.members GroupGraph.groups
    rw [foldl_append, foldl_append, hpart, hpart, hpart]
    have hchildren := @foldl_add U _ (readClass objects) kCOGroupChildrenProperty s
      (g.relations.value kCOGroupChildrenProperty s) x
      (by rw [hempty]; exact hwf.nodup kCOGroupChildrenProperty s)
    generalize foldl _ x _ = y at hchildren ⊢
    have hnone : y.value kCOGroupSubgroupsProperty s = [] := by
      rw [hchildren, if_neg (by simp), hempty]
    have hgroups := @foldl_add U _ (readClass objects) kCOGroupSubgroupsProperty s
      (g.relations.value kCOGroupSubgroupsProperty s) y
      (by rw [hnone]; exact hwf.nodup kCOGroupSubgroupsProperty s)
    generalize foldl _ y _ = z at hgroups ⊢
    have hsame : g.relations.value kCOGroupSubgroupsProperty s
        ⊆ z.value kCOGroupSubgroupsProperty s := by
      intro o ho
      rw [hgroups, if_pos ⟨rfl, rfl⟩, hnone]
      exact ho
    rw [hnone] at hgroups
    rw [hempty] at hchildren
    rw [foldl_add_mem hsame, hgroups, hchildren, if_neg (show ¬ false = true by decide)]
    cases property with
    | kCOGroupChildrenProperty => simp
    | kCOGroupSubgroupsProperty => simp

theorem foldl_readMembers (hwf : g.WellFormed types) (hread : g.AllRead init root objects)
    {groups : List (U × List U)} : ∀ {keys : List U} {x : ObjectGraph U}, keys.Nodup →
    (∀ s ∈ keys, g.Below root s ∧ groups.lookup s = some (g.members s ++ g.groups s)) →
    (∀ s ∈ keys, ∀ property, x.value property s = []) →
    ∀ property u, (keys.foldl (readMembers intValue objects groups) x).value property u
      = if u ∈ keys then g.readValues init intValue root property u else x.value property u
  | [], _, _, _, _, _, _ => by simp
  | s :: keys, x, hnodup, hkeys, hempty, property, u => by
    rw [nodup_cons] at hnodup
    obtain ⟨hs, hgroups⟩ := hkeys s (by simp)
    have hvalue := readMembers_value intValue hwf hread hs hgroups (hempty s (by simp))
    have hrest : ∀ s' ∈ keys, ∀ property,
        (readMembers intValue objects groups x s).value property s' = [] := by
      intro s' hs' property
      have hne : s' ≠ s := by
        rintro rfl
        exact hnodup.1 hs'
      rw [hvalue, if_neg hne]
      exact hempty s' (by simp [hs']) property
    rw [foldl_cons, foldl_readMembers hwf hread hnodup.2
      (fun s' hs' => hkeys s' (by simp [hs'])) hrest, hvalue]
    by_cases hu : u = s
    · subst hu
      rw [if_neg hnodup.1]
      simp
    · simp [hu]

theorem mem_allKeys_of_lookup {V : Type} {u : U} {v : V} : ∀ {d : List (U × V)},
    d.lookup u = some v → u ∈ allKeys d
  | (key, value) :: d, h => by
    unfold allKeys
    rw [mem_dedup, map_cons, mem_cons]
    rw [lookup_cons] at h
    split at h
    · next heq => exact .inl (beq_iff_eq.1 heq)
    · exact .inr (mem_dedup.1 (mem_allKeys_of_lookup h))

theorem exists_mem_of_mem_allKeys {V : Type} {u : U} {d : List (U × V)} (h : u ∈ allKeys d) :
    ∃ entry ∈ d, entry.1 = u :=
  mem_map.1 (mem_dedup.1 h)

structure Read (g : GroupGraph U A) (init : ObjectClass → Entries A)
    (intValue : PropertyValue A → ℤ) (root : U) (x : ReadGraph U A) : Prop where
  root_eq : x.root = root
  once : (x.objects.map Prod.fst).Nodup
  keys : ∀ o, o ∈ x.objects.map Prod.fst ↔ g.Connected root o
  objects : g.AllRead init root x.objects
  values : ∀ s, g.Below root s → ∀ property,
    x.relations.value property s = g.readValues init intValue root property s

theorem readGroup_written (init : ObjectClass → Entries A)
    (intValue : PropertyValue A → ℤ) (hwf : g.WellFormed types)
    (hacc : Acc (fun b a => b ∈ g.groups a) root)
    (hroot : (g.isa root).kind.isKindOfCOGroup = true) {propertyList : GroupList U A}
    (hw : g.Written types root propertyList) :
    ∃ x, readGroup types init intValue propertyList = some x ∧ g.Read init intValue root x := by
  have htypes : SameTypes types (types.addPropertiesAndTypes (g.isa root) (types (g.isa root))) :=
    SameTypes.addPropertiesAndTypes (fun _ _ => rfl) (g.isa root)
  have hself := readObject_outputObject init (htypes.wellFormed hwf) root
  have hclasses := htypes.foldl hw.allClasses
  have hkeys : ∀ key, key ∈ allKeys propertyList.allObjects
      ↔ ∃ s, g.Below root s ∧ key ∈ g.members s := by
    intro key
    constructor
    · intro hkey
      obtain ⟨entry, hentry, rfl⟩ := exists_mem_of_mem_allKeys hkey
      exact hw.keys entry hentry
    · intro hkey
      exact mem_allKeys_of_lookup (hw.allObjects key hkey)
  have hentry : ∀ key ∈ allKeys propertyList.allObjects,
      ((propertyList.allObjects.lookup key).bind fun objectList =>
        (readEntry (propertyList.allClasses.foldl
          (fun types c => types.addPropertiesAndTypes c.1 c.2)
          (types.addPropertiesAndTypes (g.isa root) (types (g.isa root)))) init objectList).map
            fun object => (key, object)) = some (key, g.objectRead init root key) := by
    intro key hkey
    obtain ⟨s, hs, hmem⟩ := (hkeys key).1 hkey
    rw [hw.allObjects key ⟨s, hs, hmem⟩, bind_some,
      readEntry_outputEntry (hclasses.wellFormed hwf) (ne_root hwf hacc hroot hs hmem)
        (hwf.isKindOfCOObject hmem)]
    rfl
  -- the root is read as the objects are, and comes before them
  have hrootRead : g.objectRead init root root
      = { cls := g.isa root, uid := root,
          properties := g.properties root ++ init (g.isa root) } := by
    unfold objectRead readProperties
    rw [if_neg fun h => h.1 rfl]
  let objects := (root :: allKeys propertyList.allObjects).map fun key =>
    (key, g.objectRead init root key)
  have hread : readGroup types init intValue propertyList = some {
      root := root
      objects := objects
      relations := (allKeys propertyList.allGroups).foldl
        (readMembers intValue objects propertyList.allGroups) (.empty (readClass objects)) } := by
    unfold readGroup
    rw [hw.object, hw.types_eq, show (g.outputObject root).cls = g.isa root from rfl]
    show (readObject (types.addPropertiesAndTypes (g.isa root) (types (g.isa root))) init
      (g.outputObject root)).bind _ = _
    rw [hself, bind_some, ← hrootRead]
    show bind (mapM _ (allKeys propertyList.allObjects)) _ = _
    rw [mapM_eq_map hentry]
    rfl
  have hconnected : ∀ o, o ∈ root :: allKeys propertyList.allObjects ↔ g.Connected root o := by
    intro o
    rw [mem_cons, hkeys]
    rfl
  have hall : g.AllRead init root objects := by
    intro o ho
    exact @lookup_map_of_mem U _ _ (g.objectRead init root) o _ ((hconnected o).2 ho)
  have hfst : objects.map Prod.fst = root :: allKeys propertyList.allObjects := by
    simp [objects, Function.comp_def]
  refine ⟨_, hread, rfl, ?_, ?_, hall, ?_⟩
  · show (objects.map Prod.fst).Nodup
    rw [hfst, nodup_cons]
    refine ⟨fun hmem => ?_, nodup_dedup _⟩
    obtain ⟨s, hs, hmem⟩ := (hkeys root).1 hmem
    exact ne_root hwf hacc hroot hs hmem rfl
  · intro o
    rw [← hconnected, ← hfst]
  · intro s hs property
    have hgroups : ∀ s ∈ allKeys propertyList.allGroups, g.Below root s
        ∧ propertyList.allGroups.lookup s = some (g.members s ++ g.groups s) := by
      intro s hs
      obtain ⟨entry, hentry, rfl⟩ := exists_mem_of_mem_allKeys hs
      exact ⟨hw.groupKeys entry hentry, hw.allGroups _ (hw.groupKeys entry hentry)⟩
    have hnodup : (allKeys propertyList.allGroups).Nodup := nodup_dedup _
    show (foldl _ _ _ : ObjectGraph U).value property s = _
    rw [foldl_readMembers hwf hall hnodup hgroups (fun _ _ _ => rfl),
      if_pos (mem_allKeys_of_lookup (hw.allGroups s hs))]

end Reading

section Recovery

variable {init : ObjectClass → Entries A} {intValue : PropertyValue A → ℤ} {x : ReadGraph U A}

/-- The same objects with the same properties, each read once, and the same members of groups. -/
structure Recovered (g : GroupGraph U A) (root : U) (x : ReadGraph U A) : Prop where
  root_eq : x.root = root
  once : (x.objects.map Prod.fst).Nodup
  keys : ∀ o, o ∈ x.objects.map Prod.fst ↔ g.Connected root o
  same : ∀ o object, x.objects.lookup o = some object → object.cls = g.isa o ∧ object.uid = o
    ∧ ∀ key, object.properties.lookup key = (g.properties o).lookup key
  members : ∀ s, g.Below root s → ∀ property,
    x.relations.value property s = g.relations.value property s

def RoundTrip (g : GroupGraph U A) (types : PropertyTypes) (init : ObjectClass → Entries A)
    (intValue : PropertyValue A → ℤ) (root : U) : Prop :=
  ∃ propertyList x, Settles (fun fuel => g.outputGroup types fuel root) propertyList
    ∧ readGroup types init intValue propertyList = some x ∧ g.Recovered root x

/-- No group is below itself, none below the root has a multivalue, none is read only unless it is
empty, and no object lacks a property that it was initialized with. -/
structure Recoverable (g : GroupGraph U A) (init : ObjectClass → Entries A)
    (intValue : PropertyValue A → ℤ) (root : U) : Prop where
  acyclic : ∀ s, g.Below root s → ¬ TransGen (fun a b => b ∈ g.groups a) s s
  plain : ∀ s, g.Below root s → s ≠ root → ∀ key mv,
    (g.properties s).lookup key ≠ some (.multi mv)
  writable : ∀ s, g.Below root s → g.members s ≠ [] →
    isReadOnly intValue (fun key => (g.properties s).lookup key) = false
  initialized : ∀ o, g.Connected root o → ∀ key, (init (g.isa o)).lookup key ≠ none →
    (g.properties o).lookup key ≠ none

theorem lookup_map_snd {V W : Type} (f : V → W) (key : String) : ∀ entries : List (String × V),
    (entries.map fun entry => (entry.1, f entry.2)).lookup key = (entries.lookup key).map f
  | [] => rfl
  | (key', value) :: entries => by
    rw [map_cons, lookup_cons, lookup_cons, lookup_map_snd f key entries]
    cases key == key' <;> rfl

theorem lookup_readProperties (o : U) (key : String) :
    (g.readProperties init root o).lookup key
      = (if o ≠ root ∧ (g.isa o).kind.isKindOfCOGroup then
          ((g.properties o).lookup key).map fun value => .plain value.propertyList
        else (g.properties o).lookup key).or ((init (g.isa o)).lookup key) := by
  unfold readProperties
  split_ifs with h
  · rw [lookup_append]
    exact congrArg (Option.or · _)
      (lookup_map_snd (fun value => PropertyValue.plain value.propertyList) key (g.properties o))
  · exact lookup_append

/-- All properties of an object are read as they were, if it was initialized with no other and has
no multivalue that is read as a dictionary. -/
theorem lookup_readProperties_iff {o : U} :
    (∀ key, (g.readProperties init root o).lookup key = (g.properties o).lookup key)
      ↔ (∀ key, (init (g.isa o)).lookup key ≠ none → (g.properties o).lookup key ≠ none)
        ∧ (o ≠ root ∧ (g.isa o).kind.isKindOfCOGroup = true →
          ∀ key mv, (g.properties o).lookup key ≠ some (.multi mv)) := by
  constructor
  · intro h
    refine ⟨fun key hinit hnone => ?_, fun hgroup key mv hmulti => ?_⟩
    · have hkey := h key
      rw [lookup_readProperties, hnone] at hkey
      split_ifs at hkey
      · exact hinit hkey
      · exact hinit hkey
    · have hkey := h key
      rw [lookup_readProperties, if_pos hgroup, hmulti] at hkey
      cases hkey
  · rintro ⟨hinit, hplain⟩ key
    rw [lookup_readProperties]
    cases hkey : (g.properties o).lookup key with
    | none =>
      have hnone : (init (g.isa o)).lookup key = none := by
        by_contra hne
        exact hinit key hne hkey
      rw [hnone]
      split_ifs <;> rfl
    | some value =>
      split_ifs with hgroup
      · cases value with
        | plain value => rfl
        | multi mv => exact absurd hkey (hplain hgroup key mv)
      · rfl

theorem Read.recovered_iff (h : g.Read init intValue root x) (hwf : g.WellFormed types)
    (hroot : (g.isa root).kind.isKindOfCOGroup = true)
    (hacyclic : ∀ s, g.Below root s → ¬ TransGen (fun a b => b ∈ g.groups a) s s) :
    g.Recovered root x ↔ g.Recoverable init intValue root := by
  have hsame : (∀ o, g.Connected root o → ∀ key,
      (g.readProperties init root o).lookup key = (g.properties o).lookup key) →
      ∀ s, g.Below root s → (fun key => (g.readProperties init root s).lookup key)
        = fun key => (g.properties s).lookup key :=
    fun hsame s hs => funext (hsame s hs.connected)
  constructor
  · intro hrec
    have hlookup : ∀ o, g.Connected root o → ∀ key,
        (g.readProperties init root o).lookup key = (g.properties o).lookup key :=
      fun o ho => (hrec.same o _ (h.objects o ho)).2.2
    refine ⟨hacyclic, ?_, ?_, ?_⟩
    · intro s hs hne
      exact (lookup_readProperties_iff.1 (hlookup s hs.connected)).2
        ⟨hne, hs.isKindOfCOGroup hwf hroot⟩
    · intro s hs hmembers
      by_contra hreadOnly
      rw [Bool.not_eq_false, ← hsame hlookup s hs] at hreadOnly
      have hvalues : ∀ property, g.relations.value property s = [] := by
        intro property
        rw [← hrec.members s hs property, h.values s hs property]
        exact if_pos hreadOnly
      exact hmembers (by unfold members groups; rw [hvalues, hvalues]; rfl)
    · intro o ho
      exact (lookup_readProperties_iff.1 (hlookup o ho)).1
  · intro hrec
    have hlookup : ∀ o, g.Connected root o → ∀ key,
        (g.readProperties init root o).lookup key = (g.properties o).lookup key := by
      intro o ho
      refine lookup_readProperties_iff.2 ⟨hrec.initialized o ho, ?_⟩
      rintro ⟨hne, hgroup⟩
      exact hrec.plain o (ho.below hwf hgroup) hne
    refine ⟨h.root_eq, h.once, h.keys, ?_, ?_⟩
    · intro o object hobject
      have ho : g.Connected root o :=
        (h.keys o).1 (mem_dedup.1 (mem_allKeys_of_lookup hobject))
      rw [h.objects o ho] at hobject
      obtain rfl := some.inj hobject
      exact ⟨rfl, rfl, hlookup o ho⟩
    · intro s hs property
      rw [h.values s hs property]
      unfold readValues
      rw [hsame hlookup s hs]
      by_cases hmembers : g.members s = []
      · have hvalue : g.relations.value property s = [] := by
          obtain ⟨hc, hg⟩ := append_eq_nil_iff.1 hmembers
          cases property with
          | kCOGroupChildrenProperty => exact hc
          | kCOGroupSubgroupsProperty => exact hg
        rw [hvalue, ite_self]
      · rw [hrec.writable s hs hmembers, if_neg (by simp)]

theorem RoundTrip.recoverable (h : g.RoundTrip types init intValue root)
    (hwf : g.WellFormed types) (hroot : (g.isa root).kind.isKindOfCOGroup = true) :
    g.Recoverable init intValue root := by
  obtain ⟨propertyList, x, hsettles, hread, hrec⟩ := h
  obtain ⟨fuel, hfuel⟩ := hsettles.exists_eq
  have hacc := acc_of_outputGroup hwf hfuel
  obtain ⟨propertyList', hsettles', hw⟩ := outputGroup_settles hwf hacc
  obtain rfl := hsettles.unique hsettles'
  obtain ⟨x', hread', hx⟩ := readGroup_written init intValue hwf hacc hroot hw
  obtain rfl := some.inj (hread.symm.trans hread')
  exact (hx.recovered_iff hwf hroot fun s hs => acyclic_of_acc hacc hs).1 hrec

/-- The property list of a group gives the group back exactly if it is recoverable. -/
theorem recovered_iff_recoverable (hwf : g.WellFormed types)
    (hroot : (g.isa root).kind.isKindOfCOGroup = true) (hfin : { s | g.Below root s }.Finite) :
    g.RoundTrip types init intValue root ↔ g.Recoverable init intValue root := by
  refine ⟨fun h => h.recoverable hwf hroot, fun h => ?_⟩
  have hacc := (acc_iff_acyclic hfin).2 h.acyclic
  obtain ⟨propertyList, hsettles, hw⟩ := outputGroup_settles hwf hacc
  obtain ⟨x, hread, hx⟩ := readGroup_written init intValue hwf hacc hroot hw
  exact ⟨propertyList, x, hsettles, hread, (hx.recovered_iff hwf hroot h.acyclic).2 h⟩

end Recovery

/-- The group 0 has the object 1 and the group 2, which has the object too. -/
def twoGroups (properties : ℕ → Entries Unit) : GroupGraph ℕ Unit where
  isa o := if o = 1 then ⟨"COObject", .coObject⟩ else ⟨"COGroup", .coGroup⟩
  properties
  relations := {
    value := fun property u =>
      match property, u with
      | kCOGroupChildrenProperty, 0 | kCOGroupChildrenProperty, 2 => [1]
      | kCOGroupSubgroupsProperty, 0 => [2]
      | _, _ => []
    parents := fun _ => none }

def phoneTypes : PropertyTypes := fun _ => [("phones", 0x101)]

theorem isMultiValue_phoneTypes (cls : ObjectClass) :
    phoneTypes.isMultiValue cls "phones" = true := by
  unfold PropertyTypes.isMultiValue PropertyTypes.typeOfProperty phoneTypes
  decide

def phonesOf (u o : ℕ) : Entries Unit := if o = u then [("phones", .multi {})] else []

variable {properties : ℕ → Entries Unit}

theorem mem_twoGroups {property : MembersProperty} {u o : ℕ}
    (h : o ∈ (twoGroups properties).relations.value property u) :
    property = kCOGroupChildrenProperty ∧ o = 1
      ∨ property = kCOGroupSubgroupsProperty ∧ u = 0 ∧ o = 2 := by
  cases property with
  | kCOGroupChildrenProperty =>
    rcases u with _ | _ | _ | u
    · exact .inl ⟨rfl, mem_singleton.1 h⟩
    · cases h
    · exact .inl ⟨rfl, mem_singleton.1 h⟩
    · cases h
  | kCOGroupSubgroupsProperty =>
    rcases u with _ | u
    · exact .inr ⟨rfl, rfl, mem_singleton.1 h⟩
    · cases h

theorem twoGroups_wellFormed (u : ℕ) : (twoGroups (phonesOf u)).WellFormed phoneTypes := by
  refine ⟨?_, ?_, ?_⟩
  · intro property v
    cases property with
    | kCOGroupChildrenProperty =>
      rcases v with _ | _ | _ | v
      · exact nodup_singleton 1
      · exact nodup_nil
      · exact nodup_singleton 1
      · exact nodup_nil
    | kCOGroupSubgroupsProperty =>
      rcases v with _ | v
      · exact nodup_singleton 2
      · exact nodup_nil
  · intro property v o ho
    rcases mem_twoGroups ho with ⟨rfl, rfl⟩ | ⟨rfl, rfl, rfl⟩
    · exact ⟨rfl, rfl⟩
    · exact ⟨rfl, rfl⟩
  · intro v entry hentry
    have hentry : entry ∈ phonesOf u v := hentry
    unfold phonesOf at hentry
    split_ifs at hentry
    · obtain rfl := mem_singleton.1 hentry
      exact isMultiValue_phoneTypes _
    · cases hentry

theorem below_twoGroups {s : ℕ} (h : (twoGroups properties).Below 0 s) : s = 0 ∨ s = 2 := by
  rcases below_cases_tail.1 h with ⟨s', -, hs⟩ | rfl
  · rcases mem_twoGroups hs with ⟨hproperty, -⟩ | ⟨-, -, rfl⟩
    · cases hproperty
    · exact .inr rfl
  · exact .inl rfl

theorem lt_of_transGen {a b : ℕ}
    (h : TransGen (fun a b => b ∈ (twoGroups properties).groups a) a b) : a < b := by
  have hstep : ∀ {a b : ℕ}, b ∈ (twoGroups properties).groups a → a < b := by
    intro a b hb
    rcases mem_twoGroups hb with ⟨hproperty, -⟩ | ⟨-, rfl, rfl⟩
    · cases hproperty
    · decide
  induction h with
  | single hb => exact hstep hb
  | tail _ hb ih => exact ih.trans (hstep hb)

/-- An object with a multivalue in two groups. -/
theorem shared_object_recovered :
    (twoGroups (phonesOf 1)).RoundTrip phoneTypes (fun _ => []) (fun _ => 0) 0 := by
  refine (recovered_iff_recoverable (twoGroups_wellFormed 1) (by rfl) ?_).2 ⟨?_, ?_, ?_, ?_⟩
  · refine (Set.toFinite ({0, 2} : Set ℕ)).subset ?_
    intro s hs
    exact below_twoGroups hs
  · intro s _ hself
    exact absurd (lt_of_transGen hself) (Nat.lt_irrefl s)
  · intro s hs _ key mv hmulti
    rcases below_twoGroups hs with rfl | rfl
    · cases hmulti
    · cases hmulti
  · intro s hs _
    rcases below_twoGroups hs with rfl | rfl
    · rfl
    · rfl
  · intro o _ key hinit
    exact absurd rfl hinit

/-- A group with a multivalue in another. -/
theorem subgroup_multivalue_lost :
    (twoGroups (phonesOf 2)).WellFormed phoneTypes
      ∧ ¬ (twoGroups (phonesOf 2)).RoundTrip phoneTypes (fun _ => []) (fun _ => 0) 0 := by
  refine ⟨twoGroups_wellFormed 2, fun h => ?_⟩
  have hbelow : (twoGroups (phonesOf 2)).Below 0 2 := ReflTransGen.single (by decide)
  exact (h.recoverable (twoGroups_wellFormed 2) (by rfl)).plain 2 hbelow (by decide) "phones" {} rfl

end GroupGraph

end Etoile.CoreObject
