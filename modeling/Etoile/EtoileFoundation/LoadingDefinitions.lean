import Etoile.EtoileFoundation.TypeConformance
import Mathlib.Data.List.TakeWhile

/-!
# Definitions of types

The types of a registry have descriptions and tags next to their supertypes.  Definitions are
loaded in two passes: the identifiers that are not in use are registered, then the supertypes of
each definition's identifier are set.
-/

namespace Etoile.EtoileFoundation

abbrev TypeTags := List (UTIString × List UTIString)

/-- A dictionary out of `UTIDefinitions.plist`. -/
structure UTIDefinition where
  typeIdentifier : UTIString
  typeDescription : Option UTIString := none
  typeTagSpecification : Option TypeTags := none
  typeConformsTo : List UTIString := []

def UTIDefinition.conformance (d : UTIDefinition) : UTIString × List UTIString :=
  (d.typeIdentifier, d.typeConformsTo)

/-- The types with what only their initialiser sets, by the order in which they were allocated. -/
structure UTIRegistry where
  types : UTIs := {}
  descriptions : ℕ → Option UTIString := fun _ => none
  tags : ℕ → Option TypeTags := fun _ => none

namespace UTIRegistry

section Fields

variable (r : UTIRegistry)

/-- The type that is made for a class has a description of its own and no tags. -/
def typeDescription : ETUTI → Option UTIString
  | .alloc n => r.descriptions n
  | .objcClass _ => some "Objective-C Class".toList

def typeTags : ETUTI → Option TypeTags
  | .alloc n => r.tags n
  | .objcClass _ => none

def objectForKey (aString : UTIString) : Option ETUTI := r.types.instances.lookup aString

/-- `-initWithString:description:typeTags:`. -/
def initWithString (aString : UTIString) (description : Option UTIString)
    (tags : Option TypeTags) : UTIRegistry × ETUTI :=
  let (types, aType) := r.types.initWithString aString
  (⟨types, Function.update r.descriptions r.types.count description,
    Function.update r.tags r.types.count tags⟩, aType)

def setInstance (aString : UTIString) (a : ETUTI) : UTIRegistry :=
  { r with types := r.types.setInstance aString a }

end Fields

def registerIdentifiers : UTIRegistry → List UTIDefinition → UTIRegistry
  | r, [] => r
  | r, aTypeDict :: definitions =>
    match r.objectForKey aTypeDict.typeIdentifier with
    | some _ => registerIdentifiers r definitions
    | none =>
      let (r, aType) := r.initWithString aTypeDict.typeIdentifier aTypeDict.typeDescription
        aTypeDict.typeTagSpecification
      registerIdentifiers (r.setInstance aTypeDict.typeIdentifier aType) definitions

/-- Both passes.  The second one sets supertypes only, and an exception ends it. -/
def registerUTIDefinitions (rt : Runtime) (r : UTIRegistry) (definitions : List UTIDefinition) :
    UTIRegistry :=
  let r := r.registerIdentifiers definitions
  { r with types := UTIs.registerConformances rt r.types (definitions.map (·.conformance)) }

theorem registerIdentifiers_types : ∀ (definitions : List UTIDefinition) (r : UTIRegistry),
    (r.registerIdentifiers definitions).types
      = r.types.registerIdentifiers (definitions.map (·.conformance))
  | [], _ => rfl
  | d :: ds, r => by
    unfold registerIdentifiers
    rw [List.map_cons]
    unfold UTIs.registerIdentifiers
    show _ = match r.objectForKey d.typeIdentifier with
      | some _ => _
      | none => _
    cases r.objectForKey d.typeIdentifier with
    | some _ => exact registerIdentifiers_types ds r
    | none => exact registerIdentifiers_types ds _

/-- The registry's types are those of the passes without descriptions and tags. -/
theorem registerUTIDefinitions_types (rt : Runtime) (r : UTIRegistry) (ds : List UTIDefinition) :
    (r.registerUTIDefinitions rt ds).types
      = r.types.registerUTIDefinitions rt (ds.map (·.conformance)) := by
  unfold registerUTIDefinitions UTIs.registerUTIDefinitions
  rw [← registerIdentifiers_types]

theorem registerIdentifiers_keeps {n : ℕ} : ∀ (ds : List UTIDefinition) (r : UTIRegistry),
    n < r.types.count → (r.registerIdentifiers ds).descriptions n = r.descriptions n ∧
      (r.registerIdentifiers ds).tags n = r.tags n
  | [], _, _ => ⟨rfl, rfl⟩
  | d :: ds, r, hn => by
    unfold registerIdentifiers
    cases r.objectForKey d.typeIdentifier with
    | some _ => exact registerIdentifiers_keeps ds r hn
    | none =>
      obtain ⟨hdescription, htags⟩ := registerIdentifiers_keeps ds
        ((r.initWithString d.typeIdentifier d.typeDescription d.typeTagSpecification).1.setInstance
          d.typeIdentifier (.alloc r.types.count)) (Nat.lt_succ_of_lt hn)
      refine ⟨hdescription.trans ?_, htags.trans ?_⟩ <;>
        exact Function.update_of_ne hn.ne _ _

end UTIRegistry

namespace UTIs

variable (rt : Runtime) (s : UTIs)

/-- What `+typeWithString:` answers. -/
def typeFor (t : UTIString) : Option ETUTI := (s.typeWithString rt t).2

/-- There will be a type under the string once the identifiers are registered. -/
def foreseen (ds : List (UTIString × List UTIString)) (t : UTIString) : Bool :=
  (s.typeFor rt t).isSome || t ∈ ds.map Prod.fst

/-- The type under a string, unless it is yet to be registered. -/
def oldType (ds : List (UTIString × List UTIString)) (t : UTIString) : Option ETUTI :=
  if s.instances.lookup t = none ∧ t ∈ ds.map Prod.fst then none else s.typeFor rt t

end UTIs

/-- What the last definition of an identifier lists, of those up to the first one that lists an
unknown type. -/
def lastListed (known : UTIString → Bool) (t : UTIString) :
    List (UTIString × List UTIString) → Option (List UTIString)
  | [] => none
  | (t', ts) :: ds =>
    if ts.all known then (lastListed known t ds).or (if t' = t then some ts else none)
    else if t' = t then some ts else none

end Etoile.EtoileFoundation

/-!
## Loading definitions

The first pass allocates one type for each identifier that was not in use.  The second pass gives
the type of an identifier what the last definition that it reaches lists, whether or not the
identifier was in use before.
-/

namespace Etoile.EtoileFoundation

open Function List Option

namespace UTIs

variable {rt : Runtime} {s s' s'' : UTIs} {a b : ETUTI} {t : UTIString} {ts : List UTIString}

/-- Types are registered under their own strings, and have no supertypes before they exist. -/
structure Sound (s : UTIs) : Prop extends Inv s where
  named : ∀ entry ∈ s.instances, s.stringValue entry.2 = entry.1
  unused : ∀ n, s.count ≤ n → s.supertypes (.alloc n) = []

theorem sound_init : Sound {} where
  toInv := inv_init
  named := fun _ hentry => by cases hentry
  unused := fun _ _ => rfl

theorem Sound.stringValue_of_lookup (h : Sound s) (hl : s.instances.lookup t = some a) :
    s.stringValue a = t :=
  h.named (t, a) (mem_of_lookup hl)

theorem Sound.known_of_lookup (h : Sound s) (hl : s.instances.lookup t = some a) : s.Known a :=
  h.instances (t, a) (mem_of_lookup hl)

theorem Sound.setInstance (h : Sound s) (ha : s.Known a ∨ a = .objcClass t)
    (hname : s.stringValue a = t) : Sound (s.setInstance t a) where
  toInv := h.toInv.setInstance ha
  named := fun entry hentry => by
    rcases mem_cons.1 hentry with rfl | hentry
    · exact hname
    · exact h.named entry (mem_filter.1 hentry).1
  unused := h.unused

theorem Sound.setSupertypes (h : Sound s) {l : List ETUTI} (ha : s.Known a ∨ l = [])
    (hl : ∀ b ∈ l, s.Known b) : Sound (s.setSupertypes a l) where
  toInv := h.toInv.setSupertypes ha hl
  named := h.named
  unused := fun n hn => by
    show update s.supertypes a l (.alloc n) = []
    rw [update_apply]
    split_ifs with heq
    · rcases ha with ha | rfl
      · rw [← heq] at ha
        exact absurd ha (Nat.not_lt.2 hn)
      · rfl
    · exact h.unused n hn

theorem stringValue_initWithString (hb : s.Known b) :
    (s.initWithString t).1.stringValue b = s.stringValue b := by
  cases b with
  | alloc n => exact update_of_ne (Nat.ne_of_lt hb) _ _
  | objcClass => rfl

theorem Sound.initWithString (h : Sound s) : Sound (s.initWithString t).1 where
  toInv := h.toInv.initWithString.1
  named := fun entry hentry => by
    rw [stringValue_initWithString (h.instances entry hentry)]
    exact h.named entry hentry
  unused := fun n hn => h.unused n (Nat.le_of_succ_le hn)

def enroll (s : UTIs) (t : UTIString) : UTIs :=
  (s.initWithString t).1.setInstance t (.alloc s.count)

theorem Sound.enroll (h : Sound s) (t : UTIString) : Sound (s.enroll t) :=
  h.initWithString.setInstance (.inl (Nat.lt_succ_self s.count)) (update_self ..)

/-- More classes have been made and supertypes set, but each string stands for the same type. -/
structure Later (rt : Runtime) (s s' : UTIs) : Prop where
  sound : Sound s'
  count : s'.count = s.count
  strings : s'.strings = s.strings
  typeFor : s'.typeFor rt = s.typeFor rt
  lookup : ∀ {t a}, s.instances.lookup t = some a → s'.instances.lookup t = some a

theorem Later.refl (h : Sound s) : Later rt s s := ⟨h, rfl, rfl, rfl, id⟩

theorem Later.trans (h : Later rt s s') (h' : Later rt s' s'') : Later rt s s'' :=
  ⟨h'.sound, h'.count.trans h.count, h'.strings.trans h.strings, h'.typeFor.trans h.typeFor,
    fun hl => h'.lookup (h.lookup hl)⟩

theorem Later.known (h : Later rt s s') (ha : s.Known a) : s'.Known a := by
  cases a with
  | alloc n => exact Nat.lt_of_lt_of_eq ha h.count.symm
  | objcClass string =>
    by_contra hno
    obtain ⟨b, hb⟩ := ne_none_iff_exists'.1 (mt lookup_eq_none_iff.1 (not_not.2 ha))
    exact hno (mem_map.2 ⟨_, mem_of_lookup (h.lookup hb), rfl⟩)

theorem typeFor_of_lookup (hl : s.instances.lookup t = some a) : s.typeFor rt t = some a := by
  unfold typeFor typeWithString
  rw [hl]

theorem typeFor_of_lookup_none (hl : s.instances.lookup t = none) :
    s.typeFor rt t = if isClassString rt t then some (.objcClass t) else none := by
  unfold typeFor typeWithString
  rw [hl]
  dsimp only
  split_ifs <;> rfl

theorem later_typeWithString (rt : Runtime) (h : Sound s) (t : UTIString) :
    Later rt s (s.typeWithString rt t).1
    ∧ (s.typeWithString rt t).1.supertypes = s.supertypes
    ∧ ∀ a, s.typeFor rt t = some a → (s.typeWithString rt t).1.Known a := by
  obtain ⟨-, hextends, hknown, -, -⟩ := typeWithString_spec rt t h.toInv
  refine ⟨?_, hextends.supertypes, hknown⟩
  unfold typeWithString
  cases hl : s.instances.lookup t with
  | some cached => exact .refl h
  | none =>
    dsimp only
    split_ifs with hclass
    · have hother : ∀ t', t' ≠ t → ((s.setSupertypes (.objcClass t) []).setInstance t
          (.objcClass t)).instances.lookup t' = s.instances.lookup t' :=
        fun t' hne => lookup_setInstance_of_ne hne
      refine ⟨(h.setSupertypes (.inr rfl) (by simp)).setInstance (.inr rfl) rfl, rfl, rfl, ?_, ?_⟩
      · funext t'
        by_cases hne : t' = t
        · rw [hne, typeFor_of_lookup lookup_setInstance_self, typeFor_of_lookup_none hl,
            if_pos hclass]
        · cases hl' : s.instances.lookup t' with
          | some a =>
            rw [typeFor_of_lookup hl', typeFor_of_lookup ((hother t' hne).trans hl')]
          | none =>
            rw [typeFor_of_lookup_none hl', typeFor_of_lookup_none ((hother t' hne).trans hl')]
      · intro t' a ha
        refine (hother t' fun heq => ?_).trans ha
        rw [heq, hl] at ha
        cases ha
    · exact .refl h

theorem typeFor_eq (rt : Runtime) (h : s'.instances = s.instances) :
    s'.typeFor rt = s.typeFor rt := by
  funext t
  cases hl : s.instances.lookup t with
  | some a =>
    rw [typeFor_of_lookup hl]
    rw [← h] at hl
    exact typeFor_of_lookup hl
  | none =>
    rw [typeFor_of_lookup_none hl]
    rw [← h] at hl
    exact typeFor_of_lookup_none hl

theorem later_setSupertypes (h : Sound s) {l : List ETUTI} (ha : s.Known a)
    (hl : ∀ b ∈ l, s.Known b) : Later rt s (s.setSupertypes a l) :=
  ⟨h.setSupertypes (.inl ha) hl, rfl, rfl, typeFor_eq rt rfl, id⟩

def typesFound (f : UTIString → Option ETUTI) : List UTIString → List ETUTI
  | [] => []
  | t :: ts => match f t with
    | none => []
    | some a => a :: typesFound f ts

theorem addSupertypes_spec (rt : Runtime) : ∀ (ts : List UTIString) {s : UTIs}, Sound s →
    s.Known a → Later rt s (addSupertypes rt a s ts).1
    ∧ (addSupertypes rt a s ts).1.supertypes
      = update s.supertypes a (s.supertypes a ++ typesFound (s.typeFor rt) ts)
    ∧ (addSupertypes rt a s ts).2 = ts.all fun t => (s.typeFor rt t).isSome
  | [], s, h, _ => ⟨.refl h, by simp [addSupertypes, typesFound], rfl⟩
  | t :: ts, s, h, ha => by
    obtain ⟨hlater, hsupertypes, hknown⟩ := later_typeWithString rt h t
    have hfor : s.typeFor rt t = (s.typeWithString rt t).2 := rfl
    unfold addSupertypes typesFound
    rw [all_cons, hfor]
    rw [hfor] at hknown
    rcases hw : s.typeWithString rt t with ⟨s₁, _ | b⟩ <;>
      rw [hw] at hlater hsupertypes hknown <;> dsimp only at hlater hsupertypes hknown ⊢
    · refine ⟨hlater, ?_, rfl⟩
      rw [hsupertypes, append_nil, update_eq_self]
    · have hset : Later rt s₁ (s₁.setSupertypes a (s₁.supertypes a ++ [b])) := by
        refine later_setSupertypes hlater.sound (hlater.known ha) fun c hc => ?_
        rcases mem_append.1 hc with hc | hc
        · exact hlater.sound.supertypes a c hc
        · obtain rfl := mem_singleton.1 hc
          exact hknown c rfl
      obtain ⟨hrest, hlist, hall⟩ := addSupertypes_spec rt ts hset.sound
        (hset.known (hlater.known ha))
      have hboth := hlater.trans hset
      refine ⟨hboth.trans hrest, ?_, ?_⟩
      · rw [hlist, hboth.typeFor]
        show update (update s₁.supertypes a (s₁.supertypes a ++ [b])) a
          (update s₁.supertypes a (s₁.supertypes a ++ [b]) a ++ _) = _
        rw [update_idem, update_self, hsupertypes, append_assoc]
        rfl
      · rw [hall, hboth.typeFor]
        rfl

theorem setSupertypesFromStrings_spec (rt : Runtime) (ts : List UTIString) (h : Sound s)
    (ha : s.Known a) : Later rt s (s.setSupertypesFromStrings rt a ts).1
    ∧ (s.setSupertypesFromStrings rt a ts).1.supertypes
      = update s.supertypes a (typesFound (s.typeFor rt) ts)
    ∧ (s.setSupertypesFromStrings rt a ts).2 = ts.all fun t => (s.typeFor rt t).isSome := by
  have hset : Later rt s (s.setSupertypes a []) := later_setSupertypes h ha (by simp)
  obtain ⟨hlater, hlist, hall⟩ := addSupertypes_spec rt ts hset.sound (hset.known ha)
  rw [hset.typeFor] at hlist hall
  refine ⟨hset.trans hlater, hlist.trans ?_, hall⟩
  show update (update s.supertypes a []) a
    (update s.supertypes a [] a ++ _) = _
  rw [update_idem, update_self, nil_append]

theorem registerConformances_spec : ∀ (ds : List (UTIString × List UTIString)) {s : UTIs},
    Sound s → (∀ d ∈ ds, s.instances.lookup d.1 ≠ none) →
    Later rt s (registerConformances rt s ds)
    ∧ ∀ {t a}, s.instances.lookup t = some a → (registerConformances rt s ds).supertypes a
      = ((lastListed (fun t => (s.typeFor rt t).isSome) t ds).map
          (typesFound (s.typeFor rt))).getD (s.supertypes a)
  | [], s, h, _ => ⟨.refl h, fun _ => rfl⟩
  | (t', ts) :: ds, s, h, hall => by
    obtain ⟨a', ha'⟩ := ne_none_iff_exists'.1 (hall (t', ts) mem_cons_self)
    have hdefs : ∀ d ∈ ds, s.instances.lookup d.1 ≠ none := fun d hd =>
      hall d (mem_cons_of_mem _ hd)
    obtain ⟨hlater, hlist, hdone⟩ := setSupertypesFromStrings_spec rt ts h
      (h.known_of_lookup ha')
    have hself : ∀ {t a}, s.instances.lookup t = some a → (a = a' ↔ t' = t) := by
      intro t a ha
      constructor
      · rintro rfl
        rw [← h.stringValue_of_lookup ha, h.stringValue_of_lookup ha']
      · rintro rfl
        exact some.inj (ha.symm.trans ha')
    unfold registerConformances lastListed
    rw [ha']
    dsimp only
    rcases hw : s.setSupertypesFromStrings rt a' ts with ⟨s₁, _ | _⟩ <;>
      rw [hw] at hlater hlist hdone <;> dsimp only at hlater hlist hdone ⊢
    · rw [← hdone]
      refine ⟨hlater, fun {t a} ha => ?_⟩
      rw [if_neg Bool.false_ne_true, hlist, update_apply]
      by_cases heq : t' = t
      · rw [if_pos ((hself ha).2 heq), if_pos heq]
        rfl
      · rw [if_neg (mt (hself ha).1 heq), if_neg heq]
        rfl
    · rw [← hdone]
      obtain ⟨hrest, hlast⟩ := registerConformances_spec ds hlater.sound fun d hd => by
        obtain ⟨b, hb⟩ := ne_none_iff_exists'.1 (hdefs d hd)
        rw [hlater.lookup hb]
        exact some_ne_none b
      refine ⟨hlater.trans hrest, fun {t a} ha => ?_⟩
      rw [if_pos rfl, hlast (hlater.lookup ha), hlater.typeFor, hlist, update_apply]
      cases lastListed (fun t => (s.typeFor rt t).isSome) t ds with
      | some ts' => rfl
      | none =>
        by_cases heq : t' = t
        · rw [if_pos ((hself ha).2 heq), if_pos heq]
          rfl
        · rw [if_neg (mt (hself ha).1 heq), if_neg heq]
          rfl

/-- What the first pass allocates is registered, one type for each identifier. -/
structure Enrolled (s s' : UTIs) (ds : List (UTIString × List UTIString)) : Prop where
  sound : Sound s'
  count : s.count ≤ s'.count
  strings : ∀ n, n < s.count → s'.strings n = s.strings n
  supertypes : s'.supertypes = s.supertypes
  old : ∀ {t a}, s.instances.lookup t = some a → s'.instances.lookup t = some a
  new : ∀ {t}, s.instances.lookup t = none → t ∈ ds.map Prod.fst →
    ∃ n, s.count ≤ n ∧ n < s'.count ∧ s'.instances.lookup t = some (.alloc n)
  other : ∀ {t}, t ∉ ds.map Prod.fst → s'.instances.lookup t = s.instances.lookup t
  once : ∀ n, s.count ≤ n → n < s'.count → s'.instances.lookup (s'.strings n) = some (.alloc n)

theorem lookup_enroll_self : (s.enroll t).instances.lookup t = some (.alloc s.count) :=
  lookup_setInstance_self

theorem lookup_enroll_of_ne {t' : UTIString} (hne : t' ≠ t) :
    (s.enroll t).instances.lookup t' = s.instances.lookup t' :=
  lookup_setInstance_of_ne hne

theorem registerIdentifiers_enrolled : ∀ (ds : List (UTIString × List UTIString)) {s : UTIs},
    Sound s → Enrolled s (s.registerIdentifiers ds) ds
  | [], s, h => ⟨h, le_rfl, fun _ _ => rfl, rfl, id, fun _ ht => (by cases ht), fun _ => rfl,
      fun n hn hlt => absurd hlt (Nat.not_lt.2 hn)⟩
  | (t, ts) :: ds, s, h => by
    unfold registerIdentifiers
    cases hl : s.instances.lookup t with
    | some a =>
      have ih := registerIdentifiers_enrolled ds h
      refine { ih with new := fun {t'} hnone ht => ?_, other := fun {t'} ht => ?_ }
      · rcases mem_cons.1 ht with rfl | ht
        · rw [hl] at hnone
          cases hnone
        · exact ih.new hnone ht
      · exact ih.other fun hmem => ht (mem_cons_of_mem _ hmem)
    | none =>
      show Enrolled s ((s.enroll t).registerIdentifiers ds) ((t, ts) :: ds)
      have ih := registerIdentifiers_enrolled ds (h.enroll t)
      have hself : ((s.enroll t).registerIdentifiers ds).instances.lookup t
          = some (.alloc s.count) := ih.old lookup_enroll_self
      refine ⟨ih.sound, ?_, ?_, ih.supertypes, ?_, ?_, ?_, ?_⟩
      · exact Nat.le_of_succ_le ih.count
      · intro n hn
        rw [ih.strings n (Nat.lt_succ_of_lt hn)]
        exact update_of_ne hn.ne _ _
      · intro t' a ha
        refine ih.old ((lookup_enroll_of_ne fun heq => ?_).trans ha)
        rw [heq, hl] at ha
        cases ha
      · intro t' hnone ht
        by_cases heq : t' = t
        · exact ⟨s.count, le_rfl, ih.count, heq ▸ hself⟩
        · obtain ⟨n, hle, hlt, hn⟩ := ih.new ((lookup_enroll_of_ne heq).trans hnone)
            ((mem_cons.1 ht).resolve_left heq)
          exact ⟨n, Nat.le_of_succ_le hle, hlt, hn⟩
      · intro t' ht
        rw [map_cons, mem_cons, not_or] at ht
        exact (ih.other ht.2).trans (lookup_enroll_of_ne ht.1)
      · intro n hle hlt
        rcases Nat.eq_or_lt_of_le hle with rfl | hgt
        · have hstring : ((s.enroll t).registerIdentifiers ds).strings s.count = t :=
            (ih.strings s.count (Nat.lt_succ_self _)).trans (update_self ..)
          rw [hstring]
          exact hself
        · exact ih.once n hgt hlt

theorem Enrolled.registered {ds : List (UTIString × List UTIString)} (h : Enrolled s s' ds)
    (ht : t ∈ ds.map Prod.fst) : ∃ a, s'.instances.lookup t = some a := by
  cases hl : s.instances.lookup t with
  | some a => exact ⟨a, h.old hl⟩
  | none =>
    obtain ⟨n, -, -, hn⟩ := h.new hl ht
    exact ⟨_, hn⟩

theorem registerUTIDefinitions_spec (rt : Runtime) (ds : List (UTIString × List UTIString))
    (h : Sound s) : ∃ s₁, Enrolled s s₁ ds ∧ Later rt s₁ (s.registerUTIDefinitions rt ds)
    ∧ ∀ {t a}, s₁.instances.lookup t = some a → (s.registerUTIDefinitions rt ds).supertypes a
      = ((lastListed (fun t => (s₁.typeFor rt t).isSome) t ds).map
          (typesFound (s₁.typeFor rt))).getD (s₁.supertypes a) := by
  have henrolled := registerIdentifiers_enrolled ds h
  refine ⟨_, henrolled, registerConformances_spec ds henrolled.sound fun d hd => ?_⟩
  obtain ⟨a, ha⟩ := henrolled.registered (mem_map_of_mem hd)
  rw [ha]
  exact some_ne_none a

theorem Sound.registerTypeWithString (h : Sound s) : Sound (s.registerTypeWithString rt t ts) := by
  have hknown : (s.initWithString t).1.Known (.alloc s.count) := Nat.lt_succ_self s.count
  obtain ⟨hlater, -⟩ := setSupertypesFromStrings_spec rt ts (h.initWithString (t := t)) hknown
  unfold UTIs.registerTypeWithString
  rw [show s.initWithString t = ((s.initWithString t).1, .alloc s.count) from rfl]
  dsimp only
  rcases hw : (s.initWithString t).1.setSupertypesFromStrings rt (.alloc s.count) ts with
    ⟨s', _ | _⟩ <;> rw [hw] at hlater
  · exact hlater.sound
  · refine hlater.sound.setInstance (.inl (hlater.known hknown)) ?_
    exact (congrFun hlater.strings s.count).trans (update_self ..)

theorem Sound.register (h : Sound s) : ∀ r : Registration, Sound (s.register rt r)
  | .typeWithString t => (later_typeWithString rt h t).1.sound
  | .registerTypeWithString _ _ => h.registerTypeWithString
  | .registerUTIDefinitions ds => by
    obtain ⟨_, -, hlater, -⟩ := registerUTIDefinitions_spec rt ds h
    exact hlater.sound

theorem Sound.foldl : ∀ (rs : List Registration) {s : UTIs}, Sound s →
    Sound (rs.foldl (UTIs.register rt) s)
  | [], _, h => h
  | r :: rs, _, h => Sound.foldl rs (h.register r)

section Condition

variable {ds : List (UTIString × List UTIString)}

/-- An identifier that is in use is given the supertypes that its type has, if any, and a new one
only supertypes that will exist, and the same ones each time.  What counts is what is listed
last before an exception ends the second pass. -/
structure Harmless (rt : Runtime) (s : UTIs) (ds : List (UTIString × List UTIString)) : Prop where
  registered : ∀ t a ts, s.instances.lookup t = some a →
    lastListed (s.foreseen rt ds) t ds = some ts →
    (ts.takeWhile (s.foreseen rt ds)).map (s.oldType rt ds) = (s.supertypes a).map some
  new : ∀ t ts, (t, ts) ∈ ds → s.instances.lookup t = none →
    ts.all (s.foreseen rt ds) = true ∧ (lastListed (s.foreseen rt ds) t ds).getD [] = ts

theorem lastListed_mem {known : UTIString → Bool} : ∀ {ds : List (UTIString × List UTIString)},
    lastListed known t ds = some ts → (t, ts) ∈ ds
  | (t', ts') :: ds, h => by
    have hself : (if t' = t then some ts' else none) = some ts → (t, ts) = (t', ts') := by
      intro h
      split_ifs at h with ht
      rw [ht, some.inj h]
    unfold lastListed at h
    by_cases hall : ts'.all known = true
    · rw [if_pos hall] at h
      rcases or_eq_some_iff.1 h with h | ⟨-, h⟩
      · exact mem_cons_of_mem _ (lastListed_mem h)
      · exact mem_cons.2 (.inl (hself h))
    · rw [if_neg hall] at h
      exact mem_cons.2 (.inl (hself h))

theorem map_some_typesFound (f : UTIString → Option ETUTI) : ∀ ts : List UTIString,
    (typesFound f ts).map some = (ts.takeWhile fun t => (f t).isSome).map f
  | [] => rfl
  | t :: ts => by
    unfold typesFound
    rw [takeWhile_cons]
    cases hf : f t with
    | none => rfl
    | some a =>
      show some a :: (typesFound f ts).map some = f t :: _
      rw [map_some_typesFound f ts, hf]

theorem Sound.stringValue_of_typeFor (h : Sound s) (ha : s.typeFor rt t = some a) :
    s.stringValue a = t := by
  cases hl : s.instances.lookup t with
  | some b =>
    rw [typeFor_of_lookup hl] at ha
    rw [← some.inj ha]
    exact h.stringValue_of_lookup hl
  | none =>
    rw [typeFor_of_lookup_none hl] at ha
    split_ifs at ha
    rw [← some.inj ha]
    rfl

theorem Sound.map_typeFor_injective (h : Sound s) : ∀ {ts ts' : List UTIString},
    (ts.all fun t => (s.typeFor rt t).isSome) = true →
    ts.map (s.typeFor rt) = ts'.map (s.typeFor rt) → ts = ts'
  | [], [], _, _ => rfl
  | t :: ts, t' :: ts', hall, heq => by
    rw [all_cons, Bool.and_eq_true] at hall
    rw [map_cons, map_cons, cons.injEq] at heq
    obtain ⟨a, ha⟩ := isSome_iff_exists.1 hall.1
    rw [← h.stringValue_of_typeFor ha, ← h.stringValue_of_typeFor (heq.1.symm.trans ha),
      h.map_typeFor_injective hall.2 heq.2]

section Passes

variable (he : Enrolled s s' ds)

include he

theorem Enrolled.typeFor_of_not_mem (rt : Runtime) (ht : t ∉ ds.map Prod.fst) :
    s'.typeFor rt t = s.typeFor rt t := by
  cases hl : s.instances.lookup t with
  | some a => rw [typeFor_of_lookup hl, typeFor_of_lookup ((he.other ht).trans hl)]
  | none => rw [typeFor_of_lookup_none hl, typeFor_of_lookup_none ((he.other ht).trans hl)]

theorem Enrolled.known (rt : Runtime) :
    (fun t => (s'.typeFor rt t).isSome) = s.foreseen rt ds := by
  funext t
  unfold foreseen
  by_cases ht : t ∈ ds.map Prod.fst
  · obtain ⟨a, ha⟩ := he.registered ht
    rw [typeFor_of_lookup ha, decide_eq_true ht, Bool.or_true]
    rfl
  · rw [he.typeFor_of_not_mem rt ht, decide_eq_false ht, Bool.or_false]

theorem Enrolled.typeFor_eq_some (hb : s.Known b) :
    s'.typeFor rt t = some b ↔ s.oldType rt ds t = some b := by
  unfold oldType
  split_ifs with hnew
  · obtain ⟨n, hle, -, hn⟩ := he.new hnew.1 hnew.2
    rw [typeFor_of_lookup hn]
    refine iff_of_false (fun heq => ?_) (by simp)
    rw [← some.inj heq] at hb
    exact absurd hb (Nat.not_lt.2 hle)
  · cases hl : s.instances.lookup t with
    | some a => rw [typeFor_of_lookup hl, typeFor_of_lookup (he.old hl)]
    | none => rw [he.typeFor_of_not_mem rt fun ht => hnew ⟨hl, ht⟩]

theorem Enrolled.map_typeFor : ∀ {ts : List UTIString} {bs : List ETUTI}, (∀ b ∈ bs, s.Known b) →
    (ts.map (s'.typeFor rt) = bs.map some ↔ ts.map (s.oldType rt ds) = bs.map some)
  | [], [], _ => Iff.rfl
  | [], _ :: _, _ => by simp
  | _ :: _, [], _ => by simp
  | t :: ts, b :: bs, hb => by
    rw [map_cons, map_cons, map_cons, cons.injEq, cons.injEq,
      he.typeFor_eq_some (hb b mem_cons_self),
      Enrolled.map_typeFor fun b' hb' => hb b' (mem_cons_of_mem _ hb')]

end Passes

theorem harmless_iff (rt : Runtime) (h : Sound s) : Harmless rt s ds ↔
    (∀ t a, s.instances.lookup t = some a →
      (s.registerUTIDefinitions rt ds).supertypes a = s.supertypes a) ∧
    ∀ t ts, (t, ts) ∈ ds → s.instances.lookup t = none → ∀ a,
      (s.registerUTIDefinitions rt ds).instances.lookup t = some a →
      ((s.registerUTIDefinitions rt ds).supertypes a).map some
        = ts.map ((s.registerUTIDefinitions rt ds).typeFor rt) := by
  obtain ⟨s₁, he, hlater, hlast⟩ := registerUTIDefinitions_spec rt ds h
  rw [he.known rt] at hlast
  rw [hlater.typeFor]
  have hcut : ∀ ts, (typesFound (s₁.typeFor rt) ts).map some
      = (ts.takeWhile (s.foreseen rt ds)).map (s₁.typeFor rt) := fun ts => by
    rw [map_some_typesFound, he.known rt]
  have hold : ∀ t a, s.instances.lookup t = some a →
      ((s.registerUTIDefinitions rt ds).supertypes a = s.supertypes a ↔
        ∀ ts, lastListed (s.foreseen rt ds) t ds = some ts →
          (ts.takeWhile (s.foreseen rt ds)).map (s.oldType rt ds) = (s.supertypes a).map some) := by
    intro t a ha
    rw [hlast (he.old ha), he.supertypes]
    cases lastListed (s.foreseen rt ds) t ds with
    | none => exact iff_of_true rfl fun _ hts => by cases hts
    | some ts =>
      rw [← (some_injective _).list_map.eq_iff]
      show (typesFound _ ts).map some = _ ↔ _
      rw [hcut, he.map_typeFor (h.supertypes a)]
      exact ⟨fun heq _ hts => by cases hts; exact heq, fun heq => heq ts rfl⟩
  have hnew : ∀ t ts, (t, ts) ∈ ds → s.instances.lookup t = none → ∃ a,
      (s.registerUTIDefinitions rt ds).instances.lookup t = some a ∧
      ((s.registerUTIDefinitions rt ds).supertypes a).map some
        = (((lastListed (s.foreseen rt ds) t ds).getD []).takeWhile (s.foreseen rt ds)).map
          (s₁.typeFor rt) := by
    intro t ts hmem hnone
    obtain ⟨n, hle, -, hn⟩ := he.new hnone (mem_map_of_mem hmem)
    refine ⟨_, hlater.lookup hn, ?_⟩
    rw [hlast hn, he.supertypes, h.unused n hle]
    cases lastListed (s.foreseen rt ds) t ds with
    | none => rfl
    | some ts' => exact hcut ts'
  constructor
  · intro hharmless
    refine ⟨fun t a ha => (hold t a ha).2 fun ts => hharmless.registered t a ts ha, ?_⟩
    intro t ts hmem hnone a ha
    obtain ⟨hall, hlisted⟩ := hharmless.new t ts hmem hnone
    obtain ⟨b, hb, heq⟩ := hnew t ts hmem hnone
    rw [hb] at ha
    rw [← some.inj ha, heq, hlisted, takeWhile_eq_self_iff.2 (all_eq_true.1 hall)]
  · rintro ⟨hkept, hlisted⟩
    refine ⟨fun t a ts ha => (hold t a ha).1 (hkept t a ha) ts, ?_⟩
    have hall : ∀ t ts, (t, ts) ∈ ds → s.instances.lookup t = none →
        ts.all (s.foreseen rt ds) = true := by
      intro t ts hmem hnone
      obtain ⟨a, ha, -⟩ := hnew t ts hmem hnone
      refine all_eq_true.2 fun t' ht' => ?_
      have hfound : s₁.typeFor rt t'
          ∈ ((s.registerUTIDefinitions rt ds).supertypes a).map some := by
        rw [hlisted t ts hmem hnone a ha]
        exact mem_map_of_mem ht'
      obtain ⟨b, -, hb⟩ := mem_map.1 hfound
      rw [← he.known rt]
      show (s₁.typeFor rt t').isSome = true
      rw [← hb]
      rfl
    intro t ts hmem hnone
    refine ⟨hall t ts hmem hnone, ?_⟩
    obtain ⟨a, ha, heq⟩ := hnew t ts hmem hnone
    have hlast : ((lastListed (s.foreseen rt ds) t ds).getD []).all (s.foreseen rt ds) = true := by
      cases hl : lastListed (s.foreseen rt ds) t ds with
      | none => rfl
      | some ts' => exact hall t ts' (lastListed_mem hl) hnone
    rw [takeWhile_eq_self_iff.2 (all_eq_true.1 hlast),
      hlisted t ts hmem hnone a ha] at heq
    refine he.sound.map_typeFor_injective ?_ heq.symm
    rw [he.known rt]
    exact hlast

end Condition

end UTIs

namespace UTIRegistry

open UTIs

variable {rt : Runtime} {r r' : UTIRegistry} {ds : List UTIDefinition}

/-- What was registered is as it was.  Each new identifier is registered, with one type allocated
for it, and has the supertypes that its definition lists. -/
structure Loaded (rt : Runtime) (r r' : UTIRegistry) (ds : List UTIDefinition) : Prop where
  unchanged : ∀ t a, r.objectForKey t = some a → r'.objectForKey t = some a
    ∧ r'.typeDescription a = r.typeDescription a ∧ r'.typeTags a = r.typeTags a
    ∧ r'.types.supertypes a = r.types.supertypes a
  registers : ∀ d ∈ ds, r.objectForKey d.typeIdentifier = none → ∃ n, r.types.count ≤ n
    ∧ n < r'.types.count ∧ r'.objectForKey d.typeIdentifier = some (.alloc n)
  once : ∀ n, r.types.count ≤ n → n < r'.types.count →
    r'.objectForKey (r'.types.strings n) = some (.alloc n)
  listed : ∀ d ∈ ds, r.objectForKey d.typeIdentifier = none → ∀ a,
    r'.objectForKey d.typeIdentifier = some a →
    (r'.types.supertypes a).map some = d.typeConformsTo.map (r'.types.typeFor rt)

theorem registerUTIDefinitions_keeps {a : ETUTI} (ha : r.types.Known a) :
    (r.registerUTIDefinitions rt ds).typeDescription a = r.typeDescription a ∧
      (r.registerUTIDefinitions rt ds).typeTags a = r.typeTags a := by
  cases a with
  | alloc n => exact registerIdentifiers_keeps ds r ha
  | objcClass => exact ⟨rfl, rfl⟩

theorem loaded_iff_harmless (h : Sound r.types) :
    Loaded rt r (r.registerUTIDefinitions rt ds) ds
      ↔ Harmless rt r.types (ds.map (·.conformance)) := by
  rw [harmless_iff rt h, ← registerUTIDefinitions_types]
  obtain ⟨s₁, he, hlater, -⟩ := registerUTIDefinitions_spec rt (ds.map (·.conformance)) h
  rw [← registerUTIDefinitions_types] at hlater
  constructor
  · intro hloaded
    refine ⟨fun t a ha => (hloaded.unchanged t a ha).2.2.2, fun t ts hmem hnone a ha => ?_⟩
    obtain ⟨d, hd, heq⟩ := mem_map.1 hmem
    obtain ⟨rfl, rfl⟩ := Prod.mk.inj heq
    exact hloaded.listed d hd hnone a ha
  · rintro ⟨hkept, hlisted⟩
    refine ⟨fun t a ha => ?_, fun d hd hnone => ?_, fun n hle hlt => ?_, fun d hd hnone a ha => ?_⟩
    · obtain ⟨hdescription, htags⟩ := registerUTIDefinitions_keeps (h.known_of_lookup ha)
      exact ⟨hlater.lookup (he.old ha), hdescription, htags, hkept t a ha⟩
    · have hmem : d.typeIdentifier ∈ (ds.map (·.conformance)).map Prod.fst :=
        mem_map_of_mem (mem_map_of_mem hd)
      obtain ⟨n, hle, hlt, hn⟩ := he.new hnone hmem
      exact ⟨n, hle, hlater.count.symm ▸ hlt, hlater.lookup hn⟩
    · rw [hlater.count] at hlt
      rw [hlater.strings]
      exact hlater.lookup (he.once n hle hlt)
    · exact hlisted d.typeIdentifier d.typeConformsTo (mem_map_of_mem hd) hnone a ha

/-- After any registrations, loading definitions does to the registry what it is for exactly if
the definitions are harmless. -/
theorem loaded_iff (rt : Runtime) (registrations : List Registration)
    (descriptions : ℕ → Option UTIString) (tags : ℕ → Option TypeTags)
    (ds : List UTIDefinition) :
    let r : UTIRegistry := ⟨registrations.foldl (register rt) {}, descriptions, tags⟩
    Loaded rt r (r.registerUTIDefinitions rt ds) ds
      ↔ Harmless rt r.types (ds.map (·.conformance)) :=
  loaded_iff_harmless (sound_init.foldl registrations)

/-- A second definition of a type, which does not list its supertype. -/
theorem redefinition_not_loaded : ¬ ∀ (registrations : List Registration)
    (ds : List UTIDefinition),
    let r : UTIRegistry := { types := registrations.foldl (register noClasses) {} }
    Loaded noClasses r (r.registerUTIDefinitions noClasses ds) ds := by
  intro h
  have := ((h [.registerUTIDefinitions [(['a'], []), (['b'], [['a']])]]
    [{ typeIdentifier := ['b'] }]).unchanged ['b'] (.alloc 1) (by decide)).2.2.2
  exact absurd this (by decide)

end UTIRegistry

end Etoile.EtoileFoundation
