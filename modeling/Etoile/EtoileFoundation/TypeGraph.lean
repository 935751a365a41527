import Etoile.Lib.Walks
import Etoile.EtoileFoundation.ETUTI

/-!
# The graph of types

The queries about a type follow its supertypes, and make the types of classes as they come upon
them.  No answer depends on which have been made before.
-/

namespace Etoile.EtoileFoundation.UTIs

open Function List Option Relation

variable {rt : Runtime} {s s' : UTIs} {a b : ETUTI} {t : UTIString}

section Graph

variable (rt : Runtime) (s : UTIs)

def Registered (a : ETUTI) : Prop := a ∈ s.instances.map Prod.snd

def typeOf (t : UTIString) : ETUTI := (s.instances.lookup t).getD (.objcClass t)

def links (a : ETUTI) : List ETUTI :=
  s.supertypes a ++
    if ETObjCClassUTIPrefix.isPrefixOf (s.stringValue a) then
      ((superclassOf rt (ETUTILastComponent (s.stringValue a))).join.map fun superclass =>
        s.typeOf (ETObjCClassUTIPrefix ++ superclass)).toList
    else []

def Supertype (a b : ETUTI) : Prop := b ∈ s.links rt a

def ClassFound (a : ETUTI) : Prop :=
  ETObjCClassUTIPrefix.isPrefixOf (s.stringValue a) = true →
    rt.classFromString (ETUTILastComponent (s.stringValue a)) ≠ none

structure Extends (s s' : UTIs) : Prop where
  strings : s'.strings = s.strings
  supertypes : s'.supertypes = s.supertypes
  typeOf : s'.typeOf = s.typeOf

/-- What is allocated, or has been made for a string that has been in use since. -/
def Known : ETUTI → Prop
  | .alloc n => n < s.count
  | .objcClass string => string ∈ s.instances.map Prod.fst

structure Inv (s : UTIs) : Prop where
  instances : ∀ entry ∈ s.instances, s.Known entry.2
  supertypes : ∀ a, ∀ b ∈ s.supertypes a, s.Known b
  fresh : ∀ t, t ∉ s.instances.map Prod.fst → s.supertypes (.objcClass t) = []

end Graph

theorem Extends.refl (s : UTIs) : s.Extends s := ⟨rfl, rfl, rfl⟩

theorem Extends.trans {s'' : UTIs} (h : s.Extends s') (h' : s'.Extends s'') : s.Extends s'' :=
  ⟨h'.strings.trans h.strings, h'.supertypes.trans h.supertypes, h'.typeOf.trans h.typeOf⟩

theorem Extends.stringValue (h : s.Extends s') : s'.stringValue a = s.stringValue a := by
  cases a with
  | alloc n => exact congrFun h.strings n
  | objcClass string => rfl

theorem Extends.links (h : s.Extends s') : s'.links rt = s.links rt := by
  funext a
  unfold UTIs.links
  rw [h.stringValue, h.supertypes, h.typeOf]

theorem Extends.classFound (h : s.Extends s') : s'.ClassFound rt a ↔ s.ClassFound rt a := by
  unfold ClassFound
  rw [h.stringValue]

variable {l : List (UTIString × ETUTI)}

theorem lookup_eq_none_iff : l.lookup t = none ↔ t ∉ l.map Prod.fst := by
  induction l with
  | nil => simp
  | cons entry l ih =>
    rw [lookup_cons, map_cons, mem_cons, not_or]
    split
    · next heq => simp [beq_iff_eq.1 heq]
    · next hne =>
      rw [ih]
      exact ⟨fun h => ⟨by simpa using hne, h⟩, fun h => h.2⟩

theorem mem_of_lookup (h : l.lookup t = some a) : (t, a) ∈ l := by
  induction l with
  | nil => cases h
  | cons entry l ih =>
    rw [lookup_cons] at h
    split at h
    · next heq =>
      obtain rfl := some.inj h
      rw [beq_iff_eq.1 heq]
      exact mem_cons_self
    · exact mem_cons_of_mem _ (ih h)

theorem lookup_filter_ne {t' : UTIString} (h : t' ≠ t) :
    (l.filter (·.1 ≠ t)).lookup t' = l.lookup t' := by
  induction l with
  | nil => rfl
  | cons entry l ih =>
    by_cases hentry : entry.1 = t
    · rw [filter_cons_of_neg (by simp [hentry]), ih, lookup_cons, hentry,
        beq_eq_false_iff_ne.2 h]
    · rw [filter_cons_of_pos (by simp [hentry]), lookup_cons, lookup_cons, ih]

theorem lookup_setInstance_self : (s.setInstance t a).instances.lookup t = some a := by
  show lookup t ((t, a) :: _) = some a
  rw [lookup_cons, beq_self_eq_true]

theorem lookup_setInstance_of_ne {t' : UTIString} (h : t' ≠ t) :
    (s.setInstance t a).instances.lookup t' = s.instances.lookup t' := by
  show lookup t' ((t, a) :: _) = _
  rw [lookup_cons, beq_eq_false_iff_ne.2 h]
  exact lookup_filter_ne h

theorem extends_makeClass (h : Inv s) (ht : s.instances.lookup t = none) :
    s.Extends ((s.setSupertypes (.objcClass t) []).setInstance t (.objcClass t)) := by
  refine ⟨rfl, ?_, ?_⟩
  · show update s.supertypes (.objcClass t) [] = s.supertypes
    rw [← h.fresh t (lookup_eq_none_iff.1 ht), update_eq_self]
  · funext t'
    unfold typeOf
    by_cases hne : t' = t
    · rw [hne, lookup_setInstance_self, ht]
      rfl
    · rw [lookup_setInstance_of_ne hne]
      rfl

theorem mem_keys_setInstance {t' : UTIString} :
    t' ∈ (s.setInstance t a).instances.map Prod.fst
      ↔ t' = t ∨ t' ∈ s.instances.map Prod.fst := by
  rw [← not_iff_not, ← lookup_eq_none_iff, not_or, ← lookup_eq_none_iff]
  by_cases hne : t' = t
  · rw [hne, lookup_setInstance_self]
    simp
  · rw [lookup_setInstance_of_ne hne]
    simp [hne]

theorem known_setInstance (hb : s.Known b) : (s.setInstance t a).Known b := by
  cases b with
  | alloc n => exact hb
  | objcClass string => exact mem_keys_setInstance.2 (.inr hb)

theorem Inv.setInstance (h : Inv s) (ha : s.Known a ∨ a = .objcClass t) :
    Inv (s.setInstance t a) := by
  refine ⟨?_, fun a b hb => known_setInstance (h.supertypes a b hb), ?_⟩
  · intro entry hentry
    rcases mem_cons.1 hentry with rfl | hentry
    · rcases ha with ha | rfl
      · exact known_setInstance ha
      · exact mem_keys_setInstance.2 (.inl rfl)
    · exact known_setInstance (h.instances entry (mem_filter.1 hentry).1)
  · intro t' ht'
    rw [mem_keys_setInstance, not_or] at ht'
    exact h.fresh t' ht'.2

theorem Inv.setSupertypes (h : Inv s) {l : List ETUTI} (ha : s.Known a ∨ l = [])
    (hl : ∀ b ∈ l, s.Known b) : Inv (s.setSupertypes a l) := by
  refine ⟨h.instances, ?_, ?_⟩
  · intro a' b hb
    have hb : b ∈ update s.supertypes a l a' := hb
    rw [update_apply] at hb
    split_ifs at hb
    · exact hl b hb
    · exact h.supertypes a' b hb
  · intro t ht
    show update s.supertypes a l (.objcClass t) = []
    rw [update_apply]
    split_ifs with heq
    · rcases ha with ha | rfl
      · rw [← heq] at ha
        exact absurd ha ht
      · rfl
    · exact h.fresh t ht

theorem Inv.initWithString (h : Inv s) : Inv (s.initWithString t).1 ∧
    (s.initWithString t).1.Known (s.initWithString t).2 := by
  have hknown : ∀ {b : ETUTI}, s.Known b → (s.initWithString t).1.Known b := by
    intro b hb
    cases b with
    | alloc n => exact Nat.lt_succ_of_lt hb
    | objcClass string => exact hb
  exact ⟨⟨fun entry hentry => hknown (h.instances entry hentry),
    fun a b hb => hknown (h.supertypes a b hb), h.fresh⟩, Nat.lt_succ_self s.count⟩

theorem typeWithString_spec (rt : Runtime) (t : UTIString) (h : Inv s) : Inv (s.typeWithString rt t).1
    ∧ s.Extends (s.typeWithString rt t).1
    ∧ (∀ a, (s.typeWithString rt t).2 = some a → (s.typeWithString rt t).1.Known a)
    ∧ (isClassString rt t = true → (s.typeWithString rt t).2 = some (s.typeOf t))
    ∧ (∀ b, s.Known b → (s.typeWithString rt t).1.Known b) := by
  unfold typeWithString
  cases hl : s.instances.lookup t with
  | some cached =>
    dsimp only
    refine ⟨h, .refl s, ?_, ?_, fun b hb => hb⟩
    · intro a ha
      obtain rfl := some.inj ha
      exact h.instances _ (mem_of_lookup hl)
    · intro _
      rw [typeOf, hl]
      rfl
  | none =>
    dsimp only
    split_ifs with hclass
    · have hmade : Inv ((s.setSupertypes (.objcClass t) []).setInstance t (.objcClass t)) :=
        (h.setSupertypes (.inr rfl) (by simp)).setInstance (.inr rfl)
      refine ⟨hmade, extends_makeClass h hl, ?_, ?_, fun b hb => ?_⟩
      · intro a ha
        obtain rfl := some.inj ha
        exact hmade.instances (t, .objcClass t) mem_cons_self
      · intro _
        rw [typeOf, hl]
        rfl
      · exact known_setInstance (s := s.setSupertypes (.objcClass t) []) hb
    · exact ⟨h, .refl s, fun a ha => (by cases ha), fun hc => absurd hc hclass, fun b hb => hb⟩

theorem Inv.addSupertypes : ∀ {ts : List UTIString} {s : UTIs}, Inv s → s.Known a →
    Inv (addSupertypes rt a s ts).1 ∧ (addSupertypes rt a s ts).1.Known a
  | [], s, h, ha => ⟨h, ha⟩
  | t :: ts, s, h, ha => by
    obtain ⟨hinv, -, hknown, -, hmono⟩ := typeWithString_spec rt t h
    unfold UTIs.addSupertypes
    rcases hw : s.typeWithString rt t with ⟨s', _ | b⟩ <;> rw [hw] at hinv hknown hmono <;>
      dsimp only
    · exact ⟨hinv, hmono a ha⟩
    · refine Inv.addSupertypes (hinv.setSupertypes (.inl (hmono a ha)) ?_) (hmono a ha)
      intro c hc
      rcases mem_append.1 hc with hc | hc
      · exact hinv.supertypes a c hc
      · obtain rfl := mem_singleton.1 hc
        exact hknown c rfl

theorem Inv.setSupertypesFromStrings (rt : Runtime) (ts : List UTIString) (h : Inv s)
    (ha : s.Known a) :
    Inv (s.setSupertypesFromStrings rt a ts).1 ∧ (s.setSupertypesFromStrings rt a ts).1.Known a :=
  Inv.addSupertypes (h.setSupertypes (.inr rfl) (by simp)) ha

theorem Inv.registerTypeWithString (h : Inv s) {ts : List UTIString} :
    Inv (s.registerTypeWithString rt t ts) := by
  obtain ⟨hinit, ha⟩ := @Inv.initWithString s t h
  obtain ⟨hset, ha'⟩ := hinit.setSupertypesFromStrings rt ts ha
  unfold UTIs.registerTypeWithString
  dsimp only
  rcases hw : (s.initWithString t).1.setSupertypesFromStrings rt (s.initWithString t).2 ts with
    ⟨s', _ | _⟩ <;> rw [hw] at hset ha' <;> dsimp only
  · exact hset
  · exact hset.setInstance (.inl ha')

theorem Inv.registerIdentifiers : ∀ {ds : List (UTIString × List UTIString)} {s : UTIs}, Inv s →
    Inv (s.registerIdentifiers ds)
  | [], _, h => h
  | (t, _) :: ds, s, h => by
    obtain ⟨hinit, ha⟩ := @Inv.initWithString s t h
    unfold UTIs.registerIdentifiers
    cases s.instances.lookup t with
    | some _ => exact Inv.registerIdentifiers h
    | none => exact Inv.registerIdentifiers (hinit.setInstance (.inl ha))

theorem Inv.registerConformances : ∀ {ds : List (UTIString × List UTIString)} {s : UTIs}, Inv s →
    Inv (registerConformances rt s ds)
  | [], _, h => h
  | (t, ts) :: ds, s, h => by
    unfold UTIs.registerConformances
    cases hl : s.instances.lookup t with
    | none => exact Inv.registerConformances h
    | some a =>
      have hset := (h.setSupertypesFromStrings rt ts
        (h.instances _ (mem_of_lookup hl))).1
      dsimp only
      rcases hw : s.setSupertypesFromStrings rt a ts with ⟨s', _ | _⟩ <;> rw [hw] at hset <;>
        dsimp only
      · exact hset
      · exact Inv.registerConformances hset

theorem Inv.register (h : Inv s) : ∀ {r : Registration}, Inv (s.register rt r)
  | .typeWithString _ => (typeWithString_spec _ _ h).1
  | .registerTypeWithString _ _ => h.registerTypeWithString
  | .registerUTIDefinitions _ => h.registerIdentifiers.registerConformances

theorem Inv.foldl {rs : List Registration} (h : Inv s) : Inv (rs.foldl (UTIs.register rt) s) := by
  induction rs generalizing s with
  | nil => exact h
  | cons r rs ih => exact ih h.register

theorem inv_init : Inv {} :=
  ⟨fun _ hentry => (by cases hentry), fun _ _ hb => (by cases hb), fun _ _ => rfl⟩

theorem mem_superclassesFrom {name d : UTIString} : ∀ {l l' : List UTIString},
    superclassesFrom name l = some l' → d ∈ l' → d ∈ l.tail
  | [], _, h, _ => by cases h
  | c :: l, l', h, hd => by
    unfold superclassesFrom at h
    split_ifs at h
    · obtain rfl := some.inj h
      exact hd
    · exact mem_of_mem_tail (mem_superclassesFrom h hd)

theorem superclassesFrom_ne_none {name : UTIString} : ∀ {l : List UTIString}, name ∈ l →
    superclassesFrom name l ≠ none
  | c :: l, h => by
    unfold superclassesFrom
    split_ifs with hc
    · exact some_ne_none _
    · exact superclassesFrom_ne_none ((mem_cons.1 h).resolve_left fun h => hc h.symm)

theorem superclassOf_mem {name d : UTIString} (h : superclassOf rt name = some (some d)) :
    d ∈ rt.classes := by
  unfold superclassOf at h
  obtain ⟨l, hl, hd⟩ := map_eq_some_iff.1 h
  have hmem := mem_superclassesFrom hl (mem_of_mem_head? hd)
  cases hc : rt.classFromString name with
  | none =>
    rw [hc] at hmem
    cases hmem
  | some c =>
    rw [hc] at hmem
    exact rt.mem_classes c d hmem

theorem superclassOf_eq_none_iff {name : UTIString} :
    superclassOf rt name = none ↔ rt.classFromString name = none := by
  unfold superclassOf
  rw [map_eq_none_iff]
  cases hc : rt.classFromString name with
  | none => exact iff_of_true rfl rfl
  | some c =>
    exact iff_of_false (superclassesFrom_ne_none (rt.stands_for name c hc)) (some_ne_none c)

theorem isClassString_append {d : UTIString} (hd : d ∈ rt.classes) :
    isClassString rt (ETObjCClassUTIPrefix ++ d) = true := by
  have hlast : ETUTILastComponent (ETObjCClassUTIPrefix ++ d) = d := by
    have hdot : '.' ∈ ETObjCClassUTIPrefix ++ d := mem_append_left _ (by decide)
    have hprefix : ETObjCClassUTIPrefix.reverse
        = '.' :: "org.etoile-project.objc.class".toList.reverse := by decide
    have hall : ∀ c ∈ d.reverse, (c != '.') = true := by
      intro c hc
      rw [bne_iff_ne]
      rintro rfl
      exact rt.undotted d hd (mem_reverse.1 hc)
    unfold ETUTILastComponent
    rw [if_pos hdot, reverse_append, hprefix, takeWhile_append_of_pos hall,
      takeWhile_cons_of_neg (by decide), append_nil, reverse_reverse]
  unfold isClassString
  rw [hlast, isPrefixOf_iff_prefix.2 (prefix_append _ _), Bool.true_and,
    isSome_iff_ne_none]
  exact rt.found d hd

/-- The supertypes of a type, if its class can be found, and no answer if it cannot. -/
theorem supertypesOf_spec (rt : Runtime) (a : ETUTI) (h : Inv s) :
    (¬ s.ClassFound rt a ∧ s.supertypesOf rt a = none)
      ∨ s.ClassFound rt a ∧ ∃ s', s.supertypesOf rt a = some (.ok (s', s.links rt a))
        ∧ s.Extends s' ∧ Inv s' := by
  unfold supertypesOf ClassFound links
  split_ifs with hclass
  · cases hsuper : superclassOf rt (ETUTILastComponent (s.stringValue a)) with
    | none => exact .inl ⟨fun hf => hf hclass (superclassOf_eq_none_iff.1 hsuper), rfl⟩
    | some superclass =>
      have hfound : rt.classFromString (ETUTILastComponent (s.stringValue a)) ≠ none := by
        intro hnone
        rw [superclassOf_eq_none_iff.2 hnone] at hsuper
        cases hsuper
      refine .inr ⟨fun _ => hfound, ?_⟩
      cases superclass with
      | none =>
        refine ⟨s, ?_, .refl s, h⟩
        show _ = some (Except.ok (s, s.supertypes a ++ []))
        rw [append_nil]
        rfl
      | some d =>
        obtain ⟨hinv, hext, -, htype, -⟩ := typeWithString_spec rt
          (ETObjCClassUTIPrefix ++ d) h
        have htype := htype (isClassString_append (superclassOf_mem hsuper))
        refine ⟨_, ?_, hext, hinv⟩
        dsimp only
        unfold typeWithClass
        rcases hw : s.typeWithString rt (ETObjCClassUTIPrefix ++ d) with ⟨s', type⟩
        rw [hw] at htype
        obtain rfl : type = _ := htype
        rw [join_some, map_some, toList_some]
        rfl
  · refine .inr ⟨fun hf => absurd hf hclass, s, ?_, .refl s, h⟩
    rw [append_nil]
    rfl

theorem finite_links (rt : Runtime) (a : ETUTI) (h : Inv s) : { b | ReflTransGen (s.Supertype rt) a b }.Finite := by
  let all : List ETUTI := a :: ((range s.count).map .alloc
    ++ (s.instances.map Prod.fst).map .objcClass
    ++ rt.classes.map fun d => .objcClass (ETObjCClassUTIPrefix ++ d))
  have hknown : ∀ b, s.Known b → b ∈ all := by
    intro b hb
    cases b with
    | alloc n =>
      have hn : n < s.count := hb
      simp [all, hn]
    | objcClass string =>
      have hstring : string ∈ s.instances.map Prod.fst := hb
      refine mem_cons_of_mem _ (mem_append_left _ (mem_append_right _ ?_))
      exact mem_map_of_mem hstring
  refine Set.Finite.subset (finite_toSet all) ?_
  intro b hb
  rcases hb.cases_tail with rfl | ⟨c, -, hc⟩
  · exact mem_cons_self
  · have hc : b ∈ s.links rt c := hc
    unfold links at hc
    rcases mem_append.1 hc with hc | hc
    · exact hknown b (h.supertypes c b hc)
    · split_ifs at hc
      · obtain ⟨d, hd, rfl⟩ := map_eq_some_iff.1 (mem_toList.1 hc)
        have hd := superclassOf_mem (join_eq_some_iff.1 hd)
        unfold typeOf
        cases hl : s.instances.lookup (ETObjCClassUTIPrefix ++ d) with
        | some b => exact hknown b (h.instances _ (mem_of_lookup hl))
        | none =>
          refine mem_cons_of_mem _ (mem_append_right _ ?_)
          exact mem_map.2 ⟨d, hd, rfl⟩
      · cases hc

end Etoile.EtoileFoundation.UTIs
