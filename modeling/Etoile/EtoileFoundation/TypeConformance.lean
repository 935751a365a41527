import Etoile.EtoileFoundation.TypeGraph

/-!
# Conformance of types

A type conforms to those that its supertypes lead to.  All queries end, with that answer, as long
as no supertypes lead back and every class that they lead to is there.
-/

namespace Etoile.EtoileFoundation.UTIs

open List Relation

variable {rt : Runtime} {s s' : UTIs} {a b : ETUTI} {t : UTIString}

section Queries

variable {α β : Type}

def Returns (f : ℕ → Query α) (x : α) : Prop := Settles (fun fuel => (f fuel).run) (.ok x)

theorem returns_pure (x : α) : Returns (fun _ => pure x) x := settles_some _

theorem returns_of_succ {f : ℕ → Query α} {x : α} (h : Returns (fun fuel => f (fuel + 1)) x) :
    Returns f x := settles_of_succ h

theorem Returns.bind {f : ℕ → Query α} {g : ℕ → α → Query β} {x : α} {y : β} (hf : Returns f x)
    (hg : Returns (fun fuel => g fuel x) y) : Returns (fun fuel => f fuel >>= g fuel) y := by
  unfold Returns at *
  filter_upwards [hf, hg] with fuel hf hg
  rw [ExceptT.run_bind, hf]
  exact hg

theorem query_bind_eq_ok {f : Query α} {g : α → Query β} {y : β}
    (h : f >>= g = some (.ok y)) : ∃ x, f = some (.ok x) ∧ g x = some (.ok y) := by
  rcases f with _ | (e | x)
  · cases h
  · cases h
  · exact ⟨x, rfl, h⟩

end Queries

/-- Nothing that the supertypes lead to is its own supertype in turn, or lacks its class. -/
structure Sane (rt : Runtime) (s : UTIs) (a : ETUTI) : Prop where
  acyclic : ∀ c, ReflTransGen (s.Supertype rt) a c → ¬ TransGen (s.Supertype rt) c c
  found : ∀ c, ReflTransGen (s.Supertype rt) a c → s.ClassFound rt c

structure Ends (rt : Runtime) (s : UTIs) (a : ETUTI) : Prop where
  acc : Acc (fun b a => s.Supertype rt a b) a
  found : ∀ c, ReflTransGen (s.Supertype rt) a c → s.ClassFound rt c

theorem sane_iff_ends (h : Inv s) : s.Sane rt a ↔ s.Ends rt a := by
  have hacc := acc_iff_acyclic (finite_links rt a h)
  exact ⟨fun hs => ⟨hacc.2 hs.acyclic, hs.found⟩, fun hs => ⟨hacc.1 hs.acc, hs.found⟩⟩

theorem Ends.of_supertype (h : s.Ends rt a) (hb : s.Supertype rt a b) : s.Ends rt b :=
  ⟨h.acc.inv hb, fun c hc => h.found c (hc.head hb)⟩

/-- The states that a query starting from `s` goes through. -/
structure Reached (s s' : UTIs) : Prop where
  extend : s.Extends s'
  inv : Inv s'

theorem Ends.supertypesOf (h : s.Ends rt a) (hs : s.Reached s') : ∃ s'',
    s'.supertypesOf rt a = some (.ok (s'', s.links rt a)) ∧ s.Reached s'' := by
  rcases supertypesOf_spec rt a hs.inv with ⟨hf, -⟩ | ⟨-, s'', hq, hext, hinv⟩
  · exact absurd (hs.extend.classFound.2 (h.found a .refl)) hf
  · rw [hs.extend.links] at hq
    exact ⟨s'', hq, hs.extend.trans hext, hinv⟩

section Conforming

variable (b)

theorem anyConforms_settles {l : List ETUTI} (hne : a ∉ l)
    (h : ∀ c ∈ l, ∀ s', s.Reached s' → ∃ s'' v,
      Returns (fun fuel => conformsToType rt fuel s' c b) (s'', v) ∧ s.Reached s''
        ∧ (v = true ↔ ReflTransGen (s.Supertype rt) c b)) (hs : s.Reached s') : ∃ s'' v,
    Returns (fun fuel => anyConforms (fun s c => conformsToType rt fuel s c b) a s' l) (s'', v)
      ∧ s.Reached s'' ∧ (v = true ↔ ∃ c ∈ l, ReflTransGen (s.Supertype rt) c b) := by
  induction l generalizing s' with
  | nil => exact ⟨s', false, returns_pure _, hs, by simp⟩
  | cons c l ih =>
    rw [mem_cons, not_or] at hne
    obtain ⟨s₁, v, hsettles, hs₁, hv⟩ := h c mem_cons_self s' hs
    have hloop : ∀ fuel, anyConforms (fun s c => conformsToType rt fuel s c b) a s' (c :: l)
        = conformsToType rt fuel s' c b >>= fun r => if r.2 then pure (r.1, true)
          else anyConforms (fun s c => conformsToType rt fuel s c b) a r.1 l := by
      intro fuel
      rw [anyConforms, if_neg (Ne.symm hne.1)]
    simp only [hloop, mem_cons, exists_eq_or_imp]
    cases v with
    | true =>
      exact ⟨s₁, true, hsettles.bind (returns_pure _), hs₁,
        iff_of_true rfl (.inl (hv.1 rfl))⟩
    | false =>
      obtain ⟨s₂, w, hrest, hs₂, hw⟩ :=
        ih hne.2 (fun d hd => h d (mem_cons_of_mem c hd)) hs₁
      refine ⟨s₂, w, hsettles.bind hrest, hs₂, hw.trans ?_⟩
      exact (or_iff_right fun hc => by simpa using hv.2 hc).symm

theorem Ends.conformsToType (h : s.Ends rt a) (hs : s.Reached s') : ∃ s'' v,
    Returns (fun fuel => conformsToType rt fuel s' a b) (s'', v) ∧ s.Reached s''
      ∧ (v = true ↔ ReflTransGen (s.Supertype rt) a b) := by
  induction h.acc generalizing s' with
  | intro a hacc ih =>
    by_cases hab : b = a
    · subst hab
      refine ⟨s', true, returns_of_succ ?_, hs, iff_of_true rfl .refl⟩
      simp only [UTIs.conformsToType, if_true]
      exact returns_pure _
    · have hne : a ∉ s.links rt a := fun hself => not_self_of_acc h.acc hself
      obtain ⟨s₁, hsuper, hs₁⟩ := h.supertypesOf hs
      obtain ⟨s₂, v, hloop, hs₂, hv⟩ := anyConforms_settles b hne
        (fun c hc s' hs' => ih c hc (h.of_supertype hc) hs') hs₁
      refine ⟨s₂, v, returns_of_succ ?_, hs₂, hv.trans ?_⟩
      · simp only [UTIs.conformsToType, if_neg hab, hsuper]
        exact hloop
      · rw [ReflTransGen.cases_head_iff]
        exact (or_iff_right fun h => hab h.symm).symm

end Conforming

theorem collectSupertypes_returns {l : List ETUTI} (set : List ETUTI)
    (h : ∀ c ∈ l, ∀ s', s.Reached s' → ∃ s'' m,
      Returns (fun fuel => allSupertypes rt fuel s' c) (s'', m) ∧ s.Reached s''
        ∧ ∀ o, o ∈ m ↔ TransGen (s.Supertype rt) c o) (hs : s.Reached s') :
    ∃ s'' m, Returns (fun fuel => collectSupertypes (allSupertypes rt fuel) s' l set) (s'', m)
      ∧ s.Reached s''
      ∧ ∀ o, o ∈ m ↔ o ∈ set ∨ ∃ c ∈ l, ReflTransGen (s.Supertype rt) c o := by
  induction l generalizing s' set with
  | nil => exact ⟨s', set, returns_pure _, hs, by simp⟩
  | cons c l ih =>
    obtain ⟨s₁, m, hreturns, hs₁, hm⟩ := h c mem_cons_self s' hs
    obtain ⟨s₂, m', hrest, hs₂, hm'⟩ := ih (set ++ c :: m).dedup
      (fun d hd => h d (mem_cons_of_mem c hd)) hs₁
    refine ⟨s₂, m', hreturns.bind hrest, hs₂, fun o => (hm' o).trans ?_⟩
    rw [mem_dedup, mem_append, mem_cons, hm, reflTransGen_iff_eq_or_transGen.symm]
    simp only [mem_cons, exists_eq_or_imp]
    rw [or_assoc]

theorem Ends.allSupertypes (h : s.Ends rt a) (hs : s.Reached s') : ∃ s'' m,
    Returns (fun fuel => allSupertypes rt fuel s' a) (s'', m) ∧ s.Reached s''
      ∧ ∀ o, o ∈ m ↔ TransGen (s.Supertype rt) a o := by
  induction h.acc generalizing s' with
  | intro a _ ih =>
    obtain ⟨s₁, hsuper, hs₁⟩ := h.supertypesOf hs
    obtain ⟨s₂, m, hloop, hs₂, hm⟩ := collectSupertypes_returns []
      (fun c hc s' hs' => ih c hc (h.of_supertype hc) hs') hs₁
    refine ⟨s₂, m, returns_of_succ ?_, hs₂, fun o => (hm o).trans ?_⟩
    · simp only [UTIs.allSupertypes, hsuper]
      exact hloop
    · rw [TransGen.head'_iff]
      exact or_iff_right (by simp)

theorem collectSubtypes_returns {l : List ETUTI} (result : List ETUTI) (h : ∀ c ∈ l, s.Ends rt c)
    (hs : s.Reached s') : ∃ s'' m,
    Returns (fun fuel => collectSubtypes rt fuel b s' l result) (s'', m) ∧ s.Reached s''
      ∧ ∀ o, o ∈ m ↔ o ∈ result ∨ o ∈ l ∧ ReflTransGen (s.Supertype rt) o b ∧ o ≠ b := by
  induction l generalizing s' result with
  | nil => exact ⟨s', result, returns_pure _, hs, by simp⟩
  | cons c l ih =>
    obtain ⟨s₁, v, hreturns, hs₁, hv⟩ := (h c mem_cons_self).conformsToType b hs
    obtain ⟨s₂, m, hrest, hs₂, hm⟩ := ih (if v ∧ c ≠ b then result ++ [c] else result)
      (fun d hd => h d (mem_cons_of_mem c hd)) hs₁
    refine ⟨s₂, m, hreturns.bind hrest, hs₂, fun o => (hm o).trans ?_⟩
    split_ifs with hc
    · rw [mem_append, mem_singleton, mem_cons, or_assoc]
      refine or_congr_right ⟨?_, ?_⟩
      · rintro (rfl | ⟨ho, hconforms⟩)
        · exact ⟨.inl rfl, hv.1 hc.1, hc.2⟩
        · exact ⟨.inr ho, hconforms⟩
      · rintro ⟨rfl | ho, hconforms⟩
        · exact .inl rfl
        · exact .inr ⟨ho, hconforms⟩
    · rw [mem_cons]
      refine or_congr_right ⟨fun ⟨ho, hconforms⟩ => ⟨.inr ho, hconforms⟩, ?_⟩
      rintro ⟨rfl | ho, hconforms⟩
      · exact absurd ⟨hv.2 hconforms.1, hconforms.2⟩ hc
      · exact ⟨ho, hconforms⟩

theorem allSubtypes_returns (h : ∀ c, s.Registered c → s.Ends rt c) (hinv : Inv s) : ∃ s' m,
    Returns (fun fuel => s.allSubtypes rt fuel b) (s', m)
      ∧ ∀ o, o ∈ m ↔ s.Registered o ∧ ReflTransGen (s.Supertype rt) o b ∧ o ≠ b := by
  obtain ⟨s', m, hreturns, -, hm⟩ :=
    collectSubtypes_returns (b := b) [] h ⟨.refl s, hinv⟩
  exact ⟨s', m, hreturns, fun o => (hm o).trans (or_iff_right (by simp))⟩

theorem of_collectSupertypes {query : UTIs → ETUTI → Query (UTIs × List ETUTI)} {P : ETUTI → Prop}
    (h : ∀ c s' r, s.Reached s' → query s' c = some (.ok r) → s.Reached r.1 ∧ P c)
    {l : List ETUTI} {set : List ETUTI} {r : UTIs × List ETUTI} (hs : s.Reached s')
    (hq : collectSupertypes query s' l set = some (.ok r)) : s.Reached r.1 ∧ ∀ c ∈ l, P c := by
  induction l generalizing s' set with
  | nil =>
    obtain rfl := Except.ok.inj (Option.some.inj hq)
    exact ⟨hs, by simp⟩
  | cons c l ih =>
    obtain ⟨x, hx, hrest⟩ := query_bind_eq_ok hq
    obtain ⟨hs₁, hc⟩ := h c s' x hs hx
    obtain ⟨hs₂, hl⟩ := ih hs₁ hrest
    refine ⟨hs₂, fun d hd => ?_⟩
    rcases mem_cons.1 hd with rfl | hd
    · exact hc
    · exact hl d hd

/-- All supertypes are listed only if the query ends. -/
theorem ends_of_allSupertypes : ∀ {fuel : ℕ} {a : ETUTI} {s' : UTIs} {r : UTIs × List ETUTI},
    s.Reached s' → allSupertypes rt fuel s' a = some (.ok r) → s.Reached r.1 ∧ s.Ends rt a
  | 0, _, _, _, _, h => by cases h
  | fuel + 1, a, s', r, hs, h => by
    obtain ⟨x, hx, hloop⟩ := query_bind_eq_ok h
    rcases supertypesOf_spec rt a hs.inv with
      ⟨-, hnone⟩ | ⟨hf, s₁, hq, hext, hinv⟩
    · rw [hnone] at hx
      cases hx
    · rw [hq] at hx
      obtain rfl := Except.ok.inj (Option.some.inj hx)
      rw [hs.extend.links] at hloop
      obtain ⟨hr, hall⟩ := of_collectSupertypes (P := s.Ends rt)
        (fun c s' r hs' hc => ends_of_allSupertypes hs' hc) ⟨hs.extend.trans hext, hinv⟩ hloop
      refine ⟨hr, .intro a fun c hc => (hall c hc).acc, fun c hc => ?_⟩
      rcases hc.cases_head with rfl | ⟨d, hd, hc⟩
      · exact hs.extend.classFound.1 hf
      · exact (hall d hd).found c hc

/-- All queries about the types that are registered end, with the answers of the graph. -/
structure Closure (rt : Runtime) (s : UTIs) : Prop where
  conforms : ∀ a b, s.Registered a → s.Registered b → ∃ s' v,
    Returns (fun fuel => conformsToType rt fuel s a b) (s', v)
      ∧ (v = true ↔ ReflTransGen (s.Supertype rt) a b)
  all : ∀ a b, s.Registered a → s.Registered b → ∃ s₁ l s₂ m,
    Returns (fun fuel => allSupertypes rt fuel s a) (s₁, l)
      ∧ Returns (fun fuel => s.allSubtypes rt fuel b) (s₂, m) ∧ (b ∈ l ↔ a ∈ m)

theorem closure_iff (h : Inv s) : Closure rt s ↔ ∀ a, s.Registered a → s.Sane rt a := by
  constructor
  · intro hc a ha
    obtain ⟨s₁, l, -, -, hreturns, -⟩ := hc.all a a ha ha
    obtain ⟨fuel, hfuel⟩ := hreturns.exists_eq
    exact (sane_iff_ends h).2 (ends_of_allSupertypes ⟨.refl s, h⟩ hfuel).2
  · intro hsane
    have hends : ∀ a, s.Registered a → s.Ends rt a := fun a ha => (sane_iff_ends h).1 (hsane a ha)
    refine ⟨fun a b ha _ => ?_, fun a b ha hb => ?_⟩
    · obtain ⟨s', v, hreturns, -, hv⟩ := (hends a ha).conformsToType b ⟨.refl s, h⟩
      exact ⟨s', v, hreturns, hv⟩
    · obtain ⟨s₁, l, hl, -, hmem⟩ := (hends a ha).allSupertypes ⟨.refl s, h⟩
      obtain ⟨s₂, m, hm, hmem'⟩ := allSubtypes_returns (b := b) hends h
      refine ⟨s₁, l, s₂, m, hl, hm, ?_⟩
      rw [hmem, hmem', reflTransGen_iff_eq_or_transGen]
      constructor
      · intro htrans
        refine ⟨ha, .inr htrans, ?_⟩
        rintro rfl
        exact (hsane a ha).acyclic a .refl htrans
      · rintro ⟨-, hba | htrans, hne⟩
        · exact absurd hba.symm hne
        · exact htrans

/-- After any registrations, conformance is the closure of the graph exactly if the supertypes of
no registered type lead into a cycle or to a class that is missing. -/
theorem closure_iff_sane (rt : Runtime) (registrations : List Registration) :
    Closure rt (registrations.foldl (register rt) {})
      ↔ ∀ a, (registrations.foldl (register rt) {}).Registered a →
        (registrations.foldl (register rt) {}).Sane rt a :=
  closure_iff inv_init.foldl

def noClasses : Runtime where
  classes := []
  classFromString _ := none
  superclasses _ := []
  mem_classes _ _ hd := by cases hd
  found _ hd := by cases hd
  stands_for _ _ h := by cases h
  undotted _ hd := by cases hd

def mutualDefinitions : List Registration :=
  [.registerUTIDefinitions [(['a'], [['b']]), (['b'], [['a']])]]

theorem mutual_definitions_not_closure : ¬ ∀ registrations : List Registration,
    Closure noClasses (registrations.foldl (register noClasses) {}) := by
  intro h
  have hsane := (closure_iff inv_init.foldl).1 (h mutualDefinitions) (.alloc 0)
    (by unfold Registered; decide)
  have hthere : (mutualDefinitions.foldl (register noClasses) {}).Supertype noClasses
      (.alloc 0) (.alloc 1) := by
    unfold Supertype
    decide
  have hback : (mutualDefinitions.foldl (register noClasses) {}).Supertype noClasses
      (.alloc 1) (.alloc 0) := by
    unfold Supertype
    decide
  exact hsane.acyclic (.alloc 0) .refl (.tail (.single hthere) hback)

end Etoile.EtoileFoundation.UTIs
