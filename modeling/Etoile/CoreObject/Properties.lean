import Etoile.CoreObject.Playback

/-!
# Restoring the properties of an object

A `COObject` keeps its state in a dictionary of properties, which `-setValue:forProperty:` and
`-removeValueForProperty:` change and date.  Playing these back dates the object anew, and a restore
across a periodic snapshot misses the change the snapshot was taken in: what is lost is the one
property that change was about, unless a later change played back is about it too
(`restore_eq_state_iff`).
-/

namespace Etoile.CoreObject

open Function Option

def kCOModificationDateProperty := "kCOModificationDateProperty"

def kCOReadOnlyProperty := "kCOReadOnlyProperty"

/-- The `_properties` of an object. -/
abbrev Properties (V : Type) := String → Option V

inductive PropertyMutator (V : Type)
  | setValue (value : V) (property : String)
  | removeValue (property : String)

namespace PropertyMutator

variable {V : Type}

def property : PropertyMutator V → String
  | .setValue _ property => property
  | .removeValue property => property

def value : PropertyMutator V → Option V
  | .setValue value _ => some value
  | .removeValue _ => none

end PropertyMutator

section COObject

variable {V : Type} (intValue : V → ℤ)

def isReadOnly (p : Properties V) : Bool :=
  match p kCOReadOnlyProperty with
  | none => false
  | some value => intValue value == 1

/-- `-setValue:forProperty:` at the time `now`, dates being values. -/
def setValueForProperty (now value : V) (property : String) (p : Properties V) : Properties V :=
  if isReadOnly intValue p then p
  else
    let p := update p property (some value)
    update p kCOModificationDateProperty (some now)

/-- The body of a mutator; `-removeValueForProperty:` goes on to call `-setValue:forProperty:`. -/
def performMutator (now : V) : PropertyMutator V → Properties V → Properties V
  | .setValue value property, p =>
    let p := update p property (some value)
    update p kCOModificationDateProperty (some now)
  | .removeValue property, p =>
    let p := update p property none
    setValueForProperty intValue now now kCOModificationDateProperty p

def COObject : ManagedClass (Properties V) (PropertyMutator V) V where
  accepts _ p := !isReadOnly intValue p
  perform := performMutator intValue

variable {intValue}

theorem isReadOnly_congr {p q : Properties V} (h : p kCOReadOnlyProperty = q kCOReadOnlyProperty) :
    isReadOnly intValue p = isReadOnly intValue q := by
  simp [isReadOnly, h]

theorem isReadOnly_update_none {p : Properties V} (property : String)
    (h : isReadOnly intValue p = false) :
    isReadOnly intValue (update p property none) = false := by
  by_cases hp : property = kCOReadOnlyProperty
  · subst hp
    simp [isReadOnly]
  · rw [← h]
    exact isReadOnly_congr (update_of_ne (Ne.symm hp) _ _)

theorem invoke_apply {p : Properties V} (h : isReadOnly intValue p = false) (now : V)
    (m : PropertyMutator V) (k : String) :
    (COObject intValue).invoke now m p k =
      if k = kCOModificationDateProperty then some now
      else if k = m.property then m.value else p k := by
  cases m with
  | setValue value property =>
    by_cases hk : k = kCOModificationDateProperty <;> by_cases hp : k = property <;>
      simp [ManagedClass.invoke, COObject, performMutator, h, hk, hp, update_apply,
        PropertyMutator.property, PropertyMutator.value]
  | removeValue property =>
    have h' := isReadOnly_update_none property h
    by_cases hk : k = kCOModificationDateProperty <;> by_cases hp : k = property <;>
      simp [ManagedClass.invoke, COObject, performMutator, setValueForProperty, h, h', hk, hp,
        update_apply, PropertyMutator.property, PropertyMutator.value]

end COObject

section Replay

variable {V : Type} {intValue : V → ℤ} {x : ManagedObject (Properties V) (PropertyMutator V)}
  {vs : List (ObjectVersion (Properties V) (PropertyMutator V) V)}

/-- A change after `s` and up to `v` is about `property`. -/
def Overwritten (vs : List (ObjectVersion (Properties V) (PropertyMutator V) V)) (s v : ℕ)
    (property : String) : Prop :=
  ∃ t m now n p, s < t ∧ t ≤ v ∧ vs[t]? = some ⟨.recorded m now n, p⟩ ∧ m.property = property

theorem overwritten_succ {s v : ℕ} {k : String} {m : PropertyMutator V} {now : V} {n : ℤ}
    {p : Properties V} (hu : vs[s + 1]? = some ⟨.recorded m now n, p⟩) (hv : s + 1 ≤ v) :
    Overwritten vs s v k ↔ m.property = k ∨ Overwritten vs (s + 1) v k := by
  constructor
  · rintro ⟨t, m', now', n', p', h₁, h₂, ht, hk⟩
    rcases Nat.lt_or_ge (s + 1) t with hlt | hge
    · exact Or.inr ⟨t, m', now', n', p', hlt, h₂, ht, hk⟩
    · obtain rfl : t = s + 1 := by omega
      rw [hu] at ht
      cases ht
      exact Or.inl hk
  · rintro (hk | ⟨t, m', now', n', p', h₁, h₂, ht, hk⟩)
    · exact ⟨s + 1, m, now, n, p, by omega, hv, hu, hk⟩
    · exact ⟨t, m', now', n', p', by omega, h₂, ht, hk⟩

theorem Stored.not_readOnly (h : Stored (COObject intValue) false x vs) {i : ℕ}
    {a : ObjectVersion (Properties V) (PropertyMutator V) V} {m : PropertyMutator V} {now : V}
    {n : ℤ} {p : Properties V} (ha : vs[i]? = some a)
    (hu : vs[i + 1]? = some ⟨.recorded m now n, p⟩) :
    isReadOnly intValue a.state = false ∧ p = (COObject intValue).invoke now m a.state := by
  obtain ⟨a', ha', hp, hacc⟩ := h.chain i m now n p hu
  obtain rfl : a = a' := some.inj (ha.symm.trans ha')
  exact ⟨by simpa [COObject] using hacc, hp⟩

/-- A change that another one followed leaves the object writable, also when played back. -/
theorem Stored.not_readOnly_invoke (h : Stored (COObject intValue) false x vs) {i : ℕ}
    {m m' : PropertyMutator V} {now now' clock : V} {n n' : ℤ} {p p' q : Properties V}
    {a : ObjectVersion (Properties V) (PropertyMutator V) V} (ha : vs[i]? = some a)
    (hu : vs[i + 1]? = some ⟨.recorded m now n, p⟩)
    (hu' : vs[i + 1 + 1]? = some ⟨.recorded m' now' n', p'⟩) (hq : isReadOnly intValue q = false) :
    isReadOnly intValue ((COObject intValue).invoke clock m q) = false := by
  obtain ⟨hro, hp⟩ := h.not_readOnly ha hu
  have hrop : isReadOnly intValue p = false := (h.not_readOnly hu hu').1
  have hne : kCOReadOnlyProperty ≠ kCOModificationDateProperty := by decide
  by_cases hm : kCOReadOnlyProperty = m.property
  · rw [← hrop]
    refine isReadOnly_congr ?_
    rw [hp, invoke_apply hq, invoke_apply hro, if_neg hne, if_pos hm, if_neg hne, if_pos hm]
  · rw [← hq]
    refine isReadOnly_congr ?_
    rw [invoke_apply hq, if_neg hne, if_neg hm]

/-- A playback gets right what the changes it plays are about; the rest it leaves as it found it,
as these changes did when they were made. -/
theorem replay_apply (h : Stored (COObject intValue) false x vs) (clock : ℤ → V) :
    ∀ (n i : ℕ) (p : Properties V) (a b : ObjectVersion (Properties V) (PropertyMutator V) V),
      (∀ t, i < t → t ≤ i + n → ∃ m now j q, vs[t]? = some ⟨.recorded m now j, q⟩) →
      (n ≠ 0 → isReadOnly intValue p = false) → vs[i]? = some a → vs[i + n]? = some b →
      ∀ k, k ≠ kCOModificationDateProperty →
        (Overwritten vs i (i + n) k →
          replay (COObject intValue) clock vs n i p k = b.state k) ∧
        (¬ Overwritten vs i (i + n) k →
          replay (COObject intValue) clock vs n i p k = p k ∧ b.state k = a.state k)
  | 0, i, p, a, b, _, _, ha, hb, k, _ => by
    obtain rfl : a = b := some.inj (ha.symm.trans hb)
    refine ⟨fun ⟨t, _, _, _, _, h₁, h₂, _⟩ => by omega, fun _ => ⟨rfl, rfl⟩⟩
  | n + 1, i, p, a, b, hrec, hro, ha, hb, k, hk => by
    obtain ⟨m, now, j, q, hu⟩ := hrec (i + 1) (by omega) (by omega)
    obtain ⟨hroa, hq⟩ := h.not_readOnly ha hu
    have hrop := hro (Nat.succ_ne_zero n)
    have hro' : n ≠ 0 → isReadOnly intValue
        ((COObject intValue).invoke (clock (i + 1)) m p) = false := fun hn => by
      obtain ⟨m', now', j', q', hu'⟩ := hrec (i + 1 + 1) (by omega) (by omega)
      exact h.not_readOnly_invoke ha hu hu' hrop
    have hi : i + (n + 1) = i + 1 + n := by omega
    have ih := replay_apply h clock n (i + 1) ((COObject intValue).invoke (clock (i + 1)) m p)
      ⟨.recorded m now j, q⟩ b (fun t h₁ h₂ => hrec t (by omega) (by omega)) hro' hu (hi ▸ hb) k hk
    have hstep : replay (COObject intValue) clock vs (n + 1) i p =
        replay (COObject intValue) clock vs n (i + 1)
          ((COObject intValue).invoke (clock (i + 1)) m p) := by simp [replay, hu]
    rw [hstep, overwritten_succ hu (by omega), hi]
    refine ⟨fun how => ?_, fun hnow => ?_⟩
    · by_cases hlater : Overwritten vs (i + 1) (i + 1 + n) k
      · exact ih.1 hlater
      · obtain ⟨hr, hb'⟩ := ih.2 hlater
        replace hb' : b.state k = q k := hb'
        have hm := how.resolve_right hlater
        rw [hr, hb', hq, invoke_apply hrop, invoke_apply hroa, if_neg hk, if_pos hm.symm, if_neg hk,
          if_pos hm.symm]
    · rw [not_or] at hnow
      obtain ⟨hr, hb'⟩ := ih.2 hnow.2
      replace hb' : b.state k = q k := hb'
      have hm : k ≠ m.property := fun hm => hnow.1 hm.symm
      rw [hr, hb', hq, invoke_apply hrop, invoke_apply hroa, if_neg hk, if_neg hm, if_neg hk,
        if_neg hm]
      exact ⟨rfl, rfl⟩

theorem replay_date (h : Stored (COObject intValue) false x vs) (clock : ℤ → V) :
    ∀ (n i : ℕ) (p : Properties V) (a : ObjectVersion (Properties V) (PropertyMutator V) V),
      (∀ t, i < t → t ≤ i + (n + 1) → ∃ m now j q, vs[t]? = some ⟨.recorded m now j, q⟩) →
      isReadOnly intValue p = false → vs[i]? = some a →
      replay (COObject intValue) clock vs (n + 1) i p kCOModificationDateProperty =
        some (clock (i + (n + 1)))
  | 0, i, p, a, hrec, hro, _ => by
    obtain ⟨m, now, j, q, hu⟩ := hrec (i + 1) (by omega) (by omega)
    simp [replay, hu, invoke_apply hro]
  | n + 1, i, p, a, hrec, hro, ha => by
    obtain ⟨m, now, j, q, hu⟩ := hrec (i + 1) (by omega) (by omega)
    obtain ⟨m', now', j', q', hu'⟩ := hrec (i + 1 + 1) (by omega) (by omega)
    have ih := replay_date h clock n (i + 1) ((COObject intValue).invoke (clock (i + 1)) m p) _
      (fun t h₁ h₂ => hrec t (by omega) (by omega)) (h.not_readOnly_invoke ha hu hu' hro) hu
    have hstep : replay (COObject intValue) clock vs (n + 1 + 1) i p =
        replay (COObject intValue) clock vs (n + 1) (i + 1)
          ((COObject intValue).invoke (clock (i + 1)) m p) := by simp [replay, hu]
    rw [hstep, ih]
    congr 2
    push_cast
    omega

/-- When the playback of the changes after `s` on `f` leads to the state of `v`. -/
theorem replay_eq_iff (h : Stored (COObject intValue) false x vs) (clock : ℤ → V) {s n : ℕ}
    {f : Properties V} {a b : ObjectVersion (Properties V) (PropertyMutator V) V}
    (hrec : ∀ t, s < t → t ≤ s + n → ∃ m now j q, vs[t]? = some ⟨.recorded m now j, q⟩)
    (hro : n ≠ 0 → isReadOnly intValue f = false) (ha : vs[s]? = some a)
    (hb : vs[s + n]? = some b) :
    replay (COObject intValue) clock vs n s f = b.state ↔
      (∀ k, k ≠ kCOModificationDateProperty → Overwritten vs s (s + n) k ∨ f k = a.state k) ∧
      (n ≠ 0 → b.state kCOModificationDateProperty = some (clock (s + n))) ∧
      (n = 0 → f kCOModificationDateProperty = a.state kCOModificationDateProperty) := by
  have happ := replay_apply h clock n s f a b hrec hro ha hb
  constructor
  · intro heq
    refine ⟨fun k hk => ?_, fun hn => ?_, fun hn => ?_⟩
    · by_contra hnot
      rw [not_or] at hnot
      obtain ⟨hr, hb'⟩ := (happ k hk).2 hnot.1
      exact hnot.2 (by rw [← hr, heq, hb'])
    · obtain ⟨n, rfl⟩ := Nat.exists_eq_succ_of_ne_zero hn
      rw [← heq, replay_date h clock n s f a hrec (hro hn) ha]
      push_cast
      rfl
    · subst hn
      obtain rfl : a = b := some.inj (ha.symm.trans hb)
      exact congrFun heq _
  · rintro ⟨hkeep, hdate, hzero⟩
    funext k
    by_cases hk : k = kCOModificationDateProperty
    · subst hk
      rcases n with _ | n
      · obtain rfl : a = b := some.inj (ha.symm.trans hb)
        exact hzero rfl
      · rw [hdate (by omega), replay_date h clock n s f a hrec (hro (by omega)) ha]
        push_cast
        rfl
    · by_cases how : Overwritten vs s (s + n) k
      · exact (happ k hk).1 how
      · obtain ⟨hr, hb'⟩ := (happ k hk).2 how
        rw [hr, hb', (hkeep k hk).resolve_left how]

/-- The property the last snapshot missed a change of has the right value, and so has the date. -/
structure PlaybackExact (vs : List (ObjectVersion (Properties V) (PropertyMutator V) V))
    (clock : ℤ → V) (s v : ℕ) : Prop where
  property : ∀ m now n p u, vs[s]? = some ⟨.recorded m now n, p⟩ → vs[s - 1]? = some u →
    m.property = kCOModificationDateProperty ∨ p m.property = u.state m.property ∨
      Overwritten vs s v m.property
  playbackDate : s < v → ∀ m now n p, vs[v]? = some ⟨.recorded m now n, p⟩ → clock v = now
  snapshotDate : s = v → ∀ m now n p u, vs[s]? = some ⟨.recorded m now n, p⟩ →
    vs[s - 1]? = some u → u.state kCOModificationDateProperty = some now

theorem restore_COObject_iff (h : Stored (COObject intValue) false x vs) (clock : ℤ → V) {s v : ℕ}
    (hs : LastSnapshot vs s v) {b : ObjectVersion (Properties V) (PropertyMutator V) V}
    (hb : vs[v]? = some b) :
    x.bundle.restore (COObject intValue) clock v = some b.state ↔ PlaybackExact vs clock s v := by
  obtain ⟨hv, -⟩ := List.getElem?_eq_some_iff.1 hb
  obtain ⟨⟨c, p⟩, ha, -⟩ := hs.taken
  obtain ⟨n, rfl⟩ : ∃ n, v = s + n := ⟨v - s, by have := hs.le; omega⟩
  have hrec : ∀ t, s < t → t ≤ s + n → ∃ m now j q, vs[t]? = some ⟨.recorded m now j, q⟩ :=
    fun t h₁ h₂ => hs.recorded hv h₁ h₂
  have hdate : n ≠ 0 → ∃ m now j q, vs[s + n]? = some ⟨.recorded m now j, q⟩ ∧
      b.state kCOModificationDateProperty = some now := fun hn => by
    obtain ⟨m, now, j, q, hu⟩ := hrec (s + n) (by omega) le_rfl
    obtain ⟨u, hu'⟩ : ∃ u, vs[s + n - 1]? = some u := ⟨_, List.getElem?_eq_getElem (by omega)⟩
    have hidx : s + n - 1 + 1 = s + n := by omega
    obtain ⟨hro, hq⟩ := h.not_readOnly hu' (hidx ▸ hu)
    obtain rfl := some.inj (hb.symm.trans hu)
    exact ⟨m, now, j, q, hu, by simp [hq, invoke_apply hro]⟩
  have hplay : (n ≠ 0 → b.state kCOModificationDateProperty = some (clock (s + n))) ↔
      (s < s + n → ∀ m now j p, vs[s + n]? = some ⟨.recorded m now j, p⟩ →
        clock (s + n : ℕ) = now) := by
    constructor
    · intro hb' hn m now j q hu
      obtain ⟨m', now', j', q', hu', hd⟩ := hdate (by omega)
      obtain ⟨⟨⟩⟩ := some.inj (hu.symm.trans hu')
      have := hb' (by omega)
      rw [hd, some.injEq] at this
      simp [this]
    · intro hc hn
      obtain ⟨m', now', j', q', hu', hd⟩ := hdate hn
      rw [hd, ← hc (by omega) _ _ _ _ hu']
      simp
  rw [restore_eq h clock hv hs, hs.savedState_eq, ha, Nat.add_sub_cancel_left]
  cases c with
  | saved =>
    have hro : n ≠ 0 → isReadOnly intValue p = false := fun hn => by
      obtain ⟨m, now, j, q, hu⟩ := hrec (s + 1) (by omega) (by omega)
      exact (h.not_readOnly ha hu).1
    rw [bind_some, map_some, some.injEq,
      replay_eq_iff h clock hrec hro ha hb, hplay]
    refine ⟨fun hh => ⟨?_, hh.2.1, ?_⟩, fun hh => ⟨fun _ _ => Or.inr rfl, hh.playbackDate,
      fun _ => rfl⟩⟩
    · rintro m now j q u hu
      rw [ha] at hu
      cases hu
    · rintro - m now j q u hu
      rw [ha] at hu
      cases hu
  | recorded m now j =>
    have hs0 : s ≠ 0 := fun hs0 => by
      subst hs0
      cases h.first _ ha
    obtain ⟨u, hu⟩ : ∃ u, vs[s - 1]? = some u := ⟨_, List.getElem?_eq_getElem (by omega)⟩
    have hidx : s - 1 + 1 = s := by omega
    obtain ⟨hro, hp⟩ := h.not_readOnly hu (hidx ▸ ha)
    simp only [bind_some, hu, Bool.false_eq_true, if_false, map_some,
      some.injEq]
    rw [replay_eq_iff h clock hrec (fun _ => hro) ha hb, hplay]
    have hmod : p kCOModificationDateProperty = some now := by simp [hp, invoke_apply hro]
    have hother : ∀ k, k ≠ kCOModificationDateProperty → k ≠ m.property → p k = u.state k :=
      fun k hk hm => by simp [hp, invoke_apply hro, hk, hm]
    constructor
    · rintro ⟨hkeep, hplayed, hzero⟩
      refine ⟨?_, hplayed, ?_⟩
      · rintro m' now' j' q u' hq hu'
        cases ha.symm.trans hq
        cases hu.symm.trans hu'
        by_cases hm : m.property = kCOModificationDateProperty
        · exact Or.inl hm
        · exact Or.inr ((hkeep _ hm).symm.imp_left Eq.symm)
      · rintro hsn m' now' j' q u' hq hu'
        cases ha.symm.trans hq
        cases hu.symm.trans hu'
        exact (hzero (by omega)).trans hmod
    · intro hh
      refine ⟨fun k hk => ?_, hh.playbackDate, fun hn => ?_⟩
      · by_cases hm : k = m.property
        · subst hm
          rcases hh.property m now j p u ha hu with hm | hm | hm
          · exact absurd hm hk
          · exact Or.inr hm.symm
          · exact Or.inl hm
        · exact Or.inr (hother k hk hm).symm
      · exact (hh.snapshotDate (by omega) m now j p u ha hu).trans hmod.symm

/-- Snapshots and playback give back the state of a version `v` for a proxied object always, and
for a `COObject` unless the last snapshot up to `v` missed a change that no later one undoes. -/
theorem restore_eq_state_iff {σ μ : Type} (C : ManagedClass σ μ Unit) (intValue : V → ℤ)
    (clock : ℤ → V) :
    (∀ x vs, History C true x vs → ∀ (v : ℕ) b, vs[v]? = some b →
      x.bundle.restore C (fun _ => ()) v = some b.state) ∧
    (∀ x vs, History C false x vs → ∀ (v : ℕ) b, vs[v]? = some b →
      ∃ s, LastSnapshot vs s v ∧
        (x.bundle.restore C (fun _ => ()) v = some b.state ↔
          ∀ m now n p u, vs[s]? = some ⟨.recorded m now n, p⟩ → vs[s - 1]? = some u →
            replay C (fun _ => ()) vs (v - s) s u.state = b.state)) ∧
    (∀ x vs, History (COObject intValue) false x vs → ∀ (v : ℕ) b, vs[v]? = some b →
      ∃ s, LastSnapshot vs s v ∧
        (x.bundle.restore (COObject intValue) clock v = some b.state ↔
          PlaybackExact vs clock s v)) := by
  refine ⟨fun x vs h v u hu => restore_proxy h.stored hu, fun x vs h v b hb => ?_,
    fun x vs h v b hb => ?_⟩
  · obtain ⟨hv, -⟩ := List.getElem?_eq_some_iff.1 hb
    obtain ⟨s, hs⟩ := exists_lastSnapshot h.stored.first v hv
    exact ⟨s, hs, restore_iff h.stored hs hb⟩
  · obtain ⟨hv, -⟩ := List.getElem?_eq_some_iff.1 hb
    obtain ⟨s, hs⟩ := exists_lastSnapshot h.stored.first v hv
    exact ⟨s, hs, restore_COObject_iff h.stored clock hs hb⟩

end Replay

def adder : ManagedClass ℕ ℕ Unit := ⟨fun _ _ => true, fun _ n s => s + n⟩

/-- Three additions with a snapshot at every second version, as a proxied object and as one that is
not, and two values set one after the other. -/
theorem restore_eq_state_iff_periodic :
    (∃ x, x.bundle.restore adder (fun _ => ()) (2 : ℕ) = some 3 ∧
      History adder true x [⟨.saved, 0⟩, ⟨.recorded 1 () 2, 1⟩, ⟨.recorded 2 () 2, 3⟩,
        ⟨.recorded 3 () 2, 6⟩]) ∧
    (∃ x vs, History adder false x vs ∧ ∃ s, LastSnapshot vs s 2 ∧
      (x.bundle.restore adder (fun _ => ()) (2 : ℕ) = some 3 ↔
        ∀ m now n p u, vs[s]? = some ⟨.recorded m now n, p⟩ → vs[s - 1]? = some u →
          replay adder (fun _ => ()) vs (2 - s) s u.state = 3)) ∧
    (∃ x vs, History (COObject Int.ofNat) false x vs ∧ ∃ b, vs[2]? = some b ∧ b.state "a" = some 2 ∧
      ∃ s, LastSnapshot vs s 2 ∧
        (x.bundle.restore (COObject Int.ofNat) (fun _ => 7) (2 : ℕ) = some b.state ↔
          PlaybackExact vs (fun _ => 7) s 2)) := by
  have h₁ : History adder true _ _ := .recorded 3 () 2 (.recorded 2 () 2
    (.recorded 1 () 2 (.new 0) (.inl rfl) rfl) (.inl rfl) rfl) (.inl rfl) rfl
  have h₂ : History adder false _ _ := .recorded 3 () 2 (.recorded 2 () 2
    (.recorded 1 () 2 (.new 0) (.inr rfl) rfl) (.inr rfl) rfl) (.inr rfl) rfl
  have h₃ : History (COObject Int.ofNat) false _ _ := .recorded (.setValue 2 "a") 7 2
    (.recorded (.setValue 1 "a") 7 2 (.new fun _ => none) (.inr rfl) rfl) (.inr rfl) rfl
  obtain ⟨hproxy, hclass, hproperties⟩ := restore_eq_state_iff adder Int.ofNat fun _ => 7
  exact ⟨⟨_, hproxy _ _ h₁ 2 ⟨.recorded 2 () 2, 3⟩ rfl, h₁⟩,
    ⟨_, _, h₂, hclass _ _ h₂ 2 ⟨.recorded 2 () 2, 3⟩ rfl⟩,
    ⟨_, _, h₃, _, rfl, rfl, hproperties _ _ h₃ 2 _ rfl⟩⟩

/-- The second of two values set is lost when the snapshot is taken at version 2. -/
theorem restore_periodic_ne :
    ¬ ∀ (x : ManagedObject (Properties ℕ) (PropertyMutator ℕ)) vs (clock : ℤ → ℕ),
      History (COObject Int.ofNat) false x vs → ∀ (v : ℕ) b, vs[v]? = some b →
        x.bundle.restore (COObject Int.ofNat) clock v = some b.state := by
  intro h
  have hrun : History (COObject Int.ofNat) false _ _ := .recorded (.setValue 2 "a") 7 2
    (.recorded (.setValue 1 "a") 7 2 (.new fun _ => none) (.inr rfl) rfl) (.inr rfl) rfl
  have heq := congrArg (Option.map fun p => p "a") (h _ _ (fun _ => 7) hrun 2 _ rfl)
  revert heq
  decide

end Etoile.CoreObject
