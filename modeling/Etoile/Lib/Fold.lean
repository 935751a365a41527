import Mathlib.Data.Finset.Insert

/-!
# Folds that may fail

Rules for a loop over a list whose turns may fail: what every turn preserves holds at the end, a
loop whose turns all succeed succeeds, and a loop simulates another turn by turn.
-/

namespace Etoile

open List Option

variable {α S T : Type}

/-- `I rest s` holds before the turns over `rest`. -/
theorem foldlM_preserves {f : S → α → Option S} {I : List α → S → Prop}
    (step : ∀ a rest s s', I (a :: rest) s → f s a = some s' → I rest s') :
    ∀ (l : List α) (s s' : S), I l s → l.foldlM f s = some s' → I [] s'
  | [], s, s', hs, h => by
    obtain rfl : s = s' := by simpa using h
    exact hs
  | a :: rest, s, s', hs, h => by
    rw [foldlM_cons, bind_eq_bind, bind_eq_some_iff] at h
    obtain ⟨s₁, h₁, h₂⟩ := h
    exact foldlM_preserves step rest s₁ s' (step a rest s s₁ hs h₁) h₂

theorem foldlM_succeeds {f : S → α → Option S} {I : List α → S → Prop}
    (step : ∀ a rest s, I (a :: rest) s → ∃ s', f s a = some s' ∧ I rest s') :
    ∀ (l : List α) (s : S), I l s → ∃ s', l.foldlM f s = some s' ∧ I [] s'
  | [], s, hs => ⟨s, rfl, hs⟩
  | a :: rest, s, hs => by
    obtain ⟨s₁, h₁, hs₁⟩ := step a rest s hs
    obtain ⟨s', h', hs'⟩ := foldlM_succeeds step rest s₁ hs₁
    exact ⟨s', by simp [h₁, h'], hs'⟩

/-- A loop that counts; `I k s` holds before the turn for `k`. -/
theorem foldlM_range'_succeeds {f : S → ℕ → Option S} {I : ℕ → S → Prop} :
    ∀ {count first : ℕ} {s : S},
      (∀ k s, first ≤ k → k < first + count → I k s → ∃ s', f s k = some s' ∧ I (k + 1) s') →
        I first s → ∃ s', (range' first count).foldlM f s = some s' ∧ I (first + count) s'
  | 0, _, s, _, hs => ⟨s, rfl, hs⟩
  | count + 1, first, s, step, hs => by
    obtain ⟨s₁, h₁, hs₁⟩ := step first s (Nat.le_refl _) (by omega) hs
    obtain ⟨s', h', hs'⟩ := @foldlM_range'_succeeds f I count (first + 1) s₁
      (fun k t hk hlt => step k t (by omega) (by omega)) hs₁
    refine ⟨s', by simp [range'_succ, h₁, h'], ?_⟩
    have hlast : first + 1 + count = first + (count + 1) := by omega
    rwa [hlast] at hs'

theorem foldlM_simulates {f : S → α → Option S} {g : T → α → Option T} {R : S → T → Prop} :
    ∀ (l : List α) (s s' : S) (t : T),
      (∀ a ∈ l, ∀ s s' t, R s t → f s a = some s' → ∃ t', g t a = some t' ∧ R s' t') →
      R s t → l.foldlM f s = some s' → ∃ t', l.foldlM g t = some t' ∧ R s' t'
  | [], s, s', t, _, hs, h => by
    obtain rfl : s = s' := by simpa using h
    exact ⟨t, rfl, hs⟩
  | a :: rest, s, s', t, step, hs, h => by
    rw [foldlM_cons, bind_eq_bind, bind_eq_some_iff] at h
    obtain ⟨s₁, h₁, h₂⟩ := h
    obtain ⟨t₁, ht₁, hs₁⟩ := step a mem_cons_self s s₁ t hs h₁
    obtain ⟨t', ht', hs'⟩ := foldlM_simulates rest s₁ s' t₁
      (fun b hb => step b (mem_cons_of_mem _ hb)) hs₁ h₂
    exact ⟨t', by simp [ht₁, ht'], hs'⟩

theorem flatten_of_mapM {β : Type} {f : α → Option (List β)} : ∀ {l : List α} {bs : List (List β)},
    l.mapM f = some bs →
      (∀ a ∈ l, ∃ b, f a = some b) ∧ bs.flatten = l.flatMap fun a => (f a).getD []
  | [], _, h => by
    obtain rfl := some.inj h
    exact ⟨nofun, rfl⟩
  | a :: l, bs, h => by
    rw [mapM_cons, bind_eq_bind, bind_eq_some_iff] at h
    obtain ⟨b, hb, hrest⟩ := h
    obtain ⟨bs', hbs', heq⟩ := bind_eq_some_iff.1 hrest
    obtain rfl := some.inj heq
    obtain ⟨hall, hflatten⟩ := flatten_of_mapM hbs'
    refine ⟨forall_mem_cons.2 ⟨⟨b, hb⟩, hall⟩, ?_⟩
    rw [flatten_cons, flatMap_cons, hflatten, hb, getD_some]

theorem exists_mapM {β : Type} {f : α → Option β} : ∀ {l : List α},
    (∀ a ∈ l, ∃ b, f a = some b) → ∃ bs, l.mapM f = some bs
  | [], _ => ⟨[], rfl⟩
  | a :: l, h => by
    rw [forall_mem_cons] at h
    obtain ⟨b, hb⟩ := h.1
    obtain ⟨bs, hbs⟩ := exists_mapM h.2
    exact ⟨b :: bs, by simp [mapM_cons, hb, hbs]⟩

end Etoile

/-!
## Loops over sets

The elements of a set come in an order of its own.  What a loop establishes element by element it
has established of the whole set, in whichever order.
-/

namespace Etoile

open List

variable {α S : Type}

structure Enumeration (α : Type) where
  toList : Finset α → List α
  nodup : ∀ s, (toList s).Nodup
  mem_toList : ∀ s a, a ∈ toList s ↔ a ∈ s

namespace Enumeration

noncomputable def ofToList : Enumeration α where
  toList := Finset.toList
  nodup := Finset.nodup_toList
  mem_toList _ _ := Finset.mem_toList

variable (o : Enumeration α)

def forEach (f : S → α → Option S) (s : Finset α) (x : S) : Option S := (o.toList s).foldlM f x

variable {o} {f : S → α → Option S} {s : Finset α} {x x' : S}

/-- `Q done x` says what has been established of `done`. -/
theorem forEach_spec [DecidableEq α] {Q : Finset α → S → Prop}
    (hstep : ∀ done a x, a ∈ s → a ∉ done → Q done x → ∃ x', f x a = some x' ∧ Q (insert a done) x')
    (h : Q ∅ x) : ∃ x', o.forEach f s x = some x' ∧ Q s x' := by
  let I (rest : List α) (x : S) : Prop :=
    rest.Nodup ∧ ∃ done, (∀ a, a ∈ s ↔ a ∈ done ∨ a ∈ rest) ∧ (∀ a ∈ rest, a ∉ done) ∧ Q done x
  have hrun := foldlM_succeeds (f := f) (I := I) ?_ (o.toList s) x ?_
  · obtain ⟨x', hx', -, done, hs, -, hdone⟩ := hrun
    have hall : done = s := by
      ext a
      rw [hs a]
      simp
    exact ⟨x', hx', hall ▸ hdone⟩
  · rintro a rest x ⟨hnodup, done, hs, hrest, hdone⟩
    rw [nodup_cons] at hnodup
    obtain ⟨x', hx', hdone'⟩ := hstep done a x ((hs a).2 (.inr mem_cons_self))
      (hrest a mem_cons_self) hdone
    refine ⟨x', hx', hnodup.2, insert a done, fun b => ?_, fun b hb => ?_, hdone'⟩
    · rw [hs b, mem_cons, Finset.mem_insert]
      tauto
    · rw [Finset.mem_insert, not_or]
      exact ⟨fun hba => hnodup.1 (hba ▸ hb), hrest b (mem_cons_of_mem _ hb)⟩
  · refine ⟨o.nodup s, ∅, fun a => ?_, fun a _ => Finset.notMem_empty a, h⟩
    rw [o.mem_toList]
    simp

/-- A loop whose turns have results and keep `Q` has a result and keeps `Q`. -/
theorem forEach_succeeds [DecidableEq α] {Q : S → Prop}
    (hstep : ∀ a x, a ∈ s → Q x → ∃ x', f x a = some x' ∧ Q x') (h : Q x) :
    ∃ x', o.forEach f s x = some x' ∧ Q x' :=
  forEach_spec (Q := fun _ => Q) (fun _ a x ha _ hx => hstep a x ha hx) h

/-- What every turn keeps the loop keeps, unless it has no result. -/
theorem forEach_preserves {Q : S → Prop} (hstep : ∀ a x x', a ∈ s → Q x → f x a = some x' → Q x')
    (h : Q x) (hx : o.forEach f s x = some x') : Q x' := by
  let I (rest : List α) (x : S) : Prop := (∀ a ∈ rest, a ∈ s) ∧ Q x
  have hkeep : ∀ a rest x x', I (a :: rest) x → f x a = some x' → I rest x' := by
    rintro a rest x x' ⟨hrest, hx⟩ hf
    refine ⟨fun b hb => hrest b (mem_cons_of_mem _ hb), ?_⟩
    exact hstep a x x' (hrest a mem_cons_self) hx hf
  exact (foldlM_preserves hkeep (o.toList s) x x' ⟨fun a ha => (o.mem_toList s a).1 ha, h⟩ hx).2

/-- A loop that meets an element that no turn has a result for has none itself. -/
theorem forEach_fails {Q : S → Prop} {a : α}
    (hstep : ∀ a x x', a ∈ s → Q x → f x a = some x' → Q x') (hfail : ∀ x, Q x → f x a = none)
    (ha : a ∈ s) (h : Q x) : o.forEach f s x = none := by
  let I (rest : List α) (x : S) : Prop := (∀ b ∈ rest, b ∈ s) ∧ a ∈ rest ∧ Q x
  have hkeep : ∀ b rest x x', I (b :: rest) x → f x b = some x' → I rest x' := by
    rintro b rest x x' ⟨hrest, hmem, hx⟩ hf
    refine ⟨fun c hc => hrest c (mem_cons_of_mem _ hc), ?_,
      hstep b x x' (hrest b mem_cons_self) hx hf⟩
    rcases mem_cons.1 hmem with rfl | hmem
    · rw [hfail x hx] at hf
      cases hf
    · exact hmem
  cases hrun : o.forEach f s x with
  | none => rfl
  | some x' =>
    have hend := foldlM_preserves hkeep (o.toList s) x x'
      ⟨fun b hb => (o.mem_toList s b).1 hb, (o.mem_toList s a).2 ha, h⟩ hrun
    cases hend.2.1

end Enumeration

end Etoile
