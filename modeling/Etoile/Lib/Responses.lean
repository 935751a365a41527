import Mathlib.Data.List.Forall2

/-!
# Answers along a run

A machine answers each request and moves on.  Two machines answer alike along every run on which a
relation between their states is kept.
-/

namespace Etoile

variable {σ τ ι ο : Type*}

def responses (step : σ → ι → σ × ο) : σ → List ι → List ο
  | _, [] => []
  | s, i :: is => (step s i).2 :: responses step (step s i).1 is

def MeetsAlong (step : σ → ι → σ × ο) (C : σ → ι → Prop) : σ → List ι → Prop
  | _, [] => True
  | s, i :: is => C s i ∧ MeetsAlong step C (step s i).1 is

theorem responses_eq {stepA : σ → ι → σ × ο} {stepB : τ → ι → τ × ο} {R : σ → τ → Prop}
    {C : τ → ι → Prop} (hstep : ∀ s t i, R s t → C t i →
      (stepA s i).2 = (stepB t i).2 ∧ R (stepA s i).1 (stepB t i).1) :
    ∀ (is : List ι) (s : σ) (t : τ), R s t → MeetsAlong stepB C t is →
      responses stepA s is = responses stepB t is
  | [], _, _, _, _ => rfl
  | i :: is, s, t, hR, hC => by
    obtain ⟨hanswer, hnext⟩ := hstep s t i hR hC.1
    rw [responses, responses, hanswer, responses_eq hstep is _ _ hnext hC.2]

inductive CopyRequest (ι : Type*)
  | request (n : ℕ) (i : ι)
  | copy (n : ℕ)

/-- Several machines, each with a state of its own; there is no answer to a copy, or if there is no
machine with the number. -/
def several (step : σ → ι → σ × ο) (copy : σ → σ) (machines : List σ) :
    CopyRequest ι → List σ × Option ο
  | .request n i =>
    match machines[n]? with
    | none => (machines, none)
    | some s => (machines.set n (step s i).1, some (step s i).2)
  | .copy n =>
    match machines[n]? with
    | none => (machines, none)
    | some s => (machines ++ [copy s], none)

def CopyRequest.Meets (C : ι → Prop) : CopyRequest ι → Prop
  | .request _ i => C i
  | .copy _ => True

section Several

variable {stepA : σ → ι → σ × ο} {stepB : τ → ι → τ × ο} {copyA : σ → σ} {copyB : τ → τ}
  {R : σ → τ → Prop} {C : ι → Prop}

theorem forall₂_set {as : List σ} {bs : List τ} {a : σ} {b : τ} (h : List.Forall₂ R as bs)
    (hab : R a b) : ∀ n, List.Forall₂ R (as.set n a) (bs.set n b) := by
  induction h with
  | nil => exact fun _ => .nil
  | cons hR htail ih =>
    rintro (_ | n)
    · exact .cons hab htail
    · exact .cons hR (ih n)

theorem forall₂_getElem? {as : List σ} {bs : List τ} (h : List.Forall₂ R as bs) :
    ∀ n : ℕ, as[n]? = none ∧ bs[n]? = none ∨ ∃ a b, as[n]? = some a ∧ bs[n]? = some b ∧ R a b := by
  induction h with
  | nil => exact fun _ => .inl ⟨rfl, rfl⟩
  | cons hR _ ih =>
    rintro (_ | n)
    · exact .inr ⟨_, _, rfl, rfl, hR⟩
    · exact ih n

/-- Machines that answer alike do so with all their copies, in any order of the requests. -/
theorem responses_several_eq
    (hstep : ∀ s t i, R s t → C i →
      (stepA s i).2 = (stepB t i).2 ∧ R (stepA s i).1 (stepB t i).1)
    (hcopy : ∀ s t, R s t → R (copyA s) (copyB t)) {requests : List (CopyRequest ι)}
    (hrequests : ∀ r ∈ requests, r.Meets C) {s : σ} {t : τ} (h : R s t) :
    responses (several stepA copyA) [s] requests = responses (several stepB copyB) [t] requests := by
  refine responses_eq (R := List.Forall₂ R) (C := fun _ r => r.Meets C) ?_ requests _ _
    (.cons h .nil) ?_
  · rintro as bs (⟨n, i⟩ | ⟨n⟩) hR hC
    · rcases forall₂_getElem? hR n with ⟨ha, hb⟩ | ⟨a, b, ha, hb, hab⟩
      · simp only [several, ha, hb]
        exact ⟨trivial, hR⟩
      · obtain ⟨hanswer, hnext⟩ := hstep a b i hab hC
        simp only [several, ha, hb, hanswer]
        exact ⟨trivial, forall₂_set hR hnext n⟩
    · rcases forall₂_getElem? hR n with ⟨ha, hb⟩ | ⟨a, b, ha, hb, hab⟩
      · simp only [several, ha, hb]
        exact ⟨trivial, hR⟩
      · simp only [several, ha, hb]
        exact ⟨trivial, List.rel_append hR (.cons (hcopy a b hab) .nil)⟩
  · generalize [t] = ts
    induction requests generalizing ts with
    | nil => trivial
    | cons r requests ih =>
      rw [List.forall_mem_cons] at hrequests
      exact ⟨hrequests.1, ih hrequests.2 _⟩

end Several

end Etoile
