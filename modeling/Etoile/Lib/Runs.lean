import Mathlib.Logic.Basic

/-!
# Conditions along a run
-/

namespace Etoile

variable {σ ι : Type*} {step : σ → ι → σ} {I : σ → Prop} {C P : σ → ι → Prop}

def Along (step : σ → ι → σ) (C : σ → ι → Prop) : σ → List ι → Prop
  | _, [] => True
  | s, i :: is => C s i ∧ Along step C (step s i) is

instance decidableAlong [∀ s i, Decidable (C s i)] :
    ∀ (s : σ) (is : List ι), Decidable (Along step C s is)
  | _, [] => isTrue trivial
  | s, i :: is => @instDecidableAnd _ _ _ (decidableAlong (step s i) is)

/-- `I` is an invariant of the steps that meet `C`. -/
theorem Along.of_invariant (hstep : ∀ s i, I s → C s i → P s i ∧ I (step s i)) :
    ∀ {is : List ι} {s : σ}, I s → Along step C s is → Along step P s is
  | [], _, _, _ => trivial
  | i :: _, s, hs, ⟨hC, hrest⟩ =>
    have h := hstep s i hs hC
    ⟨h.1, Along.of_invariant hstep h.2 hrest⟩

theorem Along.always (hstep : ∀ s i, I s → P s i ∧ I (step s i)) :
    ∀ {is : List ι} {s : σ}, I s → Along step P s is
  | [], _, _ => trivial
  | i :: _, s, hs =>
    have h := hstep s i hs
    ⟨h.1, Along.always hstep h.2⟩

theorem Along.invariant (hstep : ∀ s i, I s → C s i → I (step s i)) :
    ∀ {is : List ι} {s : σ}, I s → Along step C s is → I (is.foldl step s)
  | [], _, hs, _ => hs
  | i :: is, s, hs, ⟨hC, hrest⟩ => @Along.invariant hstep is (step s i) (hstep s i hs hC) hrest

theorem Along.mono (h : ∀ s i, C s i → P s i) : ∀ {is : List ι} {s : σ},
    Along step C s is → Along step P s is
  | [], _, _ => trivial
  | _ :: _, _, ⟨hC, hrest⟩ => ⟨h _ _ hC, Along.mono h hrest⟩

theorem Along.of_append : ∀ {is js : List ι} {s : σ}, Along step P s (is ++ js) →
    Along step P (is.foldl step s) js
  | [], _, _, h => h
  | i :: is, js, s, h => @Along.of_append is js (step s i) h.2

theorem along_iff (hP : ∀ s i, I s → (P s i ↔ C s i)) (hI : ∀ s i, I s → C s i → I (step s i))
    {is : List ι} {s : σ} (hs : I s) : Along step P s is ↔ Along step C s is := by
  constructor
  · exact Along.of_invariant (fun s i hs h => ⟨(hP s i hs).1 h, hI s i hs ((hP s i hs).1 h)⟩) hs
  · exact Along.of_invariant (fun s i hs h => ⟨(hP s i hs).2 h, hI s i hs h⟩) hs

end Etoile
