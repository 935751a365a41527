import Mathlib.Data.Int.Order.Basic
import Mathlib.Logic.Function.Basic
import Etoile.Lib.Runs

/-!
# Arrays with bounds, and counted loops

Accesses outside the bounds of an array fail.  What a program yields, if nothing in it fails, is
shown along its steps; a counted loop keeps what each of its turns keeps.
-/

namespace Etoile

variable {σ τ α : Type} {x : Option σ} {Q Q' : σ → Prop} {R : τ → Prop}

def Yields (x : Option σ) (Q : σ → Prop) : Prop := ∃ s, x = some s ∧ Q s

theorem Yields.of {s : σ} (h : Q s) : Yields (some s) Q := ⟨s, rfl, h⟩

theorem Yields.mono (h : Yields x Q) (hQ : ∀ s, Q s → Q' s) : Yields x Q' := by
  obtain ⟨s, hs, hQs⟩ := h
  exact ⟨s, hs, hQ s hQs⟩

theorem Yields.bind {f : σ → Option τ} (h : Yields x Q) (hf : ∀ s, Q s → Yields (f s) R) :
    Yields (x.bind f) R := by
  obtain ⟨s, rfl, hQs⟩ := h
  exact hf s hQs

/-- One step of a program that may fail; where it fails, the state is kept. -/
def orStay {ι : Type} (f : σ → ι → Option σ) (s : σ) (i : ι) : σ := (f s i).getD s

theorem Along.foldlM {ι : Type} {f : σ → ι → Option σ} {C : σ → ι → Prop}
    (hf : ∀ s i, Q s → C s i → Yields (f s i) Q) : ∀ {is : List ι} {s : σ}, Q s →
      Along (orStay f) C s is → Yields (is.foldlM f s) Q
  | [], _, h, _ => .of h
  | i :: is, s, h, ⟨hC, hrest⟩ => by
    obtain ⟨t, ht, hQ⟩ := hf s i h hC
    rw [List.foldlM_cons, ht]
    unfold orStay at hrest
    rw [ht] at hrest
    exact Along.foldlM hf hQ hrest

theorem Along.yields {ι : Type} {f : σ → ι → Option σ} {C : σ → ι → Prop}
    (hf : ∀ s i, Q s → C s i → Yields (f s i) Q) {is : List ι} {s : σ} (h : Q s)
    (hC : Along (orStay f) C s is) : Along (orStay f) (fun s i => Yields (f s i) Q) s is := by
  refine Along.of_invariant (fun s i hs hC => ⟨hf s i hs hC, ?_⟩) h hC
  obtain ⟨t, ht, hQ⟩ := hf s i hs hC
  unfold orStay
  rw [ht]
  exact hQ

def fetch (a : ℕ → α) (size i : ℤ) : Option α := if 0 ≤ i ∧ i < size then some (a i.toNat) else none

def store (a : ℕ → α) (size i : ℤ) (v : α) : Option (ℕ → α) :=
  if 0 ≤ i ∧ i < size then some (Function.update a i.toNat v) else none

theorem fetch_eq {a : ℕ → α} {size i : ℤ} (h : 0 ≤ i) (h' : i < size) :
    fetch a size i = some (a i.toNat) := if_pos ⟨h, h'⟩

theorem store_eq {a : ℕ → α} {size i : ℤ} (v : α) (h : 0 ≤ i) (h' : i < size) :
    store a size i v = some (Function.update a i.toNat v) := if_pos ⟨h, h'⟩

def countUp (body : ℤ → σ → Option σ) : ℕ → ℤ → σ → Option σ
  | 0, _, s => some s
  | n + 1, i, s => (body i s).bind (countUp body n (i + 1))

/-- `for (i = lo; i < hi; i++)`. -/
def forUp (lo hi : ℤ) (body : ℤ → σ → Option σ) (s : σ) : Option σ :=
  countUp body (hi - lo).toNat lo s

def countDown (body : ℤ → σ → Option σ) : ℕ → ℤ → σ → Option σ
  | 0, _, s => some s
  | n + 1, i, s => (body i s).bind (countDown body n (i - 1))

/-- `for (i = hi; i > lo; i--)`. -/
def forDown (hi lo : ℤ) (body : ℤ → σ → Option σ) (s : σ) : Option σ :=
  countDown body (hi - lo).toNat hi s

variable {body : ℤ → σ → Option σ} {P : ℤ → σ → Prop} {lo hi : ℤ}

theorem countUp_yields : ∀ (n : ℕ) {i : ℤ} {s : σ},
    (∀ k s, i ≤ k → k < i + n → P k s → Yields (body k s) (P (k + 1))) → P i s →
      Yields (countUp body n i s) (P (i + n))
  | 0, i, s, _, h => .of (by simpa using h)
  | n + 1, i, s, hbody, h => by
    refine (hbody i s le_rfl (by omega) h).bind fun s' h' => ?_
    have hrest := countUp_yields n (i := i + 1) (s := s')
      (fun k t hk hlt => hbody k t (by omega) (by push_cast at hlt ⊢; omega)) h'
    rwa [show i + ((n + 1 : ℕ) : ℤ) = i + 1 + n by push_cast; omega]

theorem countDown_yields : ∀ (n : ℕ) {i : ℤ} {s : σ},
    (∀ k s, k ≤ i → i - n < k → P k s → Yields (body k s) (P (k - 1))) → P i s →
      Yields (countDown body n i s) (P (i - n))
  | 0, i, s, _, h => .of (by simpa using h)
  | n + 1, i, s, hbody, h => by
    refine (hbody i s le_rfl (by omega) h).bind fun s' h' => ?_
    have hrest := countDown_yields n (i := i - 1) (s := s')
      (fun k t hk hlt => hbody k t (by omega) (by push_cast at hlt ⊢; omega)) h'
    rwa [show i - ((n + 1 : ℕ) : ℤ) = i - 1 - n by push_cast; omega]

theorem forUp_yields {s : σ} (hle : lo ≤ hi) (h : P lo s)
    (hbody : ∀ k s, lo ≤ k → k < hi → P k s → Yields (body k s) (P (k + 1))) :
    Yields (forUp lo hi body s) (P hi) := by
  have hrun := countUp_yields (hi - lo).toNat
    (fun k t hk hlt => hbody k t hk (by omega)) h
  rwa [show lo + ((hi - lo).toNat : ℤ) = hi by omega] at hrun

theorem forDown_yields {s : σ} (hle : lo ≤ hi) (h : P hi s)
    (hbody : ∀ k s, k ≤ hi → lo < k → P k s → Yields (body k s) (P (k - 1))) :
    Yields (forDown hi lo body s) (P lo) := by
  have hrun := countDown_yields (hi - lo).toNat
    (fun k t hk hlt => hbody k t hk (by omega)) h
  rwa [show hi - ((hi - lo).toNat : ℤ) = lo by omega] at hrun

theorem forUp_keeps {I : σ → Prop} {s : σ} (h : I s)
    (hbody : ∀ k s, lo ≤ k → k < hi → I s → Yields (body k s) I) : Yields (forUp lo hi body s) I :=
  countUp_yields (hi - lo).toNat (fun k t hk hlt => hbody k t hk (by omega)) h

end Etoile
