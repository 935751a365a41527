import Etoile.Lib.Walks
import Etoile.EtoileFoundation.Constraints

/-!
# Loops in the parent chain

The loop that would find that the parents come back to where they were is only reached when all
properties have been collected from the parents, which does not end in that case.  No loop is ever
reported.
-/

namespace Etoile.EtoileFoundation

open Option Relation

variable {P E G : Type}

def loops (ws : List (Warning P E)) : List (Warning P E) :=
  ws.filter (·.message = ModelDescriptions.loopMessage)

namespace Checking

variable {α : Type} {f : List (Warning P E) → Checking P E}

def Quiet (f : List (Warning P E) → Checking P E) : Prop :=
  ∀ ⦃ws r⦄, f ws = some r → loops r.1 = loops ws

theorem quiet_return (b : Bool) : Quiet fun ws : List (Warning P E) => some (ws, b) := by
  intro ws r h
  rw [← some.inj h]

theorem Quiet.andThen {g : List (Warning P E) → Checking P E} (hf : Quiet f) (hg : Quiet g) :
    Quiet fun ws => (f ws).andThen g := by
  intro ws r h
  obtain ⟨⟨ws', b⟩, hws, h⟩ := bind_eq_some_iff.1 h
  rw [← hf hws]
  cases b with
  | true => exact hg h
  | false =>
    rw [← some.inj h]

theorem quiet_each {f : α → List (Warning P E) → Checking P E} (hf : ∀ a, Quiet (f a)) :
    ∀ as : List α, Quiet (each f as)
  | [] => quiet_return true
  | a :: as => (hf a).andThen (quiet_each hf as)

theorem quiet_warnAll (source : P ⊕ E) (fullName : Option String) :
    ∀ checks : List (Bool × String), (∀ c ∈ checks, c.2 ≠ ModelDescriptions.loopMessage) →
      Quiet (warnAll source fullName checks)
  | [], _ => quiet_return true
  | (false, _) :: checks, h =>
    quiet_warnAll source fullName checks fun c hc => h c (List.mem_cons_of_mem _ hc)
  | (true, message) :: checks, h => by
    intro ws r hr
    unfold warnAll at hr
    cases fullName with
    | none => rw [← some.inj hr]
    | some n =>
      rw [quiet_warnAll source (some n) checks (fun c hc => h c (List.mem_cons_of_mem _ hc)) hr]
      unfold loops
      rw [List.filter_append, List.filter_cons_of_neg, List.filter_nil, List.append_nil]
      simpa using h _ List.mem_cons_self

def Ends (f : ℕ → List (Warning P E) → Checking P E) : Prop :=
  ∀ ws, ∃ r, Settles (fun fuel => f fuel ws) r

theorem ends_of_some (h : ∀ ws, ∃ r, f ws = some r) : Ends fun _ => f := by
  intro ws
  obtain ⟨r, hr⟩ := h ws
  refine ⟨r, ?_⟩
  show Settles (fun _ => f ws) r
  rw [hr]
  exact settles_some r

theorem Ends.andThen {f g : ℕ → List (Warning P E) → Checking P E} (hf : Ends f) (hg : Ends g) :
    Ends fun fuel ws => (f fuel ws).andThen (g fuel) := by
  intro ws
  obtain ⟨⟨ws', b⟩, hws⟩ := hf ws
  cases b with
  | true =>
    obtain ⟨r, hr⟩ := hg ws'
    exact ⟨r, hws.bind hr⟩
  | false => exact ⟨(ws', false), hws.bind (settles_some _)⟩

theorem ends_each {f : ℕ → α → List (Warning P E) → Checking P E} :
    ∀ {as : List α}, (∀ a ∈ as, Ends fun fuel => f fuel a) → Ends fun fuel => each (f fuel) as
  | [], _ => ends_of_some fun _ => ⟨_, rfl⟩
  | a :: _, h => (h a List.mem_cons_self).andThen
    (ends_each fun b hb => h b (List.mem_cons_of_mem _ hb))

theorem ends_warnAll (source : P ⊕ E) (fullName : Option String) :
    ∀ checks : List (Bool × String), Ends fun _ => warnAll source fullName checks
  | [] => ends_of_some fun _ => ⟨_, rfl⟩
  | (false, _) :: checks => ends_warnAll source fullName checks
  | (true, _) :: checks => by
    intro ws
    cases fullName with
    | none => exact ⟨_, settles_some _⟩
    | some n => exact ends_warnAll source (some n) checks _

end Checking

namespace ModelDescriptions

open Checking

variable (s : ModelDescriptions P E G) {e : E}

def Parent (a b : E) : Prop := s.parent a = .object b

def Cyclic (e : E) : Prop := ∃ x, ReflTransGen s.Parent e x ∧ TransGen s.Parent x x

def Listed (e : E) : Prop := ∃ g ∈ s.packageDescriptions, e ∈ s.entityDescriptions g

variable {s}

theorem acc_iff_not_cyclic [Finite E] : Acc (fun b a => s.Parent a b) e ↔ ¬ s.Cyclic e := by
  rw [acc_iff_acyclic (Set.toFinite _)]
  unfold Cyclic
  push Not
  rfl

variable [DecidableEq P] [DecidableEq E]

section Fuel

omit [DecidableEq P] [DecidableEq E]

/-- The properties are all there only if the parents end. -/
theorem acc_of_allPropertyDescriptions : ∀ {fuel : ℕ} {e : E} {ps : List P},
    s.allPropertyDescriptions fuel e = some (some ps) → Acc (fun b a => s.Parent a b) e
  | 0, _, _, h => by cases h
  | fuel + 1, e, ps, h => by
    refine .intro e fun b hb => ?_
    have hb : s.parent e = .object b := hb
    unfold allPropertyDescriptions at h
    rw [hb] at h
    obtain ⟨r, hr, hmap⟩ := map_eq_some_iff.1 h
    obtain ⟨ps', rfl, -⟩ := map_eq_some_iff.1 hmap
    exact acc_of_allPropertyDescriptions hr

theorem allPropertyDescriptions_settles (h : Acc (fun b a => s.Parent a b) e) :
    ∃ r, Settles (fun fuel => s.allPropertyDescriptions fuel e) r := by
  induction h with
  | intro e _ ih =>
    cases hparent : s.parent e with
    | null =>
      refine ⟨some (s.propertyDescriptions e), settles_of_succ ?_⟩
      simp only [allPropertyDescriptions, hparent]
      exact settles_some _
    | string n =>
      refine ⟨none, settles_of_succ ?_⟩
      simp only [allPropertyDescriptions, hparent]
      exact settles_some _
    | object q =>
      obtain ⟨r, hr⟩ := ih q hparent
      refine ⟨r.map (· ++ s.propertyDescriptions e), settles_of_succ ?_⟩
      simp only [allPropertyDescriptions, hparent]
      exact hr.map _

end Fuel

omit [DecidableEq P] in
theorem findsLoop_settles (h : Acc (fun b a => s.Parent a b) e) :
    ∀ set, ∃ r, Settles (fun fuel => s.findsLoop fuel set (s.parent e)) r := by
  induction h with
  | intro e _ ih =>
    intro set
    cases hparent : s.parent e with
    | null => exact ⟨some false, settles_of_succ (settles_some _)⟩
    | string n => exact ⟨none, settles_of_succ (settles_some _)⟩
    | object q =>
      by_cases hq : q ∈ set
      · refine ⟨some true, settles_of_succ ?_⟩
        simp only [findsLoop, if_pos hq]
        exact settles_some _
      · obtain ⟨r, hr⟩ := ih q hparent (q :: set)
        refine ⟨r, settles_of_succ ?_⟩
        simp only [findsLoop, if_neg hq]
        exact hr

omit [DecidableEq P] in
/-- The loop finds nothing if the parents end: what it has seen leads to where it is. -/
theorem findsLoop_of_acc : ∀ {fuel : ℕ} {set : List E} {e : E} {found : Bool},
    Acc (fun b a => s.Parent a b) e → (∀ x ∈ set, ReflTransGen s.Parent x e) →
    s.findsLoop fuel set (s.parent e) = some (some found) → found = false
  | fuel, set, e, found, h, hset, hfound => by
    cases hparent : s.parent e with
    | null =>
      rw [hparent] at hfound
      unfold findsLoop at hfound
      simpa using hfound.symm
    | string n =>
      rw [hparent] at hfound
      cases fuel <;> cases hfound
    | object q =>
      rw [hparent] at hfound
      cases fuel with
      | zero => cases hfound
      | succ fuel =>
        unfold findsLoop at hfound
        by_cases hq : q ∈ set
        · have hcycle : TransGen s.Parent e e := .head' hparent (hset q hq)
          exact absurd hcycle (acyclic_of_acc h .refl)
        · rw [if_neg hq] at hfound
          refine findsLoop_of_acc (h.inv hparent) (fun x hx => ?_) hfound
          rcases List.mem_cons.1 hx with rfl | hx
          · exact .refl
          · exact (hset x hx).tail hparent

section Checks

omit [DecidableEq E] in
theorem quiet_checkProperty (p : P) : Quiet (s.checkProperty p) := by
  unfold checkProperty
  refine (quiet_warnAll _ _ _ (by simp [loopMessage])).andThen (Quiet.andThen ?_ ?_)
  · cases s.opposite p with
    | null => exact quiet_return true
    | string n => exact quiet_return false
    | object q => exact quiet_warnAll _ _ _ (by simp [loopMessage])
  · cases (s.propertyName p).toList with
    | nil => exact quiet_return false
    | cons c cs => exact quiet_warnAll _ _ _ (by simp [loopMessage])

omit [DecidableEq E] in
theorem ends_checkProperty (p : P) : Ends fun _ => s.checkProperty p := by
  unfold checkProperty
  refine (ends_warnAll _ _ _).andThen (Ends.andThen ?_ ?_)
  · cases s.opposite p with
    | null => exact ends_of_some fun _ => ⟨_, rfl⟩
    | string n => exact ends_of_some fun _ => ⟨_, rfl⟩
    | object q => exact ends_warnAll _ _ _
  · cases (s.propertyName p).toList with
    | nil => exact ends_of_some fun _ => ⟨_, rfl⟩
    | cons c cs => exact ends_warnAll _ _ _

omit [DecidableEq P] [DecidableEq E] in
theorem quiet_checkParent (e : E) : Quiet (s.checkParent e) := by
  unfold checkParent
  refine (quiet_warnAll _ _ _ (by simp [loopMessage])).andThen ?_
  cases s.parent e with
  | null => exact quiet_return true
  | string n => exact quiet_return false
  | object q => exact quiet_warnAll _ _ _ (by simp [loopMessage])

omit [DecidableEq P] [DecidableEq E] in
theorem ends_checkParent (e : E) : Ends fun _ => s.checkParent e := by
  unfold checkParent
  refine (ends_warnAll _ _ _).andThen ?_
  cases s.parent e with
  | null => exact ends_of_some fun _ => ⟨_, rfl⟩
  | string n => exact ends_of_some fun _ => ⟨_, rfl⟩
  | object q => exact ends_warnAll _ _ _

theorem quiet_checkEntity (fuel : ℕ) (e : E) : Quiet (s.checkEntity fuel e) := by
  intro ws r h
  obtain ⟨all, hall, h⟩ := bind_eq_some_iff.1 h
  cases all with
  | none => exact quiet_return false h
  | some all =>
    have hacc := acc_of_allPropertyDescriptions hall
    refine (quiet_warnAll _ _ _ (by simp [loopMessage])).andThen (Quiet.andThen ?_ ?_) h
    · split_ifs
      · exact quiet_return true
      · exact quiet_checkParent e
    · intro ws r h
      obtain ⟨found, hfound, h⟩ := bind_eq_some_iff.1 h
      cases found with
      | none => exact quiet_return false h
      | some found =>
        have hself : ∀ x ∈ [e], ReflTransGen s.Parent x e := fun x hx => by
          rw [List.mem_singleton.1 hx]
        obtain rfl := findsLoop_of_acc hacc hself hfound
        exact quiet_each quiet_checkProperty (s.propertyDescriptions e) h

theorem ends_loopCheck (h : Acc (fun b a => s.Parent a b) e) :
    Ends fun fuel ws => (s.findsLoop fuel [e] (s.parent e)).bind fun
      | none => some (ws, false)
      | some found =>
        (warnAll (.inr e) (s.entityFullName e) [(found, loopMessage)] ws).andThen fun ws =>
          each s.checkProperty (s.propertyDescriptions e) ws := by
  obtain ⟨found, hfound⟩ := findsLoop_settles h [e]
  intro ws
  cases found with
  | none => exact ⟨_, hfound.bind (settles_some _)⟩
  | some found =>
    obtain ⟨r, hr⟩ := (ends_warnAll (.inr e) (s.entityFullName e) [(found, loopMessage)]).andThen
      (ends_each fun p _ => ends_checkProperty p) ws
    exact ⟨r, hfound.bind hr⟩

theorem ends_checkEntity (h : Acc (fun b a => s.Parent a b) e) :
    Ends fun fuel => s.checkEntity fuel e := by
  obtain ⟨all, hall⟩ := allPropertyDescriptions_settles h
  intro ws
  cases all with
  | none => exact ⟨_, hall.bind (settles_some _)⟩
  | some all =>
    have hparent : Ends fun _ ws => if s.entityName e = rootEntityDescriptionName
        then some (ws, true) else s.checkParent e ws := by
      split_ifs
      · exact ends_of_some fun _ => ⟨_, rfl⟩
      · exact ends_checkParent e
    obtain ⟨r, hr⟩ := (ends_warnAll _ _ _).andThen (hparent.andThen (ends_loopCheck h)) ws
    exact ⟨r, hall.bind hr⟩

end Checks

/-- A warning says that the parents of the entity description come back to where they were. -/
def Reports (ws : List (Warning P E)) (e : E) : Prop :=
  ∃ w ∈ ws, w.source = .inr e ∧ w.message = loopMessage

/-- The check ends, and reports the entity descriptions with such parents. -/
def ChecksLoops (s : ModelDescriptions P E G) : Prop :=
  ∃ r, Settles (fun fuel => s.checkConstraints fuel []) r ∧
    ∀ e, s.Listed e → (Reports r.1 e ↔ s.Cyclic e)

theorem not_reports {fuel : ℕ} {r : List (Warning P E) × Bool}
    (h : s.checkConstraints fuel [] = some r) : ¬ Reports r.1 e := by
  have hquiet : Quiet (s.checkConstraints fuel) :=
    quiet_each (fun g => quiet_each (quiet_checkEntity fuel) (s.entityDescriptions g)) _
  rintro ⟨w, hw, -, hmessage⟩
  have hmem : w ∈ loops r.1 := List.mem_filter.2 ⟨hw, decide_eq_true hmessage⟩
  rw [hquiet h] at hmem
  cases hmem

theorem not_checksLoops (hlisted : s.Listed e) (hcyclic : s.Cyclic e) : ¬ s.ChecksLoops := by
  rintro ⟨r, hr, hreports⟩
  obtain ⟨fuel, hfuel⟩ := hr.exists_eq
  exact not_reports hfuel ((hreports e hlisted).2 hcyclic)

/-- The check does what it is for exactly if there is nothing for it to report. -/
theorem checksLoops_iff [Fintype E] (s : ModelDescriptions P E G) :
    s.ChecksLoops ↔ ∀ e, s.Listed e → ¬ s.Cyclic e := by
  constructor
  · exact fun h e hlisted hcyclic => not_checksLoops hlisted hcyclic h
  · intro h
    have hends : Ends fun fuel => s.checkConstraints fuel := by
      refine ends_each fun g hg => ends_each fun e he => ends_checkEntity ?_
      exact acc_iff_not_cyclic.2 (h e ⟨g, hg, he⟩)
    obtain ⟨r, hr⟩ := hends []
    obtain ⟨fuel, hfuel⟩ := hr.exists_eq
    exact ⟨r, hr, fun e he => iff_of_false (not_reports hfuel) (h e he)⟩

def eachOther : ModelDescriptions Empty Bool Unit where
  propertyName := nofun
  entityName := fun e => if e then "Node" else "Group"
  parent := fun e => .object !e
  entityOwner := fun _ => .object ()
  packageName := fun _ => "Anonymous"
  entityDescriptions := fun _ => [true, false]
  packageDescriptions := [()]

theorem eachOther_not_checksLoops : ¬ ∀ s : ModelDescriptions Empty Bool Unit, s.ChecksLoops := by
  intro h
  have hlisted : eachOther.Listed true := ⟨(), List.mem_singleton_self (), List.mem_cons_self⟩
  exact not_checksLoops hlisted ⟨true, .refl, .tail (.single rfl) rfl⟩ (h eachOther)

end ModelDescriptions

end Etoile.EtoileFoundation
