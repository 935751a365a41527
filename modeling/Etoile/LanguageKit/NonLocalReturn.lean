import Etoile.LanguageKit.Interpreter

/-!
# Returns from blocks

A return ends the innermost method that runs, whoever its block belongs to; compiled code unwinds
to the method whose context the block was made in. The two agree as long as no other method has
been entered since, and along a run just as long as that holds at every return.
-/

namespace Etoile.LanguageKit

open List Option

def runningMethods : List Frame → List ℕ
  | [] => []
  | .methodBody _ c :: stack => c :: runningMethods stack
  | _ :: stack => runningMethods stack

/-- The rule of `__LanguageKitTestNonLocalReturn`: every method whose context is another one lets
the return pass. -/
def unwindTo (home : ℕ) : List Frame → Option (List Frame)
  | [] => none
  | .methodBody _ c :: stack => if c = home then some stack else unwindTo home stack
  | _ :: stack => unwindTo home stack

namespace State

/-- A return statement that has its value: its context, the value, and the stack below. -/
def returning (s : State) : Option (ℕ × Value × List Frame) :=
  match s.control, s.stack with
  | .value v, .ret c :: stack => some (c, v, stack)
  | _, _ => none

/-- A return whose home is running ends it with the value, and what ran above it is gone. -/
def ReturnsHome (s s' : State) : Prop :=
  ∀ c v stack rest, s.returning = some (c, v, stack) → unwindTo (s.home c) stack = some rest →
    s'.control = .value v ∧ s'.stack = rest

/-- At a return whose home is running, no other method has been entered since. -/
def HomeInnermost (s : State) : Prop :=
  ∀ c v stack, s.returning = some (c, v, stack) → s.home c ∈ runningMethods stack →
    (runningMethods stack).head? = some (s.home c)

def run (W : World) : List Choice → State → List State
  | [], s => [s]
  | choice :: choices, s =>
    match s.step W choice with
    | none => [s]
    | some s' => s :: run W choices s'

end State

theorem passes {frame : Frame} (h : runningMethods [frame] = []) (stack : List Frame) :
    State.catchReturn (frame :: stack) = State.catchReturn stack
      ∧ (∀ home, unwindTo home (frame :: stack) = unwindTo home stack)
      ∧ runningMethods (frame :: stack) = runningMethods stack := by
  cases frame <;> first | exact ⟨rfl, fun _ => rfl, rfl⟩ | exact nomatch h

theorem method_or_passes (frame : Frame) :
    (∃ statements c, frame = .methodBody statements c) ∨ runningMethods [frame] = [] := by
  cases frame <;> simp [runningMethods]

theorem unwindTo_length {home : ℕ} : ∀ {stack rest : List Frame},
    unwindTo home stack = some rest → rest.length < stack.length
  | frame :: stack, rest, h => by
    rw [length_cons]
    rcases method_or_passes frame with ⟨statements, c, rfl⟩ | hpass
    · unfold unwindTo at h
      split_ifs at h
      · obtain rfl := some.inj h
        omega
      · exact (unwindTo_length h).trans (Nat.lt_succ_self _)
    · rw [(passes hpass stack).2.1] at h
      exact (unwindTo_length h).trans (Nat.lt_succ_self _)

theorem unwindTo_isSome {home : ℕ} : ∀ stack : List Frame,
    (unwindTo home stack).isSome = true ↔ home ∈ runningMethods stack
  | [] => by simp [unwindTo, runningMethods]
  | frame :: stack => by
    rcases method_or_passes frame with ⟨statements, c, rfl⟩ | hpass
    · have ih := @unwindTo_isSome home stack
      simp only [unwindTo, runningMethods, mem_cons]
      split_ifs with hc
      · simp [hc]
      · rw [ih]
        simp [Ne.symm hc]
    · rw [(passes hpass stack).2.1, (passes hpass stack).2.2]
      exact unwindTo_isSome stack

/-- The innermost handler is the home's just when the innermost method is the home. -/
theorem catchReturn_eq_unwindTo {home : ℕ} : ∀ {stack rest : List Frame},
    unwindTo home stack = some rest →
    (State.catchReturn stack = some rest ↔ (runningMethods stack).head? = some home)
  | frame :: stack, rest, h => by
    rcases method_or_passes frame with ⟨statements, c, rfl⟩ | hpass
    · unfold unwindTo at h
      unfold State.catchReturn runningMethods
      rw [head?_cons, some.injEq, some.injEq]
      split_ifs at h with hc
      · exact iff_of_true (some.inj h) hc
      · have hlen := unwindTo_length h
        refine iff_of_false ?_ hc
        rintro rfl
        omega
    · obtain ⟨hcatch, hunwind, hrunning⟩ := passes hpass stack
      rw [hunwind] at h
      rw [hcatch, hrunning]
      exact catchReturn_eq_unwindTo h

namespace State

theorem step_returning {s : State} {W : World} {choice : Choice} {c : ℕ} {v : Value}
    {stack : List Frame} (h : s.returning = some (c, v, stack)) :
    s.step W choice = (catchReturn stack).map fun stack' => s.yields v stack' := by
  unfold returning at h
  split at h
  · rename_i v' c' stack' hcontrol hstack
    obtain ⟨rfl, rfl, rfl⟩ : c' = c ∧ v' = v ∧ stack' = stack := by simpa using h
    unfold step
    rw [hcontrol, hstack]
    rfl
  · exact nomatch h

theorem step_returnsHome {s s' : State} {W : World} {choice : Choice}
    (h : s.step W choice = some s') : s.ReturnsHome s' ↔ s.HomeInnermost := by
  constructor
  · intro hret c v stack hs hmem
    obtain ⟨rest, hrest⟩ := isSome_iff_exists.mp ((unwindTo_isSome stack).mpr hmem)
    rw [step_returning hs] at h
    obtain ⟨stack', hcatch, rfl⟩ := map_eq_some_iff.mp h
    obtain ⟨-, hstack⟩ := hret c v stack rest hs hrest
    obtain rfl : stack' = rest := hstack
    exact (catchReturn_eq_unwindTo hrest).mp hcatch
  · intro hinner c v stack rest hs hrest
    have hmem := (unwindTo_isSome stack).mp (isSome_iff_exists.mpr ⟨rest, hrest⟩)
    rw [step_returning hs, (catchReturn_eq_unwindTo hrest).mpr (hinner c v stack hs hmem)] at h
    obtain rfl := some.inj h
    exact ⟨rfl, rfl⟩

/-- Every return of a run ends its home just when every return of the run is raised with its home
as the innermost method. -/
theorem run_returnsHome (W : World) : ∀ (choices : List Choice) (s : State),
    IsChain ReturnsHome (run W choices s)
      ↔ ∀ t ∈ (run W choices s).dropLast, t.HomeInnermost
  | [], s => by simp [run]
  | choice :: choices, s => by
    unfold run
    cases h : s.step W choice with
    | none => simp
    | some s' =>
      have ih := run_returnsHome W choices s'
      have hhead : (run W choices s').head? = some s' := by
        cases choices with
        | nil => rfl
        | cons choice' choices =>
          unfold run
          split <;> rfl
      cases hrun : run W choices s' with
      | nil => rw [hrun] at hhead; exact nomatch hhead
      | cons t states =>
        obtain rfl : t = s' := by simpa [hrun] using hhead
        rw [hrun] at ih
        show IsChain ReturnsHome (s :: run W choices t)
          ↔ ∀ u ∈ (s :: run W choices t).dropLast, u.HomeInnermost
        rw [hrun]
        simp only [isChain_cons_cons, dropLast_cons_cons, forall_mem_cons, ih,
          step_returnsHome h]

end State

/-- In every run, every return ends its home just when at every return the home, if it runs, is
the innermost method. -/
theorem returns_home (W : World) (choices : List Choice) :
    IsChain State.ReturnsHome (State.run W choices State.start)
      ↔ ∀ t ∈ (State.run W choices State.start).dropLast, t.HomeInnermost :=
  State.run_returnsHome W choices State.start

/-- `find [ self apply: [ ^ 1 ]. ^ 3 ]` and `apply: aBlock [ aBlock value. ^ 2 ]`. -/
def findMethod : MethodDef where
  method := ⟨"find", [], [], [.messageSend (.declRef "self") "apply:"
    [.blockExpr [] [] [.ret (.numberLiteral "1")]], .ret (.numberLiteral "3")]⟩
  classes := [⟨"Finder", [], [], []⟩]

def applyMethod : MethodDef where
  method := ⟨"apply:", ["aBlock"], [], [.messageSend (.declRef "aBlock") "value" [],
    .ret (.numberLiteral "2")]⟩
  classes := [⟨"Finder", [], [], []⟩]

def finderWorld : World where
  literal _ := .object 1
  array _ := .object 2
  number _ := .object 3
  classNamed _ := .object 4
  boolValue v := v ≠ .nil
  isClass _ := false
  method _ receiver selector :=
    if receiver = .object 0 ∧ selector = "find" then some findMethod
    else if receiver = .object 0 ∧ selector = "apply:" then some applyMethod
    else none

def findChoices : List Choice := .sends (.object 0) "find" [] :: replicate 15 (.calls 0 [])

/-- The return of the block in `find` is raised while `apply:` runs, and ends `apply:`. -/
theorem find_not_returned :
    ¬IsChain State.ReturnsHome (State.run finderWorld findChoices State.start) := by
  intro h
  have hall := (State.run_returnsHome finderWorld findChoices State.start).mp h
  have hrun : ((State.run finderWorld findChoices State.start).dropLast[15]?.bind fun t =>
      t.returning.map fun p => (t.home p.1, runningMethods p.2.2)) = some (0, [1, 0]) := by
    decide
  obtain ⟨t, ht, hret⟩ := bind_eq_some_iff.mp hrun
  obtain ⟨⟨c, v, stack⟩, hret, heq⟩ := map_eq_some_iff.mp hret
  obtain ⟨hhome, hrunning⟩ : t.home c = 0 ∧ runningMethods stack = [1, 0] := by simpa using heq
  have hinner := hall t (mem_of_getElem? ht) c v stack hret (by rw [hhome, hrunning]; simp)
  rw [hhome, hrunning] at hinner
  exact absurd hinner (by decide)

end Etoile.LanguageKit
