import Etoile.CoreObject.History

/-!
# Record sessions

`RECORD` hands the invocation of a mutator to the object context, which keeps a stack of the objects
whose mutators are running: a record session begins with the first and records only that one.
`END_RECORD` pops the stack when `RECORD` has given the object a new version.

A call that joins a session finds itself on top of the stack, so it is never recorded and never
popped.  Whatever recorded mutators a mutator calls therefore stay on the stack after the outermost
call has returned, and no later call begins a session.
-/

namespace Etoile.CoreObject

open Function

variable {U Ctx : Type} [DecidableEq U] [DecidableEq Ctx]

/-- Mutators called one after the other: each on a target, refused before `RECORD` or not, with the
mutators it calls between `RECORD` and `END_RECORD`. -/
inductive Calls (U : Type)
  | done
  | call (target : U) (refused : Bool) (body : Calls U) (next : Calls U)

structure RecordState (U Ctx : Type) where
  objectContext : U → Option Ctx
  isPersistencyEnabled : U → Bool
  objectVersion : U → ℤ
  recordedObjectStack : Ctx → List U
  history : List (U × ℤ)

namespace RecordState

variable (s : RecordState U Ctx)

def setObjectVersion (o : U) (v : ℤ) : RecordState U Ctx :=
  { s with objectVersion := update s.objectVersion o v }

def logRecord (o : U) (v : ℤ) : RecordState U Ctx := { s with history := s.history ++ [(o, v)] }

def beginRecordObject (c : Ctx) (o : U) : RecordState U Ctx :=
  { s with
    recordedObjectStack :=
      update s.recordedObjectStack c (s.recordedObjectStack c ++ [o]) }

def endRecord (c : Ctx) : RecordState U Ctx :=
  { s with
    recordedObjectStack :=
      update s.recordedObjectStack c (s.recordedObjectStack c).dropLast }

def isRecording (c : Ctx) : Bool := (s.recordedObjectStack c).head?.isSome

def currentRecordedObject (c : Ctx) : Option U := (s.recordedObjectStack c).getLast?

/-- `-serializeInvocation:` with the rest of `-recordInvocation:`; an object without a version gets
its base version first. -/
def serializeInvocation (o : U) : RecordState U Ctx × ℤ :=
  let s := if s.objectVersion o = -1 then (s.setObjectVersion o 0).logRecord o 0 else s
  let version := s.objectVersion o + 1
  (s.logRecord o version, version)

/-- `-recordInvocation:` of the context `c`, with the version it returns; an object is registered in
the context it has. -/
def recordInvocation (c : Ctx) (o : U) : RecordState U Ctx × ℤ :=
  if s.isRecording c then
    let s := s.beginRecordObject c o
    if s.currentRecordedObject c = some o then (s, s.objectVersion o)
    else s.serializeInvocation o
  else (s.beginRecordObject c o).serializeInvocation o

/-- `RECORD`; a message to the context an object lacks returns `0`. -/
def record (o : U) : RecordState U Ctx :=
  if s.isPersistencyEnabled o then
    match s.objectContext o with
    | none => s.setObjectVersion o 0
    | some c =>
      let recorded := s.recordInvocation c o
      recorded.1.setObjectVersion o recorded.2
  else s

/-- `END_RECORD` -/
def finishRecord (prevObjectVersion : ℤ) (o : U) : RecordState U Ctx :=
  match s.objectContext o with
  | none => s
  | some c => if prevObjectVersion ≠ s.objectVersion o then s.endRecord c else s

def perform : Calls U → RecordState U Ctx → RecordState U Ctx
  | .done, s => s
  | .call target refused body next, s =>
    if refused then perform next s
    else
      let prevObjectVersion := s.objectVersion target
      let s := perform body (s.record target)
      perform next (s.finishRecord prevObjectVersion target)

variable {s}

def Recordable (s : RecordState U Ctx) (o : U) : Prop :=
  s.isPersistencyEnabled o ∧ (s.objectContext o).isSome

def Silent (s : RecordState U Ctx) : Calls U → Prop
  | .done => True
  | .call target refused body next =>
    (refused = false → ¬ Recordable s target ∧ Silent s body) ∧ Silent s next

structure SameSetup (s s' : RecordState U Ctx) : Prop where
  context : s'.objectContext = s.objectContext
  enabled : s'.isPersistencyEnabled = s.isPersistencyEnabled

omit [DecidableEq U] [DecidableEq Ctx] in
theorem SameSetup.trans {s s' s'' : RecordState U Ctx} (h : SameSetup s s')
    (h' : SameSetup s' s'') : SameSetup s s'' :=
  ⟨h'.context.trans h.context, h'.enabled.trans h.enabled⟩

omit [DecidableEq U] [DecidableEq Ctx] in
theorem SameSetup.silent {s s' : RecordState U Ctx} (h : SameSetup s s') :
    ∀ {cs : Calls U}, Silent s cs → Silent s' cs
  | .done, _ => trivial
  | .call target refused body next, hs => by
    refine ⟨fun hr => ⟨?_, h.silent (hs.1 hr).2⟩, h.silent hs.2⟩
    rw [Recordable, h.context, h.enabled]
    exact (hs.1 hr).1

omit [DecidableEq Ctx] in
theorem sameSetup_serializeInvocation (o : U) : SameSetup s (s.serializeInvocation o).1 := by
  unfold serializeInvocation
  split_ifs <;> exact ⟨rfl, rfl⟩

theorem sameSetup_record (o : U) : SameSetup s (s.record o) := by
  unfold record
  split_ifs
  · split
    · exact ⟨rfl, rfl⟩
    · rename_i c _
      have : SameSetup s (s.recordInvocation c o).1 := by
        unfold recordInvocation
        split_ifs
        · dsimp only
          split_ifs
          · exact ⟨rfl, rfl⟩
          · exact (⟨rfl, rfl⟩ : SameSetup s (s.beginRecordObject c o)).trans
              (sameSetup_serializeInvocation o)
        · exact (⟨rfl, rfl⟩ : SameSetup s (s.beginRecordObject c o)).trans
            (sameSetup_serializeInvocation o)
      exact this.trans ⟨rfl, rfl⟩
  · exact ⟨rfl, rfl⟩

@[simp] theorem perform_refused (o : U) (body next : Calls U) :
    perform (.call o true body next) s = perform next s := rfl

@[simp] theorem perform_call (o : U) (body next : Calls U) :
    perform (.call o false body next) s =
      perform next ((perform body (s.record o)).finishRecord (s.objectVersion o) o) := rfl

structure Unrecorded (s s' : RecordState U Ctx) : Prop extends SameSetup s s' where
  stack : s'.recordedObjectStack = s.recordedObjectStack
  history : s'.history = s.history
  version : ∀ o, s.objectContext o ≠ none → s'.objectVersion o = s.objectVersion o

omit [DecidableEq U] [DecidableEq Ctx] in
theorem Unrecorded.trans {s s' s'' : RecordState U Ctx} (h : Unrecorded s s')
    (h' : Unrecorded s' s'') : Unrecorded s s'' where
  toSameSetup := h.toSameSetup.trans h'.toSameSetup
  stack := h'.stack.trans h.stack
  history := h'.history.trans h.history
  version := fun o ho => (h'.version o (by rwa [h.context])).trans (h.version o ho)

omit [DecidableEq U] [DecidableEq Ctx] in
theorem Unrecorded.refl (s : RecordState U Ctx) : Unrecorded s s :=
  ⟨⟨rfl, rfl⟩, rfl, rfl, fun _ _ => rfl⟩

theorem record_of_not_recordable {o : U} (h : ¬ Recordable s o) : Unrecorded s (s.record o) := by
  unfold record
  split_ifs with he
  · cases hc : s.objectContext o with
    | none =>
      refine ⟨⟨rfl, rfl⟩, rfl, rfl, fun o' ho' => ?_⟩
      have hne : o' ≠ o := fun heq => ho' (heq ▸ hc)
      simp [setObjectVersion, hne]
    | some c => exact absurd ⟨he, by simp [hc]⟩ h
  · exact .refl s

omit [DecidableEq U] in
theorem finishRecord_of_version {v : ℤ} {o : U}
    (h : s.objectContext o ≠ none → s.objectVersion o = v) : s.finishRecord v o = s := by
  unfold finishRecord
  split
  · rfl
  · rename_i c hc
    rw [h (by simp [hc]), if_neg (by simp)]

theorem perform_silent : ∀ (cs : Calls U) (s : RecordState U Ctx), Silent s cs →
    Unrecorded s (perform cs s)
  | .done, s, _ => .refl s
  | .call _ true _ next, s, h => perform_silent next s h.2
  | .call target false body next, s, h => by
    obtain ⟨hnr, hbody⟩ := h.1 rfl
    have hrec := record_of_not_recordable hnr
    have hbody' := hrec.trans (perform_silent body _ (hrec.silent hbody))
    rw [perform_call, finishRecord_of_version fun ho => hbody'.version target
      (by rwa [← hbody'.context])]
    exact hbody'.trans (perform_silent next _ (hbody'.silent h.2))

theorem record_of_idle {o : U} {c : Ctx} (henabled : s.isPersistencyEnabled o)
    (hc : s.objectContext o = some c) (hidle : s.recordedObjectStack c = [])
    (hne : s.objectVersion o ≠ -1) :
    s.record o = ((s.beginRecordObject c o).logRecord o (s.objectVersion o + 1)).setObjectVersion o
      (s.objectVersion o + 1) := by
  have hver : (s.beginRecordObject c o).objectVersion o = s.objectVersion o := rfl
  simp [record, henabled, hc, recordInvocation, isRecording, hidle, serializeInvocation, hver, hne]

/-- An outermost call that is recorded once at most: what its mutator calls is not recordable, and
its object has a version if it is recordable. -/
def RecordedOnce (s : RecordState U Ctx) (o : U) (refused : Bool) (body : Calls U) : Prop :=
  refused = false → Silent s body ∧ (Recordable s o → 0 ≤ s.objectVersion o)

/-- The outermost call leaves the stacks empty, with one new version for a recordable object. -/
theorem perform_outermost {o : U} {refused : Bool} {body : Calls U}
    (hstack : ∀ c, s.recordedObjectStack c = []) (h : RecordedOnce s o refused body) :
    (∀ c, (perform (.call o refused body .done) s).recordedObjectStack c = []) ∧
      (refused = false → Recordable s o →
        (perform (.call o refused body .done) s).history =
          s.history ++ [(o, s.objectVersion o + 1)])
      ∧ (refused = true ∨ ¬ Recordable s o →
        (perform (.call o refused body .done) s).history = s.history) := by
  cases refused with
  | true => exact ⟨hstack, by simp, fun _ => rfl⟩
  | false =>
    obtain ⟨hsilent, hversion⟩ := h rfl
    rw [perform_call]
    by_cases hr : Recordable s o
    · obtain ⟨henabled, hctx⟩ := hr
      obtain ⟨c, hc⟩ := Option.isSome_iff_exists.1 hctx
      have hne : s.objectVersion o ≠ -1 := by
        have := hversion ⟨henabled, hctx⟩
        omega
      have hsilent' := (sameSetup_record o).silent hsilent
      have hrec := record_of_idle henabled hc (hstack c) hne
      have hstack₁ : (s.record o).recordedObjectStack =
          update s.recordedObjectStack c [o] := by
        simp [hrec, setObjectVersion, logRecord, beginRecordObject, hstack]
      have hversion₁ : (s.record o).objectVersion o = s.objectVersion o + 1 := by
        simp [hrec, setObjectVersion]
      have hhistory₁ : (s.record o).history = s.history ++ [(o, s.objectVersion o + 1)] := by
        simp [hrec, setObjectVersion, logRecord, beginRecordObject]
      have hctx₁ := (congrFun (sameSetup_record o).context o).trans hc
      have hbody := perform_silent body _ hsilent'
      -- the body has not touched the session, so `END_RECORD` sees the new version and pops `o`
      have hpop : s.objectVersion o ≠ (perform body (s.record o)).objectVersion o := by
        rw [hbody.version o (by rw [hctx₁]; nofun), hversion₁]
        omega
      have hfin : (perform body (s.record o)).finishRecord (s.objectVersion o) o =
          (perform body (s.record o)).endRecord c := by
        simp only [finishRecord, congrFun hbody.context o, hctx₁, if_pos hpop]
      rw [hfin]
      refine ⟨fun c' => ?_, fun _ _ => hbody.history.trans hhistory₁, fun h' => ?_⟩
      · by_cases hc' : c' = c
        · subst hc'
          simp [perform, endRecord, hbody.stack, hstack₁]
        · simp [perform, endRecord, hbody.stack, hstack₁, hc', hstack]
      · exact absurd ⟨henabled, hctx⟩ (h'.resolve_left (by simp))
    · have hrec := record_of_not_recordable hr
      have hbody := hrec.trans (perform_silent body _ (hrec.silent hsilent))
      rw [finishRecord_of_version fun ho => hbody.version o (by rwa [← hbody.context])]
      refine ⟨fun c => ?_, fun _ h' => absurd h' hr, fun _ => hbody.history⟩
      simpa [perform, hbody.stack] using hstack c

/-- Outermost calls one after the other, each recorded once at most, with anything in between that
leaves the record stacks alone. -/
inductive RecordRun (s₀ : RecordState U Ctx) : RecordState U Ctx → Prop
  | refl : RecordRun s₀ s₀
  | call {s : RecordState U Ctx} {o : U} {refused : Bool} {body : Calls U} : RecordRun s₀ s →
      RecordedOnce s o refused body → RecordRun s₀ (perform (.call o refused body .done) s)
  | other {s s' : RecordState U Ctx} : RecordRun s₀ s →
      s'.recordedObjectStack = s.recordedObjectStack → RecordRun s₀ s'

/-- After every outermost call the stacks are empty, the call has added one version to the history
of its object when this is recordable, and the calls made meanwhile have added none. -/
theorem record_balanced {s₀ : RecordState U Ctx} (h₀ : ∀ c, s₀.recordedObjectStack c = [])
    (h : RecordRun s₀ s) :
    (∀ c, s.recordedObjectStack c = []) ∧
      ∀ o refused body, RecordedOnce s o refused body →
        (∀ c, (perform (.call o refused body .done) s).recordedObjectStack c = []) ∧
        (refused = false → Recordable s o →
          (perform (.call o refused body .done) s).history =
            s.history ++ [(o, s.objectVersion o + 1)]) ∧
        (refused = true ∨ ¬ Recordable s o →
          (perform (.call o refused body .done) s).history = s.history) := by
  have hempty : ∀ c, s.recordedObjectStack c = [] := by
    induction h with
    | refl => exact h₀
    | call _ honce ih => exact (perform_outermost ih honce).1
    | other _ hstack ih => exact fun c => by rw [hstack, ih]
  exact ⟨hempty, fun o refused body honce => perform_outermost hempty honce⟩

end RecordState

/-- `-setValue:forProperty:` of an object that is not read-only. -/
def setValueForPropertyCalls (o : U) : Calls U := .call o false .done .done

/-- `-removeValueForProperty:` sets the modification date with `-setValue:forProperty:`. -/
def removeValueForPropertyCalls (o : U) : Calls U :=
  .call o false (setValueForPropertyCalls o) .done

/-- `-addMember:` and `-addGroup:`; `-_addAsParent:` sets the parents of a member that has none. -/
def addMemberCalls (group member : U) (isMember hasParents : Bool) : Calls U :=
  .call group isMember (if hasParents then .done else setValueForPropertyCalls member) .done

def twoObjects : RecordState Bool Unit where
  objectContext _ := some ()
  isPersistencyEnabled _ := true
  objectVersion _ := 0
  recordedObjectStack _ := []
  history := []

open RecordState in
/-- `-setValue:forProperty:` of one object and then `-addMember:` of the other. -/
theorem record_balanced_addMember :
    (∀ c, (perform (addMemberCalls false true false true)
      (perform (setValueForPropertyCalls true) twoObjects)).recordedObjectStack c = []) ∧
    (perform (addMemberCalls false true false true)
      (perform (setValueForPropertyCalls true) twoObjects)).history = [(true, 1), (false, 1)] := by
  have hset : RecordedOnce twoObjects true false .done := fun _ => ⟨trivial, fun _ => le_rfl⟩
  have hadd : RecordedOnce (perform (setValueForPropertyCalls true) twoObjects) false false .done :=
    fun _ => ⟨trivial, fun _ => by decide⟩
  have hrun := record_balanced (fun _ => rfl) (.call .refl hset)
  obtain ⟨hstack, hhistory, -⟩ := hrun.2 false false .done hadd
  exact ⟨hstack, hhistory rfl ⟨rfl, rfl⟩⟩

open RecordState in
/-- `-removeValueForProperty:` leaves its object on the stack, and the other object is not recorded
after it. -/
theorem record_removeValue_unbalanced :
    (∀ c, twoObjects.recordedObjectStack c = []) ∧
    (∀ o, Recordable twoObjects o ∧ 0 ≤ twoObjects.objectVersion o) ∧
    (perform (removeValueForPropertyCalls true) twoObjects).recordedObjectStack () = [true] ∧
    (perform (setValueForPropertyCalls false)
      (perform (removeValueForPropertyCalls true) twoObjects)).history = [(true, 1)] :=
  ⟨fun _ => rfl, fun _ => ⟨⟨rfl, rfl⟩, le_rfl⟩, by decide, by decide⟩

end Etoile.CoreObject
