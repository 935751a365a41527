import Etoile.LanguageKit.Generator

/-!
# Steps of the code generator

What each request to the builder does to the blocks: from an open block it goes on in an open
block, leaves every other block alone, and ends what it makes. Without a block it loses an
instruction, and a lost instruction stays lost.
-/

namespace Etoile.LanguageKit

open BlockCode Option

variable {α β : Type} {g g' g₁ : Generator} {m : Gen α} {f : α → Gen β}

theorem Gen.bind_eq_some {r : β × Generator} :
    (m >>= f) g = some r ↔ ∃ a g₁, m g = some (a, g₁) ∧ f a g₁ = some r := by
  change ((m g).bind fun p => f p.1 p.2) = some r ↔ _
  rw [bind_eq_some_iff]
  constructor
  · rintro ⟨⟨a, g₁⟩, h₁, h₂⟩
    exact ⟨a, g₁, h₁, h₂⟩
  · rintro ⟨a, g₁, h₁, h₂⟩
    exact ⟨(a, g₁), h₁, h₂⟩

theorem Gen.pure_eq_some {a v : α} : (pure a : Gen α) g = some (v, g') ↔ v = a ∧ g' = g := by
  change some (a, g) = some (v, g') ↔ _
  rw [some.injEq, Prod.mk.injEq]
  exact ⟨fun h => ⟨h.1.symm, h.2.symm⟩, fun h => ⟨h.1.symm, h.2.symm⟩⟩

theorem required_eq_some {v : Option α} {a : α} :
    required v g = some (a, g') ↔ v = some a ∧ g' = g := by
  unfold required
  rw [map_eq_some_iff]
  constructor
  · rintro ⟨x, hx, h⟩
    cases h
    exact ⟨hx, rfl⟩
  · rintro ⟨h, rfl⟩
    exact ⟨a, h, rfl⟩

def LexicalScope.fixed (s : LexicalScope) : LexicalScope :=
  { s with insertPoint := none, containsBlocks := false }

/-- What generation keeps: the scopes, and that an instruction was lost. -/
structure Kept (g g' : Generator) : Prop where
  scope : g'.scope.fixed = g.scope.fixed
  enclosing : g'.enclosing = g.enclosing
  lost : g.code.detached ≠ [] → g'.code.detached ≠ []

namespace Kept

theorem trans (h₁ : Kept g g₁) (h₂ : Kept g₁ g') : Kept g g' :=
  ⟨h₂.scope.trans h₁.scope, h₂.enclosing.trans h₁.enclosing, h₂.lost ∘ h₁.lost⟩

theorem isBlock (h : Kept g g') : g'.scope.isBlock = g.scope.isBlock := by
  change g'.scope.fixed.isBlock = g.scope.fixed.isBlock
  rw [h.scope]

theorem cleanupEnd (h : Kept g g') : g'.scope.CleanupEndBB = g.scope.CleanupEndBB := by
  change g'.scope.fixed.CleanupEndBB = g.scope.fixed.CleanupEndBB
  rw [h.scope]

end Kept

def Keeps (m : Gen α) : Prop := ∀ ⦃g v g'⦄, m g = some (v, g') → Kept g g'

/-- A builder's operation: it goes on from an open block in an open block, and without a block it
does nothing or loses an instruction. -/
structure Straight (f : Builder → Builder) : Prop where
  lost : ∀ b : Builder, b.2.detached ≠ [] → (f b).2.detached ≠ []
  dead : ∀ code, f (none, code) = (none, code) ∨ (f (none, code)).2.detached ≠ []
  advances : ∀ {c code}, code.Open c →
    ∃ c', (f (some c, code)).1 = some c' ∧
      Extends True {c} (some c') code (f (some c, code)).2

def Loud (f : Builder → Builder) : Prop := ∀ code, (f (none, code)).2.detached ≠ []

namespace Straight

variable {f f' : Builder → Builder}

theorem id : Straight fun b => b where
  lost _ := fun h => h
  dead _ := .inl rfl
  advances {c _} h := ⟨c, rfl, .refl h⟩

theorem comp (hf : Straight f) (hf' : Straight f') : Straight fun b => f' (f b) where
  lost b h := hf'.lost _ (hf.lost b h)
  dead code := by
    rcases hf.dead code with h | h
    · rw [h]
      exact hf'.dead code
    · exact .inr (hf'.lost _ h)
  advances {c code} h := by
    obtain ⟨c₁, hc₁, h₁⟩ := hf.advances h
    obtain ⟨c₂, hc₂, h₂⟩ := hf'.advances (h₁.current c₁ rfl).1
    have hpair : f (some c, code) = (some c₁, (f (some c, code)).2) := Prod.ext hc₁ rfl
    refine ⟨c₂, ?_, ?_⟩
    · rw [hpair]
      exact hc₂
    · rw [hpair]
      exact (h₁.trans h₂).congr (by simp)

theorem emit_code : Straight (Builder.emit .code) where
  lost b h := by
    rcases b with ⟨_ | b, code⟩
    · simp [Builder.emit]
    · exact h
  dead code := .inr (by simp [Builder.emit])
  advances {c _} h := ⟨c, rfl, .code h rfl⟩

theorem ite {p : Prop} [Decidable p] (hf : Straight f) (hf' : Straight f') :
    Straight fun b => if p then f b else f' b := by
  by_cases h : p <;> simpa only [h, if_true, if_false]

theorem emitUnlessConstant (v : CodeValue) : Straight (Builder.emitUnlessConstant v) :=
  ite id emit_code

theorem createInvoke (unwind : BlockId) : Straight (Builder.createInvoke unwind) where
  lost b h := by
    rcases b with ⟨_ | b, code⟩
    · simp [Builder.createInvoke]
    · exact h
  dead code := .inr (by simp [Builder.createInvoke])
  advances {c code} h := by
    have hopen : code.create.Open c := Adds.create.still_open h
    have hstop := Extends.stop (i := .invoke code.count unwind) hopen rfl
    refine ⟨code.count, rfl, ?_⟩
    refine (hstop.keep Adds.create.open_new ?_).absorb_create ?_
    · exact fun hc => absurd (Set.mem_singleton_iff.1 hc) h.1.ne'
    · exact fun b hb => Set.mem_singleton_iff.1 hb ▸ h.1

theorem messageSendId (unwind : BlockId) : Straight (Builder.messageSendId unwind) :=
  emit_code.comp (createInvoke unwind)

variable {code : BlockCode Instruction}

theorem stop (hf : Straight f) {i : Instruction} (hi : Terminating.isTerminator i) {c : BlockId} (h : code.Open c) :
    Extends True {c} none code ((f (some c, code)).2.emit (f (some c, code)).1 i) := by
  obtain ⟨c', hc', h'⟩ := hf.advances h
  rw [hc']
  exact (h'.trans (Extends.stop (h'.current c' rfl).1 hi)).congr (by simp)

theorem sendPaths {small object : Builder → Builder} (hsmall : Straight small)
    (hobject : Straight object) (resultIsVoid : Bool) {s r n : BlockId} (hs : code.Open s) (hr : code.Open r) (hn : code.Open n)
    (hsr : s ≠ r) (hns : n ≠ s) (hnr : n ≠ r) :
    (Builder.sendPaths small object resultIsVoid s r n code).1 = some n ∧
      Extends True {s, r, n} (some n) code
        (Builder.sendPaths small object resultIsVoid s r n code).2 := by
  have h₁ := hsmall.stop (i := .br n) rfl hs
  set code₁ := (small (some s, code)).2.emit (small (some s, code)).1 (.br n) with hcode₁
  have hr₁ : code₁.Open r := h₁.still_open hr (by simpa using hsr.symm)
  have h₂ := hobject.stop (i := .br n) rfl hr₁
  set code₂ := (object (some r, code₁)).2.emit (object (some r, code₁)).1 (.br n) with hcode₂
  have hboth : Extends True ({s} ∪ {r}) none code code₂ :=
    (h₁.par h₂ (by simpa using hr.1) (by simpa using hsr)).congr (by simp)
  have hkept := hboth.keep hn (by simp [hns, hnr])
  have hset : insert n ({s} ∪ {r}) = ({s, r, n} : Set ℕ) := by
    ext b
    simp only [Set.mem_insert_iff, Set.mem_union, Set.mem_singleton_iff]
    tauto
  have hresult : Builder.sendPaths small object resultIsVoid s r n code
      = if resultIsVoid then (some n, code₂) else Builder.emit .code (some n, code₂) := rfl
  rw [hresult]
  by_cases hv : resultIsVoid
  · simp only [hv, if_true]
    exact ⟨trivial, hkept.of_eq hset⟩
  · simp only [hv, Bool.false_eq_true, if_false]
    have hcode := Extends.code (i := .code) (hkept.current n rfl).1 rfl
    exact ⟨rfl, ((hkept.trans hcode).congr (by simp)).of_eq hset⟩

theorem sendPaths_lost {small object : Builder → Builder} (hsmall : Straight small)
    (hobject : Straight object) (resultIsVoid : Bool) {s r n : BlockId} (h : code.detached ≠ []) :
    (Builder.sendPaths small object resultIsVoid s r n code).2.detached ≠ [] := by
  have h₁ : (((small (some s, code)).2.emit (small (some s, code)).1 (.br n))).detached ≠ [] :=
    emit_lost (hsmall.lost (some s, code) h)
  have h₂ := hobject.lost (some r, _) h₁
  unfold Builder.sendPaths
  split_ifs
  · exact emit_lost h₂
  · exact emit_code.lost _ (emit_lost h₂)

section MessageSend

variable {unboxArgs : Builder → Builder} (hunbox : Straight unboxArgs)
  (hasSmallIntFunction resultIsVoid : Bool) (ExceptionBB : BlockId) (receiver : CodeValue)

include hunbox

theorem smallIntPath : Straight fun b : Builder =>
    if hasSmallIntFunction then b.createInvoke ExceptionBB
    else (unboxArgs (b.emit .code)).messageSendId ExceptionBB :=
  ite (createInvoke _) ((emit_code.comp hunbox).comp (messageSendId _))

theorem realObjectPath : Straight fun b : Builder => (unboxArgs b).messageSendId ExceptionBB :=
  hunbox.comp (messageSendId _)

theorem messageSend_loses (code : BlockCode Instruction) :
    (Builder.messageSend hasSmallIntFunction resultIsVoid ExceptionBB receiver unboxArgs
      (none, code)).2.detached ≠ [] := by
  refine sendPaths_lost (hunbox.smallIntPath _ _) (hunbox.realObjectPath _) _ ?_
  rcases (emitUnlessConstant receiver).dead code with h | h
  · rw [h]
    simp
  · exact emit_lost h

theorem messageSend : Straight (Builder.messageSend hasSmallIntFunction resultIsVoid ExceptionBB
    receiver unboxArgs) := by
  have hsmall := hunbox.smallIntPath hasSmallIntFunction ExceptionBB
  have hobject := hunbox.realObjectPath ExceptionBB
  have hfirst := emitUnlessConstant receiver
  constructor
  · intro b hb
    exact sendPaths_lost hsmall hobject _ (emit_lost (hfirst.lost b hb))
  · exact fun code => .inr (hunbox.messageSend_loses _ _ _ _ code)
  · intro c code hc
    obtain ⟨c₁, hc₁, h₁⟩ := hfirst.advances hc
    have hopen := (h₁.current c₁ rfl).1
    unfold Builder.messageSend
    simp only [hc₁]
    set k := (Builder.emitUnlessConstant receiver (some c, code)).2
    have hopen₁ : k.create.create.Open c₁ := Adds.create.still_open (Adds.create.still_open hopen)
    have hstop := Extends.stop (i := .condBr k.count (k.count + 1)) hopen₁ rfl
    set k₁ := k.create.create.emit (some c₁) (.condBr k.count (k.count + 1))
    have hnew : ∀ b, b = k.count ∨ b = k.count + 1 → k₁.create.Open b := by
      intro b hb
      have hb' : b ≠ c₁ := by
        have := hopen.1
        omega
      have hb₂ : k.create.create.Open b := by
        rcases hb with rfl | rfl
        · exact Adds.create.still_open Adds.create.open_new
        · exact Adds.create.open_new
      refine Adds.create.still_open ⟨hb₂.1, ?_⟩
      rw [emit_blocks_of_ne hb']
      exact hb₂.2
    have hk₁ : k₁.count = k.count + 2 := rfl
    have hsr : k.count ≠ k.count + 1 := by omega
    have hns : k₁.count ≠ k.count := by omega
    have hnr : k₁.count ≠ k.count + 1 := by omega
    obtain ⟨hn, hpaths⟩ := sendPaths hsmall hobject resultIsVoid (hnew _ (.inl rfl))
      (hnew _ (.inr rfl)) Adds.create.open_new hsr hns hnr
    refine ⟨k₁.count, hn, ?_⟩
    have hmeet := (hpaths.of_eq (T := {k₁.count, k.count, k.count + 1})
      (by
        ext b
        simp only [Set.mem_insert_iff, Set.mem_singleton_iff]
        tauto)).absorb_create
      (by
        intro b hb
        simp only [Set.mem_insert_iff, Set.mem_singleton_iff] at hb
        omega)
    have hall := hstop.par hmeet
      (by
        intro b hb
        simp only [Set.mem_insert_iff, Set.mem_singleton_iff] at hb
        change b < k.count + 2
        omega)
      (by
        rw [Set.disjoint_singleton_left, Set.mem_insert_iff, Set.mem_singleton_iff]
        have := hopen.1
        omega)
    have hinner := (hall.of_eq (T := {k.create.count, k.count, c₁})
      (by
        ext b
        simp only [Set.mem_insert_iff, Set.mem_union, Set.mem_singleton_iff, create_count]
        tauto)).absorb_create
      (by
        intro b hb
        simp only [Set.mem_insert_iff, Set.mem_singleton_iff] at hb
        have := hopen.1
        rw [create_count]
        omega)
    have hafter := hinner.absorb_create fun b hb => Set.mem_singleton_iff.1 hb ▸ hopen.1
    exact (h₁.trans hafter).congr (by simp)

end MessageSend

theorem unbox (t : Target) (ExceptionBB : BlockId) (val : CodeValue) :
    ∀ encoding, Straight (Builder.unbox t ExceptionBB val encoding)
  | .lkObject | .void => id
  | .object => emit_code
  | .primitive castSelName =>
    id.messageSend (t.hasSmallIntFunction castSelName) false ExceptionBB val

theorem unboxArgs (t : Target) (ExceptionBB : BlockId) (selTypes : Option MethodTypes) :
    ∀ i argv, Straight (Builder.unboxArgs t ExceptionBB selTypes i argv)
  | _, [] => id
  | i, val :: argv =>
    (unbox t ExceptionBB val _).comp (unboxArgs t ExceptionBB selTypes (i + 1) argv)

theorem boxValue (selTypes : Option MethodTypes) : Straight (Builder.boxValue selTypes) := by
  unfold Builder.boxValue
  split
  · exact emit_code
  · exact id

end Straight

namespace Loud

variable {f f' : Builder → Builder}

theorem emit (i : Instruction) : Loud (Builder.emit i) := fun code => by
  simp [Builder.emit]

theorem before (hf : Loud f) (hf' : Straight f') : Loud fun b => f' (f b) := fun code =>
  hf'.lost _ (hf code)

theorem after (hf : Straight f) (hf' : Straight f') (hloud : Loud f') : Loud fun b => f' (f b) := by
  intro code
  rcases hf.dead code with h | h
  · simp only [h]
    exact hloud code
  · exact hf'.lost _ h

theorem messageSendId (unwind : BlockId) : Loud (Builder.messageSendId unwind) :=
  (emit .code).before (.createInvoke unwind)

end Loud

theorem skeleton_ended (entry : BlockId) (returnType : Encoding) :
    (∀ l ∈ (skeleton entry returnType).1, Ended l)
      ∧ (∀ i ∈ (skeleton entry returnType).2.1, Terminating.isTerminator i = false)
      ∧ ∀ l ∈ (skeleton entry returnType).2.2, Ended l := by
  cases returnType <;>
    simp [skeleton, returnBlocks, handlerBlocks, Encoding.isVoid, Ended, Terminating.isTerminator]

/-- A new function has two open blocks: its entry, and the end of its cleanup. -/
theorem initialiseScope_adds (isBlock : Bool) (returnType : Encoding)
    (code : BlockCode Instruction) :
    Adds {code.count, (initialiseScope isBlock returnType code).1.CleanupEndBB} code
        (initialiseScope isBlock returnType code).2
      ∧ code.count ≠ (initialiseScope isBlock returnType code).1.CleanupEndBB := by
  obtain ⟨h₁, h₂, h₃⟩ := skeleton_ended code.count returnType
  have hentry : Adds {code.count} code (code.add [.code]) :=
    .add_open (by simp [Terminating.isTerminator])
  have hstarted : Adds ∅ (code.add [.code]) _ := .add_all_ended h₁
  have hend := Adds.add_open (k := (skeleton code.count returnType).1.foldl .add (code.add [.code]))
    h₂
  constructor
  · have h := ((hentry.trans hstarted).trans hend).trans (.add_all_ended h₃)
    simp only [Set.union_empty] at h
    exact h
  · exact (Nat.lt_of_lt_of_le (Nat.lt_succ_self _) hstarted.grows).ne

def Quiet (m : Gen α) : Prop := ∀ ⦃g v g'⦄, m g = some (v, g') →
  g'.code = g.code ∧ g'.scope = g.scope ∧ g'.enclosing = g.enclosing

/-- From an open block the request goes on in an open block; what it makes is ended if and only
if `P`. -/
def Advances (inBlock : Bool) (P : Prop) (m : Gen α) : Prop := ∀ ⦃g v g' c⦄, m g = some (v, g') →
  g.scope.isBlock = inBlock → g.scope.insertPoint = some c → g.code.Open c →
    ∃ c', g'.scope.insertPoint = some c' ∧ Extends P {c} (some c') g.code g'.code

def Loses (m : Gen α) : Prop := ∀ ⦃g v g'⦄, m g = some (v, g') → g.scope.insertPoint = none →
  g'.code.detached ≠ []

theorem Quiet.pure (a : α) : Quiet (pure a) := by
  intro g v g' h
  obtain ⟨-, rfl⟩ := Gen.pure_eq_some.1 h
  exact ⟨rfl, rfl, rfl⟩

theorem Quiet.bind (hm : Quiet m) (hf : ∀ a, Quiet (f a)) : Quiet (m >>= f) := by
  intro g v g' h
  obtain ⟨a, g₁, h₁, h₂⟩ := Gen.bind_eq_some.1 h
  obtain ⟨hc, hs, he⟩ := hm h₁
  obtain ⟨hc', hs', he'⟩ := hf a h₂
  exact ⟨hc'.trans hc, hs'.trans hs, he'.trans he⟩

theorem Quiet.required (v : Option α) : Quiet (required v) := by
  intro g a g' h
  obtain ⟨-, rfl⟩ := required_eq_some.1 h
  exact ⟨rfl, rfl, rfl⟩

theorem Quiet.currentScope : Quiet currentScope := by
  intro g v g' h
  obtain ⟨-, rfl⟩ := Prod.mk.inj (some.inj h)
  exact ⟨rfl, rfl, rfl⟩

theorem Quiet.keeps (h : Quiet m) : Keeps m := by
  intro g v g' hm
  obtain ⟨hc, hs, he⟩ := h hm
  exact ⟨by rw [hs], he, by rw [hc]; exact id⟩

theorem Quiet.advances (h : Quiet m) (inBlock : Bool) : Advances inBlock True m := by
  intro g v g' c hm _ hp ho
  obtain ⟨hc, hs, -⟩ := h hm
  refine ⟨c, by rw [hs, hp], ?_⟩
  rw [hc]
  exact .refl ho

theorem Keeps.bind (hm : Keeps m) (hf : ∀ a, Keeps (f a)) : Keeps (m >>= f) := by
  intro g v g' h
  obtain ⟨a, g₁, h₁, h₂⟩ := Gen.bind_eq_some.1 h
  exact (hm h₁).trans (hf a h₂)

theorem Advances.bind {P Q : Prop} {inBlock : Bool} (hm : Advances inBlock P m) (hk : Keeps m)
    (hf : ∀ a, Advances inBlock Q (f a)) : Advances inBlock (P ∧ Q) (m >>= f) := by
  intro g v g' c h hb hp ho
  obtain ⟨a, g₁, h₁, h₂⟩ := Gen.bind_eq_some.1 h
  obtain ⟨c₁, hp₁, he₁⟩ := hm h₁ hb hp ho
  obtain ⟨c₂, hp₂, he₂⟩ := hf a h₂ ((hk h₁).isBlock.trans hb) hp₁ (he₁.current c₁ rfl).1
  exact ⟨c₂, hp₂, he₁.trans he₂⟩

theorem Advances.congr {P Q : Prop} {inBlock : Bool} (hm : Advances inBlock P m) (h : P ↔ Q) :
    Advances inBlock Q m := by
  intro g v g' c hm' hb hp ho
  obtain ⟨c', hp', he⟩ := hm hm' hb hp ho
  exact ⟨c', hp', he.congr h⟩

theorem Loses.before (hm : Loses m) (hf : ∀ a, Keeps (f a)) : Loses (m >>= f) := by
  intro g v g' h hp
  obtain ⟨a, g₁, h₁, h₂⟩ := Gen.bind_eq_some.1 h
  exact (hf a h₂).lost (hm h₁ hp)

theorem Loses.after (hm : Quiet m) (hf : ∀ a, Loses (f a)) : Loses (m >>= f) := by
  intro g v g' h hp
  obtain ⟨a, g₁, h₁, h₂⟩ := Gen.bind_eq_some.1 h
  exact hf a h₂ (by rw [(hm h₁).2.1, hp])

/-- Without a block the request does nothing, or loses an instruction. -/
def Idle (m : Gen α) : Prop := ∀ ⦃g v g'⦄, m g = some (v, g') → g.scope.insertPoint = none →
  g' = g ∨ g'.code.detached ≠ []

def AlwaysLoses (m : Gen α) : Prop := ∀ ⦃g v g'⦄, m g = some (v, g') → g'.code.detached ≠ []

theorem Loses.idle (h : Loses m) : Idle m := fun _ _ _ hm hp => .inr (h hm hp)

theorem Loses.bind (hm : Idle m) (hf : ∀ a, Loses (f a)) (hk : ∀ a, Keeps (f a)) :
    Loses (m >>= f) := by
  intro g v g' h hp
  obtain ⟨a, g₁, h₁, h₂⟩ := Gen.bind_eq_some.1 h
  rcases hm h₁ hp with rfl | hlost
  · exact hf a h₂ hp
  · exact (hk a h₂).lost hlost

theorem Idle.pure (a : α) : Idle (pure a) := fun _ _ _ h _ => .inl (Gen.pure_eq_some.1 h).2

theorem Idle.bind (hm : Idle m) (hf : ∀ a, Idle (f a)) (hk : ∀ a, Keeps (f a)) :
    Idle (m >>= f) := by
  intro g v g' h hp
  obtain ⟨a, g₁, h₁, h₂⟩ := Gen.bind_eq_some.1 h
  rcases hm h₁ hp with rfl | hlost
  · exact hf a h₂ hp
  · exact .inr ((hk a h₂).lost hlost)

theorem AlwaysLoses.after (hf : ∀ a, AlwaysLoses (f a)) : AlwaysLoses (m >>= f) := by
  intro g v g' h
  obtain ⟨a, g₁, h₁, h₂⟩ := Gen.bind_eq_some.1 h
  exact hf a h₂

/-- A request that goes on in an open block and makes none that it does not end. -/
structure Plain (m : Gen α) : Prop where
  keeps : Keeps m
  advances : ∀ inBlock, Advances inBlock True m

namespace Plain

theorem quiet (h : Quiet m) : Plain m := ⟨h.keeps, h.advances⟩

theorem pure (a : α) : Plain (pure a) := quiet (.pure a)

theorem required (v : Option α) : Plain (required v) := quiet (.required v)

theorem currentScope : Plain currentScope := quiet .currentScope

theorem bind (hm : Plain m) (hf : ∀ a, Plain (f a)) : Plain (m >>= f) where
  keeps := hm.keeps.bind fun a => (hf a).keeps
  advances b := ((hm.advances b).bind hm.keeps fun a => (hf a).advances b).congr (by simp)

theorem build {f : Builder → Builder} (hf : Straight f) : Plain (build f) where
  keeps g v g' h := by
    obtain ⟨-, rfl⟩ := Prod.mk.inj (some.inj h)
    exact ⟨rfl, rfl, hf.lost (g.scope.insertPoint, g.code)⟩
  advances b g v g' c h _ hp ho := by
    obtain ⟨-, rfl⟩ := Prod.mk.inj (some.inj h)
    obtain ⟨c', hc', he⟩ := hf.advances ho
    simp only [hp]
    exact ⟨c', hc', he⟩

end Plain

theorem Loses.build {f : Builder → Builder} (hf : Loud f) : Loses (build f) := by
  intro g v g' h hp
  obtain ⟨-, rfl⟩ := Prod.mk.inj (some.inj h)
  simp only [hp]
  exact hf g.code

/-- From an open block the request ends the block; what it makes is ended if and only if `P`. -/
def Stops (inBlock : Bool) (P : Prop) (m : Gen α) : Prop := ∀ ⦃g v g' c⦄, m g = some (v, g') →
  g.scope.isBlock = inBlock → g.scope.insertPoint = some c → g.code.Open c →
    Extends P {c} none g.code g'.code

def CodeFixed (m : Gen α) : Prop := ∀ ⦃g v g'⦄, m g = some (v, g') → g'.code = g.code

section Stops

variable {inBlock : Bool} {P Q : Prop}

theorem Stops.build {f : Builder → Builder} (hf : Straight f) {i : Instruction}
    (hi : Terminating.isTerminator i) : Stops inBlock True (build fun b => (f b).emit i) := by
  intro g v g' c h _ hp ho
  obtain ⟨-, rfl⟩ := Prod.mk.inj (some.inj h)
  simp only [hp]
  exact hf.stop hi ho

theorem Stops.congr (hm : Stops inBlock P m) (h : P ↔ Q) : Stops inBlock Q m :=
  fun _ _ _ _ hm' hb hp ho => (hm hm' hb hp ho).congr h

theorem Advances.stops (hm : Advances inBlock P m) (hk : Keeps m)
    (hf : ∀ a, Stops inBlock Q (f a)) : Stops inBlock (P ∧ Q) (m >>= f) := by
  intro g v g' c h hb hp ho
  obtain ⟨a, g₁, h₁, h₂⟩ := Gen.bind_eq_some.1 h
  obtain ⟨c₁, hp₁, he₁⟩ := hm h₁ hb hp ho
  exact he₁.trans (hf a h₂ ((hk h₁).isBlock.trans hb) hp₁ (he₁.current c₁ rfl).1)

theorem Stops.after (hm : Plain m) (hf : ∀ a, Stops inBlock P (f a)) : Stops inBlock P (m >>= f) :=
  ((hm.advances inBlock).stops hm.keeps hf).congr (by simp)

theorem Stops.before (hm : Stops inBlock P m) (hf : ∀ a, CodeFixed (f a)) :
    Stops inBlock P (m >>= f) := by
  intro g v g' c h hb hp ho
  obtain ⟨a, g₁, h₁, h₂⟩ := Gen.bind_eq_some.1 h
  rw [hf a h₂]
  exact hm h₁ hb hp ho

theorem Quiet.fixed (h : Quiet m) : CodeFixed m := fun _ _ _ hm => (h hm).1

end Stops

section Requests

variable (t : Target)

theorem moveInsertPoint_eq {bb : Option BlockId} {u : Unit}
    (h : moveInsertPointToBasicBlock bb g = some (u, g')) :
    g' = { g with scope := { g.scope with insertPoint := bb } } :=
  (Prod.mk.inj (some.inj h)).2.symm

theorem moveInsertPoint_keeps (bb : Option BlockId) : Keeps (moveInsertPointToBasicBlock bb) := by
  intro g u g' h
  obtain rfl := moveInsertPoint_eq h
  exact ⟨rfl, rfl, id⟩

theorem moveInsertPoint_fixed (bb : Option BlockId) :
    CodeFixed (moveInsertPointToBasicBlock bb) := by
  intro g u g' h
  obtain rfl := moveInsertPoint_eq h
  rfl

theorem startBasicBlock_eq {bb : BlockId} (h : startBasicBlock g = some (bb, g')) :
    bb = g.code.count ∧ g' = { g with
      code := g.code.create
      scope := { g.scope with insertPoint := some g.code.count } } := by
  obtain ⟨rfl, rfl⟩ := Prod.mk.inj (some.inj h)
  exact ⟨rfl, rfl⟩

theorem currentBasicBlock_eq {bb : Option BlockId} (h : currentBasicBlock g = some (bb, g')) :
    bb = g.scope.insertPoint ∧ g' = g := by
  obtain ⟨rfl, rfl⟩ := Prod.mk.inj (some.inj h)
  exact ⟨rfl, rfl⟩

theorem startBasicBlock_keeps : Keeps startBasicBlock := by
  intro g b g' h
  obtain ⟨-, rfl⟩ := Prod.mk.inj (some.inj h)
  exact ⟨rfl, rfl, id⟩

theorem build_keeps {f : Builder → Builder}
    (hf : ∀ b : Builder, b.2.detached ≠ [] → (f b).2.detached ≠ []) : Keeps (build f) := by
  intro g u g' h
  obtain ⟨-, rfl⟩ := Prod.mk.inj (some.inj h)
  exact ⟨rfl, rfl, hf (g.scope.insertPoint, g.code)⟩

theorem AlwaysLoses.move {f : Unit → Gen β} (hf : Loses (f ())) :
    AlwaysLoses (moveInsertPointToBasicBlock none >>= f) := by
  intro g v g' h
  obtain ⟨u, g₁, h₁, h₂⟩ := Gen.bind_eq_some.1 h
  obtain rfl := moveInsertPoint_eq h₁
  exact hf h₂ rfl

theorem Loses.current {f : Option BlockId → Gen β} (hf : AlwaysLoses (f none)) :
    Loses (currentBasicBlock >>= f) := by
  intro g v g' h hp
  obtain ⟨bb, g₁, h₁, h₂⟩ := Gen.bind_eq_some.1 h
  obtain ⟨rfl, rfl⟩ := Prod.mk.inj (some.inj h₁)
  rw [hp] at h₂
  exact hf h₂

section GoTo

variable (bb : Option BlockId)

theorem goTo_keeps : Keeps (goToBasicBlock bb) :=
  .bind (Plain.required bb).keeps fun _ =>
    .bind (build_keeps fun _ => BlockCode.emit_lost) fun _ => moveInsertPoint_keeps _

theorem goTo_stops {inBlock : Bool} : Stops inBlock True (goToBasicBlock bb) :=
  .after (.required bb) fun _ =>
    .before (.build .id rfl) fun _ => moveInsertPoint_fixed _

theorem goTo_loses : Loses (goToBasicBlock bb) :=
  .after (.required bb) fun _ => .before (.build (.emit _)) fun _ => moveInsertPoint_keeps _

end GoTo

section Branch

variable (condition : Option CodeValue) (ifTrue ifFalse : BlockId)

theorem branchOnCondition_keeps : Keeps (branchOnCondition condition ifTrue ifFalse) :=
  .bind (Plain.required condition).keeps fun v => build_keeps fun b h =>
    BlockCode.emit_lost ((Straight.emitUnlessConstant v).lost b h)

theorem branchOnCondition_stops {inBlock : Bool} :
    Stops inBlock True (branchOnCondition condition ifTrue ifFalse) :=
  .after (.required condition) fun v => .build (.emitUnlessConstant v) rfl

theorem branchOnCondition_loses : Loses (branchOnCondition condition ifTrue ifFalse) := by
  refine .after (.required condition) fun v => .build fun code => ?_
  rcases (Straight.emitUnlessConstant v).dead code with h | h
  · simp [h, Builder.emit]
  · exact BlockCode.emit_lost h

end Branch

section Return

variable (ret : Option CodeValue)

theorem Plain.storeReturnValue (s : LexicalScope) : ∀ ret, Plain (storeReturnValue t s ret)
  | none => .pure _
  | some v => .bind (.required _) fun _ => .build ((Straight.unbox t _ v _).comp .emit_code)

theorem setReturnInScope_keeps : Keeps (setReturnInScope t ret) :=
  .bind Plain.currentScope.keeps fun s => .bind (Plain.storeReturnValue t s ret).keeps fun _ =>
    .bind (build_keeps fun _ => BlockCode.emit_lost) fun _ => moveInsertPoint_keeps _

theorem setReturnInScope_stops {inBlock : Bool} : Stops inBlock True (setReturnInScope t ret) :=
  .after .currentScope fun s => .after (.storeReturnValue t s ret) fun _ =>
    .before (.build .id rfl) fun _ => moveInsertPoint_fixed _

theorem setReturnInScope_loses : Loses (setReturnInScope t ret) := by
  refine .after .currentScope fun s => ?_
  rcases ret with _ | v
  · exact .after (.pure _) fun _ => .before (.build (.emit _)) fun _ => moveInsertPoint_keeps _
  · refine .before (.after (.required _) fun _ => .build ?_) fun _ =>
      .bind (build_keeps fun _ => BlockCode.emit_lost) fun _ => moveInsertPoint_keeps _
    exact (Loud.emit .code).after (.unbox t s.ExceptionBB v s.ReturnType) .emit_code

theorem setReturnInScope_insertPoint {u : Unit} (h : setReturnInScope t ret g = some (u, g')) :
    g'.scope.insertPoint = none := by
  obtain ⟨s, g₁, -, h⟩ := Gen.bind_eq_some.1 h
  obtain ⟨_, g₂, -, h⟩ := Gen.bind_eq_some.1 h
  obtain ⟨_, g₃, -, h⟩ := Gen.bind_eq_some.1 h
  rw [moveInsertPoint_eq h]

/-- `SetReturn` of a block. -/
def nonLocalReturn (s : LexicalScope) (ret : Option CodeValue) : Gen Unit := do
  let _ ← required ret
  build (Builder.messageSendId s.ExceptionBB)

theorem setReturn_of_block (hb : g.scope.isBlock = true) :
    setReturn t ret g = nonLocalReturn g.scope ret g := by
  change (if g.scope.isBlock then nonLocalReturn g.scope ret else setReturnInScope t ret) g = _
  rw [if_pos hb]

theorem setReturn_of_method (hb : g.scope.isBlock = false) :
    setReturn t ret g = setReturnInScope t ret g := by
  change (if g.scope.isBlock then nonLocalReturn g.scope ret else setReturnInScope t ret) g = _
  rw [if_neg (by simp [hb])]

theorem nonLocalReturn_plain (s : LexicalScope) : Plain (nonLocalReturn s ret) :=
  .bind (.required ret) fun _ => .build (.messageSendId _)

theorem nonLocalReturn_loses (s : LexicalScope) : Loses (nonLocalReturn s ret) :=
  .after (.required ret) fun _ => .build (.messageSendId _)

theorem setReturn_keeps : Keeps (setReturn t ret) := by
  intro g u g' h
  by_cases hb : g.scope.isBlock
  · rw [setReturn_of_block t ret hb] at h
    exact (nonLocalReturn_plain ret g.scope).keeps h
  · rw [setReturn_of_method t ret (by simpa using hb)] at h
    exact setReturnInScope_keeps t ret h

theorem setReturn_loses : Loses (setReturn t ret) := by
  intro g u g' h
  by_cases hb : g.scope.isBlock
  · rw [setReturn_of_block t ret hb] at h
    exact nonLocalReturn_loses ret g.scope h
  · rw [setReturn_of_method t ret (by simpa using hb)] at h
    exact setReturnInScope_loses t ret h

theorem joinIf_keeps (falls : Bool) (bb : BlockId) : Keeps (joinIf falls bb) := by
  unfold joinIf
  split_ifs
  · exact goTo_keeps _
  · exact (Plain.pure _).keeps

end Return

section LoopTargets

theorem currentBasicBlock_quiet : Quiet currentBasicBlock := by
  intro g v g' h
  obtain ⟨-, rfl⟩ := Prod.mk.inj (some.inj h)
  exact ⟨rfl, rfl, rfl⟩

theorem basicBlockForLabel_quiet (label : String) : Quiet (basicBlockForLabel label) := by
  intro g v g' h
  obtain ⟨-, rfl⟩ := Prod.mk.inj (some.inj h)
  exact ⟨rfl, rfl, rfl⟩

theorem setBasicBlock_quiet (bb : Option BlockId) (label : String) :
    Quiet (setBasicBlock bb label) := by
  intro g v g' h
  obtain ⟨-, rfl⟩ := Prod.mk.inj (some.inj h)
  exact ⟨rfl, rfl, rfl⟩

theorem unlabelledBasicBlocks_quiet : Quiet unlabelledBasicBlocks := by
  intro g v g' h
  obtain ⟨-, rfl⟩ := Prod.mk.inj (some.inj h)
  exact ⟨rfl, rfl, rfl⟩

theorem setUnlabelledBasicBlocks_quiet (breakBB continueBB : Option BlockId) :
    Quiet (setUnlabelledBasicBlocks breakBB continueBB) := by
  intro g v g' h
  obtain ⟨-, rfl⟩ := Prod.mk.inj (some.inj h)
  exact ⟨rfl, rfl, rfl⟩

theorem enterLoop_quiet (label : Option String) (breakBB continueBB : BlockId) :
    Quiet (enterLoop label breakBB continueBB) := by
  refine .bind unlabelledBasicBlocks_quiet fun _ =>
    .bind (setUnlabelledBasicBlocks_quiet _ _) fun _ => ?_
  cases label with
  | none => exact .pure _
  | some label =>
    exact .bind (basicBlockForLabel_quiet _) fun _ => .bind (basicBlockForLabel_quiet _) fun _ =>
      .bind (setBasicBlock_quiet _ _) fun _ => .bind (setBasicBlock_quiet _ _) fun _ => .pure _

theorem leaveLoop_quiet (label : Option String) (old : LoopTargets) :
    Quiet (leaveLoop label old) := by
  refine .bind (setUnlabelledBasicBlocks_quiet _ _) fun _ => ?_
  cases label with
  | none => exact .pure _
  | some label => exact .bind (setBasicBlock_quiet _ _) fun _ => setBasicBlock_quiet _ _

theorem flowControlBasicBlock_quiet (flavor : Flavor) (label : Option String) :
    Quiet (flowControlBasicBlock flavor label) := by
  cases label with
  | none =>
    refine .bind unlabelledBasicBlocks_quiet fun _ => ?_
    cases flavor <;> exact .pure _
  | some label => exact basicBlockForLabel_quiet _

end LoopTargets

namespace Plain

theorem sendToObject (types : Option MethodTypes) (argv : List CodeValue) :
    Plain (sendToObject t types argv) :=
  .bind .currentScope fun _ => .bind
    (.build (((Straight.unboxArgs t _ types 0 argv).comp (.messageSendId _)).comp (.boxValue _)))
    fun _ => .pure _

theorem sendTo (selector : String) (types : Option MethodTypes) (receiver : CodeValue)
    (argv : List CodeValue) : Plain (sendTo t selector types receiver argv) :=
  .bind .currentScope fun _ => .bind
    (.build (((Straight.unboxArgs t _ types 0 argv).messageSend _ _ _ _).comp (.boxValue _)))
    fun _ => .pure _

theorem sendSuper (types : Option MethodTypes) (argv : List CodeValue) :
    Plain (sendSuper t types argv) :=
  .bind .currentScope fun _ => .bind
    (.build (((Straight.emit_code.comp (.unboxArgs t _ types 0 argv)).comp
      (.messageSendId _)).comp (.boxValue _)))
    fun _ => .pure _

theorem sendMessage (symbols : SymbolTable) (target : Option AST) (selector : String)
    (types : Option MethodTypes) (receiver : CodeValue) (argv : List CodeValue) :
    Plain (sendMessage t symbols target selector types receiver argv) := by
  unfold LanguageKit.sendMessage
  split
  · split
    · exact sendToObject t types argv
    · split_ifs
      · exact sendToObject t types argv
      · exact sendSuper t types argv
      · exact sendTo t selector types receiver argv
    · exact sendTo t selector types receiver argv
  · exact sendTo t selector types receiver argv

theorem sendAutorelease (selector : String) : Plain (sendAutorelease t selector) := by
  unfold LanguageKit.sendAutorelease
  split_ifs
  · exact .bind (sendToObject t _ _) fun _ => .pure _
  · exact .pure _

theorem compileMessage (symbols : SymbolTable) (target : Option AST) (selector : String)
    (receiver : Option CodeValue) (arguments : List (Option CodeValue)) :
    Plain (compileMessage t symbols target selector receiver arguments) :=
  .bind (.required _) fun _ => .bind (.required _) fun _ =>
    .bind (sendMessage t symbols target selector _ _ _) fun _ =>
      .bind (sendAutorelease t selector) fun _ => .pure _

theorem load : ∀ access, Plain (load access)
  | none => ⟨fun _ _ _ h => (nomatch h), fun _ _ _ _ _ h => (nomatch h)⟩
  | some access => by
    cases access
    case nilConstant => exact .pure _
    all_goals exact .bind (.build .emit_code) fun _ => .pure _

theorem store (rval : Option CodeValue) : ∀ access, Plain (store t rval access)
  | none => ⟨fun _ _ _ h => (nomatch h), fun _ _ _ _ _ h => (nomatch h)⟩
  | some access => by
    cases access
    case storeClassVariable name =>
      exact .bind (.required _) fun _ => .bind (sendTo t _ _ _ _) fun _ =>
        .bind (.build .emit_code) fun _ => .bind (sendTo t _ _ _ _) fun _ => .build .emit_code
    all_goals exact .bind (.required _) fun _ => .build .emit_code

theorem intConstant (value : String) : Plain (intConstant t value) := by
  unfold LanguageKit.intConstant
  split_ifs
  · exact .pure _
  · exact .bind (.build .emit_code) fun _ => .pure _

theorem comparePointers (lhs rhs : Option CodeValue) : Plain (comparePointers lhs rhs) := by
  refine .bind (.required _) fun l => .bind (.required _) fun r => ?_
  split_ifs
  · exact .pure _
  · exact .bind (.build .emit_code) fun _ => .pure _

end Plain

namespace Loses

theorem sendToObject (types : Option MethodTypes) (argv : List CodeValue) :
    Loses (sendToObject t types argv) :=
  .after .currentScope fun s => .before
    (.build (((Loud.messageSendId s.ExceptionBB).after (.unboxArgs t _ types 0 argv)
      (.messageSendId _)).before (.boxValue _)))
    fun _ => (Plain.pure _).keeps

theorem sendTo (selector : String) (types : Option MethodTypes) (receiver : CodeValue)
    (argv : List CodeValue) : Loses (sendTo t selector types receiver argv) :=
  .after .currentScope fun _ => .before
    (.build (Loud.before ((Straight.unboxArgs t _ types 0 argv).messageSend_loses _ _ _ _)
      (.boxValue _)))
    fun _ => (Plain.pure _).keeps

theorem sendSuper (types : Option MethodTypes) (argv : List CodeValue) :
    Loses (sendSuper t types argv) :=
  .after .currentScope fun _ => .before
    (.build (((Loud.emit .code).before (.unboxArgs t _ types 0 argv)).before
      (.messageSendId _) |>.before (.boxValue _)))
    fun _ => (Plain.pure _).keeps

theorem sendMessage (symbols : SymbolTable) (target : Option AST) (selector : String)
    (types : Option MethodTypes) (receiver : CodeValue) (argv : List CodeValue) :
    Loses (sendMessage t symbols target selector types receiver argv) := by
  unfold LanguageKit.sendMessage
  split
  · split
    · exact sendToObject t types argv
    · split_ifs
      · exact sendToObject t types argv
      · exact sendSuper t types argv
      · exact sendTo t selector types receiver argv
    · exact sendTo t selector types receiver argv
  · exact sendTo t selector types receiver argv

theorem compileMessage (symbols : SymbolTable) (target : Option AST) (selector : String)
    (receiver : Option CodeValue) (arguments : List (Option CodeValue)) :
    Loses (compileMessage t symbols target selector receiver arguments) :=
  .after (.required _) fun _ => .after (.required _) fun _ =>
    .before (sendMessage t symbols target selector _ _ _) fun _ =>
      (Plain.bind (.sendAutorelease t selector) fun _ => .pure _).keeps

theorem load : ∀ {access}, access ≠ some .nilConstant → Loses (load access)
  | none, _ => fun _ _ _ h => (nomatch h)
  | some access, hne => by
    cases access
    case nilConstant => exact absurd rfl hne
    all_goals exact .before (.build (.emit _)) fun _ => (Plain.pure _).keeps

theorem store (rval : Option CodeValue) : ∀ access, Loses (store t rval access)
  | none => fun _ _ _ h => (nomatch h)
  | some access => by
    cases access
    case storeClassVariable name =>
      exact .after (.required _) fun _ => .before (sendTo t _ _ _ _) fun _ =>
        (Plain.bind (.build .emit_code) fun _ => .bind (.sendTo t _ _ _ _) fun _ =>
          .build .emit_code).keeps
    all_goals exact .after (.required _) fun _ => .build (.emit _)

end Loses

end Requests

end Etoile.LanguageKit
