import Etoile.LanguageKit.ControlFlow

/-!
# Well-formed code

From an open block the code of a node goes on in an open block or ends it, and ends every block
that it makes, if and only if no return from a block ends an if branch or a loop body in it. The
statements of a method add that nothing that takes code follows a return.
-/

namespace Etoile.LanguageKit

open BlockCode Option

variable {α : Type} {g g' : Generator} {inBlock : Bool} {P Q R : Prop}

/-- The statements of an if branch or a loop body: `falls` tells whether they run to the end. -/
def Clause (inBlock falls : Bool) (P : Prop) (m : Gen Bool) : Prop :=
  ∀ ⦃g v g' c⦄, m g = some (v, g') → g.scope.isBlock = inBlock → g.scope.insertPoint = some c →
    g.code.Open c → v = falls ∧ ∃ o, Extends P {c} o g.code g'.code
      ∧ (falls = true → o ≠ none ∧ g'.scope.insertPoint = o) ∧ (falls = false → o = none)

variable {falls : Bool}

theorem Clause.stops {m : Gen Bool} {f : Bool → Gen α}
    (hm : Clause inBlock falls P m) (hk : Keeps m) (hend : falls = true → Stops inBlock Q (f true))
    (hno : falls = false → CodeFixed (f false)) :
    Stops inBlock (P ∧ (falls = true → Q)) (m >>= f) := by
  intro g v g' c h hb hp ho
  obtain ⟨a, g₁, h₁, h₂⟩ := Gen.bind_eq_some.1 h
  obtain ⟨rfl, o, he, hyes, hnone⟩ := hm h₁ hb hp ho
  cases a with
  | true =>
    obtain ⟨hne, hpoint⟩ := hyes rfl
    obtain ⟨c₁, rfl⟩ := ne_none_iff_exists'.1 hne
    have hstop := hend rfl h₂ ((hk h₁).isBlock.trans hb) hpoint (he.current c₁ rfl).1
    exact (he.trans hstop).congr (by simp)
  | false =>
    rw [hnone rfl] at he
    rw [hno rfl h₂]
    exact he.congr (by simp)

theorem joinIf_stops (bb : BlockId) : Stops inBlock True (joinIf true bb) := goTo_stops _

theorem Clause.join {m : Gen Bool} (hm : Clause inBlock falls P m) (hk : Keeps m)
    (bb : BlockId) : Stops inBlock P (m >>= fun v => joinIf v bb) := by
  have h := hm.stops (Q := True) (f := fun v => joinIf v bb) hk (fun _ => joinIf_stops bb)
    fun _ => (Quiet.pure _).fixed
  exact h.congr (by simp)

theorem Stops.newBlock {m : Gen α} (hm : Stops inBlock P m) {v : α}
    (h : m { g with code := g.code.create,
                    scope := { g.scope with insertPoint := some g.code.count } } = some (v, g'))
    (hb : g.scope.isBlock = inBlock) : Extends P ∅ none g.code g'.code :=
  ((hm h hb rfl Adds.create.open_new).of_eq (insert_empty_eq _).symm).absorb_create
    fun _ h => h.elim

theorem compileIf_advances {condition : Gen (Option CodeValue)}
    {thenStatements elseStatements : Gen Bool} {thenFalls elseFalls : Bool}
    (hc : Advances inBlock P condition) (kc : Keeps condition)
    (ht : Clause inBlock thenFalls Q thenStatements) (kt : Keeps thenStatements)
    (he : Clause inBlock elseFalls R elseStatements) (ke : Keeps elseStatements) :
    Advances inBlock (P ∧ Q ∧ R) (compileIf condition thenStatements elseStatements) := by
  refine hc.bind kc fun compareValue => ?_
  intro g v g' c h hb hp ho
  obtain ⟨startBB, g₁, h₁, h⟩ := Gen.bind_eq_some.1 h
  obtain ⟨hstart, rfl⟩ := currentBasicBlock_eq h₁
  rw [hp] at hstart
  subst hstart
  obtain ⟨continueBB, g₂, h₂, h⟩ := Gen.bind_eq_some.1 h
  obtain ⟨rfl, rfl⟩ := startBasicBlock_eq h₂
  obtain ⟨thenBB, g₃, h₃, h⟩ := Gen.bind_eq_some.1 h
  obtain ⟨rfl, rfl⟩ := startBasicBlock_eq h₃
  obtain ⟨thenFalls', g₄, h₄, h⟩ := Gen.bind_eq_some.1 h
  obtain ⟨u, g₅, h₅, h⟩ := Gen.bind_eq_some.1 h
  obtain ⟨elseBB, g₆, h₆, h⟩ := Gen.bind_eq_some.1 h
  obtain ⟨rfl, rfl⟩ := startBasicBlock_eq h₆
  obtain ⟨elseFalls', g₇, h₇, h⟩ := Gen.bind_eq_some.1 h
  obtain ⟨u', g₈, h₈, h⟩ := Gen.bind_eq_some.1 h
  obtain ⟨u'', g₉, h₉, h⟩ := Gen.bind_eq_some.1 h
  obtain rfl := moveInsertPoint_eq h₉
  obtain ⟨_, g₁₀, h₁₀, h⟩ := Gen.bind_eq_some.1 h
  obtain ⟨_, g₁₁, h₁₁, h⟩ := Gen.bind_eq_some.1 h
  obtain rfl := moveInsertPoint_eq h₁₁
  obtain ⟨-, rfl⟩ := Gen.pure_eq_some.1 h
  have hthen : Extends Q ∅ none g₁.code.create g₅.code :=
    (ht.join kt g₁.code.count).newBlock (Gen.bind_eq_some.2 ⟨_, _, h₄, h₅⟩) hb
  have hb₅ : g₅.scope.isBlock = inBlock :=
    ((kt h₄).trans (joinIf_keeps _ _ h₅)).isBlock.trans hb
  have helse : Extends R ∅ none g₅.code g₈.code :=
    (he.join ke g₁.code.count).newBlock (Gen.bind_eq_some.2 ⟨_, _, h₇, h₈⟩) hb₅
  have hb₈ : g₈.scope.isBlock = inBlock :=
    ((ke h₇).trans (joinIf_keeps _ _ h₈)).isBlock.trans hb₅
  have hclauses : Extends (Q ∧ R) ∅ none g₁.code.create g₈.code :=
    (hthen.par helse (by simp) (by simp)).of_eq (by simp)
  have hkept := hclauses.keep (Adds.create.still_open ho) (by simp)
  have hbranch := branchOnCondition_stops _ _ _ h₁₀ hb₈ rfl (hkept.current c rfl).1
  have hnew : g₁.code.count ∉ insert c (∅ : Set ℕ) := by
    simpa using ho.1.ne'
  have hall := ((hkept.trans hbranch).keep Adds.create.open_new hnew).absorb_create
    (by simpa using ho.1)
  exact ⟨g₁.code.count, rfl, (hall.congr (by simp)).of_eq (by simp)⟩

theorem compileIterations_extends {label : Option String} {b : LoopBlocks} {old : LoopTargets}
    {preCondition postCondition : BlockId → BlockId → Gen Unit} {statements : Gen Bool}
    {updateStatements : Gen (List (Option CodeValue))} {S : Prop}
    (hpre : ∀ x y, Stops inBlock P (preCondition x y)) (kpre : ∀ x y, Keeps (preCondition x y))
    (hs : Clause inBlock falls Q statements) (ks : Keeps statements)
    (hpost : ∀ x y, falls = true → Stops inBlock R (postCondition x y))
    (kpost : ∀ x y, Keeps (postCondition x y))
    (hu : Advances inBlock S updateStatements) (ku : Keeps updateStatements)
    {v : Option CodeValue}
    (h : compileIterations label b old preCondition statements postCondition updateStatements g
      = some (v, g')) (hb : g.scope.isBlock = inBlock) (hstart : g.code.Open b.startBB)
    (hbody : g.code.Open b.bodyBB) (hcont : g.code.Open b.continueBB)
    (hne : b.startBB ≠ b.bodyBB ∧ b.startBB ≠ b.continueBB ∧ b.bodyBB ≠ b.continueBB) :
    g'.scope.insertPoint = some b.breakBB ∧
      Extends (P ∧ (Q ∧ (falls = true → R)) ∧ S) {b.startBB, b.bodyBB, b.continueBB} none g.code
        g'.code := by
  obtain ⟨_, g₁, h₁, h⟩ := Gen.bind_eq_some.1 h
  obtain rfl := moveInsertPoint_eq h₁
  obtain ⟨_, g₂, h₂, h⟩ := Gen.bind_eq_some.1 h
  obtain ⟨_, g₃, h₃, h⟩ := Gen.bind_eq_some.1 h
  obtain rfl := moveInsertPoint_eq h₃
  obtain ⟨falls', g₄, h₄, h⟩ := Gen.bind_eq_some.1 h
  obtain ⟨_, g₅, h₅, h⟩ := Gen.bind_eq_some.1 h
  obtain ⟨_, g₆, h₆, h⟩ := Gen.bind_eq_some.1 h
  obtain rfl := moveInsertPoint_eq h₆
  obtain ⟨_, g₇, h₇, h⟩ := Gen.bind_eq_some.1 h
  obtain ⟨_, g₈, h₈, h⟩ := Gen.bind_eq_some.1 h
  obtain ⟨_, g₉, h₉, h⟩ := Gen.bind_eq_some.1 h
  obtain ⟨_, g₁₀, h₁₀, h⟩ := Gen.bind_eq_some.1 h
  obtain rfl := moveInsertPoint_eq h₁₀
  obtain ⟨-, rfl⟩ := Gen.pure_eq_some.1 h
  refine ⟨rfl, ?_⟩
  have he₁ := hpre _ _ h₂ hb rfl hstart
  have hb₂ : g₂.scope.isBlock = inBlock := (kpre _ _ h₂).isBlock.trans hb
  have hfall : falls = true → Stops inBlock R
      (if true then postCondition b.continueBB b.breakBB else pure ()) := fun hf => by
    simpa using hpost b.continueBB b.breakBB hf
  have kfall : Keeps (if falls' then postCondition b.continueBB b.breakBB else pure ()) := by
    split_ifs
    · exact kpost _ _
    · exact (Plain.pure _).keeps
  have hstop := hs.stops
    (f := fun v => if v then postCondition b.continueBB b.breakBB else pure ()) ks hfall
    fun _ => by simpa using (Quiet.pure ()).fixed
  have he₂ := hstop (Gen.bind_eq_some.2 ⟨_, _, h₄, h₅⟩) hb₂ rfl
    (he₁.still_open hbody (by simpa using hne.1.symm))
  have hb₅ : g₅.scope.isBlock = inBlock := ((ks h₄).trans (kfall h₅)).isBlock.trans hb₂
  have hboth := he₁.par he₂ (by simpa using hbody.1) (by simpa using hne.1)
  have hopen := hboth.still_open hcont (by simp [hne.2.1.symm, hne.2.2.symm])
  have hupdate := hu.stops (Q := True) ku fun _ => goTo_stops (some b.startBB)
  have he₃ := hupdate (Gen.bind_eq_some.2 ⟨_, _, h₇, h₈⟩) hb₅ rfl hopen
  have hall := hboth.par he₃ (by simpa using hcont.1) (by simp [hne.2.1.symm, hne.2.2.symm])
  change Extends _ _ none g.code g₉.code
  rw [(leaveLoop_quiet _ _ h₉).1]
  refine (hall.congr (by tauto)).of_eq ?_
  ext x
  simp only [Set.mem_insert_iff, Set.mem_union, Set.mem_singleton_iff]
  tauto

theorem compileLoop_advances {label : Option String}
    {preCondition postCondition : BlockId → BlockId → Gen Unit} {statements : Gen Bool}
    {initStatements updateStatements : Gen (List (Option CodeValue))} {S I : Prop}
    (hi : Advances inBlock I initStatements) (ki : Keeps initStatements)
    (hpre : ∀ x y, Stops inBlock P (preCondition x y)) (kpre : ∀ x y, Keeps (preCondition x y))
    (hs : Clause inBlock falls Q statements) (ks : Keeps statements)
    (hpost : ∀ x y, falls = true → Stops inBlock R (postCondition x y))
    (kpost : ∀ x y, Keeps (postCondition x y))
    (hu : Advances inBlock S updateStatements) (ku : Keeps updateStatements) :
    Advances inBlock (I ∧ P ∧ (Q ∧ (falls = true → R)) ∧ S)
      (compileLoop label initStatements preCondition statements postCondition
        updateStatements) := by
  intro g v g' c h hb hp ho
  obtain ⟨entryBB, g₁, h₁, h⟩ := Gen.bind_eq_some.1 h
  obtain ⟨hentry, rfl⟩ := currentBasicBlock_eq h₁
  rw [hp] at hentry
  subst hentry
  obtain ⟨startBB, g₂, h₂, h⟩ := Gen.bind_eq_some.1 h
  obtain ⟨rfl, rfl⟩ := startBasicBlock_eq h₂
  obtain ⟨bodyBB, g₃, h₃, h⟩ := Gen.bind_eq_some.1 h
  obtain ⟨rfl, rfl⟩ := startBasicBlock_eq h₃
  obtain ⟨continueBB, g₄, h₄, h⟩ := Gen.bind_eq_some.1 h
  obtain ⟨rfl, rfl⟩ := startBasicBlock_eq h₄
  obtain ⟨breakBB, g₅, h₅, h⟩ := Gen.bind_eq_some.1 h
  obtain ⟨rfl, rfl⟩ := startBasicBlock_eq h₅
  obtain ⟨old, g₆, h₆, h⟩ := Gen.bind_eq_some.1 h
  obtain ⟨_, g₇, h₇, h⟩ := Gen.bind_eq_some.1 h
  obtain rfl := moveInsertPoint_eq h₇
  obtain ⟨_, g₈, h₈, hgo⟩ := Gen.bind_eq_some.1 h
  obtain ⟨_, g₉, h₉, hiterations⟩ := Gen.bind_eq_some.1 hgo
  obtain ⟨hcode, hscope, -⟩ := enterLoop_quiet _ _ _ h₆
  set k := g₁.code
  set k₄ := k.create.create.create.create
  have hstart : k₄.Open k.count := Adds.create.still_open
    (Adds.create.still_open (Adds.create.still_open Adds.create.open_new))
  have hbody : k₄.Open (k.count + 1) := Adds.create.still_open
    (Adds.create.still_open (Adds.create (k := k.create)).open_new)
  have hcont : k₄.Open (k.count + 2) := Adds.create.still_open
    (Adds.create (k := k.create.create)).open_new
  have hbreak : k₄.Open (k.count + 3) := (Adds.create (k := k.create.create.create)).open_new
  have hc₄ : k₄.Open c := Adds.create.still_open
    (Adds.create.still_open (Adds.create.still_open (Adds.create.still_open ho)))
  have hc := ho.1
  have hb₆ : g₆.scope.isBlock = inBlock := by
    rw [hscope]
    exact hb
  have hinit := (hi.stops (Q := True) ki fun _ => goTo_stops (some k.count))
    (Gen.bind_eq_some.2 ⟨_, _, h₈, h₉⟩) hb₆ rfl (by rw [hcode]; exact hc₄)
  simp only [hcode] at hinit
  have hb₉ : g₉.scope.isBlock = inBlock :=
    ((ki h₈).trans (goTo_keeps _ h₉)).isBlock.trans hb₆
  have hmem : ∀ i, k.count + i ∉ ({c} : Set ℕ) := by
    intro i hi
    rw [Set.mem_singleton_iff] at hi
    omega
  obtain ⟨hpoint, hiter⟩ := compileIterations_extends hpre kpre hs ks hpost kpost hu ku
    hiterations hb₉
    (hinit.still_open hstart (hmem 0)) (hinit.still_open hbody (hmem 1))
    (hinit.still_open hcont (hmem 2)) (by
      refine ⟨?_, ?_, ?_⟩
      · exact (Nat.lt_succ_self _).ne
      · exact (Nat.lt_add_of_pos_right Nat.two_pos).ne
      · exact (Nat.lt_succ_self _).ne)
  refine ⟨_, hpoint, ?_⟩
  have hk₄ : k₄.count = k.count + 4 := rfl
  have hblocks : ∀ b ∈ ({k.count, k.count + 1, k.count + 2} : Set ℕ), b < k₄.count ∧ b ≠ c := by
    intro b hb
    simp only [Set.mem_insert_iff, Set.mem_singleton_iff] at hb
    omega
  have hall := hinit.par hiter (fun b hb => (hblocks b hb).1)
    (Set.disjoint_singleton_left.2 fun hc => (hblocks c hc).2 rfl)
  have hkept := hall.keep hbreak (by
    rintro (hb | hb)
    · exact absurd (Set.mem_singleton_iff.1 hb) (by omega)
    · change k.count + 3 ∈ ({k.count, k.count + 1, k.count + 2} : Set ℕ) at hb
      simp only [Set.mem_insert_iff, Set.mem_singleton_iff] at hb
      omega)
  have hadds : Adds {k.count, k.count + 1, k.count + 2, k.count + 3} k k₄ := by
    have h := ((Adds.create (k := k)).trans Adds.create).trans (Adds.create.trans Adds.create)
    refine h.of_eq ?_
    ext b
    simp only [Set.mem_insert_iff, Set.mem_union, Set.mem_singleton_iff, create_count]
    tauto
  refine ((hkept.of_eq ?_).absorb hadds (by simpa using hc)).congr (by tauto)
  ext b
  simp only [Set.mem_insert_iff, Set.mem_union, Set.mem_singleton_iff]
  tauto

/-- The statements of a block: a value for it to return comes from an open block. -/
def Body (P : Prop) (m : Gen (Option (Option CodeValue))) : Prop :=
  ∀ ⦃g v g' c⦄, m g = some (v, g') → g.scope.isBlock = true → g.scope.insertPoint = some c →
    g.code.Open c → ∃ o, Extends P {c} o g.code g'.code ∧ g'.scope.insertPoint = o
      ∧ (v ≠ none → o ≠ none)

theorem finish_extends {s : LexicalScope} {S : Set ℕ} {o : Option BlockId}
    {k k' : BlockCode Instruction} (h : Extends P S o k k') (hs : s.insertPoint = o) :
    Extends P S none k (s.finish k') := by
  unfold LexicalScope.finish
  rw [hs]
  cases o with
  | none => exact h
  | some c =>
    have hopen := (h.current c rfl).1
    simp only [hopen.hasTerminator, Bool.false_eq_true, if_false]
    exact (h.trans (.stop hopen rfl)).congr (by simp)

theorem endScope_extends {s : LexicalScope} {e : BlockId} {o : Option BlockId}
    {k₀ k k' : BlockCode Instruction} (hadds : Adds {e, s.CleanupEndBB} k₀ k)
    (hne : e ≠ s.CleanupEndBB) (h : Extends P {e} o k k') : Extends P ∅ o k₀ (s.endScope k') := by
  have hend : k.Open s.CleanupEndBB := (hadds.pending _ (by simp)).2
  have hopen := h.still_open hend (by simpa using hne.symm)
  have hstop := Extends.stop (i := .br (if s.containsBlocks then s.PromoteBB else s.RetBB)) hopen
    rfl
  have hall : Extends P ({e} ∪ {s.CleanupEndBB}) o k (s.endScope k') := by
    cases o with
    | none => exact (h.par hstop (by simpa using hend.1) (by simpa using hne)).congr (by simp)
    | some c =>
      obtain ⟨hc, hold⟩ := h.current c rfl
      have hce : c ∉ ({s.CleanupEndBB} : Set ℕ) := by
        rintro rfl
        rcases hold with hold | hold
        · exact hne hold.symm
        · exact absurd hend.1 (not_lt.2 hold)
      exact (h.seq (hstop.keep hc hce) (by simpa using hend.1) (by simpa using hne)).congr (by simp)
  refine (hall.of_eq ?_).absorb hadds (by simp)
  ext b
  simp only [Set.mem_union, Set.mem_insert_iff, Set.mem_singleton_iff, Set.mem_empty_iff_false]
  tauto

theorem compileBlock_advances (t : Target) {body : Gen (Option (Option CodeValue))}
    (hbody : Body P body) (kbody : Keeps body) : Advances inBlock P (compileBlock t body) := by
  intro g v g' c h hb hp ho
  have hpoint : g'.scope.insertPoint = some c := by
    rw [(compileBlock_kept t kbody h).2.1, hp]
  refine ⟨c, hpoint, ?_⟩
  obtain ⟨_, g₁, h₁, h⟩ := Gen.bind_eq_some.1 h
  obtain ⟨lastValue, g₂, h₂, h⟩ := Gen.bind_eq_some.1 h
  obtain ⟨_, g₃, h₃, h⟩ := Gen.bind_eq_some.1 h
  obtain ⟨_, g₄, h₄, h⟩ := Gen.bind_eq_some.1 h
  obtain ⟨-, rfl⟩ := Gen.pure_eq_some.1 h
  have hkept := (kbody h₂).trans (addBlockReturn_keeps t lastValue h₃)
  obtain ⟨-, rfl⟩ := Prod.mk.inj (some.inj h₁)
  rw [hp] at h₂ hkept
  set k := g.code.emit (some c) .code
  have hcode : Extends True {c} (some c) g.code k := .code ho rfl
  obtain ⟨hadds, hne⟩ := initialiseScope_adds true .object k
  have hentry := (hadds.pending k.count (by simp)).2
  obtain ⟨o, he, hpoint₂, hvalue⟩ := hbody h₂ rfl rfl hentry
  have hreturn : ∃ o', Extends P {k.count} o' (initialiseScope true .object k).2 g₃.code
      ∧ g₃.scope.insertPoint = o' := by
    cases lastValue with
    | none =>
      obtain ⟨-, rfl⟩ := Gen.pure_eq_some.1 h₃
      exact ⟨o, he, hpoint₂⟩
    | some lastValue =>
      obtain ⟨c', rfl⟩ := ne_none_iff_exists'.1 (hvalue (by simp))
      have hstop := setReturnInScope_stops t lastValue h₃ rfl hpoint₂ (he.current c' rfl).1
      exact ⟨none, (he.trans hstop).congr (by simp), setReturnInScope_insertPoint t lastValue h₃⟩
  obtain ⟨o', he', hpoint₃⟩ := hreturn
  have hend : g₃.scope.CleanupEndBB = (initialiseScope true .object k).1.CleanupEndBB :=
    hkept.cleanupEnd
  rw [← hend] at hadds hne
  have hfunction := endScope_extends hadds hne (finish_extends he' hpoint₃)
  have hall := hcode.trans ((hfunction.keep (hcode.current c rfl).1 (by simp)).of_eq
    (insert_empty_eq c))
  have hcode₄ : g'.code = g₃.scope.endScope (g₃.scope.finish g₃.code) := by
    unfold endBlock at h₄
    rw [hkept.enclosing] at h₄
    obtain ⟨-, rfl⟩ := Prod.mk.inj (some.inj h₄)
    rfl
  rw [hcode₄]
  exact hall.congr (by simp)

/-- From an open block the code of a node ends it, if the node does, or goes on in an open one. -/
def Outcome (inBlock : Bool) (s : AST) (m : Gen (Option CodeValue)) : Prop :=
  ∀ ⦃g v g' c⦄, m g = some (v, g') → g.scope.isBlock = inBlock → g.scope.insertPoint = some c →
    g.code.Open c → ∃ o, Extends (s.closes inBlock = true) {c} o g.code g'.code
      ∧ (o = none ↔ s.ends inBlock = true)
      ∧ (s.isFlowControl = false → g'.scope.insertPoint = o)

section Outcome

variable {s : AST} {m : Gen (Option CodeValue)}

theorem AST.not_ends (h : s.isBranch = false) (inBlock : Bool) : s.ends inBlock = false := by
  cases s <;> first | rfl | cases h

theorem AST.not_flowControl (h : s.isBranch = false) : s.isFlowControl = false := by
  cases s <;> first | rfl | cases h

theorem Outcome.of_advances (hs : s.isBranch = false) (h : Advances inBlock P m)
    (hP : P ↔ s.closes inBlock = true) : Outcome inBlock s m := by
  intro g v g' c hm hb hp ho
  obtain ⟨c', hp', he⟩ := h hm hb hp ho
  exact ⟨some c', he.congr hP, by simp [AST.not_ends hs], fun _ => hp'⟩

theorem Outcome.advances (h : Outcome inBlock s m) (hs : s.isBranch = false) :
    Advances inBlock (s.closes inBlock = true) m := by
  intro g v g' c hm hb hp ho
  obtain ⟨o, he, hnone, hp'⟩ := h hm hb hp ho
  cases o with
  | none => simp [AST.not_ends hs] at hnone
  | some c' => exact ⟨c', hp' (AST.not_flowControl hs), he⟩

end Outcome

section Compile

variable (t : Target)

mutual
theorem compile_outcome (inBlock : Bool) (symbols : SymbolTable)
    {loops : List (Option String)} : ∀ s : AST,
    s.grammatical → s.checkFlowControl loops → Outcome inBlock s (compile t symbols s)
  | .comment _, _, _ => by
    rw [compile]
    exact .of_advances rfl ((Plain.pure _).advances _) (by simp [AST.closes])
  | .numberLiteral value, _, _ => by
    rw [compile]
    exact .of_advances rfl ((Plain.intConstant t value).advances _) (by simp [AST.closes])
  | .stringLiteral _, _, _ => by
    rw [compile]
    exact .of_advances rfl ((Plain.pure _).advances _) (by simp [AST.closes])
  | .symbolRef _, _, _ => by
    rw [compile]
    exact .of_advances rfl ((Plain.bind (.build .emit_code) fun _ => .pure _).advances _)
      (by simp [AST.closes])
  | .declRef symbol, _, _ => by
    rw [compile]
    exact .of_advances rfl ((Plain.load _).advances _) (by simp [AST.closes])
  | .variableDecl _, _, _ => by
    rw [compile]
    exact .of_advances rfl ((Plain.pure _).advances _) (by simp [AST.closes])
  | .assignExpr target expr, hg, hc => by
    rw [AST.grammatical, Bool.and_eq_true, Bool.not_eq_true'] at hg
    rw [AST.checkFlowControl] at hc
    rw [compile]
    have hexpr := (compile_outcome inBlock symbols expr hg.2 hc).advances hg.1
    exact .of_advances rfl (hexpr.bind (compile_keeps t symbols expr) fun rval =>
      (Plain.bind (.store t rval _) fun _ => .pure _).advances _) (by simp [AST.closes])
  | .messageSend target selector arguments, hg, hc => by
    simp only [AST.grammatical, Bool.and_eq_true, Bool.not_eq_true'] at hg
    rw [AST.checkFlowControl, Bool.and_eq_true] at hc
    rw [compile]
    have htarget := (compile_outcome inBlock symbols target hg.1.2 hc.1).advances hg.1.1
    have harguments := compileAll_advances inBlock symbols arguments hg.2 hc.2
    exact .of_advances rfl (htarget.bind (compile_keeps t symbols target) fun _ =>
      harguments.bind (compileAll_keeps t symbols arguments) fun _ =>
        (Plain.compileMessage t ..).advances _) (by simp [AST.closes])
  | .messageCascade receiver messages, hg, hc => by
    simp only [AST.grammatical, Bool.and_eq_true, Bool.not_eq_true'] at hg
    rw [AST.checkFlowControl, Bool.and_eq_true] at hc
    rw [compile]
    have hreceiver := (compile_outcome inBlock symbols receiver hg.1.2 hc.1).advances hg.1.1
    exact .of_advances rfl (hreceiver.bind (compile_keeps t symbols receiver) fun _ =>
      compileMessages_advances inBlock symbols _ _ messages hg.2 hc.2) (by simp [AST.closes])
  | .compare lhs rhs, hg, hc => by
    simp only [AST.grammatical, Bool.and_eq_true, Bool.not_eq_true'] at hg
    rw [AST.checkFlowControl, Bool.and_eq_true] at hc
    rw [compile]
    have hl := (compile_outcome inBlock symbols lhs hg.1.1.2 hc.1).advances hg.1.1.1
    have hr := (compile_outcome inBlock symbols rhs hg.2 hc.2).advances hg.1.2
    exact .of_advances rfl (hl.bind (compile_keeps t symbols lhs) fun _ =>
      hr.bind (compile_keeps t symbols rhs) fun _ => (Plain.comparePointers _ _).advances _)
      (by simp [AST.closes])
  | .arrayExpr elements, hg, hc => by
    rw [AST.grammatical] at hg
    rw [AST.checkFlowControl] at hc
    rw [compile]
    exact .of_advances rfl ((compileAll_advances inBlock symbols elements hg hc).bind
      (compileAll_keeps t symbols elements) fun _ =>
        (Plain.bind (.build .emit_code) fun _ => .bind (.required _) fun _ =>
          .sendToObject t _ _).advances _) (by simp [AST.closes])
  | .ifStatement condition thenStatements elseStatements, hg, hc => by
    simp only [AST.grammatical, Bool.and_eq_true, Bool.not_eq_true'] at hg
    simp only [AST.checkFlowControl, Bool.and_eq_true] at hc
    rw [compile]
    have hcondition := (compile_outcome inBlock symbols condition hg.1.1.2 hc.1.1).advances hg.1.1.1
    have hthen := compileUntilBranch_clause inBlock symbols thenStatements hg.1.2 hc.1.2
    have helse := compileUntilBranch_clause inBlock symbols elseStatements hg.2 hc.2
    exact .of_advances rfl (compileIf_advances hcondition (compile_keeps t symbols condition)
      hthen (compileUntilBranch_keeps t symbols _) helse (compileUntilBranch_keeps t symbols _))
      (by simp [AST.closes, and_assoc])
  | .loop label initStatements preCondition statements postCondition updateStatements, hg, hc => by
    simp only [AST.grammatical, Bool.and_eq_true] at hg
    simp only [AST.checkFlowControl, Bool.and_eq_true] at hc
    rw [compile]
    have hinit := compileAll_advances inBlock symbols initStatements hg.1.1.1.1 hc.1.1.1.1
    have hstatements := compileUntilBranch_clause inBlock symbols statements hg.1.1.2 hc.1.1.2
    have hupdate := compileAll_advances inBlock symbols updateStatements hg.2 hc.2
    exact .of_advances rfl (compileLoop_advances hinit (compileAll_keeps t symbols _)
      (fun _ _ => compileCondition_stops inBlock symbols _ _ preCondition hg.1.1.1.2 hc.1.1.1.2)
      (fun _ _ => compileCondition_keeps t symbols _ _ _)
      hstatements (compileUntilBranch_keeps t symbols _)
      (fun _ _ _ => compileCondition_stops inBlock symbols _ _ postCondition hg.1.2 hc.1.2)
      (fun _ _ => compileCondition_keeps t symbols _ _ _)
      hupdate (compileAll_keeps t symbols _))
      (by
        simp only [AST.closes, Bool.and_eq_true, Bool.or_eq_true, Bool.not_eq_true']
        cases statements.any AST.isBranch <;> simp <;> tauto)
  | .loopFlowControl flavor label, _, _ => by
    rw [compile]
    intro g v g' c h hb hp ho
    have hstop : Stops inBlock True (do
        let bb ← flowControlBasicBlock flavor label
        goToBasicBlock bb
        pure (none : Option CodeValue)) :=
      .after (.quiet (flowControlBasicBlock_quiet flavor label)) fun bb =>
        .before (goTo_stops bb) fun _ => (Quiet.pure _).fixed
    exact ⟨none, (hstop h hb hp ho).congr (by simp [AST.closes]), by simp [AST.ends],
      fun hne => (nomatch hne)⟩
  | .ret expr, hg, hc => by
    rw [AST.grammatical, Bool.and_eq_true, Bool.not_eq_true'] at hg
    rw [AST.checkFlowControl] at hc
    rw [compile]
    intro g v g' c h hb hp ho
    obtain ⟨retVal, g₁, h₁, hrest⟩ := Gen.bind_eq_some.1 h
    obtain ⟨u, g₂, h₂, hpure⟩ := Gen.bind_eq_some.1 hrest
    obtain ⟨-, rfl⟩ := Gen.pure_eq_some.1 hpure
    obtain ⟨c₁, hp₁, he⟩ := (compile_outcome inBlock symbols expr hg.2 hc).advances hg.1 h₁ hb hp ho
    have hopen := (he.current c₁ rfl).1
    have hb₁ : g₁.scope.isBlock = inBlock := (compile_keeps t symbols expr h₁).isBlock.trans hb
    cases inBlock with
    | true =>
      rw [setReturn_of_block t retVal hb₁] at h₂
      obtain ⟨c₂, hp₂, he₂⟩ := (nonLocalReturn_plain retVal g₁.scope).advances true h₂ hb₁ hp₁ hopen
      exact ⟨some c₂, (he.trans he₂).congr (by simp [AST.closes]), by simp [AST.ends],
        fun _ => hp₂⟩
    | false =>
      rw [setReturn_of_method t retVal hb₁] at h₂
      have hstop := setReturnInScope_stops t retVal h₂ hb₁ hp₁ hopen
      exact ⟨none, (he.trans hstop).congr (by simp [AST.closes]), by simp [AST.ends],
        fun _ => setReturnInScope_insertPoint t retVal h₂⟩
  | .blockReturn expr, hg, hc => by
    rw [AST.grammatical, Bool.and_eq_true, Bool.not_eq_true'] at hg
    rw [AST.checkFlowControl] at hc
    rw [compile]
    intro g v g' c h hb hp ho
    obtain ⟨retVal, g₁, h₁, hrest⟩ := Gen.bind_eq_some.1 h
    obtain ⟨u, g₂, h₂, hpure⟩ := Gen.bind_eq_some.1 hrest
    obtain ⟨-, rfl⟩ := Gen.pure_eq_some.1 hpure
    obtain ⟨c₁, hp₁, he⟩ := (compile_outcome inBlock symbols expr hg.2 hc).advances hg.1 h₁ hb hp ho
    have hb₁ : g₁.scope.isBlock = inBlock := (compile_keeps t symbols expr h₁).isBlock.trans hb
    have hstop := setReturnInScope_stops t retVal h₂ hb₁ hp₁ (he.current c₁ rfl).1
    exact ⟨none, (he.trans hstop).congr (by simp [AST.closes]), by simp [AST.ends],
      fun _ => setReturnInScope_insertPoint t retVal h₂⟩
  | .blockExpr arguments locals statements, hg, hc => by
    rw [AST.grammatical] at hg
    rw [AST.checkFlowControl] at hc
    rw [compile]
    exact .of_advances rfl (compileBlock_advances t (compileBody_body _ none statements hg hc)
      (compileBody_keeps t _ none statements)) (by simp [AST.closes])

theorem compileAll_advances (inBlock : Bool) (symbols : SymbolTable)
    {loops : List (Option String)} :
    ∀ statements : List AST, areOperands statements → checkFlowControlIn loops statements →
      Advances inBlock (closesAll inBlock statements = true) (compileAll t symbols statements)
  | [], _, _ => by
    rw [compileAll]
    exact ((Plain.pure _).advances _).congr (by simp [closesAll])
  | statement :: statements, hg, hc => by
    simp only [areOperands, Bool.and_eq_true, Bool.not_eq_true'] at hg
    rw [checkFlowControlIn, Bool.and_eq_true] at hc
    rw [compileAll]
    have hfirst := (compile_outcome inBlock symbols statement hg.1.2 hc.1).advances hg.1.1
    have hrest := compileAll_advances inBlock symbols statements hg.2 hc.2
    exact (hfirst.bind (compile_keeps t symbols statement) fun _ =>
      hrest.bind (compileAll_keeps t symbols statements) fun _ =>
        (Plain.pure _).advances _).congr (by simp [closesAll])

theorem compileCondition_stops (inBlock : Bool) (symbols : SymbolTable) (ifTrue ifFalse : BlockId)
    {loops : List (Option String)} : ∀ condition : Option AST, isOperandOption condition →
      checkFlowControlInOption loops condition →
      Stops inBlock (closesOption inBlock condition = true)
        (compileCondition t symbols ifTrue ifFalse condition)
  | none, _, _ => by
    rw [compileCondition]
    exact (goTo_stops _).congr (by simp [closesOption])
  | some condition, hg, hc => by
    rw [isOperandOption, Bool.and_eq_true, Bool.not_eq_true'] at hg
    rw [checkFlowControlInOption] at hc
    rw [compileCondition]
    have hcondition := (compile_outcome inBlock symbols condition hg.2 hc).advances hg.1
    exact (hcondition.stops (compile_keeps t symbols condition) fun _ =>
      branchOnCondition_stops _ _ _).congr (by simp [closesOption])

theorem compileMessages_advances (inBlock : Bool) (symbols : SymbolTable)
    (target : Option CodeValue) {loops : List (Option String)} : ∀ (result : Option CodeValue)
      (messages : List (String × List AST)), areOperandsInMessages messages →
      checkFlowControlInMessages loops messages →
      Advances inBlock (closesMessages inBlock messages = true)
        (compileMessages t symbols target result messages)
  | _, [], _, _ => by
    rw [compileMessages]
    exact ((Plain.pure _).advances _).congr (by simp [closesMessages])
  | _, (selector, arguments) :: messages, hg, hc => by
    rw [areOperandsInMessages, Bool.and_eq_true] at hg
    rw [checkFlowControlInMessages, Bool.and_eq_true] at hc
    rw [compileMessages]
    have harguments := compileAll_advances inBlock symbols arguments hg.1 hc.1
    exact (harguments.bind (compileAll_keeps t symbols arguments) fun _ =>
      ((Plain.compileMessage t ..).advances _).bind (Plain.compileMessage t ..).keeps fun _ =>
        compileMessages_advances inBlock symbols target _ messages hg.2 hc.2).congr
      (by simp [closesMessages])

theorem compileUntilBranch_clause (inBlock : Bool) (symbols : SymbolTable)
    {loops : List (Option String)} :
    ∀ statements : List AST, areGrammatical statements → checkFlowControlIn loops statements →
      Clause inBlock (!statements.any AST.isBranch) (closesClause inBlock statements = true)
        (compileUntilBranch t symbols statements)
  | [], _, _ => by
    rw [compileUntilBranch]
    intro g v g' c h hb hp ho
    obtain ⟨rfl, rfl⟩ := Gen.pure_eq_some.1 h
    exact ⟨rfl, some c, (Extends.refl ho).congr (by simp [closesClause]),
      fun _ => ⟨by simp, hp⟩, fun hf => (nomatch hf)⟩
  | statement :: statements, hg, hc => by
    rw [areGrammatical, Bool.and_eq_true] at hg
    rw [checkFlowControlIn, Bool.and_eq_true] at hc
    rw [compileUntilBranch]
    intro g v g' c h hb hp ho
    obtain ⟨_, g₁, h₁, hrest⟩ := Gen.bind_eq_some.1 h
    by_cases hs : statement.isBranch
    · rw [if_pos hs] at hrest
      obtain ⟨rfl, rfl⟩ := Gen.pure_eq_some.1 hrest
      obtain ⟨o, he, hnone, -⟩ := compile_outcome inBlock symbols statement hg.1 hc.1 h₁ hb hp ho
      refine ⟨by simp [hs], none, ?_, by simp [hs], fun _ => rfl⟩
      cases o with
      | none =>
        exact he.congr (by simp [closesClause, hs, hnone.1 rfl])
      | some c' =>
        have hends : statement.ends inBlock = false := by simpa using hnone
        exact he.abandon.congr (by simp [closesClause, hs, hends])
    · have hs' : statement.isBranch = false := by simpa using hs
      rw [if_neg hs] at hrest
      obtain ⟨c₁, hp₁, he₁⟩ :=
        (compile_outcome inBlock symbols statement hg.1 hc.1).advances hs' h₁ hb hp ho
      have hb₁ := (compile_keeps t symbols statement h₁).isBlock.trans hb
      obtain ⟨hv, o, he₂, hyes, hno⟩ := compileUntilBranch_clause inBlock symbols statements hg.2
        hc.2 hrest hb₁ hp₁ (he₁.current c₁ rfl).1
      refine ⟨by simp [hs', hv], o, (he₁.trans he₂).congr (by simp [closesClause, hs']), ?_, ?_⟩
      · simpa [hs'] using hyes
      · simpa [hs'] using hno

theorem compileBody_body (symbols : SymbolTable) : ∀ (lastValue : Option CodeValue)
    (statements : List AST), areGrammatical statements → checkFlowControlIn [] statements →
      Body (closesBody statements = true) (compileBody t symbols lastValue statements)
  | lastValue, [], _, _ => by
    rw [compileBody]
    intro g v g' c h hb hp ho
    obtain ⟨rfl, rfl⟩ := Gen.pure_eq_some.1 h
    exact ⟨some c, (Extends.refl ho).congr (by simp [closesBody]), hp, by simp⟩
  | lastValue, statement :: statements, hg, hc => by
    rw [areGrammatical, Bool.and_eq_true] at hg
    rw [checkFlowControlIn, Bool.and_eq_true] at hc
    rw [compileBody]
    intro g v g' c h hb hp ho
    by_cases hcomment : statement.isComment
    · rw [if_pos hcomment] at h
      have hs : statement.isBranch = false ∧ statement.closes true = true := by
        cases statement <;> first | exact ⟨rfl, rfl⟩ | cases hcomment
      obtain ⟨o, he, hpo, hv⟩ := compileBody_body symbols lastValue statements hg.2 hc.2 h hb hp ho
      exact ⟨o, he.congr (by simp [closesBody, hs]), hpo, hv⟩
    · rw [if_neg hcomment] at h
      obtain ⟨value, g₁, h₁, hrest⟩ := Gen.bind_eq_some.1 h
      by_cases hs : statement.isBranch
      · rw [if_pos hs] at hrest
        obtain ⟨rfl, rfl⟩ := Gen.pure_eq_some.1 hrest
        have hflow : statement.isFlowControl = false := by
          -- no loop encloses it in this block
          cases statement <;> first | rfl | simp [AST.checkFlowControl] at hc
        obtain ⟨o, he, -, hpo⟩ := compile_outcome true symbols statement hg.1 hc.1 h₁ hb hp ho
        exact ⟨o, he.congr (by simp [closesBody, hs]), hpo hflow, by simp⟩
      · have hs' : statement.isBranch = false := by simpa using hs
        rw [if_neg hs] at hrest
        obtain ⟨c₁, hp₁, he₁⟩ :=
          (compile_outcome true symbols statement hg.1 hc.1).advances hs' h₁ hb hp ho
        have hb₁ := (compile_keeps t symbols statement h₁).isBlock.trans hb
        obtain ⟨o, he₂, hpo, hv⟩ := compileBody_body symbols value statements hg.2 hc.2 hrest hb₁
          hp₁ (he₁.current c₁ rfl).1
        exact ⟨o, (he₁.trans he₂).congr (by simp [closesBody, hs']), hpo, hv⟩
end

/-- The statements behind a return: nothing is generated for them, or something is lost. -/
theorem compileAll_after_return (symbols : SymbolTable) : ∀ (statements : List AST)
    {values : List (Option CodeValue)} {g g' : Generator},
    compileAll t symbols statements g = some (values, g') → g.scope.insertPoint = none →
      (statements.all (AST.emitsNothing t symbols) = true → g' = g)
        ∧ (statements.all (AST.emitsNothing t symbols) = false → g'.code.detached ≠ [])
  | [], values, g, g', h, hp => by
    rw [compileAll] at h
    obtain ⟨-, rfl⟩ := Gen.pure_eq_some.1 h
    exact ⟨fun _ => rfl, fun hf => (nomatch hf)⟩
  | statement :: statements, values, g, g', h, hp => by
    rw [compileAll] at h
    obtain ⟨_, g₁, h₁, hrest⟩ := Gen.bind_eq_some.1 h
    obtain ⟨_, g₂, h₂, hpure⟩ := Gen.bind_eq_some.1 hrest
    obtain ⟨-, rfl⟩ := Gen.pure_eq_some.1 hpure
    by_cases hs : statement.emitsNothing t symbols
    · obtain ⟨rfl, -⟩ := compile_emitsNothing t symbols statement hs h₁
      simpa [hs] using compileAll_after_return symbols statements h₂ hp
    · have hs' : statement.emitsNothing t symbols = false := by simpa using hs
      have hlost := compile_loses t symbols statement hs' h₁ hp
      simpa [hs'] using (compileAll_keeps t symbols statements h₂).lost hlost

theorem compileAll_method (symbols : SymbolTable) : ∀ (statements : List AST)
    {values : List (Option CodeValue)} {g g' : Generator} {c : BlockId},
    areGrammatical statements → checkFlowControlIn [] statements →
    compileAll t symbols statements g = some (values, g') → g.scope.isBlock = false →
    g.scope.insertPoint = some c → g.code.Open c →
      (g'.code.detached ≠ [] ∧ closesMethod t symbols statements = false)
        ∨ ∃ o, Extends (closesMethod t symbols statements = true) {c} o g.code g'.code
            ∧ g'.scope.insertPoint = o
  | [], values, g, g', c, _, _, h, _, hp, ho => by
    rw [compileAll] at h
    obtain ⟨-, rfl⟩ := Gen.pure_eq_some.1 h
    exact .inr ⟨some c, (Extends.refl ho).congr (by simp [closesMethod]), hp⟩
  | statement :: statements, values, g, g', c, hg, hc, h, hb, hp, ho => by
    rw [areGrammatical, Bool.and_eq_true] at hg
    rw [checkFlowControlIn, Bool.and_eq_true] at hc
    rw [compileAll] at h
    obtain ⟨_, g₁, h₁, hrest⟩ := Gen.bind_eq_some.1 h
    obtain ⟨_, g₂, h₂, hpure⟩ := Gen.bind_eq_some.1 hrest
    obtain ⟨-, rfl⟩ := Gen.pure_eq_some.1 hpure
    by_cases hs : statement.isBranch
    · have hends : statement.ends false = true ∧ statement.isFlowControl = false := by
        cases statement with
        | ret _ => exact ⟨rfl, rfl⟩
        | blockReturn _ => exact ⟨rfl, rfl⟩
        | loopFlowControl _ _ => simp [AST.checkFlowControl] at hc
        | _ => cases hs
      obtain ⟨o, he, hnone, hpo⟩ := compile_outcome t false symbols statement hg.1 hc.1 h₁ hb hp ho
      obtain rfl := hnone.2 hends.1
      obtain ⟨hquiet, hlost⟩ := compileAll_after_return t symbols statements h₂ (hpo hends.2)
      by_cases hall : statements.all (AST.emitsNothing t symbols)
      · obtain rfl := hquiet hall
        exact .inr ⟨none, he.congr (by simp [closesMethod, hs, hall]), hpo hends.2⟩
      · have hall' : statements.all (AST.emitsNothing t symbols) = false := by simpa using hall
        exact .inl ⟨hlost hall', by simp [closesMethod, hs, hall']⟩
    · have hs' : statement.isBranch = false := by simpa using hs
      obtain ⟨c₁, hp₁, he₁⟩ :=
        (compile_outcome t false symbols statement hg.1 hc.1).advances hs' h₁ hb hp ho
      have hb₁ := (compile_keeps t symbols statement h₁).isBlock.trans hb
      rcases compileAll_method symbols statements hg.2 hc.2 h₂ hb₁ hp₁ (he₁.current c₁ rfl).1 with
        ⟨hlost, hno⟩ | ⟨o, he₂, hpo⟩
      · exact .inl ⟨hlost, by simp [closesMethod, hs', hno]⟩
      · exact .inr ⟨o, (he₁.trans he₂).congr (by simp [closesMethod, hs']), hpo⟩

def Method.symbols (m : Method) (enclosing : SymbolTable) : SymbolTable :=
  .method ⟨m.locals ++ declaredIn m.statements, m.arguments⟩ enclosing

theorem compileMethod_complete (enclosing : SymbolTable) (m : Method)
    (hg : areGrammatical m.statements) (hc : checkFlowControlIn [] m.statements)
    (h : compileMethod t enclosing m = some g) :
    g.code.Complete ↔ closesMethod t (m.symbols enclosing) m.statements = true := by
  set returnType := ((t.typeForMethod m.selector).map MethodTypes.result).getD .object
  set p := initialiseScope false returnType .empty
  unfold compileMethod at h
  obtain ⟨⟨values, g₂⟩, h₂, rfl⟩ := map_eq_some_iff.1 h
  obtain ⟨hadds, hne⟩ := initialiseScope_adds false returnType .empty
  have hentry := (hadds.pending 0 (Set.mem_insert ..)).2
  have hend : g₂.scope.CleanupEndBB = p.1.CleanupEndBB := (compileAll_keeps t _ _ h₂).cleanupEnd
  change (g₂.scope.finish (g₂.scope.endScope g₂.code)).Complete ↔ _
  rcases compileAll_method t _ m.statements hg hc h₂ rfl rfl hentry with
    ⟨hlost, hno⟩ | ⟨o, he, hpoint⟩
  · refine iff_of_false (fun hall => ?_) (by rw [Method.symbols, hno]; simp)
    exact finish_lost _ (emit_lost hlost) hall.2
  · rw [← hend] at hadds hne
    exact (finish_extends (endScope_extends hadds hne he) hpoint).complete_iff

def RestoresInsertPoint : Prop :=
  ∀ (symbols : SymbolTable) (arguments locals : List String) (statements : List AST)
    (g g' : Generator) (v : Option CodeValue),
    compile t symbols (.blockExpr arguments locals statements) g = some (v, g') →
      g'.scope.insertPoint = g.scope.insertPoint

theorem restoresInsertPoint : RestoresInsertPoint t := by
  intro symbols arguments locals statements g g' v h
  rw [compile] at h
  exact (compileBlock_kept t (compileBody_keeps t _ none statements) h).2.1

/-- The code of a method is well formed just if no return from a block ends an if branch or a loop
body in it, and nothing that takes code follows a return of its own. -/
theorem compileMethod_wellFormed_iff (enclosing : SymbolTable) (m : Method) (g : Generator)
    (hg : areGrammatical m.statements) (hc : checkFlowControlIn [] m.statements)
    (h : compileMethod t enclosing m = some g) :
    (g.code.Complete ∧ RestoresInsertPoint t)
      ↔ closesMethod t (m.symbols enclosing) m.statements = true := by
  rw [and_iff_left (restoresInsertPoint t)]
  exact compileMethod_complete t enclosing m hg hc h

end Compile

def bareTarget : Target := ⟨fun _ => false, fun _ => none, fun _ => false, 64⟩

theorem compileMethod_run_wellFormed :
    ∃ g, compileMethod bareTarget .nil ⟨"run", [], [], [.ret (.declRef "nil")]⟩ = some g
      ∧ g.code.Complete ∧ RestoresInsertPoint bareTarget :=
  ⟨_, rfl, (compileMethod_wellFormed_iff bareTarget .nil ⟨"run", [], [], [.ret (.declRef "nil")]⟩ _
    (by decide) (by decide) rfl).2 (by decide)⟩

/-- `^nil. ^nil.`: the second return is generated where no block is current. -/
theorem twoReturns_not_wellFormed :
    ∃ g, compileMethod bareTarget .nil
          ⟨"run", [], [], [.ret (.declRef "nil"), .ret (.declRef "nil")]⟩ = some g
      ∧ areGrammatical [.ret (.declRef "nil"), .ret (.declRef "nil")]
      ∧ checkFlowControlIn [] [.ret (.declRef "nil"), .ret (.declRef "nil")]
      ∧ ¬ (g.code.Complete ∧ RestoresInsertPoint bareTarget) := by
  have hdetached : (compileMethod bareTarget .nil ⟨"run", [], [],
      [.ret (.declRef "nil"), .ret (.declRef "nil")]⟩).map (fun g => g.code.detached.length)
        = some 3 := by
    decide +kernel
  obtain ⟨g, hg, hlength⟩ := map_eq_some_iff.1 hdetached
  refine ⟨g, hg, by decide, by decide, fun hall => ?_⟩
  rw [hall.1.2] at hlength
  cases hlength

end Etoile.LanguageKit
