import Etoile.EtoileThread.PipeLocks

/-!
# Every call returns

Once the pipe is disconnected a call that is held up is held up by a lock or by a wait, and the
other thread is then on its way to release the one or to end the other.  No thread goes on to take
locks for ever, since no new call takes one.
-/

namespace Etoile.EtoileThread.Disconnection

open ETObjectPipe

variable {Id : Type} {p t : ETObjectPipe Id} {s : Disconnection Id} {d e : Direction}
  {pc pc' : Pc Id}

/-- How many steps of its own a thread may still need to return from a disconnected pipe. -/
def rank : Pc Id → ℕ
  | .idle => 0
  | .isFull _ => 7
  | .poke _ => 8
  | .write _ => 6
  | .produce _ => 5
  | .wasEmpty => 4
  | .insertLock => 3
  | .insertSignal => 2
  | .insertUnlock => 1
  | .isEmpty => 4
  | .testDisconnect => 1
  | .removeLock => 9
  | .isEmptyLocked => 8
  | .wait => 7
  | .waiting => 6
  | .relock => 5
  | .removeUnlock => 4
  | .read => 3
  | .clear _ => 2
  | .consume _ => 1
  | .poll => 6
  | .pollFull => 5
  | .broadcastRequest => 2
  | .broadcastReply => 1

def lockFree : Pc Id → Bool
  | .idle | .isEmpty | .testDisconnect | .read | .clear _ | .consume _ | .poll | .pollFull => true
  | _ => false

def lockRank (pc : Pc Id) : ℕ := if lockFree pc then 0 else rank pc

structure Nearer (pc pc' : Pc Id) : Prop where
  rank_lt : rank pc' < rank pc
  free : lockFree pc = true → lockFree pc' = true

theorem Nearer.lockRank_le (h : Nearer pc pc') : lockRank pc' ≤ lockRank pc := by
  have hlt := h.rank_lt
  unfold lockRank
  split_ifs with h' hfree hfree
  · exact Nat.le_refl 0
  · exact Nat.zero_le _
  · exact absurd (h.free hfree) h'
  · exact hlt.le

theorem Nearer.lockRank_lt (h : Nearer pc pc') (hlock : lockFree pc = false) :
    lockRank pc' < lockRank pc := by
  have hlt := h.rank_lt
  have hlock' : ¬ lockFree pc = true := by simp [hlock]
  unfold lockRank
  rw [if_neg hlock']
  split_ifs
  · exact Nat.zero_lt_of_lt hlt
  · exact hlt

theorem nearer_next (h : Next p d pc pc') (hdis : p.disconnect = true) : Nearer pc pc' := by
  cases h with
  | connected hconnected => exact absurd hdis (by simp [hconnected])
  | _ => constructor <;> simp [rank, lockFree]

/-- A thread stays where it is because it is held up, or it comes nearer to its return. -/
theorem stays_or_nearer (h : Moves p d t) (hdis : p.disconnect = true) :
    t = p ∧ (p.pc d = .idle ∨ p.blocked d = true) ∨ Nearer (p.pc d) (t.pc d) := by
  cases h with
  | stays h => exact .inl ⟨rfl, h⟩
  | goes hpc hnext =>
    right
    rw [goto_pc_self, hpc]
    exact nearer_next hnext hdis
  | locks hpc htakes hfree =>
    right
    rw [goto_pc_self, hpc]
    cases htakes <;> constructor <;> simp [rank, lockFree]
  | unlocks hpc hleaves =>
    right
    rw [goto_pc_self, hpc]
    cases hleaves <;> constructor <;> simp [rank, lockFree]
  | signals hpc | writes hpc | produces hpc | clears hpc | consumes hpc =>
    right
    rw [goto_pc_self, hpc]
    constructor <;> simp [rank, lockFree]

theorem free_moves (h : Moves p d t) (hfree : lockFree (p.pc d) = true) :
    t.owner = p.owner ∧ t.pc d.opposite = p.pc d.opposite := by
  cases h with
  | stays _ => exact ⟨rfl, rfl⟩
  | locks hpc htakes _ =>
    rw [hpc] at hfree
    cases htakes <;> cases hfree
  | unlocks hpc hleaves =>
    rw [hpc] at hfree
    cases hleaves <;> cases hfree
  | signals hpc =>
    rw [hpc] at hfree
    cases hfree
  | _ => exact ⟨rfl, goto_pc_of_ne (opposite_ne d) _⟩

theorem blocked_congr (ho : t.owner = p.owner) (hpc : t.pc d = p.pc d) :
    t.blocked d = p.blocked d := by
  unfold blocked
  rw [ho, hpc]

/-- The thread can go on, and is on its way through a part that takes locks. -/
def Working (p : ETObjectPipe Id) (d : Direction) : Prop :=
  p.blocked d = false ∧ lockFree (p.pc d) = false

theorem Working.of_lockOf (h : lockOf d (p.pc d) = some e) : Working p d := by
  unfold Working blocked
  cases hpc : p.pc d <;> rw [hpc] at h <;> first | exact ⟨rfl, rfl⟩ | cases h

theorem Working.of_sends (h : sends (p.pc d) = true) : Working p d := by
  unfold Working blocked
  cases hpc : p.pc d <;> rw [hpc] at h <;> first | exact ⟨rfl, rfl⟩ | cases h

theorem Working.of_signalling (h : signalling (p.pc d) = true) (hfree : p.owner d = none) :
    Working p d := by
  unfold Working blocked
  cases hpc : p.pc d with
  | insertLock => exact ⟨by dsimp only; rw [hfree]; rfl, rfl⟩
  | wasEmpty | insertSignal => exact ⟨rfl, rfl⟩
  | _ =>
    rw [hpc] at h
    cases h

theorem Helped.working_of_owner (h : Helped p) (hnot : lockOf d (p.pc d) = none)
    (hsome : (p.owner e).isSome = true) : Working p d.opposite := by
  obtain ⟨a, ha⟩ := Option.isSome_iff_exists.1 hsome
  have hlock := (h.mutex a e).1 ha
  rcases eq_or_opposite d a with rfl | rfl
  · rw [hnot] at hlock
    cases hlock
  · exact .of_lockOf hlock

theorem Helped.working (h : Helped p) (hinv : Inv p) (hdis : p.disconnect = true)
    (hb : p.blocked d = true) : Working p d.opposite := by
  unfold blocked at hb
  split at hb
  · rename_i hpc
    have hw := h.wake d (by rw [hpc]; rfl)
    rcases h.coming hdis d (by rw [hpc]; rfl) with hempty | hsends
    · rcases hw with heq | ⟨-, hsig⟩
      · rw [(hinv.isEmpty_iff _).2 heq] at hempty
        cases hempty
      · cases ho : p.owner d.opposite with
        | none => exact .of_signalling hsig ho
        | some a => exact h.working_of_owner (by rw [hpc]; rfl) (by rw [ho]; rfl)
    · exact .of_sends hsends
  · rename_i hpc
    exact h.working_of_owner (by rw [hpc]; rfl) hb
  · rename_i hpc
    exact h.working_of_owner (by rw [hpc]; rfl) hb
  · rename_i hpc
    exact h.working_of_owner (by rw [hpc]; rfl) hb
  · cases hb

/-- The steps that the thread `d`, and the other one where that takes locks, may still need. -/
def stepsLeft (d : Direction) (p : ETObjectPipe Id) : ℕ := rank (p.pc d) + lockRank (p.pc d.opposite)

def helperOf (d : Direction) (p : ETObjectPipe Id) : Action Id :=
  if p.blocked d then .run d.opposite else .run d

/-- The step helps, or it leaves things as they are for the one that does. -/
def Helps (d : Direction) (p t : ETObjectPipe Id) (a : Action Id) : Prop :=
  stepsLeft d t < stepsLeft d p
    ∨ a ≠ helperOf d p ∧ stepsLeft d t = stepsLeft d p ∧ helperOf d t = helperOf d p

theorem Helps.of_same {a : Action Id} (ha : a ≠ helperOf d p) (hpc : t.pc d = p.pc d)
    (ho : t.owner = p.owner) (hrank : lockRank (t.pc d.opposite) = lockRank (p.pc d.opposite)) :
    Helps d p t a := by
  refine .inr ⟨ha, ?_, ?_⟩
  · unfold stepsLeft
    rw [hpc, hrank]
  · unfold helperOf
    rw [blocked_congr ho hpc]

theorem nearer_relock : Nearer (.waiting : Pc Id) .relock := by
  constructor <;> simp [rank, lockFree]

theorem rank_le_of_woken (h : t.pc d = p.pc d ∨ p.pc d = .waiting ∧ t.pc d = .relock) :
    rank (t.pc d) ≤ rank (p.pc d) := by
  rcases h with h | ⟨h, h'⟩
  · rw [h]
  · rw [h, h']
    exact nearer_relock.rank_lt.le

theorem lockRank_le_of_woken (h : t.pc d = p.pc d ∨ p.pc d = .waiting ∧ t.pc d = .relock) :
    lockRank (t.pc d) ≤ lockRank (p.pc d) := by
  rcases h with h | ⟨h, h'⟩
  · rw [h]
  · rw [h, h']
    exact nearer_relock.lockRank_le

theorem helps_signal (e : Direction) : Helps d p (p.signal e) .disconnect := by
  have hne : (.disconnect : Action Id) ≠ helperOf d p := by
    unfold helperOf
    split_ifs <;> simp
  have hd' := signal_pc_cases p e d
  have ho' := signal_pc_cases p e d.opposite
  have howner : (p.signal e).owner = p.owner := by
    rcases signal_cases p e with hs | hs <;> rw [hs]
    rfl
  rcases hd' with hpc | ⟨hw, hr⟩
  · rcases ho' with hpc' | ⟨hw', hr'⟩
    · exact .of_same hne hpc howner (by rw [hpc'])
    · left
      unfold stepsLeft
      rw [hpc, hw', hr']
      exact Nat.add_lt_add_left (nearer_relock.lockRank_lt rfl) _
  · left
    have := lockRank_le_of_woken ho'
    have := (@nearer_relock Id).rank_lt
    unfold stepsLeft
    rw [hw, hr]
    omega

section Steps

variable (h : Helped p) (hinv : Inv p) (hdis : p.disconnect = true) (hd : p.pc d ≠ .idle)

include hdis hd

theorem helps_run (hm : Moves p d t) : Helps d p t (.run d) := by
  rcases stays_or_nearer hm hdis with ⟨rfl, hidle | hb⟩ | hnear
  · exact absurd hidle hd
  · refine .of_same ?_ rfl rfl rfl
    unfold helperOf
    rw [if_pos hb]
    exact fun heq => opposite_ne d (Action.run.inj heq).symm
  · left
    have := lockRank_le_of_woken hm.pc_opposite
    have := hnear.rank_lt
    unfold stepsLeft
    omega

include h hinv

theorem helps_run_opposite (hm : Moves p d.opposite t) : Helps d p t (.run d.opposite) := by
  -- a thread that does not work does not help
  have hne : ¬ Working p d.opposite → (.run d.opposite : Action Id) ≠ helperOf d p := by
    intro hnot
    unfold helperOf
    rw [if_neg fun hb => hnot (h.working hinv hdis hb)]
    exact fun heq => opposite_ne d (Action.run.inj heq)
  have hother := hm.pc_opposite
  rw [opposite_opposite] at hother
  rcases stays_or_nearer hm hdis with ⟨rfl, hstays⟩ | hnear
  · refine .of_same (hne fun hw => ?_) rfl rfl rfl
    rcases hstays with hidle | hb
    · have hlock := hw.2
      rw [hidle] at hlock
      cases hlock
    · rw [hw.1] at hb
      cases hb
  · cases hfree : lockFree (p.pc d.opposite) with
    | true =>
      obtain ⟨howner, hpc⟩ := free_moves hm hfree
      rw [opposite_opposite] at hpc
      refine .of_same (hne fun hw => ?_) hpc howner ?_
      · rw [hw.2] at hfree
        cases hfree
      · unfold lockRank
        rw [if_pos (hnear.free hfree), if_pos hfree]
    | false =>
      left
      have := rank_le_of_woken hother
      have := hnear.lockRank_lt hfree
      unfold stepsLeft
      omega

end Steps

theorem helps_call (hdis : p.disconnect = true) (hd : p.pc d ≠ .idle) (c : Call Id) :
    Helps d p (p.step (.call e c.op)) (.call e c) := by
  have hne : (.call e c : Action Id) ≠ helperOf d p := by
    unfold helperOf
    split_ifs <;> simp
  rcases call_cases p e c with hsame | ⟨pc, hidle, hgo, henter⟩
  · rw [hsame]
    exact .of_same hne rfl rfl rfl
  · rw [hgo]
    rcases eq_or_opposite d e with rfl | rfl
    · exact absurd hidle hd
    · refine .of_same hne (goto_pc_of_ne (opposite_ne d).symm _) rfl ?_
      rw [goto_pc_self, hidle]
      cases henter with
      | send x hconnected => exact absurd hdis (by simp [hconnected])
      | next => rfl
      | poll => rfl

theorem helps_step (h : Helped s.pipe) (hheld : Held s) (hdis : s.pipe.disconnect = true)
    (hd : s.pipe.pc d ≠ .idle) : ∀ a, Helps d s.pipe (s.step a).pipe a
  | .call _ c => helps_call hdis hd c
  | .run e => by
    have hm := run_moves hheld.inv (hheld.calls e)
    have hrun : (s.run e).pipe = s.pipe.run e := by cases e <;> rfl
    show Helps d s.pipe (s.run e).pipe (.run e)
    rw [hrun]
    rcases eq_or_opposite d e with rfl | rfl
    · exact helps_run hdis hd hm
    · exact helps_run_opposite h hheld.inv hdis hd hm
  | .disconnect => by
    have hne : (.disconnect : Action Id) ≠ helperOf d s.pipe := by
      unfold helperOf
      split_ifs <;> simp
    show Helps d s.pipe s.disconnect.pipe .disconnect
    unfold Disconnection.disconnect
    cases s.disconnectPc with
    | before => exact .of_same hne rfl rfl rfl
    | broadcastRequest => exact helps_signal .request
    | broadcastReply => exact helps_signal .reply
    | done => exact .of_same hne rfl rfl rfl

theorem step_disconnect (hheld : Held s) (hdis : s.pipe.disconnect = true) :
    ∀ a, (s.step a).pipe.disconnect = true
  | .call d c => by
    show (s.pipe.step (.call d c.op)).disconnect = true
    rcases call_cases s.pipe d c with hsame | ⟨pc, -, hgo, -⟩
    · rw [hsame, hdis]
    · rw [hgo]
      exact hdis
  | .run d => by
    have hm := run_moves hheld.inv (hheld.calls d)
    cases d <;> exact hm.disconnect_eq.trans hdis
  | .disconnect => by
    show s.disconnect.pipe.disconnect = true
    unfold Disconnection.disconnect
    cases s.disconnectPc with
    | before => rfl
    | broadcastRequest =>
      rcases signal_cases s.pipe .request with hs | hs <;> dsimp only <;> rw [hs] <;> exact hdis
    | broadcastReply =>
      rcases signal_cases s.pipe .reply with hs | hs <;> dsimp only <;> rw [hs] <;> exact hdis
    | done => exact hdis

section Schedules

variable (schedule : ℕ → Action Id)

def Fair : Prop := ∀ d n, ∃ m, n ≤ m ∧ schedule m = .run d

def stateOf : ℕ → Disconnection Id := stateAt step {} schedule

variable {schedule}

theorem held_at {n : ℕ} (h : ∀ m < n, (stateOf schedule m).Proper (schedule m)) :
    Held (stateOf schedule n) ∧ Helped (stateOf schedule n).pipe :=
  stateAt_invariant (C := Proper) (fun s => Held s ∧ Helped s.pipe) ⟨.init, .init⟩
    (fun _ _ hs hp => ⟨hs.1.step hp, hs.2.step hs.1 hp⟩) h

theorem returns (h : ∀ m, (stateOf schedule m).Proper (schedule m)) (hfair : Fair schedule)
    {start : ℕ} (hdis : (stateOf schedule start).pipe.disconnect = true) (d : Direction) :
    ∃ m, start ≤ m ∧ (stateOf schedule m).pipe.pc d = .idle := by
  have hall : ∀ n, Held (stateOf schedule n) ∧ Helped (stateOf schedule n).pipe :=
    fun n => held_at fun m _ => h m
  have hdis' : ∀ {n}, start ≤ n → (stateOf schedule n).pipe.disconnect = true := by
    intro n hn
    induction n, hn using Nat.le_induction with
    | base => exact hdis
    | succ n _ ih => exact step_disconnect (hall n).1 ih _
  have hhelp : ∀ n k, ∃ m, k ≤ m ∧ schedule m = helperOf d (stateOf schedule n).pipe := by
    intro n k
    unfold helperOf
    split_ifs
    · exact hfair d.opposite k
    · exact hfair d k
  exact reaches (fun s : Disconnection Id => s.pipe.pc d = .idle) (fun s => stepsLeft d s.pipe)
    (fun s => helperOf d s.pipe) hhelp
    (fun n hn hd => helps_step (hall n).2 (hall n).1 (hdis' hn) hd _) (Nat.le_refl start)

end Schedules

def thenRun (actions : List (Action ℕ)) (n : ℕ) : Action ℕ :=
  actions.getD n (if n % 2 = 0 then .run .request else .run .reply)

theorem thenRun_late {actions : List (Action ℕ)} {n : ℕ} (hn : actions.length ≤ n) :
    thenRun actions n = if n % 2 = 0 then .run .request else .run .reply := by
  unfold thenRun
  rw [List.getD_eq_getElem?_getD, List.getElem?_eq_none hn]
  rfl

theorem fair_thenRun (actions : List (Action ℕ)) : Fair (thenRun actions) := by
  intro d n
  cases d with
  | request =>
    refine ⟨2 * (n + actions.length), by omega, ?_⟩
    rw [thenRun_late (by omega), if_pos (by omega)]
  | reply =>
    refine ⟨2 * (n + actions.length) + 1, by omega, ?_⟩
    rw [thenRun_late (by omega), if_neg (by omega)]

def Quiet (s : Disconnection Id) : Prop := ∀ d, s.pipe.pc d = .idle

theorem Quiet.run (h : Quiet s) (d : Direction) : s.run d = s ∧ s.Proper (.run d) := by
  have hrun : s.pipe.run d = s.pipe := by
    unfold ETObjectPipe.run
    rw [h d]
  have hnil : returnsNil s.pipe = false := by
    unfold returnsNil
    rw [h .reply]
  have hproper : s.pipe.Proper (.run d) := by
    show s.pipe.ProperRun d (s.pipe.pc d)
    rw [h d]
    trivial
  rcases d with _ | _
  · refine ⟨?_, hproper, trivial⟩
    unfold Disconnection.run
    rw [hrun]
  · refine ⟨?_, hproper, fun hr => ?_⟩
    · unfold Disconnection.run
      rw [hrun, hnil, Bool.or_false]
    · rw [hnil] at hr
      cases hr

theorem proper_thenRun {actions : List (Action ℕ)} {n : ℕ} (hn : actions.length ≤ n)
    (hquiet : Quiet (stateOf (thenRun actions) n))
    (h : ∀ m < n, (stateOf (thenRun actions) m).Proper (thenRun actions m)) :
    ∀ m, (stateOf (thenRun actions) m).Proper (thenRun actions m) := by
  have hrun : ∀ m, n ≤ m → ∃ d, thenRun actions m = .run d := by
    intro m hm
    rw [thenRun_late (hn.trans hm)]
    split_ifs
    · exact ⟨_, rfl⟩
    · exact ⟨_, rfl⟩
  have hstay : ∀ m, n ≤ m → Quiet (stateOf (thenRun actions) m) := by
    intro m hm
    induction m, hm using Nat.le_induction with
    | base => exact hquiet
    | succ m hm ih =>
      obtain ⟨d, hd⟩ := hrun m hm
      show Quiet ((stateOf (thenRun actions) m).step (thenRun actions m))
      rw [hd, show (stateOf (thenRun actions) m).step (.run d) = _ from (ih.run d).1]
      exact ih
  intro m
  rcases Nat.lt_or_ge m n with hm | hm
  · exact h m hm
  · obtain ⟨d, hd⟩ := hrun m hm
    rw [hd]
    exact ((hstay m hm).run d).2

/-- A request is being sent and one is being taken when the pipe is disconnected. -/
def busyAtDisconnect : List (Action ℕ) :=
  .call .request (.send (some 1)) :: List.replicate 3 (.run .request)
    ++ .call .reply .next :: .run .reply :: List.replicate 3 .disconnect

/-- The threads are not both behind the lock of a condition, one that sleeps with something to
receive is about to be woken, and none goes on only where both wait and nothing is in the pipe. -/
structure Exclusive (p : ETObjectPipe Id) : Prop where
  alone : ∀ d d' e, lockOf d (p.pc d) = some e → lockOf d' (p.pc d') = some e → d = d'
  woken : ∀ d, sleeps (p.pc d) = true → Woken p d.opposite
  stuck : (∀ d, p.blocked d = true) → ∀ d, p.pc d = .waiting ∧ p.delivered d = p.sent d

theorem Helped.waiting_of_blocked (h : Helped p) (hb : ∀ d, p.blocked d = true) (d : Direction) :
    p.pc d = .waiting := by
  by_contra hpc
  obtain ⟨e, hnot, howner⟩ : ∃ e, lockOf d (p.pc d) = none ∧ (p.owner e).isSome = true := by
    have hbd := hb d
    unfold blocked at hbd
    split at hbd
    · contradiction
    all_goals first | exact ⟨_, by simp_all [lockOf], hbd⟩ | cases hbd
  have hfree := (h.working_of_owner hnot howner).1
  rw [hb] at hfree
  cases hfree

/-- The replier waits for a request when the pipe is disconnected; woken by that, it takes one. -/
def waitingAtDisconnect : List (Action ℕ) :=
  .call .reply .next :: List.replicate 5 (.run .reply)
    ++ List.replicate 2 .disconnect ++ List.replicate 5 (.run .reply)

end Etoile.EtoileThread.Disconnection
