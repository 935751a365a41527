import Mathlib.Algebra.Order.BigOperators.Group.Finset
import Etoile.EtoileThread.ETThreadProxyReturn

/-!
# Futures that are delivered

Whoever has seen that there is no object waits for it under the lock, so it is not set in between.
As long as the one signal is enough for those that wait, and none of them wakes up too early, every
thread finds the object and returns.  Once it is set, nobody takes the lock who has not been on its
way there, so a thread that is held up has its turn in the end.
-/

namespace Etoile.EtoileThread.ETThreadProxyReturn

open Function List Option

variable {T Id : Type} [DecidableEq T] {s : ETThreadProxyReturn T Id} {t u : T} {k : ℕ}
  {x y : ProxyPc Id}

section Safety

def Knows (object : Option Id) : ProxyPc Id → Prop
  | .wait | .setLock _ | .setObject _ => object = none
  | .relock | .unlock | .read | .setSignal | .setUnlock => object ≠ none
  | .idle | .outerTest | .test | .lock | .testLocked | .waiting => True

def setting : ProxyPc Id → Bool
  | .setLock _ | .setObject _ | .setSignal | .setUnlock => true
  | _ => false

/-- The threads know what they are to know about the object, and once it is set, those that wait
are about to be woken. -/
structure Inv (s : ETThreadProxyReturn T Id) : Prop where
  mutex : Mutex ProxyPc.locked s.mutex s.pc
  waiting : ∀ t, t ∈ s.conditionVariable ↔ s.pc t = .waiting
  setter : ∀ t, setting (s.pc t) = true → s.setter = some t
  unset : s.setter = none → s.object = none
  knows : ∀ t, Knows s.object (s.pc t)
  signalled : s.object ≠ none → ∀ t, s.pc t = .waiting → ∃ u, s.pc u = .setSignal
  returned : ∀ r ∈ s.returned, ∃ v, s.object = some v ∧ r.2 = some v

omit [DecidableEq T] in
theorem inv_init : Inv ({} : ETThreadProxyReturn T Id) where
  mutex := fun _ => by simp [ProxyPc.locked]
  waiting := fun _ => by simp
  setter := fun _ hsetting => by cases hsetting
  unset := fun _ => rfl
  knows := fun _ => trivial
  signalled := fun hset => absurd rfl hset
  returned := by simp

theorem update_cases {P : T → ProxyPc Id → Prop} {pc : T → ProxyPc Id} (hself : P t y)
    (hothers : ∀ u, u ≠ t → P u (pc u)) (u : T) : P u (update pc t y u) := by
  by_cases hu : u = t
  · subst hu
    rw [update_self]
    exact hself
  · rw [update_of_ne hu]
    exact hothers u hu

namespace Inv

variable (h : Inv s)

include h

/-- A thread that neither goes to wait nor comes from there goes on, and does not leave the threads
that wait without their signal. -/
theorem moves {owner : Option T} (hmutex : Mutex ProxyPc.locked owner (update s.pc t y))
    (hx : s.pc t ≠ .waiting) (hy : y ≠ .waiting)
    (hsignal : s.pc t ≠ .setSignal ∨ ∀ u, s.pc u ≠ .waiting)
    (hsetter : setting y = true → s.setter = some t) (hknows : Knows s.object y) :
    Inv ((s.lockedBy owner).goto t y) where
  mutex := hmutex
  waiting := update_cases (P := fun u pc => u ∈ s.conditionVariable ↔ pc = .waiting)
    (iff_of_false (mt (h.waiting t).1 hx) hy) fun u _ => h.waiting u
  setter := update_cases (P := fun u pc => setting pc = true → s.setter = some u) hsetter
    fun u _ => h.setter u
  unset := h.unset
  knows := update_cases (P := fun _ pc => Knows s.object pc) hknows fun u _ => h.knows u
  signalled := by
    intro hset u hu
    change update s.pc t y u = .waiting at hu
    have hwaits : s.pc u = .waiting := by
      by_cases heq : u = t
      · rw [heq, update_self] at hu
        exact absurd hu hy
      · rwa [update_of_ne heq] at hu
    rcases hsignal with hne | hnobody
    · obtain ⟨v, hv⟩ := h.signalled hset u hwaits
      have hvt : v ≠ t := fun heq => hne (heq ▸ hv)
      exact ⟨v, (update_of_ne hvt ..).trans hv⟩
    · exact absurd hwaits (hnobody u)
  returned := h.returned

theorem goes (hlocked : y.locked = (s.pc t).locked) (hx : s.pc t ≠ .waiting) (hy : y ≠ .waiting)
    (hsignal : s.pc t ≠ .setSignal ∨ ∀ u, s.pc u ≠ .waiting)
    (hsetter : setting y = true → s.setter = some t) (hknows : Knows s.object y) :
    Inv (s.goto t y) :=
  h.moves (h.mutex.stay hlocked) hx hy hsignal hsetter hknows

theorem takes (hlocked : y.locked = true) (hx : (s.pc t).locked = false) (hx' : s.pc t ≠ .waiting)
    (hsetter : setting y = true → s.setter = some t) (hknows : Knows s.object y) :
    Inv (s.takes t y) := by
  unfold ETThreadProxyReturn.takes
  split_ifs with hfree
  · refine h.moves ((hfree ▸ h.mutex).take hlocked) hx' ?_ (.inl ?_) hsetter hknows
    · rintro rfl
      cases hlocked
    · intro hpc
      rw [hpc] at hx
      cases hx
  · exact h

theorem waits (hpc : s.pc t = .wait) : Inv (((s.waits t).lockedBy none).goto t .waiting) where
  mutex := h.mutex.free (by rw [hpc]; rfl) rfl
  waiting := update_cases (P := fun u pc => u ∈ t :: s.conditionVariable ↔ pc = .waiting)
    (by simp) fun u hu => by rw [mem_cons, h.waiting u, or_iff_right hu]; rfl
  setter := update_cases (P := fun u pc => setting pc = true → s.setter = some u)
    (fun hsetting => by cases hsetting) fun u _ => h.setter u
  unset := h.unset
  knows := update_cases (P := fun _ pc => Knows s.object pc) trivial fun u _ => h.knows u
  signalled := fun hset => by
    have hnone : Knows s.object .wait := hpc ▸ h.knows t
    exact absurd hnone hset
  returned := h.returned

theorem sets {v : Id} (hpc : s.pc t = .setObject v) : Inv ((s.setObject v).goto t .setSignal) := by
  have hnone : s.object = none := by
    have : Knows s.object (.setObject v) := hpc ▸ h.knows t
    exact this
  have hsetter : s.setter = some t := h.setter t (by rw [hpc]; rfl)
  have hlocked : (s.pc t).locked = true := by rw [hpc]; rfl
  have hothers : ∀ u, u ≠ t → Knows (some v) (s.pc u) := by
    intro u hu
    have hknows := h.knows u
    have hmutex := mt (h.mutex.eq_of_holds · hlocked) hu
    have hset := mt (h.setter u) fun heq => hu (some.inj (heq.symm.trans hsetter))
    rw [hnone] at hknows
    cases hx : s.pc u with
    | wait | setObject => rw [hx] at hmutex; exact absurd rfl hmutex
    | setLock => rw [hx] at hset; exact absurd rfl hset
    | relock | unlock | read | setSignal | setUnlock => rw [hx] at hknows; exact absurd rfl hknows
    | idle | outerTest | test | lock | testLocked | waiting => trivial
  exact
    { mutex := h.mutex.stay (by rw [hpc]; rfl)
      waiting := update_cases (P := fun u pc => u ∈ s.conditionVariable ↔ pc = .waiting)
        (iff_of_false (mt (h.waiting t).1 (by rw [hpc]; nofun))
          nofun) fun u _ => h.waiting u
      setter := update_cases (P := fun u pc => setting pc = true → s.setter = some u)
        (fun _ => hsetter) fun u _ => h.setter u
      unset := fun hunset => by
        change s.setter = none at hunset
        rw [hsetter] at hunset
        cases hunset
      knows := update_cases (P := fun _ pc => Knows (some v) pc) (by simp [Knows]) hothers
      signalled := fun _ _ _ => ⟨t, update_self ..⟩
      returned := fun r hr => by
        obtain ⟨w, hw, -⟩ := h.returned r hr
        rw [hnone] at hw
        cases hw }

theorem wakes (hpc : s.pc t = .waiting) (hset : s.object ≠ none) : Inv (s.wake t) where
  mutex := h.mutex.stay (by rw [hpc]; rfl)
  waiting := update_cases
    (P := fun u pc => u ∈ s.conditionVariable.filter (· ≠ t) ↔ pc = .waiting)
    (by simp) fun u hu => by simp [h.waiting u, hu]
  setter := update_cases (P := fun u pc => setting pc = true → s.setter = some u)
    (fun hsetting => by cases hsetting) fun u _ => h.setter u
  unset := h.unset
  knows := update_cases (P := fun _ pc => Knows s.object pc) hset fun u _ => h.knows u
  signalled := fun _ _ _ => by
    obtain ⟨v, hv⟩ := h.signalled hset t hpc
    have hvt : v ≠ t := by
      rintro rfl
      rw [hpc] at hv
      cases hv
    exact ⟨v, (update_of_ne hvt ..).trans hv⟩
  returned := h.returned

theorem signals (hpc : s.pc t = .setSignal) (hlen : s.conditionVariable.length ≤ 1) (woken : ℕ) :
    Inv ((s.signal woken).goto t .setUnlock) := by
  have hset : s.object ≠ none := by
    have : Knows s.object .setSignal := hpc ▸ h.knows t
    exact this
  have hsetter : s.setter = some t := h.setter t (by rw [hpc]; rfl)
  match hwaits : s.conditionVariable, hlen with
  | [], _ =>
    have hsignal : s.signal woken = s := by
      unfold ETThreadProxyReturn.signal
      rw [hwaits]
      rfl
    rw [hsignal]
    refine h.goes (by rw [hpc]; rfl) (by rw [hpc]; nofun)
      nofun (.inr fun u hu => ?_) (fun _ => hsetter) hset
    have := (h.waiting u).2 hu
    rw [hwaits] at this
    cases this
  | [w], _ =>
    have hw : s.pc w = .waiting := (h.waiting w).1 (by rw [hwaits]; exact mem_singleton_self w)
    have hwt : t ≠ w := by
      rintro rfl
      rw [hpc] at hw
      cases hw
    have hsignal : s.signal woken = s.wake w := by
      unfold ETThreadProxyReturn.signal
      rw [hwaits, length_singleton, Nat.mod_one]
      rfl
    have hwake := h.wakes hw hset
    have hpc' : (s.wake w).pc t = .setSignal := (update_of_ne hwt ..).trans hpc
    rw [hsignal]
    refine hwake.goes (by rw [hpc']; rfl) (by rw [hpc']; nofun)
      nofun (.inr fun u hu => ?_) (fun _ => hsetter) hset
    have := (hwake.waiting u).2 hu
    change u ∈ s.conditionVariable.filter (· ≠ w) at this
    rw [hwaits] at this
    simp at this

theorem answers (hpc : s.pc t = .read) : Inv ((s.answer t).goto t .idle) := by
  have hset : Knows s.object .read := hpc ▸ h.knows t
  obtain ⟨v, hv⟩ := ne_none_iff_exists'.1 hset
  have hanswer : Inv (s.answer t) :=
    { h with
      returned := fun r hr => by
        rcases mem_cons.1 hr with rfl | hr
        · exact ⟨v, hv, hv⟩
        · exact h.returned r hr }
  refine hanswer.goes ?_ ?_ nofun (.inl ?_) (fun hsetting => by cases hsetting) trivial
  · show _ = (s.pc t).locked
    rw [hpc]
    rfl
  · show s.pc t ≠ _
    rw [hpc]
    nofun
  · show s.pc t ≠ _
    rw [hpc]
    nofun

theorem starts (hpc : s.pc t = .idle) (hunset : s.setter = none) (v : Id) :
    Inv (({ s with setter := some t } : ETThreadProxyReturn T Id).goto t (.setLock v)) where
  mutex := h.mutex.stay (by rw [hpc]; rfl)
  waiting := update_cases (P := fun u pc => u ∈ s.conditionVariable ↔ pc = .waiting)
    (iff_of_false (mt (h.waiting t).1 (by rw [hpc]; nofun)) nofun) fun u _ => h.waiting u
  setter := update_cases (P := fun u pc => setting pc = true → some t = some u) (fun _ => rfl)
    fun u _ hsetting => by
      have := h.setter u hsetting
      rw [hunset] at this
      cases this
  unset := nofun
  knows := update_cases (P := fun _ pc => Knows s.object pc) (h.unset hunset) fun u _ => h.knows u
  signalled := fun hset => absurd (h.unset hunset) hset
  returned := h.returned

theorem go (hproper : s.Proper (.go t k)) : Inv (s.go t k) := by
  have hknows := h.knows t
  have hsetter := h.setter t
  unfold ETThreadProxyReturn.go
  split <;> rename_i hpc <;> rw [hpc] at hknows hsetter
  · exact h
  · refine h.goes ?_ (by rw [hpc]; nofun) ?_ (.inl (by rw [hpc]; nofun)) ?_ ?_ <;>
      cases hobject : s.object <;> simp [hpc, ProxyPc.locked, setting, Knows]
  · refine h.goes ?_ (by rw [hpc]; nofun) ?_ (.inl (by rw [hpc]; nofun)) ?_ ?_ <;>
      cases hobject : s.object <;> simp [hpc, ProxyPc.locked, setting, Knows]
  · exact h.takes rfl (by rw [hpc]; rfl) (by rw [hpc]; nofun) nofun trivial
  · refine h.goes ?_ (by rw [hpc]; nofun) ?_ (.inl (by rw [hpc]; nofun)) ?_ ?_ <;>
      cases hobject : s.object <;> simp [hpc, ProxyPc.locked, setting, Knows]
  · exact h.waits hpc
  · exact h
  · exact h.takes rfl (by rw [hpc]; rfl) (by rw [hpc]; nofun) nofun hknows
  · exact h.moves (h.mutex.free (by rw [hpc]; rfl) rfl) (by rw [hpc]; nofun) nofun
      (.inl (by rw [hpc]; nofun)) nofun hknows
  · exact h.answers hpc
  · exact h.takes rfl (by rw [hpc]; rfl) (by rw [hpc]; nofun) (fun _ => hsetter rfl) hknows
  · exact h.sets hpc
  · exact h.signals hpc (hproper hpc) k
  · exact h.moves (h.mutex.free (by rw [hpc]; rfl) rfl) (by rw [hpc]; nofun) nofun
      (.inl (by rw [hpc]; nofun)) nofun trivial

theorem step : ∀ a : ProxyAction T Id, s.Proper a → Inv (s.step a)
  | .value t, _ => by
    simp only [ETThreadProxyReturn.step]
    split
    · rename_i hpc
      exact h.goes (by rw [hpc]; rfl) (by rw [hpc]; nofun) nofun (.inl (by rw [hpc]; nofun))
        nofun trivial
    · exact h
  | .forwardInvocation t, _ => by
    simp only [ETThreadProxyReturn.step]
    split
    · rename_i hpc
      exact h.goes (by rw [hpc]; rfl) (by rw [hpc]; nofun) nofun (.inl (by rw [hpc]; nofun))
        nofun trivial
    · exact h
  | .setProxyObject t v, _ => by
    simp only [ETThreadProxyReturn.step]
    split
    · rename_i hpc hunset
      exact h.starts hpc hunset v
    · exact h
  | .go t k, hproper => h.go hproper
  | .wakeUp t, hproper => by
    simp only [ETThreadProxyReturn.step]
    split
    · rename_i hpc
      exact h.wakes hpc (hproper hpc)
    · exact h

end Inv

end Safety

section Returning

/-- How many steps of its own a thread may still need once there is an object. -/
def rank : ProxyPc Id → ℕ
  | .idle => 0
  | .read | .setUnlock => 1
  | .unlock | .setSignal => 2
  | .relock | .setObject _ => 3
  | .waiting | .setLock _ => 4
  | .wait => 5
  | .testLocked => 6
  | .lock => 7
  | .test => 8
  | .outerTest => 9

def lockFree : ProxyPc Id → Bool
  | .idle | .outerTest | .test | .read => true
  | _ => false

def lockRank (x : ProxyPc Id) : ℕ := if lockFree x then 0 else rank x

/-- A thread stays, comes nearer to its return, or starts a call that takes no lock. -/
inductive Moves (x y : ProxyPc Id) : Prop
  | stays (h : y = x)
  | nears (hrank : rank y < rank x) (hfree : lockFree x = true → lockFree y = true)
  | starts (hx : x = .idle) (hy : lockFree y = true)

theorem Moves.lockRank_le (h : Moves x y) : lockRank y ≤ lockRank x := by
  cases h with
  | stays h => rw [h]
  | nears hrank hfree =>
    unfold lockRank
    split_ifs with hy hx hx
    · exact le_rfl
    · exact Nat.zero_le _
    · exact absurd (hfree hx) hy
    · exact hrank.le
  | starts hx hy =>
    unfold lockRank
    rw [if_pos hy]
    exact Nat.zero_le _

theorem Moves.lockRank_lt (h : Moves x y) (hne : y ≠ x) (hx : lockFree x = false) :
    lockRank y < lockRank x := by
  cases h with
  | stays h => exact absurd h hne
  | nears hrank hfree =>
    have hx' : ¬ lockFree x = true := by simp [hx]
    unfold lockRank
    rw [if_neg hx']
    split_ifs
    · exact Nat.zero_lt_of_lt hrank
    · exact hrank
  | starts hidle hy =>
    rw [hidle] at hx
    cases hx

theorem Moves.rank_lt (h : Moves x y) (hne : y ≠ x) (hx : x ≠ .idle) : rank y < rank x := by
  cases h with
  | stays h => exact absurd h hne
  | nears hrank hfree => exact hrank
  | starts hidle hy => exact absurd hidle hx

/-- What a step does once there is an object.  Only a thread that may need the lock takes it or
releases it. -/
structure Progress (s s' : ETThreadProxyReturn T Id) : Prop where
  moves : ∀ u, Moves (s.pc u) (s'.pc u)
  mutex : (∀ u, lockFree (s.pc u) = false → s'.pc u = s.pc u) → s'.mutex = s.mutex
  object : s'.object = s.object

omit [DecidableEq T] in
theorem Progress.refl (s : ETThreadProxyReturn T Id) : Progress s s :=
  ⟨fun _ => .stays rfl, fun _ => rfl, rfl⟩

theorem progress_goto (hmoves : Moves (s.pc t) y) : Progress s (s.goto t y) :=
  ⟨update_cases (P := fun u pc => Moves (s.pc u) pc) hmoves fun _ _ => .stays rfl,
    fun _ => rfl, rfl⟩

theorem progress_lockedBy {owner : Option T} (hmoves : Moves (s.pc t) y)
    (hx : lockFree (s.pc t) = false) (hne : y ≠ s.pc t) :
    Progress s ((s.lockedBy owner).goto t y) :=
  ⟨update_cases (P := fun u pc => Moves (s.pc u) pc) hmoves fun _ _ => .stays rfl,
    fun hsame => absurd ((update_self ..).symm.trans (hsame t hx)) hne, rfl⟩

theorem progress_takes (hmoves : Moves (s.pc t) y) (hx : lockFree (s.pc t) = false)
    (hne : y ≠ s.pc t) : Progress s (s.takes t y) := by
  unfold takes
  split_ifs
  · exact progress_lockedBy hmoves hx hne
  · exact .refl s

theorem progress_wake (hpc : s.pc t = .waiting) : Progress s (s.wake t) := by
  refine ⟨update_cases (P := fun u pc => Moves (s.pc u) pc) ?_ fun _ _ => .stays rfl,
    fun _ => rfl, rfl⟩
  rw [hpc]
  exact .nears (by simp [rank]) nofun

variable (h : Inv s)

include h

theorem progress_signal (hpc : s.pc t = .setSignal) (woken : ℕ) :
    Progress s ((s.signal woken).goto t .setUnlock) := by
  have hsignal : Progress s (s.signal woken) ∧ (s.signal woken).pc t = .setSignal
      ∧ (s.signal woken).mutex = s.mutex := by
    unfold signal
    split
    · exact ⟨.refl s, hpc, rfl⟩
    · rename_i w hw
      have hwaits := (h.waiting w).1 (mem_of_getElem? hw)
      refine ⟨progress_wake hwaits, (update_of_ne ?_ ..).trans hpc, rfl⟩
      rintro rfl
      rw [hpc] at hwaits
      cases hwaits
  obtain ⟨hprogress, hpc', hmutex⟩ := hsignal
  refine ⟨update_cases (P := fun u pc => Moves (s.pc u) pc) ?_ fun u _ => hprogress.moves u,
    fun _ => hmutex, hprogress.object⟩
  rw [hpc]
  exact .nears (by simp [rank]) nofun

theorem progress_go (hset : s.object ≠ none) : Progress s (s.go t k) := by
  have hknows := h.knows t
  obtain ⟨v, hv⟩ := ne_none_iff_exists'.1 hset
  unfold go
  split <;> rename_i hpc <;> rw [hpc] at hknows
  · exact .refl s
  · refine progress_goto ?_
    rw [hpc, hv]
    exact .nears (by simp [rank]) fun _ => rfl
  · refine progress_goto ?_
    rw [hpc, hv]
    exact .nears (by simp [rank]) fun _ => rfl
  · exact progress_takes (hpc ▸ .nears (by simp [rank]) nofun) (hpc ▸ rfl) (hpc ▸ nofun)
  · refine progress_goto ?_
    rw [hpc, hv]
    exact .nears (by simp [rank]) nofun
  · exact absurd hknows hset
  · exact .refl s
  · exact progress_takes (hpc ▸ .nears (by simp [rank]) nofun) (hpc ▸ rfl) (hpc ▸ nofun)
  · exact progress_lockedBy (hpc ▸ .nears (by simp [rank]) nofun) (hpc ▸ rfl) (hpc ▸ nofun)
  · refine ⟨update_cases (P := fun u pc => Moves (s.pc u) pc) ?_ fun _ _ => .stays rfl,
      fun _ => rfl, rfl⟩
    rw [hpc]
    exact .nears (by simp [rank]) fun _ => rfl
  · exact absurd hknows hset
  · exact absurd hknows hset
  · exact progress_signal h hpc k
  · exact progress_lockedBy (hpc ▸ .nears (by simp [rank]) nofun) (hpc ▸ rfl) (hpc ▸ nofun)

theorem progress_step (hset : s.object ≠ none) : ∀ a : ProxyAction T Id, Progress s (s.step a)
  | .value t => by
    simp only [step]
    split
    · rename_i hpc
      exact progress_goto (.starts hpc rfl)
    · exact .refl s
  | .forwardInvocation t => by
    simp only [step]
    split
    · rename_i hpc
      exact progress_goto (.starts hpc rfl)
    · exact .refl s
  | .setProxyObject t v => by
    simp only [step]
    split
    · rename_i hunset
      exact absurd (h.unset hunset) hset
    · exact .refl s
  | .go t k => progress_go h hset
  | .wakeUp t => by
    simp only [step]
    split
    · rename_i hpc
      exact progress_wake hpc
    · exact .refl s

theorem go_changes (hset : s.object ≠ none) (hidle : s.pc t ≠ .idle) (hwaits : s.pc t ≠ .waiting)
    (hlock : s.pc t = .lock ∨ s.pc t = .relock → s.mutex = none) : (s.go t k).pc t ≠ s.pc t := by
  have hknows := h.knows t
  obtain ⟨v, hv⟩ := ne_none_iff_exists'.1 hset
  have hgoto : ∀ {s' : ETThreadProxyReturn T Id} {y}, y ≠ s.pc t → (s'.goto t y).pc t ≠ s.pc t := by
    intro s' y hne
    show update s'.pc t y t ≠ s.pc t
    rw [update_self]
    exact hne
  unfold go
  split <;> rename_i hpc <;> rw [hpc] at hknows
  · exact absurd hpc hidle
  · exact hgoto (by rw [hpc, hv]; nofun)
  · exact hgoto (by rw [hpc, hv]; nofun)
  · unfold takes
    rw [if_pos (hlock (.inl hpc))]
    exact hgoto (by rw [hpc]; nofun)
  · exact hgoto (by rw [hpc, hv]; nofun)
  · exact hgoto (by rw [hpc]; nofun)
  · exact absurd hpc hwaits
  · unfold takes
    rw [if_pos (hlock (.inr hpc))]
    exact hgoto (by rw [hpc]; nofun)
  · exact hgoto (by rw [hpc]; nofun)
  · exact hgoto (by rw [hpc]; nofun)
  · exact absurd hknows hset
  · exact absurd hknows hset
  · exact hgoto (by rw [hpc]; nofun)
  · exact hgoto (by rw [hpc]; nofun)

omit h in
/-- Who has to go on so that the thread can: itself, or the owner of the lock. -/
def helper (t : T) (s : ETThreadProxyReturn T Id) : T :=
  match s.pc t with
  | .lock | .relock | .waiting => s.mutex.getD t
  | _ => t

theorem helper_changes (hset : s.object ≠ none) (hidle : s.pc t ≠ .idle) :
    (s.go (helper t s) k).pc (helper t s) ≠ s.pc (helper t s) ∧
      (helper t s = t ∨ lockFree (s.pc (helper t s)) = false) := by
  have howner : ∀ u, s.mutex = some u → (s.go u k).pc u ≠ s.pc u ∧ lockFree (s.pc u) = false := by
    intro u hu
    have hlocked := (h.mutex u).1 hu
    refine ⟨go_changes h hset ?_ ?_ ?_, ?_⟩
    · intro hpc
      rw [hpc] at hlocked
      cases hlocked
    · intro hpc
      rw [hpc] at hlocked
      cases hlocked
    · rintro (hpc | hpc) <;>
      · rw [hpc] at hlocked
        cases hlocked
    · cases hpc : s.pc u <;> rw [hpc] at hlocked <;> first | rfl | cases hlocked
  unfold helper
  split
  · rename_i hpc
    cases hmutex : s.mutex with
    | none => exact ⟨go_changes h hset hidle (hpc ▸ nofun) fun _ => hmutex, .inl rfl⟩
    | some u => exact ⟨(howner u hmutex).1, .inr (howner u hmutex).2⟩
  · rename_i hpc
    cases hmutex : s.mutex with
    | none => exact ⟨go_changes h hset hidle (hpc ▸ nofun) fun _ => hmutex, .inl rfl⟩
    | some u => exact ⟨(howner u hmutex).1, .inr (howner u hmutex).2⟩
  · rename_i hpc
    obtain ⟨u, hu⟩ := h.signalled hset t hpc
    have hmutex : s.mutex = some u := (h.mutex u).2 (by rw [hu]; rfl)
    rw [hmutex]
    exact ⟨(howner u hmutex).1, .inr (howner u hmutex).2⟩
  · rename_i hlock hrelock hwaiting
    refine ⟨go_changes h hset hidle hwaiting ?_, .inl rfl⟩
    rintro (hpc | hpc)
    · exact absurd hpc hlock
    · exact absurd hpc hrelock

variable [Fintype T]

omit h in
/-- The steps that the thread may still need, and those of all threads that may need the lock. -/
def stepsLeft (t : T) (s : ETThreadProxyReturn T Id) : ℕ :=
  ∑ u, lockRank (s.pc u) + rank (s.pc t)

/-- A step helps a thread on, or leaves things as they are for the one that does. -/
theorem step_helps (hset : s.object ≠ none) (hidle : s.pc t ≠ .idle) (a : ProxyAction T Id) :
    stepsLeft t (s.step a) < stepsLeft t s ∨ a.thread ≠ some (helper t s)
      ∧ stepsLeft t (s.step a) = stepsLeft t s ∧ helper t (s.step a) = helper t s := by
  have hprogress := progress_step h hset a
  have hle : ∑ u, lockRank ((s.step a).pc u) ≤ ∑ u, lockRank (s.pc u) :=
    Finset.sum_le_sum fun u _ => (hprogress.moves u).lockRank_le
  by_cases hself : (s.step a).pc t = s.pc t
  · by_cases hothers : ∀ u, lockFree (s.pc u) = false → (s.step a).pc u = s.pc u
    · right
      refine ⟨?_, ?_, ?_⟩
      · intro hthread
        obtain ⟨k, rfl⟩ : ∃ k, a = .go (helper t s) k := by
          cases a with
          | go u k =>
            obtain rfl := some.inj hthread
            exact ⟨k, rfl⟩
          | _ => cases hthread
        obtain ⟨hchanges, heq | hfree⟩ := @helper_changes _ _ _ s t k h hset hidle
        · rw [heq] at hchanges hself
          exact hchanges hself
        · exact hchanges (hothers _ hfree)
      · have hsame : ∀ u, lockRank ((s.step a).pc u) = lockRank (s.pc u) := by
          intro u
          cases hfree : lockFree (s.pc u) with
          | false => rw [hothers u hfree]
          | true =>
            have hzero : lockRank (s.pc u) = 0 := if_pos hfree
            exact Nat.le_antisymm (hprogress.moves u).lockRank_le (hzero ▸ Nat.zero_le _)
        unfold stepsLeft
        rw [hself, Finset.sum_congr rfl fun u _ => hsame u]
      · unfold helper
        rw [hself, hprogress.mutex hothers]
    · left
      push Not at hothers
      obtain ⟨u, hfree, hne⟩ := hothers
      have hlt : ∑ u, lockRank ((s.step a).pc u) < ∑ u, lockRank (s.pc u) :=
        Finset.sum_lt_sum (fun u _ => (hprogress.moves u).lockRank_le)
          ⟨u, Finset.mem_univ u, (hprogress.moves u).lockRank_lt hne hfree⟩
      unfold stepsLeft
      rw [hself]
      omega
  · left
    have hlt := (hprogress.moves t).rank_lt hself hidle
    unfold stepsLeft
    omega

end Returning

section Schedules

variable {schedule : ℕ → ProxyAction T Id}

theorem inv_stateAt (hproper : ∀ n, (stateAt step {} schedule n).Proper (schedule n)) (n : ℕ) :
    Inv (stateAt step {} schedule n) :=
  stateAt_invariant Inv inv_init (fun _ a h ha => h.step a ha) fun m _ => hproper m

theorem object_stateAt (hproper : ∀ n, (stateAt step {} schedule n).Proper (schedule n)) {n m : ℕ}
    (hset : (stateAt step {} schedule n).object ≠ none) (hm : n ≤ m) :
    (stateAt step {} schedule m).object ≠ none := by
  induction hm with
  | refl => exact hset
  | step _ ih =>
    show (ETThreadProxyReturn.step _ _).object ≠ none
    rw [(progress_step (inv_stateAt hproper _) ih _).object]
    exact ih

/-- Threads that come on again and again have the value delivered, if none wakes up before there
is one and no more than one waits when it is set. -/
theorem delivers_of_proper [Fintype T] (schedule : ℕ → ProxyAction T Id) (hfair : Fair schedule)
    (hproper : ∀ n, (stateAt step {} schedule n).Proper (schedule n)) : Delivers schedule := by
  refine ⟨fun n => (inv_stateAt hproper n).returned, fun n t hset => ?_⟩
  refine reaches (x := stateAt step {} schedule) (fun s => s.pc t = .idle) (stepsLeft t)
    (fun s => some (helper t s)) (fun _ k => hfair _ k) (fun m hm hidle => ?_) le_rfl
  rcases step_helps (inv_stateAt hproper m) (object_stateAt hproper hset hm) hidle (schedule m)
    with hlt | ⟨hne, heq, hhelper⟩
  · exact .inl hlt
  · exact .inr ⟨hne, heq, congrArg some hhelper⟩

omit [DecidableEq T] in
def inTurn (first : List (ProxyAction (Fin 3) Id)) (n : ℕ) : ProxyAction (Fin 3) Id :=
  first[n]?.getD (.go (Fin.ofNat 3 n) 0)

theorem inTurn_after {first : List (ProxyAction (Fin 3) Id)} {n : ℕ} (hn : first.length ≤ n) :
    inTurn first n = .go (Fin.ofNat 3 n) 0 := by
  unfold inTurn
  rw [getElem?_eq_none hn]
  rfl

theorem fair_inTurn (first : List (ProxyAction (Fin 3) Id)) : Fair (inTurn first) := by
  intro t k
  refine ⟨3 * (first.length + k) + t, by omega, ?_⟩
  rw [inTurn_after (by omega)]
  show some (Fin.ofNat 3 _) = some t
  refine congrArg some (Fin.ext ?_)
  show (3 * (first.length + k) + t) % 3 = t
  omega

theorem stateAt_inTurn {first : List (ProxyAction (Fin 3) Id)}
    (hrest : ∀ t, (stateAt step {} (inTurn first) first.length).pc t = .idle
      ∨ (stateAt step {} (inTurn first) first.length).pc t = .waiting) : ∀ j,
    stateAt step {} (inTurn first) (first.length + j)
      = stateAt step {} (inTurn first) first.length
  | 0 => rfl
  | j + 1 => by
    show (stateAt step {} (inTurn first) (first.length + j)).step
      (inTurn first (first.length + j)) = _
    rw [stateAt_inTurn hrest j, inTurn_after (Nat.le_add_right _ j)]
    show go _ _ _ = _
    unfold go
    rcases hrest (Fin.ofNat 3 (first.length + j)) with hpc | hpc <;> rw [hpc]

def oneWaits : List (ProxyAction (Fin 3) ℕ) :=
  .value 0 :: replicate 4 (.go 0 0) ++ .setProxyObject 2 7 :: replicate 4 (.go 2 0)
    ++ replicate 3 (.go 0 0) ++ [.forwardInvocation 1, .go 1 0, .go 1 0]

theorem delivers_oneWaits :
    (stateAt step {} (inTurn oneWaits) oneWaits.length).returned = [(1, some 7), (0, some 7)]
      ∧ Delivers (inTurn oneWaits) := by
  refine ⟨by decide, delivers_of_proper _ (fair_inTurn _) fun n => ?_⟩
  by_cases hn : n < oneWaits.length
  · have hall : ∀ n < oneWaits.length,
        (stateAt step {} (inTurn oneWaits) n).Proper (inTurn oneWaits n) := by decide
    exact hall n hn
  · obtain ⟨j, rfl⟩ := Nat.exists_eq_add_of_le (Nat.not_lt.1 hn)
    have hrest : ∀ t, (stateAt step {} (inTurn oneWaits) oneWaits.length).pc t = .idle := by decide
    rw [stateAt_inTurn (fun t => .inl (hrest t)), inTurn_after (Nat.le_add_right _ j)]
    intro hpc
    rw [hrest] at hpc
    cases hpc

def twoWait : List (ProxyAction (Fin 3) ℕ) :=
  .value 0 :: replicate 4 (.go 0 0) ++ .value 1 :: replicate 4 (.go 1 0)
    ++ .setProxyObject 2 7 :: replicate 4 (.go 2 0) ++ replicate 3 (.go 1 0)

theorem twoWait_not_delivers :
    ¬ ∀ schedule : ℕ → ProxyAction (Fin 3) ℕ, Fair schedule → Delivers schedule := by
  intro h
  obtain ⟨m, hm, hidle⟩ := (h (inTurn twoWait) (fair_inTurn _)).returns twoWait.length 0
    (by decide)
  obtain ⟨j, rfl⟩ := Nat.exists_eq_add_of_le hm
  rw [stateAt_inTurn (by decide)] at hidle
  exact absurd hidle (by decide)

/-- A thread that wakes up too early returns `INVALID_OBJECT`. -/
def wakesEarly : List (ProxyAction (Fin 3) ℕ) :=
  .value 0 :: replicate 4 (.go 0 0) ++ .wakeUp 0 :: replicate 3 (.go 0 0)

example : (wakesEarly.foldl step {}).returned = [(0, none)] := by decide

end Schedules

end Etoile.EtoileThread.ETThreadProxyReturn
