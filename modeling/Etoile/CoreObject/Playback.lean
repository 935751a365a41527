import Etoile.CoreObject.ObjectStore

/-!
# Playback of recorded invocations

`History` are the histories of one object: versions saved whole (the base version, `-save` and the
merge of a restored instance) and versions recorded as invocations, with a snapshot at every
multiple of the snapshot interval.  `Stored` says what the bundle holds for them.

The periodic snapshot of a `COProxy` is taken after the invocation was forwarded.  That of a
`COObject` is taken inside `RECORD`, before the body of the mutator has run, so that it holds the
state of the version before.
-/

namespace Etoile.CoreObject

open List Option

inductive Change (μ δ : Type)
  | saved
  | recorded (inv : μ) (now : δ) (snapshotTimeInterval : ℤ)

/-- What a version was made by, and the state the object had right after. -/
structure ObjectVersion (σ μ δ : Type) where
  change : Change μ δ
  state : σ

variable {σ μ δ : Type} {C : ManagedClass σ μ δ} {isProxy : Bool} {x x' : ManagedObject σ μ}
  {vs : List (ObjectVersion σ μ δ)}

/-- The histories of an object, with its versions `0, 1, …`. -/
inductive History (C : ManagedClass σ μ δ) (isProxy : Bool) :
    ManagedObject σ μ → List (ObjectVersion σ μ δ) → Prop
  | new (s : σ) : History C isProxy (.new isProxy s) []
  | saved {x : ManagedObject σ μ} {vs : List (ObjectVersion σ μ δ)} (s : σ) :
      History C isProxy x vs →
      History C isProxy ({ x with state := s }.snapshotObject true) (vs ++ [⟨.saved, s⟩])
  | recorded {x x' : ManagedObject σ μ} {vs : List (ObjectVersion σ μ δ)} (inv : μ) (now : δ)
      (n : ℤ) : History C isProxy x vs →
      isProxy ∨ C.accepts inv x.state → x.callMutator C n now inv = some x' →
      History C isProxy x'
        ((if vs = [] then [⟨.saved, x.state⟩] else vs) ++ [⟨.recorded inv now n, x'.state⟩])

def savedState (isProxy : Bool) (vs : List (ObjectVersion σ μ δ)) (i : ℕ) : Option σ :=
  match vs[i]? with
  | none => none
  | some ⟨.saved, s⟩ => some s
  | some ⟨.recorded _ _ n, s⟩ =>
    if n ∣ i then if isProxy then some s else vs[i - 1]?.map (·.state) else none

namespace ObjectBundle

theorem foldl_laterVersion (targetVersion : ℤ) :
    ∀ (versions : List ℤ) (a : ℤ),
      a ≤ versions.foldl (laterVersion targetVersion) a
        ∧ (versions.foldl (laterVersion targetVersion) a = a
          ∨ versions.foldl (laterVersion targetVersion) a ∈ versions
            ∧ versions.foldl (laterVersion targetVersion) a ≤ targetVersion)
        ∧ ∀ k ∈ versions, k ≤ targetVersion → k ≤ versions.foldl (laterVersion targetVersion) a
  | [], a => by simp
  | k :: versions, a => by
    simp only [foldl_cons]
    obtain ⟨h₁, h₂, h₃⟩ := foldl_laterVersion targetVersion versions
      (laterVersion targetVersion a k)
    have hk : a ≤ laterVersion targetVersion a k ∧
        (k ≤ targetVersion → k ≤ laterVersion targetVersion a k) := by
      unfold laterVersion
      split_ifs <;> omega
    refine ⟨hk.1.trans h₁, ?_, fun k' hk' hle => ?_⟩
    · rcases h₂ with h₂ | h₂
      · rw [h₂]
        unfold laterVersion
        split_ifs with hk
        · exact Or.inr ⟨mem_cons_self, hk.2⟩
        · exact Or.inl rfl
      · exact Or.inr ⟨mem_cons_of_mem _ h₂.1, h₂.2⟩
    · rcases mem_cons.1 hk' with rfl | hk'
      · exact (hk.2 hle).trans h₁
      · exact h₃ k' hk' hle

theorem lastSnapshotVersion_eq {b : ObjectBundle σ μ} {targetVersion s : ℤ} (h0 : 0 ≤ s)
    (hs : s ∈ b.fullSaves) (hle : s ≤ targetVersion)
    (hmax : ∀ k ∈ b.fullSaves, k ≤ targetVersion → k ≤ s) :
    b.lastSnapshotVersion targetVersion = s := by
  obtain ⟨-, h₂, h₃⟩ := foldl_laterVersion targetVersion b.fullSaves.keys (-1)
  have hge := h₃ s (AList.mem_keys.1 hs) hle
  unfold lastSnapshotVersion
  rcases h₂ with h₂ | ⟨hmem, hle'⟩
  · omega
  · exact le_antisymm (hmax _ (AList.mem_keys.2 hmem) hle') hge

end ObjectBundle

theorem savedState_append_of_lt {v : ObjectVersion σ μ δ} {i : ℕ} (h : i < vs.length) :
    savedState isProxy (vs ++ [v]) i = savedState isProxy vs i := by
  have h' : i - 1 < vs.length := by omega
  unfold savedState
  rw [getElem?_append_left h, getElem?_append_left h']

theorem savedState_of_le {i : ℕ} (h : vs.length ≤ i) : savedState isProxy vs i = none := by
  unfold savedState
  rw [getElem?_eq_none h]

structure Stored (C : ManagedClass σ μ δ) (isProxy : Bool) (x : ManagedObject σ μ)
    (vs : List (ObjectVersion σ μ δ)) : Prop where
  proxy : x.isCoreObjectProxy = isProxy
  version : x.objectVersion = vs.length - 1
  state : ∀ v, vs.getLast? = some v → x.state = v.state
  delta : ∀ (i : ℕ) (inv : μ) (now : δ) (n : ℤ) (s : σ),
    vs[i]? = some ⟨.recorded inv now n, s⟩ → x.bundle.deltas.objectForKey (i : ℤ) = some inv
  save : ∀ i : ℕ, x.bundle.fullSaves.objectForKey (i : ℤ) = savedState isProxy vs i
  nonneg : ∀ k ∈ x.bundle.fullSaves, 0 ≤ k
  first : ∀ v, vs[0]? = some v → v.change = .saved
  chain : ∀ (i : ℕ) (inv : μ) (now : δ) (n : ℤ) (s : σ),
    vs[i + 1]? = some ⟨.recorded inv now n, s⟩ →
    ∃ v, vs[i]? = some v ∧ s = C.invoke now inv v.state ∧
      (isProxy ∨ C.accepts inv v.state)

namespace Stored

theorem new (s : σ) : Stored C isProxy (.new isProxy s) [] where
  proxy := rfl
  version := rfl
  state := by simp
  delta := by simp
  save := fun i => by simp [ManagedObject.new, savedState]
  nonneg := fun k h => absurd h (AList.notMem_empty k)
  first := by simp
  chain := by simp

theorem push {v : ObjectVersion σ μ δ} (h : Stored C isProxy x vs)
    (hp : x'.isCoreObjectProxy = isProxy) (hv : x'.objectVersion = vs.length)
    (hst : x'.state = v.state)
    (hd : ∀ i : ℕ, i < vs.length →
      x'.bundle.deltas.objectForKey (i : ℤ) = x.bundle.deltas.objectForKey (i : ℤ))
    (hdv : ∀ inv now n, v.change = .recorded inv now n →
      x'.bundle.deltas.objectForKey (vs.length : ℤ) = some inv)
    (hs : x'.bundle.fullSaves = (savedState isProxy (vs ++ [v]) vs.length).elim
      x.bundle.fullSaves fun s => x.bundle.fullSaves.insert (vs.length : ℤ) s)
    (hf : vs = [] → v.change = .saved)
    (hc : ∀ inv now n, v.change = .recorded inv now n →
      ∃ u, vs.getLast? = some u ∧ v.state = C.invoke now inv u.state ∧
        (isProxy ∨ C.accepts inv u.state)) :
    Stored C isProxy x' (vs ++ [v]) where
  proxy := hp
  version := by simp [hv]
  state := fun v' h' => by
    simp only [getLast?_append, getLast?_singleton, some_or,
      some.injEq] at h'
    rw [hst, h']
  delta := fun i inv now n s h' => by
    rcases Nat.lt_trichotomy i vs.length with hi | rfl | hi
    · rw [getElem?_append_left hi] at h'
      rw [hd i hi]
      exact h.delta i inv now n s h'
    · simp only [getElem?_concat_length, some.injEq] at h'
      exact hdv inv now n (by rw [h'])
    · rw [getElem?_eq_none (by rw [length_append, length_singleton]; omega)] at h'
      cases h'
  save := fun i => by
    rcases Nat.lt_trichotomy i vs.length with hi | rfl | hi
    · rw [savedState_append_of_lt hi, hs, ← h.save]
      have hne : (i : ℤ) ≠ vs.length := by omega
      cases savedState isProxy (vs ++ [v]) vs.length with
      | none => rfl
      | some s => simp [Dictionary.objectForKey_insert_of_ne _ _ hne]
    · rw [hs]
      cases hsv : savedState isProxy (vs ++ [v]) vs.length with
      | none => simp [h.save, savedState_of_le]
      | some s => simp
    · rw [savedState_of_le (by rw [length_append, length_singleton]; omega), hs]
      have hne : (i : ℤ) ≠ vs.length := by omega
      cases savedState isProxy (vs ++ [v]) vs.length with
      | none => simp [h.save, savedState_of_le hi.le]
      | some s =>
        simp [Dictionary.objectForKey_insert_of_ne _ _ hne, h.save, savedState_of_le hi.le]
  nonneg := fun k hk => by
    rw [hs] at hk
    cases hsv : savedState isProxy (vs ++ [v]) vs.length with
    | none =>
      rw [hsv] at hk
      exact h.nonneg k hk
    | some s =>
      rw [hsv] at hk
      rcases (AList.mem_insert _).1 hk with rfl | hk
      · exact Int.natCast_nonneg _
      · exact h.nonneg k hk
  first := fun u hu => by
    cases vs with
    | nil =>
      simp only [nil_append, getElem?_cons_zero, some.injEq] at hu
      exact hu ▸ hf rfl
    | cons w ws => exact h.first u hu
  chain := fun i inv now n s h' => by
    rcases Nat.lt_trichotomy (i + 1) vs.length with hi | hi | hi
    · rw [getElem?_append_left hi] at h'
      obtain ⟨u, hu, hrest⟩ := h.chain i inv now n s h'
      exact ⟨u, by rw [getElem?_append_left (by omega)]; exact hu, hrest⟩
    · rw [hi] at h'
      simp only [getElem?_concat_length, some.injEq] at h'
      obtain ⟨u, hu, hst, hacc⟩ := hc inv now n (by rw [h'])
      rw [getLast?_eq_getElem?] at hu
      have hi' : vs.length - 1 = i := by omega
      exact ⟨u, by rw [getElem?_append_left (by omega), ← hi']; exact hu,
        by rw [← hst, h'], hacc⟩
    · rw [getElem?_eq_none (by rw [length_append, length_singleton]; omega)] at h'
      cases h'

theorem saved (h : Stored C isProxy x vs) (s : σ) :
    Stored C isProxy ({ x with state := s }.snapshotObject true) (vs ++ [⟨.saved, s⟩]) := by
  have hv : x.objectVersion + 1 = vs.length := by
    rw [h.version]
    omega
  refine h.push h.proxy hv rfl (fun i _ => rfl) (by simp) ?_ (fun _ => rfl) (by simp)
  simp [ManagedObject.snapshotObject, savedState, hv]

end Stored

theorem callMutator_of_new {n : ℤ} {now : δ} {inv : μ} (h : x.objectVersion = -1)
    (hacc : x.isCoreObjectProxy ∨ C.accepts inv x.state) :
    x.callMutator C n now inv = (x.snapshotObject true).callMutator C n now inv := by
  have hv : (x.snapshotObject true).objectVersion = 0 := by
    simp [ManagedObject.snapshotObject, h]
  have hser : x.serializeInvocation C n now inv =
      (x.snapshotObject true).serializeInvocation C n now inv := by
    simp [ManagedObject.serializeInvocation, h, hv]
  have hp : (x.snapshotObject true).isCoreObjectProxy = x.isCoreObjectProxy := rfl
  have hs : (x.snapshotObject true).state = x.state := rfl
  simp only [ManagedObject.callMutator, hser, hp, hs]
  by_cases hx : x.isCoreObjectProxy
  · simp [hx]
  · simp [hx, hacc.resolve_left hx]

theorem callMutator_eq {n : ℤ} {now : δ} {inv : μ} (h : x.objectVersion ≠ -1)
    (hacc : x.isCoreObjectProxy ∨ C.accepts inv x.state)
    (hx : x.callMutator C n now inv = some x') :
    x'.isCoreObjectProxy = x.isCoreObjectProxy ∧ x'.objectVersion = x.objectVersion + 1 ∧
      x'.state = C.invoke now inv x.state ∧
      x'.bundle.deltas = x.bundle.deltas.insert (x.objectVersion + 1) inv ∧
      x'.bundle.fullSaves = if n ∣ x.objectVersion + 1 then
        x.bundle.fullSaves.insert (x.objectVersion + 1)
          (if x.isCoreObjectProxy then x'.state else x.state)
        else x.bundle.fullSaves := by
  have hdvd : (x.objectVersion + 1) % n = 0 ↔ n ∣ x.objectVersion + 1 :=
    Int.dvd_iff_emod_eq_zero.symm
  unfold ManagedObject.callMutator at hx
  split_ifs at hx with hp h0 ha h0
  · simp only [some.injEq] at hx
    subst hx
    by_cases hd : n ∣ x.objectVersion + 1 <;>
      simp [ManagedObject.serializeInvocation, h, ManagedObject.serializeDelta,
        ManagedObject.forwardInvocationIfNeeded, hp, ManagedObject.snapshotObject,
        hdvd, hd]
  · simp only [some.injEq] at hx
    subst hx
    by_cases hd : n ∣ x.objectVersion + 1 <;>
      simp [ManagedObject.serializeInvocation, h, ManagedObject.serializeDelta,
        ManagedObject.forwardInvocationIfNeeded, hp, ManagedObject.snapshotObject,
        hdvd, hd, ManagedClass.invoke, ha]
  · exact absurd (hacc.resolve_left hp) ha

theorem Stored.recorded (h : Stored C isProxy x vs) (hne : vs ≠ []) {n : ℤ} {now : δ} {inv : μ}
    (hacc : isProxy ∨ C.accepts inv x.state) (hx : x.callMutator C n now inv = some x') :
    Stored C isProxy x' (vs ++ [⟨.recorded inv now n, x'.state⟩]) := by
  have hlen : 0 < vs.length := length_pos_iff.2 hne
  have hlast : vs[vs.length - 1]? = vs.getLast? := (getLast?_eq_getElem? ..).symm
  obtain ⟨u, hu⟩ := getLast?_isSome.2 hne |> isSome_iff_exists.1
  have hstate := h.state u hu
  have hv : x.objectVersion + 1 = vs.length := by
    rw [h.version]
    omega
  obtain ⟨hp', hv', hs', hd', hf'⟩ :=
    callMutator_eq (by have := h.version; omega) (by rwa [h.proxy]) hx
  refine h.push (hp'.trans h.proxy) (hv'.trans hv) rfl (fun i hi => ?_) (fun inv' now' n' hc => ?_)
    ?_ (fun hnil => absurd hnil hne) (fun inv' now' n' hc => ?_)
  · rw [hd', hv]
    exact Dictionary.objectForKey_insert_of_ne _ _ (by omega)
  · cases hc
    rw [hd', hv, Dictionary.objectForKey_insert_self]
  · rw [hf', hv, h.proxy]
    have hlt : vs.length - 1 < vs.length := by omega
    simp only [savedState, getElem?_concat_length, getElem?_append_left hlt, hlast, hu]
    split_ifs <;> simp [hstate]
  · cases hc
    exact ⟨u, hu, by rw [hs', hstate], by rwa [← hstate]⟩

theorem History.stored (h : History C isProxy x vs) : Stored C isProxy x vs := by
  induction h with
  | new s => exact .new s
  | saved s _ ih => exact ih.saved s
  | @recorded x x' vs inv now n _ hacc hx ih =>
    split_ifs with hnil
    · subst hnil
      have hv : x.objectVersion = -1 := by simpa using ih.version
      rw [callMutator_of_new hv (by rwa [ih.proxy])] at hx
      exact (ih.saved x.state).recorded (by simp) hacc hx
    · exact ih.recorded hnil hacc hx

section Restore

def Change.TakesSnapshot (i : ℕ) : Change μ δ → Prop
  | .saved => True
  | .recorded _ _ n => n ∣ i

/-- `s` is the last version up to `v` with a full save. -/
structure LastSnapshot (vs : List (ObjectVersion σ μ δ)) (s v : ℕ) : Prop where
  le : s ≤ v
  taken : ∃ u, vs[s]? = some u ∧ u.change.TakesSnapshot s
  later : ∀ t u, s < t → t ≤ v → vs[t]? = some u → ¬ u.change.TakesSnapshot t

theorem exists_lastSnapshot (hfirst : ∀ u, vs[0]? = some u → u.change = .saved) :
    ∀ v, v < vs.length → ∃ s, LastSnapshot vs s v
  | 0, h => by
    obtain ⟨u, hu⟩ : ∃ u, vs[0]? = some u := ⟨_, getElem?_eq_getElem h⟩
    exact ⟨0, le_rfl, ⟨u, hu, by rw [hfirst u hu]; trivial⟩, fun t _ h₁ h₂ => by omega⟩
  | v + 1, h => by
    obtain ⟨u, hu⟩ : ∃ u, vs[v + 1]? = some u := ⟨_, getElem?_eq_getElem h⟩
    by_cases hs : u.change.TakesSnapshot (v + 1)
    · exact ⟨v + 1, le_rfl, ⟨u, hu, hs⟩, fun t _ h₁ h₂ => by omega⟩
    · obtain ⟨s, hle, htaken, hlater⟩ := exists_lastSnapshot hfirst v (by omega)
      refine ⟨s, by omega, htaken, fun t u' h₁ h₂ hu' => ?_⟩
      rcases Nat.lt_or_ge v t with ht | ht
      · obtain rfl : t = v + 1 := by omega
        obtain rfl : u = u' := some.inj (hu.symm.trans hu')
        exact hs
      · exact hlater t u' h₁ ht hu'

/-- The `n` recorded changes after version `i`, played back on `x`. -/
def replay (C : ManagedClass σ μ δ) (clock : ℤ → δ) (vs : List (ObjectVersion σ μ δ)) :
    ℕ → ℕ → σ → σ
  | 0, _, x => x
  | n + 1, i, x =>
    match vs[i + 1]? with
    | some ⟨.recorded inv _ _, _⟩ => replay C clock vs n (i + 1) (C.invoke (clock (i + 1)) inv x)
    | _ => x

theorem isSome_savedState {i : ℕ} (h : Stored C isProxy x vs) :
    (savedState isProxy vs i).isSome ↔ ∃ u, vs[i]? = some u ∧ u.change.TakesSnapshot i := by
  unfold savedState
  rcases hu : vs[i]? with _ | ⟨c, s⟩
  · simp
  · cases c with
    | saved => simp [Change.TakesSnapshot]
    | recorded inv now n =>
      have hi : vs[i - 1]?.isSome := by
        obtain ⟨hlt, -⟩ := List.getElem?_eq_some_iff.1 hu
        rw [getElem?_eq_getElem (by omega)]
        rfl
      by_cases hd : n ∣ i <;> cases isProxy <;> simp [Change.TakesSnapshot, hd, hi]

theorem playbackInvocations_eq (h : Stored C isProxy x vs) (clock : ℤ → δ) :
    ∀ (n i : ℕ) (s : σ),
      (∀ t, i < t → t ≤ i + n → ∃ inv now m u, vs[t]? = some ⟨.recorded inv now m, u⟩) →
      x.bundle.playbackInvocations C clock n i s = some (replay C clock vs n i s)
  | 0, _, _, _ => rfl
  | n + 1, i, s, ht => by
    obtain ⟨inv, now, m, u, hu⟩ := ht (i + 1) (by omega) (by omega)
    have hd := h.delta (i + 1) inv now m u hu
    have ih := playbackInvocations_eq h clock n (i + 1) (C.invoke (clock (i + 1)) inv s)
      fun t h₁ h₂ => ht t (by omega) (by omega)
    simp only [Nat.cast_add, Nat.cast_one] at hd ih
    simp [ObjectBundle.playbackInvocations, hd, replay, hu, ih]

theorem LastSnapshot.recorded {s v t : ℕ} (hs : LastSnapshot vs s v) (hv : v < vs.length)
    (h₁ : s < t) (h₂ : t ≤ v) : ∃ inv now m u, vs[t]? = some ⟨.recorded inv now m, u⟩ := by
  obtain ⟨⟨c, u⟩, hu⟩ : ∃ u, vs[t]? = some u := ⟨_, getElem?_eq_getElem (by omega)⟩
  cases c with
  | saved => exact absurd trivial (hs.later t _ h₁ h₂ hu)
  | recorded inv now m => exact ⟨inv, now, m, u, hu⟩

theorem restore_eq (h : Stored C isProxy x vs) (clock : ℤ → δ) {s v : ℕ} (hv : v < vs.length)
    (hs : LastSnapshot vs s v) :
    x.bundle.restore C clock v =
      (savedState isProxy vs s).map (replay C clock vs (v - s) s) := by
  obtain ⟨f, hf⟩ := isSome_iff_exists.1 ((isSome_savedState h).2 hs.taken)
  have hmem : (s : ℤ) ∈ x.bundle.fullSaves :=
    Dictionary.isSome_objectForKey.1 (by simp [h.save, hf])
  have hlast : x.bundle.lastSnapshotVersion v = s := by
    refine ObjectBundle.lastSnapshotVersion_eq (by omega) hmem (by have := hs.le; omega) ?_
    intro k hk hle
    obtain ⟨t, rfl⟩ := Int.eq_ofNat_of_zero_le (h.nonneg k hk)
    have hsome := Dictionary.isSome_objectForKey.2 hk
    rw [h.save, isSome_savedState h] at hsome
    obtain ⟨u, hu, htaken⟩ := hsome
    by_contra hlt
    exact hs.later t u (by omega) (by omega) hu htaken
  have hle := hs.le
  have hn : ((v : ℤ) - s).toNat = v - s := by omega
  have hplay := playbackInvocations_eq h clock (v - s) s f
    fun t h₁ h₂ => hs.recorded hv h₁ (by omega)
  simp [ObjectBundle.restore, hlast, h.save, hf, hn, hplay]

theorem LastSnapshot.savedState_eq {s v : ℕ} (hs : LastSnapshot vs s v) :
    savedState isProxy vs s = vs[s]?.bind fun u =>
      match u.change with
      | .saved => some u.state
      | .recorded _ _ _ => if isProxy then some u.state else vs[s - 1]?.map (·.state) := by
  obtain ⟨⟨c, p⟩, hu, htaken⟩ := hs.taken
  cases c with
  | saved => simp [savedState, hu]
  | recorded inv now n =>
    have hd : n ∣ (s : ℤ) := htaken
    simp [savedState, hu, hd]

variable {C : ManagedClass σ μ Unit} {vs : List (ObjectVersion σ μ Unit)}

/-- Mutators that do not read the clock lead to the same states when played back. -/
theorem replay_self (h : Stored C isProxy x vs) :
    ∀ (n i : ℕ) (a b : ObjectVersion σ μ Unit),
      (∀ t, i < t → t ≤ i + n → ∃ inv now m u, vs[t]? = some ⟨.recorded inv now m, u⟩) →
      vs[i]? = some a → vs[i + n]? = some b →
      replay C (fun _ => ()) vs n i a.state = b.state
  | 0, i, a, b, _, ha, hb => by
    obtain rfl : a = b := some.inj (ha.symm.trans hb)
    rfl
  | n + 1, i, a, b, hrec, ha, hb => by
    obtain ⟨inv, now, m, u, hu⟩ := hrec (i + 1) (by omega) (by omega)
    obtain ⟨a', ha', rfl, -⟩ := h.chain i inv now m u hu
    obtain rfl : a = a' := some.inj (ha.symm.trans ha')
    have ih := replay_self h n (i + 1) _ b (fun t h₁ h₂ => hrec t (by omega) (by omega)) hu
      (by rw [← hb]; congr 1; omega)
    simpa [replay, hu] using ih

theorem restore_proxy
    (h : Stored C true x vs) {v : ℕ} {u : ObjectVersion σ μ Unit} (hu : vs[v]? = some u) :
    x.bundle.restore C (fun _ => ()) v = some u.state := by
  obtain ⟨hv, -⟩ := List.getElem?_eq_some_iff.1 hu
  obtain ⟨s, hs⟩ := exists_lastSnapshot h.first v hv
  obtain ⟨a, ha, -⟩ := hs.taken
  have hle := hs.le
  have hself := replay_self h (v - s) s a u
    (fun t h₁ h₂ => hs.recorded hv h₁ (by omega)) ha (by rw [← hu]; congr 1; omega)
  have hsaved : savedState true vs s = some a.state := by
    rw [hs.savedState_eq, ha]
    obtain ⟨c, p⟩ := a
    cases c <;> rfl
  rw [restore_eq h _ hv hs, hsaved, map_some, hself]

/-- Without a proxy, the change a periodic snapshot was taken in is not played back. -/
theorem restore_iff
    (h : Stored C false x vs) {s v : ℕ} (hs : LastSnapshot vs s v) {b : ObjectVersion σ μ Unit}
    (hb : vs[v]? = some b) :
    x.bundle.restore C (fun _ => ()) v = some b.state ↔
      ∀ m now n p u, vs[s]? = some ⟨.recorded m now n, p⟩ → vs[s - 1]? = some u →
        replay C (fun _ => ()) vs (v - s) s u.state = b.state := by
  obtain ⟨hv, -⟩ := List.getElem?_eq_some_iff.1 hb
  obtain ⟨⟨c, p⟩, ha, -⟩ := hs.taken
  have hle := hs.le
  rw [restore_eq h _ hv hs, hs.savedState_eq, ha]
  cases c with
  | saved =>
    have hself := replay_self h (v - s) s ⟨.saved, p⟩ b
      (fun t h₁ h₂ => hs.recorded hv h₁ (by omega)) ha (by rw [← hb]; congr 1; omega)
    simp only [bind_some, map_some, hself, true_iff]
    rintro m now n q u ⟨⟩
  | recorded inv now n =>
    obtain ⟨u, hu⟩ : ∃ u, vs[s - 1]? = some u := ⟨_, getElem?_eq_getElem (by omega)⟩
    simp only [bind_some, hu, Bool.false_eq_true, if_false, map_some,
      some.injEq]
    constructor
    · rintro heq _ _ _ _ _ ⟨⟩ rfl
      exact heq
    · exact fun heq => heq inv now n p u rfl rfl

end Restore

end Etoile.CoreObject
