import Etoile.CoreObject.ContextRestore

/-!
# The loaded graph of a context

What a restore leaves loaded.  Groups refer to their members by instance or, until these are loaded,
by fault, so an instance that was replaced or discarded can live on in a group.  A restore discards
the objects that are not found, replaces those of another version, and resolves the faults left;
`Closed` is what it keeps of the loaded objects while it does.
-/

namespace Etoile.CoreObject

open Function List Option

namespace Context

variable {U P μ : Type} {C : ManagedClass (ObjectState U P) μ Unit} {isProxy : U → Bool}
  {x x' : Context U P μ} {L : ContextLog U (ObjectState U P)} {o : U}

section Closed

variable {G N : U → Prop} {E : U → ℤ → Prop}

/-- The loaded objects are in the graph `G`, and what they refer to is in it or, for the objects of
`N`, not stored at all.  Instances that are not registered are held in `E` only. -/
structure Closed (C : ManagedClass (ObjectState U P) μ Unit) (G N : U → Prop) (E : U → ℤ → Prop)
    (x : Context U P μ) : Prop where
  graph : ∀ o i, x.registered o = some i → G o
  unknown : ∀ o, N o → x.metadata o < 0
  faults : ∀ o i, x.registered o = some i → ∀ m ∈ i.state.members, i.references m = .fault →
    G m ∨ N m
  unloaded : ∀ o s, G o → x.registered o = none →
    (x.bundles o).restore C (fun _ => ()) (x.metadata o) = some s → ∀ m ∈ s.members, G m ∨ N m
  current : ∀ o i, x.registered o = some i → ∀ m ∈ i.state.members, G m ∨ N m →
    ∀ v, i.references m = .unregistered v → E m v

structure Fits (G N : U → Prop) (E : U → ℤ → Prop) (i : Instance U P) : Prop where
  faults : ∀ m ∈ i.state.members, i.references m = .fault → G m ∨ N m
  current : ∀ m ∈ i.state.members, G m ∨ N m → ∀ v, i.references m = .unregistered v → E m v

def ProxiesLoaded (isProxy : U → Bool) (G : U → Prop) (x : Context U P μ) : Prop :=
  ∀ m, G m → isProxy m → (x.registered m).isSome

namespace Closed

theorem fits (h : Closed C G N E x) {i : Instance U P} (hi : x.registered o = some i) :
    Fits G N E i := ⟨h.faults o i hi, h.current o i hi⟩

theorem faultsOf (h : Closed C G N E x) (m : U) (hm : x.faultsOf o m) : G m ∨ N m := by
  obtain ⟨i, hi, hmem, hf⟩ := hm
  exact h.faults o i hi m hmem hf

theorem reloads {F : U → Prop} (h : Closed C G N E x) (hr : Reloads C F x x')
    (hF : ∀ o, F o → G o ∨ N o) : Closed C G N E x' where
  graph := fun o i' hi' => by
    rcases hi : x.registered o with _ | i
    · obtain ⟨hFo, h0, -⟩ := hr.loaded o i' hi hi'
      refine (hF o hFo).resolve_right fun hN => ?_
      have := h.unknown o hN
      omega
    · exact h.graph o i hi
  unknown := fun o hN => by
    rw [hr.eq]
    exact h.unknown o hN
  faults := fun o i' hi' m hm hf => by
    rcases hi : x.registered o with _ | i
    · obtain ⟨hFo, h0, -, hs, -⟩ := hr.loaded o i' hi hi'
      have hG : G o := (hF o hFo).resolve_right fun hN => by
        have := h.unknown o hN
        omega
      exact h.unloaded o _ hG hi hs m hm
    · obtain ⟨j, hj, -, hs, hrefs⟩ := hr.kept o i hi
      obtain rfl : i' = j := some.inj (hi'.symm.trans hj)
      rcases hrefs m with heq | ⟨-, heq⟩
      · exact h.faults o i hi m (hs ▸ hm) (heq.symm.trans hf)
      · simp [heq] at hf
  unloaded := fun o s hG hn hs m hm => by
    have hn' : x.registered o = none := by
      rcases hi : x.registered o with _ | i
      · rfl
      · obtain ⟨j, hj, -⟩ := hr.kept o i hi
        simp [hj] at hn
    rw [hr.eq] at hs
    exact h.unloaded o s hG hn' hs m hm
  current := fun o i' hi' m hm hG v hv => by
    rcases hi : x.registered o with _ | i
    · obtain ⟨-, -, -, -, hrefs⟩ := hr.loaded o i' hi hi'
      exact absurd hv (hrefs m v)
    · obtain ⟨j, hj, -, hs, hrefs⟩ := hr.kept o i hi
      obtain rfl : i' = j := some.inj (hi'.symm.trans hj)
      rcases hrefs m with heq | ⟨-, heq⟩
      · exact h.current o i hi m (hs ▸ hm) hG v (heq.symm.trans hv)
      · simp [heq] at hv

end Closed

theorem ProxiesLoaded.sameControl (h : ProxiesLoaded isProxy G x) (hc : SameControl x x') :
    ProxiesLoaded isProxy G x' := fun m hm hp => hc.loaded m (h m hm hp)

variable [DecidableEq U]

theorem Closed.exists_objectForUUID (h : Closed C G N E x) (hp : ProxiesLoaded isProxy G x)
    (ho : G o ∨ N o) : ∃ x', x.objectForUUID C isProxy o = some x' := by
  unfold objectForUUID
  split_ifs with hc hpo
  · exact ⟨x, rfl⟩
  · rcases ho with hG | hN
    · exact absurd (.inl (hp o hG hpo)) hc
    · exact absurd (.inr (h.unknown o hN)) hc
  · cases x.deserialize C o (x.metadata o) <;> exact ⟨_, rfl⟩

theorem Closed.exists_resolveFaults (h : Closed C G N E x) (hp : ProxiesLoaded isProxy G x) :
    ∃ x', x.resolveFaults C isProxy o = some x' := by
  unfold resolveFaults
  rcases hi : x.registered o with _ | i
  · exact ⟨x, rfl⟩
  · set l := i.state.members.filter fun m => i.references m = .fault
    have hl : ∀ m ∈ l, G m ∨ N m := fun m hm => h.faultsOf m ⟨i, hi, by simpa [l] using hm⟩
    obtain ⟨y, hy, -⟩ := foldlM_succeeds (f := objectForUUID C isProxy)
      (I := fun rest y => (∀ m ∈ rest, G m ∨ N m) ∧ Closed C G N E y ∧ ProxiesLoaded isProxy G y)
      (fun m rest y hI => by
        obtain ⟨hrest, hy, hpy⟩ := hI
        have hm := hrest m mem_cons_self
        obtain ⟨y', hy'⟩ := hy.exists_objectForUUID hpy hm
        have hr := reloads_objectForUUID hy'
        exact ⟨y', hy', fun m' hm' => hrest m' (mem_cons_of_mem _ hm'),
          hy.reloads hr fun _ heq => heq ▸ hm, hpy.sameControl hr.sameControl⟩) l x ⟨hl, h, hp⟩
    exact ⟨_, bind_eq_some_iff.2 ⟨y, hy, rfl⟩⟩

namespace Closed

theorem exchange {E' : U → ℤ → Prop} (h : Closed C G N E x) (hG : G o)
    {r : U → Option (Instance U P)} (hr : ∀ o' i', o' ≠ o → r o' = some i' →
      ∃ i, x.registered o' = some i ∧ (Fits G N E i → Fits G N E' i'))
    (hr' : ∀ o', o' ≠ o → r o' = none → x.registered o' = none)
    {i : Instance U P} (ho : r o = some i) (hi : Fits G N E' i) :
    Closed C G N E' { x with registered := r } := by
  have hfits : ∀ o' i', r o' = some i' → Fits G N E' i' ∧ G o' := fun o' i' hi' => by
    by_cases hne : o' = o
    · subst hne
      obtain rfl : i = i' := some.inj (ho.symm.trans hi')
      exact ⟨hi, hG⟩
    · obtain ⟨j, hj, hfit⟩ := hr o' i' hne hi'
      exact ⟨hfit (h.fits hj), h.graph o' j hj⟩
  refine ⟨fun o' i' hi' => (hfits o' i' hi').2, h.unknown,
    fun o' i' hi' => (hfits o' i' hi').1.faults, fun o' s hG' hn hs => ?_,
    fun o' i' hi' => (hfits o' i' hi').1.current⟩
  have hne : o' ≠ o := by
    rintro rfl
    simp [ho] at hn
  exact h.unloaded o' s hG' (hr' o' hne hn) hs

end Closed

theorem Fits.detach {cached : U → Option (Instance U P)} {i anObject : Instance U P}
    (h : Fits G N (fun _ _ => False) i) (ho : cached o = some anObject) :
    Fits G N (fun m v => m = o ∧ v = anObject.objectVersion) (i.detach cached (· = o)) := by
  refine ⟨fun m hm hf => ?_, fun m hm hG v hv => ?_⟩
  · refine h.faults m hm ?_
    simp only [Instance.detach] at hf
    split at hf
    · split_ifs at hf
    · exact hf
  · simp only [Instance.detach] at hv
    split at hv
    · rename_i j _ hj
      split_ifs at hv with hmo
      have hmo := of_decide_eq_true hmo
      subst hmo
      obtain rfl : anObject = j := some.inj (ho.symm.trans hj)
      exact ⟨rfl, (Reference.unregistered.inj hv).symm⟩
    · exact absurd hv (h.current m hm hG v)

variable {i : Instance U P}

theorem Fits.replaceObject {v : ℤ} (h : Fits G N (fun m v' => m = o ∧ v' = v) i) :
    Fits G N (fun _ _ => False) (i.replaceObject o v) := by
  refine ⟨fun m hm hf => ?_, fun m hm hG v' hv' => ?_⟩
  · refine h.faults m hm ?_
    simp only [Instance.replaceObject] at hf
    split_ifs at hf
    exact hf
  · simp only [Instance.replaceObject] at hv'
    split_ifs at hv' with hc
    obtain ⟨rfl, rfl⟩ := h.current m hm hG v' hv'
    exact hc ⟨rfl, hv'⟩

theorem Closed.commitMerge (h : Closed C G N E x) (hG : G o) (hN : ¬ N o)
    (hi : Fits G N E i) (v : ℤ) :
    Closed C G N E ((x.commitMergeOfInstance isProxy o i v).1.registerObject o
      (x.commitMergeOfInstance isProxy o i v).2) := by
  have hfits : ∀ o' i', update x.registered o (some { i with objectVersion := v + 1 }) o'
      = some i' → Fits G N E i' ∧ G o' := fun o' i' hi' => by
    by_cases hne : o' = o
    · subst hne
      obtain rfl : _ = i' := by simpa using hi'
      exact ⟨⟨hi.faults, hi.current⟩, hG⟩
    · rw [update_of_ne hne] at hi'
      exact ⟨h.fits hi', h.graph o' i' hi'⟩
  refine ⟨fun o' i' hi' => (hfits o' i' hi').2, fun o' hN' => ?_,
    fun o' i' hi' => (hfits o' i' hi').1.faults, fun o' s hG' hn hs => ?_,
    fun o' i' hi' => (hfits o' i' hi').1.current⟩
  · have hne : o' ≠ o := fun heq => hN (heq ▸ hN')
    simpa [commitMergeOfInstance, registerObject, logRecord, store, hne] using h.unknown o' hN'
  · have hne : o' ≠ o := by
      rintro rfl
      simp [registerObject] at hn
    refine h.unloaded o' s hG' ?_ ?_
    · simpa [commitMergeOfInstance, registerObject, logRecord, store, hne] using hn
    · simpa [commitMergeOfInstance, registerObject, logRecord, store, hne] using hs

abbrev Settled (C : ManagedClass (ObjectState U P) μ Unit) (G N : U → Prop) (x : Context U P μ) :
    Prop := Closed C G N (fun _ _ => False) x

theorem mem_mergeArray {existing old : List U} {m : U} :
    ∀ {p : ChildrenMergePolicy}, m ∈ Instance.mergeArray existing old p →
      m ∈ old ∧ p ≠ .existingChildren ∨ m ∈ existing
  | .oldChildren, h => .inl ⟨h, by decide⟩
  | .existingChildren, h => .inr h
  | .childrenUnion, h => by
    rcases mem_union_iff.1 h with h | h
    · exact .inl ⟨mem_dedup.1 h, by decide⟩
    · exact .inr (mem_dedup.1 h)
  | .childrenIntersection, h => .inr (mem_inter_iff.1 h).2

theorem Fits.mergeObjects {i aGroup : Instance U P} (h : Fits G N E i) (hg : Fits G N E aGroup)
    (p : ChildrenMergePolicy) : Fits G N E (i.mergeObjectsWithObjectsOfGroup aGroup p) := by
  have hmem : ∀ m ∈ (i.mergeObjectsWithObjectsOfGroup aGroup p).state.members,
      m ∈ i.state.members ∧ p ≠ .existingChildren ∨ m ∈ aGroup.state.members := fun m hm => by
    rcases mem_append.1 hm with hm | hm
    · exact (mem_mergeArray hm).imp (And.imp_left (mem_append_left _))
        (mem_append_left _)
    · exact (mem_mergeArray hm).imp (And.imp_left (mem_append_right _))
        (mem_append_right _)
  refine ⟨fun m hm hf => ?_, fun m hm hG v hv => ?_⟩
  · simp only [Instance.mergeObjectsWithObjectsOfGroup] at hf
    split_ifs at hf with hc
    · exact h.faults m hc.2 hf
    · exact hg.faults m ((hmem m hm).resolve_left fun hi => hc ⟨hi.2, hi.1⟩) hf
  · simp only [Instance.mergeObjectsWithObjectsOfGroup] at hv
    split_ifs at hv with hc
    · exact h.current m hc.2 hG v hv
    · exact hg.current m ((hmem m hm).resolve_left fun hi => hc ⟨hi.2, hi.1⟩) hG v hv

theorem Closed.swap {t anObject : Instance U P} (h : Settled C G N x)
    (han : x.registered o = some anObject) (ht : Fits G N (fun _ _ => False) t) :
    Closed C G N (fun m v => m = o ∧ v = anObject.objectVersion)
      ((x.unregisterObjects (· = o)).registerObject o (t.detach x.registered (· = o))) := by
  refine h.exchange (h.graph o anObject han) (fun o' i' hne hi' => ?_) (fun o' hne hn => ?_)
    (update_self ..) (ht.detach han)
  · simp only [unregisterObjects, update_of_ne hne, hne, decide_false,
      Bool.false_eq_true, if_false, map_eq_some_iff] at hi'
    obtain ⟨i, hi, rfl⟩ := hi'
    exact ⟨i, hi, fun hfit => hfit.detach han⟩
  · simpa [unregisterObjects, hne] using hn

theorem Closed.updateRelationships {v : ℤ}
    (h : Closed C G N (fun m v' => m = o ∧ v' = v) x) (hi : x.registered o = some i) :
    Settled C G N (x.updateRelationships o v) := by
  refine h.exchange (h.graph o i hi) (fun o' i' _ hi' => ?_) (fun o' _ hn => ?_)
    (i := i.replaceObject o v) (by rw [hi]; rfl) (h.fits hi).replaceObject
  · obtain ⟨j, hj, rfl⟩ := map_eq_some_iff.1 hi'
    exact ⟨j, hj, fun hfit => hfit.replaceObject⟩
  · exact map_eq_none_iff.1 hn

theorem Closed.replaceObject (h : Settled C G N x) (hN : ¬ N o) {t : Instance U P}
    (ht : Fits G N (fun _ _ => False) t)
    (hx : x.replaceObject C isProxy o t = some x') : Settled C G N x' := by
  simp only [Context.replaceObject, bind_eq_bind, bind_eq_some_iff,
    some.injEq] at hx
  obtain ⟨x₁, hx₁, anObject, han, x₃, hx₃, i, hi, rfl⟩ := hx
  have hr₁ := reloads_resolveFaults hx₁
  have h₁ := h.reloads hr₁ h.faultsOf
  have h₂ := h₁.swap han ht
  have hr₃ := reloads_resolveFaults hx₃
  have h₃ := h₂.reloads hr₃ h₂.faultsOf
  obtain ⟨i₃, hi₃, -⟩ := hr₃.kept o _ (update_self ..)
  have h₄ := h₃.updateRelationships hi₃
  exact h₄.commitMerge (h₄.graph o i hi) hN ((h₄.fits hi).mergeObjects (h₁.fits han) _) _

theorem Closed.exists_replaceObject (h : Settled C G N x) (hp : ProxiesLoaded isProxy G x)
    (hi : (x.registered o).isSome) {t : Instance U P} (ht : Fits G N (fun _ _ => False) t) :
    ∃ x', x.replaceObject C isProxy o t = some x' := by
  obtain ⟨i, hi⟩ := isSome_iff_exists.1 hi
  obtain ⟨x₁, hx₁⟩ := h.exists_resolveFaults hp (o := o)
  have hr₁ := reloads_resolveFaults hx₁
  have h₁ := h.reloads hr₁ h.faultsOf
  obtain ⟨anObject, han, -⟩ := hr₁.kept o i hi
  have h₂ := h₁.swap han ht
  obtain ⟨x₃, hx₃⟩ := h₂.exists_resolveFaults
    (hp.sameControl (hr₁.sameControl.trans (sameControl_swap x₁ o _))) (o := o)
  obtain ⟨i₃, hi₃, -⟩ := (reloads_resolveFaults hx₃).kept o _ (update_self ..)
  simp only [Context.replaceObject, bind_eq_bind, bind_eq_some_iff,
    some.injEq]
  exact ⟨_, x₁, hx₁, anObject, han, x₃, hx₃, i₃.replaceObject o anObject.objectVersion,
    map_eq_some_iff.2 ⟨i₃, hi₃, rfl⟩, rfl⟩

end Closed

section Loop

variable [DecidableEq U] {G N : U → Prop} {restored : Dictionary U ℤ}

def Within (G N : U → Prop) (s : ObjectState U P) : Prop := ∀ m ∈ s.members, G m ∨ N m

/-- What holds of the loaded objects while the objects found are restored. -/
structure Restoring (C : ManagedClass (ObjectState U P) μ Unit) (isProxy : U → Bool)
    (G N : U → Prop) (restored : Dictionary U ℤ) (x : Context U P μ)
    (L : ContextLog U (ObjectState U P)) : Prop where
  represents : Represents C isProxy x L
  settled : Settled C G N x
  restorable : Restorable (Within G N) restored L
  mergePolicy : x.mergePolicy = .oldChildren
  isRestoringContext : x.isRestoringContext = true

namespace Restoring

theorem found (h : Restoring C isProxy G N restored x L) {n : ℤ} (hn : restored.lookup o = some n) :
    ¬ N o ∧ ∃ s, L.stateAt o n = some s ∧ Within G N s := by
  obtain ⟨s, hs, hin⟩ := h.restorable o n hn
  refine ⟨fun hN => ?_, s, hs, hin⟩
  have hneg := h.settled.unknown o hN
  rw [h.represents.metadata] at hneg
  obtain ⟨-, hs⟩ := ContextLog.stateAt_eq_some.1 hs
  obtain ⟨hlt, -⟩ := List.getElem?_eq_some_iff.1 hs
  unfold ContextLog.lastObjectVersion at hneg
  omega

omit [DecidableEq U] in
theorem fits_deserialized {s : ObjectState U P} (hs : Within G N s) (v : ℤ) (x : Context U P μ) :
    Fits G N (fun _ _ => False)
      ⟨v, s, fun m => if (x.registered m).isSome then .registered else .fault⟩ := by
  refine ⟨fun m hm _ => hs m hm, fun m _ _ v' hv' => ?_⟩
  simp only at hv'
  split_ifs at hv'

theorem objectByRestoringObject (h : Restoring C isProxy G N restored x L) {i : Instance U P}
    (hi : x.registered o = some i) {n : ℤ} (hn : restored.lookup o = some n)
    (hne : n ≠ i.objectVersion) :
    (∀ x', x.objectByRestoringObject C isProxy o i n = some x' → Settled C G N x') ∧
    (ProxiesLoaded isProxy G x →
      ∃ x', x.objectByRestoringObject C isProxy o i n = some x') := by
  obtain ⟨hN, s, hs, hin⟩ := h.found hn
  have hres := h.represents.objectByRestoringObject_eq hs hne
  have hfits := fits_deserialized hin n x
  have hG := h.settled.graph o i hi
  unfold Context.objectByRestoringObject
  simp only [hres, bind_eq_bind, bind_some, if_neg hne]
  split_ifs with hp
  · refine ⟨fun x' hx' => ?_, fun _ => ⟨_, rfl⟩⟩
    obtain rfl := some.inj hx'
    exact h.settled.commitMerge hG hN hfits _
  · exact ⟨fun x' hx' => h.settled.replaceObject hN hfits hx',
      fun hload => h.settled.exists_replaceObject hload (by simp [hi]) hfits⟩

theorem objectForUUIDVersion (h : Restoring C isProxy G N restored x L)
    (hn : x.registered o = none) {n : ℤ} (hG : G o) (hfound : restored.lookup o = some n) :
    (∀ x', x.objectForUUIDVersion C isProxy o n = some x' → Settled C G N x') ∧
    (ProxiesLoaded isProxy G x → ∃ x', x.objectForUUIDVersion C isProxy o n = some x') := by
  obtain ⟨hN, s, hs, hin⟩ := h.found hfound
  have hres := h.represents.restore_eq hs
  unfold Context.objectForUUIDVersion deserialize
  split_ifs with hp
  · refine ⟨fun x' hx' => by simp at hx', fun hload => ?_⟩
    have := hload o hG hp
    simp [hn] at this
  · simp only [hres, map_some, bind_eq_bind, bind_some]
    refine ⟨fun x' hx' => ?_, fun _ => ⟨_, rfl⟩⟩
    obtain rfl := some.inj hx'
    exact h.settled.commitMerge hG hN (fits_deserialized hin n x) _

theorem restoreObjectIfNeeded (h : Restoring C isProxy G N restored x L) (hG : G o)
    (ho : o ∈ restored) :
    (∀ x', x.restoreObjectIfNeeded C isProxy restored o = some x' →
      SameControl x x' ∧ ∃ L', Restoring C isProxy G N restored x' L') ∧
    (ProxiesLoaded isProxy G x → ∃ x', x.restoreObjectIfNeeded C isProxy restored o = some x') := by
  have hstep : (∀ x', x.restoreObjectIfNeeded C isProxy restored o = some x' → Settled C G N x') ∧
      (ProxiesLoaded isProxy G x →
        ∃ x', x.restoreObjectIfNeeded C isProxy restored o = some x') := by
    obtain ⟨n, hn⟩ := isSome_iff_exists.1 (AList.lookup_isSome.2 ho)
    have hn' : restored.objectForKey o = some n := hn
    unfold Context.restoreObjectIfNeeded
    simp only [hn', bind_eq_bind, bind_some]
    rcases hi : x.registered o with _ | i
    · split_ifs with hup
      · exact ⟨fun x' hx' => some.inj hx' ▸ h.settled, fun _ => ⟨x, rfl⟩⟩
      · exact h.objectForUUIDVersion hi hG hn
    · simp only
      split_ifs with hup
      · exact ⟨fun x' hx' => some.inj hx' ▸ h.settled, fun _ => ⟨x, rfl⟩⟩
      · exact h.objectByRestoringObject hi hn hup
  refine ⟨fun x' hx' => ?_, hstep.2⟩
  obtain ⟨L', -, hr, hres, hc⟩ := h.represents.restoreObjectIfNeeded h.mergePolicy
    h.isRestoringContext h.restorable hx'
  exact ⟨hc, L', hr, hstep.1 x' hx', hres, hc.mergePolicy.trans h.mergePolicy,
    hc.isRestoringContext.trans h.isRestoringContext⟩

end Restoring

end Loop

section Graph

variable [DecidableEq U] {ctx : U} {T : Timeline U (ObjectState U P)}

def StaleFree (x : Context U P μ) : Prop :=
  ∀ o i, x.registered o = some i → ∀ m ∈ i.state.members, ∀ v, i.references m ≠ .unregistered v

/-- A restore to the graph `g` resolves no fault for an object that is stored but not in `g`: what
the objects of `g` refer to is in `g`, in their state there, where they are loaded as a fault, and
in their last state where they are not. -/
structure NoStrayFaults (C : ManagedClass (ObjectState U P) μ Unit) (x : Context U P μ)
    (g : U → Option (ObjectState U P)) : Prop where
  restored : ∀ o s, g o = some s → ∀ m ∈ s.members, (g m).isSome ∨ x.metadata m < 0
  loaded : ∀ o i, (g o).isSome → x.registered o = some i → ∀ m ∈ i.state.members,
    i.references m = .fault → (g m).isSome ∨ x.metadata m < 0
  unloaded : ∀ o s, (g o).isSome → x.registered o = none →
    (x.bundles o).restore C (fun _ => ()) (x.metadata o) = some s →
    ∀ m ∈ s.members, (g m).isSome ∨ x.metadata m < 0

omit [DecidableEq U] in
theorem staleFree_iff : StaleFree x ↔ Settled C (fun _ => True) (fun _ => False) x := by
  constructor
  · intro h
    exact ⟨fun _ _ _ => trivial, fun _ hN => hN.elim, fun _ _ _ _ _ _ => .inl trivial,
      fun _ _ _ _ _ _ _ => .inl trivial, fun o i hi m hm _ v hv => h o i hi m hm v hv⟩
  · exact fun h o i hi m hm v hv => h.current o i hi m hm (.inl trivial) v hv

theorem settled_discard (h : Represents C isProxy x L) (hstale : StaleFree x)
    {g : U → Option (ObjectState U P)} (hns : NoStrayFaults C x g) {restored : Dictionary U ℤ}
    (hmem : ∀ o, o ∈ restored ↔ (g o).isSome) :
    Settled C (fun o => (g o).isSome) (fun o => x.metadata o < 0)
      (x.unregisterObjects (· ∉ restored)) := by
  have hreg : ∀ o i, (x.unregisterObjects (· ∉ restored)).registered o = some i →
      (g o).isSome ∧ ∃ j, x.registered o = some j ∧
        i = j.detach x.registered (· ∉ restored) := fun o i hi => by
    simp only [unregisterObjects] at hi
    split_ifs at hi with hr
    obtain ⟨j, hj, rfl⟩ := map_eq_some_iff.1 hi
    exact ⟨(hmem o).1 (by simpa using hr), j, hj, rfl⟩
  refine ⟨fun o i hi => (hreg o i hi).1, fun _ hN => hN, fun o i hi m hm hf => ?_,
    fun o s hG hn hs => ?_, fun o i hi m hm hG v hv => ?_⟩
  · obtain ⟨hG, j, hj, rfl⟩ := hreg o i hi
    refine hns.loaded o j hG hj m hm ?_
    simp only [Instance.detach] at hf
    split at hf
    · split_ifs at hf
    · exact hf
  · refine hns.unloaded o s hG ?_ hs
    simpa [unregisterObjects, (hmem o).2 hG] using hn
  · obtain ⟨-, j, hj, rfl⟩ := hreg o i hi
    simp only [Instance.detach] at hv
    split at hv
    · rename_i anObject _ han
      split_ifs at hv with hr
      rcases hG with hG | hneg
      · simp [(hmem m).2 hG] at hr
      · have hlast := h.upToDate m anObject han
        rw [h.metadata, ContextLog.lastObjectVersion] at hneg
        have hnil : L.recorded m = [] := length_eq_zero_iff.1 (by omega)
        simp [UpToDate, hnil] at hlast
    · exact hstale o j hj m hm v hv

/-- A restore that resolves no stray fault loads objects of the graph only, and no group is left
with an instance that was replaced or discarded. -/
theorem Backed.restore_settled (h : Backed C isProxy ctx x L T)
    (hpol : x.mergePolicy = .oldChildren) {w : ℕ} (hw : w < x.version)
    {restored : Dictionary U ℤ} {order : List U} (hd : x.find w = some restored)
    (ho : order.Perm restored.keys) (hstale : StaleFree x)
    (hns : NoStrayFaults C x (T.view w)) :
    (∀ x', x.restoreToVersion C isProxy w order = some x' →
      (∀ o, (x'.registered o).isSome → (T.view w o).isSome) ∧ StaleFree x') ∧
    (ProxiesLoaded isProxy (fun o => (T.view w o).isSome) x →
      ∃ x', x.restoreToVersion C isProxy w order = some x') := by
  have hwL : w < L.version := h.version ▸ hw
  have hdL : L.find w = some restored := (find_eq h.toPersists w).symm.trans hd
  obtain ⟨hmem, hfound⟩ := h.run.found hwL.le hdL
  set G : U → Prop := fun o => (T.view w o).isSome
  set N : U → Prop := fun o => x.metadata o < 0
  set x₁ : Context U P μ := { x with isRestoringContext := true, version := x.version + 1 }
  set x₂ := x₁.unregisterObjects (· ∉ restored)
  -- before the first object is restored
  have h₂ : Restoring C isProxy G N restored x₂ { L with version := L.version + 1 } :=
    { represents := h.beginRestore.discard _
      settled := { settled_discard h.toRepresents hstale hns hmem with }
      restorable := fun o n hn => by
        obtain ⟨s, hs, hview⟩ := hfound o n hn
        exact ⟨s, hs, hns.restored o s hview⟩
      mergePolicy := hpol
      isRestoringContext := rfl }
  have hall : ∀ o ∈ order, o ∈ restored := fun o ho' => ho.mem_iff.1 ho'
  have hrun' := restoreToVersion_of_find C isProxy hw hd order
  constructor
  · intro x' hx'
    obtain ⟨L', hL', -⟩ := h.restore hpol hw hd ho hx'
    rw [hrun'] at hx'
    obtain ⟨y, hy, hx'⟩ := bind_eq_some_iff.1 hx'
    obtain ⟨-, M, hM⟩ := foldlM_preserves
      (I := fun rest y => (∀ o ∈ rest, o ∈ restored) ∧ ∃ M, Restoring C isProxy G N restored y M)
      (fun o rest y y' hI hy' => by
        obtain ⟨hrest, M, hM⟩ := hI
        have ho := hrest o mem_cons_self
        exact ⟨fun o' ho' => hrest o' (mem_cons_of_mem _ ho'),
          ((hM.restoreObjectIfNeeded ((hmem o).1 ho) ho).1 y' hy').2⟩)
      order x₂ y ⟨hall, _, h₂⟩ hy
    have hsettled : Settled C G N y.resolvePendingFaults :=
      hM.settled.reloads (reloads_replaceFaults (F := fun _ => False) y _) fun _ hF => hF.elim
    obtain rfl := some.inj hx'
    refine ⟨fun o hsome => ?_, fun o i hi m hm v hv => ?_⟩
    · obtain ⟨i, hi⟩ := isSome_iff_exists.1 hsome
      exact hsettled.graph o i hi
    · -- the instance is in its state in the graph, whose members are in the graph
      obtain ⟨s, hs⟩ := isSome_iff_exists.1 (hsettled.graph o i hi)
      have his : s = i.state :=
        some.inj ((hL'.current o s (by rwa [Timeline.current_restore])).symm.trans
          (hL'.upToDate o i hi).2)
      exact hsettled.current o i hi m hm (hns.restored o s hs m (his ▸ hm)) v hv
  · intro hp
    have hp₂ : ProxiesLoaded isProxy G x₂ := fun m hG hpm => by
      have := hp m hG hpm
      simpa [x₂, x₁, unregisterObjects, (hmem m).2 hG] using this
    obtain ⟨y, hy, -⟩ := foldlM_succeeds (f := Context.restoreObjectIfNeeded C isProxy restored)
      (I := fun rest y => (∀ o ∈ rest, o ∈ restored) ∧ ProxiesLoaded isProxy G y ∧
        ∃ M, Restoring C isProxy G N restored y M)
      (fun o rest y hI => by
        obtain ⟨hrest, hpy, M, hM⟩ := hI
        have ho := hrest o mem_cons_self
        obtain ⟨hnext, hsome⟩ := hM.restoreObjectIfNeeded ((hmem o).1 ho) ho
        obtain ⟨y', hy'⟩ := hsome hpy
        obtain ⟨hc, hM'⟩ := hnext y' hy'
        exact ⟨y', hy', fun o' ho' => hrest o' (mem_cons_of_mem _ ho'),
          hpy.sameControl hc, hM'⟩)
      order x₂ ⟨hall, hp₂, _, h₂⟩
    exact ⟨_, by rw [hrun', hy, bind_some]⟩

theorem StaleFree.update (h : StaleFree x) {i : Instance U P}
    (hr : x'.registered = update x.registered o (some i))
    (hi : ∀ m ∈ i.state.members, ∀ v, i.references m ≠ .unregistered v) : StaleFree x' := by
  intro o' i' hi'
  rw [hr] at hi'
  by_cases ho : o' = o
  · subst ho
    obtain rfl : i = i' := by simpa using hi'
    exact hi
  · rw [update_of_ne ho] at hi'
    exact h o' i' hi'

theorem Step.staleFree {T' : Timeline U (ObjectState U P)} (hs : Step C isProxy x T x' T')
    (h : StaleFree x) : StaleFree x' := by
  have hsettled := (staleFree_iff (C := C)).1 h
  have hfresh : ∀ (r : U → Prop) [DecidablePred r] (m : U) (v : ℤ),
      (if r m then Reference.registered else .fault) ≠ .unregistered v := fun r _ m v => by
    split_ifs <;> simp
  cases hs with
  | insert o s _ _ =>
    exact h.update (update_idem _ _ _)
      fun m _ v => hfresh (fun m => m = o ∨ (x.registered m).isSome) m v
  | @save _ o i hi =>
    unfold Context.save
    rw [hi]
    exact h.update rfl (h o i hi)
  | @call _ _ o i i' n inv hi hx hi' hne _ =>
    simp only [Context.callMutator, hi, bind_eq_bind, bind_some,
      bind_eq_some_iff] at hx
    obtain ⟨a, -, hx⟩ := hx
    split_ifs at hx
    · exact some.inj hx ▸ h
    · obtain rfl := some.inj hx
      refine h.update rfl fun m _ v => ?_
      simp only
      split_ifs with hm
      · exact h o i hi m hm v
      all_goals simp
  | @restoreObject _ _ o i i' n hi hne hx hi' =>
    have hfits : ∀ s, Fits (fun _ => True) (fun _ => False) (fun _ _ => False)
        (⟨n, s, fun m => if (x.registered m).isSome then .registered else .fault⟩ :
          Instance U P) := fun s => Restoring.fits_deserialized (fun _ _ => .inl trivial) n x
    simp only [Context.objectByRestoringObject, bind_eq_bind, bind_eq_some_iff,
      if_neg hne] at hx
    obtain ⟨s, -, hx⟩ := hx
    refine (staleFree_iff (C := C)).2 ?_
    split_ifs at hx
    · obtain rfl := some.inj hx
      exact hsettled.commitMerge trivial id (hfits s) _
    · exact hsettled.replaceObject id (hfits s) hx
  | load hx =>
    exact staleFree_iff.2 (hsettled.reloads (reloads_objectForUUID hx) fun _ _ => .inl trivial)
  | resolveFaults hx =>
    exact staleFree_iff.2 (hsettled.reloads (reloads_resolveFaults hx) fun _ _ => .inl trivial)
  | setMergePolicy => exact h

end Graph

end Context

end Etoile.CoreObject
