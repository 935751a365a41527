import Etoile.Lib.Fuel
import Mathlib.Data.Set.Finite.Basic

/-!
# Walks that keep no record

What is found along the links from a point is collected by recursion.  Nothing is kept of where the
recursion has been, so that it ends just where no link leads back.
-/

namespace Etoile

open List Relation

section Acyclic

variable {α : Type*} {r : α → α → Prop} {a : α}

theorem not_self_of_acc (h : Acc r a) : ¬ r a a := by
  induction h with
  | intro a _ ih => exact fun ha => ih a ha ha

theorem acc_of_reflTransGen {b : α} (h : Acc (fun b a => r a b) a) (hb : ReflTransGen r a b) :
    Acc (fun b a => r a b) b := by
  induction hb with
  | refl => exact h
  | tail _ hstep ih => exact ih.inv hstep

theorem acyclic_of_acc (h : Acc (fun b a => r a b) a) {s : α} (hs : ReflTransGen r a s) :
    ¬ TransGen r s s :=
  fun hself => not_self_of_acc (acc_of_reflTransGen h hs).transGen hself.swap

theorem acc_iff_acyclic (hfin : { s | ReflTransGen r a s }.Finite) :
    Acc (fun b a => r a b) a ↔ ∀ s, ReflTransGen r a s → ¬ TransGen r s s := by
  refine ⟨fun h s hs => acyclic_of_acc h hs, fun h => ?_⟩
  have : Finite { s // ReflTransGen r a s } := hfin
  let below : { s // ReflTransGen r a s } → { s // ReflTransGen r a s } → Prop :=
    fun t s => TransGen r s.1 t.1
  have : IsTrans _ below := ⟨fun _ _ _ hab hbc => hbc.trans hab⟩
  have : Std.Irrefl below := ⟨fun s hs => h s.1 s.2 hs⟩
  have hwf : WellFounded below := Finite.wellFounded_of_trans_of_irrefl below
  have hacc : ∀ s : { s // ReflTransGen r a s }, Acc (fun b a => r a b) s.1 := by
    intro s
    induction hwf.apply s with
    | intro s _ ih =>
      exact .intro _ fun t ht => ih ⟨t, s.2.tail ht⟩ (.single ht)
  exact hacc ⟨a, .refl⟩

end Acyclic

section Gather

variable {α : Type*} [DecidableEq α] (next found : α → List α) (skip : α → α → Bool)

/-- What is found at a point and beyond it; `none` if the recursion is deeper than the fuel. -/
def gather : ℕ → α → Option (List α)
  | 0, _ => none
  | fuel + 1, a => (next a).foldlM (fun set b =>
      if skip a b then some set
      else (gather fuel b).map fun l => (set ++ l).dedup) (found a).dedup

def Followed (a b : α) : Prop := b ∈ next a ∧ skip a b = false

variable {next found skip} {a : α}

omit [DecidableEq α] in
theorem reflTransGen_cases (hskip : ∀ a b, skip a b = true → b = a) {s : α}
    (hs : ReflTransGen (fun a b => b ∈ next a) a s) :
    s = a ∨ ∃ b, Followed next skip a b ∧ ReflTransGen (fun a b => b ∈ next a) b s := by
  induction hs using ReflTransGen.head_induction_on with
  | refl => exact .inl rfl
  | head hb hs ih =>
    rename_i a b
    by_cases h : skip a b = true
    · obtain rfl := hskip a b h
      exact ih
    · exact .inr ⟨b, ⟨hb, by simpa using h⟩, hs⟩

/-- What is in the set, with what is beyond the links that are left, is all there is. -/
structure Gathering (next found : α → List α) (skip : α → α → Bool) (a : α) (set bs : List α) :
    Prop where
  nodup : set.Nodup
  subset : bs ⊆ next a
  mem_iff : ∀ o, (o ∈ set ∨ ∃ b ∈ bs, skip a b = false
      ∧ ∃ s, ReflTransGen (fun a b => b ∈ next a) b s ∧ o ∈ found s)
    ↔ ∃ s, ReflTransGen (fun a b => b ∈ next a) a s ∧ o ∈ found s

theorem gathering_start (hskip : ∀ a b, skip a b = true → b = a) :
    Gathering next found skip a (found a).dedup (next a) := by
  refine ⟨nodup_dedup _, fun o ho => ho, fun o => ?_⟩
  rw [mem_dedup]
  constructor
  · rintro (ho | ⟨b, hb, -, s, hs, ho⟩)
    · exact ⟨a, .refl, ho⟩
    · exact ⟨s, hs.head hb, ho⟩
  · rintro ⟨s, hs, ho⟩
    rcases reflTransGen_cases hskip hs with rfl | ⟨b, ⟨hb, hfalse⟩, hs⟩
    · exact .inl ho
    · exact .inr ⟨b, hb, hfalse, s, hs, ho⟩

/-- Where the links that are followed do not lead back, everything is found, as long as the others
lead nowhere else. -/
theorem gather_settles (hskip : ∀ a b, skip a b = true → b = a)
    (h : Acc (fun b a => Followed next skip a b) a) :
    ∃ l, Settles (fun fuel => gather next found skip fuel a) l ∧ l.Nodup
      ∧ ∀ o, o ∈ l ↔ ∃ s, ReflTransGen (fun a b => b ∈ next a) a s ∧ o ∈ found s := by
  induction h with
  | intro a _ ih =>
    have hstep : ∀ set b bs, Gathering next found skip a set (b :: bs) →
        ∃ set', Settles (fun fuel => if skip a b then some set
          else (gather next found skip fuel b).map fun l => (set ++ l).dedup) set'
          ∧ Gathering next found skip a set' bs := by
      rintro set b bs ⟨hnodup, hbs, hmem⟩
      cases hb : skip a b with
      | true =>
        refine ⟨set, settles_some set, hnodup, fun o ho => hbs (by simp [ho]), fun o => ?_⟩
        rw [← hmem]
        simp [hb]
      | false =>
        obtain ⟨l, hl, -, hfound⟩ := ih b ⟨hbs (by simp), hb⟩
        refine ⟨(set ++ l).dedup, ?_, nodup_dedup _, fun o ho => hbs (by simp [ho]), ?_⟩
        · exact hl.map _
        · intro o
          rw [← hmem, mem_dedup, mem_append, hfound]
          simp only [mem_cons, exists_eq_or_imp, hb, true_and]
          rw [or_assoc]
    obtain ⟨l, hl, hnodup, -, hmem⟩ := settles_foldlM (P := Gathering next found skip a) hstep
      (gathering_start hskip)
    refine ⟨l, settles_of_succ hl, hnodup, fun o => ?_⟩
    rw [← hmem]
    simp

theorem exists_of_foldlM {β γ : Type*} {f : β → γ → Option β} : ∀ {l : List γ} {b c : β},
    l.foldlM f b = some c → ∀ x ∈ l, ∃ b' c', f b' x = some c'
  | [], _, _, _, x, hx => by cases hx
  | y :: l, b, c, h, x, hx => by
    rw [foldlM_cons] at h
    obtain ⟨b', hb', h⟩ := Option.bind_eq_some_iff.1 h
    rcases mem_cons.1 hx with rfl | hx
    · exact ⟨b, b', hb'⟩
    · exact exists_of_foldlM h x hx

theorem subset_of_gather : ∀ {fuel : ℕ} {l : List α}, gather next found skip fuel a = some l →
    found a ⊆ l
  | 0, _, h => by cases h
  | fuel + 1, l, h => by
    have hfold : ∀ {bs set : List α}, bs.foldlM (fun set b => if skip a b then some set
        else (gather next found skip fuel b).map fun l => (set ++ l).dedup) set = some l →
        set ⊆ l := by
      intro bs
      induction bs with
      | nil =>
        intro set h
        obtain rfl := Option.some.inj h
        exact fun o ho => ho
      | cons b bs ih =>
        intro set h
        rw [foldlM_cons] at h
        obtain ⟨set', hset', h⟩ := Option.bind_eq_some_iff.1 h
        refine Subset.trans ?_ (ih h)
        split_ifs at hset'
        · obtain rfl := Option.some.inj hset'
          exact fun o ho => ho
        · obtain ⟨l', -, rfl⟩ := Option.map_eq_some_iff.1 hset'
          exact fun o ho => mem_dedup.2 (mem_append_left l' ho)
    exact fun o ho => hfold h (mem_dedup.2 ho)

theorem acc_of_gather : ∀ {fuel : ℕ} {a : α} {l : List α},
    gather next found skip fuel a = some l → Acc (fun b a => Followed next skip a b) a
  | 0, _, _, h => by cases h
  | fuel + 1, a, l, h => by
    refine .intro a fun b hb => ?_
    obtain ⟨set, set', hset⟩ := exists_of_foldlM h b hb.1
    rw [hb.2] at hset
    obtain ⟨l', hl', -⟩ := Option.map_eq_some_iff.1 hset
    exact acc_of_gather hl'

def Lists (f : ℕ → Option (List α)) (P : α → Prop) : Prop :=
  ∃ l, Settles f l ∧ l.Nodup ∧ ∀ o, o ∈ l ↔ P o

/-- Among finitely many points, a walk lists what is found exactly if nothing that it follows leads
back. -/
theorem lists_gather_iff {P : α → Prop} (hskip : ∀ a b, skip a b = true → b = a)
    (hfin : { s | ReflTransGen (fun a b => b ∈ next a) a s }.Finite)
    (hP : ∀ o, P o ↔ ∃ s, ReflTransGen (fun a b => b ∈ next a) a s ∧ o ∈ found s) :
    Lists (fun fuel => gather next found skip fuel a) P
      ↔ ∀ s, ReflTransGen (Followed next skip) a s → ¬ TransGen (Followed next skip) s s := by
  have hfollowed : { s | ReflTransGen (Followed next skip) a s }.Finite :=
    Set.Finite.subset hfin fun s hs => ReflTransGen.mono (fun _ _ h => h.1) a s hs
  rw [← acc_iff_acyclic hfollowed]
  constructor
  · rintro ⟨l, hl, -⟩
    obtain ⟨fuel, hfuel⟩ := hl.exists_eq
    exact acc_of_gather hfuel
  · intro h
    obtain ⟨l, hl, hnodup, hmem⟩ := gather_settles hskip h
    exact ⟨l, hl, hnodup, fun o => (hmem o).trans (hP o).symm⟩

end Gather

end Etoile
