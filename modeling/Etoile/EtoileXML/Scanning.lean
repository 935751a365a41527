import Mathlib.Data.List.Basic
import Mathlib.Order.Basic
import Etoile.EtoileXML.ETXMLParser

/-!
# What the scanning functions find

An index that is found lies in the buffer, at or after where the search began; a tag is found to
end in the buffer, and only a run of opening characters that reaches its end is read past it.
-/

namespace Etoile.EtoileXML

open List

section Except

variable {ε α β : Type} {x : Except ε α} {f : α → Except ε β} {e : ε} {b : β}

theorem bind_eq_ok : (x >>= f) = .ok b ↔ ∃ a, x = .ok a ∧ f a = .ok b := by
  rcases x with e | a
  · constructor
    · intro h
      cases h
    · rintro ⟨_, h, -⟩
      cases h
  · constructor
    · intro h
      exact ⟨a, rfl, h⟩
    · rintro ⟨_, h, hf⟩
      cases h
      exact hf

theorem bind_eq_error : (x >>= f) = .error e ↔ x = .error e ∨ ∃ a, x = .ok a ∧ f a = .error e := by
  rcases x with e' | a
  · constructor
    · intro h
      cases h
      exact .inl rfl
    · rintro (h | ⟨_, h, -⟩)
      · cases h
        rfl
      · cases h
  · constructor
    · intro h
      exact .inr ⟨a, rfl, h⟩
    · rintro (h | ⟨_, h, hf⟩)
      · cases h
      · cases h
        exact hf

theorem orFail_eq_ok {failure : TagFailure} {o : Option α} {a : α} :
    orFail failure o = .ok a ↔ o = some a := by
  rcases o with _ | b
  · simp [orFail]
  · simp [orFail]

theorem orFail_eq_error {failure failure' : TagFailure} {o : Option α} :
    orFail failure o = .error failure' ↔ o = none ∧ failure = failure' := by
  rcases o with _ | b
  · simp [orFail]
  · simp [orFail]

end Except

section Scans

variable {p : Char → Bool} {buffer s t : NSString} {index i j : ℕ} {c : Char}

theorem scanWhile_append : ∀ {pre : NSString} {rest : NSString} {i : ℕ}, (∀ x ∈ pre, p x = true) →
    scanWhile p (pre ++ rest) i = scanWhile p rest (i + pre.length)
  | [], _, _, _ => rfl
  | x :: pre, rest, i, h => by
    rw [cons_append, scanWhile, if_pos (h x (by simp)),
      scanWhile_append fun y hy => h y (by simp [hy]), length_cons]
    congr 1
    omega

theorem scanWhile_found (hpre : ∀ x ∈ s, p x = true) (hc : p c = false) (rest : NSString) (i : ℕ) :
    scanWhile p (s ++ c :: rest) i = some (i + s.length) := by
  rw [scanWhile_append hpre, scanWhile, hc]
  rfl

theorem scanWhile_eq_none : ∀ {s : NSString} {i : ℕ}, scanWhile p s i = none ↔ ∀ x ∈ s, p x = true
  | [], _ => by simp [scanWhile]
  | c :: s, i => by
    rw [scanWhile]
    split_ifs with hc
    · rw [scanWhile_eq_none]
      simp [hc]
    · simp [hc]

theorem scanWhile_eq_some : ∀ {s : NSString} {i j : ℕ}, scanWhile p s i = some j →
    ∃ pre c rest, s = pre ++ c :: rest ∧ (∀ x ∈ pre, p x = true) ∧ p c = false
      ∧ j = i + pre.length
  | c :: s, i, j, h => by
    rw [scanWhile] at h
    split_ifs at h with hc
    · obtain ⟨pre, d, rest, rfl, hpre, hd, rfl⟩ := scanWhile_eq_some h
      refine ⟨c :: pre, d, rest, rfl, ?_, hd, ?_⟩
      · intro x hx
        rcases mem_cons.1 hx with rfl | hx
        · exact hc
        · exact hpre x hx
      · rw [length_cons]
        omega
    · simp only [Option.some.injEq] at h
      exact ⟨[], c, s, rfl, by simp, by simpa using hc, h.symm⟩

theorem scan_drop (h : scanWhile p (buffer.drop i) i = some j) :
    i ≤ j ∧ ∃ c, buffer[j]? = some c ∧ p c = false := by
  obtain ⟨pre, c, rest, hs, -, hc, rfl⟩ := scanWhile_eq_some h
  refine ⟨Nat.le_add_right _ _, c, ?_, hc⟩
  rw [← getElem?_drop, hs]
  simp

theorem lt_length_of_getElem? (h : buffer[i]? = some c) : i < buffer.length :=
  (List.getElem?_eq_some_iff.1 h).1

theorem parseFrom_spec (h : parseFrom buffer i c = some j) : i ≤ j ∧ buffer[j]? = some c := by
  obtain ⟨hle, d, hd, hcd⟩ := scan_drop h
  simp only [ne_eq, decide_not, Bool.not_eq_false', decide_eq_true_eq] at hcd
  exact ⟨hle, hcd ▸ hd⟩

theorem parseFrom_lt (h : parseFrom buffer i c = some j) : j < buffer.length :=
  lt_length_of_getElem? (parseFrom_spec h).2

theorem ignoreWhiteSpaceFrom_spec (h : ignoreWhiteSpaceFrom buffer i = some j) :
    i ≤ j ∧ j < buffer.length := by
  obtain ⟨hle, c, hc, -⟩ := scan_drop h
  exact ⟨hle, lt_length_of_getElem? hc⟩

theorem scanName_le {start : NSString} : ∀ {s : NSString} {n : ℕ}, n ≤ (scanName start s n).1
  | [], n => Nat.le_refl n
  | [_], n => Nat.le_refl n
  | c :: d :: s, n => by
    rw [scanName]
    split_ifs
    · exact Nat.le_refl n
    · exact Nat.le_succ n
    · exact Nat.le_trans (Nat.le_succ n) scanName_le

theorem scanName_isCDATA {start : NSString} : ∀ {s : NSString} {n k : ℕ},
    scanName start s n = (k, true) → k = 8
  | [], _, _, h => by simp [scanName] at h
  | [_], _, _, h => by simp [scanName] at h
  | c :: d :: s, n, k, h => by
    rw [scanName] at h
    split_ifs at h with hc h8
    · simp at h
    · simp only [Prod.mk.injEq, and_true] at h
      omega
    · exact scanName_isCDATA h

theorem scanName_lt {start : NSString} : ∀ {s : NSString} {n : ℕ}, s ≠ [] →
    (scanName start s n).1 < n + s.length
  | [], _, h => absurd rfl h
  | [_], n, _ => Nat.lt_succ_self n
  | c :: d :: s, n, _ => by
    rw [scanName]
    split_ifs
    · simp
    · simp
    · have := @scanName_lt start (d :: s) (n + 1) (by simp)
      simp only [length_cons] at this ⊢
      omega

/-- The name ends at a character that no name has, if more than the last character is left. -/
theorem scanName_stop {start : NSString} : ∀ {s : NSString} {n k : ℕ},
    scanName start s n = (n, false) → k = s.length → k ≤ 1 ∨ ∃ c, s[0]? = some c
      ∧ (isspace c = true ∨ c = '>' ∨ c = '/')
  | [], _, _, _, hk => .inl (by simp [hk])
  | [_], _, _, _, hk => .inl (by simp [hk])
  | c :: d :: s, n, _, h, _ => by
    rw [scanName] at h
    split_ifs at h with hc h8
    · exact .inr ⟨c, rfl, by simpa [or_assoc] using hc⟩
    · simp at h
    · have := @scanName_le start (d :: s) (n + 1)
      rw [h] at this
      exact absurd this (Nat.not_succ_le_self n)

end Scans

section Attributes

variable {buffer : NSString} {mode : MarkupLanguage} {current start fuel : ℕ}
  {attributes : Attributes} {failure : TagFailure}

theorem parseValue_ok {value : NSString} {i : ℕ}
    (h : parseValue buffer mode current = .ok (value, i)) : current ≤ i := by
  obtain ⟨quote, -, h⟩ := bind_eq_ok.1 h
  split_ifs at h with hq hm
  · obtain ⟨j, hj, h⟩ := bind_eq_ok.1 h
    have := (parseFrom_spec (orFail_eq_ok.1 hj)).1
    cases h
    omega
  · obtain ⟨j, hj, h⟩ := bind_eq_ok.1 h
    have := (scan_drop (orFail_eq_ok.1 hj)).1
    cases h
    omega

theorem parseValue_error (hc : current < buffer.length)
    (h : parseValue buffer mode current = .error failure) :
    failure = .TEMPORARYFAILURE ∨ failure = .FAILURE := by
  rcases bind_eq_error.1 h with h | ⟨quote, -, h⟩
  · have := getElem?_eq_none_iff.1 (orFail_eq_error.1 h).1
    omega
  split_ifs at h with hq hm
  · rcases bind_eq_error.1 h with h | ⟨j, -, h⟩
    · exact .inl (orFail_eq_error.1 h).2.symm
    · cases h
  · cases h
    exact .inr rfl
  · rcases bind_eq_error.1 h with h | ⟨j, -, h⟩
    · exact .inl (orFail_eq_error.1 h).2.symm
    · cases h

theorem parseAttribute_ok {i : ℕ} {attributes' : Attributes}
    (h : parseAttribute buffer mode start attributes = .ok (i, attributes')) :
    start < i ∧ i < buffer.length := by
  obtain ⟨j, hj, h⟩ := bind_eq_ok.1 h
  have hj := (parseFrom_spec (orFail_eq_ok.1 hj)).1
  dsimp only at h
  split_ifs at h with hlt
  · cases h
  obtain ⟨⟨value, k⟩, hk, h⟩ := bind_eq_ok.1 h
  have hk := parseValue_ok hk
  obtain ⟨l, hl, h⟩ := bind_eq_ok.1 h
  obtain ⟨hle, hlen⟩ := ignoreWhiteSpaceFrom_spec (orFail_eq_ok.1 hl)
  cases h
  omega

theorem parseAttribute_error
    (h : parseAttribute buffer mode start attributes = .error failure) :
    failure = .TEMPORARYFAILURE ∨ failure = .FAILURE := by
  rcases bind_eq_error.1 h with h | ⟨j, hj, h⟩
  · exact .inl (orFail_eq_error.1 h).2.symm
  dsimp only at h
  split_ifs at h with hlt
  · cases h
    exact .inl rfl
  rcases bind_eq_error.1 h with h | ⟨⟨value, k⟩, hk, h⟩
  · exact parseValue_error (by omega) h
  rcases bind_eq_error.1 h with h | ⟨l, hl, h⟩
  · exact .inl (orFail_eq_error.1 h).2.symm
  · cases h

theorem parseAttributes_ok : ∀ {fuel start : ℕ} {attributes : Attributes} {i : ℕ}
    {attributes' : Attributes}, parseAttributes buffer mode fuel start attributes
      = .ok (i, attributes') → start ≤ i ∧ i < buffer.length
  | fuel + 1, start, attributes, i, attributes', h => by
    obtain ⟨c, hc, h⟩ := bind_eq_ok.1 h
    have hlt := lt_length_of_getElem? (orFail_eq_ok.1 hc)
    split_ifs at h with hloop hend
    · obtain ⟨⟨j, attributes⟩, hj, h⟩ := bind_eq_ok.1 h
      have hj := parseAttribute_ok hj
      have := parseAttributes_ok h
      omega
    · cases h
      exact ⟨Nat.le_refl start, hlt⟩

theorem parseAttributes_error : ∀ {fuel start : ℕ} {attributes : Attributes},
    start < buffer.length → buffer.length < fuel + start →
    parseAttributes buffer mode fuel start attributes = .error failure →
    failure = .TEMPORARYFAILURE ∨ failure = .FAILURE
  | 0, _, _, hlt, hfuel, _ => by omega
  | fuel + 1, start, attributes, hlt, hfuel, h => by
    rcases bind_eq_error.1 h with h | ⟨c, -, h⟩
    · have := getElem?_eq_none_iff.1 (orFail_eq_error.1 h).1
      omega
    split_ifs at h with hloop hend
    · rcases bind_eq_error.1 h with h | ⟨⟨j, attributes⟩, hj, h⟩
      · exact parseAttribute_error h
      · have hj := parseAttribute_ok hj
        exact parseAttributes_error hj.2 (by omega) h
    · cases h
    · cases h
      exact .inl rfl

theorem parseAttributes_end : ∀ {fuel start : ℕ} {attributes : Attributes} {i : ℕ}
    {attributes' : Attributes}, parseAttributes buffer mode fuel start attributes
      = .ok (i, attributes') → buffer[i]? = some '>' ∨ isEndAfter buffer i = true
  | fuel + 1, start, attributes, i, attributes', h => by
    obtain ⟨c, hc, h⟩ := bind_eq_ok.1 h
    split_ifs at h with hloop hend
    · obtain ⟨⟨j, attributes⟩, -, h⟩ := bind_eq_ok.1 h
      exact parseAttributes_end h
    · cases h
      rcases hend with rfl | hend
      · exact .inl (orFail_eq_ok.1 hc)
      · exact .inr hend

end Attributes

section Tags

variable {buffer : NSString} {mode : MarkupLanguage} {index : ℕ} {tag : Tag}

/-- After white space there is nothing but opening characters, and some of them. -/
def OpeningOnly (s : NSString) : Prop :=
  s.dropWhile isspace ≠ [] ∧ ∀ c ∈ s.dropWhile isspace, (c = '<' || c = '/') = true

instance (s : NSString) : Decidable (OpeningOnly s) := inferInstanceAs (Decidable (_ ∧ _))

theorem scanWhile_drop {p : Char → Bool} : ∀ {s : NSString} {i : ℕ},
    match scanWhile p s i with
    | none => s.dropWhile p = []
    | some j => i ≤ j ∧ s.drop (j - i) = s.dropWhile p ∧ s.dropWhile p ≠ []
  | [], _ => rfl
  | c :: s, i => by
    have ih := @scanWhile_drop p s (i + 1)
    rw [scanWhile]
    by_cases hc : p c = true
    · rw [if_pos hc, dropWhile_cons_of_pos hc]
      cases hs : scanWhile p s (i + 1) with
      | none =>
        rw [hs] at ih
        exact ih
      | some j =>
        rw [hs] at ih
        obtain ⟨hle, hdrop, hne⟩ := ih
        obtain ⟨k, rfl⟩ := Nat.exists_eq_add_of_le hle
        refine ⟨by omega, ?_, hne⟩
        rw [← hdrop, show i + 1 + k - i = k + 1 by omega, show i + 1 + k - (i + 1) = k by omega,
          drop_succ_cons]
    · rw [if_neg hc]
      simp [hc]

theorem ignoreWhiteSpaceFrom_drop {buffer : NSString} {i : ℕ} :
    match ignoreWhiteSpaceFrom buffer i with
    | none => (buffer.drop i).dropWhile isspace = []
    | some j => buffer.drop j = (buffer.drop i).dropWhile isspace
        ∧ (buffer.drop i).dropWhile isspace ≠ [] := by
  have h := @scanWhile_drop isspace (buffer.drop i) i
  unfold ignoreWhiteSpaceFrom
  cases hs : scanWhile isspace (buffer.drop i) i with
  | none =>
    rw [hs] at h
    exact h
  | some j =>
    rw [hs] at h
    obtain ⟨hle, hdrop, hne⟩ := h
    rw [drop_drop, Nat.add_sub_cancel' hle] at hdrop
    exact ⟨hdrop, hne⟩

theorem parseTagFrom_ok (h : parseTagFrom buffer mode index = .ok tag) :
    index ≤ tag.index ∧ tag.index < buffer.length
      ∧ (tag.index = index → buffer[index]? = some '>') := by
  obtain ⟨i, hi, h⟩ := bind_eq_ok.1 h
  obtain ⟨j, hj, h⟩ := bind_eq_ok.1 h
  obtain ⟨k, hk, h⟩ := bind_eq_ok.1 h
  have hi := (ignoreWhiteSpaceFrom_spec (orFail_eq_ok.1 hi)).1
  obtain ⟨hj, c, hc, hcj⟩ := scan_drop (orFail_eq_ok.1 hj)
  obtain ⟨hjk, d, hd, hdk⟩ := scan_drop (orFail_eq_ok.1 hk)
  have hlen := lt_length_of_getElem? hd
  rcases hname : scanName (buffer.drop k) (buffer.drop k) 0 with ⟨n, isCDATA⟩
  have hne : buffer.drop k ≠ [] := by
    rw [ne_eq, drop_eq_nil_iff]
    omega
  have hn := @scanName_lt (buffer.drop k) (buffer.drop k) 0 hne
  rw [hname, length_drop] at hn
  simp only [hname] at h
  split_ifs at h with hCDATA hcomment
  · cases h
    subst hCDATA
    have := scanName_isCDATA hname
    dsimp only
    omega
  · obtain ⟨l, hl, h⟩ := bind_eq_ok.1 h
    cases h
    have hspec := parseFrom_spec (orFail_eq_ok.1 hl)
    refine ⟨by dsimp only; omega, parseFrom_lt (orFail_eq_ok.1 hl), ?_⟩
    dsimp only
    rintro rfl
    exact hspec.2
  · obtain ⟨l, hl, h⟩ := bind_eq_ok.1 h
    obtain ⟨⟨m, attributes⟩, hm, h⟩ := bind_eq_ok.1 h
    cases h
    have hl := (ignoreWhiteSpaceFrom_spec (orFail_eq_ok.1 hl)).1
    have hspec := parseAttributes_ok hm
    refine ⟨by dsimp only; omega, hspec.2, ?_⟩
    dsimp only
    rintro rfl
    obtain rfl : j = m := by omega
    obtain rfl : k = j := by omega
    obtain rfl : n = 0 := by omega
    rcases parseAttributes_end hm with hend | hend
    · exact hend
    -- the name is empty, so the character here ends one
    have hCDATA : isCDATA = false := by simpa using hCDATA
    subst hCDATA
    have hafter := lt_length_of_getElem? (of_decide_eq_true hend)
    rcases scanName_stop hname rfl with h1 | ⟨e, he, h1⟩
    · rw [length_drop] at h1
      omega
    rw [getElem?_drop, Nat.add_zero] at he
    obtain rfl : e = c := Option.some.inj (he.symm.trans hc)
    obtain rfl : e = d := Option.some.inj (he.symm.trans hd)
    rcases h1 with h1 | rfl | rfl
    · rw [h1] at hdk
      cases hdk
    · exact hc
    · cases hcj

theorem parseTagFrom_error {failure : TagFailure}
    (h : parseTagFrom buffer mode index = .error failure) :
    failure = .TEMPORARYFAILURE ∨ failure = .FAILURE
      ∨ failure = .raised ∧ OpeningOnly (buffer.drop index) := by
  rcases bind_eq_error.1 h with h | ⟨i, hi, h⟩
  · exact .inl (orFail_eq_error.1 h).2.symm
  rcases bind_eq_error.1 h with h | ⟨j, hj, h⟩
  · obtain ⟨hall, rfl⟩ := orFail_eq_error.1 h
    have hi' := @ignoreWhiteSpaceFrom_drop buffer index
    rw [orFail_eq_ok.1 hi] at hi'
    refine .inr (.inr ⟨rfl, hi'.2, ?_⟩)
    rw [← hi'.1]
    exact scanWhile_eq_none.1 hall
  rcases bind_eq_error.1 h with h | ⟨k, hk, h⟩
  · exact .inl (orFail_eq_error.1 h).2.symm
  dsimp only at h
  split_ifs at h with hCDATA hcomment
  · cases h
  · rcases bind_eq_error.1 h with h | ⟨l, hl, h⟩
    · exact .inl (orFail_eq_error.1 h).2.symm
    · cases h
  · rcases bind_eq_error.1 h with h | ⟨l, hl, h⟩
    · exact .inl (orFail_eq_error.1 h).2.symm
    rcases bind_eq_error.1 h with h | ⟨⟨m, attributes⟩, hm, h⟩
    · have hl := (ignoreWhiteSpaceFrom_spec (orFail_eq_ok.1 hl)).2
      rcases parseAttributes_error hl (by omega) h with h | h
      · exact .inl h
      · exact .inr (.inl h)
    · cases h

theorem parseTagFrom_raised : parseTagFrom buffer mode index = .error .raised
    ↔ OpeningOnly (buffer.drop index) := by
  constructor
  · intro h
    rcases parseTagFrom_error h with h | h | ⟨-, h⟩
    · cases h
    · cases h
    · exact h
  · rintro ⟨hne, hall⟩
    have hi := @ignoreWhiteSpaceFrom_drop buffer index
    unfold parseTagFrom
    cases hs : ignoreWhiteSpaceFrom buffer index with
    | none =>
      rw [hs] at hi
      exact absurd hi hne
    | some i =>
      rw [hs] at hi
      rw [← hi.1, ← @scanWhile_eq_none (fun c => c = '<' || c = '/') _ i] at hall
      refine bind_eq_error.2 (.inr ⟨i, rfl, bind_eq_error.2 (.inl ?_)⟩)
      rw [hall]
      rfl

end Tags

end Etoile.EtoileXML
