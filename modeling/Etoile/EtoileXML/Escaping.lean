import Etoile.EtoileXML.Scanning

/-!
# Escaping and unescaping

Each character is escaped by itself.  Unescaping gives the text back if it holds neither `&apos;`
nor `&quot;`: the ampersands are unescaped before these two are.
-/

namespace Etoile.EtoileXML

open List

section Replace

variable {target replacement s : NSString} {c : Char}

theorem replaceFrom_skip : ∀ {n : ℕ} {s : NSString}, n ≤ s.length →
    replaceFrom target replacement n s = replaceFrom target replacement 0 (s.drop n)
  | 0, _, _ => by rw [drop_zero]
  | n + 1, _ :: s, h => by
    rw [replaceFrom, drop_succ_cons]
    exact replaceFrom_skip (Nat.le_of_succ_le_succ h)

theorem replaceFrom_cons (h : target.isPrefixOf (c :: s) = false) :
    replaceFrom target replacement 0 (c :: s) = c :: replaceFrom target replacement 0 s := by
  rw [replaceFrom, h]
  rfl

theorem replaceFrom_target (h : target ≠ []) :
    replaceFrom target replacement 0 (target ++ s)
      = replacement ++ replaceFrom target replacement 0 s := by
  obtain ⟨c, t, rfl⟩ := exists_cons_of_ne_nil h
  have hpre : (c :: t).isPrefixOf (c :: (t ++ s)) = true := by
    rw [List.isPrefixOf_iff_prefix]
    exact prefix_append (c :: t) s
  rw [cons_append, replaceFrom, if_pos hpre, length_cons, Nat.add_sub_cancel,
    replaceFrom_skip (by simp), drop_left]

theorem replaceFrom_char : ∀ s : NSString, replaceFrom [c] replacement 0 s
    = s.flatMap fun d => if d = c then replacement else [d]
  | [] => rfl
  | d :: s => by
    have ih := replaceFrom_char s
    rw [flatMap_cons, ← ih]
    split_ifs with h
    · subst h
      exact @replaceFrom_target [d] replacement s (by simp)
    · refine replaceFrom_cons ?_
      simp [isPrefixOf, Ne.symm h]

end Replace

def special : List Char := ['&', '<', '>', '\'', '"']

def escapeChar (c : Char) : NSString :=
  if c = '&' then "&amp;".toList else if c = '<' then "&lt;".toList
  else if c = '>' then "&gt;".toList else if c = '\'' then "&apos;".toList
  else if c = '"' then "&quot;".toList else [c]

theorem escapeChar_other {c : Char} (h : c ∉ special) : escapeChar c = [c] := by
  simp only [special, mem_cons, not_mem_nil, or_false, not_or] at h
  unfold escapeChar
  rw [if_neg h.1, if_neg h.2.1, if_neg h.2.2.1, if_neg h.2.2.2.1, if_neg h.2.2.2.2]

theorem escapeXMLCData_eq (s : NSString) : escapeXMLCData s = s.flatMap escapeChar := by
  unfold escapeXMLCData replaceOccurrences
  simp only [show "&".toList = ['&'] from rfl, show "<".toList = ['<'] from rfl,
    show ">".toList = ['>'] from rfl, show "'".toList = ['\''] from rfl,
    show "\"".toList = ['"'] from rfl, replaceFrom_char, flatMap_assoc]
  congr 1
  funext c
  by_cases h : c ∈ special
  · simp only [special, mem_cons, not_mem_nil, or_false] at h
    rcases h with rfl | rfl | rfl | rfl | rfl <;> decide
  · rw [escapeChar_other h]
    simp only [special, mem_cons, not_mem_nil, or_false, not_or] at h
    obtain ⟨h1, h2, h3, h4, h5⟩ := h
    rw [if_neg h1]
    simp only [flatMap_cons, flatMap_nil, if_neg h2, if_neg h3, if_neg h4, if_neg h5,
      append_nil]

theorem escapeXMLCData_append (s t : NSString) :
    escapeXMLCData (s ++ t) = escapeXMLCData s ++ escapeXMLCData t := by
  simp only [escapeXMLCData_eq, flatMap_append]

theorem escapeChar_ne_nil (c : Char) : escapeChar c ≠ [] := by
  by_cases h : c ∈ special
  · simp only [special, mem_cons, not_mem_nil, or_false] at h
    rcases h with rfl | rfl | rfl | rfl | rfl <;> decide
  · rw [escapeChar_other h]
    simp

theorem escapeXMLCData_eq_nil {s : NSString} : escapeXMLCData s = [] ↔ s = [] := by
  rw [escapeXMLCData_eq]
  constructor
  · intro h
    rcases s with _ | ⟨c, s⟩
    · rfl
    · rw [flatMap_cons] at h
      exact absurd (append_eq_nil_iff.1 h).1 (escapeChar_ne_nil c)
  · rintro rfl
    rfl

theorem not_mem_escapeXMLCData {c : Char} (h : c ∈ ['<', '>', '"']) (s : NSString) :
    c ∉ escapeXMLCData s := by
  rw [escapeXMLCData_eq, mem_flatMap]
  rintro ⟨d, -, hd⟩
  simp only [mem_cons, not_mem_nil, or_false] at h
  by_cases hs : d ∈ special
  · simp only [special, mem_cons, not_mem_nil, or_false] at hs
    rcases hs with rfl | rfl | rfl | rfl | rfl <;> rcases h with rfl | rfl | rfl <;>
      exact absurd hd (by decide)
  · rw [escapeChar_other hs, mem_singleton] at hd
    subst hd
    rcases h with rfl | rfl | rfl <;> exact hs (by decide)

section Unescape

variable {raw s : NSString} {c d : Char}

def escapeBut (raw : List Char) (c : Char) : NSString := if c ∈ raw then [c] else escapeChar c

theorem escapeBut_single (h : c ∈ raw ∨ c ∉ special) : escapeBut raw c = [c] := by
  unfold escapeBut
  split_ifs with hmem
  · rfl
  · exact escapeChar_other (h.resolve_left hmem)

theorem escapeBut_cons (h : c ≠ d) : escapeBut (d :: raw) c = escapeBut raw c := by
  unfold escapeBut
  simp [h]

theorem escapeChar_isPrefixOf (hc : c ∈ special) (hd : d ∈ special) (hne : c ≠ d) (s : NSString) :
    (escapeChar d).isPrefixOf (escapeChar c ++ s) = false := by
  simp only [special, mem_cons, not_mem_nil, or_false] at hc hd
  rcases hc with rfl | rfl | rfl | rfl | rfl <;> rcases hd with rfl | rfl | rfl | rfl | rfl <;>
    first | exact absurd rfl hne | rfl

theorem escapeChar_cons (hd : d ∈ special) : ∃ t, escapeChar d = '&' :: t ∧ t ≠ []
    ∧ ∀ e ∈ t, e ∉ special := by
  simp only [special, mem_cons, not_mem_nil, or_false] at hd
  rcases hd with rfl | rfl | rfl | rfl | rfl
  · exact ⟨"amp;".toList, by decide, by decide, by decide⟩
  · exact ⟨"lt;".toList, by decide, by decide, by decide⟩
  · exact ⟨"gt;".toList, by decide, by decide, by decide⟩
  · exact ⟨"apos;".toList, by decide, by decide, by decide⟩
  · exact ⟨"quot;".toList, by decide, by decide, by decide⟩

theorem replaceFrom_append {t replacement : NSString} : ∀ {u : NSString}, '&' ∉ u →
    replaceFrom ('&' :: t) replacement 0 (u ++ s) = u ++ replaceFrom ('&' :: t) replacement 0 s
  | [], _ => rfl
  | e :: u, h => by
    have he : ('&' :: t).isPrefixOf (e :: (u ++ s)) = false := by
      have : '&' ≠ e := fun heq => h (heq ▸ mem_cons_self)
      simp [isPrefixOf, this]
    rw [cons_append, replaceFrom_cons he, replaceFrom_append fun hm => h (by simp [hm])]
    rfl

theorem isPrefixOf_flatMap : ∀ {t s : NSString}, (∀ e ∈ t, e ∉ special) →
    t.isPrefixOf (s.flatMap (escapeBut raw)) = true → t.isPrefixOf s = true
  | [], _, _, _ => rfl
  | e :: t, [], _, h => h
  | e :: t, c :: s, ht, h => by
    have he := ht e (by simp)
    by_cases hraw : c ∈ raw ∨ c ∉ special
    · rw [flatMap_cons, escapeBut_single hraw] at h
      simp only [singleton_append, isPrefixOf, Bool.and_eq_true] at h ⊢
      exact ⟨h.1, isPrefixOf_flatMap (fun f hf => ht f (by simp [hf])) h.2⟩
    · rw [not_or, not_not] at hraw
      obtain ⟨u, hu, -⟩ := escapeChar_cons hraw.2
      rw [flatMap_cons, escapeBut, if_neg hraw.1, hu] at h
      simp only [cons_append, isPrefixOf, Bool.and_eq_true, beq_iff_eq] at h
      rw [h.1] at he
      exact absurd (by decide) he

theorem rangeOfString_cons {target : NSString} (h : rangeOfString target (c :: s) = none) :
    target.isPrefixOf (c :: s) = false ∧ rangeOfString target s = none := by
  rw [rangeOfString] at h
  split_ifs at h with hpre
  exact ⟨Bool.not_eq_true _ ▸ hpre, by simpa using h⟩

/-- The other characters stay as they are, unless an ampersand is not escaped. -/
theorem replaceFrom_other (hd : d ∈ special) (hcd : c ≠ d)
    (hc : c ∈ raw ∨ c ∉ special → c ≠ '&') :
    replaceFrom (escapeChar d) [d] 0 (escapeBut raw c ++ s.flatMap (escapeBut raw))
      = escapeBut (d :: raw) c ++ replaceFrom (escapeChar d) [d] 0 (s.flatMap (escapeBut raw)) := by
  obtain ⟨t, ht, -, -⟩ := escapeChar_cons hd
  rw [escapeBut_cons hcd]
  by_cases hcs : c ∈ raw ∨ c ∉ special
  · rw [escapeBut_single hcs, ht]
    exact replaceFrom_append (by simpa using (hc hcs).symm)
  · rw [not_or, not_not] at hcs
    obtain ⟨u, hu, -, husp⟩ := escapeChar_cons hcs.2
    have hpre := escapeChar_isPrefixOf hcs.2 hd hcd (s.flatMap (escapeBut raw))
    rw [escapeBut, if_neg hcs.1]
    rw [hu] at hpre ⊢
    refine (replaceFrom_cons hpre).trans ?_
    rw [ht]
    exact congrArg ('&' :: ·) (replaceFrom_append fun hm => husp '&' hm (by decide))

/-- Where ampersands are escaped, just the escapes of a character are unescaped. -/
theorem unescape_escaped (hd : d ∈ special) (hraw : d ∉ raw) (hamp : '&' ∉ raw) : ∀ s : NSString,
    replaceFrom (escapeChar d) [d] 0 (s.flatMap (escapeBut raw)) = s.flatMap (escapeBut (d :: raw))
  | [] => rfl
  | c :: s => by
    have ih := unescape_escaped hd hraw hamp s
    rw [flatMap_cons, flatMap_cons, ← ih]
    by_cases hcd : c = d
    · subst hcd
      rw [escapeBut, if_neg hraw, escapeBut, if_pos (by simp),
        replaceFrom_target (escapeChar_ne_nil c)]
    · refine replaceFrom_other hd hcd fun hcs hc => ?_
      subst hc
      rcases hcs with hmem | hmem
      · exact hamp hmem
      · exact hmem (by decide)

/-- Where ampersands are unescaped already, what they make an escape of is unescaped too. -/
theorem unescape_raw (hd : d ∈ special) (hraw : d ∉ raw) (hamp : '&' ∈ raw) : ∀ s : NSString,
    replaceFrom (escapeChar d) [d] 0 (s.flatMap (escapeBut raw))
      = (replaceFrom (escapeChar d) [d] 0 s).flatMap (escapeBut (d :: raw))
  | [] => rfl
  | c :: s => by
    obtain ⟨t, ht, -, hspecial⟩ := escapeChar_cons hd
    by_cases hpre : (escapeChar d).isPrefixOf (c :: s) = true
    · obtain ⟨rest, hrest⟩ := isPrefixOf_iff_prefix.1 hpre
      have hlen : rest.length ≤ s.length := by
        have := congrArg length hrest
        rw [ht, length_append, length_cons, length_cons] at this
        omega
      have htarget : (escapeChar d).flatMap (escapeBut raw) = escapeChar d := by
        have hsingle : ∀ e ∈ escapeChar d, escapeBut raw e = [e] := by
          intro e he
          rw [ht, mem_cons] at he
          rcases he with rfl | he
          · exact escapeBut_single (.inl hamp)
          · exact escapeBut_single (.inr (hspecial e he))
        rw [flatMap_congr hsingle]
        simp
      have hne : escapeChar d ≠ [] := escapeChar_ne_nil d
      rw [← hrest, flatMap_append, htarget, replaceFrom_target hne, replaceFrom_target hne,
        unescape_raw hd hraw hamp rest, flatMap_append, flatMap_singleton, escapeBut,
        if_pos (by simp)]
    · rw [Bool.not_eq_true] at hpre
      have ih := unescape_raw hd hraw hamp s
      rw [replaceFrom_cons hpre, flatMap_cons, flatMap_cons, ← ih]
      by_cases hcd : c = d
      · subst hcd
        rw [escapeBut, if_neg hraw, escapeBut, if_pos (by simp),
          replaceFrom_target (escapeChar_ne_nil c)]
      · by_cases hc : c = '&'
        · -- an ampersand of the text: what follows it is as in the text
          subst hc
          rw [escapeBut_cons hcd, escapeBut_single (.inl hamp)]
          refine replaceFrom_cons ?_
          rw [← Bool.not_eq_true]
          intro hflat
          rw [ht] at hflat hpre
          simp only [isPrefixOf, beq_self_eq_true, Bool.true_and] at hflat hpre
          rw [isPrefixOf_flatMap hspecial hflat] at hpre
          cases hpre
        · exact replaceFrom_other hd hcd fun _ => hc
termination_by s => s.length

theorem unescape_escape (s : NSString) : unescapeXMLCData (escapeXMLCData s)
    = replaceOccurrences "&quot;" "\"" (replaceOccurrences "&apos;" "'" s) := by
  have h0 : escapeXMLCData s = s.flatMap (escapeBut []) := by
    rw [escapeXMLCData_eq]
    rfl
  have h1 := @unescape_escaped [] '<' (by decide) (by decide) (by decide) s
  have h2 := @unescape_escaped ['<'] '>' (by decide) (by decide) (by decide) s
  have h3 := @unescape_escaped ['>', '<'] '&' (by decide) (by decide) (by decide) s
  have h4 := @unescape_raw ['&', '>', '<'] '\'' (by decide) (by decide) (by decide) s
  have h5 := @unescape_raw ['\'', '&', '>', '<'] '"' (by decide) (by decide) (by decide)
    (replaceFrom (escapeChar '\'') ['\''] 0 s)
  have hraw : ∀ c, escapeBut ['"', '\'', '&', '>', '<'] c = [c] := by
    intro c
    by_cases hc : c ∈ ['"', '\'', '&', '>', '<']
    · exact escapeBut_single (.inl hc)
    · refine escapeBut_single (.inr fun hs => hc ?_)
      simp only [special, mem_cons, not_mem_nil, or_false] at hs ⊢
      rcases hs with hs | hs | hs | hs | hs <;> simp [hs]
  rw [h0]
  unfold unescapeXMLCData replaceOccurrences
  rw [show "&lt;".toList = escapeChar '<' by decide, show "<".toList = ['<'] by decide, h1,
    show "&gt;".toList = escapeChar '>' by decide, show ">".toList = ['>'] by decide, h2,
    show "&amp;".toList = escapeChar '&' by decide, show "&".toList = ['&'] by decide, h3,
    show "&apos;".toList = escapeChar '\'' by decide, show "'".toList = ['\''] by decide, h4,
    show "&quot;".toList = escapeChar '"' by decide, show "\"".toList = ['"'] by decide, h5,
    funext hraw]
  simp

end Unescape

def NoEntity (s : NSString) : Prop :=
  rangeOfString "&apos;".toList s = none ∧ rangeOfString "&quot;".toList s = none

instance (s : NSString) : Decidable (NoEntity s) := inferInstanceAs (Decidable (_ ∧ _))

section Length

variable {target replacement : NSString}

theorem replaceFrom_of_none : ∀ {s : NSString}, rangeOfString target s = none →
    replaceFrom target replacement 0 s = s
  | [], _ => rfl
  | c :: s, h => by
    obtain ⟨hpre, h⟩ := rangeOfString_cons h
    rw [replaceFrom_cons hpre, replaceFrom_of_none h]

theorem length_replaceFrom_le (hle : replacement.length ≤ target.length) (hne : target ≠ []) :
    ∀ s : NSString, (replaceFrom target replacement 0 s).length ≤ s.length
  | [] => Nat.le_refl _
  | c :: s => by
    by_cases hpre : target.isPrefixOf (c :: s) = true
    · obtain ⟨rest, hrest⟩ := isPrefixOf_iff_prefix.1 hpre
      have htarget := length_pos_iff.2 hne
      have hlen : rest.length ≤ s.length := by
        have := congrArg length hrest
        rw [length_append, length_cons] at this
        omega
      have ih := length_replaceFrom_le hle hne rest
      rw [← hrest, replaceFrom_target hne, length_append, length_append]
      omega
    · rw [Bool.not_eq_true] at hpre
      have ih := length_replaceFrom_le hle hne s
      rw [replaceFrom_cons hpre, length_cons, length_cons]
      omega
termination_by s => s.length

theorem length_replaceFrom_lt (hlt : replacement.length < target.length) :
    ∀ {s : NSString}, rangeOfString target s ≠ none →
      (replaceFrom target replacement 0 s).length < s.length
  | [], h => by
    have hne : target ≠ [] := by
      rintro rfl
      cases hlt
    rw [rangeOfString, if_neg] at h
    · exact absurd rfl h
    · rw [List.isPrefixOf_iff_prefix, prefix_nil]
      exact hne
  | c :: s, h => by
    have hne : target ≠ [] := by
      rintro rfl
      cases hlt
    by_cases hpre : target.isPrefixOf (c :: s) = true
    · obtain ⟨rest, hrest⟩ := isPrefixOf_iff_prefix.1 hpre
      have hle := length_replaceFrom_le (Nat.le_of_lt hlt) hne rest
      rw [← hrest, replaceFrom_target hne, length_append, length_append]
      omega
    · rw [Bool.not_eq_true] at hpre
      have hs : rangeOfString target s ≠ none := by
        intro hs
        rw [rangeOfString, hpre, if_neg (by simp), hs] at h
        exact absurd rfl h
      have ih := length_replaceFrom_lt hlt hs
      rw [replaceFrom_cons hpre, length_cons, length_cons]
      omega

theorem unescape_escape_iff {s : NSString} :
    unescapeXMLCData (escapeXMLCData s) = s ↔ NoEntity s := by
  rw [unescape_escape]
  unfold replaceOccurrences
  constructor
  · intro h
    have hquot := length_replaceFrom_le (show "\"".toList.length ≤ "&quot;".toList.length by decide)
      (by decide) (replaceFrom "&apos;".toList "'".toList 0 s)
    rw [h] at hquot
    have hapos : rangeOfString "&apos;".toList s = none := by
      by_contra hne
      have := length_replaceFrom_lt (show "'".toList.length < "&apos;".toList.length by decide) hne
      omega
    refine ⟨hapos, ?_⟩
    by_contra hne
    rw [replaceFrom_of_none hapos] at h
    have := length_replaceFrom_lt (show "\"".toList.length < "&quot;".toList.length by decide) hne
    rw [h] at this
    omega
  · rintro ⟨hapos, hquot⟩
    rw [replaceFrom_of_none hapos, replaceFrom_of_none hquot]

end Length

section Entities

def entities : List NSString :=
  ["amp;".toList, "lt;".toList, "gt;".toList, "apos;".toList, "quot;".toList]

def OnlyEntities : NSString → Prop
  | [] => True
  | c :: s => (c = '&' → ∃ entity ∈ entities, entity <+: s) ∧ OnlyEntities s

variable {s t : NSString}

theorem onlyEntities_append (ht : '&' ∉ t) (h : OnlyEntities s) : OnlyEntities (t ++ s) := by
  induction t with
  | nil => exact h
  | cons c t ih =>
    refine ⟨fun hc => absurd hc ?_, ih fun hmem => ht (mem_cons_of_mem c hmem)⟩
    rintro rfl
    exact ht mem_cons_self

theorem tail_escapeChar_mem {c : Char} (hc : c ∈ special) : (escapeChar c).tail ∈ entities := by
  simp only [special, mem_cons, not_mem_nil, or_false] at hc
  rcases hc with rfl | rfl | rfl | rfl | rfl <;> decide

theorem onlyEntities_escapeXMLCData : ∀ s : NSString, OnlyEntities (escapeXMLCData s)
  | [] => by
    rw [escapeXMLCData_eq]
    trivial
  | c :: s => by
    have ih := onlyEntities_escapeXMLCData s
    rw [escapeXMLCData_eq, flatMap_cons, ← escapeXMLCData_eq]
    by_cases hc : c ∈ special
    · obtain ⟨t, ht, -, hspecial⟩ := escapeChar_cons hc
      have hmem := tail_escapeChar_mem hc
      rw [ht] at hmem ⊢
      exact ⟨fun _ => ⟨t, hmem, prefix_append ..⟩,
        onlyEntities_append (fun hamp => hspecial _ hamp (by decide)) ih⟩
    · rw [escapeChar_other hc]
      refine onlyEntities_append ?_ ih
      rw [mem_singleton]
      rintro rfl
      exact hc (by decide)

/-- Unescaping undoes escaping, and what is escaped holds no markup. -/
def EscapingUndone (s : NSString) : Prop :=
  unescapeXMLCData (escapeXMLCData s) = s ∧ '<' ∉ escapeXMLCData s ∧ '>' ∉ escapeXMLCData s
    ∧ OnlyEntities (escapeXMLCData s)

theorem escapingUndone_iff (s : NSString) : EscapingUndone s ↔ NoEntity s := by
  constructor
  · rintro ⟨hround, -⟩
    exact unescape_escape_iff.1 hround
  · intro h
    exact ⟨unescape_escape_iff.2 h, not_mem_escapeXMLCData (by decide) s,
      not_mem_escapeXMLCData (by decide) s, onlyEntities_escapeXMLCData s⟩

/-- The ampersand is unescaped first, and makes an escape with what follows it. -/
theorem apos_not_undone : ¬ EscapingUndone "&apos;".toList := by
  rintro ⟨hround, -⟩
  revert hround
  decide

end Entities

end Etoile.EtoileXML
