import Mathlib.Data.List.TakeWhile
import Etoile.LanguageKit.TypeWalkers

/-!
# The types of a method

The walkers over the encoding of a method come to its types at the same places just if LLVM has
types for all of them, and no encoding has a digit inside.
-/

namespace Etoile.LanguageKit

open CodeGenLexicalScope List Option

variable {P : Platform} {t : ObjCType} {n : Numeral} {s rest : List Char} {ts : List TypeAndOffset}

/-- The types of the result, of `self` and `_cmd`, and of the arguments. -/
structure MethodEncoding where
  types : List TypeAndOffset
  ne_nil : types ≠ []

def MethodEncoding.encode (m : MethodEncoding) : List Char := encodeTypes m.types

/-- `NEXT`, for a number of times. -/
def nextTimes : ℕ → List Char → Option (List Char)
  | 0, typestr => some typestr
  | k + 1, typestr => (Platform.next typestr).bind (nextTimes k)

def starts : List TypeAndOffset → List (List Char)
  | [] => []
  | t :: ts => encodeTypes (t :: ts) :: starts ts

def unqualifiedStarts : List TypeAndOffset → List (List Char)
  | [] => []
  | (t, offset) :: ts =>
    t.unqualified.encode (offset.digits ++ encodeTypes ts) :: unqualifiedStarts ts

structure WalkersAgree (P : Platform) (m : MethodEncoding) : Prop where
  called : ∀ before t offset ts, m.types = before ++ (t, offset) :: ts →
    Settles (fun fuel => LKNextTypeTimes fuel (before.length + 1) m.encode)
      (offset.digits ++ encodeTypes ts)
  counted : Settles (fun fuel => LKCountObjCTypes fuel (some m.encode)) m.types.length
  skipped : ∀ before ts, m.types = before ++ ts →
    nextTimes before.length m.encode = some (encodeTypes ts)
  stepped : ∀ before ts, m.types = before ++ ts →
    CodeGenLexicalScope.next^[before.length] m.encode = encodeTypes ts
  passed : ∃ f, Settles (fun fuel => P.LLVMFunctionTypeFromString fuel (some m.encode)) f ∧
    Forall₂ (fun t ty => Settles (fun fuel => P.LLVMTypeFromString fuel (t.1.encode [])) ty)
      m.types (f.realRetTy :: f.argTypes)
  boxed : InitialiseFunction (m.types.length - 3) m.encode
    = starts (m.types.drop 3)
  unboxed : UnboxArgs (m.types.length - 3) (some m.encode)
    = unqualifiedStarts (m.types.drop 3)

def PlainType (P : Platform) (t : ObjCType) : Prop := P.Supports t ∧ DigitFree (t.encode [])

theorem dropWhile_digitFree (h : DigitFree s) (rest : List Char) :
    (s ++ rest).dropWhile (!·.isDigit) = rest.dropWhile (!·.isDigit) :=
  dropWhile_append_of_pos fun c hc => by rw [h c hc]; rfl

theorem Numeral.dropWhile_not (n : Numeral) (s : List Char) :
    (n.digits ++ s).dropWhile (!·.isDigit) = n.digits ++ s := by
  obtain ⟨c, ds, hds⟩ := exists_cons_of_ne_nil n.ne_nil
  have hc := n.isDigit c (hds ▸ mem_cons_self ..)
  rw [hds, cons_append, dropWhile_cons_of_neg]
  rw [hc]
  exact nofun

theorem codeGen_next (n : Numeral) (ts : List TypeAndOffset) (h : DigitFree (t.encode [])) :
    CodeGenLexicalScope.next (encodeTypes ((t, n) :: ts)) = encodeTypes ts := by
  rw [CodeGenLexicalScope.next, encodeTypes, encode_eq_append, dropWhile_digitFree h,
    n.dropWhile_not, n.dropWhile_append (noDigitNext_encodeTypes ts)]

theorem platform_next (n : Numeral) (ts : List TypeAndOffset) (h : DigitFree (t.encode [])) :
    Platform.next (encodeTypes ((t, n) :: ts)) = some (encodeTypes ts) := by
  obtain ⟨c, ds, hds⟩ := exists_cons_of_ne_nil n.ne_nil
  have hdrop : (encodeTypes ((t, n) :: ts)).dropWhile (!·.isDigit)
      = c :: (ds ++ encodeTypes ts) := by
    rw [encodeTypes, encode_eq_append, dropWhile_digitFree h, n.dropWhile_not, hds]
    rfl
  rw [Platform.next, hdrop]
  show some ((c :: ds ++ encodeTypes ts).dropWhile (·.isDigit)) = _
  rw [← hds, n.dropWhile_append (noDigitNext_encodeTypes ts)]

theorem skip_ne_nil : ∀ (t : ObjCType) (rest : List Char), LKSkipQualifiers (t.encode rest) ≠ []
  | .qualified q t, rest => by
    cases q <;> exact skip_ne_nil t rest
  | .scalar s, rest => by cases s <;> exact List.cons_ne_nil _ _
  | .pointer _, _ | .struct .., _ | .union .., _ | .array .., _ => List.cons_ne_nil _ _

theorem skip_digits (n : Numeral) (s : List Char) :
    LKSkipQualifiers (n.digits ++ s) = LKSkipQualifiers s := by
  unfold LKSkipQualifiers
  rw [dropWhile_append_of_pos fun c hc => by rw [n.isDigit c hc, Bool.true_or]]

theorem skip_skip (s : List Char) : LKSkipQualifiers (LKSkipQualifiers s) = LKSkipQualifiers s := by
  unfold LKSkipQualifiers
  induction s with
  | nil => rfl
  | cons c s ih =>
    rw [dropWhile_cons]
    split_ifs with hc
    · exact ih
    · rw [dropWhile_cons, if_neg hc]

theorem settles_LKNextTypeTimes : ∀ (before : List TypeAndOffset) (t : ObjCType) (n : Numeral)
    (ts : List TypeAndOffset) {s : List Char},
    (∀ u ∈ before ++ (t, n) :: ts, DigitFree (u.1.encode [])) →
    LKSkipQualifiers s = LKSkipQualifiers (encodeTypes (before ++ (t, n) :: ts)) →
      Settles (fun fuel => LKNextTypeTimes fuel (before.length + 1) s)
        (n.digits ++ encodeTypes ts)
  | [], t, n, ts, s, h, hs => by
    refine Settles.bind (g := fun _ s => some s) ?_ (settles_some _)
    simp only [LKNextType_of_skip hs]
    exact settles_LKNextType t _ (h (t, n) (mem_cons_self ..))
  | (t', n') :: before, t, n, ts, s, h, hs => by
    refine Settles.bind (a := n'.digits ++ encodeTypes (before ++ (t, n) :: ts)) ?_ ?_
    · simp only [LKNextType_of_skip hs]
      exact settles_LKNextType t' _ (h (t', n') (mem_cons_self ..))
    · exact settles_LKNextTypeTimes before t n ts (fun u hu => h u (mem_cons_of_mem _ hu))
        (skip_digits n' _)

theorem settles_countTypes : ∀ (ts : List TypeAndOffset) (count : ℕ) {s : List Char},
    (∀ t ∈ ts, DigitFree (t.1.encode [])) → (s = [] ↔ ts = []) →
    LKSkipQualifiers s = LKSkipQualifiers (encodeTypes ts) →
      Settles (fun fuel => countTypes fuel count s) (count + ts.length)
  | [], count, s, _, hnil, _ => by
    rw [hnil.2 rfl]
    exact settles_of_succ (settles_some count)
  | (t, n) :: ts, count, s, h, hnil, hs => by
    obtain ⟨c, s', rfl⟩ := exists_cons_of_ne_nil fun hs' => nomatch hnil.1 hs'
    have hnext : Settles (fun fuel => LKNextType fuel (c :: s')) (n.digits ++ encodeTypes ts) := by
      simp only [LKNextType_of_skip hs]
      exact settles_LKNextType t _ (h (t, n) (mem_cons_self ..))
    refine settles_of_succ (hnext.bind ?_)
    rw [skip_digits, show count + ((t, n) :: ts).length = count + 1 + ts.length by
      rw [length_cons]; omega]
    refine settles_countTypes ts (count + 1) (fun u hu => h u (mem_cons_of_mem _ hu)) ?_ ?_
    · cases ts with
      | nil => exact ⟨fun _ => rfl, fun _ => rfl⟩
      | cons t ts => exact ⟨fun hnil => absurd hnil (skip_ne_nil t.1 _), nofun⟩
    · exact skip_skip _

theorem settles_LLVMTypeFromString (h : P.Supports t) : ∃ ty, ∀ rest,
    Settles (fun fuel => P.LLVMTypeFromString fuel (t.encode rest)) ty := by
  obtain ⟨ty, hty⟩ := settles_LLVMTypeFromString2 t h
  exact ⟨ty, fun rest => (hty rest).bind (settles_some ty)⟩

theorem settles_argTypes : ∀ ts : List TypeAndOffset, (∀ u ∈ ts, PlainType P u.1) →
    ∃ tys, Settles (fun fuel => P.argTypes fuel (encodeTypes ts)) tys ∧
      Forall₂ (fun t ty => Settles (fun fuel => P.LLVMTypeFromString fuel (t.1.encode [])) ty)
        ts tys
  | [], _ => ⟨[], settles_of_succ (settles_some []), .nil⟩
  | (t, n) :: ts, h => by
    have hplain : PlainType P t := h (t, n) (mem_cons_self ..)
    obtain ⟨ty, hty⟩ := settles_LLVMTypeFromString hplain.1
    obtain ⟨tys, htys, hall⟩ := settles_argTypes ts fun u hu => h u (mem_cons_of_mem _ hu)
    refine ⟨ty :: tys, settles_of_succ ?_, .cons (hty []) hall⟩
    obtain ⟨c, s, heq, -⟩ := startsType_encode t (n.digits ++ encodeTypes ts)
    have hcons : encodeTypes ((t, n) :: ts) = c :: s := heq
    have hnext := platform_next n ts hplain.2
    have hty' := hty (n.digits ++ encodeTypes ts)
    rw [heq] at hty'
    rw [hcons] at hnext ⊢
    refine hty'.bind ?_
    simp only [hnext, bind_some]
    exact htys.map (ty :: ·)

theorem settles_LLVMFunctionTypeFromString (h : ∀ u ∈ (t, n) :: ts, PlainType P u.1) :
    ∃ f, Settles (fun fuel => P.LLVMFunctionTypeFromString fuel
        (some (encodeTypes ((t, n) :: ts)))) f ∧
      Forall₂ (fun t ty => Settles (fun fuel => P.LLVMTypeFromString fuel (t.1.encode [])) ty)
        ((t, n) :: ts) (f.realRetTy :: f.argTypes) := by
  have hplain : PlainType P t := h (t, n) (mem_cons_self ..)
  obtain ⟨ty, hty⟩ := settles_LLVMTypeFromString hplain.1
  obtain ⟨tys, htys, hall⟩ := settles_argTypes ts fun u hu => h u (mem_cons_of_mem _ hu)
  have hreturn : (P.returnIn ty tys).realRetTy = ty ∧ (P.returnIn ty tys).argTypes = tys := by
    unfold Platform.returnIn
    split <;> exact ⟨rfl, rfl⟩
  refine ⟨P.returnIn ty tys, (hty _).bind ?_, ?_⟩
  · simp only [platform_next n ts hplain.2, bind_some]
    exact htys.map (P.returnIn ty)
  · rw [hreturn.1, hreturn.2]
    exact .cons (hty []) hall

theorem skip_supported : ∀ t : ObjCType, P.Supports t → ∀ rest,
    Platform.SkipTypeQualifiers (t.encode rest) = t.unqualified.encode rest
  | .scalar s, _, rest => by cases s <;> rfl
  | .qualified q t, h, rest => by
    rw [skip_qualified h.1]
    exact skip_supported t h.2 rest
  | .pointer _, _, _ | .struct .., _, _ | .union .., _, _ | .array .., _, _ => rfl

theorem boxEach_eq : ∀ ts : List TypeAndOffset, (∀ u ∈ ts, PlainType P u.1) →
    boxEach ts.length (encodeTypes ts) = starts ts
  | [], _ => rfl
  | (t, n) :: ts, h => by
    rw [length_cons, boxEach, starts,
      codeGen_next _ _ (h (t, n) (mem_cons_self ..)).2,
      boxEach_eq ts fun u hu => h u (mem_cons_of_mem _ hu)]

theorem DigitFree.unqualified : ∀ {t : ObjCType}, DigitFree (t.encode []) →
    DigitFree (t.unqualified.encode [])
  | .qualified _ t, h => DigitFree.unqualified (t := t) h.of_cons
  | .scalar _, h | .pointer _, h | .struct .., h | .union .., h | .array .., h => h

/-- Each turn goes on from where the last type was left, past its qualifiers. -/
theorem unboxEach_eq : ∀ (ts : List TypeAndOffset) {s : List Char}, (∀ u ∈ ts, PlainType P u.1) →
    CodeGenLexicalScope.next s = encodeTypes ts →
      unboxEach ts.length s = unqualifiedStarts ts
  | [], _, _, _ => rfl
  | (t, n) :: ts, s, h, hs => by
    have hplain := h (t, n) (mem_cons_self ..)
    have hnext : CodeGenLexicalScope.next (t.unqualified.encode (n.digits ++ encodeTypes ts))
        = encodeTypes ts := codeGen_next (t := t.unqualified) n ts hplain.2.unqualified
    rw [length_cons, unboxEach, hs, unqualifiedStarts, encodeTypes,
      skip_supported t hplain.1,
      unboxEach_eq ts (fun u hu => h u (mem_cons_of_mem _ hu)) hnext]

theorem initialiseFunction_eq (h : ∀ u ∈ ts, PlainType P u.1) :
    InitialiseFunction (ts.length - 3) (encodeTypes ts)
      = starts (ts.drop 3) := by
  match ts, h with
  | [], _ | [_], _ | [_, _], _ => rfl
  | (t₁, n₁) :: (t₂, n₂) :: (t₃, n₃) :: ts, h =>
    have h₁ : PlainType P t₁ := h (t₁, n₁) (by simp)
    have h₂ : PlainType P t₂ := h (t₂, n₂) (by simp)
    have h₃ : PlainType P t₃ := h (t₃, n₃) (by simp)
    rw [InitialiseFunction, codeGen_next _ _ h₁.2, codeGen_next _ _ h₂.2,
      codeGen_next _ _ h₃.2]
    exact boxEach_eq ts fun u hu => h u (by simp [hu])

theorem unboxArgs_eq (h : ∀ u ∈ ts, PlainType P u.1) :
    UnboxArgs (ts.length - 3) (some (encodeTypes ts))
      = unqualifiedStarts (ts.drop 3) := by
  match ts, h with
  | [], _ | [_], _ | [_, _], _ => rfl
  | (t₁, n₁) :: (t₂, n₂) :: (t₃, n₃) :: ts, h =>
    have h₁ : PlainType P t₁ := h (t₁, n₁) (by simp)
    have h₂ : PlainType P t₂ := h (t₂, n₂) (by simp)
    have h₃ : PlainType P t₃ := h (t₃, n₃) (by simp)
    have hskip : Platform.SkipTypeQualifiers (encodeTypes ((t₁, n₁) :: (t₂, n₂) :: (t₃, n₃) :: ts))
        = encodeTypes ((t₁.unqualified, n₁) :: (t₂, n₂) :: (t₃, n₃) :: ts) :=
      skip_supported t₁ h₁.1 _
    rw [UnboxArgs, hskip, codeGen_next _ _ h₁.2.unqualified,
      codeGen_next _ _ h₂.2]
    exact unboxEach_eq ts (fun u hu => h u (by simp [hu])) (codeGen_next _ _ h₃.2)

theorem nextTimes_eq : ∀ (before ts : List TypeAndOffset),
    (∀ u ∈ before ++ ts, DigitFree (u.1.encode [])) →
      nextTimes before.length (encodeTypes (before ++ ts)) = some (encodeTypes ts)
  | [], _, _ => rfl
  | (t, n) :: before, ts, h => by
    rw [length_cons, nextTimes, cons_append,
      platform_next _ _ (h (t, n) (mem_cons_self ..))]
    exact nextTimes_eq before ts fun u hu => h u (mem_cons_of_mem _ hu)

theorem iterate_next_eq : ∀ (before ts : List TypeAndOffset),
    (∀ u ∈ before ++ ts, DigitFree (u.1.encode [])) →
      CodeGenLexicalScope.next^[before.length] (encodeTypes (before ++ ts)) = encodeTypes ts
  | [], _, _ => rfl
  | (t, n) :: before, ts, h => by
    rw [length_cons, Function.iterate_succ_apply, cons_append,
      codeGen_next _ _ (h (t, n) (mem_cons_self ..))]
    exact iterate_next_eq before ts fun u hu => h u (mem_cons_of_mem _ hu)

theorem walkersAgree_of_plain (m : MethodEncoding) (h : ∀ u ∈ m.types, PlainType P u.1) :
    WalkersAgree P m := by
  obtain ⟨types, hne⟩ := m
  have hfree : ∀ u ∈ types, DigitFree (u.1.encode []) := fun u hu => (h u hu).2
  obtain ⟨⟨t, n⟩, ts, rfl⟩ := exists_cons_of_ne_nil hne
  refine ⟨?_, ?_, ?_, ?_, settles_LLVMFunctionTypeFromString h, initialiseFunction_eq h,
    unboxArgs_eq h⟩
  · intro before t' n' ts' (heq : (t, n) :: ts = before ++ (t', n') :: ts')
    exact settles_LKNextTypeTimes before t' n' ts' (fun u hu => hfree u (heq ▸ hu))
      (congrArg (LKSkipQualifiers ∘ encodeTypes) heq)
  · have hcount := settles_countTypes ((t, n) :: ts) 0 hfree (s := encodeTypes ((t, n) :: ts))
      ⟨fun hnil => ?_, nofun⟩ rfl
    · rw [Nat.zero_add] at hcount
      exact hcount
    · obtain ⟨c, s, heq, -⟩ := startsType_encode t (n.digits ++ encodeTypes ts)
      rw [encodeTypes, heq] at hnil
      cases hnil
  · intro before ts' (heq : (t, n) :: ts = before ++ ts')
    show nextTimes before.length (encodeTypes ((t, n) :: ts)) = _
    rw [heq]
    exact nextTimes_eq before ts' fun u hu => hfree u (heq ▸ hu)
  · intro before ts' (heq : (t, n) :: ts = before ++ ts')
    show CodeGenLexicalScope.next^[before.length] (encodeTypes ((t, n) :: ts)) = _
    rw [heq]
    exact iterate_next_eq before ts' fun u hu => hfree u (heq ▸ hu)

theorem encode_ends : ∀ t : ObjCType, ∃ s c, t.encode [] = s ++ [c] ∧ c.isDigit = false
  | .scalar s => ⟨[], s.code, rfl, by cases s <;> decide⟩
  | .qualified q t => by
    obtain ⟨s, c, heq, hc⟩ := encode_ends t
    exact ⟨q.code :: s, c, congrArg (q.code :: ·) heq, hc⟩
  | .pointer t => by
    obtain ⟨s, c, heq, hc⟩ := encode_ends t
    exact ⟨'^' :: s, c, congrArg ('^' :: ·) heq, hc⟩
  | .struct name fields => by
    refine ⟨'{' :: (name.chars ++ '=' :: ObjCType.encodeAll fields []), '}', ?_, by decide⟩
    rw [ObjCType.encode, show ['}'] = [] ++ ['}'] from rfl, encodeAll_append]
    simp
  | .union name fields => by
    refine ⟨'(' :: (name.chars ++ '=' :: ObjCType.encodeAll fields []), ')', ?_, by decide⟩
    rw [ObjCType.encode, show [')'] = [] ++ [')'] from rfl, encodeAll_append]
    simp
  | .array length t => by
    refine ⟨'[' :: (length.digits ++ t.encode []), ']', ?_, by decide⟩
    rw [ObjCType.encode, encode_eq_append t [']']]
    simp

theorem next_eq_of_some (h : Platform.next s = some rest) : CodeGenLexicalScope.next s = rest := by
  unfold Platform.next at h
  unfold CodeGenLexicalScope.next
  split at h
  · cases h
  · exact some.inj h

theorem digitFree_of_next (h : Platform.next (encodeTypes ((t, n) :: ts)) = some (encodeTypes ts)) :
    DigitFree (t.encode []) := by
  by_contra hfree
  have hdrop : (t.encode []).dropWhile (!·.isDigit) ≠ [] := by
    rw [ne_eq, dropWhile_eq_nil_iff]
    intro hall
    exact hfree fun c hc => by simpa using hall c hc
  have hdrop' : ((t.encode []).dropWhile (!·.isDigit)).dropWhile (·.isDigit) ≠ [] := by
    obtain ⟨s, c, heq, hc⟩ := encode_ends t
    rw [ne_eq, dropWhile_eq_nil_iff]
    intro hall
    obtain ⟨pre, hpre⟩ := dropWhile_suffix (!·.isDigit) (l := t.encode [])
    have hmem : c ∈ (t.encode []).dropWhile (!·.isDigit) := by
      have hlast := congrArg getLast? hpre
      rw [getLast?_append_of_ne_nil _ hdrop, heq, getLast?_concat] at hlast
      exact mem_of_getLast? (heq ▸ hlast)
    rw [hall c hmem] at hc
    cases hc
  have hnil : ∀ l : List Char, l ≠ [] → ¬ l.isEmpty = true := fun l hl hempty =>
    hl (isEmpty_iff.1 hempty)
  have hnext := next_eq_of_some h
  rw [CodeGenLexicalScope.next, encodeTypes, encode_eq_append, dropWhile_append,
    if_neg (hnil _ hdrop), dropWhile_append, if_neg (hnil _ hdrop')] at hnext
  have hlen := congrArg length hnext
  have hpos := length_pos_of_ne_nil hdrop'
  simp only [length_append] at hlen
  omega

theorem nextTimes_succ : ∀ (k : ℕ) (s : List Char),
    nextTimes (k + 1) s = (nextTimes k s).bind Platform.next
  | 0, s => by
    show (Platform.next s).bind some = Platform.next s
    cases Platform.next s <;> rfl
  | k + 1, s => by
    show (Platform.next s).bind (nextTimes (k + 1))
      = ((Platform.next s).bind (nextTimes k)).bind Platform.next
    cases Platform.next s with
    | none => rfl
    | some s => exact nextTimes_succ k s

theorem supports_of_settles {ty : LLVMType} {rest : List Char}
    (h : Settles (fun fuel => P.LLVMTypeFromString fuel (t.encode rest)) ty) : P.Supports t := by
  obtain ⟨fuel, hfuel⟩ := h.exists_eq
  obtain ⟨⟨ty', s⟩, heq, hty⟩ := bind_eq_some_iff.1 hfuel
  obtain rfl : ty' = some ty := hty
  exact (supports_of_LLVMTypeFromString2 t heq).1

def TypeName.ofList (chars : List Char) (h : chars.all fun c => c ≠ '=' && c ≠ '\x00') :
    TypeName :=
  ⟨chars, fun c hc => by simpa using all_eq_true.1 h c hc⟩

def Numeral.ofList (digits : List Char) (h : digits ≠ [] ∧ digits.all (·.isDigit)) : Numeral :=
  ⟨digits, h.1, all_eq_true.1 h.2⟩

/-- Where `LKObjectPtr` is `^{LKObject_hack=(?=@q)}`. -/
def Platform.linux64 : Platform where
  LKObjectPtr := .pointer (.struct (.ofList "LKObject_hack".toList rfl)
    [.union (.ofList ['?'] rfl) [.scalar .object, .scalar .longLong]])
  unqualified := nofun
  sizeofLong := 8
  maxIntsInRegisters := 0
  maxFloatsInRegisters := 0
  smallFloatStructsOnStack := false

/-- `v12@0:4{vec2=ff}8`: the name of a structure has a digit. -/
def digitInName : MethodEncoding where
  types := [(.scalar .void, .ofList ['1', '2'] (by decide)),
    (.scalar .object, .ofList ['0'] (by decide)), (.scalar .selector, .ofList ['4'] (by decide)),
    (.struct (.ofList "vec2".toList rfl) [.scalar .float, .scalar .float],
      .ofList ['8'] (by decide))]
  ne_nil := nofun

end Etoile.LanguageKit
