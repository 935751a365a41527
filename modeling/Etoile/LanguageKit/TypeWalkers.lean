import Etoile.LanguageKit.TypeEncodings
import Etoile.Lib.Fuel

/-!
# Walking over type encodings

Each walker comes to the types of a method in turn if LLVM has a type for each of them, and none
has a digit in its encoding.
-/

namespace Etoile.LanguageKit

open List ObjCType Option

variable {P : Platform} {t : ObjCType} {n : Numeral} {s rest : List Char} {ts : List TypeAndOffset}

def StartsType (s : List Char) : Prop :=
  ∃ c s', s = c :: s' ∧ c.isDigit = false ∧ c ≠ '}' ∧ c ≠ ')'

theorem startsType_encode (t : ObjCType) (rest : List Char) : StartsType (t.encode rest) := by
  cases t with
  | scalar s => exact ⟨s.code, _, rfl, by cases s <;> decide⟩
  | qualified q t => exact ⟨q.code, _, rfl, by cases q <;> decide⟩
  | _ => exact ⟨_, _, rfl, by decide, by decide, by decide⟩

mutual

theorem encode_append (rest : List Char) : ∀ (t : ObjCType) (s : List Char),
    t.encode (s ++ rest) = t.encode s ++ rest
  | .scalar _, _ => rfl
  | .qualified q t, s => congrArg (q.code :: ·) (encode_append rest t s)
  | .pointer t, s => congrArg ('^' :: ·) (encode_append rest t s)
  | .struct name fields, s => by
    simp only [encode, cons_append, append_assoc]
    rw [← encodeAll_append rest fields ('}' :: s)]
    rfl
  | .union name fields, s => by
    simp only [encode, cons_append, append_assoc]
    rw [← encodeAll_append rest fields (')' :: s)]
    rfl
  | .array length t, s => by
    simp only [encode, cons_append, append_assoc]
    rw [← encode_append rest t (']' :: s)]
    rfl

theorem encodeAll_append (rest : List Char) : ∀ (ts : List ObjCType) (s : List Char),
    encodeAll ts (s ++ rest) = encodeAll ts s ++ rest
  | [], _ => rfl
  | t :: ts, s => by
    simp only [encodeAll]
    rw [encodeAll_append rest ts s, encode_append rest t]

end

theorem encode_eq_append (t : ObjCType) (rest : List Char) :
    t.encode rest = t.encode [] ++ rest := encode_append rest t []

def NoDigitNext (s : List Char) : Prop := ∀ c ∈ s.head?, c.isDigit = false

theorem noDigitNext_encode (t : ObjCType) (rest : List Char) : NoDigitNext (t.encode rest) := by
  obtain ⟨c, s', heq, hc, -⟩ := startsType_encode t rest
  rw [heq]
  rintro _ ⟨⟩
  exact hc

theorem noDigitNext_encodeTypes : ∀ ts, NoDigitNext (encodeTypes ts)
  | [] => nofun
  | (t, _) :: _ => noDigitNext_encode t _

theorem dropWhile_isDigit (h : NoDigitNext s) : s.dropWhile (·.isDigit) = s := by
  cases s with
  | nil => rfl
  | cons c s => rw [dropWhile_cons_of_neg]; simp [h c rfl]

theorem Numeral.dropWhile_append (n : Numeral) (h : NoDigitNext s) :
    (n.digits ++ s).dropWhile (·.isDigit) = s := by
  rw [dropWhile_append_of_pos n.isDigit, dropWhile_isDigit h]

theorem skipName_append (name : TypeName) (s : List Char) :
    skipName (name.chars ++ '=' :: s) = some s := by
  unfold skipName
  rw [dropWhile_append_of_pos fun c hc => by simpa using (name.valid c hc).1]
  rfl

theorem eq_of_append_eq {p : Char → Bool} {l l' s s' : List Char} (hl : ∀ c ∈ l, p c = true)
    (hl' : ∀ c ∈ l', p c = true) (hs : s.takeWhile p = []) (hs' : s'.takeWhile p = [])
    (h : l ++ s = l' ++ s') : l = l' ∧ s = s' := by
  have htake := congrArg (takeWhile p) h
  rw [takeWhile_append_of_pos hl, takeWhile_append_of_pos hl', hs, hs',
    append_nil, append_nil] at htake
  subst htake
  exact ⟨rfl, append_cancel_left h⟩

theorem TypeName.append_inj {name name' : TypeName}
    (h : name.chars ++ '=' :: s = name'.chars ++ '=' :: rest) : name = name' ∧ s = rest := by
  have hne : ∀ name : TypeName, ∀ c ∈ name.chars, (c ≠ '=' : Bool) = true := fun name c hc => by
    simpa using (name.valid c hc).1
  obtain ⟨hname, heq⟩ := eq_of_append_eq (hne name) (hne name') rfl rfl h
  cases name
  cases name'
  cases hname
  exact ⟨rfl, (cons.inj heq).2⟩

theorem takeWhile_isDigit (h : NoDigitNext s) : s.takeWhile (·.isDigit) = [] := by
  cases s with
  | nil => rfl
  | cons c s => rw [takeWhile_cons_of_neg]; simp [h c rfl]

theorem Numeral.append_inj {n n' : Numeral} (hs : NoDigitNext s) (hrest : NoDigitNext rest)
    (h : n.digits ++ s = n'.digits ++ rest) : n = n' ∧ s = rest := by
  obtain ⟨hn, heq⟩ := eq_of_append_eq n.isDigit n'.isDigit (takeWhile_isDigit hs)
    (takeWhile_isDigit hrest) h
  cases n
  cases n'
  cases hn
  exact ⟨rfl, heq⟩

mutual

theorem encode_inj : ∀ (t t' : ObjCType) {s s' : List Char}, t.encode s = t'.encode s' →
    t = t' ∧ s = s'
  | .scalar c, t', s, s', h => by
    cases t' with
    | scalar c' =>
      obtain ⟨hcode, rfl⟩ := cons.inj h
      exact ⟨by cases c <;> cases c' <;> first | rfl | exact absurd hcode (by decide), rfl⟩
    | qualified q _ =>
      exact absurd (cons.inj h).1 (by cases c <;> cases q <;> decide)
    | _ => exact absurd (cons.inj h).1 (by cases c <;> decide)
  | .qualified q t, t', s, s', h => by
    cases t' with
    | scalar c => exact absurd (cons.inj h).1 (by cases c <;> cases q <;> decide)
    | qualified q' t' =>
      obtain ⟨hcode, hrest⟩ := cons.inj h
      obtain ⟨rfl, rfl⟩ := encode_inj t t' hrest
      exact ⟨by cases q <;> cases q' <;> first | rfl | exact absurd hcode (by decide), rfl⟩
    | _ => exact absurd (cons.inj h).1 (by cases q <;> decide)
  | .pointer t, t', s, s', h => by
    cases t' with
    | scalar c => exact absurd (cons.inj h).1 (by cases c <;> decide)
    | qualified q _ => exact absurd (cons.inj h).1 (by cases q <;> decide)
    | pointer t' =>
      obtain ⟨rfl, rfl⟩ := encode_inj t t' (cons.inj h).2
      exact ⟨rfl, rfl⟩
    | _ => exact absurd (cons.inj h).1 (by decide)
  | .struct name fields, t', s, s', h => by
    cases t' with
    | scalar c => exact absurd (cons.inj h).1 (by cases c <;> decide)
    | qualified q _ => exact absurd (cons.inj h).1 (by cases q <;> decide)
    | struct name' fields' =>
      obtain ⟨rfl, hfields⟩ := TypeName.append_inj (cons.inj h).2
      obtain ⟨rfl, rfl⟩ := encodeAll_inj (.inl rfl) fields fields' hfields
      exact ⟨rfl, rfl⟩
    | _ => exact absurd (cons.inj h).1 (by decide)
  | .union name fields, t', s, s', h => by
    cases t' with
    | scalar c => exact absurd (cons.inj h).1 (by cases c <;> decide)
    | qualified q _ => exact absurd (cons.inj h).1 (by cases q <;> decide)
    | union name' fields' =>
      obtain ⟨rfl, hfields⟩ := TypeName.append_inj (cons.inj h).2
      obtain ⟨rfl, rfl⟩ := encodeAll_inj (.inr rfl) fields fields' hfields
      exact ⟨rfl, rfl⟩
    | _ => exact absurd (cons.inj h).1 (by decide)
  | .array length t, t', s, s', h => by
    cases t' with
    | scalar c => exact absurd (cons.inj h).1 (by cases c <;> decide)
    | qualified q _ => exact absurd (cons.inj h).1 (by cases q <;> decide)
    | array length' t' =>
      obtain ⟨rfl, ht⟩ := Numeral.append_inj (noDigitNext_encode t _) (noDigitNext_encode t' _)
        (cons.inj h).2
      obtain ⟨rfl, hs⟩ := encode_inj t t' ht
      exact ⟨rfl, (cons.inj hs).2⟩
    | _ => exact absurd (cons.inj h).1 (by decide)

theorem encodeAll_inj {c : Char} (hc : c = '}' ∨ c = ')') : ∀ (ts ts' : List ObjCType)
    {s s' : List Char}, encodeAll ts (c :: s) = encodeAll ts' (c :: s') →
      ts = ts' ∧ s = s'
  | [], [], s, s', h => ⟨rfl, (cons.inj h).2⟩
  | [], t :: ts, s, s', h => by
    obtain ⟨d, rest, heq, -, hd⟩ := startsType_encode t (encodeAll ts (c :: s'))
    have hhead := (cons.inj ((show c :: s = t.encode _ from h).trans heq)).1
    subst hhead
    rcases hc with rfl | rfl
    · exact absurd rfl hd.1
    · exact absurd rfl hd.2
  | t :: ts, [], s, s', h => by
    obtain ⟨d, rest, heq, -, hd⟩ := startsType_encode t (encodeAll ts (c :: s))
    have hhead := (cons.inj ((show c :: s' = t.encode _ from h.symm).trans heq)).1
    subst hhead
    rcases hc with rfl | rfl
    · exact absurd rfl hd.1
    · exact absurd rfl hd.2
  | t :: ts, t' :: ts', s, s', h => by
    obtain ⟨rfl, hrest⟩ := encode_inj t t' h
    obtain ⟨rfl, rfl⟩ := encodeAll_inj hc ts ts' hrest
    exact ⟨rfl, rfl⟩

end

def DigitFree (s : List Char) : Prop := ∀ c ∈ s, c.isDigit = false

theorem DigitFree.of_append {s s' : List Char} (h : DigitFree (s ++ s')) :
    DigitFree s ∧ DigitFree s' :=
  ⟨fun c hc => h c (mem_append_left _ hc), fun c hc => h c (mem_append_right _ hc)⟩

theorem DigitFree.of_cons {c : Char} (h : DigitFree (c :: s)) : DigitFree s :=
  fun d hd => h d (mem_cons_of_mem c hd)

theorem Numeral.not_digitFree (n : Numeral) (h : DigitFree (n.digits ++ s)) : False := by
  obtain ⟨c, hc⟩ := exists_mem_of_ne_nil _ n.ne_nil
  have := h.of_append.1 c hc
  rw [n.isDigit c hc] at this
  cases this

theorem DigitFree.fields {name : TypeName} {fields : List ObjCType} {c d : Char}
    (h : DigitFree (c :: (name.chars ++ '=' :: encodeAll fields [d]))) :
    DigitFree (encodeAll fields []) := by
  have hfields := h.of_cons.of_append.2.of_cons
  rw [show [d] = [] ++ [d] from rfl, encodeAll_append] at hfields
  exact hfields.of_append.1

theorem DigitFree.cons {t : ObjCType} {ts : List ObjCType}
    (h : DigitFree (encodeAll (t :: ts) [])) :
    DigitFree (t.encode []) ∧ DigitFree (encodeAll ts []) := by
  rw [encodeAll, encode_eq_append] at h
  exact h.of_append

theorem LKNextType_of_skip {s s' : List Char} (h : LKSkipQualifiers s = LKSkipQualifiers s')
    (fuel : ℕ) : LKNextType fuel s = LKNextType fuel s' := by
  cases fuel with
  | zero => rfl
  | succ fuel => rw [LKNextType, LKNextType, h]

mutual

theorem settles_LKNextType : ∀ (t : ObjCType) (rest : List Char), DigitFree (t.encode []) →
    Settles (fun fuel => LKNextType fuel (t.encode rest)) rest
  | .scalar s, rest, _ => by
    refine settles_of_succ ?_
    cases s <;> exact settles_some rest
  | .qualified q t, rest, h => by
    have hskip : LKSkipQualifiers ((qualified q t).encode rest)
        = LKSkipQualifiers (t.encode rest) := by
      cases q <;> rfl
    simp only [LKNextType_of_skip hskip]
    exact settles_LKNextType t rest h.of_cons
  | .pointer t, rest, h => settles_of_succ (settles_LKNextType t rest h.of_cons)
  | .struct name fields, rest, h => by
    refine settles_of_succ ?_
    show Settles (fun fuel => (skipName (name.chars ++ '=' :: _)).bind _) rest
    simp only [skipName_append, bind_some]
    exact settles_LKNextTypesUntil (.inl rfl) fields rest h.fields
  | .union name fields, rest, h => by
    refine settles_of_succ ?_
    show Settles (fun fuel => (skipName (name.chars ++ '=' :: _)).bind _) rest
    simp only [skipName_append, bind_some]
    exact settles_LKNextTypesUntil (.inr rfl) fields rest h.fields
  | .array length t, _, h => (length.not_digitFree h.of_cons).elim

theorem settles_LKNextTypesUntil {close : Char} (hclose : close = '}' ∨ close = ')') :
    ∀ (ts : List ObjCType) (rest : List Char), DigitFree (encodeAll ts []) →
      Settles (fun fuel => LKNextTypesUntil fuel close (encodeAll ts (close :: rest)))
        rest
  | [], rest, _ => by
    refine settles_of_succ ?_
    simp only [LKNextTypesUntil, encodeAll, head?_cons, if_true, tail_cons]
    exact settles_some rest
  | t :: ts, rest, h => by
    refine settles_of_succ ?_
    obtain ⟨c, s, heq, -, hc⟩ := startsType_encode t (encodeAll ts (close :: rest))
    have hne : (encodeAll (t :: ts) (close :: rest)).head? ≠ some close := by
      rw [encodeAll, heq]
      rintro ⟨⟩
      rcases hclose with rfl | rfl
      · exact hc.1 rfl
      · exact hc.2 rfl
    simp only [LKNextTypesUntil, if_neg hne]
    exact (settles_LKNextType t _ h.cons.1).bind (settles_LKNextTypesUntil hclose ts rest h.cons.2)

end

def Qualifier.isSkipped : Qualifier → Bool
  | const | oneway => true
  | _ => false

mutual

/-- The types that LLVM has one for: that of an object of the language, and what is built without
unions, arrays and unknown types. -/
def Platform.Supports (P : Platform) : ObjCType → Prop
  | .scalar s => .scalar s = P.LKObjectPtr ∨ s ≠ .unknown
  | .qualified q t => q.isSkipped = true ∧ P.Supports t
  | .pointer t => .pointer t = P.LKObjectPtr ∨ P.Supports t
  | .struct name fields => .struct name fields = P.LKObjectPtr ∨ P.SupportsAll fields
  | .union name fields => .union name fields = P.LKObjectPtr
  | .array length t => .array length t = P.LKObjectPtr

def Platform.SupportsAll (P : Platform) : List ObjCType → Prop
  | [] => True
  | t :: ts => P.Supports t ∧ P.SupportsAll ts

end

theorem skip_qualified {q : Qualifier} (hq : q.isSkipped = true) (t : ObjCType)
    (rest : List Char) : Platform.SkipTypeQualifiers ((qualified q t).encode rest)
      = Platform.SkipTypeQualifiers (t.encode rest) := by
  cases q <;> first | rfl | cases hq

theorem skip_not_qualified {q : Qualifier} (hq : ¬ q.isSkipped = true) (t : ObjCType)
    (rest : List Char) : Platform.SkipTypeQualifiers ((qualified q t).encode rest)
      = (qualified q t).encode rest := by
  cases q <;> first | rfl | exact absurd rfl hq

theorem encoding_prefix_iff (P : Platform) (t : ObjCType) (rest : List Char) :
    P.LKObjectEncoding <+: t.encode rest ↔ t = P.LKObjectPtr := by
  constructor
  · rintro ⟨s, hs⟩
    rw [Platform.LKObjectEncoding, ← encode_eq_append] at hs
    exact (encode_inj _ _ hs).1.symm
  · rintro rfl
    rw [encode_eq_append]
    exact prefix_append _ _

theorem LLVMTypeFromString2_of_skip {s s' : List Char}
    (h : Platform.SkipTypeQualifiers s = Platform.SkipTypeQualifiers s') (fuel : ℕ) :
    P.LLVMTypeFromString2 fuel s = P.LLVMTypeFromString2 fuel s' := by
  cases fuel with
  | zero => rfl
  | succ fuel => rw [Platform.LLVMTypeFromString2, Platform.LLVMTypeFromString2, h]

theorem LLVMTypeFromString2_object
    (hskip : Platform.SkipTypeQualifiers (t.encode rest) = t.encode rest) (ht : t = P.LKObjectPtr)
    (fuel : ℕ) : P.LLVMTypeFromString2 (fuel + 1) (t.encode rest)
      = some (some Platform.idTy, rest) := by
  rw [Platform.LLVMTypeFromString2, hskip]
  simp only [(encoding_prefix_iff P t rest).2 ht, if_true]
  rw [encode_eq_append, Platform.LKObjectEncoding, ht, drop_left]

theorem settles_object
    (hskip : ∀ rest, Platform.SkipTypeQualifiers (t.encode rest) = t.encode rest)
    (ht : t = P.LKObjectPtr) :
    ∃ ty, ∀ rest, Settles (fun fuel => P.LLVMTypeFromString2 fuel (t.encode rest))
      (some ty, rest) :=
  ⟨Platform.idTy, fun rest => settles_of_succ (by
    simp only [LLVMTypeFromString2_object (hskip rest) ht]
    exact settles_some _)⟩

theorem LLVMTypeFromString2_scalar {s : Scalar} (ht : .scalar s ≠ P.LKObjectPtr)
    (hs : s ≠ .unknown) : ∃ ty, ∀ fuel rest,
      P.LLVMTypeFromString2 (fuel + 1) ((scalar s).encode rest)
        = some (some ty, rest) := by
  have hpre := fun rest => mt (encoding_prefix_iff P (.scalar s) rest).1 ht
  have hskip : ∀ rest, Platform.SkipTypeQualifiers ((scalar s).encode rest)
      = (scalar s).encode rest := fun rest => by cases s <;> rfl
  cases s <;> first
    | exact absurd rfl hs
    | exact ⟨_, fun fuel rest => by
        rw [Platform.LLVMTypeFromString2, hskip]
        exact if_neg (hpre rest)⟩

theorem LLVMTypeFromString2_pointer (ht : .pointer t ≠ P.LKObjectPtr) (fuel : ℕ)
    (rest : List Char) : P.LLVMTypeFromString2 (fuel + 1) ((pointer t).encode rest)
      = (P.LLVMTypeFromString2 fuel (t.encode rest)).bind fun (pointee, typestr) =>
          (Platform.pointerTo pointee).map fun t => (some t, typestr) := by
  rw [Platform.LLVMTypeFromString2]
  exact if_neg (mt (encoding_prefix_iff P (.pointer t) rest).1 ht)

theorem LLVMTypeFromString2_struct {name : TypeName} {fields : List ObjCType}
    (ht : .struct name fields ≠ P.LKObjectPtr) (fuel : ℕ) (rest : List Char) :
    P.LLVMTypeFromString2 (fuel + 1) ((struct name fields).encode rest)
      = (P.structTypes fuel (encodeAll fields ('}' :: rest))).bind
          fun (types, typestr) =>
            (types.mapM id).map fun types => (some (.struct types), typestr) := by
  rw [Platform.LLVMTypeFromString2]
  refine (if_neg (mt (encoding_prefix_iff P (.struct name fields) rest).1 ht)).trans ?_
  show (skipName (name.chars ++ '=' :: _)).bind _ = _
  rw [skipName_append]
  rfl

theorem structTypes_cons (t : ObjCType) (ts : List ObjCType) (fuel : ℕ) (rest : List Char) :
    P.structTypes (fuel + 1) (encodeAll (t :: ts) ('}' :: rest))
      = (P.LLVMTypeFromString2 fuel (t.encode (encodeAll ts ('}' :: rest)))).bind
          fun (t, typestr) =>
            (P.structTypes fuel typestr).map fun (ts, typestr) => (t :: ts, typestr) := by
  obtain ⟨c, s, heq, -, hc, -⟩ := startsType_encode t (encodeAll ts ('}' :: rest))
  have hne : (encodeAll (t :: ts) ('}' :: rest)).head? ≠ some '}' := by
    rw [encodeAll, heq]
    rintro ⟨⟩
    exact hc rfl
  rw [Platform.structTypes, if_neg hne]
  rfl

theorem mapM_some : ∀ tys : List LLVMType, (tys.map some).mapM id = some tys
  | [] => rfl
  | ty :: tys => by
    rw [map_cons, mapM_cons, mapM_some tys]
    rfl

mutual

theorem settles_LLVMTypeFromString2 : ∀ t : ObjCType, P.Supports t →
    ∃ ty, ∀ rest, Settles (fun fuel => P.LLVMTypeFromString2 fuel (t.encode rest)) (some ty, rest)
  | .scalar s, h => by
    by_cases ht : .scalar s = P.LKObjectPtr
    · exact settles_object (fun rest => by cases s <;> rfl) ht
    · obtain ⟨ty, hty⟩ := LLVMTypeFromString2_scalar ht (h.resolve_left ht)
      refine ⟨ty, fun rest => settles_of_succ ?_⟩
      simp only [hty]
      exact settles_some _
  | .qualified q t, h => by
    obtain ⟨ty, hty⟩ := settles_LLVMTypeFromString2 t h.2
    refine ⟨ty, fun rest => ?_⟩
    simp only [LLVMTypeFromString2_of_skip (skip_qualified h.1 t rest)]
    exact hty rest
  | .pointer t, h => by
    by_cases ht : .pointer t = P.LKObjectPtr
    · exact settles_object (fun _ => rfl) ht
    obtain ⟨ty, hty⟩ := settles_LLVMTypeFromString2 t (h.resolve_left ht)
    obtain ⟨ty', hty'⟩ : ∃ ty', Platform.pointerTo (some ty) = some ty' := by
      cases ty <;> exact ⟨_, rfl⟩
    refine ⟨ty', fun rest => settles_of_succ ?_⟩
    simp only [LLVMTypeFromString2_pointer ht]
    refine (hty rest).bind ?_
    simp only [hty', map_some]
    exact settles_some _
  | .struct name fields, h => by
    by_cases ht : .struct name fields = P.LKObjectPtr
    · exact settles_object (fun _ => rfl) ht
    obtain ⟨tys, htys⟩ := settles_structTypes fields (h.resolve_left ht)
    refine ⟨.struct tys, fun rest => settles_of_succ ?_⟩
    simp only [LLVMTypeFromString2_struct ht]
    refine (htys rest).bind ?_
    simp only [mapM_some, map_some]
    exact settles_some _
  | .union name fields, h => settles_object (fun _ => rfl) h
  | .array length t, h => settles_object (fun _ => rfl) h

theorem settles_structTypes : ∀ ts : List ObjCType, P.SupportsAll ts →
    ∃ tys : List LLVMType, ∀ rest,
      Settles (fun fuel => P.structTypes fuel (encodeAll ts ('}' :: rest)))
        (tys.map some, rest)
  | [], _ => ⟨[], fun rest => settles_of_succ (settles_some ([], rest))⟩
  | t :: ts, h => by
    obtain ⟨ty, hty⟩ := settles_LLVMTypeFromString2 t h.1
    obtain ⟨tys, htys⟩ := settles_structTypes ts h.2
    refine ⟨ty :: tys, fun rest => settles_of_succ ?_⟩
    simp only [structTypes_cons]
    exact (hty _).bind ((htys rest).map fun (ts, typestr) => (some ty :: ts, typestr))

end

theorem mapM_cons_inv {ty : Option LLVMType} {tys : List (Option LLVMType)}
    {types : List LLVMType} (h : (ty :: tys).mapM id = some types) :
    ∃ t ts, ty = some t ∧ tys.mapM id = some ts := by
  rw [mapM_cons] at h
  obtain ⟨t, ht, h⟩ := bind_eq_some_iff.1 h
  obtain ⟨ts, hts, -⟩ := bind_eq_some_iff.1 h
  exact ⟨t, ts, ht, hts⟩

mutual

theorem supports_of_LLVMTypeFromString2 : ∀ (t : ObjCType) {fuel : ℕ} {rest s : List Char}
    {ty : LLVMType}, P.LLVMTypeFromString2 fuel (t.encode rest) = some (some ty, s) →
      P.Supports t ∧ s = rest
  | t, 0, _, _, _, h => nomatch h
  | .scalar c, fuel + 1, rest, s, ty, h => by
    by_cases ht : .scalar c = P.LKObjectPtr
    · rw [LLVMTypeFromString2_object (by cases c <;> rfl) ht] at h
      cases h
      exact ⟨.inl ht, rfl⟩
    · by_cases hc : c = .unknown
      · subst hc
        rw [Platform.LLVMTypeFromString2] at h
        have := (if_neg (mt (encoding_prefix_iff P _ rest).1 ht)).symm.trans h
        cases this
      · obtain ⟨ty', hty'⟩ := LLVMTypeFromString2_scalar ht hc
        rw [hty'] at h
        cases h
        exact ⟨.inr hc, rfl⟩
  | .qualified q t, fuel + 1, rest, s, ty, h => by
    by_cases hq : q.isSkipped = true
    · rw [LLVMTypeFromString2_of_skip (skip_qualified hq t rest)] at h
      obtain ⟨hsupports, rfl⟩ := supports_of_LLVMTypeFromString2 t h
      exact ⟨⟨hq, hsupports⟩, rfl⟩
    · rw [Platform.LLVMTypeFromString2, skip_not_qualified hq] at h
      have hne := mt (encoding_prefix_iff P _ rest).1 (P.unqualified q t).symm
      have := (if_neg hne).symm.trans h
      cases q <;> first | exact absurd rfl hq | cases this
  | .pointer t, fuel + 1, rest, s, ty, h => by
    by_cases ht : .pointer t = P.LKObjectPtr
    · rw [LLVMTypeFromString2_object rfl ht] at h
      cases h
      exact ⟨.inl ht, rfl⟩
    · rw [LLVMTypeFromString2_pointer ht] at h
      obtain ⟨⟨pointee, s'⟩, hpointee, h⟩ := bind_eq_some_iff.1 h
      obtain ⟨ty', hty', h⟩ := map_eq_some_iff.1 h
      cases h
      cases pointee with
      | none => cases hty'
      | some pointee =>
        obtain ⟨hsupports, rfl⟩ := supports_of_LLVMTypeFromString2 t hpointee
        exact ⟨.inr hsupports, rfl⟩
  | .struct name fields, fuel + 1, rest, s, ty, h => by
    by_cases ht : .struct name fields = P.LKObjectPtr
    · rw [LLVMTypeFromString2_object rfl ht] at h
      cases h
      exact ⟨.inl ht, rfl⟩
    · rw [LLVMTypeFromString2_struct ht] at h
      obtain ⟨⟨tys, s'⟩, hfields, h⟩ := bind_eq_some_iff.1 h
      obtain ⟨types, htypes, h⟩ := map_eq_some_iff.1 h
      cases h
      obtain ⟨hsupports, rfl⟩ := supports_of_structTypes fields hfields htypes
      exact ⟨.inr hsupports, rfl⟩
  | .union name fields, fuel + 1, rest, s, ty, h => by
    by_cases ht : .union name fields = P.LKObjectPtr
    · rw [LLVMTypeFromString2_object rfl ht] at h
      cases h
      exact ⟨ht, rfl⟩
    · rw [Platform.LLVMTypeFromString2] at h
      have := (if_neg (mt (encoding_prefix_iff P _ rest).1 ht)).symm.trans h
      cases this
  | .array length t, fuel + 1, rest, s, ty, h => by
    by_cases ht : .array length t = P.LKObjectPtr
    · rw [LLVMTypeFromString2_object rfl ht] at h
      cases h
      exact ⟨ht, rfl⟩
    · rw [Platform.LLVMTypeFromString2] at h
      have := (if_neg (mt (encoding_prefix_iff P _ rest).1 ht)).symm.trans h
      cases this

theorem supports_of_structTypes : ∀ (ts : List ObjCType) {fuel : ℕ} {rest s : List Char}
    {tys : List (Option LLVMType)} {types : List LLVMType},
    P.structTypes fuel (encodeAll ts ('}' :: rest)) = some (tys, s) →
      tys.mapM id = some types → P.SupportsAll ts ∧ s = rest
  | _, 0, _, _, _, _, h, _ => nomatch h
  | [], fuel + 1, rest, s, tys, types, h, _ => by
    rw [Platform.structTypes, encodeAll, head?_cons, if_pos rfl] at h
    cases h
    exact ⟨trivial, rfl⟩
  | t :: ts, fuel + 1, rest, s, tys, types, h, htypes => by
    rw [structTypes_cons] at h
    obtain ⟨⟨ty, s'⟩, ht, h⟩ := bind_eq_some_iff.1 h
    obtain ⟨⟨tys', s''⟩, hts, h⟩ := map_eq_some_iff.1 h
    cases h
    obtain ⟨ty', types', rfl, htypes'⟩ := mapM_cons_inv htypes
    obtain ⟨hsupports, rfl⟩ := supports_of_LLVMTypeFromString2 t ht
    obtain ⟨hall, rfl⟩ := supports_of_structTypes ts hts htypes'
    exact ⟨⟨hsupports, hall⟩, rfl⟩

end

end Etoile.LanguageKit
