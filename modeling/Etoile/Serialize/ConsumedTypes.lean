import Etoile.Serialize.TypeCodes
import Etoile.Serialize.TypeWalks

/-!
# Encodings that are consumed

The offset that a structure returns leaves out the types of its members, so that whatever follows
the structure is looked for inside it.
-/

namespace Etoile.Serialize

open List Nat Option

variable {functions : List Char → Option ParsedTypeSize} {fuel : ℕ} {type suffix : List Char}
  {r : ParsedTypeSize}

section Steps

variable (functions fuel type)

theorem parseTypeSize_struct : parseTypeSize functions (fuel + 1) ('{' :: type)
    = match functions (structName type) with
      | some retVal => some retVal
      | none => (parseStructBodySize functions fuel
          (type.drop ((structName type).length + 1))).map fun body =>
        ⟨body.size, (structName type).length + 2 + body.offset + 1⟩ := by
  rw [parseTypeSize]
  cases functions (structName type) with
  | some retVal => rfl
  | none =>
    cases parseStructBodySize functions fuel (type.drop ((structName type).length + 1)) <;> rfl

theorem parseTypeSize_array : parseTypeSize functions (fuel + 1) ('[' :: type)
    = (ParsedTypeSize.elements (parseTypeSize functions fuel
          (type.drop (type.takeWhile Char.isDigit).length))
        (elementCount (type.takeWhile Char.isDigit))).map fun body =>
      ⟨body.size, (type.takeWhile Char.isDigit).length + 2 + body.offset⟩ := by
  rw [parseTypeSize]
  cases ParsedTypeSize.elements (parseTypeSize functions fuel
    (type.drop (type.takeWhile Char.isDigit).length))
    (elementCount (type.takeWhile Char.isDigit)) <;> rfl

theorem parseTypeSize_qualified (q : Qualifier) :
    parseTypeSize functions (fuel + 1) (q.code :: type)
      = (parseTypeSize functions fuel type).map fun realtype =>
        ⟨realtype.size, realtype.offset + 1⟩ := by
  cases q <;>
  · rw [Qualifier.code, parseTypeSize]
    · simp only [mem_cons, true_or, or_true, if_true]
      cases parseTypeSize functions fuel type <;> rfl
    all_goals simp

theorem parseTypeSize_scalar (c : Scalar) :
    parseTypeSize functions (fuel + 1) (c.code :: type) = some ⟨c.size, 1⟩ := by
  have hintrinsic : ParsedTypeSize.ofIntrinsic c.code = ⟨c.size, 1⟩ := by
    unfold ParsedTypeSize.ofIntrinsic
    rw [c.ofCode?_code]
  cases c with
  | intrinsic type => cases type <;> exact congrArg some hintrinsic
  | _ => exact congrArg some hintrinsic

theorem parseTypeSize_pointer : parseTypeSize functions (fuel + 1) ('^' :: '{' :: type)
    = (parseTypeSize functions fuel ('{' :: type)).bind fun indirect =>
      match functions (type.takeWhile (· ≠ '=')) with
      | some retVal => some retVal
      | none =>
        if indirect.size % 2 ^ 32 < 2 ^ 31 then
          (parseStructBodySize functions fuel
              (type.drop ((type.takeWhile (· ≠ '=')).length + 1))).map fun body =>
            ⟨0, (type.takeWhile (· ≠ '=')).length + 3 + body.offset⟩
        else some ⟨2 ^ 32 - 1, 0⟩ := by
  rw [parseTypeSize]
  cases parseTypeSize functions fuel ('{' :: type) with
  | none => rfl
  | some indirect =>
    rw [bind_some]
    show (match functions (type.takeWhile (· ≠ '=')) with
      | some retVal => _
      | none => _) = _
    cases functions (type.takeWhile (· ≠ '=')) with
    | some retVal => rfl
    | none =>
      split_ifs
      · cases parseStructBodySize functions fuel
          (type.drop ((type.takeWhile (· ≠ '=')).length + 1)) <;> rfl
      · rfl

theorem parseStructBodySize_cons {c : Char} (hc : c ≠ '}') :
    parseStructBodySize functions (fuel + 1) (c :: type)
      = (parseTypeSize functions fuel ((c :: type).drop (fieldName (c :: type)).length)).bind
        fun substruct => (parseStructBodySize functions fuel
          ((c :: type).drop ((fieldName (c :: type)).length + substruct.offset))).map fun others =>
        ⟨max substruct.size WORD_SIZE + others.size,
          (fieldName (c :: type)).length + others.offset⟩ := by
  rw [parseStructBodySize]
  · cases parseTypeSize functions fuel ((c :: type).drop (fieldName (c :: type)).length) with
    | none => rfl
    | some substruct =>
      rw [bind_some]
      show (parseStructBodySize functions fuel
        ((c :: type).drop ((fieldName (c :: type)).length + substruct.offset)) >>= _) = _
      cases parseStructBodySize functions fuel
        ((c :: type).drop ((fieldName (c :: type)).length + substruct.offset)) <;> rfl
  · simp
  · simpa using hc

end Steps

/-- A body ends at a `}` beyond the names, and further on if it has a member. -/
theorem offset_le_of_body : ∀ {fuel : ℕ} {type : List Char} {r : ParsedTypeSize},
    parseStructBodySize functions fuel type = some r → ∃ k, type[k]? = some '}' ∧ r.offset ≤ k
      ∧ (type.head? ≠ some '}' → r.offset < k)
  | 0, _, _, h => by cases h
  | fuel + 1, [], _, h => by cases h
  | fuel + 1, c :: type, r, h => by
    by_cases hc : c = '}'
    · subst hc
      obtain rfl := some.inj h
      exact ⟨0, rfl, le_rfl, fun hhead => absurd rfl hhead⟩
    · rw [parseStructBodySize_cons functions fuel type hc] at h
      obtain ⟨substruct, hsub, h⟩ := bind_eq_some_iff.1 h
      obtain ⟨others, hothers, rfl⟩ := map_eq_some_iff.1 h
      obtain ⟨k, hk, hle, hlt⟩ := offset_le_of_body hothers
      refine ⟨(fieldName (c :: type)).length + substruct.offset + k, ?_, ?_, fun _ => ?_⟩
      · rw [getElem?_drop] at hk
        exact hk
      · show (fieldName (c :: type)).length + others.offset ≤ _
        omega
      · show (fieldName (c :: type)).length + others.offset < _
        by_cases hzero : substruct.offset = 0
        · -- The loop stays at a type that it cannot serialize, so there is no `}` here.
          have hhead : ((c :: type).drop (fieldName (c :: type)).length).head? ≠ some '}' := by
            intro hhead
            obtain ⟨rest, hrest⟩ := head?_eq_some_iff.1 hhead
            rw [hrest] at hsub
            cases fuel with
            | zero => cases hsub
            | succ fuel =>
              obtain rfl := some.inj hsub
              cases hzero
          rw [hzero, add_zero] at hlt
          have := hlt hhead
          omega
        · omega

section Encodings

theorem Qualifier.begins (q : Qualifier) : Begins q.code := by
  cases q <;> exact ⟨by decide, by decide, by decide⟩

theorem TypeCode.begins : ∀ t : TypeCode, ∃ c rest, t.encode = c :: rest ∧ Begins c
  | .scalar c => ⟨_, _, rfl, c.begins⟩
  | .struct _ _ | .array _ _ | .pointer _ _ => ⟨_, _, rfl, ⟨by decide, by decide, by decide⟩⟩
  | .qualified q _ => ⟨_, _, rfl, q.begins⟩

theorem MemberCodes.head_encode {members : MemberCodes} (h : members ≠ .nil) :
    ∃ c rest, members.encode = c :: rest ∧ c ≠ '}' := by
  cases members with
  | nil => exact absurd rfl h
  | cons name type rest =>
    cases name with
    | none =>
      obtain ⟨c, cs, hc, hbegins⟩ := type.begins
      refine ⟨c, cs ++ rest.encode, ?_, hbegins.ne_end⟩
      rw [encode, hc]
      rfl
    | some field => exact ⟨'"', _, rfl, by decide⟩

variable (name : TagName) (rest : List Char)

theorem takeWhile_tagName : (name.name ++ '=' :: rest).takeWhile (· ≠ '=') = name.name := by
  have hall : ∀ c ∈ name.name, decide (c ≠ '=') = true := fun c hc =>
    decide_eq_true fun heq => name.noEquals (heq ▸ hc)
  rw [takeWhile_append_of_pos hall, takeWhile_cons_of_neg (by simp), append_nil]

theorem structName_tagName : structName (name.name ++ '=' :: rest) = name.name := by
  obtain ⟨c, cs, hname⟩ := exists_cons_of_ne_nil name.nonempty
  have htake := takeWhile_tagName name rest
  have hc : decide (c ≠ '=') = true := decide_eq_true fun heq =>
    name.noEquals (hname ▸ heq ▸ mem_cons_self)
  rw [hname, cons_append, takeWhile_cons, if_pos hc] at htake
  rw [hname]
  exact htake

theorem drop_tagName : (name.name ++ '=' :: rest).drop (name.name.length + 1) = rest := by
  rw [← drop_drop, drop_left]
  rfl

theorem length_encodeStruct (members : List Char) :
    (encodeStruct name members).length = name.name.length + members.length + 3 := by
  unfold encodeStruct
  simp only [length_append, length_cons, length_nil]
  omega

theorem encodeStruct_append (members : List Char) :
    encodeStruct name members ++ rest
      = '{' :: (name.name ++ '=' :: (members ++ '}' :: rest)) := by
  unfold encodeStruct
  simp

def counted (n : ℕ) : ℕ := min n (2 ^ 63 - 1) % 2 ^ 32

theorem counted_le (n : ℕ) : counted n ≤ n :=
  (mod_le _ _).trans (min_le_left _ _)

theorem counted_eq_iff {n : ℕ} : counted n = n ↔ n < 2 ^ 32 := by
  unfold counted
  omega

theorem elementCount_digits (n : ℕ) : elementCount (toDigits 10 n) = counted n := by
  unfold elementCount
  rw [ofDigitChars_ten_toDigits]
  rfl

end Encodings

namespace TypeCode

/-- The offset is right: there are no members to leave out, and no array ends early. -/
def shaped (functions : List Char → Option ParsedTypeSize) : TypeCode → Prop
  | .scalar _ => True
  | .struct name members =>
    match functions name.name with
    | some retVal => retVal.offset = (struct name members).encode.length
    | none => members = .nil
  | .array n element => counted n ≠ 0 ∧ shaped functions element
  | .pointer _ _ => False
  | .qualified _ type => shaped functions type

def countedSize (functions : List Char → Option ParsedTypeSize) : TypeCode → ℕ
  | .struct name members =>
    match functions name.name with
    | some retVal => retVal.size
    | none => (struct name members).sizeof
  | .array n element => counted n * countedSize functions element
  | .qualified _ type => countedSize functions type
  | type => type.sizeof

/-- Under arrays that have as many elements as are counted there is a scalar, or a structure that
has no members or is left to a function that returns what it is asked for. -/
def plain (functions : List Char → Option ParsedTypeSize) : TypeCode → Prop
  | .scalar _ => True
  | .struct name members =>
    match functions name.name with
    | some retVal =>
      retVal = ⟨(struct name members).sizeof, (struct name members).encode.length⟩
    | none => members = .nil
  | .array n element => counted n ≠ 0 ∧ (n < 2 ^ 32 ∨ element.sizeof = 0) ∧ plain functions element
  | .pointer _ _ => False
  | .qualified _ type => plain functions type

theorem countedSize_le : ∀ {t : TypeCode}, Within functions t → t.countedSize functions ≤ t.sizeof
  | .scalar _, _ | .pointer _ _, _ => le_rfl
  | .struct name members, h => by
    show (match functions name.name with
      | some retVal => retVal.size
      | none => (struct name members).sizeof) ≤ _
    cases hfunction : functions name.name with
    | some retVal => exact (h retVal hfunction).1
    | none => exact le_rfl
  | .array n _, h => Nat.mul_le_mul (counted_le n) (countedSize_le h)
  | .qualified _ type, h => countedSize_le (t := type) h

theorem plain_iff : ∀ {t : TypeCode}, Within functions t →
    (t.plain functions ↔ t.shaped functions ∧ t.countedSize functions = t.sizeof)
  | .scalar _, _ | .pointer _ _, _ => (and_iff_left rfl).symm
  | .struct name members, _ => by
    unfold plain shaped countedSize
    cases functions name.name with
    | some retVal =>
      refine ⟨fun h => h ▸ ⟨rfl, rfl⟩, fun h => ?_⟩
      cases retVal
      exact congrArg₂ ParsedTypeSize.mk h.2 h.1
    | none => exact (and_iff_left rfl).symm
  | .qualified _ type, h => plain_iff (t := type) h
  | .array n element, h => by
    have hle := counted_le n
    have hsize := countedSize_le (t := element) h
    show counted n ≠ 0 ∧ (n < 2 ^ 32 ∨ element.sizeof = 0) ∧ plain functions element
      ↔ (counted n ≠ 0 ∧ shaped functions element)
        ∧ counted n * element.countedSize functions = n * element.sizeof
    rw [plain_iff (t := element) h]
    constructor
    · rintro ⟨hpos, hn, hshaped, heq⟩
      refine ⟨⟨hpos, hshaped⟩, ?_⟩
      rcases hn with hn | hzero
      · rw [heq, counted_eq_iff.2 hn]
      · rw [heq, hzero, mul_zero, mul_zero]
    · rintro ⟨⟨hpos, hshaped⟩, heq⟩
      refine ⟨hpos, ?_, hshaped, ?_⟩
      · by_contra hno
        rw [not_or, ← counted_eq_iff] at hno
        have hlt : counted n * element.sizeof < n * element.sizeof :=
          mul_lt_mul_of_pos_right (by omega) (pos_of_ne_zero hno.2)
        have hle' := mul_le_mul_left (counted n) hsize
        omega
      · by_contra hne
        have hlt : counted n * element.countedSize functions < counted n * element.sizeof :=
          mul_lt_mul_of_pos_left (by omega) (pos_of_ne_zero hpos)
        have hle' := mul_le_mul_right element.sizeof hle
        omega

end TypeCode

theorem elements_some (r : ParsedTypeSize) : ∀ n, ParsedTypeSize.elements (some r) n
    = some ⟨n * r.size, if n = 0 then 0 else r.offset⟩
  | 0 => by
    rw [zero_mul]
    rfl
  | n + 1 => by
    show (ParsedTypeSize.elements (some r) n).bind (fun others => some (ParsedTypeSize.mk
      (r.size + others.size) (if n = 0 then r.offset else others.offset))) = _
    rw [elements_some r n, bind_some, succ_mul, add_comm r.size]
    by_cases hn : n = 0
    · simp [hn]
    · simp [hn]

theorem elements_none {n : ℕ} (hn : n ≠ 0) : ParsedTypeSize.elements none n = none := by
  cases n with
  | zero => exact absurd rfl hn
  | succ n => rfl

theorem parseTypeSize_encode_array (n : ℕ) (element : TypeCode) :
    parseTypeSize functions (fuel + 1) ((TypeCode.array n element).encode ++ suffix)
      = (ParsedTypeSize.elements (parseTypeSize functions fuel (element.encode ++ ']' :: suffix))
          (counted n)).map fun body =>
        ⟨body.size, (toDigits 10 n).length + 2 + body.offset⟩ := by
  obtain ⟨c, rest, hc, hbegins⟩ := element.begins
  have hencode : (TypeCode.array n element).encode ++ suffix
      = '[' :: (toDigits 10 n ++ (element.encode ++ ']' :: suffix)) := by
    simp [TypeCode.encode]
  have hdigits : (toDigits 10 n ++ (element.encode ++ ']' :: suffix)).takeWhile Char.isDigit
      = toDigits 10 n := by
    rw [hc]
    exact takeWhile_digits hbegins.not_digit n _
  rw [hencode, parseTypeSize_array, hdigits, drop_left, elementCount_digits]

theorem parseTypeSize_of_shaped : ∀ {t : TypeCode} {fuel : ℕ} {suffix : List Char},
    t.shaped functions → t.encode.length ≤ fuel →
    parseTypeSize functions fuel (t.encode ++ suffix)
      = some ⟨t.countedSize functions, t.encode.length⟩
  | t, 0, _, _, hfuel => by
    obtain ⟨c, rest, hc, -⟩ := t.begins
    rw [hc] at hfuel
    cases hfuel
  | .scalar c, fuel + 1, suffix, _, _ => parseTypeSize_scalar functions fuel suffix c
  | .struct name members, fuel + 1, suffix, hshaped, hfuel => by
    show parseTypeSize functions (fuel + 1) (encodeStruct name members.encode ++ suffix) = _
    rw [encodeStruct_append, parseTypeSize_struct, structName_tagName]
    unfold TypeCode.shaped at hshaped
    unfold TypeCode.countedSize
    cases hfunction : functions name.name with
    | some retVal =>
      rw [hfunction] at hshaped
      exact congrArg (fun offset => some (ParsedTypeSize.mk retVal.size offset)) hshaped
    | none =>
      rw [hfunction] at hshaped
      obtain rfl : members = .nil := hshaped
      rw [drop_tagName]
      cases fuel with
      | zero =>
        change (encodeStruct name _).length ≤ _ at hfuel
        rw [length_encodeStruct] at hfuel
        omega
      | succ fuel =>
        show some (ParsedTypeSize.mk 0 (name.name.length + 2 + 0 + 1)) = some ⟨_, _⟩
        show _ = some (ParsedTypeSize.mk (roundUp 0 1) (encodeStruct name []).length)
        rw [length_encodeStruct]
        rfl
  | .array n element, fuel + 1, suffix, hshaped, hfuel => by
    have hlength : (TypeCode.array n element).encode.length
        = (toDigits 10 n).length + 2 + element.encode.length := by
      simp [TypeCode.encode]
      omega
    rw [parseTypeSize_encode_array,
      @parseTypeSize_of_shaped element fuel (']' :: suffix) hshaped.2 (by omega),
      elements_some, if_neg hshaped.1, hlength]
    rfl
  | .qualified q type, fuel + 1, suffix, hshaped, hfuel => by
    show parseTypeSize functions (fuel + 1) (q.code :: (type.encode ++ suffix)) = _
    have hfuel : type.encode.length ≤ fuel := le_of_succ_le_succ hfuel
    rw [parseTypeSize_qualified, @parseTypeSize_of_shaped type fuel suffix hshaped hfuel]
    rfl

/-- What is counted of members does not reach their end, unless there are none. -/
theorem offset_le_of_members {members : MemberCodes} (hsuffix : '}' ∉ suffix)
    (h : parseStructBodySize functions fuel (members.encode ++ '}' :: suffix) = some r) :
    r.offset ≤ members.encode.length ∧ (members ≠ .nil → r.offset < members.encode.length) := by
  obtain ⟨k, hk, hle, hlt⟩ := offset_le_of_body h
  have hend : k ≤ members.encode.length := by
    by_contra hgt
    rw [getElem?_append_right (by omega),
      show k - members.encode.length = k - members.encode.length - 1 + 1 by omega,
      getElem?_cons_succ] at hk
    exact hsuffix (mem_of_getElem? hk)
  refine ⟨hle.trans hend, fun hmembers => (hlt ?_).trans_le hend⟩
  obtain ⟨c, rest, hc, hne⟩ := members.head_encode hmembers
  rw [hc]
  simpa using hne

/-- Other types are not, whatever has no structure that ends comes after them. -/
theorem shaped_of_offset : ∀ {t : TypeCode} {fuel : ℕ} {suffix : List Char} {r : ParsedTypeSize},
    Within functions t → '}' ∉ suffix →
    parseTypeSize functions fuel (t.encode ++ suffix) = some r → r.offset = t.encode.length →
    t.shaped functions
  | _, 0, _, _, _, _, h, _ => by cases h
  | .scalar _, _ + 1, _, _, _, _, _, _ => trivial
  | .struct name members, fuel + 1, suffix, r, hwithin, hsuffix, h, hoffset => by
    change parseTypeSize functions (fuel + 1) (encodeStruct name members.encode ++ suffix) = _ at h
    change r.offset = (encodeStruct name members.encode).length at hoffset
    rw [encodeStruct_append, parseTypeSize_struct, structName_tagName] at h
    unfold TypeCode.shaped
    cases hfunction : functions name.name with
    | some retVal =>
      rw [hfunction] at h
      obtain rfl := some.inj h
      exact hoffset
    | none =>
      rw [hfunction] at h
      obtain ⟨body, hbody, rfl⟩ := map_eq_some_iff.1 h
      rw [drop_tagName] at hbody
      rw [length_encodeStruct] at hoffset
      by_contra hmembers
      have hlt := (offset_le_of_members hsuffix hbody).2 hmembers
      change name.name.length + 2 + body.offset + 1 = _ at hoffset
      omega
  | .pointer name members, fuel + 1, suffix, r, hwithin, hsuffix, h, hoffset => by
    change parseTypeSize functions (fuel + 1) ('^' :: (encodeStruct name members.encode ++ suffix))
      = _ at h
    change r.offset = (encodeStruct name members.encode).length + 1 at hoffset
    rw [encodeStruct_append, parseTypeSize_pointer] at h
    rw [length_encodeStruct] at hoffset
    obtain ⟨indirect, hindirect, h⟩ := bind_eq_some_iff.1 h
    rw [takeWhile_tagName] at h
    cases hfunction : functions name.name with
    | some retVal =>
      rw [hfunction] at h
      obtain rfl := some.inj h
      have hle := (hwithin retVal hfunction).2
      change retVal.offset ≤ (encodeStruct name members.encode).length at hle
      rw [length_encodeStruct] at hle
      omega
    | none =>
      rw [hfunction, drop_tagName] at h
      dsimp only at h
      split_ifs at h
      · obtain ⟨body, hbody, rfl⟩ := map_eq_some_iff.1 h
        have hle := (offset_le_of_members hsuffix hbody).1
        change name.name.length + 3 + body.offset = _ at hoffset
        omega
      · obtain rfl := some.inj h
        change 0 = _ at hoffset
        omega
  | .array n element, fuel + 1, suffix, r, hwithin, hsuffix, h, hoffset => by
    rw [parseTypeSize_encode_array] at h
    obtain ⟨body, hbody, rfl⟩ := map_eq_some_iff.1 h
    have hlength : (TypeCode.array n element).encode.length
        = (toDigits 10 n).length + 2 + element.encode.length := by
      simp [TypeCode.encode]
      omega
    have hoffset : body.offset = element.encode.length := by
      rw [hlength] at hoffset
      exact add_left_cancel hoffset
    have hcounted : counted n ≠ 0 := by
      intro hzero
      obtain ⟨c, rest, hc, -⟩ := element.begins
      rw [hzero] at hbody
      obtain rfl := some.inj hbody
      rw [hc] at hoffset
      cases hoffset
    refine ⟨hcounted, ?_⟩
    cases hparse : parseTypeSize functions fuel (element.encode ++ ']' :: suffix) with
    | none =>
      rw [hparse, elements_none hcounted] at hbody
      cases hbody
    | some r =>
      rw [hparse, elements_some, if_neg hcounted] at hbody
      obtain rfl := some.inj hbody
      refine shaped_of_offset hwithin ?_ hparse hoffset
      simpa using hsuffix
  | .qualified q type, fuel + 1, suffix, r, hwithin, hsuffix, h, hoffset => by
    change parseTypeSize functions (fuel + 1) (q.code :: (type.encode ++ suffix)) = _ at h
    rw [parseTypeSize_qualified] at h
    obtain ⟨realtype, hreal, rfl⟩ := map_eq_some_iff.1 h
    have hoffset : realtype.offset = type.encode.length := succ.inj hoffset
    exact shaped_of_offset (t := type) hwithin hsuffix hreal hoffset

/-- `struct _NSPoint`, with a function of its own or without. -/
def point : TagName := ⟨"_NSPoint".toList, by decide, by decide⟩

def pointStruct : TypeCode :=
  .struct point (.cons none (.scalar (.intrinsic .float))
    (.cons none (.scalar (.intrinsic .float)) .nil))

def pointFunction (name : List Char) : Option ParsedTypeSize :=
  if name = point.name then some ⟨8, 13⟩ else none

end Etoile.Serialize
