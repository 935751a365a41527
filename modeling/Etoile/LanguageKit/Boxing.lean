import Etoile.LanguageKit.SmallInt

/-!
# Boxed C integers

The compiled code extends an integer to 64 bits and tags it, or makes a BigInt of it; the
interpreter makes a BigInt in the way of its type. A `long` and a pointer have `w` bits.
-/

namespace Etoile.LanguageKit

open Int

/-- The values of `n` bits. -/
def InRange (signed : Bool) (n : ℕ) (x : ℤ) : Prop :=
  if signed then Fits n x else 0 ≤ x ∧ x < 2 ^ n

/-- A conversion to `n` bits. -/
def truncate (signed : Bool) (n : ℕ) (x : ℤ) : ℤ := if signed then wrap n x else x % 2 ^ n

section Ranges

variable {signed : Bool} {n m : ℕ} {x : ℤ}

theorem fits_wrap (hn : 0 < n) : Fits n (wrap n x) := by
  obtain ⟨k, rfl⟩ := Nat.exists_eq_succ_of_ne_zero hn.ne'
  have hlo := le_bmod (x := x) (m := 2 ^ (k + 1)) (by positivity)
  have hhi := bmod_lt (x := x) (m := 2 ^ (k + 1)) (by positivity)
  rw [pow_succ] at hlo hhi
  push_cast at hlo hhi
  unfold Fits wrap
  rw [pow_succ]
  constructor <;> simp <;> omega

theorem wrap_eq_iff (hn : 0 < n) : wrap n x = x ↔ Fits n x := by
  refine ⟨fun h => h ▸ fits_wrap hn, fun h => ?_⟩
  obtain ⟨k, rfl⟩ := Nat.exists_eq_succ_of_ne_zero hn.ne'
  obtain ⟨hlo, hhi⟩ := h
  simp only [Nat.succ_eq_add_one, Nat.add_sub_cancel] at hlo hhi
  refine bmod_eq_of_le_mul_two ?_ ?_ <;> rw [pow_succ] <;> push_cast <;> omega

theorem Fits.mono (hle : n ≤ m) (h : Fits n x) : Fits m x := by
  have hpow : (2 : ℤ) ^ (n - 1) ≤ 2 ^ (m - 1) := pow_le_pow_right₀ (by norm_num) (by omega)
  exact ⟨by linarith [h.1], h.2.trans_le hpow⟩

theorem InRange.mono (hle : n ≤ m) (h : InRange signed n x) : InRange signed m x := by
  cases signed with
  | true => exact Fits.mono hle h
  | false => exact ⟨h.1, h.2.trans_le (pow_le_pow_right₀ (by norm_num) hle)⟩

theorem truncate_eq (hn : 0 < n) (h : InRange signed n x) : truncate signed n x = x := by
  cases signed with
  | true => exact (wrap_eq_iff hn).2 h
  | false => exact emod_eq_of_lt h.1 h.2

end Ranges

def mpzGetSi (w : ℕ) (v : ℤ) : ℤ :=
  if 0 ≤ v then v % 2 ^ (w - 1) else -1 - (-1 - v) % 2 ^ (w - 1)

def mpzGetUi (w : ℕ) (v : ℤ) : ℤ := |v| % 2 ^ w

def mpzGet (signed : Bool) (w : ℕ) (v : ℤ) : ℤ := if signed then mpzGetSi w v else mpzGetUi w v

section GMP

variable {signed : Bool} {w n : ℕ} {v : ℤ}

theorem inRange_mpzGet : InRange signed w (mpzGet signed w v) := by
  cases signed with
  | true =>
    have hpos : (0 : ℤ) < 2 ^ (w - 1) := by positivity
    show Fits w (mpzGetSi w v)
    unfold Fits mpzGetSi
    split_ifs
    · have hlo := emod_nonneg v hpos.ne'
      have hhi := emod_lt_of_pos v hpos
      constructor <;> linarith
    · have hlo := emod_nonneg (-1 - v) hpos.ne'
      have hhi := emod_lt_of_pos (-1 - v) hpos
      constructor <;> linarith
  | false =>
    have hpos : (0 : ℤ) < 2 ^ w := by positivity
    exact ⟨emod_nonneg _ hpos.ne', emod_lt_of_pos _ hpos⟩

theorem mpzGet_eq (h : InRange signed w v) : mpzGet signed w v = v := by
  cases signed with
  | true =>
    obtain ⟨hlo, hhi⟩ : Fits w v := h
    show mpzGetSi w v = v
    unfold mpzGetSi
    split_ifs with hv
    · exact emod_eq_of_lt hv hhi
    · rw [emod_eq_of_lt (by omega) (by linarith)]
      ring
  | false =>
    show |v| % 2 ^ w = v
    rw [abs_of_nonneg h.1, emod_eq_of_lt h.1 h.2]

/-- A number that is taken through a `long` comes back if it fits in one. -/
theorem truncate_mpzGet_eq_iff (hn : 0 < n) (h : InRange signed n v) :
    truncate signed n (mpzGet signed w v) = v ↔ InRange signed w v := by
  rcases le_total n w with hle | hle
  · have hlong := h.mono hle
    exact iff_of_true (by rw [mpzGet_eq hlong, truncate_eq hn h]) hlong
  · rw [truncate_eq hn (inRange_mpzGet.mono hle)]
    exact ⟨fun heq => heq ▸ inRange_mpzGet, mpzGet_eq⟩

end GMP

/-- `B`, `c`, `C`, `s`, `S`, `i`, `I`, `l`, `L`, `q` and `Q`. -/
inductive IntegerType
  | bool | char | unsignedChar | short | unsignedShort | int | unsignedInt | long | unsignedLong
  | longLong | unsignedLongLong
  deriving DecidableEq

namespace IntegerType

def bits (w : ℕ) : IntegerType → ℕ
  | bool | char | unsignedChar => 8
  | short | unsignedShort => 16
  | int | unsignedInt => 32
  | long | unsignedLong => w
  | longLong | unsignedLongLong => 64

def signed : IntegerType → Bool
  | char | short | int | long | longLong => true
  | bool | unsignedChar | unsignedShort | unsignedInt | unsignedLong | unsignedLongLong => false

/-- `v` is a value of the type. -/
def IsValue (w : ℕ) (t : IntegerType) (v : ℤ) : Prop :=
  InRange t.signed (t.bits w) v ∧ (t = .bool → v ≤ 1)

/-- `(type)x`. -/
def cast (w : ℕ) (t : IntegerType) (x : ℤ) : ℤ := truncate t.signed (t.bits w) x

/-- `CASTMSG`, on a tagged word. -/
def castMsg (w : ℕ) (t : IntegerType) (obj : ℤ) : ℤ := t.cast w (obj / 2)

/-- `CASTMETHOD`, sent to a BigInt. -/
def castMethod (w : ℕ) (t : IntegerType) (v : ℤ) : ℤ := t.cast w (mpzGet t.signed w v)

end IntegerType

/-- `MakeSmallInt`: the shift is one of 64 bits. -/
def makeSmallInt (w : ℕ) (val : ℤ) : Word :=
  let ptr := wrap w (wrap 64 (2 * val))
  if ptr / 2 ≠ val then .object (bigIntWithLongLong w val) false else .int (ptr + 1)

/-- `BoxSmallInt`, called where the low bit is set. -/
def boxSmallInt (w : ℕ) : Word → Option ℤ
  | .int obj => if obj = 0 then none else some (bigIntWithLongLong w (obj / 2))
  | .object _ _ => none

inductive LLVMValue
  | integer (bits : ℕ) (value : ℤ)
  | pointer (address : ℤ)

def createSExt : LLVMValue → Option LLVMValue
  | .integer bits value => some (.integer 64 (wrap bits value))
  | .pointer _ => none

/-- A call of `MakeSmallInt`, which is to be given a `long long`. -/
def callMakeSmallInt (w : ℕ) : LLVMValue → Option Word
  | .integer bits value => if bits = 64 then some (makeSmallInt w (wrap 64 value)) else none
  | .pointer _ => none

namespace Compiled

def boxValue (w : ℕ) (t : IntegerType) (V : LLVMValue) : Option Word :=
  match t with
  | .longLong | .unsignedLongLong => callMakeSmallInt w V
  | _ => (createSExt V).bind (callMakeSmallInt w)

/-- `Unbox`: the message of the type. -/
def unbox (w : ℕ) (t : IntegerType) : Word → Option ℤ
  | .int obj => if obj % 2 = 0 then none else some (t.castMsg w obj)
  | .object value false => some (t.castMethod w value)
  | .object _ true => none

end Compiled

inductive Place
  | argument
  | returnValue
  /-- With what lies behind it in memory. -/
  | instanceVariable (behind : ℤ)

/-- `LoadValueOfTypeAtOffsetFromObject` loads a pointer, whatever the type of the variable. -/
def Place.load (w : ℕ) (t : IntegerType) (v : ℤ) : Place → LLVMValue
  | .argument | .returnValue => .integer (t.bits w) v
  | .instanceVariable behind => .pointer (wrap w (v + 2 ^ t.bits w * behind))

def Place.IsInstanceVariable : Place → Prop
  | .instanceVariable _ => True
  | _ => False

def bigIntWithLong (w : ℕ) (aVal : ℤ) : ℤ := wrap w aVal

def bigIntWithUnsignedLong (w : ℕ) (aVal : ℤ) : ℤ := aVal % 2 ^ w

namespace Interpreted

/-- The number of the BigInt; an `unsigned long long` is read as a `long long`. -/
def boxValue (w : ℕ) (t : IntegerType) (value : ℤ) : ℤ :=
  match t with
  | .bool | .char | .short | .int => bigIntWithLong w value
  | .unsignedChar | .unsignedShort | .unsignedInt | .unsignedLong =>
    bigIntWithUnsignedLong w value
  | .long | .longLong | .unsignedLongLong => bigIntWithLongLong w (wrap 64 value)

def unboxValue (w : ℕ) (t : IntegerType) (value : ℤ) : ℤ := t.castMethod w value

end Interpreted

/-- A value is boxed as itself and unboxed from there, also as an object, in the compiled code and
in the interpreter, and both do the same. -/
structure BoxesExactly (w : ℕ) (t : IntegerType) (place : Place) (v : ℤ) : Prop where
  compiled : ∃ r, Compiled.boxValue w t (place.load w t v) = some r ∧ r.Denotes w v
    ∧ Compiled.unbox w t r = some v ∧ boxObject w r = some v ∧ (r.IsInt → boxSmallInt w r = some v)
  interpreted : Interpreted.boxValue w t v = v
    ∧ Interpreted.unboxValue w t (Interpreted.boxValue w t v) = v
  agree : ∀ r, Compiled.boxValue w t (place.load w t v) = some r →
    (∀ n, r.Denotes w n ↔ Interpreted.boxValue w t v = n)
      ∧ Compiled.unbox w t r = some (Interpreted.unboxValue w t (Interpreted.boxValue w t v))

section Width

variable {w : ℕ} (hw : w = 32 ∨ w = 64) {t : IntegerType} {place : Place} {v : ℤ} {r : Word}
include hw

theorem IntegerType.bits_bounds (t : IntegerType) : 0 < t.bits w ∧ t.bits w ≤ 64 := by
  rcases hw with rfl | rfl <;> cases t <;> simp [bits]

theorem makeSmallInt_denotes {val : ℤ} (h : Fits 64 val) : (makeSmallInt w val).Denotes w val := by
  unfold makeSmallInt
  simp only
  split_ifs with hptr
  · exact ⟨bigIntWithLongLong_of_longLong h, rfl⟩
  · rw [not_not] at hptr
    have hbits : wrap w (wrap 64 (2 * val)) = 2 * val
        ∧ Fits w (wrap w (wrap 64 (2 * val)) + 1) := by
      unfold wrap bmod at hptr ⊢
      unfold Fits at h ⊢
      rcases hw with rfl | rfl <;> norm_num at h hptr ⊢ <;> split_ifs at hptr ⊢ <;> omega
    exact ⟨by rw [hbits.1], hbits.2⟩

theorem Compiled.boxValue_integer :
    Compiled.boxValue w t (.integer (t.bits w) v) = some (makeSmallInt w (wrap (t.bits w) v)) := by
  obtain ⟨hpos, hle⟩ := t.bits_bounds hw
  have hsame : wrap 64 (wrap (t.bits w) v) = wrap (t.bits w) v :=
    (wrap_eq_iff (by norm_num)).2 ((fits_wrap hpos).mono hle)
  cases t <;>
    simp [boxValue, createSExt, callMakeSmallInt, IntegerType.bits] at hsame ⊢ <;> rw [hsame]

theorem Compiled.unbox_eq_iff (hr : r.Denotes w v) (hv : InRange t.signed (t.bits w) v) :
    Compiled.unbox w t r = some v ↔ InRange t.signed w v := by
  have hpos := (t.bits_bounds hw).1
  cases r with
  | int obj =>
    obtain ⟨rfl, hfit⟩ := hr
    have hodd : (2 * v + 1) % 2 = 1 := by omega
    have hshift : (2 * v + 1) / 2 = v := by omega
    have hlong : InRange t.signed w v := by
      have hv' := (fits_of_tagged hw hfit).1
      unfold InRange at hv ⊢
      split_ifs at hv ⊢
      · exact hv'
      · exact ⟨hv.1, hv'.2.trans_le (pow_le_pow_right₀ (by norm_num) (by omega))⟩
    refine iff_of_true ?_ hlong
    simp [unbox, hodd, IntegerType.castMsg, IntegerType.cast, hshift, truncate_eq hpos hv]
  | object value low =>
    obtain ⟨rfl, rfl⟩ := hr
    rw [← truncate_mpzGet_eq_iff hpos hv]
    simp [unbox, IntegerType.castMethod, IntegerType.cast]

theorem boxSmallInt_of_denotes (hr : r.Denotes w v) (hint : r.IsInt) :
    boxSmallInt w r = some v := by
  cases r with
  | int obj =>
    obtain ⟨rfl, hfit⟩ := hr
    have hne : 2 * v + 1 ≠ 0 := by omega
    have hshift : (2 * v + 1) / 2 = v := by omega
    simp [boxSmallInt, hne, hshift, bigIntWithLongLong_eq hw (fits_of_tagged hw hfit).1]
  | object value low => exact hint.elim

theorem Interpreted.boxValue_eq (hv : InRange t.signed (t.bits w) v) (hfit : Fits (t.bits w) v) :
    Interpreted.boxValue w t v = v := by
  have hle := (t.bits_bounds hw).2
  have hlongLong : bigIntWithLongLong w (wrap 64 v) = v := by
    rw [(wrap_eq_iff (by norm_num)).2 (hfit.mono hle)]
    exact bigIntWithLongLong_of_longLong (hfit.mono hle)
  have hlong : t.bits w ≤ w → bigIntWithLong w v = v := fun h =>
    (wrap_eq_iff (by omega)).2 (hfit.mono h)
  have hunsigned : t.bits w ≤ w → t.signed = false → bigIntWithUnsignedLong w v = v := by
    intro h hsigned
    rw [hsigned] at hv
    exact truncate_eq (by omega) (hv.mono h)
  cases t with
  | bool | char | short | int =>
    exact hlong (by rcases hw with rfl | rfl <;> simp [IntegerType.bits])
  | unsignedChar | unsignedShort | unsignedInt | unsignedLong =>
    exact hunsigned (by rcases hw with rfl | rfl <;> simp [IntegerType.bits]) rfl
  | long | longLong | unsignedLongLong => exact hlongLong

/-- A C integer is boxed exactly if it is no instance variable, has no top bit where it is
unsigned, and fits in a `long`. -/
theorem boxesExactly_iff (hv : t.IsValue w v) :
    BoxesExactly w t place v
      ↔ ¬place.IsInstanceVariable ∧ Fits (t.bits w) v ∧ InRange t.signed w v := by
  have hpos := (t.bits_bounds hw).1
  obtain ⟨hv, -⟩ := hv
  constructor
  · rintro ⟨⟨r, hbox, hr, hunbox, -⟩, -, -⟩
    cases place with
    | instanceVariable behind =>
      cases t <;> simp [Place.load, Compiled.boxValue, createSExt, callMakeSmallInt] at hbox
    | argument | returnValue =>
      rw [Place.load, Compiled.boxValue_integer hw, Option.some.injEq] at hbox
      subst hbox
      have hext := makeSmallInt_denotes hw
        ((fits_wrap (x := v) hpos).mono (t.bits_bounds hw).2)
      exact ⟨id, (wrap_eq_iff hpos).1 (hext.unique hr), (Compiled.unbox_eq_iff hw hr hv).1 hunbox⟩
  · rintro ⟨hplace, hfit, hlong⟩
    have hbox : Compiled.boxValue w t (place.load w t v) = some (makeSmallInt w v) := by
      cases place with
      | instanceVariable behind => exact (hplace trivial).elim
      | argument | returnValue =>
        rw [Place.load, Compiled.boxValue_integer hw, (wrap_eq_iff hpos).2 hfit]
    have hr := makeSmallInt_denotes hw (hfit.mono (t.bits_bounds hw).2)
    have hunbox := (Compiled.unbox_eq_iff hw hr hv).2 hlong
    have hint := Interpreted.boxValue_eq hw hv hfit
    have hback : Interpreted.unboxValue w t v = v := (truncate_mpzGet_eq_iff hpos hv).2 hlong
    refine ⟨⟨_, hbox, hr, hunbox, boxObject_of_denotes hw hr, boxSmallInt_of_denotes hw hr⟩,
      ⟨hint, by rw [hint, hback]⟩, fun r hr' => ?_⟩
    obtain rfl : makeSmallInt w v = r := by simpa [hbox] using hr'
    rw [hint, hback]
    exact ⟨fun n => ⟨hr.unique, fun h => h ▸ hr⟩, hunbox⟩

end Width

/-- `-7`, returned as an `int`. -/
theorem boxesExactly_minus_seven : BoxesExactly 64 .int .returnValue (-7) := by
  have hfits : Fits 32 (-7) := by norm_num [Fits]
  have hvalue : IntegerType.int.IsValue 64 (-7) := ⟨hfits, by rintro ⟨⟩⟩
  exact (boxesExactly_iff (Or.inr rfl) hvalue).2 ⟨id, hfits, hfits.mono (by norm_num)⟩

/-- `200` is an `unsigned char` that is boxed as `-56`, no `int` variable is boxed, and of an
`unsigned long long` the interpreter makes a negative number. -/
theorem not_boxesExactly :
    IntegerType.unsignedChar.IsValue 64 200
      ∧ Compiled.boxValue 64 .unsignedChar (Place.argument.load 64 .unsignedChar 200)
        = some (.int (-111))
      ∧ (Word.int (-111)).Denotes 64 (-56)
      ∧ ¬BoxesExactly 64 .unsignedChar .argument 200
      ∧ (∀ v behind,
        Compiled.boxValue 64 .int ((Place.instanceVariable behind).load 64 .int v) = none)
      ∧ IntegerType.unsignedLongLong.IsValue 64 (2 ^ 63)
      ∧ Interpreted.boxValue 64 .unsignedLongLong (2 ^ 63) = -2 ^ 63 := by
  have hbox : Compiled.boxValue 64 .unsignedChar (Place.argument.load 64 .unsignedChar 200)
      = some (.int (-111)) := by rfl
  refine ⟨⟨⟨by norm_num, by norm_num [IntegerType.bits]⟩, nofun⟩, hbox, ⟨by norm_num,
    by norm_num [Fits]⟩, ?_, fun v behind => rfl,
    ⟨⟨by norm_num, by norm_num [IntegerType.bits]⟩, nofun⟩, by rfl⟩
  rintro ⟨⟨r, hr, hdenotes, -⟩, -, -⟩
  obtain rfl : Word.int (-111) = r := by simpa [hbox] using hr
  obtain ⟨hbits, -⟩ := hdenotes
  norm_num at hbits

end Etoile.LanguageKit
