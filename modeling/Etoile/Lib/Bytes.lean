import Mathlib.Data.List.Basic
import Mathlib.Data.List.TakeWhile
import Mathlib.Tactic.Ring

/-!
# Bytes and readers

Words as the bytes of a little-endian host, strings that end at their first zero byte, and readers
that go through a list of bytes from the left.  `Reads p b a` is a reader that takes the bytes `b`
for `a`, whatever follows them, and goes on after them; such readers compose.
-/

namespace Etoile

open List Option

/-- The low `n` bytes of a number, the lowest first. -/
def leBytes : ℕ → ℕ → List UInt8
  | 0, _ => []
  | n + 1, v => UInt8.ofNat v :: leBytes n (v / 256)

def ofLeBytes : List UInt8 → ℕ
  | [] => 0
  | b :: l => b.toNat + 256 * ofLeBytes l

theorem length_leBytes : ∀ n v : ℕ, (leBytes n v).length = n
  | 0, _ => rfl
  | n + 1, v => by rw [leBytes, length_cons, length_leBytes n]

theorem ofLeBytes_leBytes : ∀ n v : ℕ, ofLeBytes (leBytes n v) = v % 256 ^ n
  | 0, v => by simp [leBytes, ofLeBytes, Nat.mod_one]
  | n + 1, v => by
    have hpow : 256 ^ (n + 1) = 256 * 256 ^ n := by ring
    rw [leBytes, ofLeBytes, ofLeBytes_leBytes n, hpow, Nat.mod_mul, UInt8.toNat_ofNat']

theorem ofLeBytes_lt : ∀ l : List UInt8, ofLeBytes l < 256 ^ l.length
  | [] => Nat.one_pos
  | b :: l => by
    have hb := b.toNat_lt
    have hl := ofLeBytes_lt l
    have hpow : 256 ^ (l.length + 1) = 256 * 256 ^ l.length := by ring
    rw [ofLeBytes, length_cons, hpow]
    omega

theorem leBytes_ofLeBytes : ∀ l : List UInt8, leBytes l.length (ofLeBytes l) = l
  | [] => rfl
  | b :: l => by
    have hb := b.toNat_lt
    have hdiv : (b.toNat + 256 * ofLeBytes l) / 256 = ofLeBytes l := by omega
    have hmod : UInt8.ofNat (b.toNat + 256 * ofLeBytes l) = b := by
      refine UInt8.toNat_inj.1 ?_
      rw [UInt8.toNat_ofNat']
      omega
    rw [length_cons, ofLeBytes, leBytes, hdiv, hmod, leBytes_ofLeBytes l]

/-- `n` bytes. -/
abbrev Bytes (n : ℕ) := { l : List UInt8 // l.length = n }

/-- A word of `n` bytes in memory. -/
def hostBytes (n : ℕ) (v : BitVec (8 * n)) : Bytes n := ⟨leBytes n v.toNat, length_leBytes n _⟩

def ofHostBytes {n : ℕ} (b : Bytes n) : BitVec (8 * n) := BitVec.ofNat _ (ofLeBytes b.1)

@[simp] theorem ofHostBytes_hostBytes {n : ℕ} (v : BitVec (8 * n)) :
    ofHostBytes (hostBytes n v) = v := by
  have hpow : 256 ^ n = 2 ^ (8 * n) := by rw [Nat.pow_mul]
  refine BitVec.eq_of_toNat_eq ?_
  rw [ofHostBytes, hostBytes, ofLeBytes_leBytes, BitVec.toNat_ofNat, hpow, Nat.mod_mod,
    Nat.mod_eq_of_lt v.isLt]

@[simp] theorem hostBytes_ofHostBytes {n : ℕ} (b : Bytes n) : hostBytes n (ofHostBytes b) = b := by
  have hlt := ofLeBytes_lt b.1
  have hpow : 256 ^ b.1.length = 2 ^ (8 * n) := by rw [Nat.pow_mul, b.2]
  have hbytes := leBytes_ofLeBytes b.1
  refine Subtype.ext ?_
  show leBytes n (BitVec.ofNat (8 * n) (ofLeBytes b.1)).toNat = b.1
  rw [BitVec.toNat_ofNat, Nat.mod_eq_of_lt (hpow ▸ hlt)]
  rwa [b.2] at hbytes

def Bytes.reverse {n : ℕ} (b : Bytes n) : Bytes n := ⟨b.1.reverse, by rw [length_reverse, b.2]⟩

theorem Bytes.reverse_reverse {n : ℕ} (b : Bytes n) : b.reverse.reverse = b :=
  Subtype.ext (List.reverse_reverse b.1)

def swapBytes {n : ℕ} (v : BitVec (8 * n)) : BitVec (8 * n) := ofHostBytes (hostBytes n v).reverse

@[simp] theorem swapBytes_swapBytes {n : ℕ} (v : BitVec (8 * n)) : swapBytes (swapBytes v) = v := by
  unfold swapBytes
  rw [hostBytes_ofHostBytes, Bytes.reverse_reverse, ofHostBytes_hostBytes]

structure CString where
  bytes : List UInt8
  nulFree : 0 ∉ bytes
deriving DecidableEq

namespace CString

def terminated (s : CString) : List UInt8 := s.bytes ++ [0]

@[simp] theorem length_terminated (s : CString) : s.terminated.length = s.bytes.length + 1 := by
  simp [terminated]

end CString

/-- What reads bytes from the left; `none` is a read past the end. -/
abbrev Reader := StateT (List UInt8) Option

namespace Reader

def byte : Reader UInt8
  | [] => none
  | b :: rest => some (b, rest)

def bytes (n : ℕ) : Reader (Bytes n) := fun l =>
  if h : n ≤ l.length then some (⟨l.take n, length_take_of_le h⟩, l.drop n) else none

def cString : Reader CString := fun l =>
  match l.dropWhile (· != 0) with
  | [] => none
  | _ :: rest => some (⟨l.takeWhile (· != 0), fun h => by
      have h0 := mem_takeWhile_imp h
      simp at h0⟩, rest)

end Reader

variable {α β : Type}

theorem Reader.bind_eq_some_iff {p : Reader α} {f : α → Reader β} {l rest : List UInt8} {d : β} :
    (p >>= f) l = some (d, rest) ↔ ∃ a l', p l = some (a, l') ∧ f a l' = some (d, rest) := by
  show (p l).bind (fun q => f q.1 q.2) = some (d, rest) ↔ _
  rw [Option.bind_eq_some_iff, Prod.exists]

def Reads (p : Reader α) (b : List UInt8) (a : α) : Prop := ∀ rest, p (b ++ rest) = some (a, rest)

namespace Reads

variable {p : Reader α} {b c : List UInt8} {a : α}

theorem pure (a : α) : Reads (Pure.pure a) [] a := fun _ => rfl

variable {f : α → Reader β}

theorem bind_apply (hp : Reads p b a) (rest : List UInt8) : (p >>= f) (b ++ rest) = f a rest := by
  show (p (b ++ rest)).bind (fun q => f q.1 q.2) = f a rest
  rw [hp, bind_some]

theorem bind {d : β} (hp : Reads p b a) (hf : Reads (f a) c d) : Reads (p >>= f) (b ++ c) d := by
  intro rest
  rw [append_assoc, hp.bind_apply]
  exact hf rest

theorem bind_nil {d : β} (hp : Reads p b a) (hf : Reads (f a) [] d) : Reads (p >>= f) b d := by
  have h := hp.bind hf
  rwa [append_nil] at h

theorem nil_bind {d : β} (hp : Reads p [] a) (hf : Reads (f a) c d) :
    Reads (p >>= f) c d := hp.bind hf

theorem bind_pure {f : α → β} (hp : Reads p b a) :
    Reads (p >>= fun x => Pure.pure (f x)) b (f a) := hp.bind_nil (Reads.pure (f a))

theorem byte (b : UInt8) : Reads Reader.byte [b] b := fun _ => rfl

theorem bytes {n : ℕ} (b : Bytes n) : Reads (Reader.bytes n) b.1 b := by
  intro rest
  have hle : n ≤ (b.1 ++ rest).length := by
    rw [length_append, b.2]
    omega
  unfold Reader.bytes
  rw [dif_pos hle]
  congr
  · exact take_left' b.2
  · exact drop_left' b.2

theorem cString (s : CString) : Reads Reader.cString s.terminated s := by
  intro rest
  have hall : ∀ x ∈ s.bytes, (x != 0) = true := fun x hx => by
    rw [bne_iff_ne]
    rintro rfl
    exact s.nulFree hx
  have hdrop : (s.terminated ++ rest).dropWhile (· != 0) = 0 :: rest := by
    rw [CString.terminated, append_assoc, dropWhile_append_of_pos hall]
    rfl
  have htake : (s.terminated ++ rest).takeWhile (· != 0) = s.bytes := by
    rw [CString.terminated, append_assoc, takeWhile_append_of_pos hall]
    simp
  unfold Reader.cString
  simp only [hdrop, htake]

end Reads

namespace Reader

def times (p : Reader α) : ℕ → Reader (List α)
  | 0 => return []
  | n + 1 => do
    let a ← p
    let as ← times p n
    return a :: as

end Reader

section Times

variable {p : Reader α}

theorem Reads.times {ι : Type} {part : ι → List UInt8} {item : ι → α} : ∀ {xs : List ι},
    (∀ x ∈ xs, Reads p (part x) (item x)) →
      Reads (p.times xs.length) (xs.flatMap part) (xs.map item)
  | [], _ => Reads.pure []
  | x :: xs, h => by
    rw [forall_mem_cons] at h
    rw [flatMap_cons]
    exact h.1.bind (Reads.times h.2).bind_pure

/-- If all items are right, and one that is right is written well, then all are written well. -/
theorem Reader.forall_of_times {ι : Type} {part : ι → List UInt8} {Right : ι → α → Prop}
    {Good : ι → Prop} : ∀ {xs : List ι} {items : List α} {rest rest' : List UInt8},
      (∀ x ∈ xs, ∀ a l l', p (part x ++ l) = some (a, l') → Right x a → Good x) →
      (∀ x ∈ xs, Good x → ∃ a, Reads p (part x) a) →
        p.times xs.length (xs.flatMap part ++ rest) = some (items, rest') →
          Forall₂ Right xs items → ∀ x ∈ xs, Good x
  | [], _, _, _, _, _, _, .nil => nofun
  | x :: xs, a :: items, rest, rest', hright, hgood, h, .cons ha hitems => by
    rw [forall_mem_cons] at hright hgood ⊢
    rw [length_cons, flatMap_cons, append_assoc] at h
    obtain ⟨a', l, hread, hrest⟩ := Reader.bind_eq_some_iff.1 h
    obtain ⟨items', l', hreads, hlast⟩ := Reader.bind_eq_some_iff.1 hrest
    obtain ⟨hcons, -⟩ := Prod.mk.inj (some.inj hlast)
    obtain ⟨rfl, rfl⟩ := cons.inj hcons
    have hx := hright.1 a' _ _ hread ha
    obtain ⟨b, hb⟩ := hgood.1 hx
    rw [hb] at hread
    obtain ⟨-, rfl⟩ := Prod.mk.inj (some.inj hread)
    exact ⟨hx, Reader.forall_of_times hright.2 hgood.2 hreads hitems⟩

theorem Reader.length_of_times : ∀ {n : ℕ} {items : List α} {l rest : List UInt8},
    p.times n l = some (items, rest) → items.length = n
  | 0, _, _, _, h => by
    obtain ⟨rfl, -⟩ := Prod.mk.inj (some.inj h)
    rfl
  | n + 1, _, _, _, h => by
    obtain ⟨a, l, -, hrest⟩ := Reader.bind_eq_some_iff.1 h
    obtain ⟨items, l', hreads, hlast⟩ := Reader.bind_eq_some_iff.1 hrest
    obtain ⟨rfl, -⟩ := Prod.mk.inj (some.inj hlast)
    rw [length_cons, Reader.length_of_times hreads]

end Times

def Consumes (p : Reader α) : Prop := ∀ l a rest, p l = some (a, rest) → rest.length ≤ l.length

namespace Consumes

theorem pure (a : α) : Consumes (Pure.pure a : Reader α) := by
  rintro l _ _ ⟨⟩
  exact le_rfl

theorem bind {p : Reader α} {f : α → Reader β} (hp : Consumes p) (hf : ∀ a, Consumes (f a)) :
    Consumes (p >>= f) := by
  intro l b rest h
  obtain ⟨a, l', ha, hb⟩ := Reader.bind_eq_some_iff.1 h
  exact (hf a l' b rest hb).trans (hp l a l' ha)

theorem bytes (n : ℕ) : Consumes (Reader.bytes n) := by
  intro l b rest h
  unfold Reader.bytes at h
  split_ifs at h
  obtain ⟨-, rfl⟩ := Prod.mk.inj (some.inj h)
  rw [length_drop]
  omega

theorem cString : Consumes Reader.cString := by
  intro l s rest h
  unfold Reader.cString at h
  have hle := (dropWhile_suffix (l := l) (· != 0)).length_le
  split at h
  · cases h
  · rename_i hd
    obtain ⟨-, rfl⟩ := Prod.mk.inj (some.inj h)
    rw [hd, length_cons] at hle
    omega

end Consumes

end Etoile
