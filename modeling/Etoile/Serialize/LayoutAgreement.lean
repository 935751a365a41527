import Etoile.Serialize.TypeFits

/-!
# Serializer, deserializer and compiler on the layout of a value

They agree on the first value of every part, wherever they take the part to be, so that agreement
on the whole is agreement on where each part is.
-/

namespace Etoile.Serialize

open List Nat

mutual

def CType.cells : CType → ℕ
  | .scalar _ => 1
  | .struct _ members => members.cells
  | .array n _ element => (n + 1) * element.cells

def Members.cells : Members → ℕ
  | .last _ t => t.cells
  | .cons _ t rest => t.cells + rest.cells

end

mutual

theorem CType.length_layout : ∀ (t : CType) (p : ℕ), (t.layout p).length = t.cells
  | .scalar _, _ => rfl
  | .struct _ ms, p => ms.length_layout p 0
  | .array n _ element, p => length_inARow element.length_layout (n + 1) p

theorem Members.length_layout : ∀ (ms : Members) (p offset : ℕ),
    (ms.layout p offset).length = ms.cells
  | .last _ t, p, _ => t.length_layout _
  | .cons _ t ms, p, _ => by
    rw [Members.layout, length_append, t.length_layout, ms.length_layout]
    rfl

end

mutual

theorem CType.length_reads : ∀ (t : CType) (p : ℕ), (t.reads p).length = t.cells
  | .scalar _, _ => rfl
  | .struct _ ms, p => ms.length_reads p
  | .array n _ element, p => length_inARow element.length_reads (n + 1) p

theorem Members.length_reads : ∀ (ms : Members) (p : ℕ), (ms.reads p).length = ms.cells
  | .last _ t, p => t.length_reads p
  | .cons _ t ms, p => by
    rw [Members.reads, length_append, t.length_reads, ms.length_reads]
    rfl

end

mutual

theorem CType.length_writes : ∀ (t : CType) (p : ℕ), (t.writes p).length = t.cells
  | .scalar _, _ => rfl
  | .struct _ ms, p => ms.length_writes p
  | .array n _ element, p => length_inARow element.length_writes (n + 1) p

theorem Members.length_writes : ∀ (ms : Members) (p : ℕ), (ms.writes p).length = ms.cells
  | .last _ t, p => t.length_writes p
  | .cons _ t ms, p => by
    rw [Members.writes, length_append, t.length_writes, ms.length_writes]
    rfl

end

mutual

def CType.first : CType → Scalar
  | .scalar c => c
  | .struct _ members => members.first
  | .array _ _ element => element.first

def Members.first : Members → Scalar
  | .last _ t => t.first
  | .cons _ t _ => t.first

end

def Members.firstAlign : Members → ℕ
  | .last _ t => t.align
  | .cons _ t _ => t.align

def StartsAt (cells : List Cell) (p : ℕ) (c : Scalar) : Prop := ∃ rest, cells = (p, c) :: rest

theorem StartsAt.append {cells others : List Cell} {p : ℕ} {c : Scalar} (h : StartsAt cells p c) :
    StartsAt (cells ++ others) p c := by
  obtain ⟨rest, rfl⟩ := h
  exact ⟨rest ++ others, rfl⟩

theorem StartsAt.place_eq {cells others : List Cell} {p q : ℕ} {c d : Scalar}
    (h : StartsAt cells p c) (h' : StartsAt others q d) (heq : cells = others) : p = q := by
  obtain ⟨rest, rfl⟩ := h
  obtain ⟨rest', rfl⟩ := h'
  exact (Prod.mk.inj (cons.inj heq).1).1

mutual

theorem CType.starts_layout : ∀ (t : CType) (p : ℕ), StartsAt (t.layout p) p t.first
  | .scalar _, _ => ⟨[], rfl⟩
  | .struct _ ms, p => by
    have h := ms.starts_layout p 0
    rw [roundUp_zero] at h
    exact h
  | .array _ _ element, p => (element.starts_layout p).append

theorem Members.starts_layout : ∀ (ms : Members) (p offset : ℕ),
    StartsAt (ms.layout p offset) (p + roundUp offset ms.firstAlign) ms.first
  | .last _ t, _, _ => t.starts_layout _
  | .cons _ t _, _, _ => (t.starts_layout _).append

end

mutual

theorem CType.starts_reads : ∀ (t : CType) (p : ℕ), StartsAt (t.reads p) p t.first
  | .scalar _, _ => ⟨[], rfl⟩
  | .struct _ ms, p => ms.starts_reads p
  | .array _ _ element, p => (element.starts_reads p).append

theorem Members.starts_reads : ∀ (ms : Members) (p : ℕ), StartsAt (ms.reads p) p ms.first
  | .last _ t, p => t.starts_reads p
  | .cons _ t _, p => (t.starts_reads p).append

end

mutual

theorem CType.starts_writes : ∀ (t : CType) (p : ℕ), StartsAt (t.writes p) p t.first
  | .scalar _, _ => ⟨[], rfl⟩
  | .struct _ ms, p => ms.starts_writes p
  | .array _ _ element, p => (element.starts_writes p).append

theorem Members.starts_writes : ∀ (ms : Members) (p : ℕ), StartsAt (ms.writes p) p ms.first
  | .last _ t, p => t.starts_writes p
  | .cons _ t _, p => (t.starts_writes p).append

end

/-- What is read at the address and what is written there is what the compiler puts there. -/
structure CType.Same (t : CType) (p : ℕ) : Prop where
  reads : t.reads p = t.layout p
  writes : t.writes p = t.layout p

section Arrays

variable {n : ℕ} {small : n + 1 < 2 ^ 32} {t : CType} {p : ℕ}

theorem CType.Same.element (h : (CType.array n small t).Same p) :
    t.Same p ∧ (n = 0 ∨ t.Strides p) := by
  obtain ⟨hreads, hrests⟩ := inARow_inj ((t.length_reads p).trans (t.length_layout p).symm) h.reads
  obtain ⟨hwrites, hrests'⟩ :=
    inARow_inj ((t.length_writes p).trans (t.length_layout p).symm) h.writes
  refine ⟨⟨hreads, hwrites⟩, ?_⟩
  cases n with
  | zero => exact .inl rfl
  | succ n =>
    have hplace := (t.starts_reads _).append.place_eq (t.starts_layout _).append hrests
    have hplace' := (t.starts_writes _).append.place_eq (t.starts_layout _).append hrests'
    exact .inr ⟨add_left_cancel hplace,
      add_left_cancel ((add_assoc p t.unit (t.extra p)).symm.trans hplace')⟩

theorem same_array {Q : ℕ → Prop} (hsame : ∀ q, Q q → t.Same q) (hstrides : ∀ q, Q q → t.Strides q)
    (hnext : ∀ q, Q q → Q (q + t.sizeof)) (hp : Q p) : (CType.array n small t).Same p where
  reads := by
    refine inARow_congr (fun q hq => (hsame q hq).reads) (fun q hq => ?_) _ hp
    have heq : q + t.wordSize = q + t.sizeof := congrArg (q + ·) (hstrides q hq).1
    exact ⟨heq, heq ▸ hnext q hq⟩
  writes := by
    refine inARow_congr (fun q hq => (hsame q hq).writes) (fun q hq => ?_) _ hp
    have heq : q + t.unit + t.extra q = q + t.sizeof :=
      (add_assoc ..).trans (congrArg (q + ·) (hstrides q hq).2)
    exact ⟨heq, heq ▸ hnext q hq⟩

theorem same_array_one {small : 0 + 1 < 2 ^ 32} (h : t.Same p) : (CType.array 0 small t).Same p :=
  ⟨congrArg (· ++ []) h.reads, congrArg (· ++ []) h.writes⟩

end Arrays

theorem same_scalar (c : Scalar) (p : ℕ) : (CType.scalar c).Same p := ⟨rfl, rfl⟩

theorem same_flat : ∀ {t : CType}, t.flat = true → ∀ p, t.Same p ↔ t.FitsAligned
  | .scalar c, _, p => iff_of_true (same_scalar c p) trivial
  | .array n small t, hflat, p => by
    have hflat' : t.flat = true := hflat
    have ht := same_flat hflat'
    constructor
    · intro h
      obtain ⟨hfirst, hstrides⟩ := h.element
      exact ⟨(ht p).1 hfirst, hstrides.imp_right (strides_flat hflat').1⟩
    · rintro ⟨hfits, rfl | hrepeats⟩
      · exact same_array_one ((ht p).2 hfits)
      · exact same_array (Q := fun _ => True) (fun q _ => (ht q).2 hfits)
          (fun _ _ => (strides_flat hflat').2 hrepeats) (fun _ _ => trivial) trivial

theorem same_members : ∀ {ms : Members}, ms.flat = true → ∀ {p stop start : ℕ}, 4 ∣ p →
    4 ∣ start → (ms.reads (p + start) = ms.layout p stop ∧ ms.writes (p + start) = ms.layout p stop
      ↔ ms.FitsFrom stop start)
  | .last _ t, hflat, p, stop, start, hp, hstart => by
    constructor
    · rintro ⟨hreads, hwrites⟩
      have hplace : roundUp stop t.align = start :=
        (add_left_cancel ((t.starts_reads _).place_eq (t.starts_layout _) hreads)).symm
      refine ⟨hplace, (same_flat hflat (p + start)).1 ⟨hreads.trans ?_, hwrites.trans ?_⟩⟩
      · rw [← hplace]
        rfl
      · rw [← hplace]
        rfl
    · rintro ⟨rfl, hfits⟩
      have hsame := (same_flat hflat (p + roundUp stop t.align)).2 hfits
      exact ⟨hsame.reads, hsame.writes⟩
  | .cons _ t ms, hflat, p, stop, start, hp, hstart => by
    have hboth := Bool.and_eq_true_iff.1 hflat
    have hat : 4 ∣ p + start := Nat.dvd_add hp hstart
    have hwords : max t.wordSize WORD_SIZE = max t.sizeof 4 := by
      rw [CType.wordSize_flat hboth.1]
      rfl
    constructor
    · rintro ⟨hreads, hwrites⟩
      have hplace : roundUp stop t.align = start :=
        (add_left_cancel ((t.starts_reads _).append.place_eq (t.starts_layout _).append
          hreads)).symm
      rw [Members.reads, Members.layout, hplace, hwords] at hreads
      rw [Members.writes, Members.layout, hplace] at hwrites
      obtain ⟨hreads, hrest⟩ :=
        append_inj hreads ((t.length_reads _).trans (t.length_layout _).symm)
      obtain ⟨hwrites, hrest'⟩ :=
        append_inj hwrites ((t.length_writes _).trans (t.length_layout _).symm)
      have hnext := (ms.starts_reads _).place_eq (ms.starts_writes _) (hrest.trans hrest'.symm)
      have hsteady := (steady_iff hboth.1 hat).1 hnext.symm
      refine ⟨hplace, (same_flat hboth.1 _).1 ⟨hreads, hwrites⟩, hsteady, ?_⟩
      rw [← same_members hboth.2 hp (Nat.dvd_add hstart (steady_dvd hsteady)), ← add_assoc]
      exact ⟨hrest, hnext ▸ hrest'⟩
    · rintro ⟨hplace, hfits, hsteady, hrest⟩
      have hsame := (same_flat hboth.1 (p + start)).2 hfits
      have hnext := (steady_iff hboth.1 hat).2 hsteady
      obtain ⟨hreads, hwrites⟩ :=
        (same_members hboth.2 hp (Nat.dvd_add hstart (steady_dvd hsteady))).2 hrest
      rw [← add_assoc] at hreads hwrites
      rw [Members.reads, Members.writes, Members.layout, hplace, hwords, hnext, hsame.reads,
        hsame.writes, hreads, hwrites]
      exact ⟨rfl, rfl⟩

section Simple

variable {registered : List Char → Bool}

variable {t : CType}

theorem dvd_sizeof (hsimple : t.simple registered = true) (hflat : t.flat = false)
    (h : t.Repeats) : 4 ∣ t.sizeof := by
  cases t with
  | scalar _ => cases hflat
  | struct name ms =>
    rw [h.2]
    exact short_members_dvd (Bool.and_eq_true_iff.1 hsimple).2 h.1
  | array n small t =>
    show 4 ∣ (n + 1) * t.sizeof
    rw [h.1]
    exact dvd_mul_left ..

theorem strides_iff (hsimple : t.simple registered = true) (hfits : t.FitsAligned)
    {p : ℕ} (hp : 4 ∣ p) : t.Strides p ↔ t.Repeats := by
  cases t with
  | scalar c => exact iff_of_true (strides_scalar c) trivial
  | struct name ms => exact strides_struct (Bool.and_eq_true_iff.1 hsimple).2 hfits hp
  | array n small t => exact strides_array

theorem same_iff : ∀ {t : CType}, t.simple registered = true → ∀ {p : ℕ}, 4 ∣ p →
    (t.Same p ↔ t.FitsAligned)
  | .scalar c, _, p, _ => iff_of_true (same_scalar c p) trivial
  | .struct _ ms, hsimple, p, hp => by
    rw [CType.FitsAligned, ← same_members (Bool.and_eq_true_iff.1 hsimple).2 hp (dvd_zero 4)]
    exact ⟨fun h => ⟨h.reads, h.writes⟩, fun h => ⟨h.1, h.2⟩⟩
  | .array n small t, hsimple, p, hp => by
    have ht : ∀ {q}, 4 ∣ q → (t.Same q ↔ t.FitsAligned) := same_iff (t := t) hsimple
    constructor
    · intro h
      obtain ⟨hfirst, hstrides⟩ := h.element
      have hfits := (ht hp).1 hfirst
      exact ⟨hfits, hstrides.imp_right (strides_iff (t := t) hsimple hfits hp).1⟩
    · rintro ⟨hfits, rfl | hrepeats⟩
      · exact same_array_one ((ht hp).2 hfits)
      · cases hflat : t.flat with
        | true => exact (same_flat (t := .array n small t) hflat p).2 ⟨hfits, .inr hrepeats⟩
        | false =>
          have hdvd := dvd_sizeof (t := t) hsimple hflat hrepeats
          exact same_array (fun q hq => (ht hq).2 hfits)
            (fun q hq => (strides_iff (t := t) hsimple hfits hq).2 hrepeats)
            (fun q hq => Nat.dvd_add hq hdvd) hp

theorem strides_of_repeats (hstruct : t.isStruct = false) (h : t.Repeats) (p : ℕ) :
    t.Strides p := by
  cases t with
  | scalar c => exact strides_scalar c
  | struct _ _ => cases hstruct
  | array n small t => exact strides_array.2 h

theorem same_of_plain : ∀ {t : CType}, t.simple registered = true → t.FitsAligned → t.Plain →
    ∀ p, t.Same p
  | .scalar c, _, _, _, p => same_scalar c p
  | .struct _ (.last _ t), hsimple, hfits, _, p => by
    have hsame := (same_flat (Bool.and_eq_true_iff.1 hsimple).2 p).2 hfits.2
    have hlayout : t.layout (p + roundUp 0 t.align) = t.layout p := by
      rw [roundUp_zero, add_zero]
    exact ⟨hsame.reads.trans hlayout.symm, hsame.writes.trans hlayout.symm⟩
  | .array n small t, hsimple, ⟨hfits, hrepeats⟩, ⟨hplain, hstruct⟩, p => by
    have ht := same_of_plain (t := t) hsimple hfits hplain
    rcases hrepeats with rfl | hrepeats
    · exact same_array_one (ht p)
    · rcases hstruct with rfl | hstruct
      · exact same_array_one (ht p)
      · exact same_array (Q := fun _ => True) (fun q _ => ht q)
          (fun q _ => strides_of_repeats hstruct hrepeats q) (fun _ _ => trivial) trivial

/-- Two bytes after a multiple of four the next member is not where it is taken from. -/
theorem nextMember_ne (hflat : t.flat = true) (halign : t.align < 4)
    (hsteady : t.Steady) {p : ℕ} (hp : p % 4 = 2) :
    nextMember p t.unit + t.extra p ≠ p + max t.sizeof 4 := by
  cases t with
  | scalar c =>
    have halign' : c.size < 4 := halign
    show roundUp (p + c.size) 4 + 0 ≠ p + max c.size 4
    unfold roundUp
    rcases c.size_cases with h | h | h | h <;> rw [h] at halign' ⊢ <;> omega
  | struct _ _ => cases hflat
  | array n small t =>
    have hroom := (steady_iff hflat (dvd_zero 4)).2 hsteady
    rw [zero_add] at hroom
    rw [← hroom]
    show roundUp (p + 4) 4 + t.unit * n ≠ p + (roundUp (0 + 4) 4 + t.unit * n)
    unfold roundUp
    omega

theorem grown_ne {name : Option FieldName} (hflat : t.flat = true)
    (halign : t.align < 4) (hshort : t.Short) {p : ℕ} (hp : p % 4 = 2) :
    (Members.last name t).grown p ≠ (Members.last name t).wordSize := by
  cases t with
  | scalar c =>
    have halign' : c.size < 4 := halign
    show roundUp (p + c.size) 4 - p ≠ max c.size 4
    unfold roundUp
    rcases c.size_cases with h | h | h | h <;> rw [h] at halign' ⊢ <;> omega
  | struct _ _ => cases hflat
  | array n small t =>
    have hle : (CType.array n small t).wordSize ≤ 4 := by
      rw [CType.wordSize_flat hflat]
      exact hshort
    show roundUp (p + 4) 4 - p ≠ max (CType.array n small t).wordSize 4
    unfold roundUp
    omega

theorem plain_of_same : ∀ {t : CType}, t.simple registered = true → t.align < 4 →
    t.FitsAligned → ∀ {p : ℕ}, p % 4 = 2 → t.Same p → t.Plain
  | .scalar _, _, _, _, _, _, _ => trivial
  | .struct _ (.last _ _), _, _, _, _, _, _ => trivial
  | .struct _ (.cons _ t ms), hsimple, halign, hfits, p, hp, h => by
    have hboth := Bool.and_eq_true_iff.1 (Bool.and_eq_true_iff.1 hsimple).2
    have halign' : t.align < 4 := (le_max_left _ _).trans_lt halign
    have hlists := h.reads.trans h.writes.symm
    obtain ⟨-, hrest⟩ :=
      append_inj hlists ((t.length_reads p).trans (t.length_writes p).symm)
    have hnext := (ms.starts_reads _).place_eq (ms.starts_writes _) hrest
    rw [CType.wordSize_flat hboth.1] at hnext
    exact nextMember_ne hboth.1 halign' hfits.2.2.1 hp hnext.symm
  | .array n small t, hsimple, halign, ⟨hfits, hrepeats⟩, p, hp, h => by
    obtain ⟨hfirst, hstrides⟩ := h.element
    have hplain := plain_of_same (t := t) hsimple halign hfits hp hfirst
    refine ⟨hplain, ?_⟩
    rcases hstrides with hn | hstrides
    · exact .inl hn
    · rcases hrepeats with hn | hrepeats
      · exact .inl hn
      · right
        cases t with
        | scalar _ => rfl
        | array _ _ _ => rfl
        | struct name ms =>
          cases ms with
          | cons _ _ _ => cases hplain
          | last field t =>
            have heq := hstrides.2.trans hstrides.1.symm
            rw [CType.unit, zero_add] at heq
            exact absurd heq (grown_ne (Bool.and_eq_true_iff.1 hsimple).2 halign hrepeats.1 hp)

end Simple

/-- What is read when the value is serialized, and what is written when that is replayed, is what
the compiler has put into the variable, wherever that may lie. -/
def CType.Agrees (registered : List Char → Bool) (t : CType) : Prop :=
  ∀ address, t.align ∣ address → ∃ parsed,
    parseType registered t.encode.length t.encode address = some parsed
    ∧ parsed.reads = t.layout address
    ∧ ETDeserializerStack.replay address parsed.events = some (t.layout address)

theorem agrees_at {registered : List Char → Bool} {t : CType} (hsimple : t.simple registered = true)
    (address : ℕ) : (∃ parsed, parseType registered t.encode.length t.encode address = some parsed
      ∧ parsed.reads = t.layout address
      ∧ ETDeserializerStack.replay address parsed.events = some (t.layout address))
    ↔ t.depth < 20 ∧ t.Same address := by
  obtain ⟨offset, hparse⟩ := parse_simple hsimple
  have hparsed := @hparse _ [] address (le_refl _)
  rw [append_nil] at hparsed
  rw [hparsed]
  have hreplay := ETDeserializerStack.replay_events address t
  constructor
  · rintro ⟨parsed, hsome, hreads, hwrites⟩
    obtain rfl := Option.some.inj hsome
    rw [hreplay] at hwrites
    split_ifs at hwrites with hdepth
    exact ⟨hdepth, hreads, Option.some.inj hwrites⟩
  · rintro ⟨hdepth, hreads, hwrites⟩
    exact ⟨_, rfl, hreads, by rw [hreplay, if_pos hdepth, hwrites]⟩

def serializerFunctions (aName : List Char) : Bool := aName = "_NSZone".toList

def floats (first : Char) (rest : List Char) (h : '=' ∉ rest) : CType :=
  .struct ⟨first, rest, h⟩ (.cons none (.scalar (.intrinsic .float))
    (.last none (.scalar (.intrinsic .float))))

/-- `{_NSRect={_NSPoint=ff}{_NSSize=ff}}`. -/
def rectangle : CType :=
  .struct ⟨'_', "NSRect".toList, by decide⟩
    (.cons none (floats '_' "NSPoint".toList (by decide))
      (.last none (floats '_' "NSSize".toList (by decide))))

/-- An `int`, three of them, and a `float`. -/
example : (CType.struct ⟨'?', [], by decide⟩ (.cons none (.scalar (.intrinsic .int))
    (.cons none (.array 2 (by decide) (.scalar (.intrinsic .int)))
      (.last none (.scalar (.intrinsic .float)))))).Fits serializerFunctions where
  simple := rfl
  depth := by decide
  aligned := ⟨rfl, trivial, trivial, rfl, ⟨trivial, .inr trivial⟩, .inl rfl, rfl, trivial⟩
  plain := .inl (by decide)

end Etoile.Serialize
