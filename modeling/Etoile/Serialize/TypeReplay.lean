import Etoile.Serialize.TypeWalks

/-!
# What the deserializer makes of the events

What is on the stack comes down to this: something loaded takes up `unit` bytes at once, and its
parts add to that when they are popped, an array what its last element was away from the first and
a structure what its scalars, its arrays' lengths and the padding took.
-/

namespace Etoile.Serialize

open List Option

def CType.unit : CType → ℕ
  | .scalar c => c.size
  | .struct _ _ => 0
  | .array _ _ _ => 4

/-- Where the next member of a structure is looked for after something of the size. -/
def nextMember (address unit : ℕ) : ℕ := roundUp (address + unit) 4

mutual

def CType.extra (address : ℕ) : CType → ℕ
  | .scalar _ => 0
  | .struct _ members => members.grown address
  | .array n _ element => element.unit * n

def Members.grown (address : ℕ) : Members → ℕ
  | .last _ type => nextMember address type.unit - address
  | .cons _ type rest => (nextMember address type.unit - address)
    + rest.grown (nextMember address type.unit + type.extra address)

end

mutual

def CType.writes (address : ℕ) : CType → List Cell
  | .scalar c => [(address, c)]
  | .struct _ members => members.writes address
  | .array n _ element => inARow (fun place => element.writes place)
    (fun place => place + element.unit + element.extra place) (n + 1) address

def Members.writes (address : ℕ) : Members → List Cell
  | .last _ type => type.writes address
  | .cons _ type rest => type.writes address
    ++ rest.writes (nextMember address type.unit + type.extra address)

end

mutual

def CType.depth : CType → ℕ
  | .scalar _ => 0
  | .struct _ members => members.depth + 1
  | .array _ _ element => element.depth + 1

def Members.depth : Members → ℕ
  | .last _ type => type.depth
  | .cons _ type rest => max type.depth rest.depth

end

namespace ETDeserializerStack

variable {address : ℕ}

def addOffset (size : ℕ) : List ETDeserializerState → List ETDeserializerState
  | [] => []
  | state :: states => { state with startOffset := state.startOffset + size } :: states

def place (address : ℕ) (d : ETDeserializerStack) (size : ℕ) : ℕ :=
  (offsetOfIvar address d.loadedIVar size d.states).1

def placed (address : ℕ) (d : ETDeserializerStack) (size : ℕ) : List ETDeserializerState :=
  (offsetOfIvar address d.loadedIVar size d.states).2

theorem length_placed (d : ETDeserializerStack) (size : ℕ) :
    (d.placed address size).length = d.states.length := by
  unfold placed offsetOfIvar
  split
  · rename_i h
    rw [h]
  · rename_i h
    rw [h]
    split <;> rfl

def loaded (address : ℕ) (d : ETDeserializerStack) (t : CType) : ETDeserializerStack where
  states := addOffset (t.extra (d.place address t.unit)) (d.placed address t.unit)
  loadedIVar := d.loadedIVar + 1
  writes := d.writes ++ t.writes (d.place address t.unit)

/-- The type is loaded, unless it is nested too deeply. -/
structure Loads (address : ℕ) (t : CType) : Prop where
  loaded : ∀ d : ETDeserializerStack, d.states.length + t.depth < 20 →
    t.events.foldlM (load address) d = some (d.loaded address t)
  tooDeep : ∀ d : ETDeserializerStack, d.states.length < 20 → 20 ≤ d.states.length + t.depth →
    t.events.foldlM (load address) d = none

theorem addOffset_zero : ∀ states : List ETDeserializerState, addOffset 0 states = states
  | [] => rfl
  | _ :: _ => rfl

theorem loads_scalar (c : Scalar) : Loads address (.scalar c) where
  loaded d _ := by
    show some (⟨d.placed address c.size, _, _⟩ : ETDeserializerStack) = some ⟨addOffset 0 _, _, _⟩
    rw [addOffset_zero]
    rfl
  tooDeep d hd hdeep := absurd hdeep (Nat.not_le.2 hd)

section Nested

variable {states : List ETDeserializerState} {i : ℕ}

theorem load_elements {t : CType} (h : Loads address t) (hd : states.length + 1 + t.depth < 20) :
    ∀ (n q s l : ℕ) (w : List Cell), ∃ q',
      (replicate (n + 1) t.events).flatten.foldlM (load address)
          ⟨⟨q, s, .array, i⟩ :: states, l, w⟩
        = some ⟨⟨q', t.unit * (l + n), .array, i⟩ :: states, l + (n + 1),
          w ++ inARow (fun place => t.writes place)
            (fun place => place + t.unit + t.extra place) (n + 1) (q + t.unit * l)⟩
  | 0, q, s, l, w => by
    refine ⟨q + t.extra (q + t.unit * l), ?_⟩
    rw [replicate_one, flatten_singleton, h.loaded ⟨_ :: states, l, w⟩ hd]
    simp only [inARow, append_nil]
    rfl
  | n + 1, q, s, l, w => by
    obtain ⟨q', hrest⟩ := load_elements h hd n (q + t.extra (q + t.unit * l)) (t.unit * l) (l + 1)
      (w ++ t.writes (q + t.unit * l))
    refine ⟨q', ?_⟩
    rw [replicate_succ, flatten_cons, foldlM_append,
      h.loaded ⟨_ :: states, l, w⟩ hd]
    refine hrest.trans (congrArg some ?_)
    have hplace : q + t.extra (q + t.unit * l) + t.unit * (l + 1)
        = q + t.unit * l + t.unit + t.extra (q + t.unit * l) := by
      rw [Nat.mul_succ]
      omega
    rw [hplace, Nat.add_right_comm l 1 n, Nat.add_right_comm l 1 (n + 1), append_assoc]
    rfl

theorem load_nested {d : ETDeserializerStack} {size : ℕ} {type : StateType}
    {events : List TypeEvent} (begin close : TypeEvent) (hbegin : load address d begin = PUSH_STATE
      ⟨d.placed address size, d.loadedIVar + 1, d.writes⟩ (d.place address size) type)
    (hclose : ∀ d, load address d close = d.POP) (hd : d.states.length + 1 < 20)
    {p l k : ℕ} {w : List Cell}
    (h : events.foldlM (load address)
        ⟨⟨d.place address size, 0, type, d.loadedIVar + 1⟩ :: d.placed address size, 0, d.writes⟩
      = some ⟨⟨p, k, type, d.loadedIVar + 1⟩ :: d.placed address size, l, w⟩) :
    (begin :: events ++ [close]).foldlM (load address) d
      = some ⟨addOffset k (d.placed address size), d.loadedIVar + 1, w⟩ := by
  rw [cons_append, foldlM_cons, hbegin]
  unfold PUSH_STATE
  rw [if_pos (by rw [length_placed]; exact hd), bind_eq_bind, bind_some,
    foldlM_append, h]
  show (load address _ close).bind some = _
  rw [hclose]
  unfold POP
  cases d.placed address size with
  | nil => rfl
  | cons state states => rfl

theorem load_tooDeep {d : ETDeserializerStack} {size : ℕ} {type : StateType}
    {events : List TypeEvent} (begin close : TypeEvent) (hbegin : load address d begin = PUSH_STATE
      ⟨d.placed address size, d.loadedIVar + 1, d.writes⟩ (d.place address size) type)
    (h : d.states.length + 1 < 20 → events.foldlM (load address)
        ⟨⟨d.place address size, 0, type, d.loadedIVar + 1⟩ :: d.placed address size, 0, d.writes⟩
      = none) : (begin :: events ++ [close]).foldlM (load address) d = none := by
  rw [cons_append, foldlM_cons, hbegin]
  unfold PUSH_STATE
  dsimp only
  rw [length_placed]
  split_ifs with hd
  · rw [bind_eq_bind, bind_some, foldlM_append, h hd]
    rfl
  · rfl

theorem loads_array {n : ℕ} {small : n + 1 < 2 ^ 32} {t : CType} (h : Loads address t) :
    Loads address (.array n small t) where
  loaded d hd := by
    have hdepth : d.states.length + (t.depth + 1) < 20 := hd
    have hd' : (d.placed address 4).length + 1 + t.depth < 20 := by
      rw [length_placed]
      omega
    obtain ⟨q', helements⟩ := load_elements (i := d.loadedIVar + 1) h hd' n (d.place address 4) 0 0
      d.writes
    refine (load_nested (.beginArray (n + 1)) .endArray rfl (fun _ => rfl) (by omega)
      helements).trans ?_
    rw [Nat.zero_add]
    rfl
  tooDeep d hd hdeep := by
    have hdepth : 20 ≤ d.states.length + (t.depth + 1) := hdeep
    refine load_tooDeep (.beginArray (n + 1)) .endArray rfl fun hpush => ?_
    rw [replicate_succ, flatten_cons, foldlM_append, h.tooDeep]
    · rfl
    · show (d.placed address 4).length + 1 < 20
      rw [length_placed]
      exact hpush
    · show 20 ≤ (d.placed address 4).length + 1 + t.depth
      rw [length_placed]
      omega

/-- The members of a structure, from a state that says where the first is put. -/
structure LoadsMembers (address : ℕ) (ms : Members) : Prop where
  loaded : ∀ (states : List ETDeserializerState) (p k i l : ℕ) (w : List Cell),
    states.length + 1 + ms.depth < 20 → ∃ p' l',
      ms.events.foldlM (load address) ⟨⟨p, k, .struct, i⟩ :: states, l, w⟩
        = some ⟨⟨p', k + ms.grown p, .struct, i⟩ :: states, l', w ++ ms.writes p⟩
  tooDeep : ∀ (states : List ETDeserializerState) (p k i l : ℕ) (w : List Cell),
    states.length + 1 < 20 → 20 ≤ states.length + 1 + ms.depth →
      ms.events.foldlM (load address) ⟨⟨p, k, .struct, i⟩ :: states, l, w⟩ = none

theorem loads_last {name : Option FieldName} {t : CType} (h : Loads address t) :
    LoadsMembers address (.last name t) where
  loaded states _ _ _ l w hd := ⟨_, _, h.loaded ⟨_ :: states, l, w⟩ hd⟩
  tooDeep states _ _ _ l w hd hdeep := h.tooDeep ⟨_ :: states, l, w⟩ hd hdeep

theorem loads_cons {name : Option FieldName} {t : CType} {ms : Members} (h : Loads address t)
    (hms : LoadsMembers address ms) : LoadsMembers address (.cons name t ms) where
  loaded states p k i l w hd := by
    have hboth : states.length + 1 + max t.depth ms.depth < 20 := hd
    obtain ⟨p', l', hrest⟩ := hms.loaded states (nextMember p t.unit + t.extra p)
      (k + (nextMember p t.unit - p)) i (l + 1) (w ++ t.writes p) (by omega)
    refine ⟨p', l', ?_⟩
    show (t.events ++ ms.events).foldlM (load address) _ = _
    rw [foldlM_append,
      h.loaded ⟨_ :: states, l, w⟩ (show states.length + 1 + t.depth < 20 by omega)]
    refine hrest.trans ?_
    rw [Nat.add_assoc, append_assoc]
    rfl
  tooDeep states p k i l w hd hdeep := by
    have hboth : 20 ≤ states.length + 1 + max t.depth ms.depth := hdeep
    show (t.events ++ ms.events).foldlM (load address) _ = _
    rw [foldlM_append]
    rcases Nat.lt_or_ge (states.length + 1 + t.depth) 20 with hfirst | hfirst
    · rw [h.loaded ⟨_ :: states, l, w⟩ hfirst]
      exact hms.tooDeep states (nextMember p t.unit + t.extra p) (k + (nextMember p t.unit - p)) i
        (l + 1) (w ++ t.writes p) hd (by omega)
    · rw [h.tooDeep ⟨_ :: states, l, w⟩ hd hfirst]
      rfl

theorem loads_struct {name : StructName} {ms : Members} (h : LoadsMembers address ms) :
    Loads address (.struct name ms) where
  loaded d hd := by
    have hdepth : d.states.length + (ms.depth + 1) < 20 := hd
    obtain ⟨p', l', hms⟩ := h.loaded (d.placed address 0) (d.place address 0) 0 (d.loadedIVar + 1) 0
      d.writes (by rw [length_placed]; omega)
    refine (load_nested (.beginStruct name.encode) .endStruct rfl (fun _ => rfl) (by omega)
      hms).trans ?_
    rw [Nat.zero_add]
    rfl
  tooDeep d hd hdeep := by
    have hdepth : 20 ≤ d.states.length + (ms.depth + 1) := hdeep
    refine load_tooDeep (.beginStruct name.encode) .endStruct rfl fun hpush => ?_
    refine h.tooDeep _ _ _ _ _ _ ?_ ?_
    · rw [length_placed]
      exact hpush
    · rw [length_placed]
      omega

mutual

theorem loads : ∀ t : CType, Loads address t
  | .scalar c => loads_scalar c
  | .struct _ ms => loads_struct (loads_members ms)
  | .array _ _ element => loads_array (loads element)

theorem loads_members : ∀ ms : Members, LoadsMembers address ms
  | .last _ t => loads_last (loads t)
  | .cons _ t ms => loads_cons (loads t) (loads_members ms)

end

end Nested

theorem replay_events (address : ℕ) (t : CType) :
    replay address t.events = if t.depth < 20 then some (t.writes address) else none := by
  have h := @loads address t
  unfold replay
  split_ifs with hd
  · rw [h.loaded {} (by simpa using hd)]
    rfl
  · rw [h.tooDeep {} (by simp) (by simpa using hd)]
    rfl

end ETDeserializerStack

end Etoile.Serialize
