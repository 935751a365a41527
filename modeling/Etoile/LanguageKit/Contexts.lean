import Etoile.LanguageKit.Addressing

/-!
# Contexts at run time

Entering a method makes a context without a parent. Evaluating a block literal makes a closure
over the current context, and calling a closure makes a context whose parent is the closure's. So
the contexts that the parent links reach are the activations of the enclosing scopes, in order,
and the addresses of the code generator land in the right one.
-/

namespace Etoile.LanguageKit

open List Option

structure MethodDef where
  method : Method
  classes : List ObjectTable

namespace MethodDef

def table (d : MethodDef) : ScopeTable where
  localVariables := d.method.locals ++ declaredIn d.method.statements
  arguments := d.method.arguments

def scopes (d : MethodDef) (blocks : List ScopeTable) : Scopes := ⟨blocks, d.table, d.classes⟩

end MethodDef

def blockTable (arguments locals : List String) (statements : List AST) : ScopeTable where
  localVariables := locals ++ declaredIn statements
  arguments := arguments

inductive Occurs (d : MethodDef) : List ScopeTable → AST → Prop
  | statement {a : AST} : a ∈ d.method.statements → Occurs d [] a
  | child {blocks : List ScopeTable} {a b : AST} :
      Occurs d blocks a → b ∈ a.children → Occurs d blocks b
  | body {blocks : List ScopeTable} {arguments locals : List String} {statements : List AST}
      {a : AST} : Occurs d blocks (.blockExpr arguments locals statements) → a ∈ statements →
      Occurs d (blockTable arguments locals statements :: blocks) a

/-- A context: `fields` from `CONTEXT_VARIABLE_OFFSET` on. The activations of the enclosing
scopes, its own first, are recorded beside what the generated code knows. -/
structure Context (V : Type) where
  code : MethodDef
  blocks : List ScopeTable
  parent : Option ℕ
  fields : List V
  activations : List ℕ

structure Closure where
  code : MethodDef
  blocks : List ScopeTable
  context : ℕ
  activations : List ℕ

structure Memory (V : Type) where
  contexts : List (Context V)
  closures : List Closure

inductive Location
  | field (context index : ℕ)
  | ivar (offsetVariable : String) (offset : ℕ)
  | global (name : String)
  deriving DecidableEq

namespace Context

variable {V : Type}

def scopes (f : Context V) : Scopes := f.code.scopes f.blocks

def location (f : Context V) (aName : String) : Option Location :=
  match f.scopes.innermost aName with
  | some (k, t) => f.activations[k]?.map fun c => .field c (t.fieldOf (t.variableOf aName))
  | none =>
    (f.scopes.nearestClass aName).map fun t =>
      match t.slotOf aName with
      | .field links index => .field links index
      | .ivar offsetVariable offset => .ivar offsetVariable offset
      | .global name => .global name

end Context

def initialFields {V : Type} (nil : V) (t : ScopeTable) (self : V) (arguments : List V) :
    List V :=
  self :: (arguments ++ replicate t.localVariables.length nil)

namespace Memory

variable {V : Type}

/-- Load the parent of a context, `links` times. -/
def follow (s : Memory V) : ℕ → ℕ → Option ℕ
  | 0, c => some c
  | links + 1, c => (s.contexts[c]?.bind Context.parent).bind (s.follow links)

/-- Where an access ends up when it runs in the context `c`. -/
def resolve (s : Memory V) (c : ℕ) : Slot → Option Location
  | .field links index => (s.follow links c).map fun c' => .field c' index
  | .ivar offsetVariable offset => some (.ivar offsetVariable offset)
  | .global name => some (.global name)

def touches (s : Memory V) (c : ℕ) (f : Context V) (a : Access) : Option Location :=
  (a.slot f.scopes.codeGenScopes f.scopes.ClassName).bind (s.resolve c)

def setField (s : Memory V) (c index : ℕ) (value : V) : Memory V :=
  { s with contexts := s.contexts.modify c fun f =>
      { f with fields := f.fields.set (index - CONTEXT_VARIABLE_OFFSET) value } }

/-- One step of any activation of the program, with code generated for the methods `prog`. -/
inductive Step (isClass : String → Bool) (nil : V) (prog : Set MethodDef) :
    Memory V → Memory V → Prop
  | enter {s : Memory V} {d : MethodDef} {self : V} {arguments : List V} :
      d ∈ prog → arguments.length = d.table.arguments.length →
      Step isClass nil prog s { s with contexts := s.contexts ++
        [⟨d, [], none, initialFields nil d.table self arguments, [s.contexts.length]⟩] }
  | literal {s : Memory V} {c : ℕ} {f : Context V} {arguments locals : List String}
      {statements : List AST} :
      s.contexts[c]? = some f → Occurs f.code f.blocks (.blockExpr arguments locals statements) →
      Step isClass nil prog s { s with closures := s.closures ++
        [⟨f.code, blockTable arguments locals statements :: f.blocks, c, f.activations⟩] }
  | call {s : Memory V} {b : ℕ} {o : Closure} {t : ScopeTable} {self : V} {arguments : List V} :
      s.closures[b]? = some o → o.blocks.head? = some t →
      arguments.length = t.arguments.length →
      Step isClass nil prog s { s with contexts := s.contexts ++
        [⟨o.code, o.blocks, some o.context, initialFields nil t self arguments,
          s.contexts.length :: o.activations⟩] }
  | assign {s : Memory V} {c : ℕ} {f : Context V} {x : String} {e : AST} {a : Access}
      {c' index : ℕ} {value : V} :
      s.contexts[c]? = some f → Occurs f.code f.blocks (.assignExpr x e) →
      compileAssign isClass f.scopes.symbols x = some a →
      s.touches c f a = some (.field c' index) →
      Step isClass nil prog s (s.setField c' index value)

inductive Reachable (isClass : String → Bool) (nil : V) (prog : Set MethodDef) : Memory V → Prop
  | start : Reachable isClass nil prog ⟨[], []⟩
  | step {s s' : Memory V} : Reachable isClass nil prog s → Step isClass nil prog s s' →
      Reachable isClass nil prog s'

structure Linked (s : Memory V) (c : ℕ) (f : Context V) : Prop where
  own : f.activations.head? = some c
  depth : f.activations.length = f.blocks.length + 1
  parent : f.parent = f.activations.tail.head?
  outer : ∀ p, f.parent = some p → ∃ g, s.contexts[p]? = some g
    ∧ g.activations = f.activations.tail ∧ g.blocks = f.blocks.tail ∧ g.code = f.code
  fields : ∀ t, f.scopes.lexical.head? = some t → f.fields.length = t.layout.length

/-- A closure whose context is the innermost of its enclosing activations. -/
def LinkedClosure (s : Memory V) (o : Closure) : Prop :=
  ∃ g, s.contexts[o.context]? = some g ∧ o.blocks.tail = g.blocks ∧ o.blocks ≠ []
    ∧ o.code = g.code ∧ o.activations = g.activations

def WellLinked (s : Memory V) : Prop :=
  (∀ (c : ℕ) (f : Context V), s.contexts[c]? = some f → s.Linked c f)
    ∧ ∀ o ∈ s.closures, s.LinkedClosure o

structure SameShape (f f' : Context V) : Prop where
  code : f'.code = f.code
  blocks : f'.blocks = f.blocks
  parent : f'.parent = f.parent
  activations : f'.activations = f.activations
  fields : f'.fields.length = f.fields.length

/-- The contexts of `s` are still there in `s'`. -/
def Keeps (s s' : Memory V) : Prop :=
  ∀ (c : ℕ) (f : Context V), s.contexts[c]? = some f →
    ∃ f', s'.contexts[c]? = some f' ∧ SameShape f f'

theorem SameShape.refl (f : Context V) : SameShape f f := ⟨rfl, rfl, rfl, rfl, rfl⟩

theorem Linked.mono {s s' : Memory V} (hk : Keeps s s') {c : ℕ} {f f' : Context V}
    (h : s.Linked c f) (hf : SameShape f f') : s'.Linked c f' := by
  have hscopes : f'.scopes = f.scopes := by
    unfold Context.scopes
    rw [hf.code, hf.blocks]
  refine ⟨?_, ?_, ?_, fun p hp => ?_, fun t ht => ?_⟩
  · rw [hf.activations]
    exact h.own
  · rw [hf.activations, hf.blocks]
    exact h.depth
  · rw [hf.parent, hf.activations]
    exact h.parent
  · obtain ⟨g, hg, hact, hblocks, hcode⟩ := h.outer p (hf.parent ▸ hp)
    obtain ⟨g', hg', hsame⟩ := hk p g hg
    refine ⟨g', hg', ?_, ?_, ?_⟩
    · rw [hsame.activations, hf.activations, hact]
    · rw [hsame.blocks, hf.blocks, hblocks]
    · rw [hsame.code, hf.code, hcode]
  · rw [hf.fields]
    exact h.fields t (hscopes ▸ ht)

theorem LinkedClosure.mono {s s' : Memory V} (hk : Keeps s s') {o : Closure}
    (h : s.LinkedClosure o) : s'.LinkedClosure o := by
  obtain ⟨g, hg, hblocks, hne, hcode, hact⟩ := h
  obtain ⟨g', hg', hsame⟩ := hk _ _ hg
  exact ⟨g', hg', hblocks.trans hsame.blocks.symm, hne, hcode.trans hsame.code.symm,
    hact.trans hsame.activations.symm⟩

theorem keeps_push (s : Memory V) (f : Context V) :
    Keeps s { s with contexts := s.contexts ++ [f] } := by
  intro c g hg
  have hlt := (List.getElem?_eq_some_iff.mp hg).1
  exact ⟨g, by rw [getElem?_append_left hlt, hg], SameShape.refl g⟩

variable {s : Memory V}

theorem WellLinked.push (h : s.WellLinked) {f : Context V}
    (hf : ({ s with contexts := s.contexts ++ [f] } : Memory V).Linked s.contexts.length f) :
    ({ s with contexts := s.contexts ++ [f] } : Memory V).WellLinked := by
  have hk := keeps_push s f
  refine ⟨fun c g hg => ?_, fun o ho => (h.2 o ho).mono hk⟩
  rcases lt_trichotomy c s.contexts.length with hlt | rfl | hgt
  · have hg' : s.contexts[c]? = some g := by
      rw [← hg]
      exact (getElem?_append_left hlt).symm
    exact (h.1 c g hg').mono hk (SameShape.refl g)
  · obtain rfl : f = g := by simpa using hg
    exact hf
  · rw [getElem?_eq_none (by simp; omega)] at hg
    exact nomatch hg

theorem initialFields_length {nil : V} {t : ScopeTable} {self : V} {arguments : List V}
    (h : arguments.length = t.arguments.length) :
    (initialFields nil t self arguments).length = t.layout.length := by
  simp [initialFields, ScopeTable.layout, h]

theorem setField_getElem? {c index : ℕ} {value : V} {j : ℕ} {g : Context V}
    (h : (s.setField c index value).contexts[j]? = some g) :
    ∃ f, s.contexts[j]? = some f ∧ SameShape f g := by
  unfold setField at h
  simp only [getElem?_modify] at h
  obtain ⟨f, hf, rfl⟩ := map_eq_some_iff.mp h
  refine ⟨f, hf, ?_⟩
  split_ifs
  · exact ⟨rfl, rfl, rfl, rfl, by simp⟩
  · exact SameShape.refl f

theorem keeps_setField (s : Memory V) (c index : ℕ) (value : V) :
    Keeps s (s.setField c index value) := by
  intro j f hf
  have hlt : j < (s.setField c index value).contexts.length := by
    unfold setField
    rw [length_modify]
    exact (List.getElem?_eq_some_iff.mp hf).1
  obtain ⟨f', hf', hsame⟩ := setField_getElem? (getElem?_eq_getElem hlt)
  obtain rfl : f = f' := some.inj (hf.symm.trans hf')
  exact ⟨_, getElem?_eq_getElem hlt, hsame⟩

section Runs

variable {isClass : String → Bool} {nil : V} {prog : Set MethodDef}

theorem Step.wellLinked {s s' : Memory V} (h : Step isClass nil prog s s') (hs : s.WellLinked) :
    s'.WellLinked := by
  cases h with
  | @enter d self arguments hd hlen =>
    refine hs.push ⟨rfl, rfl, rfl, fun p hp => (nomatch hp), fun t ht => ?_⟩
    obtain rfl : d.table = t := by simpa [Context.scopes, MethodDef.scopes, Scopes.lexical] using ht
    exact initialFields_length hlen
  | @literal c f arguments locals statements hf hocc =>
    have hk : ∀ closures, Keeps s { s with closures := closures } :=
      fun _ _ g hg => ⟨g, hg, SameShape.refl g⟩
    refine ⟨fun j g hg => (hs.1 j g hg).mono (hk _) (SameShape.refl g), fun o ho => ?_⟩
    rcases mem_append.mp ho with ho | ho
    · exact hs.2 o ho
    · obtain rfl := mem_singleton.mp ho
      exact ⟨f, hf, rfl, cons_ne_nil _ _, rfl, rfl⟩
  | @call b o t self arguments ho ht hlen =>
    obtain ⟨g, hg, hblocks, hne, hcode, hact⟩ := hs.2 o (mem_of_getElem? ho)
    have hlinked := hs.1 _ _ hg
    refine hs.push ⟨rfl, ?_, ?_, fun p hp => ?_, fun t' ht' => ?_⟩
    · have hlen : o.blocks.length = o.blocks.tail.length + 1 := by
        have := length_pos_of_ne_nil hne
        rw [length_tail]
        omega
      show o.activations.length + 1 = o.blocks.length + 1
      rw [hact, hlinked.depth, hlen, hblocks]
    · show some o.context = o.activations.head?
      rw [hact, (hs.1 _ _ hg).own]
    · obtain rfl : o.context = p := some.inj hp
      refine ⟨g, ?_, hact.symm, hblocks.symm, hcode.symm⟩
      rw [getElem?_append_left (List.getElem?_eq_some_iff.mp hg).1, hg]
    · have ht' : (o.blocks ++ [o.code.table]).head? = some t' := ht'
      rw [head?_append, ht] at ht'
      obtain rfl : t = t' := some.inj ht'
      exact initialFields_length hlen
  | @assign c f x e a c' index value hf hocc ha ht =>
    have hk := keeps_setField s c' index value
    refine ⟨fun j g hg => ?_, fun o ho => (hs.2 o ho).mono hk⟩
    obtain ⟨f', hf', hsame⟩ := setField_getElem? hg
    exact (hs.1 j f' hf').mono hk hsame

theorem Reachable.wellLinked {s : Memory V} (h : Reachable isClass nil prog s) : s.WellLinked := by
  induction h with
  | start => exact ⟨fun c f hf => (nomatch hf), fun o ho => nomatch ho⟩
  | step _ hstep ih => exact hstep.wellLinked ih

end Runs

theorem WellLinked.follow (hs : s.WellLinked) :
    ∀ (k : ℕ) {c c' : ℕ} {f : Context V}, s.contexts[c]? = some f →
      f.activations[k]? = some c' → s.follow k c = some c'
        ∧ ∃ g, s.contexts[c']? = some g ∧ g.blocks = f.blocks.drop k ∧ g.code = f.code
  | 0, c, c', f, hf, hk => by
    have hown := (hs.1 c f hf).own
    rw [← head?_eq_getElem?, hown] at hk
    obtain rfl := some.inj hk
    exact ⟨rfl, f, hf, rfl, rfl⟩
  | k + 1, c, c', f, hf, hk => by
    have hlinked := hs.1 c f hf
    have htail : f.activations.tail[k]? = some c' := by rwa [getElem?_tail]
    cases hp : f.parent with
    | none =>
      rw [hlinked.parent, head?_eq_none_iff] at hp
      rw [hp] at htail
      exact nomatch htail
    | some p =>
      obtain ⟨g, hg, hact, hblocks, hcode⟩ := hlinked.outer p hp
      obtain ⟨hfollow, g', hg', hblocks', hcode'⟩ := hs.follow k hg (hact ▸ htail)
      refine ⟨?_, g', hg', ?_, hcode'.trans hcode⟩
      · show (s.contexts[c]?.bind Context.parent).bind (s.follow k) = some c'
        rw [hf, bind_some, hp, bind_some, hfollow]
      · rw [hblocks', hblocks, drop_tail]

/-- A scope further out is that of the context as many links away. -/
theorem WellLinked.outer (hs : s.WellLinked) {c k : ℕ} {f : Context V} {t : ScopeTable}
    (hf : s.contexts[c]? = some f) (ht : f.scopes.lexical[k]? = some t) :
    ∃ c' g, f.activations[k]? = some c' ∧ s.follow k c = some c' ∧ s.contexts[c']? = some g
      ∧ g.scopes.lexical.head? = some t := by
  have hlt : k < f.activations.length := by
    have hlen := (List.getElem?_eq_some_iff.mp ht).1
    unfold Scopes.lexical at hlen
    rw [length_append, length_singleton] at hlen
    rw [(hs.1 c f hf).depth]
    exact hlen
  have hact := getElem?_eq_getElem hlt
  obtain ⟨hfollow, g, hg, hblocks, hcode⟩ := hs.follow k hf hact
  refine ⟨_, g, hact, hfollow, hg, ?_⟩
  unfold Context.scopes MethodDef.scopes
  rw [hblocks, hcode, lexical_drop]
  · exact ht
  · rw [(hs.1 c f hf).depth] at hlt
    omega

theorem WellLinked.resolve (hs : s.WellLinked) {c : ℕ} {f : Context V}
    (hf : s.contexts[c]? = some f) {x : String} {slot : Slot}
    (hslot : f.scopes.bindingSlot x = some slot) :
    s.resolve c slot = f.location x ∧ ∀ k t, f.scopes.innermost x = some (k, t) →
      ∃ c' g, f.activations[k]? = some c' ∧ s.contexts[c']? = some g
        ∧ g.scopes.lexical.head? = some t ∧ g.fields.length = t.layout.length := by
  unfold Scopes.bindingSlot at hslot
  unfold Context.location
  cases hin : f.scopes.innermost x with
  | none =>
    rw [hin] at hslot
    obtain ⟨t, ht, rfl⟩ := map_eq_some_iff.mp hslot
    refine ⟨?_, fun k t h => nomatch h⟩
    simp only [ht, map_some]
    unfold ObjectTable.slotOf
    split <;> rfl
  | some kt =>
    obtain ⟨k, t⟩ := kt
    rw [hin] at hslot
    obtain rfl := some.inj hslot
    obtain ⟨-, hk, -⟩ := innermost_eq_some hin
    obtain ⟨c', g, hact, hfollow, hg, hhead⟩ := hs.outer hf hk
    refine ⟨?_, fun k' t' h => ?_⟩
    · simp only [hact, map_some, Memory.resolve, hfollow]
    · obtain ⟨rfl, rfl⟩ := Prod.mk.inj (some.inj h)
      exact ⟨c', g, hact, hg, hhead, (hs.1 c' g hg).fields t hhead⟩

section Arguments

variable {isClass : String → Bool} {nil : V} {prog : Set MethodDef} {s' : Memory V}

/-- The contexts are still there, with the same scopes, receivers and arguments. -/
def KeepsArguments (s s' : Memory V) : Prop :=
  ∀ (c : ℕ) (f : Context V), s.contexts[c]? = some f → ∃ f', s'.contexts[c]? = some f'
    ∧ f'.scopes = f.scopes ∧ ∀ t, f.scopes.lexical.head? = some t →
      f'.fields.take (t.arguments.length + 1) = f.fields.take (t.arguments.length + 1)

theorem localAtIndex_behind {σ : Scopes} {i k links index : ℕ}
    (h : localAtIndex σ.codeGenScopes i k = some (links, index)) : links = k ∧ ∃ t,
      σ.lexical[k]? = some t ∧ CONTEXT_VARIABLE_OFFSET + 1 + t.arguments.length ≤ index := by
  have hscope : σ.codeGenScopes[k]? = σ.lexical[k]?.map fun t =>
      initialiseFunction t.arguments.length t.localVariables.length := getElem?_map
  unfold localAtIndex at h
  rw [head?_eq_getElem?] at h
  rcases ht : σ.lexical[k]? with _ | t
  · grind
  · simp only [ht, map_some, initialiseFunction] at hscope
    grind

/-- A store goes behind the arguments. -/
theorem WellLinked.stores_behind (hs : s.WellLinked) {c c' index : ℕ} {f g : Context V}
    {t : ScopeTable} {x : String} {a : Access} (hf : s.contexts[c]? = some f)
    (ha : compileAssign isClass f.scopes.symbols x = some a)
    (hfield : s.touches c f a = some (.field c' index)) (hg : s.contexts[c']? = some g)
    (ht : g.scopes.lexical.head? = some t) :
    CONTEXT_VARIABLE_OFFSET + 1 + t.arguments.length ≤ index := by
  obtain ⟨slot, hslot, hres⟩ := bind_eq_some_iff.mp hfield
  have hload : ∀ i k, a ≠ .loadArgument i k := by
    grind [compileAssign, storeIvarIn, Option.map_eq_some_iff]
  cases a with
  | loadLocal i k | storeLocal i k =>
    obtain ⟨⟨links, index'⟩, hlocal, rfl⟩ := map_eq_some_iff.mp hslot
    obtain ⟨rfl, t', ht', hle⟩ := localAtIndex_behind hlocal
    obtain ⟨c'', g', -, hfollow, hg', hhead⟩ := hs.outer hf ht'
    grind [Memory.resolve]
  | _ => grind [Access.slot, Memory.resolve, Option.map_eq_some_iff]

theorem Step.keepsArguments (h : Step isClass nil prog s s') (hs : s.WellLinked) :
    KeepsArguments s s' := by
  intro j g hg
  cases h with
  | enter | call =>
    have hlt := (List.getElem?_eq_some_iff.mp hg).1
    exact ⟨g, by rw [getElem?_append_left hlt, hg], rfl, fun _ _ => rfl⟩
  | literal => exact ⟨g, hg, rfl, fun _ _ => rfl⟩
  | assign hf _ ha hfield =>
    rw [setField, getElem?_modify, hg]
    refine ⟨_, rfl, ?_⟩
    dsimp only
    split_ifs with hj
    · refine ⟨rfl, fun t ht => take_set_of_le ?_⟩
      have hle := hs.stores_behind hf ha hfield (hj ▸ hg) ht
      omega
    · exact ⟨rfl, fun _ _ => rfl⟩

/-- In no run is a receiver or an argument changed, whatever context the code runs in. -/
theorem arguments_kept (hs : Reachable isClass nil prog s)
    (hrun : Relation.ReflTransGen (Step isClass nil prog) s s') : KeepsArguments s s' := by
  suffices h : Reachable isClass nil prog s' ∧ KeepsArguments s s' from h.2
  induction hrun with
  | refl => exact ⟨hs, fun _ f hf => ⟨f, hf, rfl, fun _ _ => rfl⟩⟩
  | tail _ hstep ih =>
    refine ⟨ih.1.step hstep, fun c f hf => ?_⟩
    obtain ⟨f', hf', hscopes, htake⟩ := ih.2 c f hf
    obtain ⟨f'', hf'', hscopes', htake'⟩ := hstep.keepsArguments ih.1.wellLinked c f' hf'
    exact ⟨f'', hf'', hscopes'.trans hscopes, fun t ht =>
      (htake' t (hscopes ▸ ht)).trans (htake t ht)⟩

end Arguments

end Memory

/-- What the claim about an address says of one node in the context `c`: a reference reads, and
an assignment that compiles writes, the variable that the name stands for there. -/
def Addressed {V : Type} (isClass : String → Bool) (s : Memory V) (c : ℕ) (f : Context V) :
    AST → Prop
  | .declRef x => lookupUnscopedSymbol isClass x = .invalid → f.scopes.ReachesVariable x →
      ∀ l, f.location x = some l →
        ∃ a, compileDeclRef isClass f.scopes.symbols x = some a ∧ s.touches c f a = some l
  | .assignExpr x _ => lookupUnscopedSymbol isClass x = .invalid → f.scopes.ReachesVariable x →
      ∀ l, f.location x = some l →
        (∀ a, compileAssign isClass f.scopes.symbols x = some a → s.touches c f a = some l)
          ∧ ∀ k t, f.scopes.innermost x = some (k, t) →
            ((compileAssign isClass f.scopes.symbols x).isSome = true ↔ x ∈ t.localVariables)
  | _ => True

theorem bindingSlot_of_location {V : Type} {f : Context V} {x : String} {l : Location}
    (h : f.location x = some l) : ∃ slot, f.scopes.bindingSlot x = some slot := by
  unfold Context.location at h
  unfold Scopes.bindingSlot
  cases hin : f.scopes.innermost x with
  | some kt => exact ⟨_, rfl⟩
  | none =>
    simp only [hin] at h
    obtain ⟨t, ht, -⟩ := map_eq_some_iff.mp h
    exact ⟨t.slotOf x, by simp only [ht, map_some]⟩

/-- In every run, the generated code addresses the variable that a name stands for. -/
theorem lexical_addressing {V : Type} {isClass : String → Bool} {nil : V} {prog : Set MethodDef}
    {s : Memory V} (hs : Memory.Reachable isClass nil prog s) {c : ℕ} {f : Context V}
    (hf : s.contexts[c]? = some f) :
    (∀ node, Occurs f.code f.blocks node → Addressed isClass s c f node)
      ∧ (∀ x k t, f.scopes.innermost x = some (k, t) →
          ∃ c' g, f.location x = some (.field c' (t.fieldOf (t.variableOf x)))
            ∧ s.contexts[c']? = some g ∧ g.fields.length = t.layout.length)
      ∧ (∀ (t : ScopeTable) v v', v ∈ t.layout → t.fieldOf v = t.fieldOf v' → v = v')
      ∧ ∀ (t : ObjectTable) x y, t.slotOf x = t.slotOf y → x = y := by
  have hwell := hs.wellLinked
  refine ⟨fun node _ => ?_, fun x k t hin => ?_, fun t v v' => ScopeTable.fieldOf_inj,
    fun t x y => ObjectTable.slotOf_inj⟩
  · unfold Addressed
    split
    · intro hx hreach l hl
      obtain ⟨slot, hslot⟩ := bindingSlot_of_location hl
      obtain ⟨a, ha, haslot⟩ := (compile_slot hx hslot hreach).1
      refine ⟨a, ha, ?_⟩
      unfold Memory.touches
      rw [haslot, bind_some, (hwell.resolve hf hslot).1, hl]
    · intro hx hreach l hl
      obtain ⟨slot, hslot⟩ := bindingSlot_of_location hl
      refine ⟨fun a ha => ?_, fun k t hin => compileAssign_isSome hx hin⟩
      unfold Memory.touches
      rw [(compile_slot hx hslot hreach).2 _ ha, bind_some, (hwell.resolve hf hslot).1, hl]
    · trivial
  · have hslot : f.scopes.bindingSlot x = some (.field k (t.fieldOf (t.variableOf x))) := by
      unfold Scopes.bindingSlot
      rw [hin]
    obtain ⟨c', g, hact, hg, -, hlen⟩ := (hwell.resolve hf hslot).2 k t hin
    refine ⟨c', g, ?_, hg, hlen⟩
    unfold Context.location
    rw [hin]
    simp only [hact, map_some]

/-- `keep: a [ | x | [ :y | x := y ] ]`. -/
def keepMethod : MethodDef where
  method := ⟨"keep:", ["a"], ["x"], [.blockExpr ["y"] [] [.assignExpr "x" (.declRef "y")]]⟩
  classes := [⟨"Keeper", [("kept", 8)], ["Count"], []⟩]

/-- The memory while the block of `keepMethod` runs. -/
def keepMemory : Memory ℕ where
  contexts := [
    ⟨keepMethod, [], none, [1, 2, 0], [0]⟩,
    ⟨keepMethod, [⟨[], ["y"]⟩], some 0, [3, 4], [1, 0]⟩]
  closures := [⟨keepMethod, [⟨[], ["y"]⟩], 0, [0]⟩]

theorem lexical_addressing_keep :
    Addressed (fun _ => false) keepMemory 1 ⟨keepMethod, [⟨[], ["y"]⟩], some 0, [3, 4], [1, 0]⟩
      (.assignExpr "x" (.declRef "y")) := by
  have hocc : Occurs keepMethod [] (.blockExpr ["y"] [] [.assignExpr "x" (.declRef "y")]) :=
    .statement (by simp [keepMethod])
  have henter : Memory.Reachable (fun _ => false) 0 {keepMethod}
      ⟨[⟨keepMethod, [], none, [1, 2, 0], [0]⟩], []⟩ :=
    .step .start (@Memory.Step.enter _ _ _ _ _ keepMethod 1 [2] rfl rfl)
  have hliteral : Memory.Reachable (fun _ => false) 0 {keepMethod}
      ⟨[⟨keepMethod, [], none, [1, 2, 0], [0]⟩], [⟨keepMethod, [⟨[], ["y"]⟩], 0, [0]⟩]⟩ :=
    henter.step (.literal (c := 0) (f := ⟨keepMethod, [], none, [1, 2, 0], [0]⟩) rfl hocc)
  have hcall : Memory.Reachable (fun _ => false) 0 {keepMethod} keepMemory :=
    hliteral.step (@Memory.Step.call ℕ _ 0 _ _ 0 ⟨keepMethod, [⟨[], ["y"]⟩], 0, [0]⟩ ⟨[], ["y"]⟩
      3 [4] rfl rfl rfl)
  exact (lexical_addressing hcall (c := 1) rfl).1 _ (.body hocc (by simp))

/-- No code is generated for an assignment to an argument, although its slot is known. -/
theorem argument_not_assigned :
    (keepMethod.scopes []).bindingSlot "a" = some (.field 0 5)
      ∧ compileAssign (fun _ => false) (keepMethod.scopes []).symbols "a" = none := by
  decide

/-- `set: a [ | x | x := a ]`. -/
def setMethod : MethodDef := ⟨⟨"set:", ["a"], ["x"], [.assignExpr "x" (.declRef "a")]⟩, []⟩

theorem arguments_kept_set : Memory.KeepsArguments
    ⟨[⟨setMethod, [], none, [1, 2, 0], [0]⟩], []⟩
    ⟨[⟨setMethod, [], none, [1, 2, 2], [0]⟩], []⟩ := by
  have hs : Memory.Reachable (fun _ => false) 0 {setMethod}
      ⟨[⟨setMethod, [], none, [1, 2, 0], [0]⟩], []⟩ :=
    .step .start (@Memory.Step.enter _ _ _ _ _ setMethod 1 [2] rfl rfl)
  exact Memory.arguments_kept hs (.single (@Memory.Step.assign _ _ _ _ _ 0 _ "x" _ _ 0 6 2 rfl
    (.statement (List.mem_singleton_self _)) rfl rfl))

end Etoile.LanguageKit
