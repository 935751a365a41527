import Mathlib.Data.List.Basic

/-!
# Infix expressions

The parser that the grammar is made into keeps the operators whose right operand is not complete.
Where one of them and the next token both could go on, the precedences say which one does.
-/

namespace Etoile.EScript

open List Option

inductive Operator
  | PLUS | MINUS | MUL | DIV | MOD | LT | GT | EQEQ | EQEQEQ
deriving DecidableEq

inductive Associativity
  | left | right | nonassoc

/-- The declarations, the first of which has the lowest level. -/
def Operator.precedence : Operator → ℕ × Associativity
  | EQEQ => (3, .nonassoc)
  | EQEQEQ => (4, .left)
  | LT | GT => (5, .nonassoc)
  | PLUS | MINUS => (8, .left)
  | MUL | DIV | MOD => (9, .left)

def precedenceOfDOT : ℕ × Associativity := (10, .left)

inductive Action
  | shift | reduce | error
deriving DecidableEq

/-- A rule against the token after it. -/
def resolve (rule : ℕ) (token : ℕ × Associativity) : Action :=
  if rule < token.1 then .shift
  else if token.1 < rule then .reduce
  else match token.2 with
    | .left => .reduce
    | .right => .shift
    | .nonassoc => .error

/-- The level of the rule with an operator: `binary_selector` has none, and the rule that of
`PLUS`. -/
def Operator.rule : Operator → ℕ
  | EQEQEQ => EQEQEQ.precedence.1
  | _ => PLUS.precedence.1

inductive Expression
  | ident (name : String)
  | slot (target : Expression) (key : String)
  | binary (left : Expression) (operator : Operator) (right : Expression)
  | bracketed (expression : Expression)

inductive Token
  | ident (name : String)
  | operator (operator : Operator)
  | DOT (key : String)
  | LPAREN
  | RPAREN

/-- What is on the stack below an expression. -/
inductive Frame
  | binary (left : Expression) (operator : Operator)
  | LPAREN

section Parser

variable (rule : Operator → ℕ)

def reduceBefore (token : ℕ × Associativity) :
    List Frame → Expression → Option (List Frame × Expression)
  | .binary left operator :: stack, e =>
    match resolve (rule operator) token with
    | .shift => some (.binary left operator :: stack, e)
    | .reduce => reduceBefore token stack (.binary left operator e)
    | .error => none
  | stack, e => some (stack, e)

/-- Before the end of an expression there is nothing to shift. -/
def reduceAll : List Frame → Expression → List Frame × Expression
  | .binary left operator :: stack, e => reduceAll stack (.binary left operator e)
  | stack, e => (stack, e)

def parse : List Frame → Option Expression → List Token → Option Expression
  | stack, none, .ident name :: tokens => parse stack (some (.ident name)) tokens
  | stack, none, .LPAREN :: tokens => parse (.LPAREN :: stack) none tokens
  | stack, some e, .operator operator :: tokens =>
    (reduceBefore rule operator.precedence stack e).bind fun (stack, e) =>
      parse (.binary e operator :: stack) none tokens
  | stack, some e, .DOT key :: tokens =>
    (reduceBefore rule precedenceOfDOT stack e).bind fun (stack, e) =>
      parse stack (some (.slot e key)) tokens
  | stack, some e, .RPAREN :: tokens =>
    match reduceAll stack e with
    | (.LPAREN :: stack, e) => parse stack (some (.bracketed e)) tokens
    | _ => none
  | stack, some e, [] =>
    match reduceAll stack e with
    | ([], e) => some e
    | _ => none
  | _, _, _ => none

end Parser

namespace Expression

def tokens : Expression → List Token
  | ident name => [.ident name]
  | slot target key => target.tokens ++ [.DOT key]
  | binary left operator right => left.tokens ++ .operator operator :: right.tokens
  | bracketed e => .LPAREN :: (e.tokens ++ [.RPAREN])

/-- The operators that the first operand is in the left one of, and those that the last one is in
the right one of. -/
def leftSpine : Expression → List Operator
  | binary left operator _ => operator :: left.leftSpine
  | _ => []

def rightSpine : Expression → List Operator
  | binary _ operator right => operator :: right.rightSpine
  | _ => []

/-- The tree has the operands that the levels of the rules decide for. -/
def Respects (rule : Operator → ℕ) : Expression → Prop
  | ident _ => True
  | slot target _ => target.Respects rule ∧ target.rightSpine = []
  | binary left operator right => left.Respects rule ∧ right.Respects rule
    ∧ (∀ c ∈ left.rightSpine, resolve (rule c) operator.precedence = .reduce)
    ∧ ∀ b ∈ right.leftSpine, resolve (rule operator) b.precedence = .shift
  | bracketed e => e.Respects rule

/-- The stack after the tokens of a tree: the operators on its right. -/
def load : Expression → List Frame → List Frame × Expression
  | binary left operator right, stack => right.load (.binary left operator :: stack)
  | e, stack => (stack, e)

end Expression

section Parses

variable {rule : Operator → ℕ} {stack : List Frame} {e T : Expression}

/-- A token is not taken from the operators on the stack. -/
def Over (rule : Operator → ℕ) (token : ℕ × Associativity) : List Frame → Prop
  | .binary _ operator :: _ => resolve (rule operator) token = .shift
  | _ => True

theorem reduceBefore_over {token : ℕ × Associativity} (h : Over rule token stack) :
    reduceBefore rule token stack e = some (stack, e) := by
  rcases stack with _ | ⟨_ | _, stack⟩
  · rfl
  · simp only [reduceBefore, show resolve _ token = _ from h]
  · rfl

theorem reduceBefore_load {token : ℕ × Associativity} : ∀ (T : Expression) (stack : List Frame),
    (∀ c ∈ T.rightSpine, resolve (rule c) token = .reduce) →
      reduceBefore rule token (T.load stack).1 (T.load stack).2 = reduceBefore rule token stack T
  | .binary left operator right, stack, h => by
    simp only [Expression.rightSpine, forall_mem_cons] at h
    rw [Expression.load, reduceBefore_load right _ h.2, reduceBefore, h.1]
  | .ident _, _, _ | .slot _ _, _, _ | .bracketed _, _, _ => rfl

theorem reduceAll_load : ∀ (T : Expression) (stack : List Frame),
    reduceAll (T.load stack).1 (T.load stack).2 = reduceAll stack T
  | .binary left operator right, stack => by
    rw [Expression.load, reduceAll_load right, reduceAll]
  | .ident _, _ | .slot _ _, _ | .bracketed _, _ => rfl

theorem load_eq (h : T.rightSpine = []) (stack : List Frame) : T.load stack = (stack, T) := by
  cases T <;> simp_all [Expression.rightSpine, Expression.load]

theorem parse_tokens (hDOT : ∀ a, rule a < precedenceOfDOT.1) : ∀ (T : Expression)
    (stack : List Frame) (rest : List Token), T.Respects rule →
      (∀ b ∈ T.leftSpine, Over rule b.precedence stack) →
        parse rule stack none (T.tokens ++ rest)
          = parse rule (T.load stack).1 (some (T.load stack).2) rest
  | .ident name, stack, rest, _, _ => rfl
  | .slot target key, stack, rest, ⟨ht, hspine⟩, _ => by
    have hover : Over rule precedenceOfDOT stack := by
      rcases stack with _ | ⟨_ | _, stack⟩ <;> simp [Over, resolve, hDOT]
    have hleft : target.leftSpine = [] := by
      cases target <;> simp_all [Expression.rightSpine, Expression.leftSpine]
    rw [Expression.tokens, append_assoc, parse_tokens hDOT target stack _ ht (by simp [hleft]),
      load_eq hspine]
    simp [parse, reduceBefore_over hover, Expression.load]
  | .binary left operator right, stack, rest, ⟨hleft, hright, hreduce, hshift⟩, hover => by
    simp only [Expression.leftSpine, forall_mem_cons] at hover
    rw [Expression.tokens, append_assoc, parse_tokens hDOT left stack _ hleft hover.2]
    simp only [cons_append, parse, reduceBefore_load left stack hreduce,
      reduceBefore_over hover.1, bind_some]
    exact parse_tokens hDOT right _ rest hright hshift
  | .bracketed e, stack, rest, he, _ => by
    rw [Expression.tokens, cons_append, append_assoc, parse,
      parse_tokens hDOT e (.LPAREN :: stack) _ he fun _ _ => trivial]
    simp [parse, reduceAll_load, reduceAll, Expression.load]

/-- What is on the stack has the operands that the levels decide for. -/
def StackRespects (rule : Operator → ℕ) : List Frame → Prop
  | [] => True
  | .LPAREN :: stack => StackRespects rule stack
  | .binary left operator :: stack => left.Respects rule
    ∧ (∀ c ∈ left.rightSpine, resolve (rule c) operator.precedence = .reduce)
    ∧ (∀ b ∈ operator :: left.leftSpine, Over rule b.precedence stack)
    ∧ StackRespects rule stack

/-- An expression that is above a stack. -/
structure Above (rule : Operator → ℕ) (stack : List Frame) (e : Expression) : Prop where
  below : StackRespects rule stack
  expression : e.Respects rule
  spine : ∀ b ∈ e.leftSpine, Over rule b.precedence stack

theorem Above.reduce {left : Expression} {operator : Operator}
    (h : Above rule (.binary left operator :: stack) e) :
    Above rule stack (.binary left operator e) := by
  obtain ⟨⟨hleft, hreduce, hover, hstack⟩, he, hshift⟩ := h
  exact ⟨hstack, ⟨hleft, he, hreduce, hshift⟩, hover⟩

theorem Above.reduceBefore {token : ℕ × Associativity} : ∀ {stack : List Frame} {e : Expression},
    Above rule stack e → (∀ c ∈ e.rightSpine, resolve (rule c) token = .reduce) →
      ∀ {r : List Frame × Expression}, EScript.reduceBefore rule token stack e = some r →
        Above rule r.1 r.2 ∧ Over rule token r.1
          ∧ ∀ c ∈ r.2.rightSpine, resolve (rule c) token = .reduce
  | .binary left operator :: stack, e, h, hreduce, r, hr => by
    rw [EScript.reduceBefore] at hr
    split at hr
    · rename_i hshift
      obtain rfl := some.inj hr
      exact ⟨h, hshift, hreduce⟩
    · rename_i hred
      exact h.reduce.reduceBefore (forall_mem_cons.2 ⟨hred, hreduce⟩) hr
    · cases hr
  | [], e, h, hreduce, r, hr => by
    obtain rfl := some.inj hr
    exact ⟨h, trivial, hreduce⟩
  | .LPAREN :: stack, e, h, hreduce, r, hr => by
    obtain rfl := some.inj hr
    exact ⟨h, trivial, hreduce⟩

theorem Above.reduceAll : ∀ {stack : List Frame} {e : Expression}, Above rule stack e →
    Above rule (EScript.reduceAll stack e).1 (EScript.reduceAll stack e).2
  | .binary _ _ :: _, _, h => h.reduce.reduceAll
  | [], _, h | .LPAREN :: _, _, h => h

/-- An expression that is complete is no operator's result yet. -/
def Complete (rule : Operator → ℕ) (stack : List Frame) : Option Expression → Prop
  | none => StackRespects rule stack
  | some e => Above rule stack e ∧ e.rightSpine = []

theorem respects_of_parse (hDOT : ∀ a, rule a < precedenceOfDOT.1) : ∀ (tokens : List Token)
    {stack : List Frame} {o : Option Expression}, Complete rule stack o →
      parse rule stack o tokens = some T → T.Respects rule := by
  intro tokens
  induction tokens with
  | nil =>
    intro stack o ho h
    rcases o with _ | e
    · simp [parse] at h
    · have hall := ho.1.reduceAll
      simp only [parse] at h
      split at h
      · rename_i heq
        rw [heq] at hall
        exact some.inj h ▸ hall.expression
      · cases h
  | cons token tokens ih =>
    intro stack o ho h
    rcases o with _ | e <;> rcases token with name | operator | key | _ | _ <;>
      simp only [parse, reduceCtorEq] at h
    · refine ih ?_ h
      exact ⟨⟨ho, trivial, by simp [Expression.leftSpine]⟩, rfl⟩
    · refine ih ?_ h
      exact ho
    · obtain ⟨r, hr, h⟩ := bind_eq_some_iff.1 h
      obtain ⟨hr, hover, hreduce⟩ := ho.1.reduceBefore (by simp [ho.2]) hr
      refine ih ?_ h
      exact ⟨hr.expression, hreduce, forall_mem_cons.2 ⟨hover, hr.spine⟩, hr.below⟩
    · have hover : Over rule precedenceOfDOT stack := by
        rcases stack with _ | ⟨_ | _, stack⟩ <;> simp [Over, resolve, hDOT]
      rw [reduceBefore_over hover, bind_some] at h
      refine ih ?_ h
      exact ⟨⟨ho.1.below, ⟨ho.1.expression, ho.2⟩, by simp [Expression.leftSpine]⟩, rfl⟩
    · have hall := ho.1.reduceAll
      split at h
      · rename_i heq
        rw [heq] at hall
        refine ih ?_ h
        exact ⟨⟨hall.below, hall.expression, by simp [Expression.leftSpine]⟩, rfl⟩
      · cases h

theorem parse_iff (hDOT : ∀ a, rule a < precedenceOfDOT.1) :
    parse rule [] none T.tokens = some T ↔ T.Respects rule := by
  refine ⟨respects_of_parse hDOT _ (show Complete rule [] none from trivial), fun h => ?_⟩
  have hparse := parse_tokens hDOT T [] [] h fun _ _ => trivial
  rw [append_nil] at hparse
  simp [hparse, parse, reduceAll_load, reduceAll]

/-- The tokens below an expression. -/
def shifted : List Frame → List Token
  | [] => []
  | .LPAREN :: stack => shifted stack ++ [.LPAREN]
  | .binary left operator :: stack => shifted stack ++ left.tokens ++ [.operator operator]

theorem shifted_reduceBefore {token : ℕ × Associativity} : ∀ {stack : List Frame}
    {e : Expression} {r : List Frame × Expression}, reduceBefore rule token stack e = some r →
      shifted r.1 ++ r.2.tokens = shifted stack ++ e.tokens
  | .binary _ _ :: _, _, _, h => by
    rw [reduceBefore] at h
    split at h
    · cases h
      rfl
    · rw [shifted_reduceBefore h]
      simp [shifted, Expression.tokens]
    · cases h
  | [], _, _, h | .LPAREN :: _, _, _, h => by
    cases h
    rfl

theorem shifted_reduceAll : ∀ (stack : List Frame) (e : Expression),
    shifted (reduceAll stack e).1 ++ (reduceAll stack e).2.tokens = shifted stack ++ e.tokens
  | .binary _ _ :: stack, _ => by
    rw [reduceAll, shifted_reduceAll stack]
    simp [shifted, Expression.tokens]
  | [], _ | .LPAREN :: _, _ => rfl

theorem tokens_of_parse (tokens : List Token) : ∀ {stack : List Frame} {o : Option Expression},
    parse rule stack o tokens = some T →
      T.tokens = shifted stack ++ o.elim [] Expression.tokens ++ tokens := by
  induction tokens with
  | nil =>
    rintro stack (_ | e) h
    · simp [parse] at h
    · have hall := shifted_reduceAll stack e
      simp only [parse] at h
      split at h
      · rename_i heq
        rw [heq] at hall
        cases h
        simpa [shifted] using hall
      · cases h
  | cons token tokens ih =>
    intro stack o h
    rcases o with _ | e <;> rcases token with name | operator | key | _ | _ <;>
      simp only [parse, reduceCtorEq] at h
    · simp [ih h, Expression.tokens]
    · simp [ih h, shifted]
    · obtain ⟨r, hr, h⟩ := bind_eq_some_iff.1 h
      rw [ih h, elim_some, ← shifted_reduceBefore hr]
      simp [shifted]
    · obtain ⟨r, hr, h⟩ := bind_eq_some_iff.1 h
      rw [ih h, elim_some, elim_some, ← shifted_reduceBefore hr]
      simp [Expression.tokens]
    · have hall := shifted_reduceAll stack e
      split at h
      · rename_i heq
        rw [heq] at hall
        rw [ih h, elim_some, elim_some, ← hall]
        simp [Expression.tokens, shifted]
      · cases h

end Parses

end Etoile.EScript
