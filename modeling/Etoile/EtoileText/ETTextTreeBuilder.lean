import Mathlib.Algebra.GroupWithZero.Nat
import Mathlib.Data.List.Basic

/-!
# Building text trees

A builder changes the insertion point and the trees that contain it, each of which is the last
child of the next: a tree is held with the children before that one.
-/

namespace Etoile.EtoileText.ETTextTreeBuilder

open List

variable {σ : Type}

inductive Text (σ : Type)
  | fragment (textType : Option σ) (text : List UInt16)
  | tree (textType : Option σ) (length : ℕ) (children : List (Text σ))

def Text.textType : Text σ → Option σ
  | fragment textType _ => textType
  | tree textType _ _ => textType

def Text.length : Text σ → ℕ
  | fragment _ text => text.length
  | tree _ length _ => length

/-- A tree without its last child. -/
structure Parent (σ : Type) where
  textType : Option σ
  length : ℕ
  before : List (Text σ)

structure Builder (σ : Type) where
  textTypeStack : List σ
  insertNode : Text σ
  parents : List (Parent σ)

/-- `-childDidChange:` of the parents of a node, as long as their lengths change. -/
def childDidChange : ℕ → List (Parent σ) → List (Parent σ)
  | _, [] => []
  | childLength, p :: parents =>
    let newLength := (p.before.map Text.length).sum + childLength
    if newLength ≠ p.length then
      { p with length := newLength } :: childDidChange newLength parents
    else p :: parents

namespace Builder

def init : Builder σ := ⟨[], .tree none 0 [], []⟩

def startNodeWithStyle (aStyle : σ) (b : Builder σ) : Builder σ :=
  { textTypeStack := aStyle :: b.textTypeStack
    insertNode := .fragment (some aStyle) []
    parents :=
      match b.insertNode with
      | .tree textType length children =>
        ⟨textType, length + 0, children⟩ :: childDidChange (length + 0) b.parents
      | .fragment textType text =>
        ⟨textType, text.length + 0, [.fragment none text]⟩
          :: childDidChange (text.length + 0) b.parents }

variable [DecidableEq σ]

/-- The loop of `-endNode`; where there is no parent of the type, it does not end. -/
def endNodeOf (textType : Option σ) : Text σ → List (Parent σ) → Option (Text σ × List (Parent σ))
  | _, [] => none
  | node, p :: parents =>
    let node := .tree p.textType p.length (p.before ++ [node])
    if textType = node.textType then some (node, parents) else endNodeOf textType node parents

def endNode (b : Builder σ) : Option (Builder σ) :=
  match b.textTypeStack with
  | [] => some b
  | _ :: stack => (endNodeOf stack.head? b.insertNode b.parents).map fun (node, parents) =>
      ⟨stack, node, parents⟩

def appendString (aString : List UInt16) (b : Builder σ) : Builder σ :=
  match b.insertNode with
  | .tree textType length children =>
    { b with
      insertNode := .tree textType (length + aString.length)
        (children ++ [.fragment none aString])
      parents := childDidChange (length + aString.length) b.parents }
  | .fragment textType text =>
    { b with
      insertNode := .fragment textType (text ++ aString)
      parents := childDidChange (text ++ aString).length b.parents }

end Builder

inductive Call (σ : Type)
  | startNode (aStyle : σ)
  | appendString (aString : List UInt16)
  | endNode

def Builder.call [DecidableEq σ] (b : Builder σ) : Call σ → Option (Builder σ)
  | .startNode aStyle => some (b.startNodeWithStyle aStyle)
  | .appendString aString => some (b.appendString aString)
  | .endNode => b.endNode

/-- `textTree`: the insertion point within its parents. -/
def within : Text σ → List (Parent σ) → Text σ
  | node, [] => node
  | node, p :: parents => within (.tree p.textType p.length (p.before ++ [node])) parents

/-- The text of a tree, with the types of the nodes around their texts. -/
inductive Mark (σ : Type)
  | opening (textType : σ)
  | character (ch : UInt16)
  | closing

def openings (textType : Option σ) : List (Mark σ) := (textType.map Mark.opening).toList

def closings (textType : Option σ) : List (Mark σ) := (textType.map fun _ => Mark.closing).toList

mutual

def Text.marks : Text σ → List (Mark σ)
  | .fragment textType text =>
    openings textType ++ text.map .character ++ closings textType
  | .tree textType _ children => openings textType ++ marksOf children ++ closings textType

def marksOf : List (Text σ) → List (Mark σ)
  | [] => []
  | child :: children => child.marks ++ marksOf children

end

def Call.marks : Call σ → List (Mark σ)
  | startNode aStyle => [.opening aStyle]
  | appendString aString => aString.map .character
  | endNode => [.closing]

def characters (marks : List (Mark σ)) : ℕ :=
  marks.countP fun | .character _ => true | _ => false

/-- Every tree has the length of the text below it. -/
inductive Measured : Text σ → Prop
  | fragment {textType : Option σ} {text : List UInt16} : Measured (.fragment textType text)
  | tree {textType : Option σ} {length : ℕ} {children : List (Text σ)} :
    (∀ child ∈ children, Measured child) → length = characters (marksOf children) →
      Measured (.tree textType length children)

/-- The types of the nodes that calls leave open, if no other node is ended. -/
def openTypes : List σ → List (Call σ) → Option (List σ)
  | stack, [] => some stack
  | stack, .startNode aStyle :: calls => openTypes (aStyle :: stack) calls
  | stack, .appendString _ :: calls => openTypes stack calls
  | [], .endNode :: _ => none
  | _ :: stack, .endNode :: calls => openTypes stack calls

@[simp] theorem marksOf_append (l l' : List (Text σ)) :
    marksOf (l ++ l') = marksOf l ++ marksOf l' := by
  induction l <;> simp_all [marksOf]

@[simp] theorem characters_append (l l' : List (Mark σ)) :
    characters (l ++ l') = characters l + characters l' := countP_append

@[simp] theorem characters_openings (textType : Option σ) : characters (openings textType) = 0 := by
  cases textType <;> rfl

@[simp] theorem characters_closings (textType : Option σ) : characters (closings textType) = 0 := by
  cases textType <;> rfl

@[simp] theorem characters_map (text : List UInt16) :
    characters (text.map (Mark.character (σ := σ))) = text.length := by
  simp [characters, countP_map, Function.comp_def]

theorem Measured.length_eq {t : Text σ} (h : Measured t) : t.length = characters t.marks := by
  rcases h with _ | ⟨-, rfl⟩ <;> simp [Text.length, Text.marks]

theorem sum_length {l : List (Text σ)} (h : ∀ t ∈ l, Measured t) :
    (l.map Text.length).sum = characters (marksOf l) := by
  induction l with
  | nil => rfl
  | cons t l ih =>
    rw [forall_mem_cons] at h
    simp [marksOf, ih h.2, h.1.length_eq]

def opened : List (Parent σ) → List (Mark σ)
  | [] => []
  | p :: parents => opened parents ++ openings p.textType ++ marksOf p.before

/-- The parents are measured, where their last child has a length. -/
def MeasuredOver : ℕ → List (Parent σ) → Prop
  | _, [] => True
  | childLength, p :: parents => (∀ t ∈ p.before, Measured t)
    ∧ p.length = characters (marksOf p.before) + childLength ∧ MeasuredOver p.length parents

theorem childDidChange_types (n : ℕ) (parents : List (Parent σ)) :
    (childDidChange n parents).map (·.textType) = parents.map (·.textType)
      ∧ opened (childDidChange n parents) = opened parents := by
  induction parents generalizing n with
  | nil => exact ⟨rfl, rfl⟩
  | cons p parents ih =>
    simp only [childDidChange]
    split_ifs <;> simp [opened, ih]

theorem MeasuredOver.childDidChange {parents : List (Parent σ)} {m : ℕ}
    (h : MeasuredOver m parents) (n : ℕ) : MeasuredOver n (childDidChange n parents) := by
  induction parents generalizing m n with
  | nil => trivial
  | cons p parents ih =>
    obtain ⟨hbefore, -, hparents⟩ := h
    simp only [ETTextTreeBuilder.childDidChange, sum_length hbefore]
    split_ifs with hne
    · exact ⟨hbefore, rfl, ih hparents _⟩
    · exact ⟨hbefore, (not_not.1 hne).symm, hparents⟩

theorem within_marks : ∀ {parents : List (Parent σ)} {node : Text σ}, Measured node →
    MeasuredOver node.length parents →
      Measured (within node parents) ∧ (within node parents).marks
        = opened parents ++ node.marks ++ (parents.map (·.textType)).flatMap closings
  | [], node, hnode, _ => ⟨hnode, by simp [within, opened]⟩
  | p :: parents, node, hnode, ⟨hbefore, hlength, hparents⟩ => by
    have hp : Measured (.tree p.textType p.length (p.before ++ [node])) :=
      .tree (forall_mem_append.2 ⟨hbefore, forall_mem_singleton.2 hnode⟩)
        (by simp [marksOf, hlength, hnode.length_eq])
    obtain ⟨hmeasured, hmarks⟩ := within_marks hp hparents
    refine ⟨hmeasured, hmarks.trans ?_⟩
    simp [opened, Text.marks, marksOf]

/-- What a builder holds after calls. -/
structure Builds (b : Builder σ) (calls : List (Call σ)) : Prop where
  types : b.insertNode.textType :: b.parents.map (·.textType)
    = b.textTypeStack.map some ++ [none]
  node : Measured b.insertNode
  parents : MeasuredOver b.insertNode.length b.parents
  marks : opened b.parents ++ b.insertNode.marks
    = calls.flatMap Call.marks ++ closings b.insertNode.textType

variable {b : Builder σ} {calls : List (Call σ)}

theorem Builds.startNode (h : Builds b calls) (aStyle : σ) :
    Builds (b.startNodeWithStyle aStyle) (calls ++ [.startNode aStyle]) := by
  obtain ⟨htypes, hnode, hparents, hmarks⟩ := h
  have hsame := fun n => childDidChange_types n b.parents
  unfold Builder.startNodeWithStyle
  rcases hi : b.insertNode with ⟨textType, text⟩ | ⟨textType, length, children⟩ <;>
    rw [hi] at htypes hnode hparents hmarks <;>
    simp only [Text.textType, Text.length, Text.marks, ← append_assoc,
      append_cancel_right_eq] at htypes hparents hmarks
  · refine ⟨?_, .fragment, ⟨?_, ?_, hparents.childDidChange _⟩, ?_⟩
    · simp [hsame, Text.textType, htypes]
    · simp [Measured.fragment]
    · simp [marksOf, Text.marks, openings, closings, Text.length]
    · simp [opened, hsame, Text.marks, marksOf, openings, closings, Text.textType, Call.marks,
        ← hmarks]
  · rcases hnode with _ | ⟨hchildren, hlength⟩
    refine ⟨?_, .fragment, ⟨hchildren, ?_, hparents.childDidChange _⟩, ?_⟩
    · simp [hsame, Text.textType, htypes]
    · simp [hlength, Text.length]
    · simp [opened, hsame, Text.marks, openings, closings, Text.textType, Call.marks, ← hmarks]

theorem Builds.appendString (h : Builds b calls) (aString : List UInt16) :
    Builds (b.appendString aString) (calls ++ [.appendString aString]) := by
  obtain ⟨htypes, hnode, hparents, hmarks⟩ := h
  have hsame := fun n => childDidChange_types n b.parents
  unfold Builder.appendString
  rcases hi : b.insertNode with ⟨textType, text⟩ | ⟨textType, length, children⟩ <;>
    rw [hi] at htypes hnode hparents hmarks <;>
    simp only [Text.textType, Text.length, Text.marks, ← append_assoc,
      append_cancel_right_eq] at htypes hparents hmarks
  · refine ⟨?_, .fragment, hparents.childDidChange _, ?_⟩
    · simp [hsame, Text.textType, htypes]
    · simp [hsame, Text.marks, Text.textType, Call.marks, ← hmarks]
  · rcases hnode with _ | ⟨hchildren, hlength⟩
    refine ⟨?_, .tree ?_ ?_, hparents.childDidChange _, ?_⟩
    · simp [hsame, Text.textType, htypes]
    · exact forall_mem_append.2 ⟨hchildren, forall_mem_singleton.2 .fragment⟩
    · simp [hlength, marksOf, Text.marks, openings, closings]
    · simp [hsame, Text.marks, marksOf, openings, closings, Text.textType, Call.marks, ← hmarks]

variable [DecidableEq σ]

/-- The first parent has the type that is looked for. -/
theorem Builds.endNode (h : Builds b calls) {aStyle : σ} {stack : List σ}
    (hstack : b.textTypeStack = aStyle :: stack) :
    ∃ b', b.endNode = some b' ∧ Builds b' (calls ++ [.endNode]) ∧ b'.textTypeStack = stack := by
  obtain ⟨htypes, hnode, hparents, hmarks⟩ := h
  rcases hp : b.parents with _ | ⟨p, parents⟩ <;> rw [hp] at htypes hparents hmarks
  · simp [hstack] at htypes
  simp only [hstack, map_cons, cons_append, cons.injEq] at htypes
  obtain ⟨htype, hptypes⟩ := htypes
  obtain ⟨hbefore, hlength, hparents⟩ := hparents
  have hhead : stack.head? = p.textType := by
    rcases stack with _ | ⟨s, stack⟩ <;> simp_all
  refine ⟨⟨stack, .tree p.textType p.length (p.before ++ [b.insertNode]), parents⟩, ?_,
    ⟨hptypes, .tree ?_ ?_, hparents, ?_⟩, rfl⟩
  · simp [Builder.endNode, hstack, hp, Builder.endNodeOf, Text.textType, hhead]
  · exact forall_mem_append.2 ⟨hbefore, forall_mem_singleton.2 hnode⟩
  · simp [marksOf, hlength, hnode.length_eq]
  · simp only [opened] at hmarks
    rw [htype] at hmarks
    simp [Text.marks, marksOf, Text.textType, Call.marks, ← append_assoc, hmarks, closings]

theorem Builds.run : ∀ (rest : List (Call σ)) {b : Builder σ} {calls : List (Call σ)}
    {stack : List σ}, Builds b calls → openTypes b.textTypeStack rest = some stack →
      ∃ b', rest.foldlM Builder.call b = some b' ∧ Builds b' (calls ++ rest)
        ∧ b'.textTypeStack = stack
  | [], b, calls, stack, h, hopen => ⟨b, rfl, by simpa using h, by simpa [openTypes] using hopen⟩
  | .startNode aStyle :: rest, b, calls, stack, h, hopen => by
    have hrun := (h.startNode aStyle).run rest hopen
    simpa [Builder.call] using hrun
  | .appendString aString :: rest, b, calls, stack, h, hopen => by
    have hsame : (b.appendString aString).textTypeStack = b.textTypeStack := by
      unfold Builder.appendString
      split <;> rfl
    have hrun := (h.appendString aString).run rest (hsame ▸ hopen)
    simpa [Builder.call] using hrun
  | .endNode :: rest, b, calls, stack, h, hopen => by
    rcases hstack : b.textTypeStack with _ | ⟨aStyle, types⟩ <;> rw [hstack] at hopen
    · cases hopen
    · obtain ⟨b', hend, hb', htypes⟩ := h.endNode hstack
      have hrun := hb'.run rest (htypes ▸ hopen)
      simpa [Builder.call, hend] using hrun

/-- At every moment the tree has the nodes and the texts of the calls, and the right lengths; and
the insertion point is the root again where all nodes are ended. -/
theorem textTree_builds {calls : List (Call σ)} {stack : List σ}
    (h : openTypes [] calls = some stack) :
    ∃ b, calls.foldlM Builder.call Builder.init = some b
      ∧ Measured (within b.insertNode b.parents)
      ∧ (within b.insertNode b.parents).marks
        = calls.flatMap Call.marks ++ replicate stack.length .closing
      ∧ (b.parents = [] ↔ stack = []) := by
  have hinit : Builds (Builder.init : Builder σ) [] :=
    ⟨rfl, .tree nofun rfl, trivial, by simp [Builder.init, opened, Text.marks, marksOf, openings,
      Text.textType]⟩
  obtain ⟨b, hrun, ⟨htypes, hnode, hparents, hmarks⟩, rfl⟩ := hinit.run calls h
  obtain ⟨hmeasured, hwithin⟩ := within_marks hnode hparents
  refine ⟨b, hrun, hmeasured, ?_, ?_⟩
  · have hclosings : ∀ l : List σ, (l.map some ++ [none]).flatMap closings
        = replicate l.length .closing := fun l => by
      induction l <;> simp_all [closings, replicate_succ]
    rw [hwithin, hmarks, ← hclosings, ← htypes]
    simp
  · have hlength := congrArg length htypes
    simp only [length_cons, length_map, length_append] at hlength
    rw [← length_eq_zero_iff, ← length_eq_zero_iff]
    simp only [length_nil] at hlength
    omega

/-- Two nodes of one type, within each other. -/
theorem textTree_builds_nested : ∃ b : Builder ℕ,
    [.startNode 1, .startNode 1, .appendString [97], .endNode, .endNode].foldlM Builder.call .init
      = some b
    ∧ Measured (within b.insertNode b.parents)
    ∧ (within b.insertNode b.parents).marks
      = [.opening 1, .opening 1, .character 97, .closing, .closing]
    ∧ b.parents = [] := by
  have h := @textTree_builds ℕ _
    [.startNode 1, .startNode 1, .appendString [97], .endNode, .endNode] [] rfl
  simpa [Call.marks] using h

end Etoile.EtoileText.ETTextTreeBuilder
