import Mathlib.Algebra.GroupWithZero.Nat
import Mathlib.Logic.Function.Basic

/-!
# Text trees

Trees and fragments are objects, which hold each other by their addresses.  An exception, or a
recursion deeper than there are objects, is a failure.  The description, the visitors and the
collection of the children are left out.
-/

namespace Etoile.EtoileText

inductive TextContent
  | fragment (text : List UInt16)
  | tree (length : ℕ) (children : List ℕ)

structure ETText (κ ν : Type) where
  parent : Option ℕ
  textType : Option ℕ
  customAttributes : κ → Option ν
  content : TextContent

structure TextHeap (κ ν : Type) where
  node : ℕ → ETText κ ν
  next : ℕ

/-- Subtraction of `NSUInteger`. -/
def usub (a b : ℕ) : ℕ := if b ≤ a then a - b else a + 2 ^ 64 - b

/-- `NSMutableString`'s; the range must be within the string. -/
def replaceCharacters (location len : ℕ) (s text : List UInt16) : Option (List UInt16) :=
  if location + len ≤ text.length then
    some (text.take location ++ s ++ text.drop (location + len))
  else none

structure ETTextTreeChild where
  index : Option ℕ
  start : ℕ

variable {κ ν : Type}

namespace TextHeap

def content (h : TextHeap κ ν) (x : ℕ) : TextContent := (h.node x).content

def parent (h : TextHeap κ ν) (x : ℕ) : Option ℕ := (h.node x).parent

def length (h : TextHeap κ ν) (x : ℕ) : ℕ :=
  match h.content x with
  | .fragment text => text.length
  | .tree length _ => length

def children (h : TextHeap κ ν) (x : ℕ) : List ℕ :=
  match h.content x with
  | .fragment _ => []
  | .tree _ children => children

def update (x : ℕ) (f : ETText κ ν → ETText κ ν) (h : TextHeap κ ν) : TextHeap κ ν :=
  { h with node := Function.update h.node x (f (h.node x)) }

def setContent (x : ℕ) (content : TextContent) : TextHeap κ ν → TextHeap κ ν :=
  update x fun t => { t with content := content }

def setParent (x : ℕ) (parent : Option ℕ) : TextHeap κ ν → TextHeap κ ν :=
  update x fun t => { t with parent := parent }

def setAttributes (x : ℕ) (attributes : κ → Option ν) : TextHeap κ ν → TextHeap κ ν :=
  update x fun t => { t with customAttributes := attributes }

def allocate (t : ETText κ ν) (h : TextHeap κ ν) : TextHeap κ ν :=
  { node := Function.update h.node h.next t, next := h.next + 1 }

/-- `-childNodeForIndex:`, from a child on. -/
def childNodeFrom (h : TextHeap κ ν) (anIndex : ℕ) :
    List ℕ → ℕ → ℕ → ETTextTreeChild → ETTextTreeChild
  | [], _, _, childNode => childNode
  | child :: children, start, childIndex, childNode =>
    let end' := start + h.length child
    h.childNodeFrom anIndex children end' (childIndex + 1)
      (if anIndex < end' then ⟨some childIndex, start⟩ else childNode)

def childNodeForIndex (h : TextHeap κ ν) (children : List ℕ) (anIndex : ℕ) : ETTextTreeChild :=
  h.childNodeFrom anIndex children 0 0 ⟨none, 0⟩

/-- `-objectAtIndex:`. -/
def objectAtIndex (children : List ℕ) (index : Option ℕ) : Option ℕ :=
  index.bind fun i => children[i]?

def characterAtIndex : ℕ → TextHeap κ ν → ℕ → ℕ → Option UInt16
  | 0, _, _, _ => none
  | n + 1, h, x, anIndex =>
    match h.content x with
    | .fragment text => text[anIndex]?
    | .tree _ children =>
      let childNode := h.childNodeForIndex children anIndex
      (objectAtIndex children childNode.index).bind fun child =>
        characterAtIndex n h child (usub anIndex childNode.start)

/-- `-childDidChange:` of a parent, if there is one: its length is calculated again. -/
def childDidChange : ℕ → Option ℕ → TextHeap κ ν → Option (TextHeap κ ν)
  | _, none, h => some h
  | 0, some _, _ => none
  | n + 1, some p, h =>
    match h.content p with
    | .fragment _ => none
    | .tree length children =>
      let newLength := (children.map h.length).sum
      if newLength ≠ length then
        (h.setContent p (.tree newLength children)).childDidChange n (h.parent p)
      else some h

/-- `[parent childDidChange: self]`. -/
def tellParent (x : ℕ) (h : TextHeap κ ν) : Option (TextHeap κ ν) :=
  h.childDidChange (h.next + 1) (h.parent x)

/-- `-recalculateLength`. -/
def recalculateLength (x : ℕ) (h : TextHeap κ ν) : Option (TextHeap κ ν) :=
  h.childDidChange (h.next + 1) (some x)

/-- `-appendTextFragment:`. -/
def appendTextFragment (x aFragment : ℕ) (h : TextHeap κ ν) : Option (TextHeap κ ν) :=
  match h.content x with
  | .fragment _ => none
  | .tree length children =>
    tellParent x ((h.setContent x (.tree (length + h.length aFragment)
      (children ++ [aFragment]))).setParent aFragment (some x))

def addFragment (x : ℕ) (length : ℕ) (children : List ℕ) (aString : List UInt16)
    (h : TextHeap κ ν) : TextHeap κ ν :=
  (h.allocate ⟨none, none, fun _ => none, .fragment aString⟩).setContent x
    (.tree length (children ++ [h.next]))

/-- `-replaceCharactersInRange:withString:`. -/
def replaceCharactersInRange : ℕ → ℕ → ℕ → ℕ → List UInt16 → TextHeap κ ν → Option (TextHeap κ ν)
  | 0, _, _, _, _, _ => none
  | n + 1, x, location, len, aString, h =>
    match h.content x with
    | .fragment text =>
      (replaceCharacters location len aString text).bind fun text =>
        tellParent x (h.setContent x (.fragment text))
    | .tree length children =>
      if length = 0 ∧ location = 0 then some (h.addFragment x length children aString)
      else
        let startChild := h.childNodeForIndex children location
        (objectAtIndex children startChild.index).bind fun child =>
          let end' := h.length child
          let replaceLocation := usub location startChild.start
          if end' ≤ len then h.replaceCharactersInRange n child replaceLocation len aString
          else
            let endChild := h.childNodeForIndex children (location + len)
            (h.replaceCharactersInRange n child replaceLocation end' aString).bind fun h =>
              (objectAtIndex (h.children x) endChild.index).bind fun child =>
                (h.replaceCharactersInRange n child replaceLocation end' []).bind fun h =>
                  -- the length of the range to delete is negative
                  if startChild.index.getD 0 + 1 < endChild.index.getD 0 then none else some h

/-- `-appendString:`. -/
def appendString : ℕ → ℕ → List UInt16 → TextHeap κ ν → Option (TextHeap κ ν)
  | 0, _, _, _ => none
  | n + 1, x, aString, h =>
    match h.content x with
    | .fragment text => tellParent x (h.setContent x (.fragment (text ++ aString)))
    | .tree length children =>
      if length = 0 then some (h.addFragment x length children aString)
      else
        match children.getLast? with
        | none => some h
        | some child => h.appendString n child aString

def insertChild (x index child : ℕ) (h : TextHeap κ ν) : TextHeap κ ν :=
  h.setContent x (.tree (h.length x) ((h.children x).insertIdx index child))

/-- `-splitAtIndex:`, with the first part. -/
def splitAtIndex : ℕ → ℕ → ℕ → TextHeap κ ν → Option (ℕ × TextHeap κ ν)
  | 0, _, _, _ => none
  | n + 1, x, anIndex, h =>
    let t := h.node x
    match h.content x with
    | .fragment text =>
      if anIndex ≤ text.length then
        some (h.next, (h.allocate { t with
          parent := none, content := .fragment (text.take anIndex) }).setContent x
            (.fragment (text.drop anIndex)))
      else none
    | .tree _ children =>
      let splitChild := h.childNodeForIndex children anIndex
      let atBoundary :=
        if splitChild.start ≠ anIndex then
          (objectAtIndex children splitChild.index).bind fun child =>
            (h.splitAtIndex n child (usub anIndex splitChild.start)).bind fun (prechild, h) =>
              splitChild.index.map fun index => (index + 1, h.insertChild x index prechild)
        else splitChild.index.map fun index => (index, h)
      atBoundary.map fun (index, h) =>
        (h.next, (h.allocate { t with
          parent := none, content := .tree 0 ((h.children x).take index) }).setContent x
            (.tree (h.length x) ((h.children x).drop index)))

mutual

/-- `-setCustomAttributes:range:`. -/
def setCustomAttributes : ℕ → ℕ → (κ → Option ν) → ℕ → ℕ → TextHeap κ ν → Option (TextHeap κ ν)
  | 0, _, _, _, _, _ => none
  | n + 1, x, attributes, location, len, h =>
    match h.content x with
    | .fragment text =>
      if location ≠ 0 ∨ len ≠ text.length then none else some (h.setAttributes x attributes)
    | .tree length children =>
      if location = 0 ∧ len = length then some (h.setAttributes x attributes)
      else
        let startChild := h.childNodeForIndex children location
        (objectAtIndex children startChild.index).bind fun child =>
          let index := startChild.index.getD 0
          if startChild.start ≠ location then
            (h.splitAtIndex n child (usub location startChild.start)).bind fun (prechild, h) =>
              (h.insertChild x index prechild).setChildAttributes n x (index + 1) attributes len
          else h.setChildAttributes n x index attributes len
termination_by structural n => n

def setChildAttributes : ℕ → ℕ → ℕ → (κ → Option ν) → ℕ → TextHeap κ ν → Option (TextHeap κ ν)
  | 0, _, _, _, _, _ => none
  | n + 1, x, index, attributes, len, h =>
    (objectAtIndex (h.children x) (some index)).bind fun child =>
      if len ≤ h.length child then
        (h.splitAtIndex n child len).bind fun (prechild, h) =>
          (h.insertChild x index prechild).setCustomAttributes n prechild attributes 0 len
      else
        (h.setCustomAttributes n child attributes 0 len).bind
          (setChildAttributes n x (index + 1) attributes len)
termination_by structural n => n

end

def replaceObject (index : ℕ) (children : List ℕ) : Option ℕ → List ℕ
  | none => children.eraseIdx index
  | some aNode => children.set index aNode

/-- `-replaceChild:withNode:`. -/
def replaceChild (x oldChild : ℕ) (aNode : Option ℕ) (h : TextHeap κ ν) :
    Option (TextHeap κ ν) :=
  match h.content x with
  | .fragment _ => none
  | .tree length children =>
    if oldChild ∈ children then
      let children := replaceObject (children.idxOf oldChild) children aNode
      recalculateLength x (h.setContent x (.tree length children))
    else some h

end TextHeap

inductive TextEvent (κ ν : Type)
  | appendTextFragment (x aFragment : ℕ)
  | appendString (x : ℕ) (aString : List UInt16)
  | replaceCharactersInRange (x location len : ℕ) (aString : List UInt16)
  | setCustomAttributes (x : ℕ) (attributes : κ → Option ν) (location len : ℕ)
  | splitAtIndex (x anIndex : ℕ)
  | replaceChild (x oldChild : ℕ) (aNode : Option ℕ)

/-- There are calls for each level of the tree, and turns for each child. -/
def TextHeap.perform (h : TextHeap κ ν) : TextEvent κ ν → Option (TextHeap κ ν)
  | .appendTextFragment x aFragment => h.appendTextFragment x aFragment
  | .appendString x aString => h.appendString h.next x aString
  | .replaceCharactersInRange x location len aString =>
    h.replaceCharactersInRange h.next x location len aString
  | .setCustomAttributes x attributes location len =>
    h.setCustomAttributes (2 * h.next + 2) x attributes location len
  | .splitAtIndex x anIndex => (h.splitAtIndex h.next x anIndex).map Prod.snd
  | .replaceChild x oldChild aNode => h.replaceChild x oldChild aNode

end Etoile.EtoileText
