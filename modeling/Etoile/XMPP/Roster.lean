import Mathlib.Data.List.AList

/-!
# The roster

Identities, people and groups are objects, named by their addresses.  A person is listed in a group
under its name, and found by the JIDs of its identities.
-/

namespace Etoile.XMPP

open Function

structure JID where
  user : Option String
  server : String
  resource : Option String
deriving DecidableEq

namespace JID

def jidStringWithNoResource (jid : JID) : String :=
  match jid.user with
  | some user => user ++ "@" ++ jid.server
  | none => jid.server

def jidString (jid : JID) : String :=
  match jid.resource with
  | some resource => jid.jidStringWithNoResource ++ "/" ++ resource
  | none => jid.jidStringWithNoResource

def rootJID (jid : JID) : JID := { jid with resource := none }

end JID

abbrev NSMutableDictionary := AList fun _ : String => ℕ

namespace NSMutableDictionary

/-- There is nothing for a key that is `nil`. -/
def objectForKey (d : NSMutableDictionary) (key : Option String) : Option ℕ := key.bind d.lookup

def removeObjectForKey (d : NSMutableDictionary) : Option String → NSMutableDictionary
  | some key => d.erase key
  | none => d

end NSMutableDictionary

/-- `isEqualToString:`, of a receiver that may be `nil`. -/
def isEqualToString : Option String → Option String → Bool
  | some s, some t => s == t
  | _, _ => false

structure JabberIdentity where
  jid : JID
  /-- The name as it was set, if it was. -/
  givenName : Option String
  group : Option String

/-- `-name` of an identity. -/
def JabberIdentity.name (identity : JabberIdentity) : Option String :=
  identity.givenName.or identity.jid.user

structure JabberPerson where
  name : Option String
  group : Option String
  identities : NSMutableDictionary

/-- `-identityForJID:`. -/
def JabberPerson.identityForJID (person : JabberPerson) (jid : JID) : Option ℕ :=
  match person.identities.lookup jid.jidString with
  | some identity => some identity
  | none =>
    if jid.user.isSome ∧ jid.resource.isSome then
      person.identities.lookup jid.jidStringWithNoResource
    else none

structure RosterGroup where
  groupName : String
  peopleByName : NSMutableDictionary
  people : List ℕ

/-- An entry of a roster IQ; `removed` if its subscription is `remove`. -/
structure RosterItem where
  jid : JID
  name : Option String
  group : Option String
  removed : Bool
  bare : jid.resource = none

def RosterItem.identity (item : RosterItem) : JabberIdentity := ⟨item.jid, item.name, item.group⟩

/-- Objects are at the addresses below `next`.  Lists are kept in the order in which their elements
came. -/
structure Roster where
  identity : ℕ → JabberIdentity
  person : ℕ → JabberPerson
  group : ℕ → RosterGroup
  next : ℕ
  peopleByJID : NSMutableDictionary
  groups : List ℕ
  groupsByName : NSMutableDictionary

namespace Roster

def newIdentity (identity : JabberIdentity) (r : Roster) : ℕ × Roster :=
  (r.next, { r with identity := update r.identity r.next identity, next := r.next + 1 })

/-- `-initWithIdentity:forRoster:` of a person. -/
def newPerson (i : ℕ) (r : Roster) : ℕ × Roster :=
  (r.next, { r with
    person := update r.person r.next ⟨(r.identity i).name, (r.identity i).group,
      AList.singleton (r.identity i).jid.jidString i⟩
    next := r.next + 1 })

def setIdentity (i : ℕ) (name group : Option String) (r : Roster) : Roster :=
  { r with identity := update r.identity i ⟨(r.identity i).jid, name, group⟩ }

def setIdentities (p : ℕ) (identities : NSMutableDictionary) (r : Roster) : Roster :=
  { r with person := update r.person p { r.person p with identities := identities } }

/-- `-addIdentity:` of a group; `none` where it raises, as the identity has no name. -/
def addIdentity (g i : ℕ) (r : Roster) : Option Roster :=
  match (r.identity i).name with
  | none => none
  | some name =>
    match (r.group g).peopleByName.lookup name with
    | none =>
      let (p, r) := r.newPerson i
      some { r with group := update r.group g { r.group g with
        peopleByName := (r.group g).peopleByName.insert name p
        people := (r.group g).people ++ [p] } }
    | some p => some <| r.setIdentities p <|
        (r.person p).identities.insert (r.identity i).jid.jidString i

/-- `-removeIdentity:` of a group, with the person of that name. -/
def removeIdentityOfPerson (g i p : ℕ) (r : Roster) : Roster :=
  let r := r.setIdentities p ((r.person p).identities.erase (r.identity i).jid.jidString)
  if (r.person p).identities.keys = [] then
    { r with group := update r.group g { r.group g with
      peopleByName := (r.group g).peopleByName.removeObjectForKey (r.person p).name
      people := (r.group g).people.filter (· ≠ p) } }
  else r

/-- `-removeIdentity:` of a group; nothing is done where the identity is `nil` or its name is that
of no person. -/
def removeIdentity (g : ℕ) (identity : Option ℕ) (r : Roster) : Roster :=
  match identity with
  | none => r
  | some i =>
    match (r.group g).peopleByName.objectForKey (r.identity i).name with
    | none => r
    | some p => r.removeIdentityOfPerson g i p

def groupOrNew (groupName : String) (r : Roster) : ℕ × Roster :=
  match r.groupsByName.lookup groupName with
  | some g => (g, r)
  | none => (r.next, { r with
      group := update r.group r.next ⟨groupName, ∅, []⟩
      next := r.next + 1
      groupsByName := r.groupsByName.insert groupName r.next
      groups := r.groups ++ [r.next] })

/-- `-groupNamed:`. -/
def groupNamed (groupName : Option String) (r : Roster) : Option ℕ :=
  r.groupsByName.lookup (groupName.getD "None")

def setPersonForJID (jid : JID) (p : ℕ) (r : Roster) : Roster :=
  { r with peopleByJID := r.peopleByJID.insert jid.jidStringWithNoResource p }

/-- `-personForJID:`. -/
def personForJID (jid : JID) (r : Roster) : Option (ℕ × Roster) :=
  match r.peopleByJID.lookup jid.jidStringWithNoResource with
  | some p => some (p, r)
  | none =>
    let (identity, r) := r.newIdentity ⟨jid.rootJID, jid.user, none⟩
    let (person, r) := r.newPerson identity
    let (group, r) := (r.setPersonForJID jid person).groupOrNew "None"
    (r.addIdentity group identity).map fun r => (person, r)

/-- An identity is put into its group, and its person into the index. -/
def place (jid : JID) (i : ℕ) (r : Roster) : Option Roster :=
  let (group, r) := r.groupOrNew ((r.identity i).group.getD "None")
  (r.addIdentity group i).bind fun r =>
    ((r.group group).peopleByName.objectForKey (r.identity i).name).map fun p =>
      r.setPersonForJID jid p

/-- What `-addRosterFromQuery:` does for an entry that is removed.  Nobody is less online than
`PRESENCE_UNKNOWN + 10`, so all people of the group count. -/
def removeItem (jid : JID) (r : Roster) : Option Roster :=
  (r.personForJID jid).map fun (person, r) =>
    let oldIdentity := (r.person person).identityForJID jid
    match r.groupNamed (r.person person).group with
    | none => { r with peopleByJID := r.peopleByJID.erase jid.jidStringWithNoResource }
    | some group =>
      let r := r.removeIdentity group oldIdentity
      let r := { r with peopleByJID := r.peopleByJID.erase jid.jidStringWithNoResource }
      if (r.group group).people.length = 0 then
        { r with
          groups := r.groups.filter (· ≠ group)
          groupsByName := r.groupsByName.erase (r.group group).groupName }
      else r

/-- An identity is removed from the group that it names; no group is named `nil`. -/
def leaveGroup (i : ℕ) (r : Roster) : Roster :=
  match r.groupsByName.objectForKey (r.identity i).group with
  | some group => r.removeIdentity group (some i)
  | none => r

/-- What `-addRosterFromQuery:` does for an entry that is not removed. -/
def addItem (item : RosterItem) (r : Roster) : Option Roster :=
  let oldIdentity := (r.peopleByJID.lookup item.jid.jidString).bind fun person =>
    (r.person person).identityForJID item.jid
  match oldIdentity with
  | none =>
    let (newIdentity, r) := r.newIdentity item.identity
    r.place item.jid newIdentity
  | some old =>
    if isEqualToString (r.identity old).name item.identity.name
        ∧ isEqualToString (r.identity old).group item.group then
      some r
    else
      ((r.leaveGroup old).setIdentity old item.identity.name item.group).place item.jid old

def addRosterItem (r : Roster) (item : RosterItem) : Option Roster :=
  if item.removed then r.removeItem item.jid else r.addItem item

/-- `-addRosterFromQuery:`. -/
def addRosterFromQuery (items : List RosterItem) (r : Roster) : Option Roster :=
  items.foldlM addRosterItem r

inductive Event
  | rosterQuery (items : List RosterItem)
  | personForJID (jid : JID)

/-- The roster after an event; `none` where an exception is raised. -/
def handle (r : Roster) : Event → Option Roster
  | .rosterQuery items => r.addRosterFromQuery items
  | .personForJID jid => (r.personForJID jid).map Prod.snd

def empty : Roster where
  identity _ := ⟨⟨none, "", none⟩, none, none⟩
  person _ := ⟨none, none, ∅⟩
  group _ := ⟨"", ∅, []⟩
  next := 0
  peopleByJID := ∅
  groups := []
  groupsByName := ∅

end Roster

end Etoile.XMPP
