import Mathlib.Order.Basic
import Etoile.Lib.Runs
import Etoile.XMPP.Roster

/-!
# The roster mirrors the server

A JID stands in the roster as the last push says, or under its node in the group `None` if it was
looked up while it had no entry.  Every operation changes the place of one JID only.
-/

namespace Etoile.XMPP

open AList Function List Option

/-- The last push for a JID, or a lookup of a JID that had no entry. -/
structure Standing where
  name : String
  group : Option String
  lookedUp : Bool

def Standing.groupName (st : Standing) : String := st.group.getD "None"

abbrev Standings := String → Option Standing

namespace Standings

def push (s : Standings) (item : RosterItem) : Standings :=
  update s item.jid.jidStringWithNoResource
    (if item.removed then none
      else item.identity.name.map fun name => ⟨name, item.group, false⟩)

def lookUp (s : Standings) (jid : JID) : Standings :=
  match s jid.jidStringWithNoResource with
  | some _ => s
  | none => update s jid.jidStringWithNoResource
      (jid.user.map fun user => ⟨user, none, true⟩)

def after (s : Standings) : Roster.Event → Standings
  | .rosterQuery items => items.foldl push s
  | .personForJID jid => s.lookUp jid

/-- A JID without a name can be looked up, or removed, only if it has a place already. -/
def Known (s : Standings) (jid : JID) : Prop :=
  s jid.jidStringWithNoResource = none → jid.user.isSome

/-- An entry that is not removed has a name, and stays where it is if it was without a group. -/
def ProperItem (s : Standings) (item : RosterItem) : Prop :=
  if item.removed then s.Known item.jid
  else item.identity.name.isSome ∧
    ∀ st, s item.jid.jidStringWithNoResource = some st → st.group = none →
      item.identity.name = some st.name ∧ item.group.getD "None" = "None"

def Proper (s : Standings) : Roster.Event → Prop
  | .rosterQuery items => Along push ProperItem s items
  | .personForJID jid => s.Known jid

end Standings

namespace Roster

variable {r r' r'' : Roster} {s : Standings} {j j' gn gn' pn pn' : String} {g g' p p' i i' : ℕ}

def PersonAt (r : Roster) (gn pn : String) (p : ℕ) : Prop :=
  ∃ g, r.groupsByName.lookup gn = some g ∧ (r.group g).peopleByName.lookup pn = some p

def Member (r : Roster) (gn pn : String) (p : ℕ) (j : String) (i : ℕ) : Prop :=
  r.PersonAt gn pn p ∧ (r.person p).identities.lookup j = some i

/-- Every JID is where it stands, and nowhere else, and groups and people are listed once. -/
structure Mirrors (r : Roster) (s : Standings) : Prop where
  listed : ∀ {j st}, s j = some st → ∃ g p i,
    (∀ g' ∈ r.groups, ∀ p' ∈ (r.group g').people,
      j ∈ (r.person p').identities ↔ g' = g ∧ p' = p)
    ∧ g ∈ r.groups ∧ p ∈ (r.group g).people
    ∧ (∀ g' ∈ r.groups, p ∈ (r.group g').people → g' = g)
    ∧ (r.group g).groupName = st.groupName ∧ r.groupNamed (r.person p).group = some g
    ∧ (r.person p).name = some st.name ∧ (r.person p).identities.lookup j = some i
    ∧ (r.identity i).name = some st.name ∧ (r.identity i).group = st.group
    ∧ (st.lookedUp = false → r.peopleByJID.lookup j = some p)
  absent : ∀ {j}, s j = none → r.peopleByJID.lookup j = none
    ∧ ∀ g ∈ r.groups, ∀ p ∈ (r.group g).people, j ∉ (r.person p).identities
  groups : ∀ g, g ∈ r.groups ↔ ∃ gn, r.groupsByName.lookup gn = some g
  groupName : ∀ {gn g}, r.groupsByName.lookup gn = some g → (r.group g).groupName = gn
  groups_nodup : r.groups.Nodup
  people_nodup : ∀ g ∈ r.groups, (r.group g).people.Nodup
  people_disjoint : ∀ g ∈ r.groups, ∀ g' ∈ r.groups, ∀ p ∈ (r.group g).people,
    p ∈ (r.group g').people → g = g'

structure Ok (r : Roster) : Prop where
  groups_nodup : r.groups.Nodup
  mem_groups : ∀ {g}, g ∈ r.groups ↔ ∃ gn, r.groupsByName.lookup gn = some g
  group : ∀ {gn g}, r.groupsByName.lookup gn = some g →
    (r.group g).groupName = gn ∧ g < r.next ∧ (r.group g).people.Nodup
      ∧ ∀ p, p ∈ (r.group g).people ↔ ∃ pn, (r.group g).peopleByName.lookup pn = some p
  person : ∀ {gn pn p}, r.PersonAt gn pn p → (r.person p).name = some pn
    ∧ (r.person p).group.getD "None" = gn ∧ p < r.next ∧ (r.person p).identities.keys ≠ []

structure Stands (r : Roster) (j : String) (st : Standing) (p i q : ℕ) : Prop where
  member : r.Member st.groupName st.name p j i
  identity_lt : i < r.next
  jid : (r.identity i).jid.jidString = j
  name : (r.identity i).name = some st.name
  group : (r.identity i).group = st.group
  index : r.peopleByJID.lookup j = some q
  index_lt : q < r.next
  index_group : (r.person q).group.getD "None" = st.groupName
  indexed : (r.person q).identities.lookup j = some i
  listed : st.lookedUp = false → q = p
  ungrouped : st.lookedUp = true → st.group = none

structure Inv (r : Roster) (s : Standings) : Prop where
  ok : r.Ok
  member : ∀ {gn pn p j i}, r.Member gn pn p j i →
    ∃ st, s j = some st ∧ gn = st.groupName ∧ pn = st.name
  stands : ∀ {j st}, s j = some st → ∃ p i q, r.Stands j st p i q
  absent : ∀ {j}, s j = none → r.peopleByJID.lookup j = none

structure Keeps (j : String) (r r' : Roster) : Prop where
  next : r.next ≤ r'.next
  identity : ∀ i < r.next, (r.identity i).jid.jidString ≠ j → r'.identity i = r.identity i
  person : ∀ p < r.next, (r'.person p).group = (r.person p).group
    ∧ ∀ j' ≠ j, (r'.person p).identities.lookup j' = (r.person p).identities.lookup j'
  member : ∀ {gn pn p j' i}, j' ≠ j → (r'.Member gn pn p j' i ↔ r.Member gn pn p j' i)
  index : ∀ j' ≠ j, r'.peopleByJID.lookup j' = r.peopleByJID.lookup j'

theorem Keeps.refl (j : String) (r : Roster) : Keeps j r r :=
  ⟨le_rfl, fun _ _ _ => rfl, fun _ _ => ⟨rfl, fun _ _ => rfl⟩, fun _ => Iff.rfl, fun _ _ => rfl⟩

theorem Keeps.trans (h : Keeps j r r') (h' : Keeps j r' r'') : Keeps j r r'' where
  next := h.next.trans h'.next
  identity i hi hj := by
    have hi' := h.identity i hi hj
    rw [h'.identity i (hi.trans_le h.next) (by rwa [hi']), hi']
  person p hp := by
    obtain ⟨hgroup, hlookup⟩ := h.person p hp
    obtain ⟨hgroup', hlookup'⟩ := h'.person p (hp.trans_le h.next)
    exact ⟨hgroup'.trans hgroup, fun j' hj => (hlookup' j' hj).trans (hlookup j' hj)⟩
  member hj := (h'.member hj).trans (h.member hj)
  index j' hj := (h'.index j' hj).trans (h.index j' hj)

theorem Ok.personAt_lt (h : r.Ok) (hp : r.PersonAt gn pn p) : p < r.next := (h.person hp).2.2.1

theorem Ok.personAt_unique (h : r.Ok) (hp : r.PersonAt gn pn p) (hp' : r.PersonAt gn' pn' p) :
    gn' = gn ∧ pn' = pn := by
  obtain ⟨hname, hgroup, -⟩ := h.person hp
  obtain ⟨hname', hgroup', -⟩ := h.person hp'
  exact ⟨hgroup'.symm.trans hgroup, Option.some.inj (hname'.symm.trans hname)⟩

theorem Ok.group_unique (h : r.Ok) (hg : r.groupsByName.lookup gn = some g)
    (hg' : r.groupsByName.lookup gn' = some g) : gn' = gn :=
  (h.group hg').1.symm.trans (h.group hg).1

theorem Stands.keep {st : Standing} {q : ℕ} (h : r.Stands j' st p i q) (hk : Keeps j r r')
    (hj : j' ≠ j) : r'.Stands j' st p i q where
  member := (hk.member hj).2 h.member
  identity_lt := h.identity_lt.trans_le hk.next
  jid := by rw [hk.identity i h.identity_lt (by rwa [h.jid])]; exact h.jid
  name := by rw [hk.identity i h.identity_lt (by rwa [h.jid])]; exact h.name
  group := by rw [hk.identity i h.identity_lt (by rwa [h.jid])]; exact h.group
  index := (hk.index j' hj).trans h.index
  index_lt := h.index_lt.trans_le hk.next
  index_group := by rw [(hk.person q h.index_lt).1]; exact h.index_group
  indexed := ((hk.person q h.index_lt).2 j' hj).trans h.indexed
  listed := h.listed
  ungrouped := h.ungrouped

theorem Inv.of_keeps {x : Option Standing} (h : r.Inv s) (hk : Keeps j r r') (hok : r'.Ok)
    (hmember : ∀ {gn pn p i}, r'.Member gn pn p j i →
      ∃ st, x = some st ∧ gn = st.groupName ∧ pn = st.name)
    (hstands : ∀ st, x = some st → ∃ p i q, r'.Stands j st p i q)
    (habsent : x = none → r'.peopleByJID.lookup j = none) : r'.Inv (update s j x) where
  ok := hok
  member {gn pn p j' i} hm := by
    by_cases hj : j' = j
    · subst hj
      rw [update_self]
      exact hmember hm
    · rw [update_of_ne hj]
      exact h.member ((hk.member hj).1 hm)
  stands {j' st} hs := by
    by_cases hj : j' = j
    · subst hj
      rw [update_self] at hs
      exact hstands st hs
    · rw [update_of_ne hj] at hs
      obtain ⟨p, i, q, hst⟩ := h.stands hs
      exact ⟨p, i, q, hst.keep hk hj⟩
  absent {j'} hs := by
    by_cases hj : j' = j
    · subst hj
      rw [update_self] at hs
      exact habsent hs
    · rw [update_of_ne hj] at hs
      exact (hk.index j' hj).trans (h.absent hs)

structure SameGroups (r r' : Roster) : Prop where
  groups : r'.groups = r.groups
  groupsByName : r'.groupsByName = r.groupsByName
  group : r'.group = r.group
  next : r.next ≤ r'.next
  person : ∀ p < r.next, r'.person p = r.person p

theorem SameGroups.personAt (h : SameGroups r r') : r'.PersonAt gn pn p ↔ r.PersonAt gn pn p := by
  unfold PersonAt
  rw [h.groupsByName, h.group]

theorem SameGroups.ok (h : SameGroups r r') (hok : r.Ok) : r'.Ok where
  groups_nodup := by rw [h.groups]; exact hok.groups_nodup
  mem_groups := by rw [h.groups, h.groupsByName]; exact hok.mem_groups
  group hg := by
    rw [h.groupsByName] at hg
    obtain ⟨hname, hlt, hpeople⟩ := hok.group hg
    rw [h.group]
    exact ⟨hname, hlt.trans_le h.next, hpeople⟩
  person hp := by
    obtain ⟨hname, hgroup, hlt, hkeys⟩ := hok.person (h.personAt.1 hp)
    rw [h.person _ hlt]
    exact ⟨hname, hgroup, hlt.trans_le h.next, hkeys⟩

theorem SameGroups.member (h : SameGroups r r') (hok : r.Ok) :
    r'.Member gn pn p j i ↔ r.Member gn pn p j i := by
  unfold Member
  rw [h.personAt]
  refine and_congr_right fun hp => ?_
  rw [h.person p (hok.personAt_lt hp)]

theorem SameGroups.keeps (h : SameGroups r r') (hok : r.Ok)
    (hidentity : ∀ i < r.next, (r.identity i).jid.jidString ≠ j → r'.identity i = r.identity i)
    (hindex : ∀ j' ≠ j, r'.peopleByJID.lookup j' = r.peopleByJID.lookup j') : Keeps j r r' where
  next := h.next
  identity := hidentity
  person p hp := by rw [h.person p hp]; exact ⟨rfl, fun _ _ => rfl⟩
  member _ := h.member hok
  index := hindex

theorem personAt_update (r' : Roster) {G : RosterGroup} (hok : r.Ok)
    (hg : r.groupsByName.lookup gn = some g) (hnames : r'.groupsByName = r.groupsByName)
    (hgroup : r'.group = update r.group g G) :
    r'.PersonAt gn' pn p ↔
      if gn' = gn then G.peopleByName.lookup pn = some p else r.PersonAt gn' pn p := by
  unfold PersonAt
  rw [hnames, hgroup]
  split_ifs with heq
  · subst heq
    constructor
    · rintro ⟨g', hg', hp⟩
      obtain rfl := Option.some.inj (hg'.symm.trans hg)
      rwa [update_self] at hp
    · intro hp
      exact ⟨g, hg, by rwa [update_self]⟩
  · have hne : ∀ {g'}, r.groupsByName.lookup gn' = some g' → g' ≠ g := by
      rintro g' hg' rfl
      exact heq (hok.group_unique hg hg')
    constructor
    · rintro ⟨g', hg', hp⟩
      rw [update_of_ne (hne hg')] at hp
      exact ⟨g', hg', hp⟩
    · rintro ⟨g', hg', hp⟩
      exact ⟨g', hg', by rwa [update_of_ne (hne hg')]⟩

theorem Ok.update {G : RosterGroup} (hok : r.Ok) (hg : r.groupsByName.lookup gn = some g)
    (hgroups : r'.groups = r.groups) (hnames : r'.groupsByName = r.groupsByName)
    (hgroup : r'.group = update r.group g G) (hnext : r.next ≤ r'.next)
    (hname : G.groupName = gn) (hnodup : G.people.Nodup)
    (hpeople : ∀ p, p ∈ G.people ↔ ∃ pn, G.peopleByName.lookup pn = some p)
    (hperson : ∀ {gn pn p}, r'.PersonAt gn pn p → (r'.person p).name = some pn
      ∧ (r'.person p).group.getD "None" = gn ∧ p < r'.next ∧ (r'.person p).identities.keys ≠ []) :
    r'.Ok where
  groups_nodup := by rw [hgroups]; exact hok.groups_nodup
  mem_groups := by rw [hgroups, hnames]; exact hok.mem_groups
  group {gn' g'} hg' := by
    rw [hnames] at hg'
    rw [hgroup]
    by_cases heq : g' = g
    · subst heq
      obtain rfl := hok.group_unique hg hg'
      rw [update_self]
      exact ⟨hname, (hok.group hg).2.1.trans_le hnext, hnodup, hpeople⟩
    · rw [update_of_ne heq]
      obtain ⟨hname', hlt, hpeople'⟩ := hok.group hg'
      exact ⟨hname', hlt.trans_le hnext, hpeople'⟩
  person := hperson

theorem groupOrNew_spec (hok : r.Ok) (gn : String) :
    (r.groupOrNew gn).2.Ok ∧ (r.groupOrNew gn).2.groupsByName.lookup gn = some (r.groupOrNew gn).1
      ∧ (r.groupOrNew gn).2.person = r.person ∧ (r.groupOrNew gn).2.identity = r.identity
      ∧ (r.groupOrNew gn).2.peopleByJID = r.peopleByJID ∧ r.next ≤ (r.groupOrNew gn).2.next
      ∧ ∀ {gn' pn p}, (r.groupOrNew gn).2.PersonAt gn' pn p ↔ r.PersonAt gn' pn p := by
  unfold groupOrNew
  split
  · rename_i g hg
    exact ⟨hok, hg, rfl, rfl, rfl, le_rfl, Iff.rfl⟩
  · rename_i hnone
    have hne : ∀ {gn' g}, r.groupsByName.lookup gn' = some g → gn' ≠ gn ∧ g ≠ r.next := by
      intro gn' g hg
      refine ⟨fun heq => ?_, (hok.group hg).2.1.ne⟩
      rw [heq, hnone] at hg
      cases hg
    have hlookup : ∀ {gn' g}, (r.groupsByName.insert gn r.next).lookup gn' = some g ↔
        gn' = gn ∧ g = r.next ∨ r.groupsByName.lookup gn' = some g := by
      intro gn' g
      by_cases heq : gn' = gn
      · subst heq
        rw [lookup_insert, hnone]
        simp [eq_comm]
      · rw [lookup_insert_ne heq]
        simp [heq]
    have hat : ∀ {gn' pn p}, PersonAt { r with
        group := update r.group r.next ⟨gn, ∅, []⟩
        next := r.next + 1
        groupsByName := r.groupsByName.insert gn r.next
        groups := r.groups ++ [r.next] } gn' pn p ↔ r.PersonAt gn' pn p := by
      intro gn' pn p
      constructor
      · rintro ⟨g, hg, hp⟩
        rcases hlookup.1 hg with ⟨rfl, rfl⟩ | hg
        · simp at hp
        · exact ⟨g, hg, by simpa [(hne hg).2] using hp⟩
      · rintro ⟨g, hg, hp⟩
        exact ⟨g, hlookup.2 (.inr hg), by simpa [(hne hg).2] using hp⟩
    refine ⟨⟨?_, ?_, ?_, ?_⟩, lookup_insert _, rfl, rfl, rfl, Nat.le_succ _, hat⟩
    · refine Nodup.append hok.groups_nodup (nodup_singleton _) ?_
      rintro g hg hg'
      obtain rfl := mem_singleton.1 hg'
      obtain ⟨gn', hgn'⟩ := hok.mem_groups.1 hg
      exact (hne hgn').2 rfl
    · intro g
      rw [mem_append, hok.mem_groups, mem_singleton]
      constructor
      · rintro (⟨gn', hg⟩ | rfl)
        · exact ⟨gn', hlookup.2 (.inr hg)⟩
        · exact ⟨gn, hlookup.2 (.inl ⟨rfl, rfl⟩)⟩
      · rintro ⟨gn', hg⟩
        rcases hlookup.1 hg with ⟨-, rfl⟩ | hg
        · exact .inr rfl
        · exact .inl ⟨gn', hg⟩
    · intro gn' g hg
      rcases hlookup.1 hg with ⟨rfl, rfl⟩ | hg
      · simp
      · obtain ⟨hname, hlt, hpeople⟩ := hok.group hg
        dsimp only
        rw [update_of_ne (hne hg).2]
        exact ⟨hname, hlt.trans (Nat.lt_succ_self _), hpeople⟩
    · intro gn' pn p hp
      obtain ⟨hname, hgroup, hlt, hkeys⟩ := hok.person (hat.1 hp)
      exact ⟨hname, hgroup, hlt.trans (Nat.lt_succ_self _), hkeys⟩

@[simp] theorem setIdentities_person (p : ℕ) (identities : NSMutableDictionary) (r : Roster) :
    (r.setIdentities p identities).person
      = update r.person p { r.person p with identities := identities } := rfl

variable {identities : NSMutableDictionary}

theorem setIdentities_personAt :
    (r.setIdentities p identities).PersonAt gn pn p' ↔ r.PersonAt gn pn p' := Iff.rfl

/-- The people keep their names and groups, and all their identities but for one JID. -/
theorem setIdentities_keeps
    (h : ∀ j' ≠ j, identities.lookup j' = (r.person p).identities.lookup j') :
    Keeps j r (r.setIdentities p identities) where
  next := le_rfl
  identity _ _ _ := rfl
  person q _ := by
    by_cases hq : q = p
    · subst hq
      simpa using h
    · simp [hq]
  member {gn pn q j' i} hj := by
    refine and_congr_right fun _ => ?_
    by_cases hq : q = p
    · subst hq
      simp [h j' hj]
    · simp [hq]
  index _ _ := rfl

theorem setIdentities_ok (hok : r.Ok)
    (h : identities.keys ≠ []) : (r.setIdentities p identities).Ok where
  groups_nodup := hok.groups_nodup
  mem_groups := hok.mem_groups
  group := hok.group
  person {gn pn q} hq := by
    obtain ⟨hname, hgroup, hlt, hkeys⟩ := hok.person (setIdentities_personAt.1 hq)
    by_cases hqp : q = p
    · subst hqp
      simpa using ⟨hname, hgroup, hlt, h⟩
    · simpa [hqp] using ⟨hname, hgroup, hlt, hkeys⟩

@[simp] theorem lookup_singleton (j' j : String) (i : ℕ) :
    lookup j' (singleton j i : NSMutableDictionary)
      = if j' = j then some i else none := by
  rw [← insert_empty]
  split_ifs with h
  · rw [h, lookup_insert]
  · rw [lookup_insert_ne h, lookup_empty]

def withPerson (r : Roster) (g i : ℕ) (pn : String) : Roster :=
  { (r.newPerson i).2 with group := update r.group g { r.group g with
      peopleByName := (r.group g).peopleByName.insert pn r.next
      people := (r.group g).people ++ [r.next] } }

variable {d : NSMutableDictionary}

theorem lookup_insert_fresh (h : d.lookup pn = none) :
    (d.insert pn p).lookup pn' = some p' ↔ pn' = pn ∧ p' = p ∨ d.lookup pn' = some p' := by
  by_cases heq : pn' = pn
  · subst heq
    rw [lookup_insert, h]
    simp [eq_comm]
  · rw [lookup_insert_ne heq]
    simp [heq]

theorem withPerson_personAt (hok : r.Ok) (hg : r.groupsByName.lookup gn = some g)
    (hnone : (r.group g).peopleByName.lookup pn = none) :
    (r.withPerson g i pn).PersonAt gn' pn' p ↔
      gn' = gn ∧ pn' = pn ∧ p = r.next ∨ r.PersonAt gn' pn' p := by
  rw [personAt_update (r.withPerson g i pn) hok hg rfl rfl]
  split_ifs with heq
  · subst heq
    rw [lookup_insert_fresh hnone]
    refine ⟨fun h => h.imp (fun h => ⟨rfl, h⟩) fun h => ⟨g, hg, h⟩, ?_⟩
    rintro (⟨-, h⟩ | ⟨g', hg', hp⟩)
    · exact .inl h
    · obtain rfl := Option.some.inj (hg'.symm.trans hg)
      exact .inr hp
  · simp [heq]

theorem withPerson_person (r : Roster) (g i : ℕ) (pn : String) :
    (r.withPerson g i pn).person = update r.person r.next ⟨(r.identity i).name,
      (r.identity i).group, singleton (r.identity i).jid.jidString i⟩ := rfl

theorem withPerson_member (hok : r.Ok) (hg : r.groupsByName.lookup gn = some g)
    (hnone : (r.group g).peopleByName.lookup pn = none) :
    (r.withPerson g i pn).Member gn' pn' p j' i' ↔
      gn' = gn ∧ pn' = pn ∧ p = r.next ∧ j' = (r.identity i).jid.jidString ∧ i' = i
        ∨ r.Member gn' pn' p j' i' := by
  unfold Member
  rw [withPerson_personAt hok hg hnone, withPerson_person]
  by_cases hp : p = r.next
  · subst hp
    have hnot : ¬ r.PersonAt gn' pn' r.next := fun h => (hok.personAt_lt h).ne rfl
    simp [hnot, and_assoc, eq_comm]
  · simp [hp]

theorem withPerson_ok (hok : r.Ok) (hg : r.groupsByName.lookup gn = some g)
    (hnone : (r.group g).peopleByName.lookup pn = none) (hname : (r.identity i).name = some pn)
    (hgroup : (r.identity i).group.getD "None" = gn) : (r.withPerson g i pn).Ok := by
  obtain ⟨hgname, -, hnodup, hpeople⟩ := hok.group hg
  refine hok.update hg rfl rfl rfl (Nat.le_succ _) hgname ?_ (fun p => ?_) ?_
  · refine Nodup.append hnodup (nodup_singleton _) ?_
    rintro p hp hp'
    obtain rfl := mem_singleton.1 hp'
    obtain ⟨pn', hpn'⟩ := (hpeople _).1 hp
    exact (hok.personAt_lt ⟨g, hg, hpn'⟩).ne rfl
  · rw [mem_append, hpeople, mem_singleton]
    simp only [lookup_insert_fresh hnone]
    constructor
    · rintro (⟨pn', hp⟩ | rfl)
      · exact ⟨pn', .inr hp⟩
      · exact ⟨pn, .inl ⟨rfl, rfl⟩⟩
    · rintro ⟨pn', ⟨-, rfl⟩ | hp⟩
      · exact .inr rfl
      · exact .inl ⟨pn', hp⟩
  · intro gn' pn' p hp
    rw [withPerson_person]
    rcases (withPerson_personAt hok hg hnone).1 hp with ⟨rfl, rfl, rfl⟩ | hp
    · simpa using ⟨hname, hgroup, Nat.lt_succ_self _⟩
    · obtain ⟨hname', hgroup', hlt, hkeys⟩ := hok.person hp
      rw [update_of_ne hlt.ne]
      exact ⟨hname', hgroup', hlt.trans (Nat.lt_succ_self _), hkeys⟩

theorem withPerson_keeps (hok : r.Ok) (hg : r.groupsByName.lookup gn = some g)
    (hnone : (r.group g).peopleByName.lookup pn = none) :
    Keeps (r.identity i).jid.jidString r (r.withPerson g i pn) where
  next := Nat.le_succ _
  identity _ _ _ := rfl
  person p hp := by
    rw [withPerson_person, update_of_ne hp.ne]
    exact ⟨rfl, fun _ _ => rfl⟩
  member hj := by
    rw [withPerson_member hok hg hnone]
    simp [hj]
  index _ _ := rfl

theorem addIdentity_spec (hok : r.Ok) (hg : r.groupsByName.lookup gn = some g)
    (hname : (r.identity i).name = some pn) (hgroup : (r.identity i).group.getD "None" = gn)
    (hj : (r.identity i).jid.jidString = j) :
    ∃ r' p, r.addIdentity g i = some r' ∧ r'.Ok ∧ Keeps j r r' ∧ r'.identity = r.identity
      ∧ r'.peopleByJID = r.peopleByJID ∧ (r'.group g).peopleByName.lookup pn = some p
      ∧ r'.Member gn pn p j i
      ∧ (∀ q < r.next, (r.person q).identities.lookup j = some i →
        (r'.person q).identities.lookup j = some i)
      ∧ ∀ {gn' pn' p' i'}, r'.Member gn' pn' p' j i' →
        gn' = gn ∧ pn' = pn ∨ r.Member gn' pn' p' j i' := by
  subst hj
  unfold addIdentity
  rw [hname]
  dsimp only
  cases hlookup : (r.group g).peopleByName.lookup pn with
  | some p =>
    have hp : r.PersonAt gn pn p := ⟨g, hg, hlookup⟩
    refine ⟨_, p, rfl, setIdentities_ok hok ?_, setIdentities_keeps fun j' hj' =>
      lookup_insert_ne hj', rfl, rfl, hlookup, ⟨hp, ?_⟩, fun q _ hq => ?_, ?_⟩
    · rw [keys_insert]
      exact cons_ne_nil _ _
    · rw [setIdentities_person, update_self]
      exact lookup_insert _
    · by_cases hqp : q = p
      · subst hqp
        rw [setIdentities_person, update_self]
        exact lookup_insert _
      · rwa [setIdentities_person, update_of_ne hqp]
    · rintro gn' pn' p' i' ⟨hp', hi'⟩
      by_cases hpp : p' = p
      · subst hpp
        exact .inl (hok.personAt_unique hp (setIdentities_personAt.1 hp'))
      · rw [setIdentities_person, update_of_ne hpp] at hi'
        exact .inr ⟨hp', hi'⟩
  | none =>
    refine ⟨r.withPerson g i pn, r.next, rfl, withPerson_ok hok hg hlookup hname hgroup,
      withPerson_keeps hok hg hlookup, rfl, rfl, ?_,
      (withPerson_member hok hg hlookup).2 (.inl ⟨rfl, rfl, rfl, rfl, rfl⟩), fun q hq hi => ?_,
      fun hm => ?_⟩
    · rw [withPerson]
      dsimp only
      rw [update_self]
      exact lookup_insert _
    · rwa [withPerson_person, update_of_ne hq.ne]
    · rcases (withPerson_member hok hg hlookup).1 hm with ⟨hgn, hpn, -⟩ | hm
      · exact .inl ⟨hgn, hpn⟩
      · exact .inr hm

def withoutPerson (r : Roster) (g p : ℕ) (pn : String) (identities : NSMutableDictionary) :
    Roster :=
  { r.setIdentities p identities with group := update r.group g { r.group g with
      peopleByName := (r.group g).peopleByName.erase pn
      people := (r.group g).people.filter (· ≠ p) } }

theorem lookup_erase_iff : (d.erase pn).lookup pn' = some p ↔ pn' ≠ pn ∧ d.lookup pn' = some p := by
  by_cases heq : pn' = pn
  · subst heq
    simp
  · rw [AList.lookup_erase_ne heq]
    simp [heq]

theorem withoutPerson_personAt (hok : r.Ok) (hg : r.groupsByName.lookup gn = some g) :
    (r.withoutPerson g p pn identities).PersonAt gn' pn' p' ↔
      r.PersonAt gn' pn' p' ∧ ¬ (gn' = gn ∧ pn' = pn) := by
  rw [personAt_update (r.withoutPerson g p pn identities) hok hg rfl rfl]
  split_ifs with heq
  · subst heq
    rw [lookup_erase_iff]
    constructor
    · rintro ⟨hpn, hp⟩
      exact ⟨⟨g, hg, hp⟩, fun h => hpn h.2⟩
    · rintro ⟨⟨g', hg', hp⟩, hne⟩
      obtain rfl := Option.some.inj (hg'.symm.trans hg)
      exact ⟨fun hpn => hne ⟨rfl, hpn⟩, hp⟩
  · simp [heq]

theorem withoutPerson_person_of_ne (h : p' ≠ p) :
    (r.withoutPerson g p pn identities).person p' = r.person p' := update_of_ne h ..

theorem withoutPerson_ok (hok : r.Ok)
    (hg : r.groupsByName.lookup gn = some g) (hp : (r.group g).peopleByName.lookup pn = some p) :
    (r.withoutPerson g p pn identities).Ok := by
  obtain ⟨hgname, -, hnodup, hpeople⟩ := hok.group hg
  have hne : ∀ {gn' pn' p'}, r.PersonAt gn' pn' p' → ¬ (gn' = gn ∧ pn' = pn) → p' ≠ p := by
    rintro gn' pn' p' hp' hnot rfl
    exact hnot (hok.personAt_unique ⟨g, hg, hp⟩ hp')
  refine hok.update hg rfl rfl rfl le_rfl hgname (hnodup.filter _) (fun p' => ?_) ?_
  · rw [mem_filter, hpeople]
    simp only [lookup_erase_iff, decide_not, Bool.not_eq_true', decide_eq_false_iff_not]
    constructor
    · rintro ⟨⟨pn', hp'⟩, hpp⟩
      refine ⟨pn', fun hpn => hpp ?_, hp'⟩
      rw [hpn, hp] at hp'
      exact (Option.some.inj hp').symm
    · rintro ⟨pn', hpn, hp'⟩
      exact ⟨⟨pn', hp'⟩, hne ⟨g, hg, hp'⟩ fun h => hpn h.2⟩
  · intro gn' pn' p' hp'
    obtain ⟨hat, hnot⟩ := (withoutPerson_personAt hok hg).1 hp'
    rw [withoutPerson_person_of_ne (hne hat hnot)]
    exact hok.person hat

theorem withoutPerson_member (hok : r.Ok)
    (hg : r.groupsByName.lookup gn = some g) (hp : (r.group g).peopleByName.lookup pn = some p) :
    (r.withoutPerson g p pn identities).Member gn' pn' p' j' i' ↔
      r.Member gn' pn' p' j' i' ∧ ¬ (gn' = gn ∧ pn' = pn) := by
  unfold Member
  rw [withoutPerson_personAt hok hg, and_right_comm]
  refine and_congr_left fun hnot => and_congr_right fun hp' => ?_
  rw [withoutPerson_person_of_ne]
  rintro rfl
  exact hnot (hok.personAt_unique ⟨g, hg, hp⟩ hp')

theorem lookup_of_keys (h : (d.erase j).keys = []) (hj : j' ≠ j) : d.lookup j' = none := by
  rw [← AList.lookup_erase_ne hj, AList.lookup_eq_none, AList.mem_keys, h]
  exact not_mem_nil

theorem removeIdentity_spec (hok : r.Ok) (hg : r.groupsByName.lookup gn = some g)
    (hname : (r.identity i).name = some pn) (hp : (r.group g).peopleByName.lookup pn = some p)
    (hj : (r.identity i).jid.jidString = j) :
    (r.removeIdentity g (some i)).Ok ∧ Keeps j r (r.removeIdentity g (some i))
      ∧ (r.removeIdentity g (some i)).identity = r.identity
      ∧ (r.removeIdentity g (some i)).peopleByJID = r.peopleByJID
      ∧ (r.removeIdentity g (some i)).groupsByName = r.groupsByName
      ∧ ∀ {gn' pn' p' i'}, (r.removeIdentity g (some i)).Member gn' pn' p' j i' →
        r.Member gn' pn' p' j i' ∧ ¬ (gn' = gn ∧ pn' = pn) := by
  have hat : r.PersonAt gn pn p := ⟨g, hg, hp⟩
  have hlookup : ∀ j' ≠ j, ((r.person p).identities.erase j).lookup j'
      = (r.person p).identities.lookup j' := fun j' hj' => AList.lookup_erase_ne hj'
  have heq : r.removeIdentity g (some i) =
      if ((r.person p).identities.erase j).keys = [] then
        r.withoutPerson g p pn ((r.person p).identities.erase j)
      else r.setIdentities p ((r.person p).identities.erase j) := by
    have hleft : ((r.setIdentities p ((r.person p).identities.erase j)).person p).identities
        = (r.person p).identities.erase j := by simp
    have hpn : ((r.setIdentities p ((r.person p).identities.erase j)).person p).name = some pn := by
      simp [(hok.person hat).1]
    simp only [removeIdentity, removeIdentityOfPerson, hname, NSMutableDictionary.objectForKey,
      bind_some, hp, hj, hleft, hpn]
    rfl
  rw [heq]
  split_ifs with hkeys
  · refine ⟨withoutPerson_ok hok hg hp, ⟨le_rfl, fun _ _ _ => rfl, fun q _ => ?_, fun hj' => ?_,
      fun _ _ => rfl⟩, rfl, rfl, rfl, (withoutPerson_member hok hg hp).1⟩
    · by_cases hq : q = p
      · subst hq
        simpa [withoutPerson] using hlookup
      · rw [withoutPerson_person_of_ne hq]
        exact ⟨rfl, fun _ _ => rfl⟩
    · rw [withoutPerson_member hok hg hp]
      -- the person has no other identity left
      refine and_iff_left_of_imp fun hm => ?_
      rintro ⟨rfl, rfl⟩
      obtain ⟨⟨g', hg', hp'⟩, hi'⟩ := hm
      obtain rfl := Option.some.inj (hg'.symm.trans hg)
      obtain rfl := Option.some.inj (hp'.symm.trans hp)
      rw [lookup_of_keys hkeys hj'] at hi'
      cases hi'
  · refine ⟨setIdentities_ok hok hkeys, setIdentities_keeps hlookup, rfl, rfl, rfl, ?_⟩
    rintro gn' pn' p' i' ⟨hp', hi'⟩
    by_cases hpp : p' = p
    · subst hpp
      rw [setIdentities_person, update_self, lookup_erase] at hi'
      cases hi'
    · rw [setIdentities_person, update_of_ne hpp] at hi'
      refine ⟨⟨hp', hi'⟩, ?_⟩
      rintro ⟨rfl, rfl⟩
      obtain ⟨g', hg', hp'⟩ := hp'
      obtain rfl := Option.some.inj (hg'.symm.trans hg)
      exact hpp (Option.some.inj (hp'.symm.trans hp))

theorem groupOrNew_keeps (hok : r.Ok) (gn j : String) : Keeps j r (r.groupOrNew gn).2 := by
  obtain ⟨-, -, hperson, hidentity, hindex, hnext, hat⟩ := groupOrNew_spec hok gn
  refine ⟨hnext, fun i _ _ => by rw [hidentity], fun p _ => ?_, fun _ => ?_, fun j' _ => ?_⟩
  · rw [hperson]
    exact ⟨rfl, fun _ _ => rfl⟩
  · unfold Member
    rw [hat, hperson]
  · rw [hindex]

theorem setPersonForJID_sameGroups (jid : JID) (p : ℕ) (r : Roster) :
    SameGroups r (r.setPersonForJID jid p) := ⟨rfl, rfl, rfl, le_rfl, fun _ _ => rfl⟩

theorem newIdentity_sameGroups (identity : JabberIdentity) (r : Roster) :
    SameGroups r (r.newIdentity identity).2 := ⟨rfl, rfl, rfl, Nat.le_succ _, fun _ _ => rfl⟩

theorem setIdentity_sameGroups (i : ℕ) (name group : Option String) (r : Roster) :
    SameGroups r (r.setIdentity i name group) := ⟨rfl, rfl, rfl, le_rfl, fun _ _ => rfl⟩

variable {jid : JID}

theorem setPersonForJID_keeps (hok : r.Ok) (hj : jid.jidStringWithNoResource = j)
    (p : ℕ) : Keeps j r (r.setPersonForJID jid p) := by
  refine (setPersonForJID_sameGroups jid p r).keeps hok (fun _ _ _ => rfl) fun j' hj' => ?_
  exact lookup_insert_ne (hj ▸ hj')

theorem newIdentity_keeps (hok : r.Ok) (identity : JabberIdentity) :
    Keeps j r (r.newIdentity identity).2 :=
  (newIdentity_sameGroups identity r).keeps hok
    (fun _ hi _ => update_of_ne hi.ne ..) fun _ _ => rfl

theorem setIdentity_keeps (hok : r.Ok) (hj : (r.identity i).jid.jidString = j)
    (name group : Option String) : Keeps j r (r.setIdentity i name group) := by
  refine (setIdentity_sameGroups i name group r).keeps hok (fun i' _ hi' => ?_) fun _ _ => rfl
  refine update_of_ne ?_ ..
  rintro rfl
  exact hi' hj

theorem place_spec {st : Standing} (hok : r.Ok) (hi : i < r.next)
    (hname : (r.identity i).name = some st.name) (hgroup : (r.identity i).group = st.group)
    (hlisted : st.lookedUp = false) (hbare : jid.jidStringWithNoResource = j)
    (hj : (r.identity i).jid.jidString = j)
    (hmember : ∀ {gn pn p i'}, r.Member gn pn p j i' → gn = st.groupName ∧ pn = st.name) :
    ∃ r' p q, r.place jid i = some r' ∧ r'.Ok ∧ Keeps j r r' ∧ r'.Stands j st p i q
      ∧ ∀ {gn pn p i'}, r'.Member gn pn p j i' → gn = st.groupName ∧ pn = st.name := by
  have hgn : (r.identity i).group.getD "None" = st.groupName := by rw [hgroup]; rfl
  unfold place
  rw [hgn]
  obtain ⟨hok₁, hg, hperson, hidentity, -, hnext, hat⟩ := groupOrNew_spec hok st.groupName
  have hk₁ := groupOrNew_keeps hok st.groupName j
  generalize r.groupOrNew st.groupName = gr at *
  obtain ⟨g, r₁⟩ := gr
  dsimp only at *
  rw [← hidentity] at hname hgroup hgn hj
  obtain ⟨r₂, p, hadd, hok₂, hk₂, hidentity₂, -, hp, hm, -, hmember₂⟩ :=
    addIdentity_spec hok₁ hg hname hgn hj
  have hsame := setPersonForJID_sameGroups jid p r₂
  have hk₃ := setPersonForJID_keeps hok₂ hbare p
  refine ⟨r₂.setPersonForJID jid p, p, p, ?_, hsame.ok hok₂, (hk₁.trans hk₂).trans hk₃, ?_, ?_⟩
  · rw [hadd, bind_some, hidentity₂, hname, NSMutableDictionary.objectForKey,
      bind_some, hp]
    rfl
  · have hid : (r₂.setPersonForJID jid p).identity = r₁.identity := hidentity₂
    exact {
      member := (hsame.member hok₂).2 hm
      identity_lt := hi.trans_le (hnext.trans (hk₂.next.trans hk₃.next))
      jid := by rw [hid]; exact hj
      name := by rw [hid]; exact hname
      group := by rw [hid]; exact hgroup
      index := by rw [← hbare]; exact lookup_insert _
      index_lt := hok₂.personAt_lt hm.1
      index_group := (hok₂.person hm.1).2.1
      indexed := hm.2
      listed := fun _ => rfl
      ungrouped := by rw [hlisted]; exact nofun }
  · intro gn pn p' i' hm'
    rcases hmember₂ ((hsame.member hok₂).1 hm') with h | hm'
    · exact h
    · refine @hmember gn pn p' i' ⟨hat.1 hm'.1, ?_⟩
      rw [← hperson]
      exact hm'.2

theorem Inv.place {st : Standing} {r₁ : Roster} (h : r.Inv s) (hok : r₁.Ok)
    (hk : Keeps j r r₁) (hi : i < r₁.next) (hname : (r₁.identity i).name = some st.name)
    (hgroup : (r₁.identity i).group = st.group) (hlisted : st.lookedUp = false)
    (hbare : jid.jidStringWithNoResource = j) (hj : (r₁.identity i).jid.jidString = j)
    (hmember : ∀ {gn pn p i'}, r₁.Member gn pn p j i' → gn = st.groupName ∧ pn = st.name) :
    ∃ r', r₁.place jid i = some r' ∧ r'.Inv (update s j (some st)) := by
  obtain ⟨r', p, q, hplace, hok', hk', hst, hmember'⟩ :=
    place_spec hok hi hname hgroup hlisted hbare hj hmember
  refine ⟨r', hplace, h.of_keeps (hk.trans hk') hok' (fun hm => ⟨st, rfl, hmember' hm⟩) ?_ nofun⟩
  rintro _ ⟨⟩
  exact ⟨p, i, q, hst⟩

/-- A new identity for an unknown JID, and a person for it that is in no group. -/
def withNewcomer (r : Roster) (jid : JID) : Roster :=
  ((r.newIdentity ⟨jid.rootJID, jid.user, none⟩).2.newPerson r.next).2.setPersonForJID jid
    (r.next + 1)

theorem personForJID_of_unknown (h : r.peopleByJID.lookup jid.jidStringWithNoResource = none) :
    r.personForJID jid = (((r.withNewcomer jid).groupOrNew "None").2.addIdentity
      ((r.withNewcomer jid).groupOrNew "None").1 r.next).map fun r' => (r.next + 1, r') := by
  unfold personForJID
  rw [h]
  rfl

theorem withNewcomer_sameGroups (r : Roster) (jid : JID) : SameGroups r (r.withNewcomer jid) where
  groups := rfl
  groupsByName := rfl
  group := rfl
  next := Nat.le_add_right _ 2
  person _ hp := update_of_ne (hp.trans (Nat.lt_succ_self _)).ne ..

theorem withNewcomer_keeps (hok : r.Ok) (jid : JID) :
    Keeps jid.jidStringWithNoResource r (r.withNewcomer jid) :=
  (withNewcomer_sameGroups r jid).keeps hok (fun _ hi _ => update_of_ne hi.ne ..)
    fun _ hj => lookup_insert_ne hj

theorem withNewcomer_identity (r : Roster) (jid : JID) :
    (r.withNewcomer jid).identity r.next = ⟨jid.rootJID, jid.user, none⟩ :=
  update_self ..

theorem withNewcomer_person (r : Roster) (jid : JID) :
    (r.withNewcomer jid).person (r.next + 1) =
      ⟨jid.user, none, singleton jid.jidStringWithNoResource r.next⟩ := by
  have h : (r.withNewcomer jid).person (r.next + 1) = ⟨_, _, _⟩ := update_self ..
  rw [h]
  simp only [newIdentity, update_self]
  cases hu : jid.user <;> simp [JabberIdentity.name, JID.jidString, JID.rootJID,
    JID.jidStringWithNoResource, hu]

theorem Inv.personForJID (h : r.Inv s) (hknown : s.Known jid) :
    ∃ q r', r.personForJID jid = some (q, r') ∧ r'.Inv (s.lookUp jid)
      ∧ r'.peopleByJID.lookup jid.jidStringWithNoResource = some q := by
  unfold Standings.lookUp
  cases hs : s jid.jidStringWithNoResource with
  | some st =>
    obtain ⟨p, i, q, hst⟩ := h.stands hs
    refine ⟨q, r, ?_, h, hst.index⟩
    unfold Roster.personForJID
    rw [hst.index]
  | none =>
    obtain ⟨user, huser⟩ := isSome_iff_exists.1 (hknown hs)
    rw [personForJID_of_unknown (h.absent hs), huser]
    have hok₁ := (withNewcomer_sameGroups r jid).ok h.ok
    have hk₁ := withNewcomer_keeps h.ok jid
    have hmember₁ : ∀ {gn pn p i},
        ¬ (r.withNewcomer jid).Member gn pn p jid.jidStringWithNoResource i := by
      intro gn pn p i hm
      obtain ⟨st, hst, -⟩ := h.member (((withNewcomer_sameGroups r jid).member h.ok).1 hm)
      rw [hs] at hst
      cases hst
    have hidentity₁ := withNewcomer_identity r jid
    have hperson₁ := withNewcomer_person r jid
    have hindex₁ : (r.withNewcomer jid).peopleByJID.lookup jid.jidStringWithNoResource
        = some (r.next + 1) := lookup_insert _
    have hnext₁ : (r.withNewcomer jid).next = r.next + 2 := rfl
    generalize r.withNewcomer jid = r₁ at *
    obtain ⟨hok₂, hg, hperson, hidentity, hindex, hnext, hat⟩ := groupOrNew_spec hok₁ "None"
    have hk₂ := groupOrNew_keeps hok₁ "None" jid.jidStringWithNoResource
    generalize r₁.groupOrNew "None" = gr at *
    obtain ⟨g, r₂⟩ := gr
    dsimp only at *
    rw [← hidentity] at hidentity₁
    rw [← hperson] at hperson₁
    have hname : (r₂.identity r.next).name = some user := by
      rw [hidentity₁, huser]
      rfl
    have hjid : (r₂.identity r.next).jid.jidString = jid.jidStringWithNoResource := by
      rw [hidentity₁]
      rfl
    obtain ⟨r₃, p, hadd, hok₃, hk₃, hidentity₃, hindex₃, -, hm, hkept, hmember₃⟩ :=
      addIdentity_spec hok₂ hg hname (by rw [hidentity₁]; rfl) hjid
    have hlt : r.next + 1 < r₂.next := by omega
    refine ⟨r.next + 1, r₃, by rw [hadd]; rfl,
      h.of_keeps ((hk₁.trans hk₂).trans hk₃) hok₃ (fun {_ _ _ i'} hm' => ⟨_, rfl, ?_⟩)
        ?_ nofun, ?_⟩
    · rcases hmember₃ hm' with h | hm'
      · exact h
      · refine (hmember₁ (i := i') ⟨hat.1 hm'.1, ?_⟩).elim
        rw [← hperson]
        exact hm'.2
    · rintro _ ⟨⟩
      exact ⟨p, r.next, r.next + 1, {
        member := hm
        identity_lt := by have := hk₃.next; omega
        jid := by rw [hidentity₃]; exact hjid
        name := by rw [hidentity₃]; exact hname
        group := by rw [hidentity₃, hidentity₁]
        index := by rw [hindex₃, hindex]; exact hindex₁
        index_lt := hlt.trans_le hk₃.next
        index_group := by rw [(hk₃.person _ hlt).1, hperson₁]; rfl
        indexed := hkept _ hlt (by rw [hperson₁]; simp)
        listed := nofun
        ungrouped := fun _ => rfl }⟩
    · rw [hindex₃, hindex]
      exact hindex₁

def withoutGroup (r : Roster) (g : ℕ) : Roster :=
  { r with
    groups := r.groups.filter (· ≠ g)
    groupsByName := r.groupsByName.erase (r.group g).groupName }

theorem withoutGroup_personAt (hok : r.Ok) (hg : r.groupsByName.lookup gn = some g)
    (hempty : (r.group g).people = []) :
    (r.withoutGroup g).PersonAt gn' pn p ↔ r.PersonAt gn' pn p := by
  unfold PersonAt withoutGroup
  simp only [(hok.group hg).1, lookup_erase_iff]
  constructor
  · rintro ⟨g', ⟨-, hg'⟩, hp⟩
    exact ⟨g', hg', hp⟩
  · rintro ⟨g', hg', hp⟩
    refine ⟨g', ⟨?_, hg'⟩, hp⟩
    rintro rfl
    obtain rfl := Option.some.inj (hg'.symm.trans hg)
    have := ((hok.group hg).2.2.2 p).2 ⟨pn, hp⟩
    rw [hempty] at this
    cases this

theorem withoutGroup_member (hok : r.Ok) (hg : r.groupsByName.lookup gn = some g)
    (hempty : (r.group g).people = []) :
    (r.withoutGroup g).Member gn' pn p j i ↔ r.Member gn' pn p j i :=
  and_congr_left fun _ => withoutGroup_personAt hok hg hempty

theorem withoutGroup_ok (hok : r.Ok) (hg : r.groupsByName.lookup gn = some g)
    (hempty : (r.group g).people = []) : (r.withoutGroup g).Ok where
  groups_nodup := hok.groups_nodup.filter _
  mem_groups {g'} := by
    unfold withoutGroup
    simp only [(hok.group hg).1, lookup_erase_iff, mem_filter, hok.mem_groups, decide_not,
      Bool.not_eq_true', decide_eq_false_iff_not]
    constructor
    · rintro ⟨⟨gn', hg'⟩, hne⟩
      refine ⟨gn', ?_, hg'⟩
      rintro rfl
      exact hne (Option.some.inj (hg'.symm.trans hg))
    · rintro ⟨gn', hne, hg'⟩
      refine ⟨⟨gn', hg'⟩, ?_⟩
      rintro rfl
      exact hne (hok.group_unique hg hg')
  group {gn' g'} hg' := by
    unfold withoutGroup at hg'
    exact hok.group (lookup_erase_iff.1 hg').2
  person hp := hok.person ((withoutGroup_personAt hok hg hempty).1 hp)

theorem withoutGroup_keeps (hok : r.Ok) (hg : r.groupsByName.lookup gn = some g)
    (hempty : (r.group g).people = []) : Keeps j r (r.withoutGroup g) where
  next := le_rfl
  identity _ _ _ := rfl
  person _ _ := ⟨rfl, fun _ _ => rfl⟩
  member _ := withoutGroup_member hok hg hempty
  index _ _ := rfl

theorem identityForJID_of_bare {person : JabberPerson} (h : jid.resource = none) :
    person.identityForJID jid = person.identities.lookup jid.jidStringWithNoResource := by
  unfold JabberPerson.identityForJID JID.jidString
  rw [h]
  dsimp only
  cases person.identities.lookup jid.jidStringWithNoResource <;> simp

def forgetPersonForJID (j : String) (r : Roster) : Roster :=
  { r with peopleByJID := r.peopleByJID.erase j }

theorem forgetPersonForJID_sameGroups (j : String) (r : Roster) :
    SameGroups r (r.forgetPersonForJID j) := ⟨rfl, rfl, rfl, le_rfl, fun _ _ => rfl⟩

theorem forgetPersonForJID_keeps (hok : r.Ok) (j : String) : Keeps j r (r.forgetPersonForJID j) :=
  (forgetPersonForJID_sameGroups j r).keeps hok (fun _ _ _ => rfl)
    fun _ hj => AList.lookup_erase_ne hj

theorem Inv.remove (h : r.Inv s) (hok : r'.Ok) (hk : Keeps j r r')
    (hmember : ∀ {gn pn p i}, ¬ r'.Member gn pn p j i) (hindex : r'.peopleByJID.lookup j = none) :
    r'.Inv (update s j none) :=
  h.of_keeps hk hok (fun hm => (hmember hm).elim) nofun fun _ => hindex

theorem lookUp_self (hknown : s.Known jid) :
    ∃ st, s.lookUp jid jid.jidStringWithNoResource = some st := by
  unfold Standings.lookUp
  cases hs : s jid.jidStringWithNoResource with
  | some st => exact ⟨st, hs⟩
  | none =>
    obtain ⟨user, huser⟩ := isSome_iff_exists.1 (hknown hs)
    simp [huser]

theorem lookUp_update (s : Standings) (jid : JID) (x : Option Standing) :
    update (s.lookUp jid) jid.jidStringWithNoResource x
      = update s jid.jidStringWithNoResource x := by
  unfold Standings.lookUp
  split
  · rfl
  · rw [update_idem]

theorem Inv.removeItem (h : r.Inv s) (hbare : jid.resource = none)
    (hknown : s.Known jid) : ∃ r', r.removeItem jid = some r'
      ∧ r'.Inv (update s jid.jidStringWithNoResource none) := by
  obtain ⟨q, r₁, hperson, h₁, hindex⟩ := h.personForJID hknown
  obtain ⟨st, hst⟩ := lookUp_self hknown
  obtain ⟨p, i, q', hs⟩ := h₁.stands hst
  obtain rfl : q = q' := Option.some.inj (hindex.symm.trans hs.index)
  obtain ⟨g, hg, hp⟩ := hs.member.1
  rw [← lookUp_update]
  generalize s.lookUp jid = s₁ at h₁ hst ⊢
  unfold Roster.removeItem
  rw [hperson, map_some]
  refine ⟨_, rfl, ?_⟩
  dsimp only [groupNamed]
  rw [hs.index_group, hg, identityForJID_of_bare hbare, hs.indexed]
  dsimp only
  obtain ⟨hok₂, hk₂, -, -, hnames, hmember⟩ :=
    removeIdentity_spec h₁.ok hg hs.name hp hs.jid
  have hnone : ∀ {gn pn p i'}, ¬ (r₁.removeIdentity g (some i)).Member gn pn p
      jid.jidStringWithNoResource i' := by
    intro gn pn p i' hm
    obtain ⟨hm, hnot⟩ := hmember hm
    obtain ⟨st', hst', hgn, hpn⟩ := h₁.member hm
    obtain rfl := Option.some.inj (hst'.symm.trans hst)
    exact hnot ⟨hgn, hpn⟩
  generalize r₁.removeIdentity g (some i) = r₂ at hok₂ hk₂ hnames hnone ⊢
  have hsame := forgetPersonForJID_sameGroups jid.jidStringWithNoResource r₂
  have hok₃ := hsame.ok hok₂
  have hk₃ := hk₂.trans (forgetPersonForJID_keeps hok₂ jid.jidStringWithNoResource)
  have hnone₃ : ∀ {gn pn p i'}, ¬ (r₂.forgetPersonForJID jid.jidStringWithNoResource).Member gn pn
      p jid.jidStringWithNoResource i' := fun hm => hnone ((hsame.member hok₂).1 hm)
  have hindex₃ : (r₂.forgetPersonForJID jid.jidStringWithNoResource).peopleByJID.lookup
      jid.jidStringWithNoResource = none := lookup_erase ..
  have hg₃ : (r₂.forgetPersonForJID jid.jidStringWithNoResource).groupsByName.lookup st.groupName
      = some g := by
    rw [hsame.groupsByName, hnames]
    exact hg
  change Roster.Inv (if ((r₂.forgetPersonForJID jid.jidStringWithNoResource).group g).people.length
      = 0 then (r₂.forgetPersonForJID jid.jidStringWithNoResource).withoutGroup g
    else r₂.forgetPersonForJID jid.jidStringWithNoResource) _
  generalize r₂.forgetPersonForJID jid.jidStringWithNoResource = r₃ at *
  split_ifs with hlength
  · have hempty := eq_nil_of_length_eq_zero hlength
    refine h₁.remove (withoutGroup_ok hok₃ hg₃ hempty)
      (hk₃.trans (withoutGroup_keeps hok₃ hg₃ hempty)) (fun hm => ?_) hindex₃
    exact hnone₃ ((withoutGroup_member hok₃ hg₃ hempty).1 hm)
  · exact h₁.remove hok₃ hk₃ hnone₃ hindex₃

theorem eq_of_isEqualToString {a b : Option String} (h : isEqualToString a b = true) :
    a = b ∧ a ≠ none := by
  cases a <;> cases b <;> simp_all [isEqualToString]

theorem Inv.leave {st : Standing} {q : ℕ} (h : r.Inv s) (hs : s j = some st)
    (hst : r.Stands j st p i q) :
    (r.leaveGroup i).Ok ∧ Keeps j r (r.leaveGroup i) ∧ (r.leaveGroup i).identity = r.identity
      ∧ ∀ {gn pn p i'}, (r.leaveGroup i).Member gn pn p j i' →
        st.group = none ∧ gn = "None" ∧ pn = st.name := by
  unfold leaveGroup
  rw [hst.group]
  cases hgroup : st.group with
  | none =>
    refine ⟨h.ok, Keeps.refl j r, rfl, fun hm => ?_⟩
    obtain ⟨st', hst', hgn, hpn⟩ := h.member hm
    obtain rfl := Option.some.inj (hst'.symm.trans hs)
    exact ⟨rfl, by rw [hgn, Standing.groupName, hgroup]; rfl, hpn⟩
  | some gn =>
    have hgn : st.groupName = gn := by rw [Standing.groupName, hgroup]; rfl
    obtain ⟨g, hg, hp⟩ := hst.member.1
    obtain ⟨hok, hk, hidentity, -, -, hmember⟩ :=
      removeIdentity_spec h.ok hg hst.name hp hst.jid
    rw [← hgn, NSMutableDictionary.objectForKey, bind_some, hg]
    refine ⟨hok, hk, hidentity, fun hm => ?_⟩
    obtain ⟨hm, hnot⟩ := hmember hm
    obtain ⟨st', hst', hgn', hpn'⟩ := h.member hm
    obtain rfl := Option.some.inj (hst'.symm.trans hs)
    exact (hnot ⟨hgn', hpn'⟩).elim

theorem Inv.addItem {item : RosterItem} {name : String} (h : r.Inv s)
    (hname : item.identity.name = some name)
    (hstay : ∀ st, s item.jid.jidStringWithNoResource = some st → st.group = none →
      item.identity.name = some st.name ∧ item.group.getD "None" = "None") :
    ∃ r', r.addItem item = some r' ∧ r'.Inv (update s item.jid.jidStringWithNoResource
      (some ⟨name, item.group, false⟩)) := by
  have hjid : item.jid.jidString = item.jid.jidStringWithNoResource := by
    rw [JID.jidString, item.bare]
  unfold Roster.addItem
  rw [hjid]
  cases hs : s item.jid.jidStringWithNoResource with
  | none =>
    rw [h.absent hs]
    have hsame := newIdentity_sameGroups item.identity r
    have hidentity : (r.newIdentity item.identity).2.identity r.next = item.identity :=
      update_self ..
    refine h.place (hsame.ok h.ok) (newIdentity_keeps h.ok item.identity) (Nat.lt_succ_self _)
      ?_ ?_ rfl rfl ?_ fun hm => ?_
    · exact (congrArg JabberIdentity.name hidentity).trans hname
    · exact congrArg JabberIdentity.group hidentity
    · exact (congrArg (fun identity => identity.jid.jidString) hidentity).trans hjid
    · obtain ⟨st, hst, -⟩ := h.member ((hsame.member h.ok).1 hm)
      rw [hs] at hst
      cases hst
  | some st =>
    obtain ⟨p, i, q, hst⟩ := h.stands hs
    rw [hst.index, bind_some, identityForJID_of_bare item.bare, hst.indexed]
    dsimp only
    split_ifs with hequal
    · obtain ⟨hn, -⟩ := eq_of_isEqualToString hequal.1
      obtain ⟨hg, hne⟩ := eq_of_isEqualToString hequal.2
      rw [hst.name, hname] at hn
      rw [hst.group] at hg hne
      have hlisted : st.lookedUp = false := by
        cases hl : st.lookedUp with
        | false => rfl
        | true => exact (hne (hst.ungrouped hl)).elim
      refine ⟨r, rfl, ?_⟩
      have : (⟨name, item.group, false⟩ : Standing) = st := by
        rw [← hg, ← Option.some.inj hn, ← hlisted]
      rw [this, ← hs, update_eq_self]
      exact h
    · obtain ⟨hok₁, hk₁, hidentity₁, hmember₁⟩ := h.leave hs hst
      generalize r.leaveGroup i = r₁ at *
      have hsame := setIdentity_sameGroups i item.identity.name item.group r₁
      have hidentity : (r₁.setIdentity i item.identity.name item.group).identity i
          = ⟨(r.identity i).jid, some name, item.group⟩ := by
        rw [← hname, ← hidentity₁]
        exact update_self ..
      refine h.place (hsame.ok hok₁) (hk₁.trans (setIdentity_keeps hok₁ ?_ _ _))
        (hst.identity_lt.trans_le hk₁.next) ?_ ?_ rfl rfl ?_ fun hm => ?_
      · rw [hidentity₁]
        exact hst.jid
      · rw [hidentity]
        rfl
      · rw [hidentity]
      · rw [hidentity]
        exact hst.jid
      · obtain ⟨hgroup, hgn, hpn⟩ := hmember₁ ((hsame.member hok₁).1 hm)
        obtain ⟨hn, hnone⟩ := hstay st hs hgroup
        rw [hname] at hn
        exact ⟨hgn.trans hnone.symm, hpn.trans (Option.some.inj hn).symm⟩

theorem Inv.addRosterItem {item : RosterItem} (h : r.Inv s) (hC : s.ProperItem item) :
    ∃ r', r.addRosterItem item = some r' ∧ r'.Inv (s.push item) := by
  unfold Standings.ProperItem at hC
  unfold Roster.addRosterItem Standings.push
  split_ifs at hC ⊢ with hremoved
  · exact h.removeItem item.bare hC
  · obtain ⟨name, hname⟩ := isSome_iff_exists.1 hC.1
    rw [hname]
    exact h.addItem hname hC.2

theorem Inv.addRosterFromQuery : ∀ (items : List RosterItem) {r : Roster} {s : Standings},
    r.Inv s → Along Standings.push Standings.ProperItem s items →
      ∃ r', r.addRosterFromQuery items = some r' ∧ r'.Inv (items.foldl Standings.push s)
  | [], r, _, h, _ => ⟨r, rfl, h⟩
  | item :: items, r, s, h, ⟨hC, hrest⟩ => by
    obtain ⟨r₁, hr₁, h₁⟩ := h.addRosterItem hC
    obtain ⟨r₂, hr₂, h₂⟩ := Inv.addRosterFromQuery items h₁ hrest
    refine ⟨r₂, ?_, h₂⟩
    rw [Roster.addRosterFromQuery, foldlM_cons, hr₁]
    exact hr₂

theorem Inv.handle {e : Event} (h : r.Inv s) (hC : s.Proper e) :
    ∃ r', r.handle e = some r' ∧ r'.Inv (s.after e) := by
  cases e with
  | rosterQuery items => exact Inv.addRosterFromQuery items h hC
  | personForJID jid =>
    obtain ⟨q, r', hr', h', -⟩ := h.personForJID hC
    refine ⟨r', ?_, h'⟩
    rw [Roster.handle, hr']
    rfl

theorem inv_empty : empty.Inv fun _ => none where
  ok := ⟨nodup_nil, by simp [empty], by simp [empty], by simp [PersonAt, empty]⟩
  member := by simp [Member, PersonAt, empty]
  stands := nofun
  absent := by simp [empty]

theorem Ok.personAt_of_mem (h : r.Ok) (hg : g ∈ r.groups) (hp : p ∈ (r.group g).people) :
    ∃ gn pn, r.groupsByName.lookup gn = some g ∧ (r.group g).peopleByName.lookup pn = some p
      ∧ r.PersonAt gn pn p := by
  obtain ⟨gn, hgn⟩ := h.mem_groups.1 hg
  obtain ⟨pn, hpn⟩ := ((h.group hgn).2.2.2 p).1 hp
  exact ⟨gn, pn, hgn, hpn, g, hgn, hpn⟩

theorem Ok.disjoint (h : r.Ok) (hg : g ∈ r.groups) (hg' : g' ∈ r.groups)
    (hp : p ∈ (r.group g).people) (hp' : p ∈ (r.group g').people) : g = g' := by
  obtain ⟨gn, pn, hgn, -, hat⟩ := h.personAt_of_mem hg hp
  obtain ⟨gn', pn', hgn', -, hat'⟩ := h.personAt_of_mem hg' hp'
  obtain ⟨rfl, -⟩ := h.personAt_unique hat hat'
  exact Option.some.inj (hgn.symm.trans hgn')

theorem Inv.mirrors (h : r.Inv s) : r.Mirrors s where
  listed {j st} hs := by
    obtain ⟨p, i, q, hst⟩ := h.stands hs
    obtain ⟨g, hg, hp⟩ := hst.member.1
    obtain ⟨hname, hgroup, -⟩ := h.ok.person hst.member.1
    have hmem : g ∈ r.groups := h.ok.mem_groups.2 ⟨_, hg⟩
    have hpmem : p ∈ (r.group g).people := ((h.ok.group hg).2.2.2 p).2 ⟨_, hp⟩
    refine ⟨g, p, i, fun g' hg' p' hp' => ⟨fun hj => ?_, ?_⟩, hmem, hpmem,
      fun g' hg' hp' => h.ok.disjoint hg' hmem hp' hpmem, (h.ok.group hg).1, ?_, hname,
      hst.member.2, hst.name, hst.group, fun hl => ?_⟩
    · obtain ⟨gn, pn, hgn, hpn, hat⟩ := h.ok.personAt_of_mem hg' hp'
      obtain ⟨i', hi'⟩ := isSome_iff_exists.1 (lookup_isSome.2 hj)
      obtain ⟨st', hst', rfl, rfl⟩ := h.member ⟨hat, hi'⟩
      obtain rfl := Option.some.inj (hst'.symm.trans hs)
      obtain rfl := Option.some.inj (hgn.symm.trans hg)
      exact ⟨rfl, Option.some.inj (hpn.symm.trans hp)⟩
    · rintro ⟨rfl, rfl⟩
      exact lookup_isSome.1 (isSome_iff_exists.2 ⟨i, hst.member.2⟩)
    · rw [groupNamed, hgroup]
      exact hg
    · rw [← hst.listed hl]
      exact hst.index
  absent {j} hs := by
    refine ⟨h.absent hs, fun g hg p hp hj => ?_⟩
    obtain ⟨gn, pn, -, -, hat⟩ := h.ok.personAt_of_mem hg hp
    obtain ⟨i, hi⟩ := isSome_iff_exists.1 (lookup_isSome.2 hj)
    obtain ⟨st, hst, -⟩ := h.member ⟨hat, hi⟩
    rw [hs] at hst
    cases hst
  groups _ := h.ok.mem_groups
  groupName hg := (h.ok.group hg).1
  groups_nodup := h.ok.groups_nodup
  people_nodup g hg := by
    obtain ⟨gn, hgn⟩ := h.ok.mem_groups.1 hg
    exact (h.ok.group hgn).2.2.1
  people_disjoint _ hg _ hg' _ hp hp' := h.ok.disjoint hg hg' hp hp'

def step (state : Roster × Standings) (e : Event) : Roster × Standings :=
  ((state.1.handle e).getD state.1, state.2.after e)

def ProperEvent (state : Roster × Standings) (e : Event) : Prop := state.2.Proper e

def HandlesWell (state : Roster × Standings) (e : Event) : Prop :=
  ∃ r, state.1.handle e = some r ∧ r.Mirrors (state.2.after e)

/-- The roster mirrors the server throughout every run in which a JID without a group stays where
it is until it is removed, and every JID has a name. -/
theorem roster_mirrors {events : List Event}
    (h : Along step ProperEvent (empty, fun _ => none) events) :
    Along step HandlesWell (empty, fun _ => none) events := by
  refine Along.of_invariant (I := fun state => state.1.Inv state.2) (fun state e hs hC => ?_)
    inv_empty h
  obtain ⟨r', hr', h'⟩ := hs.handle hC
  refine ⟨⟨r', hr', h'.mirrors⟩, ?_⟩
  unfold step
  rw [hr']
  exact h'

def juliet : JID := ⟨some "juliet", "example.com", none⟩

def nurse : JID := ⟨some "nurse", "example.com", some "balcony"⟩

def julietIn (group : Option String) : RosterItem := ⟨juliet, some "Juliet", group, false, rfl⟩

theorem roster_mirrors_juliet : Along step HandlesWell (empty, fun _ => none)
    [.rosterQuery [julietIn (some "Friends")], .personForJID nurse,
      .rosterQuery [julietIn none, ⟨nurse.rootJID, none, none, true, rfl⟩],
      .rosterQuery [⟨juliet, none, none, true, rfl⟩]] := by
  refine roster_mirrors ⟨⟨⟨rfl, nofun⟩, trivial⟩, fun _ => rfl, ⟨⟨rfl, fun st hst hg => ?_⟩,
    fun _ => rfl, trivial⟩, ⟨fun _ => rfl, trivial⟩, trivial⟩
  cases hst
  cases hg

/-- Juliet gets a group, and stays in the group `None` as well. -/
theorem julietIn_friends_not_mirrored : ¬ Along step HandlesWell (empty, fun _ => none)
    [.rosterQuery [julietIn none], .rosterQuery [julietIn (some "Friends")]] := by
  rintro ⟨-, ⟨r, hr, h⟩, -⟩
  have hgroups : some [1, 3] = some r.groups := congrArg (Option.map Roster.groups) hr
  have hpeople : some ([2], [4]) = some ((r.group 1).people, (r.group 3).people) :=
    congrArg (Option.map fun r : Roster => ((r.group 1).people, (r.group 3).people)) hr
  have hkeys : some (["juliet@example.com"], ["juliet@example.com"])
      = some ((r.person 2).identities.keys, (r.person 4).identities.keys) :=
    congrArg (Option.map fun r : Roster =>
      ((r.person 2).identities.keys, (r.person 4).identities.keys)) hr
  simp only [Option.some.injEq, Prod.mk.injEq] at hgroups hpeople hkeys
  obtain ⟨g, p, i, hiff, -⟩ := h.listed (j := "juliet@example.com") rfl
  rw [← hgroups] at hiff
  have h₁ := (hiff 1 (by simp) 2 (by simp [← hpeople.1])).1 (by simp [AList.mem_keys, ← hkeys.1])
  have h₂ := (hiff 3 (by simp) 4 (by simp [← hpeople.2])).1 (by simp [AList.mem_keys, ← hkeys.2])
  omega

end Roster

end Etoile.XMPP
