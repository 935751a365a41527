import Etoile.XMPP.Connection

/-!
# Parsing of JIDs

The separators are looked for in the whole string, independently of each other.
-/

namespace Etoile.XMPP

open List Option

structure Strings where
  toLower : Char → NSString
  compare : NSString → NSString → Ordering
  hash : NSString → ℕ
  toLower_ne_nil : ∀ c, toLower c ≠ []
  separator : ∀ s ∈ ['@', '/'], toLower s = [s] ∧ ∀ c, s ∈ toLower c → c = s
  toLower_toLower : ∀ c, ∀ d ∈ toLower c, toLower d = [d]
  compare_self : ∀ s, compare s s = .eq

def Strings.lowercaseString (S : Strings) (s : NSString) : NSString := s.flatMap S.toLower

inductive JIDType
  | serverJID
  | serverResourceJID
  | userJID
  | resourceJID
deriving DecidableEq

/-- A JID after it was initialised; the strings are made of the parts. -/
structure JabberID where
  type : JIDType
  user : Option NSString
  server : NSString
  resource : Option NSString
deriving DecidableEq

namespace JabberID

variable (S : Strings) (jid : JabberID)

def getJIDStringWithNoResource : NSString :=
  match jid.type with
  | .serverJID | .serverResourceJID => jid.server
  | .userJID | .resourceJID => jid.user.getD [] ++ '@' :: jid.server

def getJIDString : NSString :=
  match jid.type with
  | .serverJID => jid.server
  | .serverResourceJID => jid.server ++ '/' :: jid.resource.getD []
  | .userJID => jid.user.getD [] ++ '@' :: jid.server
  | .resourceJID => jid.user.getD [] ++ '@' :: jid.server ++ '/' :: jid.resource.getD []

/-- `-initWithString:`. A slash before the at sign makes the length of a range negative, which as
a number without sign is out of range: it raises. -/
def initWithString (string : NSString) : Option JabberID :=
  let string := S.lowercaseString string
  match string.idxOf? '@', string.idxOf? '/' with
  | none, none => some ⟨.serverJID, none, string, none⟩
  | none, some slash =>
    some ⟨.serverResourceJID, none, string.take slash, some (string.drop (slash + 1))⟩
  | some location, none =>
    some ⟨.userJID, some (string.take location), string.drop (location + 1), none⟩
  | some location, some slash =>
    if slash < location + 1 then none
    else some ⟨.resourceJID, some (string.take location),
      (string.drop (location + 1)).take (slash - (location + 1)), some (string.drop (slash + 1))⟩

def rootJID : Option JabberID := initWithString S jid.getJIDStringWithNoResource

def compare (other : JabberID) : Ordering := S.compare jid.getJIDString other.getJIDString

def hash : ℕ := S.hash jid.getJIDString

def isEqualToJID (other : JabberID) : Bool :=
  jid.type == other.type && jid.getJIDString == other.getJIDString

end JabberID

structure JIDParts where
  user : Option NSString
  domain : NSString
  resource : Option NSString
  user_proper : ∀ u ∈ user, u ≠ [] ∧ '@' ∉ u ∧ '/' ∉ u
  domain_proper : domain ≠ [] ∧ '@' ∉ domain ∧ '/' ∉ domain
  resource_ne_nil : ∀ r ∈ resource, r ≠ []

namespace JIDParts

def withNoResource (p : JIDParts) : NSString :=
  match p.user with
  | some user => user ++ '@' :: p.domain
  | none => p.domain

def written (p : JIDParts) : NSString :=
  match p.resource with
  | some resource => p.withNoResource ++ '/' :: resource
  | none => p.withNoResource

/-- What is said of the JID that is initialised from the string of the parts. -/
def Consistent (S : Strings) (p : JIDParts) : Prop :=
  ∃ jid root : JabberID, JabberID.initWithString S p.written = some jid
    ∧ jid.user = p.user.map S.lowercaseString ∧ jid.server = S.lowercaseString p.domain
    ∧ jid.resource = p.resource.map S.lowercaseString
    ∧ jid.getJIDString = S.lowercaseString p.written
    ∧ jid.rootJID S = some root ∧ root.user = jid.user ∧ root.server = jid.server
    ∧ root.resource = none ∧ root.rootJID S = some root
    ∧ ∀ string other, JabberID.initWithString S string = some other →
      (jid.isEqualToJID other = true ↔ jid.getJIDString = other.getJIDString)
      ∧ (jid.isEqualToJID other = true → jid.hash S = other.hash S ∧ jid.compare S other = .eq)

def jid (p : JIDParts) : JabberID :=
  ⟨match p.user, p.resource with
    | none, none => .serverJID
    | none, some _ => .serverResourceJID
    | some _, none => .userJID
    | some _, some _ => .resourceJID, p.user, p.domain, p.resource⟩

end JIDParts

theorem idxOf?_append {a : Char} : ∀ {l r : NSString}, a ∉ l →
    (l ++ a :: r).idxOf? a = some l.length
  | [], r, _ => by simp [idxOf?_cons]
  | b :: l, r, h => by
    obtain ⟨hb, hl⟩ := not_or.1 (mt mem_cons.2 h)
    rw [cons_append, idxOf?_cons, if_neg (by simpa using Ne.symm hb), idxOf?_append hl]
    rfl

theorem take_cons_drop {a : Char} {l : NSString} {i : ℕ} (h : l.idxOf? a = some i) :
    l.take i ++ a :: l.drop (i + 1) = l := by
  obtain ⟨hi, rfl, -⟩ := idxOf?_eq_some_iff.1 h
  rw [← drop_eq_getElem_cons hi, take_append_drop]

variable {S : Strings} {p : JIDParts}

@[simp] theorem lowercaseString_append (s t : NSString) :
    S.lowercaseString (s ++ t) = S.lowercaseString s ++ S.lowercaseString t := flatMap_append

theorem lowercaseString_separator {c : Char} (hc : c ∈ ['@', '/']) (s : NSString) :
    S.lowercaseString (c :: s) = c :: S.lowercaseString s := by
  rw [Strings.lowercaseString, flatMap_cons, (S.separator c hc).1]
  rfl

variable {s : NSString}

theorem mem_lowercaseString {c : Char} (hc : c ∈ ['@', '/']) : c ∈ S.lowercaseString s ↔ c ∈ s := by
  rw [Strings.lowercaseString, mem_flatMap]
  constructor
  · rintro ⟨d, hd, hcd⟩
    exact (S.separator c hc).2 d hcd ▸ hd
  · exact fun h => ⟨c, h, by simp [(S.separator c hc).1]⟩

theorem lowercaseString_ne_nil (h : s ≠ []) : S.lowercaseString s ≠ [] := by
  rcases s with _ | ⟨c, s⟩
  · exact absurd rfl h
  · simp [Strings.lowercaseString, S.toLower_ne_nil c]

theorem lowercaseString_lowercaseString (s : NSString) :
    S.lowercaseString (S.lowercaseString s) = S.lowercaseString s := by
  have h : ∀ d ∈ S.lowercaseString s, S.toLower d = [d] := by
    intro d hd
    obtain ⟨c, -, hcd⟩ := mem_flatMap.1 hd
    exact S.toLower_toLower c d hcd
  conv_lhs => rw [Strings.lowercaseString, flatMap_congr h]
  simp

def JIDParts.lowercase (S : Strings) (p : JIDParts) : JIDParts where
  user := p.user.map S.lowercaseString
  domain := S.lowercaseString p.domain
  resource := p.resource.map S.lowercaseString
  user_proper u hu := by
    obtain ⟨v, hv, rfl⟩ := map_eq_some_iff.1 hu
    simpa [mem_lowercaseString] using ⟨lowercaseString_ne_nil (p.user_proper v hv).1,
      (p.user_proper v hv).2⟩
  domain_proper := by
    simpa [mem_lowercaseString] using ⟨lowercaseString_ne_nil p.domain_proper.1,
      p.domain_proper.2⟩
  resource_ne_nil r hr := by
    obtain ⟨q, hq, rfl⟩ := map_eq_some_iff.1 hr
    exact lowercaseString_ne_nil (p.resource_ne_nil q hq)

theorem lowercaseString_withNoResource :
    S.lowercaseString p.withNoResource = (p.lowercase S).withNoResource := by
  rcases hu : p.user with _ | u <;>
    simp [JIDParts.withNoResource, JIDParts.lowercase, hu, lowercaseString_separator]

theorem lowercaseString_written : S.lowercaseString p.written = (p.lowercase S).written := by
  rcases hr : p.resource with _ | r <;>
    simp [JIDParts.written, hr, lowercaseString_withNoResource, lowercaseString_separator,
      JIDParts.lowercase]

theorem initWithString_eq (hs : S.lowercaseString s = p.written)
    (hp : p.user = none → ∀ r ∈ p.resource, '@' ∉ r) :
    JabberID.initWithString S s = some p.jid := by
  obtain ⟨-, hat, hslash⟩ := p.domain_proper
  unfold JabberID.initWithString
  rw [hs]
  rcases hu : p.user with _ | u <;> rcases hr : p.resource with _ | r <;>
    simp only [JIDParts.written, JIDParts.withNoResource, JIDParts.jid, hu, hr]
  · rw [idxOf?_eq_none_iff.2 hat, idxOf?_eq_none_iff.2 hslash]
  · have hnone : '@' ∉ p.domain ++ '/' :: r := by simpa [hat] using hp hu r hr
    rw [idxOf?_eq_none_iff.2 hnone, idxOf?_append hslash]
    simp
  · obtain ⟨-, huat, huslash⟩ := p.user_proper u hu
    have hnone : '/' ∉ u ++ '@' :: p.domain := by simpa [huslash] using hslash
    rw [idxOf?_append huat, idxOf?_eq_none_iff.2 hnone]
    simp
  · obtain ⟨-, huat, huslash⟩ := p.user_proper u hu
    have hnone : '/' ∉ u ++ '@' :: p.domain := by simpa [huslash] using hslash
    rw [idxOf?_append hnone, append_assoc, cons_append, idxOf?_append huat]
    have hlength : (u ++ '@' :: p.domain).length = u.length + 1 + p.domain.length := by
      simp
      omega
    simp only [hlength]
    rw [if_neg (by omega)]
    have hdrop : (u ++ '@' :: (p.domain ++ '/' :: r)).drop (u.length + 1 + p.domain.length + 1)
        = r := by
      rw [show u ++ '@' :: (p.domain ++ '/' :: r) = (u ++ '@' :: p.domain ++ ['/']) ++ r by simp]
      exact drop_left' (by simp; omega)
    rw [hdrop]
    simp

theorem initWithString_eq_none {r : NSString} (hu : p.user = none) (hr : p.resource = some r)
    (h : '@' ∈ r) : JabberID.initWithString S p.written = none := by
  obtain ⟨-, hat, hslash⟩ := (p.lowercase S).domain_proper
  have hmem : '@' ∈ (p.lowercase S).domain ++ '/' :: S.lowercaseString r := by
    simpa [hat] using (mem_lowercaseString (by simp)).2 h
  unfold JabberID.initWithString
  rw [lowercaseString_written]
  simp only [JIDParts.written, JIDParts.withNoResource, JIDParts.lowercase, hu, hr,
    map_some, map_none] at hat hslash hmem ⊢
  rw [idxOf?_append hslash]
  rcases hi : (S.lowercaseString p.domain ++ '/' :: S.lowercaseString r).idxOf? '@' with _ | i
  · exact absurd hmem (idxOf?_eq_none_iff.1 hi)
  · obtain ⟨hlt, hget, -⟩ := idxOf?_eq_some_iff.1 hi
    refine if_pos (Nat.lt_succ_of_le (Nat.not_lt.1 fun hbefore => hat ?_))
    rw [getElem_append_left hbefore] at hget
    exact hget ▸ getElem_mem _

theorem getJIDString_jid : p.jid.getJIDString = p.written := by
  rcases hu : p.user with _ | u <;> rcases hr : p.resource with _ | r <;>
    simp [JabberID.getJIDString, JIDParts.jid, JIDParts.written, JIDParts.withNoResource, hu, hr]

theorem getJIDStringWithNoResource_jid : p.jid.getJIDStringWithNoResource = p.withNoResource := by
  rcases hu : p.user with _ | u <;> rcases hr : p.resource with _ | r <;>
    simp [JabberID.getJIDStringWithNoResource, JIDParts.jid, JIDParts.withNoResource, hu, hr]

theorem getJIDString_of_initWithString {jid : JabberID}
    (h : JabberID.initWithString S s = some jid) : jid.getJIDString = S.lowercaseString s := by
  unfold JabberID.initWithString at h
  set t := S.lowercaseString s
  rcases hat : t.idxOf? '@' with _ | i <;> rcases hslash : t.idxOf? '/' with _ | k <;>
    simp only [hat, hslash, some.injEq] at h
  · rw [← h]
    rfl
  · rw [← h]
    exact take_cons_drop hslash
  · rw [← h]
    exact take_cons_drop hat
  · split_ifs at h with hlt
    rw [← some.inj h]
    obtain ⟨hi, -, -⟩ := idxOf?_eq_some_iff.1 hat
    have hlength : (t.take i).length = i := length_take_of_le (Nat.le_of_lt hi)
    have htake : t.take k = t.take i ++ '@' :: (t.drop (i + 1)).take (k - (i + 1)) := by
      conv_lhs => rw [← take_cons_drop hat]
      rw [take_append, take_of_length_le (by omega), hlength,
        show k - i = k - (i + 1) + 1 by omega, take_succ_cons]
    have hwhole := take_cons_drop hslash
    rwa [htake] at hwhole

theorem lowercase_proper (h : p.user = none → ∀ r ∈ p.resource, '@' ∉ r) :
    (p.lowercase S).user = none → ∀ r ∈ (p.lowercase S).resource, '@' ∉ r := by
  intro hu r hr
  obtain ⟨q, hq, rfl⟩ := map_eq_some_iff.1 hr
  exact mt (mem_lowercaseString (by simp)).1 (h (map_eq_none_iff.1 hu) q hq)

def JIDParts.root (p : JIDParts) : JIDParts := { p with resource := none, resource_ne_nil := nofun }

theorem rootJID_jid {q : JIDParts} (hq : (p.lowercase S).withNoResource = q.withNoResource) :
    q.jid.rootJID S = some (p.lowercase S).root.jid := by
  rw [JabberID.rootJID, getJIDStringWithNoResource_jid, ← hq, ← lowercaseString_withNoResource]
  refine initWithString_eq ?_ nofun
  rw [lowercaseString_lowercaseString, lowercaseString_withNoResource]
  rfl

theorem isEqualToJID_iff {s t : NSString} {jid other : JabberID}
    (hs : JabberID.initWithString S s = some jid) (ht : JabberID.initWithString S t = some other) :
    jid.isEqualToJID other = true ↔ jid.getJIDString = other.getJIDString := by
  refine ⟨fun h => ?_, fun h => ?_⟩
  · simp only [JabberID.isEqualToJID, Bool.and_eq_true, beq_iff_eq] at h
    exact h.2
  · rw [getJIDString_of_initWithString hs, getJIDString_of_initWithString ht] at h
    unfold JabberID.initWithString at hs ht
    rw [h] at hs
    obtain rfl := some.inj (hs.symm.trans ht)
    simp [JabberID.isEqualToJID]

/-- A JID is parsed and printed as it should be just if it has a user or no at sign in the
resource. -/
theorem jid_consistent_iff (S : Strings) (p : JIDParts) :
    p.Consistent S ↔ (p.user = none → ∀ r ∈ p.resource, '@' ∉ r) := by
  constructor
  · rintro ⟨jid, root, hjid, -⟩ hu r hr hmem
    rw [initWithString_eq_none hu hr hmem] at hjid
    cases hjid
  · intro h
    have hinit := initWithString_eq lowercaseString_written (lowercase_proper (S := S) h)
    refine ⟨_, _, hinit, rfl, rfl, rfl, ?_, rootJID_jid rfl, rfl, rfl, rfl, rootJID_jid rfl, ?_⟩
    · rw [getJIDString_jid, lowercaseString_written]
    · intro string other hother
      have hiff := isEqualToJID_iff hinit hother
      refine ⟨hiff, fun hequal => ?_⟩
      rw [JabberID.hash, JabberID.compare, hiff.1 hequal]
      exact ⟨rfl, S.compare_self _⟩

def lowerStrings : Strings where
  toLower c := [c]
  compare s t := if s = t then .eq else .lt
  hash := length
  toLower_ne_nil := by simp
  separator := by simp
  toLower_toLower := by simp
  compare_self := by simp

/-- `b/c@d`, where the at sign is after the slash. -/
def serverWithAt : JIDParts where
  user := none
  domain := ['b']
  resource := some ['c', '@', 'd']
  user_proper := nofun
  domain_proper := by simp
  resource_ne_nil := by simp

theorem not_jid_consistent : ¬∀ S p, JIDParts.Consistent S p := by
  intro h
  obtain ⟨jid, root, hjid, -⟩ := h lowerStrings serverWithAt
  rw [initWithString_eq_none (r := ['c', '@', 'd']) rfl rfl (by simp)] at hjid
  cases hjid

end Etoile.XMPP
