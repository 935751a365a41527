import Etoile.Lib.DoublyLinked
import Etoile.Lucene.IndexSearcher

/-!
# The hits of a query

`LCHits` fetches the ranking in batches, each at least twice as long as the hit that is asked for,
and keeps the documents of the hits that were used last.
-/

namespace Etoile.Lucene

open Function List

variable {F V D : Type}

structure HitDocument (F : Type) where
  score : F
  identifier : ℤ

/-- `prev`, `next` and `doc` of the hit documents are kept by their places in `hitDocs`. -/
structure Hits (F D : Type) where
  length : ℕ
  hitDocs : List (HitDocument F)
  links : LinkedCells ℕ
  document : ℕ → Option D
  numDocs : ℤ

/-- What an `LCHits` is asked for, a hit number in each case. -/
inductive HitAccess
  | document (n : ℕ)
  | score (n : ℕ)
  | identifier (n : ℕ)

def HitAccess.hit : HitAccess → ℕ
  | document n | score n | identifier n => n

inductive HitAnswer (F D : Type)
  | document (document : Option D)
  | score (score : F)
  | identifier (identifier : ℤ)

namespace Hits

/-- `maxDocs`, which nothing changes. -/
def maxDocs : ℕ := 200

def init : Hits F D := ⟨0, [], ⟨none, none, fun _ => none, fun _ => none⟩, fun _ => none, 0⟩

/-- `-remove:`; a hit without a document is not in the list. -/
def remove (h : Hits F D) : Option ℕ → Hits F D
  | none => h
  | some i =>
    if (h.document i).isNone then h
    else { h with links := h.links.unlink i, numDocs := h.numDocs - 1 }

/-- `-addToFront:`; with nil the list is lost. -/
def addToFront (h : Hits F D) : Option ℕ → Hits F D
  | none => { h with
      links := { h.links with
        first := none
        last := if h.links.first = none then none else h.links.last
        prev := match h.links.first with
          | none => h.links.prev
          | some b => update h.links.prev b none }
      numDocs := h.numDocs + 1 }
  | some i => { h with links := h.links.pushFront i, numDocs := h.numDocs + 1 }

/-- `-setDocument:`. -/
def setDocument (h : Hits F D) (document : Option D) : Option ℕ → Hits F D
  | none => h
  | some i => { h with document := update h.document i document }

/-- The last one goes where there are more than `maxDocs`. -/
def evict (h : Hits F D) : Hits F D :=
  if (maxDocs : ℤ) < h.numDocs then (h.remove h.links.last).setDocument none h.links.last else h

variable [LinearOrder F] [Zero F] [LinearOrder V] [One F] [Div F] [Mul F]
  (result : QueryResult F V) (fltMin : F) (read : ℤ → D)

def appendHits (h : Hits F D) (topDocs : TopDocs F) : Hits F D :=
  let scoreNorm := if 0 < topDocs.totalHits ∧ 1 < topDocs.maxScore then 1 / topDocs.maxScore else 1
  let scoreDocs := topDocs.scoreDocuments.take topDocs.totalHits
  { h with
    length := topDocs.totalHits
    hitDocs := h.hitDocs ++ (scoreDocs.drop h.hitDocs.length).map fun d =>
      ⟨d.score * scoreNorm, d.doc⟩ }

/-- `-moreDocuments:`; the doubled number is an `int`, and of no documents nil comes back. -/
def moreDocuments (min : ℕ) (h : Hits F D) : Option (Hits F D) :=
  (result.search fltMin (toInt (max min h.hitDocs.length * 2 : ℕ))).map fun topDocs =>
    match topDocs with
    | none => { h with length := 0 }
    | some topDocs => h.appendHits topDocs

/-- `-initWithSearcher:query:filter:`, and with `sort:`. -/
def initWithSearcher : Option (Hits F D) := init.moreDocuments result fltMin 50

/-- `-hitDocument:`; `none` where it raises, and no place for nil. -/
def hitDocument (n : ℕ) (h : Hits F D) : Option (Option ℕ × Hits F D) :=
  if h.length ≤ n then some (none, h)
  else do
    let h ← if h.hitDocs.length ≤ n then h.moreDocuments result fltMin n else some h
    if n < h.hitDocs.length then some (some n, h) else none

/-- `-setDocument:` of the hit with what the searcher reads, where it has none. -/
def readDocument (h : Hits F D) : Option ℕ → Hits F D
  | none => h
  | some i =>
    if (h.document i).isNone then
      h.setDocument ((h.hitDocs[i]?).map fun d => read d.identifier) (some i)
    else h

/-- `-document:`, `-score:` and `-identifier:`. -/
def respond (h : Hits F D) (access : HitAccess) : Option (HitAnswer F D × Hits F D) := do
  let (hitDoc, h) ← h.hitDocument result fltMin access.hit
  match access with
  | .document _ =>
    let h := (((h.remove hitDoc).addToFront hitDoc).evict).readDocument read hitDoc
    return (.document (hitDoc.bind h.document), h)
  | .score _ => return (.score ((hitDoc.bind fun i => h.hitDocs[i]?).elim 0 HitDocument.score), h)
  | .identifier _ =>
    return (.identifier ((hitDoc.bind fun i => h.hitDocs[i]?).elim 0 HitDocument.identifier), h)

section cache
omit [LinearOrder F] [Zero F] [LinearOrder V] [One F] [Div F] [Mul F]

variable {read : ℤ → D} {h : Hits F D} {order xs ys : List ℕ} {n : ℕ}

@[simp] theorem remove_document (hitDoc : Option ℕ) : (h.remove hitDoc).document = h.document := by
  unfold remove
  split
  · rfl
  · split_ifs <;> rfl

@[simp] theorem remove_hitDocs (hitDoc : Option ℕ) : (h.remove hitDoc).hitDocs = h.hitDocs := by
  unfold remove
  split
  · rfl
  · split_ifs <;> rfl

@[simp] theorem remove_length (hitDoc : Option ℕ) : (h.remove hitDoc).length = h.length := by
  unfold remove
  split
  · rfl
  · split_ifs <;> rfl

@[simp] theorem evict_hitDocs : h.evict.hitDocs = h.hitDocs := by
  unfold evict setDocument
  split_ifs
  · split <;> simp
  · rfl

@[simp] theorem evict_length : h.evict.length = h.length := by
  unfold evict setDocument
  split_ifs
  · split <;> simp
  · rfl

structure Lists (h : Hits F D) (order : List ℕ) : Prop where
  represents : h.links.Represents order
  numDocs : h.numDocs = order.length

theorem Lists.remove (hlists : h.Lists (xs ++ n :: ys)) (hsome : (h.document n).isSome) :
    (h.remove (some n)).Lists (xs ++ ys) := by
  have hnone : ¬(h.document n).isNone := by simpa using Option.isSome_iff_ne_none.1 hsome
  unfold Hits.remove
  simp only [if_neg hnone]
  refine ⟨hlists.represents.unlink, ?_⟩
  rw [hlists.numDocs]
  simp only [length_append, length_cons]
  omega

structure Caches (read : ℤ → D) (h : Hits F D) (order : List ℕ) : Prop extends h.Lists order where
  length_le : order.length ≤ maxDocs
  document_iff : ∀ i, (h.document i).isSome ↔ i ∈ order
  document : ∀ i d, h.document i = some d →
    ∃ hit, h.hitDocs[i]? = some hit ∧ d = read hit.identifier

def touch (order : List ℕ) : HitAccess → List ℕ
  | .document n => (n :: order.erase n).take maxDocs
  | .score _ => order
  | .identifier _ => order

theorem Caches.lists_front (hcaches : h.Caches read order) (n : ℕ) :
    ((h.remove (some n)).addToFront (some n)).Lists (n :: order.erase n) := by
  have hremoved : (h.remove (some n)).Lists (order.erase n) := by
    by_cases hn : n ∈ order
    · obtain ⟨xs, ys, -, rfl, herase⟩ := exists_erase_eq hn
      rw [herase]
      exact hcaches.toLists.remove ((hcaches.document_iff n).2 hn)
    · have hnone : (h.document n).isNone := by
        simpa using (hcaches.document_iff n).not.2 hn
      rw [erase_of_not_mem hn]
      unfold Hits.remove
      simp only [if_pos hnone]
      exact hcaches.toLists
  have hfresh : n ∉ order.erase n := hcaches.represents.nodup.not_mem_erase
  refine ⟨hremoved.represents.pushFront hfresh, ?_⟩
  unfold addToFront
  rw [hremoved.numDocs]
  simp

theorem Lists.evict (hlists : h.Lists (n :: xs)) (hlength : xs.length ≤ maxDocs)
    (hsome : ∀ i ∈ xs, (h.document i).isSome) :
    h.evict.Lists ((n :: xs).take maxDocs)
      ∧ ∀ i, h.evict.document i
        = if i ∈ (n :: xs).drop maxDocs then none else h.document i := by
  unfold Hits.evict
  rw [hlists.numDocs]
  split_ifs with hfull
  · rcases eq_nil_or_concat xs with rfl | ⟨ys, m, rfl⟩
    · simp [maxDocs] at hfull
    rw [concat_eq_append] at *
    simp only [length_cons, length_append, length_nil, Int.ofNat_lt] at hfull hlength
    have hys : (n :: ys).length = maxDocs := by
      rw [length_cons]
      omega
    have hlast : h.links.last = some m := by
      rw [hlists.represents.last]
      simp [getLast?_cons]
    have htake : (n :: (ys ++ [m])).take maxDocs = n :: ys := by
      rw [← cons_append, take_append_of_le_length hys.ge, take_of_length_le hys.le]
    have hdrop : (n :: (ys ++ [m])).drop maxDocs = [m] := by
      rw [← cons_append, ← hys, drop_left]
    have hremoved := @Lists.remove _ _ h (n :: ys) [] m hlists (hsome m (by simp))
    rw [append_nil] at hremoved
    rw [htake, hdrop, hlast]
    refine ⟨⟨hremoved.represents, hremoved.numDocs⟩, fun i => ?_⟩
    simp only [setDocument, remove_document, update_apply, mem_singleton]
  · rw [Int.ofNat_lt, not_lt] at hfull
    rw [take_of_length_le hfull, drop_eq_nil_of_le hfull]
    exact ⟨hlists, fun i => by simp⟩

theorem readDocument_hitDocs (i : ℕ) : (h.readDocument read (some i)).hitDocs = h.hitDocs := by
  unfold readDocument setDocument
  simp only []
  split_ifs <;> rfl

theorem readDocument_length (i : ℕ) : (h.readDocument read (some i)).length = h.length := by
  unfold readDocument setDocument
  simp only []
  split_ifs <;> rfl

theorem readDocument_eq {hit : HitDocument F} (hhit : h.hitDocs[n]? = some hit) :
    h.readDocument read (some n) = { h with
      document := update h.document n ((h.document n).getD (read hit.identifier)) } := by
  unfold readDocument setDocument
  rcases hdocument : h.document n with _ | d
  · simp [hdocument, hhit]
  · simp only [hdocument, Option.isNone_some, Bool.false_eq_true, if_false, Option.getD_some]
    rw [← hdocument, update_eq_self]

theorem mem_take_iff {l : List ℕ} (hnodup : l.Nodup) (k i : ℕ) :
    i ∈ l.take k ↔ i ∈ l ∧ i ∉ l.drop k := by
  have hsplit := take_append_drop k l
  have hdisjoint := disjoint_take_drop hnodup (le_refl k)
  constructor
  · intro hi
    exact ⟨mem_of_mem_take hi, fun h => hdisjoint hi h⟩
  · rintro ⟨hi, hdrop⟩
    rw [← hsplit, mem_append] at hi
    exact hi.resolve_right hdrop

theorem Caches.use (hcaches : h.Caches read order) {hit : HitDocument F}
    (hhit : h.hitDocs[n]? = some hit) :
    (((h.remove (some n)).addToFront (some n)).evict.readDocument read (some n)).Caches read
        (touch order (.document n))
      ∧ (((h.remove (some n)).addToFront (some n)).evict.readDocument read (some n)).document n
        = some (read hit.identifier) := by
  have hlength : (order.erase n).length ≤ maxDocs :=
    length_erase_le.trans hcaches.length_le
  have hsome : ∀ i ∈ order.erase n,
      (((h.remove (some n)).addToFront (some n)).document i).isSome := by
    intro i hi
    show ((h.remove (some n)).document i).isSome
    rw [remove_document]
    exact (hcaches.document_iff i).2 (mem_of_mem_erase hi)
  have hfresh : n ∉ order.erase n := hcaches.represents.nodup.not_mem_erase
  have hnodup : (n :: order.erase n).Nodup :=
    nodup_cons.2 ⟨hfresh, hcaches.represents.nodup.erase n⟩
  obtain ⟨hlists, hdocument⟩ := (hcaches.lists_front n).evict hlength hsome
  have hhitDocs : ((h.remove (some n)).addToFront (some n)).evict.hitDocs = h.hitDocs := by
    rw [evict_hitDocs]
    exact remove_hitDocs (some n)
  have hold : ∀ i, ((h.remove (some n)).addToFront (some n)).document i = h.document i := by
    intro i
    show (h.remove (some n)).document i = h.document i
    rw [remove_document]
  generalize ((h.remove (some n)).addToFront (some n)).evict = h' at hlists hdocument hhitDocs ⊢
  simp only [hold] at hdocument
  have hn : n ∉ (n :: order.erase n).drop maxDocs :=
    ((mem_take_iff hnodup maxDocs n).1 (by simp [maxDocs])).2
  have hread : (h'.document n).getD (read hit.identifier) = read hit.identifier := by
    rw [hdocument, if_neg hn]
    rcases hd : h.document n with _ | d
    · rfl
    · obtain ⟨hit', hhit', rfl⟩ := hcaches.document n d hd
      rw [hhit, Option.some.injEq] at hhit'
      rw [hhit']
      rfl
  rw [readDocument_eq (hhitDocs ▸ hhit), hread]
  refine ⟨⟨⟨hlists.represents, hlists.numDocs⟩, length_take_le _ _, fun i => ?_, ?_⟩,
    update_self _ _ _⟩
  · unfold touch
    simp only [mem_take_iff hnodup]
    rcases eq_or_ne i n with rfl | hi
    · simp [hn]
    · rw [update_of_ne hi, hdocument]
      have hiff := hcaches.document_iff i
      simp only [mem_cons, hi, false_or, mem_erase_of_ne hi]
      split_ifs with hdrop
      · simp [hdrop]
      · simp [hdrop, hiff]
  · intro i d hd
    rcases eq_or_ne i n with rfl | hi
    · simp only [update_self, Option.some.injEq] at hd
      exact ⟨hit, hhitDocs ▸ hhit, hd.symm⟩
    · simp only [update_of_ne hi, hdocument] at hd
      split_ifs at hd
      obtain ⟨hit', hhit', heq⟩ := hcaches.document i d hd
      exact ⟨hit', hhitDocs ▸ hhit', heq⟩

end cache

def hitDocuments : List (HitDocument F) :=
  let scoreNorm := if 0 < result.ranking.length ∧ 1 < result.maxScore fltMin
    then 1 / result.maxScore fltMin else 1
  result.ranking.map fun d => ⟨d.score * scoreNorm, d.doc⟩

def answer (access : HitAccess) : Option (HitAnswer F D) :=
  ((hitDocuments result fltMin)[access.hit]?).map fun hit =>
    match access with
    | .document _ => .document (some (read hit.identifier))
    | .score _ => .score hit.score
    | .identifier _ => .identifier hit.identifier

structure Fetched (h : Hits F D) : Prop where
  length : h.length = result.ranking.length
  hitDocs : h.hitDocs = (hitDocuments result fltMin).take h.hitDocs.length
  nonempty : 0 < result.ranking.length → 0 < h.hitDocs.length

/-- A hit that was fetched, or one whose number may be doubled; a queue for sorted hits takes any
size. -/
def Fetchable (h : Hits F D) (n : ℕ) : Prop :=
  result.sort.isSome ∨ n < 2 ^ 30 ∨ n < h.hitDocs.length

variable {result fltMin read} {h h' : Hits F D} {n k : ℕ}

theorem length_hitDocuments : (hitDocuments result fltMin).length = result.ranking.length := by
  simp [hitDocuments]

theorem appendHits_hitDocs (hlength : h.hitDocs.length ≤ k)
    (hhitDocs : h.hitDocs = (hitDocuments result fltMin).take h.hitDocs.length) :
    (h.appendHits ⟨result.ranking.length, result.ranking.take k, result.maxScore fltMin⟩).hitDocs
      = (hitDocuments result fltMin).take k := by
  have hall : (result.ranking.take k).take result.ranking.length = result.ranking.take k :=
    take_of_length_le (by simp)
  have hfirst : h.hitDocs = ((hitDocuments result fltMin).take k).take h.hitDocs.length := by
    rw [take_take, min_eq_left hlength]
    exact hhitDocs
  calc (h.appendHits ⟨result.ranking.length, result.ranking.take k, result.maxScore fltMin⟩).hitDocs
      = h.hitDocs ++ ((hitDocuments result fltMin).take k).drop h.hitDocs.length := by
        simp only [appendHits, hall, hitDocuments, map_drop, map_take]
    _ = ((hitDocuments result fltMin).take k).take h.hitDocs.length
          ++ ((hitDocuments result fltMin).take k).drop h.hitDocs.length := by
        rw [← hfirst]
    _ = (hitDocuments result fltMin).take k := take_append_drop _ _

structure Fetches (result : QueryResult F V) (fltMin : F) (h h' : Hits F D) : Prop where
  fetched : Fetched result fltMin h'
  links : h'.links = h.links
  numDocs : h'.numDocs = h.numDocs
  document : h'.document = h.document
  subset : ∀ (i : ℕ) (hit : HitDocument F), h.hitDocs[i]? = some hit → h'.hitDocs[i]? = some hit

theorem moreDocuments_of_search {min : ℕ}
    (hsearch : result.search fltMin (toInt (max min h.hitDocs.length * 2 : ℕ))
      = some (some ⟨result.ranking.length, result.ranking.take k, result.maxScore fltMin⟩))
    (hhitDocs : h.hitDocs = (hitDocuments result fltMin).take h.hitDocs.length)
    (hlength : h.hitDocs.length ≤ k) (hk : 0 < k) :
    ∃ h', h.moreDocuments result fltMin min = some h' ∧ Fetches result fltMin h h'
      ∧ ∀ n < k, n < result.ranking.length → n < h'.hitDocs.length := by
  have happend := appendHits_hitDocs hlength hhitDocs
  have hcount := congrArg List.length happend
  rw [length_take, length_hitDocuments] at hcount
  refine ⟨h.appendHits ⟨result.ranking.length, result.ranking.take k, result.maxScore fltMin⟩,
    ?_, ⟨⟨rfl, ?_, ?_⟩, rfl, rfl, rfl, ?_⟩, ?_⟩
  · rw [moreDocuments, hsearch]
    rfl
  · rw [hcount, happend, ← take_take, ← length_hitDocuments, take_length]
  · omega
  · intro i hit hi
    obtain ⟨hlt, -⟩ := List.getElem?_eq_some_iff.1 hi
    rw [hhitDocs, getElem?_take_of_lt hlt] at hi
    rw [happend, getElem?_take_of_lt (by omega), hi]
  · intro n hn hlt
    omega

omit [LinearOrder F] [Zero F] [One F] [Div F] [Mul F] in
theorem toInt_first : toInt (max 50 (init : Hits F D).hitDocs.length * 2 : ℕ) = 100 :=
  toInt_natCast (by simp [init])

variable (result fltMin read) in
open QueryResult in
theorem init_fetched : ∃ h : Hits F D, initWithSearcher result fltMin = some h
    ∧ Fetched result fltMin h ∧ h.Caches read [] := by
  have hsearch : ∃ k, 100 ≤ k ∧ result.search fltMin 100
      = some (some ⟨result.ranking.length, result.ranking.take k, result.maxScore fltMin⟩) := by
    rcases hsort : result.sort with _ | sort
    · exact ⟨100, le_rfl, search_relevance fltMin hsort (by simp)⟩
    · exact ⟨toUnsigned 100, by decide, search_sorted fltMin hsort⟩
  obtain ⟨k, hk, hsearch⟩ := hsearch
  obtain ⟨h, hmore, hfetches, -⟩ := @moreDocuments_of_search F V D _ _ _ _ _ _ result fltMin init k
    50 (by rw [toInt_first, hsearch]) rfl (Nat.zero_le _) (by omega)
  refine ⟨h, hmore, hfetches.fetched, ⟨⟨?_, ?_⟩, Nat.zero_le _, ?_, ?_⟩⟩
  · rw [hfetches.links]
    exact LinkedCells.represents_nil rfl rfl
  · exact hfetches.numDocs
  · intro i
    simp [hfetches.document, init]
  · intro i d hd
    simp [hfetches.document, init] at hd

open QueryResult in
theorem length_init_le (hsort : result.sort = none)
    (hinit : initWithSearcher result fltMin = some h) : h.hitDocs.length ≤ 100 := by
  unfold initWithSearcher moreDocuments at hinit
  rw [toInt_first, search_relevance fltMin hsort (by simp)] at hinit
  obtain rfl := Option.some.inj hinit
  simp [appendHits, init]

theorem toInt_double_of_le (hle : 2 ^ 30 ≤ n) (hlt : n < 2 ^ 31) :
    toInt (n * 2 : ℕ) = n * 2 - 2 ^ 32 := by
  unfold toInt
  rw [Int.bmod_def]
  split_ifs <;> omega

open QueryResult in
theorem Fetched.moreDocuments (hfetched : Fetched result fltMin h)
    (hn : n < result.ranking.length) (hmissing : h.hitDocs.length ≤ n)
    (hfetchable : result.sort.isSome ∨ n < 2 ^ 30) :
    ∃ h', h.moreDocuments result fltMin n = some h' ∧ Fetches result fltMin h h'
      ∧ n < h'.hitDocs.length := by
  have hpos := hfetched.nonempty (by omega)
  have hint : n < 2 ^ 31 := by
    have := result.length_lt
    rw [← result.length_ranking] at this
    omega
  have hsearch : ∃ k, n < k ∧ result.search fltMin (toInt (n * 2 : ℕ))
      = some (some ⟨result.ranking.length, result.ranking.take k, result.maxScore fltMin⟩) := by
    rcases hsort : result.sort with _ | sort
    · have hsmall : n < 2 ^ 30 := by simpa [hsort] using hfetchable
      rw [toInt_natCast (by omega)]
      exact ⟨n * 2, by omega, search_relevance fltMin hsort (by omega)⟩
    · refine ⟨_, ?_, search_sorted fltMin hsort⟩
      rcases lt_or_ge n (2 ^ 30) with hsmall | hlarge
      · rw [toInt_natCast (by omega), toUnsigned_natCast (by omega)]
        omega
      · rw [toInt_double_of_le hlarge hint]
        unfold toUnsigned
        omega
  obtain ⟨k, hk, hsearch⟩ := hsearch
  rw [← max_eq_left hmissing] at hsearch
  obtain ⟨h', hmore, hfetches, hreach⟩ :=
    moreDocuments_of_search hsearch hfetched.hitDocs (by omega) (by omega)
  exact ⟨h', hmore, hfetches, hreach n hk hn⟩

theorem Fetched.fetches (hfetched : Fetched result fltMin h) : Fetches result fltMin h h :=
  ⟨hfetched, rfl, rfl, rfl, fun _ _ => id⟩

theorem Fetched.hitDocument (hfetched : Fetched result fltMin h)
    (hn : n < result.ranking.length) (hfetchable : Fetchable result h n) :
    ∃ h', h.hitDocument result fltMin n = some (some n, h') ∧ Fetches result fltMin h h'
      ∧ n < h'.hitDocs.length := by
  have hlength : ¬h.length ≤ n := by
    rw [hfetched.length]
    omega
  unfold Hits.hitDocument
  rw [if_neg hlength]
  rcases lt_or_ge n h.hitDocs.length with hthere | hmissing
  · refine ⟨h, ?_, hfetched.fetches, hthere⟩
    simp [hthere.not_ge, hthere]
  · have hcond : result.sort.isSome ∨ n < 2 ^ 30 :=
      hfetchable.imp id fun hor => hor.resolve_right hmissing.not_gt
    obtain ⟨h', hmore, hfetches, hlt⟩ := hfetched.moreDocuments hn hmissing hcond
    refine ⟨h', ?_, hfetches, hlt⟩
    simp [hmissing, hmore, hlt]

open QueryResult in
/-- The doubled number is negative: nothing is fetched, and there is no such hit. -/
theorem Fetched.hitDocument_eq_none (hfetched : Fetched result fltMin h)
    (hn : n < result.ranking.length) (hfetchable : ¬Fetchable result h n) :
    h.hitDocument result fltMin n = none := by
  unfold Fetchable at hfetchable
  push Not at hfetchable
  obtain ⟨hsort, hlarge, hmissing⟩ := hfetchable
  have hint : n < 2 ^ 31 := by
    have := result.length_lt
    rw [← result.length_ranking] at this
    omega
  have hlength : ¬h.length ≤ n := by
    rw [hfetched.length]
    omega
  have hsearch : result.search fltMin (toInt (max n h.hitDocs.length * 2 : ℕ)) = some none := by
    rw [max_eq_left hmissing, toInt_double_of_le hlarge hint]
    exact search_of_nonpos fltMin (by simpa using hsort) (by omega)
  unfold Hits.hitDocument Hits.moreDocuments
  rw [if_neg hlength, if_pos hmissing, hsearch]
  simp [hmissing]

variable {order : List ℕ}

theorem Caches.of_fetches (hcaches : h.Caches read order)
    (hfetches : Fetches result fltMin h h') : h'.Caches read order where
  represents := hfetches.links ▸ hcaches.represents
  numDocs := hfetches.numDocs ▸ hcaches.numDocs
  length_le := hcaches.length_le
  document_iff := hfetches.document ▸ hcaches.document_iff
  document i d hd := by
    rw [hfetches.document] at hd
    obtain ⟨hit, hhit, heq⟩ := hcaches.document i d hd
    exact ⟨hit, hfetches.subset i hit hhit, heq⟩

theorem Fetched.congr (hfetched : Fetched result fltMin h) (hlength : h'.length = h.length)
    (hhitDocs : h'.hitDocs = h.hitDocs) : Fetched result fltMin h' :=
  ⟨hlength.trans hfetched.length, by rw [hhitDocs]; exact hfetched.hitDocs,
    by rw [hhitDocs]; exact hfetched.nonempty⟩

theorem Fetched.respond (hfetched : Fetched result fltMin h)
    (hcaches : h.Caches read order) (access : HitAccess)
    (hn : access.hit < result.ranking.length) (hfetchable : Fetchable result h access.hit) :
    ∃ value h', h.respond result fltMin read access = some (value, h')
      ∧ answer result fltMin read access = some value
      ∧ Fetched result fltMin h' ∧ h'.Caches read (touch order access) := by
  obtain ⟨h', hhit, hfetches, hlt⟩ := hfetched.hitDocument hn hfetchable
  obtain ⟨hit, hget⟩ : ∃ hit, h'.hitDocs[access.hit]? = some hit :=
    ⟨_, getElem?_eq_getElem hlt⟩
  have hcaches' := hcaches.of_fetches hfetches
  have hanswer : (hitDocuments result fltMin)[access.hit]? = some hit := by
    have hall := hget
    rw [hfetches.fetched.hitDocs, getElem?_take_of_lt hlt] at hall
    exact hall
  unfold Hits.respond answer
  rw [hhit, hanswer]
  cases access with
  | document n =>
    obtain ⟨hused, hdocument⟩ := hcaches'.use hget
    refine ⟨_, _, rfl, ?_, hfetches.fetched.congr ?_ ?_, hused⟩
    · simp only [Option.map_some, Option.bind_some]
      exact congrArg (some ∘ HitAnswer.document) hdocument.symm
    · rw [HitAccess.hit, readDocument_length, evict_length]
      exact remove_length _
    · rw [HitAccess.hit, readDocument_hitDocs, evict_hitDocs]
      exact remove_hitDocs _
  | score n =>
    refine ⟨_, _, rfl, ?_, hfetches.fetched, hcaches'⟩
    simp [hget]
  | identifier n =>
    refine ⟨_, _, rfl, ?_, hfetches.fetched, hcaches'⟩
    simp [hget]

variable (result) in
def ValidAccess : Type := { access : HitAccess // access.hit < result.ranking.length }

variable (result fltMin read) in
def step (s : Hits F D × List ℕ) (access : ValidAccess result) : Hits F D × List ℕ :=
  (((s.1.respond result fltMin read access.1).map Prod.snd).getD s.1, touch s.2 access.1)

variable (result fltMin read) in
/-- The answer is that of the ranking, and the list is the one of the uses. -/
def Answers (s : Hits F D × List ℕ) (access : ValidAccess result) : Prop :=
  ∃ value h', s.1.respond result fltMin read access.1 = some (value, h')
    ∧ answer result fltMin read access.1 = some value ∧ h'.Caches read (touch s.2 access.1)

theorem Fetched.answers_iff (hfetched : Fetched result fltMin h)
    (hcaches : h.Caches read order) (access : ValidAccess result) :
    Answers result fltMin read (h, order) access ↔ Fetchable result h access.1.hit := by
  constructor
  · rintro ⟨value, h', hrespond, -⟩
    by_contra hnot
    unfold Hits.respond at hrespond
    rw [hfetched.hitDocument_eq_none access.2 hnot] at hrespond
    cases hrespond
  · intro hfetchable
    obtain ⟨value, h', hrespond, hanswer, -, hcaches'⟩ :=
      hfetched.respond hcaches access.1 access.2 hfetchable
    exact ⟨value, h', hrespond, hanswer, hcaches'⟩

variable (result fltMin read) in
/-- In every run of accesses the hits are those of the ranking, and the list is that of the
documents used last, exactly where every hit can be fetched. -/
theorem hits_answer_iff (accesses : List (ValidAccess result)) :
    ∃ h : Hits F D, initWithSearcher result fltMin = some h
      ∧ (Along (step result fltMin read) (Answers result fltMin read) (h, []) accesses
        ↔ Along (step result fltMin read) (fun s access => Fetchable result s.1 access.1.hit)
          (h, []) accesses) := by
  obtain ⟨h, hinit, hfetched, hcaches⟩ := init_fetched result fltMin read
  refine ⟨h, hinit, along_iff
    (I := fun s : Hits F D × List ℕ => Fetched result fltMin s.1 ∧ s.1.Caches read s.2)
    (fun s access hs => hs.1.answers_iff hs.2 access) (fun s access hs hfetchable => ?_)
    ⟨hfetched, hcaches⟩⟩
  obtain ⟨value, h', hrespond, -, hfetched', hcaches'⟩ :=
    hs.1.respond hs.2 access.1 access.2 hfetchable
  unfold step
  rw [hrespond]
  exact ⟨hfetched', hcaches'⟩

end Hits

def equalHits (n : ℕ) (h : n < 2 ^ 31) : QueryResult ℕ ℕ where
  hits := (range n).map fun i : ℕ => ((i : ℤ), .number 1)
  sort := none
  nodup := by
    rw [map_map]
    exact nodup_range.map fun i j hij => Int.ofNat.inj hij
  length_lt := by
    simpa [TopDocCollector.positives, filterMap_map, comp_def] using h

theorem length_equalHits {n : ℕ} (h : n < 2 ^ 31) : (equalHits n h).ranking.length = n := by
  rw [QueryResult.length_ranking]
  simp [equalHits, TopDocCollector.positives, filterMap_map]

/-- The last of the hits is not found, where its number doubled is no `int`. -/
theorem not_answers_last {n : ℕ} (hlarge : 2 ^ 30 ≤ n) (hlt : n + 1 < 2 ^ 31) {h : Hits ℕ ℤ}
    (hinit : Hits.initWithSearcher (equalHits (n + 1) hlt) 1 = some h)
    {access : Hits.ValidAccess (equalHits (n + 1) hlt)} (haccess : access.1.hit = n) :
    ¬Hits.Answers (equalHits (n + 1) hlt) 1 id (h, []) access := by
  obtain ⟨h', hinit', hfetched, hcaches⟩ :=
    Hits.init_fetched (equalHits (n + 1) hlt) 1 (id : ℤ → ℤ)
  obtain rfl : h = h' := Option.some.inj (hinit.symm.trans hinit')
  have hlength := Hits.length_init_le rfl hinit
  rw [hfetched.answers_iff hcaches, haccess]
  rintro (hsort | hsmall | hthere)
  · cases hsort
  · omega
  · omega

/-- The last of `2 ^ 30 + 1` hits. -/
theorem not_hits_answer : ∃ (result : QueryResult ℕ ℕ) (access : Hits.ValidAccess result),
    result.ranking.length = 2 ^ 30 + 1 ∧ ∀ h : Hits ℕ ℤ,
      Hits.initWithSearcher result 1 = some h →
        ¬Along (Hits.step result 1 id) (Hits.Answers result 1 id) (h, []) [access] := by
  obtain ⟨n, hn⟩ : ∃ n, n = 2 ^ 30 := ⟨_, rfl⟩
  have hlt : n + 1 < 2 ^ 31 := by omega
  refine ⟨equalHits (n + 1) hlt, ⟨.score n, ?_⟩, ?_, ?_⟩
  · rw [length_equalHits]
    exact Nat.lt_succ_self n
  · rw [length_equalHits, hn]
  · intro h hinit hanswers
    exact not_answers_last hn.ge hlt hinit rfl hanswers.1

end Etoile.Lucene
