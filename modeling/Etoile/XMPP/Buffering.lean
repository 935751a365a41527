import Etoile.Lib.Runs
import Etoile.XMPP.Connection

/-!
# What is buffered while offline

The strings that `-XMPPSend:` is given are written in their order, each of them once, as long as no
result is handled in the class of a connection that is logged in: its handler sends the buffer by
the method that releases it.
-/

namespace Etoile.XMPP

open Connection List

/-- The strings that `-XMPPSend:` was given. -/
def given : List Entry → List NSString
  | [] => []
  | .outgoing (.string s) :: t => given t ++ [s]
  | _ :: t => given t

def written : List Entry → NSString
  | [] => []
  | .sent (.text s) :: t => written t ++ s
  | _ :: t => written t

/-- Whether `-XMPPSend:` sends it. -/
def Sent.ofXMPPSend : Sent → Bool
  | text _ | released | null => true
  | _ => false

/-- Whether the buffer was sent after its release, or where there was none. -/
def misused : List Entry → Bool
  | [] => false
  | .sent .released :: _ | .sent .null :: _ => true
  | _ :: t => misused t

namespace Connection

/-- What is written after the event is a part of the strings from the first one on, and all of them
if a connection that is logged in was given one. -/
structure Delivers (c : Connection) (e : Event) : Prop where
  inOrder : ∃ k, written (c.step e).trace = ((given (c.step e).trace).take k).flatten
  complete : c.isa = .loggedIn → (∃ s, e = .XMPPSend s) →
    written (c.step e).trace = (given (c.step e).trace).flatten
  notMisused : misused (c.step e).trace = false

/-- A result is handled after the connection has gone over to being logged in. -/
def HandlesResult (c : Connection) (e : Event) : Prop :=
  ∃ sequenceID ∈ c.iqHandlers, e = .iq .result (some sequenceID) ∧
    (c.isa = .loggedIn ∨ c.isa = .noSession
      ∨ c.isa = .unbound ∧ c.streamFeatures.bind (·.session) = none)

/-- The strings are those that are written and those that are buffered. -/
structure Buffers (c : Connection) : Prop where
  strings : ∃ k, written c.trace = ((given c.trace).take k).flatten
    ∧ c.unsentBuffer.getD [] = ((given c.trace).drop k).flatten
  notMisused : misused c.trace = false
  socket : c.isa.isConnected = true → c.socket = true

structure Quiet (c c' : Connection) : Prop where
  given : given c'.trace = given c.trace
  written : written c'.trace = written c.trace
  misused : misused c'.trace = misused c.trace
  unsentBuffer : c'.unsentBuffer = c.unsentBuffer
  socket : c'.socket = c.socket
  isConnected : c'.isa.isConnected = true → c.isa.isConnected = true

variable {c c' c'' : Connection} {e : Event}

namespace Quiet

theorem refl (c : Connection) : Quiet c c := ⟨rfl, rfl, rfl, rfl, rfl, id⟩

theorem trans (h : Quiet c c') (h' : Quiet c' c'') : Quiet c c'' :=
  ⟨h'.given.trans h.given, h'.written.trans h.written, h'.misused.trans h.misused,
    h'.unsentBuffer.trans h.unsentBuffer, h'.socket.trans h.socket,
    h.isConnected ∘ h'.isConnected⟩

theorem setState {isa : ConnectionClass} (h : Quiet c c')
    (hisa : isa.isConnected = true → c.isa.isConnected = true) : Quiet c (c'.setState isa) :=
  ⟨h.given, h.written, h.misused, h.unsentBuffer, h.socket, hisa⟩

theorem received (c : Connection) (e : Event) : Quiet c (c.add (.received e)) :=
  ⟨rfl, rfl, rfl, rfl, rfl, id⟩

theorem send {what : Sent} (h : Quiet c c') (hwhat : what.ofXMPPSend = false) :
    Quiet c (c'.send what) := by
  refine h.trans ?_
  unfold Connection.send
  split_ifs
  · cases what <;> first
      | exact ⟨rfl, rfl, rfl, rfl, rfl, id⟩
      | cases hwhat
  · exact refl c'

theorem request {what : UInt32 → Sent} (h : Quiet c c')
    (hwhat : ∀ i, (what i).ofXMPPSend = false) : Quiet c (c'.request what) := by
  have h' : Quiet c { c' with messageID := c'.messageID + 1,
                              iqHandlers := c'.messageID :: c'.iqHandlers } :=
    h.trans ⟨rfl, rfl, rfl, rfl, rfl, id⟩
  exact h'.send (hwhat _)

theorem legacyLogIn (h : Quiet c c') : Quiet c c'.legacyLogIn := by
  unfold Connection.legacyLogIn
  split_ifs with hisa
  · exact setState (request h fun _ => rfl) fun _ => h.isConnected hisa
  · exact h

variable {f : StreamFeatures}

theorem logInWithMechanisms (h : Quiet c c')
    (hisa : c.isa.isConnected = true) : Quiet c (c'.logInWithMechanisms f) := by
  unfold Connection.logInWithMechanisms
  split_ifs
  · refine setState (send h ?_) fun _ => hisa
    rfl
  · exact h

theorem logInWithFeatures (h : Quiet c c')
    (hisa : c.isa.isConnected = true) : Quiet c (c'.logInWithFeatures f) := by
  unfold Connection.logInWithFeatures
  split_ifs
  · refine setState (send h ?_) fun _ => hisa
    rfl
  · exact h.legacyLogIn
  · exact h.logInWithMechanisms hisa

theorem bindWithFeatures (h : Quiet c c')
    (hisa : c.isa.isConnected = true) : Quiet c (c'.bindWithFeatures f) := by
  unfold Connection.bindWithFeatures
  split_ifs
  · exact request h fun _ => rfl
  · exact request (h.setState fun _ => hisa) fun _ => rfl
  · exact h.setState fun _ => hisa

theorem addStreamFeatures (c : Connection) (f : StreamFeatures) :
    Quiet c (c.addStreamFeatures f) := by
  have h : Quiet c (c.setStreamFeatures f) := ⟨rfl, rfl, rfl, rfl, rfl, id⟩
  unfold Connection.addStreamFeatures
  split
  · exact refl c
  · exact refl c
  · exact refl c
  · rename_i hunbound
    exact h.bindWithFeatures (by rw [hunbound]; rfl)
  · refine h.logInWithFeatures ?_
    cases hisa : c.isa <;> first | rfl | contradiction

end Quiet

theorem Buffers.of_quiet (h : Buffers c) (hq : Quiet c c') : Buffers c' where
  strings := by
    rw [hq.given, hq.written, hq.unsentBuffer]
    exact h.strings
  notMisused := hq.misused.trans h.notMisused
  socket hisa := hq.socket.trans (h.socket (hq.isConnected hisa))

theorem Buffers.loggedIn_XMPPSend {s : NSString} (h : Buffers c) (hisa : c.isa = .loggedIn) :
    Buffers (c.XMPPSend (.string s)) ∧ written (c.XMPPSend (.string s)).trace
      = (given (c.XMPPSend (.string s)).trace).flatten := by
  obtain ⟨k, hwritten, hbuffer⟩ := h.strings
  have hsocket : c.socket = true := h.socket (by rw [hisa]; rfl)
  have hall : written c.trace ++ c.unsentBuffer.getD [] = (given c.trace).flatten := by
    rw [hwritten, hbuffer, ← flatten_append, take_append_drop]
  have hgiven : given (c.XMPPSend (.string s)).trace = given c.trace ++ [s] := by
    unfold XMPPSend sendUnsent
    rw [if_pos hisa]
    cases hu : c.unsentBuffer <;> simp [add, send, hsocket, hu, given, pointsTo]
  have hwritten' : written (c.XMPPSend (.string s)).trace
      = written c.trace ++ c.unsentBuffer.getD [] ++ s := by
    unfold XMPPSend sendUnsent
    rw [if_pos hisa]
    cases hu : c.unsentBuffer <;> simp [add, send, hsocket, hu, written, pointsTo]
  have hmisused : misused (c.XMPPSend (.string s)).trace = misused c.trace := by
    unfold XMPPSend sendUnsent
    rw [if_pos hisa]
    cases hu : c.unsentBuffer <;> simp [add, send, hsocket, hu, misused, pointsTo]
  have hunsent : (c.XMPPSend (.string s)).unsentBuffer = none := by
    unfold XMPPSend sendUnsent
    rw [if_pos hisa]
    cases hu : c.unsentBuffer <;> simp [add, send, hsocket, hu]
  have hkept : (c.XMPPSend (.string s)).socket = c.socket := by
    unfold XMPPSend sendUnsent
    rw [if_pos hisa]
    cases hu : c.unsentBuffer <;> simp [add, send, hsocket, hu]
  have heq : written (c.XMPPSend (.string s)).trace
      = (given (c.XMPPSend (.string s)).trace).flatten := by
    rw [hwritten', hgiven, hall, flatten_append, flatten_singleton]
  refine ⟨⟨⟨(given (c.XMPPSend (.string s)).trace).length, ?_, ?_⟩, ?_, fun _ => ?_⟩, heq⟩
  · rw [take_length, heq]
  · rw [hunsent, drop_length]
    rfl
  · rw [hmisused, h.notMisused]
  · rw [hkept, hsocket]

theorem Buffers.XMPPSend {s : NSString} (h : Buffers c) : Buffers (c.XMPPSend (.string s)) := by
  by_cases hisa : c.isa = .loggedIn
  · exact (h.loggedIn_XMPPSend hisa).1
  · obtain ⟨k, hwritten, hbuffer⟩ := h.strings
    unfold Connection.XMPPSend
    rw [if_neg hisa]
    refine ⟨⟨min k (given c.trace).length, ?_, ?_⟩, h.notMisused, h.socket⟩
    · show written c.trace = ((given c.trace ++ [s]).take (min k (given c.trace).length)).flatten
      rw [take_append_of_le_length (Nat.min_le_right _ _), ← take_eq_take_min, hwritten]
    · show c.unsentBuffer.getD [] ++ s
        = ((given c.trace ++ [s]).drop (min k (given c.trace).length)).flatten
      rw [drop_append_of_le_length (Nat.min_le_right _ _), flatten_append,
        flatten_singleton, hbuffer, ← drop_eq_drop_min]

theorem Buffers.disconnect (h : Buffers c) : Buffers c.disconnect := by
  unfold Connection.disconnect
  split_ifs
  · exact ⟨h.XMPPSend.strings, h.XMPPSend.notMisused, nofun⟩
  · exact h

theorem Buffers.reconnectToJabberServer (h : Buffers c) (reachable : Bool) :
    Buffers (c.reconnectToJabberServer reachable) := by
  have hoff : ∀ c' : Connection, Buffers c' → c'.isa.isConnected = false →
      Buffers (if reachable then
        (({ c' with socket := true }.add .socket).setState .connecting).startStream
        else { c' with socket := false }) := by
    intro c' h' hisa
    cases reachable
    · exact ⟨h'.strings, h'.notMisused, fun hconn => by simp [hisa] at hconn⟩
    · exact ⟨h'.strings, h'.notMisused, fun _ => rfl⟩
  unfold Connection.reconnectToJabberServer
  dsimp only
  by_cases hisa : c.isa.isConnecting = true
  · rw [if_pos hisa]
    refine hoff _ ?_ rfl
    exact ⟨h.disconnect.strings, h.disconnect.notMisused, nofun⟩
  · rw [if_neg hisa]
    refine hoff _ h ?_
    cases hc : c.isa <;> first | rfl | (rw [hc] at hisa; exact absurd rfl hisa)

theorem Quiet.handleLoggedIn {type : IqType} (h : Quiet c c') (htype : type ≠ .result) :
    Quiet c (c'.handleLoggedIn type) := by
  unfold Connection.handleLoggedIn
  rw [if_neg htype]
  exact h

theorem Quiet.handleIq {type : IqType} (c : Connection)
    (h : type = .result → c.isa ≠ .loggedIn ∧ c.isa ≠ .noSession ∧ c.isa ≠ .loggingIn
      ∧ (c.isa = .unbound → c.streamFeatures.bind (·.session) ≠ none)) :
    Quiet c (c.handleIq type) := by
  unfold Connection.handleIq
  split
  · rename_i hisa
    exact (refl c).handleLoggedIn fun ht => (h ht).1 hisa
  · rename_i hisa
    exact (setState (refl c) fun _ => by rw [hisa]; rfl).handleLoggedIn
      fun ht => (h ht).2.2.1 hisa
  · rename_i hisa
    exact (setState (refl c) fun _ => by rw [hisa]; rfl).handleLoggedIn fun ht => (h ht).2.1 hisa
  · rename_i hisa
    have hconn : c.isa.isConnected = true := by rw [hisa]; rfl
    split_ifs with hsession
    · exact request (setState (refl c) fun _ => hconn) fun _ => rfl
    · refine (setState (refl c) fun _ => hconn).handleLoggedIn fun ht => ?_
      exact (h ht).2.2.2 hisa (by simpa using hsession)
  · exact refl c

theorem Quiet.dispatchIq {type : IqType} {sequenceID : Option UInt32} (c : Connection)
    (hstanzas : c.startsStanzas = true) (h : ¬ HandlesResult c (.iq type sequenceID)) :
    Quiet c (c.dispatchIq type sequenceID) := by
  unfold Connection.dispatchIq
  split
  · rename_i i
    split_ifs with hi
    · refine handleIq c fun _ => ⟨?_, ?_, ?_, ?_⟩
      · exact fun hisa => h ⟨i, hi, rfl, .inl hisa⟩
      · exact fun hisa => h ⟨i, hi, rfl, .inr (.inl hisa)⟩
      · exact fun hisa => by simp [startsStanzas, hisa] at hstanzas
      · exact fun hisa hnone => h ⟨i, hi, rfl, .inr (.inr ⟨hisa, hnone⟩)⟩
    · exact refl c
  · split_ifs
    · exact handleIq c nofun
    · exact refl c
  · exact refl c

theorem Buffers.step (h : Buffers c) (hC : ¬ HandlesResult c e) : Buffers (c.step e) := by
  have hr : Buffers (c.add (.received e)) := h.of_quiet (.received c e)
  unfold Connection.step
  cases e with
  | streamStart version =>
    refine hr.of_quiet ?_
    show Quiet _ (startStreamElement version _)
    unfold startStreamElement
    split
    · exact .refl _
    · exact .refl _
    · exact .refl _
    · split_ifs
      · exact .refl _
      · exact (Quiet.refl _).legacyLogIn
  | features f =>
    refine hr.of_quiet ?_
    show Quiet _ (if _ then _ else _)
    split_ifs
    · exact .addStreamFeatures _ f
    · exact .refl _
  | proceed negotiated =>
    refine hr.of_quiet ?_
    show Quiet _ (proceed negotiated _)
    unfold proceed
    split_ifs with hisa
    · have hneg : Quiet (c.add (.received (.proceed negotiated)))
          ((c.add (.received (.proceed negotiated))).add (.negotiated negotiated)) :=
        ⟨rfl, rfl, rfl, rfl, rfl, id⟩
      have hconnecting : Quiet _ (setState .connecting _) := hneg.setState nofun
      have hstart : Quiet _ (send .streamHeader _) := hconnecting.send rfl
      exact hstart.setState fun _ => by rw [hisa]; rfl
    · exact .refl _
  | success =>
    refine hr.of_quiet ?_
    show Quiet _ (success _)
    unfold success
    split_ifs with hisa
    · have hunbound : Quiet (c.add (.received .success)) (setState .unbound _) :=
        (Quiet.refl _).setState fun _ => by rw [hisa]; rfl
      exact hunbound.send rfl
    · exact .refl _
  | failure => exact hr
  | iq type sequenceID =>
    refine hr.of_quiet ?_
    show Quiet _ (if _ then _ else _)
    split_ifs with hstanzas
    · exact .dispatchIq _ hstanzas hC
    · exact .refl _
  | streamEnd reachable =>
    show Buffers (if _ then _ else _)
    split_ifs
    · exact hr.reconnectToJabberServer reachable
    · exact hr
  | XMPPSend s => exact hr.XMPPSend
  | disconnect => exact hr.disconnect
  | reconnect reachable => exact hr.reconnectToJabberServer reachable

theorem misused_handleLoggedIn (hsocket : c.socket = true) :
    misused (c.handleLoggedIn .result).trace = true := by
  unfold handleLoggedIn XMPPSend sendUnsent
  cases c.unsentBuffer <;> simp [setState, add, send, hsocket, misused, pointsTo]

theorem Buffers.misused_step (h : Buffers c) (hC : HandlesResult c e) :
    misused (c.step e).trace = true := by
  obtain ⟨i, hi, rfl, hisa⟩ := hC
  have hr : Buffers (c.add (.received (.iq .result (some i)))) := h.of_quiet (.received c _)
  have hdispatch : c.step (.iq .result (some i))
      = ((c.add (.received (.iq .result (some i)))).setState .loggedIn).handleLoggedIn .result := by
    show (if _ then dispatchIq _ _ _ else _) = _
    unfold dispatchIq handleIq startsStanzas
    rcases hisa with hisa | hisa | ⟨hisa, hnone⟩
    · simp only [add, hisa, if_pos hi, setState]
      simp
    · simp only [add, hisa, if_pos hi]
      simp
    · simp only [add, hisa, if_pos hi, hnone]
      simp
  rw [hdispatch]
  refine misused_handleLoggedIn (hr.socket ?_)
  show c.isa.isConnected = true
  rcases hisa with hisa | hisa | ⟨hisa, -⟩ <;> rw [hisa] <;> rfl

theorem Buffers.delivers_iff (h : Buffers c) (e : Event) : Delivers c e ↔ ¬ HandlesResult c e := by
  constructor
  · intro hd hC
    have := h.misused_step hC
    rw [hd.notMisused] at this
    cases this
  · intro hC
    obtain ⟨⟨k, hwritten, -⟩, hmisused, -⟩ := h.step hC
    refine ⟨⟨k, hwritten⟩, ?_, hmisused⟩
    rintro hisa ⟨s, rfl⟩
    exact ((h.of_quiet (.received c _)).loggedIn_XMPPSend hisa).2

theorem buffers_new : Buffers {} := ⟨⟨0, rfl, rfl⟩, rfl, nofun⟩

/-- In a run from a new connection the strings are written in their order, each of them once and
none late, and the buffer is never used after its release nor where there is none, just if no
result is handled by a connection that is logged in. -/
theorem strings_delivered_iff (events : List Event) :
    Along step Delivers {} events ↔ Along step (fun c e => ¬ HandlesResult c e) {} events :=
  along_iff (fun _ e h => h.delivers_iff e) (fun _ _ h => h.step) buffers_new

def sessionAfterString : List Event :=
  [.reconnect true, .features { mechanisms := ["PLAIN"] }, .success,
    .features { session := some "urn:ietf:params:xml:ns:xmpp-session" }, .XMPPSend ['m'],
    .iq .result (some 0)]

/-- The buffer is sent a second time, after its release. -/
theorem sessionAfterString_not_delivered : ¬ Along step Delivers {} sessionAfterString := by
  intro h
  obtain ⟨-, -, -, -, -, h, -⟩ := h
  have := h.notMisused
  revert this
  decide

end Connection

end Etoile.XMPP
