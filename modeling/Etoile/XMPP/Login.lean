import Etoile.Lib.Runs
import Etoile.XMPP.Connection

/-!
# Logging in

What the server has offered and granted on a connection is read off what was received and sent on
it.  The credentials stay back where TLS was offered and has not been negotiated, and a connection
that is logged in has been accepted with all that was offered to it, as long as the server takes no
offer back, a negotiation succeeds, and an IQ that is waited for is the result of the request.
-/

namespace Etoile.XMPP

open Bool Connection

/-- How far a login has got on the current connection.  `asked` is a login that is not answered
yet, with the identifier of its request if it is the legacy one. -/
structure Progress where
  offeredTLS : Bool := false
  secured : Bool := false
  asked : Option (Option UInt32) := none
  accepted : Bool := false
  offeredBind : Bool := false
  offeredSession : Bool := false
  binds : List UInt32 := []
  sessions : List UInt32 := []
  bound : Bool := false
  inSession : Bool := false

namespace Progress

def ask (request : Option UInt32) (p : Progress) : Progress :=
  { offeredTLS := p.offeredTLS, secured := p.secured, asked := some request }

def accept (p : Progress) : Progress := { p with asked := none, accepted := true }

/-- The features that count for the login are those that are offered after it is accepted. -/
def receive (p : Progress) : Event → Progress
  | .features f => { p with
      offeredTLS := p.offeredTLS || f.offersTLS
      offeredBind := p.offeredBind || p.accepted && f.bind.isSome
      offeredSession := p.offeredSession || p.accepted && f.session.isSome }
  | .success => if p.asked.isSome then p.accept else p
  | .iq .result (some i) =>
    if p.asked = some (some i) then p.accept
    else { p with bound := p.bound || i ∈ p.binds, inSession := p.inSession || i ∈ p.sessions }
  | _ => p

def send (p : Progress) : Sent → Progress
  | .auth => p.ask none
  | .digest i => p.ask (some i)
  | .bind i => { p with binds := i :: p.binds }
  | .session i => { p with sessions := i :: p.sessions }
  | _ => p

def of : List Entry → Progress
  | [] => {}
  | .socket :: _ => {}
  | .received e :: t => (of t).receive e
  | .negotiated succeeded :: t => { of t with secured := (of t).secured || succeeded }
  | .sent what :: t => (of t).send what
  | .outgoing _ :: t => of t

/-- The server has accepted the login, and what it offered has been granted. -/
structure LoggedIn (p : Progress) : Prop where
  accepted : p.accepted = true
  bound : p.offeredBind = true → p.bound = true
  inSession : p.offeredSession = true → p.inSession = true

end Progress

/-- `PLAIN` authentication and the digest of the legacy login. -/
def Sent.isCredential : Sent → Bool
  | auth | digest _ => true
  | _ => false

/-- No credentials were sent where TLS was offered before, but not negotiated. -/
def CredentialsSafe : List Entry → Prop
  | [] => True
  | .sent what :: t =>
    (what.isCredential = true → (Progress.of t).offeredTLS = true → (Progress.of t).secured = true)
      ∧ CredentialsSafe t
  | _ :: t => CredentialsSafe t

namespace Connection

def progress (c : Connection) : Progress := .of c.trace

structure SafeStep (c : Connection) (e : Event) : Prop where
  credentials : CredentialsSafe (c.step e).trace
  loggedIn : c.isa ≠ .loggedIn → (c.step e).isa = .loggedIn → (c.step e).progress.LoggedIn

/-- What a server has to keep to: a negotiation that fails counts only where one has succeeded
before; TLS is not offered where the class does not heed it; and offers are not taken back. -/
structure ProperFeatures (c : Connection) (f : StreamFeatures) : Prop where
  heeded : f.offersTLS = true → c.isa = .loggingIn ∨ c.isa = .unbound → c.progress.secured = true
  bind : c.isa = .unbound → c.progress.offeredBind = true →
    c.progress.bound = true ∨ f.bind.isSome = true
  session : c.isa = .unbound → c.progress.offeredSession = true →
    c.progress.inSession = true ∨ f.session.isSome = true
  late : c.isa = .noSession → f.bind.isSome = true → c.progress.bound = true
    ∨ f.offersTLS = true ∨ f.offersLegacy = true ∨ f.offersPlain = true

/-- An IQ that the connection waits for grants what was offered, but for a session that the
connection is still to ask for. -/
structure ProperAnswer (c : Connection) (type : IqType) (i : UInt32) : Prop where
  bound : c.progress.offeredBind = true →
    c.progress.bound = true ∨ type = .result ∧ i ∈ c.progress.binds
  inSession : c.progress.offeredSession = true →
    c.progress.inSession = true ∨ type = .result ∧ i ∈ c.progress.sessions
      ∨ c.isa = .unbound ∧ (c.streamFeatures.bind (·.session)).isSome = true

def Proper (c : Connection) : Event → Prop
  | .features f => c.ProperFeatures f
  | .proceed negotiated => c.isa = .encrypting → negotiated = true ∨ c.progress.secured = true
  | .iq type (some i) => i ∈ c.iqHandlers → c.isa = .unbound ∨ c.isa = .noSession →
      type = .result ∨ type = .error → c.ProperAnswer type i
  | _ => True

structure Fits (c : Connection) : Prop where
  credentials : CredentialsSafe c.trace
  secured : c.isa.isConnected = true → c.isa ≠ .encrypting →
    c.progress.offeredTLS = true → c.progress.secured = true
  asked : c.isa = .loggingIn → c.progress.asked.isSome = true ∨ c.progress.accepted = true
  accepted : c.isa = .unbound ∨ c.isa = .noSession ∨ c.isa = .loggedIn →
    c.progress.accepted = true
  answered : c.progress.accepted = true → c.progress.asked = none
  bound : c.isa = .noSession → c.progress.offeredBind = true → c.progress.bound = true
  socket : c.isa.isConnected = true → c.socket = true

/-- A connection has gone on to one that fits, and not over to being logged in too early. -/
structure GoesOn (c c' : Connection) : Prop where
  fits : Fits c'
  loggedIn : c.isa ≠ .loggedIn → c'.isa = .loggedIn → c'.progress.LoggedIn

variable {c c' c'' : Connection} {e : Event}

structure Inert (c c' : Connection) : Prop where
  progress : c'.progress = c.progress
  credentials : CredentialsSafe c.trace → CredentialsSafe c'.trace
  socket : c'.socket = c.socket

def Sent.isInert : Sent → Bool
  | .auth | .digest _ | .bind _ | .session _ => false
  | _ => true

namespace Inert

theorem refl (c : Connection) : Inert c c := ⟨rfl, id, rfl⟩

theorem trans (h : Inert c c') (h' : Inert c' c'') : Inert c c'' :=
  ⟨h'.progress.trans h.progress, h'.credentials ∘ h.credentials, h'.socket.trans h.socket⟩

theorem setState (h : Inert c c') (isa : ConnectionClass) : Inert c (c'.setState isa) :=
  ⟨h.progress, h.credentials, h.socket⟩

theorem send {what : Sent} (h : Inert c c') (hwhat : Sent.isInert what = true) :
    Inert c (c'.send what) := by
  refine h.trans ?_
  unfold Connection.send
  split_ifs
  · refine ⟨?_, fun ht => ⟨fun hcred => ?_, ht⟩, rfl⟩
    · cases what <;> first | rfl | simp [Sent.isInert] at hwhat
    · cases what <;> simp [Sent.isInert, Sent.isCredential] at hwhat hcred
  · exact refl c'

theorem outgoing (h : Inert c c') (s : StringPointer) : Inert c (c'.add (.outgoing s)) :=
  ⟨h.progress, h.credentials, h.socket⟩

theorem pointsTo_inert (s : StringPointer) (buffer : Option NSString) :
    Sent.isInert (pointsTo s buffer) = true := by
  cases s <;> cases buffer <;> rfl

theorem XMPPSend (h : Inert c c') (s : StringPointer) : Inert c (c'.XMPPSend s) := by
  have ho := h.outgoing s
  unfold Connection.XMPPSend
  split_ifs
  · refine send ?_ (pointsTo_inert s _)
    unfold sendUnsent
    split
    · rename_i buffer _
      have ht : Inert c (Connection.send (.text buffer) _) := ho.send rfl
      exact ⟨ht.progress, ht.credentials, ht.socket⟩
    · exact ho
  · cases s
    · exact ⟨ho.progress, ho.credentials, ho.socket⟩
    · exact ho

theorem handleLoggedIn (h : Inert c c') (type : IqType) : Inert c (c'.handleLoggedIn type) := by
  unfold Connection.handleLoggedIn
  split_ifs
  · have hid : Inert c { c' with messageID := c'.messageID + 1 } :=
      ⟨h.progress, h.credentials, h.socket⟩
    exact ((hid.send rfl).setState .loggedIn).XMPPSend _
  · exact h

end Inert

theorem XMPPSend_isa (s : StringPointer) : (c.XMPPSend s).isa = c.isa := by
  have hsend : ∀ (what : Sent) (c : Connection), (c.send what).isa = c.isa := by
    intro what c
    unfold send
    split_ifs <;> rfl
  unfold XMPPSend
  split_ifs
  · rw [hsend]
    unfold sendUnsent
    split
    · exact hsend _ _
    · rfl
  · cases s <;> rfl

theorem handleLoggedIn_isa (type : IqType) (hisa : c.isa = .loggedIn) :
    (c.handleLoggedIn type).isa = .loggedIn := by
  unfold handleLoggedIn
  split_ifs
  · rw [XMPPSend_isa]
    rfl
  · exact hisa

theorem fits_of_offline (h : CredentialsSafe c.trace) (hisa : c.isa.isConnected = false)
    (hanswered : c.progress.accepted = true → c.progress.asked = none) : Fits c where
  credentials := h
  secured hconn := by rw [hisa] at hconn; cases hconn
  asked hc := by rw [hc] at hisa; cases hisa
  accepted hc := by rcases hc with hc | hc | hc <;> rw [hc] at hisa <;> cases hisa
  answered := hanswered
  bound hc := by rw [hc] at hisa; cases hisa
  socket hconn := by rw [hisa] at hconn; cases hconn

theorem Fits.of_inert (h : Fits c) (hi : Inert c c') (hisa : c'.isa = c.isa) : Fits c' := by
  refine ⟨hi.credentials h.credentials, ?_, ?_, ?_, ?_, ?_, ?_⟩
  · rw [hisa, hi.progress]
    exact h.secured
  · rw [hisa, hi.progress]
    exact h.asked
  · rw [hisa, hi.progress]
    exact h.accepted
  · rw [hi.progress]
    exact h.answered
  · rw [hisa, hi.progress]
    exact h.bound
  · rw [hisa, hi.socket]
    exact h.socket

theorem Progress.answered_receive {p : Progress} (h : p.accepted = true → p.asked = none)
    (e : Event) : (p.receive e).accepted = true → (p.receive e).asked = none := by
  unfold Progress.receive
  split
  · exact h
  · split_ifs
    · exact fun _ => rfl
    · exact h
  · split_ifs
    · exact fun _ => rfl
    · exact h
  · exact h

theorem Fits.received (h : Fits c) (he : ∀ f, e ≠ .features f) : Fits (c.add (.received e)) := by
  have hanswered := Progress.answered_receive h.answered e
  cases e with
  | features f => exact absurd rfl (he f)
  | success =>
    refine ⟨h.credentials, ?_, ?_, ?_, hanswered, ?_, h.socket⟩ <;>
      simp only [progress, add, Progress.of, Progress.receive] <;> split_ifs
    · exact h.secured
    · exact h.secured
    · exact fun _ => .inr rfl
    · exact h.asked
    · exact fun _ => rfl
    · exact h.accepted
    · exact h.bound
    · exact h.bound
  | iq type i =>
    rcases i with _ | i
    · cases type <;>
        exact ⟨h.credentials, h.secured, h.asked, h.accepted, h.answered, h.bound, h.socket⟩
    · cases type
      case result =>
        refine ⟨h.credentials, ?_, ?_, ?_, hanswered, ?_, h.socket⟩ <;>
          simp only [progress, add, Progress.of, Progress.receive] <;> split_ifs
        · exact h.secured
        · exact h.secured
        · exact fun _ => .inr rfl
        · exact h.asked
        · exact fun _ => rfl
        · exact h.accepted
        · exact h.bound
        · intro hisa hbind
          show (_ || _) = true
          rw [show (Progress.of c.trace).bound = true from h.bound hisa hbind, Bool.true_or]
      all_goals
        exact ⟨h.credentials, h.secured, h.asked, h.accepted, h.answered, h.bound, h.socket⟩
  | _ => exact ⟨h.credentials, h.secured, h.asked, h.accepted, h.answered, h.bound, h.socket⟩

theorem fits_logIn {what : Sent} (h : CredentialsSafe c.trace) (hsocket : c.socket = true)
    (hsecured : c.progress.offeredTLS = true → c.progress.secured = true)
    (hwhat : what.isCredential = true) : Fits ((c.send what).setState .loggingIn) := by
  have hsend : c.send what = c.add (.sent what) := if_pos hsocket
  have hprogress : ∃ request, (c.add (.sent what)).progress = c.progress.ask request := by
    cases what <;> first | exact ⟨_, rfl⟩ | simp [Sent.isCredential] at hwhat
  obtain ⟨request, hprogress⟩ := hprogress
  have hp : (setState .loggingIn (c.add (.sent what))).progress = c.progress.ask request :=
    hprogress
  rw [hsend]
  refine ⟨⟨fun _ => hsecured, h⟩, fun _ _ => ?_, fun _ => .inl ?_, ?_, ?_, nofun,
    fun _ => hsocket⟩
  · rw [hp]
    exact hsecured
  · rw [hp]
    rfl
  · rintro (hisa | hisa | hisa) <;> cases hisa
  · rw [hp]
    exact nofun

theorem fits_legacyLogIn (h : CredentialsSafe c.trace) (hisa : c.isa.isConnected = true)
    (hsocket : c.socket = true)
    (hsecured : c.progress.offeredTLS = true → c.progress.secured = true) : Fits c.legacyLogIn := by
  unfold legacyLogIn request
  rw [if_pos hisa]
  refine fits_logIn ?_ ?_ ?_ rfl
  · exact h
  · exact hsocket
  · exact hsecured

theorem Fits.disconnect (h : Fits c) : Fits c.disconnect := by
  have hsend := (Inert.refl c).XMPPSend (.string "</stream:stream>".toList)
  unfold Connection.disconnect
  split_ifs
  · refine fits_of_offline (hsend.credentials h.credentials) rfl ?_
    rw [show progress { c.XMPPSend (.string "</stream:stream>".toList) with
      socket := false, isa := .offline } = c.progress from hsend.progress]
    exact h.answered
  · exact h

theorem Fits.reconnectToJabberServer (h : Fits c) (reachable : Bool) :
    Fits (c.reconnectToJabberServer reachable) := by
  have hconnect : ∀ c' : Connection, Fits c' → c'.isa.isConnected = false →
      Fits (if reachable then
        (({ c' with socket := true }.add .socket).setState .connecting).startStream
        else { c' with socket := false }) := by
    intro c' h' hisa
    cases reachable
    · exact fits_of_offline h'.credentials hisa h'.answered
    · exact ⟨⟨nofun, h'.credentials⟩, nofun, nofun, nofun, nofun, nofun, fun _ => rfl⟩
  unfold Connection.reconnectToJabberServer
  dsimp only
  by_cases hisa : c.isa.isConnecting = true
  · rw [if_pos hisa]
    exact hconnect _ (fits_of_offline h.disconnect.credentials rfl h.disconnect.answered) rfl
  · rw [if_neg hisa]
    refine hconnect _ h ?_
    cases hc : c.isa <;> first | rfl | (rw [hc] at hisa; exact absurd rfl hisa)

theorem Fits.handleLoggedIn (h : Fits c) (hisa : c.isa.isConnected = true)
    (hne : c.isa ≠ .encrypting) (haccepted : c.progress.accepted = true) (type : IqType) :
    Fits ((c.setState .loggedIn).handleLoggedIn type) := by
  have hi := ((Inert.refl c).setState .loggedIn).handleLoggedIn type
  have hin := handleLoggedIn_isa (c := c.setState .loggedIn) type rfl
  refine ⟨hi.credentials h.credentials, ?_, ?_, ?_, ?_, ?_, ?_⟩
  · rw [hi.progress]
    exact fun _ _ => h.secured hisa hne
  · rw [hin]
    exact nofun
  · rw [hi.progress]
    exact fun _ => haccepted
  · rw [hi.progress]
    exact h.answered
  · rw [hin]
    exact nofun
  · rw [hi.socket]
    exact fun _ => h.socket hisa

theorem Fits.startSession (h : Fits c) (hisa : c.isa.isConnected = true)
    (hne : c.isa ≠ .encrypting) (haccepted : c.progress.accepted = true)
    (hbound : c.progress.offeredBind = true → c.progress.bound = true) :
    Fits (c.setState .noSession).startSession := by
  have hsocket : c.socket = true := h.socket hisa
  have hsend : (c.setState .noSession).startSession
      = { c with
          isa := .noSession
          messageID := c.messageID + 1
          iqHandlers := c.messageID :: c.iqHandlers
          trace := .sent (.session c.messageID) :: c.trace } := if_pos hsocket
  rw [hsend]
  exact ⟨⟨nofun, h.credentials⟩, fun _ _ => h.secured hisa hne, nofun, fun _ => haccepted,
    h.answered, fun _ => hbound, fun _ => hsocket⟩

def withFeatures (c : Connection) (f : StreamFeatures) : Connection :=
  (c.add (.received (.features f))).setStreamFeatures f

variable {f : StreamFeatures}

theorem Fits.logInWithFeatures (h : Fits c)
    (hisa : c.isa.isConnected = true) (hne : c.isa ≠ .encrypting) (hlogging : c.isa ≠ .loggingIn)
    (hf : c.ProperFeatures f) : Fits ((c.withFeatures f).logInWithFeatures f) := by
  have hsocket := h.socket hisa
  have hsecured : ¬ f.offersTLS = true → (c.withFeatures f).progress.offeredTLS = true →
      c.progress.secured = true := by
    intro hTLS ho
    exact h.secured hisa hne ((or_eq_true_iff.1 ho).resolve_right hTLS)
  unfold Connection.logInWithFeatures
  split_ifs with hTLS hlegacy
  · have hi : Inert (c.withFeatures f) (Connection.send .starttls (c.withFeatures f)) :=
      (Inert.refl _).send rfl
    refine ⟨hi.credentials h.credentials, fun _ hne' => absurd rfl hne', nofun, ?_, ?_, nofun, ?_⟩
    · rintro (h' | h' | h') <;> cases h'
    · rw [show progress (setState .encrypting _) = _ from hi.progress]
      exact h.answered
    · rw [show (setState .encrypting _).socket = _ from hi.socket]
      exact fun _ => hsocket
  · exact fits_legacyLogIn h.credentials hisa hsocket (hsecured hTLS)
  · unfold logInWithMechanisms
    split_ifs with hplain
    · exact fits_logIn h.credentials hsocket (hsecured hTLS) rfl
    · refine ⟨h.credentials, fun _ _ => hsecured hTLS, ?_, h.accepted, h.answered, ?_, h.socket⟩
      · exact fun hisa' => absurd hisa' hlogging
      · intro hisa' hoffered
        rcases or_eq_true_iff.1 hoffered with ho | ho
        · exact h.bound hisa' ho
        · rcases hf.late hisa' (and_eq_true_iff.1 ho).2 with hb | hb | hb | hb
          · exact hb
          · exact absurd hb hTLS
          · exact absurd hb hlegacy
          · exact absurd hb hplain

theorem logInWithFeatures_isa (hne : c.isa ≠ .loggedIn) :
    (c.logInWithFeatures f).isa ≠ .loggedIn := by
  unfold logInWithFeatures legacyLogIn logInWithMechanisms
  split_ifs <;> first | exact hne | (intro h; cases h)

theorem Fits.bindWithFeatures (h : Fits c) (hisa : c.isa = .unbound)
    (hf : c.ProperFeatures f) : GoesOn c ((c.withFeatures f).bindWithFeatures f) := by
  have hconn : c.isa.isConnected = true := by rw [hisa]; rfl
  have hne : c.isa ≠ .encrypting := by rw [hisa]; exact nofun
  have hunbound : ∀ isa, isa ≠ .unbound → c.isa ≠ isa := by
    rintro isa hisa' rfl
    exact hisa' hisa
  have haccepted := h.accepted (.inl hisa)
  have hsecured : (c.withFeatures f).progress.offeredTLS = true → c.progress.secured = true := by
    intro ho
    rcases or_eq_true_iff.1 ho with ho | ho
    · exact h.secured hconn hne ho
    · exact hf.heeded ho (.inr hisa)
  -- without a new offer of a resource, one that is still open would be taken back
  have hbound : ¬ f.bind.isSome = true → (c.withFeatures f).progress.offeredBind = true →
      c.progress.bound = true := by
    intro hnone ho
    rcases or_eq_true_iff.1 ho with ho | ho
    · exact (hf.bind hisa ho).resolve_right hnone
    · exact absurd (and_eq_true_iff.1 ho).2 hnone
  have hfits : Fits (c.withFeatures f) :=
    ⟨h.credentials, fun _ _ => hsecured, fun h' => absurd h' (hunbound _ nofun),
      fun _ => haccepted, h.answered, fun h' => absurd h' (hunbound _ nofun), h.socket⟩
  unfold Connection.bindWithFeatures
  split_ifs with hbind hsession
  · have hsend : (c.withFeatures f).bind = { c.withFeatures f with
        messageID := c.messageID + 1
        iqHandlers := c.messageID :: c.iqHandlers
        trace := .sent (.bind c.messageID) :: (c.withFeatures f).trace } :=
      if_pos (h.socket hconn)
    rw [hsend]
    exact ⟨⟨⟨nofun, h.credentials⟩, fun _ _ => hsecured, fun h' => absurd h' (hunbound _ nofun),
      fun _ => haccepted, h.answered, fun h' => absurd h' (hunbound _ nofun), h.socket⟩,
      fun _ h' => absurd h' (hunbound _ nofun)⟩
  · refine ⟨hfits.startSession hconn hne haccepted (hbound hbind), fun _ h' => ?_⟩
    have hisa' : ((c.withFeatures f).setState .noSession).startSession.isa = .noSession := by
      unfold Connection.startSession request send
      split_ifs <;> rfl
    rw [hisa'] at h'
    cases h'
  · refine ⟨⟨h.credentials, fun _ _ => hsecured, nofun, fun _ => haccepted, h.answered, nofun,
      h.socket ∘ fun _ => hconn⟩, fun _ _ => ⟨haccepted, hbound hbind, fun ho => ?_⟩⟩
    rcases or_eq_true_iff.1 ho with ho | ho
    · exact (hf.session hisa ho).resolve_right hsession
    · exact absurd (and_eq_true_iff.1 ho).2 hsession

theorem Fits.features (h : Fits c) (hf : c.ProperFeatures f) : GoesOn c (c.step (.features f)) := by
  have hstep : c.step (.features f) = if (c.add (.received (.features f))).startsStanzas then
      (c.add (.received (.features f))).addStreamFeatures f
      else c.add (.received (.features f)) := rfl
  have hoff : c.isa.isConnected = false → Fits (c.add (.received (.features f))) := fun hisa =>
    fits_of_offline h.credentials hisa h.answered
  rw [hstep]
  unfold startsStanzas addStreamFeatures
  cases hisa : c.isa
  case unbound =>
    simp only [add_isa, hisa]
    exact h.bindWithFeatures hisa hf
  case connected | noSession =>
    simp only [add_isa, hisa]
    refine ⟨h.logInWithFeatures ?_ ?_ ?_ hf, fun _ hin => absurd hin (logInWithFeatures_isa ?_)⟩
    · rw [hisa]; rfl
    · rw [hisa]; exact nofun
    · rw [hisa]; exact nofun
    · rw [setStreamFeatures_isa, add_isa, hisa]
      exact nofun
  case loggedIn =>
    simp only [add_isa, hisa]
    refine ⟨h.logInWithFeatures ?_ ?_ ?_ hf, fun hne => absurd hisa hne⟩
    · rw [hisa]; rfl
    · rw [hisa]; exact nofun
    · rw [hisa]; exact nofun
  case encrypting =>
    simp only [add_isa, hisa]
    refine ⟨⟨h.credentials, fun _ hne => absurd hisa hne, h.asked, h.accepted, h.answered, ?_,
      h.socket⟩, fun _ hin => absurd (hisa.symm.trans hin) nofun⟩
    exact fun hin => absurd (hisa.symm.trans hin) nofun
  case loggingIn =>
    simp only [add_isa, hisa]
    refine ⟨⟨h.credentials, fun hconn hne ho => ?_, h.asked, h.accepted, h.answered, ?_,
      h.socket⟩, fun _ hin => absurd (hisa.symm.trans hin) nofun⟩
    · rcases or_eq_true_iff.1 ho with ho | ho
      · exact h.secured hconn hne ho
      · exact hf.heeded ho (.inl hisa)
    · exact fun hin => absurd (hisa.symm.trans hin) nofun
  all_goals
    simp only [add_isa, hisa]
    exact ⟨hoff (by rw [hisa]; rfl), fun _ hin => absurd (hisa.symm.trans hin) nofun⟩

theorem ProperAnswer.granted {type : IqType} {i : UInt32} (h : c.ProperAnswer type i)
    (hasked : c.progress.asked = none) :
    (c.progress.offeredBind = true →
        (c.add (.received (.iq type (some i)))).progress.bound = true)
      ∧ ((c.isa = .unbound → c.streamFeatures.bind (·.session) = none) →
        c.progress.offeredSession = true →
          (c.add (.received (.iq type (some i)))).progress.inSession = true) := by
  have hresult : (c.add (.received (.iq .result (some i)))).progress = { c.progress with
      bound := c.progress.bound || i ∈ c.progress.binds
      inSession := c.progress.inSession || i ∈ c.progress.sessions } := by
    show (if c.progress.asked = some (some i) then _ else _) = _
    rw [hasked, if_neg nofun]
    rfl
  constructor
  · intro ho
    rcases h.bound ho with hb | ⟨rfl, hi⟩
    · cases type <;> first | exact hb | (rw [hresult]; simp [hb])
    · rw [hresult]
      simp [hi]
  · intro hnone ho
    rcases h.inSession ho with hs | ⟨rfl, hi⟩ | ⟨hisa, hsession⟩
    · cases type <;> first | exact hs | (rw [hresult]; simp [hs])
    · rw [hresult]
      simp [hi]
    · rw [hnone hisa] at hsession
      cases hsession

theorem receive_iq_offered (p : Progress) (type : IqType) (i : Option UInt32) :
    (p.receive (.iq type i)).offeredBind = p.offeredBind
      ∧ (p.receive (.iq type i)).offeredSession = p.offeredSession := by
  unfold Progress.receive
  split
  · rename_i heq
    cases heq
  · rename_i heq
    cases heq
  · split_ifs <;> exact ⟨rfl, rfl⟩
  · exact ⟨rfl, rfl⟩

theorem Fits.handleIq {type : IqType} {i : UInt32} (h : Fits c)
    (hC : c.isa = .unbound ∨ c.isa = .noSession → c.ProperAnswer type i)
    (hne : c.isa ≠ .loggingIn) :
    GoesOn c ((c.add (.received (.iq type (some i)))).handleIq type) := by
  have hr : Fits (c.add (.received (.iq type (some i)))) := h.received nofun
  obtain ⟨hbind, hsession⟩ := receive_iq_offered c.progress type (some i)
  have hprogress : ∀ c', ((setState .loggedIn c').handleLoggedIn type).progress = c'.progress :=
    fun c' => (((Inert.refl c').setState .loggedIn).handleLoggedIn type).progress
  unfold Connection.handleIq
  cases hisa : c.isa
  case loggedIn =>
    have hin := hr.handleLoggedIn (by rw [add_isa, hisa]; rfl)
      (by rw [add_isa, hisa]; exact nofun)
      (hr.accepted (.inr (.inr hisa))) type
    have hsame : setState .loggedIn (c.add (.received (.iq type (some i))))
        = c.add (.received (.iq type (some i))) := by
      show { c.add (.received (.iq type (some i))) with isa := ConnectionClass.loggedIn } = _
      rw [← hisa]
      rfl
    rw [hsame] at hin
    simp only [add_isa, hisa]
    exact ⟨hin, fun hne => absurd hisa hne⟩
  case loggingIn => exact absurd hisa hne
  case noSession =>
    have hanswer := hC (.inr hisa)
    have hasked := h.answered (h.accepted (.inr (.inl hisa)))
    have hgranted := hanswer.granted hasked
    have haccepted := hr.accepted (.inr (.inl hisa))
    simp only [add_isa, hisa]
    refine ⟨hr.handleLoggedIn (by rw [add_isa, hisa]; rfl)
      (by rw [add_isa, hisa]; exact nofun) haccepted type, fun _ _ => ?_⟩
    rw [hprogress]
    refine ⟨haccepted, fun ho => hgranted.1 (hbind ▸ ho), fun ho => ?_⟩
    refine hgranted.2 (fun hunbound => ?_) (hsession ▸ ho)
    rw [hisa] at hunbound
    cases hunbound
  case unbound =>
    have hanswer := hC (.inl hisa)
    have hasked := h.answered (h.accepted (.inl hisa))
    have hgranted := hanswer.granted hasked
    have haccepted := hr.accepted (.inl hisa)
    have hconn : (c.add (.received (.iq type (some i)))).isa.isConnected = true := by
      rw [add_isa, hisa]; rfl
    have hne' : (c.add (.received (.iq type (some i)))).isa ≠ .encrypting := by
      rw [add_isa, hisa]; exact nofun
    simp only [add_isa, hisa]
    split_ifs with hs
    · refine ⟨hr.startSession hconn hne' haccepted fun ho => hgranted.1 (hbind ▸ ho),
        fun _ hin => ?_⟩
      have hisa' : (setState .noSession
          (c.add (.received (.iq type (some i))))).startSession.isa = .noSession := by
        unfold Connection.startSession request send
        split_ifs <;> rfl
      rw [hisa'] at hin
      cases hin
    · refine ⟨hr.handleLoggedIn hconn hne' haccepted type, fun _ _ => ?_⟩
      rw [hprogress]
      refine ⟨haccepted, fun ho => hgranted.1 (hbind ▸ ho), fun ho => ?_⟩
      exact hgranted.2 (fun _ => Option.not_isSome_iff_eq_none.1 hs) (hsession ▸ ho)
  all_goals
    simp only [add_isa, hisa]
    exact ⟨hr, fun _ hin => nomatch hisa.symm.trans hin⟩

theorem reconnectToJabberServer_isa (reachable : Bool) :
    (c.reconnectToJabberServer reachable).isa ≠ .loggedIn := by
  unfold reconnectToJabberServer
  dsimp only
  by_cases hisa : c.isa.isConnecting = true
  · rw [if_pos hisa]
    cases reachable <;> exact nofun
  · rw [if_neg hisa]
    cases reachable
    · intro h
      rw [show c.isa = .loggedIn from h] at hisa
      exact hisa rfl
    · exact nofun

theorem Fits.step (h : Fits c) (hC : c.Proper e) : GoesOn c (c.step e) := by
  have hsame : ∀ c' : Connection, Fits c' → c'.isa = c.isa → GoesOn c c' :=
    fun c' hc' hisa => ⟨hc', fun hne hin => absurd (hisa.symm.trans hin) hne⟩
  have hother : ∀ c' : Connection, Fits c' → c'.isa ≠ .loggedIn → GoesOn c c' :=
    fun c' hc' hisa => ⟨hc', fun _ hin => absurd hin hisa⟩
  cases e with
  | features f => exact h.features hC
  | iq type i =>
    have hr : Fits (c.add (.received (.iq type i))) := h.received nofun
    have hstep : c.step (.iq type i) = if (c.add (.received (.iq type i))).startsStanzas then
        (c.add (.received (.iq type i))).dispatchIq type i
        else c.add (.received (.iq type i)) := rfl
    rw [hstep]
    split_ifs with hstanzas
    · have hne : c.isa ≠ .loggingIn := fun hisa => by simp [startsStanzas, hisa] at hstanzas
      unfold dispatchIq
      split
      · split_ifs with hi
        · exact h.handleIq (fun hisa => hC hi hisa (.inl rfl)) hne
        · exact hsame _ hr rfl
      · split_ifs with hi
        · exact h.handleIq (fun hisa => hC hi hisa (.inr rfl)) hne
        · exact hsame _ hr rfl
      · exact hsame _ hr rfl
    · exact hsame _ hr rfl
  | streamStart version =>
    have hr : Fits (c.add (.received (.streamStart version))) := h.received nofun
    show GoesOn c (startStreamElement version _)
    unfold startStreamElement
    split
    · exact hsame _ hr rfl
    · exact hsame _ hr rfl
    · exact hsame _ hr rfl
    · rename_i hencrypting hlogging hloggedIn
      split_ifs
      · exact hsame _ hr rfl
      · by_cases hconn : c.isa.isConnected = true
        · refine hother _ (fits_legacyLogIn hr.credentials hconn (hr.socket hconn)
            (hr.secured hconn hencrypting)) ?_
          unfold legacyLogIn
          rw [add_isa, if_pos hconn]
          exact nofun
        · unfold legacyLogIn
          rw [add_isa, if_neg hconn]
          exact hsame _ hr rfl
  | proceed negotiated =>
    have hr : Fits (c.add (.received (.proceed negotiated))) := h.received nofun
    show GoesOn c (proceed negotiated _)
    unfold proceed
    split_ifs with hisa
    · have hsocket := hr.socket (by rw [hisa]; rfl)
      have hstart : (((c.add (.received (.proceed negotiated))).add
            (.negotiated negotiated)).setState .connecting).startStream
          = { c with
              isa := .connected
              trace := .sent .streamHeader :: .negotiated negotiated
                :: .received (.proceed negotiated) :: c.trace } :=
        congrArg (setState .connected) (if_pos hsocket)
      rw [hstart]
      refine hother _ ⟨⟨nofun, h.credentials⟩, fun _ _ _ => ?_, nofun, ?_, h.answered, nofun,
        fun _ => hsocket⟩ nofun
      · rcases hC hisa with rfl | hsecured
        · exact or_true _
        · exact or_eq_true_iff.2 (.inl hsecured)
      · rintro (h' | h' | h') <;> cases h'
    · exact hsame _ hr rfl
  | success =>
    have hr : Fits (c.add (.received .success)) := h.received nofun
    show GoesOn c (success _)
    unfold success
    split_ifs with hisa
    · have hsocket := hr.socket (by rw [hisa]; rfl)
      have haccepted : (c.add (.received .success)).progress.accepted = true := by
        show (if c.progress.asked.isSome then c.progress.accept else c.progress).accepted = true
        split_ifs with hasked
        · rfl
        · exact (h.asked hisa).resolve_left hasked
      have hsend : ((c.add (.received .success)).setState .unbound).send .newStream
          = { c with
              isa := .unbound
              trace := .sent .newStream :: .received .success :: c.trace } := if_pos hsocket
      rw [hsend]
      refine hother _ ⟨⟨nofun, hr.credentials⟩, fun _ _ => ?_, nofun, fun _ => haccepted,
        hr.answered, nofun, fun _ => hsocket⟩ nofun
      exact hr.secured (by rw [hisa]; rfl) (by rw [hisa]; exact nofun)
    · exact hsame _ hr rfl
  | failure => exact hsame _ (h.received nofun) rfl
  | streamEnd reachable =>
    have hr : Fits (c.add (.received (.streamEnd reachable))) := h.received nofun
    show GoesOn c (if _ then _ else _)
    split_ifs
    · exact hother _ (hr.reconnectToJabberServer reachable) (reconnectToJabberServer_isa reachable)
    · exact hsame _ hr rfl
  | XMPPSend s =>
    have hr : Fits (c.add (.received (.XMPPSend s))) := h.received nofun
    have hi := (Inert.refl (c.add (.received (.XMPPSend s)))).XMPPSend (.string s)
    have hisa : (c.step (.XMPPSend s)).isa = c.isa := XMPPSend_isa _
    exact hsame _ (hr.of_inert hi hisa) hisa
  | disconnect =>
    have hr : Fits (c.add (.received .disconnect)) := h.received nofun
    refine ⟨hr.disconnect, fun hne hin => ?_⟩
    have hdis : ((c.add (.received .disconnect)).disconnect).isa ≠ .loggedIn := by
      unfold Connection.disconnect
      split_ifs
      · exact nofun
      · exact hne
    exact absurd hin hdis
  | reconnect reachable =>
    have hr : Fits (c.add (.received (.reconnect reachable))) := h.received nofun
    exact hother _ (hr.reconnectToJabberServer reachable) (reconnectToJabberServer_isa reachable)

theorem fits_new : Fits {} := fits_of_offline trivial rfl fun _ => rfl

/-- In every run from a new connection in which the server keeps to `Proper`, the credentials are
not sent before a negotiation of TLS that was offered has succeeded, and a connection is logged in
only after it was accepted and what was offered was granted. -/
theorem login_safe {events : List Event} (h : Along step Proper {} events) :
    Along step SafeStep {} events :=
  Along.of_invariant (fun _ _ hs hC => ⟨⟨(hs.step hC).fits.credentials, (hs.step hC).loggedIn⟩,
    (hs.step hC).fits⟩) fits_new h

def fullLogin : List Event :=
  [.reconnect true, .streamStart (some "1.0"),
    .features { starttls := some "urn:ietf:params:xml:ns:xmpp-tls", mechanisms := ["PLAIN"] },
    .proceed true, .features { mechanisms := ["PLAIN"] }, .success,
    .features { bind := some "urn:ietf:params:xml:ns:xmpp-bind",
                session := some "urn:ietf:params:xml:ns:xmpp-session" },
    .iq .result (some 0), .iq .result (some 1)]

theorem fullLogin_safe : Along step SafeStep {} fullLogin := by
  refine login_safe ⟨trivial, trivial, ⟨?_, ?_, ?_, ?_⟩, fun _ => .inl rfl, ⟨?_, ?_, ?_, ?_⟩,
    trivial, ⟨?_, ?_, ?_, ?_⟩, fun _ _ _ => ⟨?_, ?_⟩, fun _ _ _ => ⟨?_, ?_⟩, trivial⟩
  all_goals decide

def failedNegotiation : List Event :=
  [.reconnect true, .features { starttls := some "urn:ietf:params:xml:ns:xmpp-tls" },
    .proceed false, .features { mechanisms := ["PLAIN"] }]

theorem login_not_safe : ¬ Along step SafeStep {} failedNegotiation := by
  intro h
  obtain ⟨-, -, -, ⟨hcredentials, -⟩, -⟩ := h
  exact false_ne_true (hcredentials.1 rfl rfl)

end Connection

end Etoile.XMPP
