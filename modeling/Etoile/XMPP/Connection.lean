import Mathlib.Data.List.Basic

/-!
# The connection to a server

An `XMPPConnection` changes its class with its state.  What the server sends is given as the events
at the level of the stream: stanza by stanza, and with the results of what depends on the outside,
whether a host can be reached and whether TLS can be negotiated.
-/

namespace Etoile.XMPP

abbrev NSString := List Char

/-- The classes of a connection; a new one is of the class that they all inherit from. -/
inductive ConnectionClass
  | new
  | offline
  | connecting
  | connected
  | encrypting
  | loggingIn
  | unbound
  | noSession
  | loggedIn
  deriving DecidableEq

/-- Whether the class inherits from `XMPPConnectingConnection`. -/
def ConnectionClass.isConnecting : ConnectionClass → Bool
  | new | offline => false
  | _ => true

/-- Whether the class inherits from `XMPPConnectedConnection`. -/
def ConnectionClass.isConnected : ConnectionClass → Bool
  | new | offline | connecting => false
  | _ => true

/-- The features of a stream: the namespace of each but for the list of mechanisms. -/
structure StreamFeatures where
  starttls : Option String := none
  auth : Option String := none
  mechanisms : List String := []
  bind : Option String := none
  session : Option String := none

def StreamFeatures.offersTLS (f : StreamFeatures) : Bool :=
  f.starttls = some "urn:ietf:params:xml:ns:xmpp-tls"

def StreamFeatures.offersLegacy (f : StreamFeatures) : Bool :=
  f.auth = some "http://jabber.org/features/iq-auth"

def StreamFeatures.offersPlain (f : StreamFeatures) : Bool := f.mechanisms.contains "PLAIN"

inductive IqType
  | set
  | get
  | result
  | error
  deriving DecidableEq

/-- What happens to a connection.  The identifier of an IQ is `none` if it is not of the form that
`-newMessageID` gives. -/
inductive Event
  | streamStart (version : Option String)
  | features (f : StreamFeatures)
  | proceed (negotiated : Bool)
  | success
  | failure
  | iq (type : IqType) (sequenceID : Option UInt32)
  | streamEnd (reachable : Bool)
  | XMPPSend (s : NSString)
  | disconnect
  | reconnect (reachable : Bool)

/-- A pointer that is handed to `-XMPPSend:`. -/
inductive StringPointer
  | string (s : NSString)
  | unsentBuffer

/-- What is sent.  `released` is a buffer after its release. -/
inductive Sent
  | streamHeader
  | starttls
  | auth
  | digest (iqID : UInt32)
  | newStream
  | bind (iqID : UInt32)
  | session (iqID : UInt32)
  | roster (iqID : UInt32)
  | text (s : NSString)
  | released
  | null

inductive Entry
  | socket
  | received (e : Event)
  | negotiated (succeeded : Bool)
  | sent (what : Sent)
  | outgoing (s : StringPointer)

structure Connection where
  isa : ConnectionClass := .new
  socket : Bool := false
  messageID : UInt32 := 0
  unsentBuffer : Option NSString := none
  streamFeatures : Option StreamFeatures := none
  iqHandlers : List UInt32 := []
  trace : List Entry := []

namespace Connection

def add (entry : Entry) (c : Connection) : Connection := { c with trace := entry :: c.trace }

/-- `SET_STATE`. -/
def setState (isa : ConnectionClass) (c : Connection) : Connection := { c with isa := isa }

@[simp] theorem add_isa (entry : Entry) (c : Connection) : (c.add entry).isa = c.isa := rfl

/-- `-sendString:`, and what the writer puts on the same socket. -/
def send (what : Sent) (c : Connection) : Connection :=
  if c.socket then c.add (.sent what) else c

/-- An IQ request with a new identifier, whose answer the connection handles itself. -/
def request (what : UInt32 → Sent) (c : Connection) : Connection :=
  { c with messageID := c.messageID + 1, iqHandlers := c.messageID :: c.iqHandlers }.send
    (what c.messageID)

def legacyLogIn (c : Connection) : Connection :=
  if c.isa.isConnected then (c.request .digest).setState .loggingIn else c

def logInWithMechanisms (f : StreamFeatures) (c : Connection) : Connection :=
  if f.offersPlain then (c.send .auth).setState .loggingIn else c

def startSession (c : Connection) : Connection := c.request .session

def bind (c : Connection) : Connection := c.request .bind

def pointsTo (s : StringPointer) (buffer : Option NSString) : Sent :=
  match s, buffer with
  | .string s, _ => .text s
  | .unsentBuffer, some _ => .released
  | .unsentBuffer, none => .null

def appendUnsent (s : NSString) (c : Connection) : Connection :=
  { c with unsentBuffer := some (c.unsentBuffer.getD [] ++ s) }

def sendUnsent (c : Connection) : Connection :=
  match c.unsentBuffer with
  | some buffer => { c.send (.text buffer) with unsentBuffer := none }
  | none => c

def XMPPSend (s : StringPointer) (c : Connection) : Connection :=
  if c.isa = .loggedIn then
    (c.add (.outgoing s)).sendUnsent.send (pointsTo s c.unsentBuffer)
  else match s with
    | .string s => (c.add (.outgoing (.string s))).appendUnsent s
    | .unsentBuffer => c.add (.outgoing .unsentBuffer)

/-- `-receivedData:fromSocket:` of a connecting connection. -/
def startStream (c : Connection) : Connection := (c.send .streamHeader).setState .connected

def disconnect (c : Connection) : Connection :=
  if c.isa.isConnecting then
    { c.XMPPSend (.string "</stream:stream>".toList) with socket := false, isa := .offline }
  else c

/-- `-reconnectToJabberServer`: one that is connecting disconnects first. -/
def reconnectToJabberServer (reachable : Bool) (c : Connection) : Connection :=
  let c := if c.isa.isConnecting then c.disconnect.setState .offline else c
  if reachable then
    (({ c with socket := true }.add .socket).setState .connecting).startStream
  else { c with socket := false }

/-- `-startElement:attributes:` for the start of a stream. -/
def startStreamElement (version : Option String) (c : Connection) : Connection :=
  match c.isa with
  | .encrypting | .loggingIn | .loggedIn => c
  | _ => if version = some "1.0" then c else c.legacyLogIn

def startsStanzas (c : Connection) : Bool :=
  match c.isa with
  | .encrypting | .loggingIn => false
  | _ => true

def setStreamFeatures (f : StreamFeatures) (c : Connection) : Connection :=
  { c with streamFeatures := some f }

@[simp] theorem setStreamFeatures_isa (f : StreamFeatures) (c : Connection) :
    (c.setStreamFeatures f).isa = c.isa := rfl

/-- `-addstreamFeatures:` of `XMPPConnectedConnection`. -/
def logInWithFeatures (f : StreamFeatures) (c : Connection) : Connection :=
  if f.offersTLS then (c.send .starttls).setState .encrypting
  else if f.offersLegacy then c.legacyLogIn
  else c.logInWithMechanisms f

/-- `-addstreamFeatures:` of `XMPPUnboundConnection`. -/
def bindWithFeatures (f : StreamFeatures) (c : Connection) : Connection :=
  if f.bind.isSome then c.bind
  else if f.session.isSome then (c.setState .noSession).startSession
  else c.setState .loggedIn

def addStreamFeatures (f : StreamFeatures) (c : Connection) : Connection :=
  match c.isa with
  | .new | .offline | .connecting => c
  | .unbound => (c.setStreamFeatures f).bindWithFeatures f
  | _ => (c.setStreamFeatures f).logInWithFeatures f

/-- `-handleIq:` of `XMPPLoggedInConnection`.  The roster handles the answer to its request. -/
def handleLoggedIn (type : IqType) (c : Connection) : Connection :=
  if type = .result then
    (({ c with messageID := c.messageID + 1 }.send (.roster c.messageID)).setState
      .loggedIn).XMPPSend .unsentBuffer
  else c

def handleIq (type : IqType) (c : Connection) : Connection :=
  match c.isa with
  | .loggedIn => c.handleLoggedIn type
  | .loggingIn | .noSession => (c.setState .loggedIn).handleLoggedIn type
  | .unbound =>
    if (c.streamFeatures.bind (·.session)).isSome then (c.setState .noSession).startSession
    else (c.setState .loggedIn).handleLoggedIn type
  | _ => c

/-- `-dispatchIq:`, for what it does to the connection. -/
def dispatchIq (type : IqType) (sequenceID : Option UInt32) (c : Connection) : Connection :=
  match type, sequenceID with
  | .result, some sequenceID | .error, some sequenceID =>
    if sequenceID ∈ c.iqHandlers then c.handleIq type else c
  | _, _ => c

def proceed (negotiated : Bool) (c : Connection) : Connection :=
  if c.isa = .encrypting then
    ((c.add (.negotiated negotiated)).setState .connecting).startStream
  else c

def success (c : Connection) : Connection :=
  if c.isa = .loggingIn then (c.setState .unbound).send .newStream else c

def respond (c : Connection) : Event → Connection
  | .streamStart version => c.startStreamElement version
  | .features f => if c.startsStanzas then c.addStreamFeatures f else c
  | .proceed negotiated => c.proceed negotiated
  | .success => c.success
  | .failure => c
  | .iq type sequenceID => if c.startsStanzas then c.dispatchIq type sequenceID else c
  | .streamEnd reachable => if c.isa.isConnecting then c.reconnectToJabberServer reachable else c
  | .XMPPSend s => c.XMPPSend (.string s)
  | .disconnect => c.disconnect
  | .reconnect reachable => c.reconnectToJabberServer reachable

def step (c : Connection) (e : Event) : Connection := (c.add (.received e)).respond e

end Connection

end Etoile.XMPP
