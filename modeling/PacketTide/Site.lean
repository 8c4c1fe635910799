import PacketTide.Control

/-!
# Programs with files and a control channel

A receiver works on files and writes to the control channel. A program over file-system calls is one
of these programs, and it leaves the control channel alone.
-/

namespace PacketTide

open Effects FileSystem Text

/-- Write a payload, with its error as a result; a write that fails uses up its fate. -/
def ControlWriter.attempt (writer : ControlWriter) (payload : Str) :
    Except AnyError Unit × ControlWriter :=
  match writer.send payload with
  | .ok writer => (.ok (), writer)
  | .error e =>
    (.error e, if controlPayload payload then { writer with fates := writer.fates.tail } else writer)

inductive SiteCall where
  | file (c : FsCall)
  /-- Write a payload to the control channel. -/
  | send (payload : Str)

abbrev SiteReply : SiteCall → Type
  | .file c => FsReply c
  | .send _ => Except AnyError Unit

/-- The files and the writing side of the control channel. -/
structure Site where
  fs : FS
  control : ControlWriter

namespace Site

def exec : (c : SiteCall) → Site → SiteReply c × Site
  | .file c, site => ((FS.exec c site.fs).1, { site with fs := (FS.exec c site.fs).2 })
  | .send payload, site =>
    ((site.control.attempt payload).1, { site with control := (site.control.attempt payload).2 })

/-- A kill in the middle of a call. -/
def Torn : SiteCall → Site → Site → Prop
  | .file c, site, t => FS.Torn c site.fs t.fs ∧ t.control = site.control
  | .send _, _, _ => False

end Site

def siteMachine : Machine SiteReply Site where
  exec := Site.exec
  torn := Site.Torn

/-- A call that fails for an external reason. -/
def siteRefuse : (c : SiteCall) → Errno → SiteReply c
  | .file c, e => refuse c e
  | .send _, e => .error (.io e)

/-- A program over files and the control channel. -/
abbrev SiteProg (α : Type) : Type := Prog SiteReply AnyError α

/-- A program over files alone. -/
def onFiles {α : Type} : FsProg α → SiteProg α
  | .done r => .done r
  | .call c next => .call (.file c) fun r => onFiles (next r)

/-- Write a payload and stop with the error if that fails. -/
def sendControl (payload : Str) : SiteProg Unit :=
  .call (.send payload) fun
    | .ok () => .done (.ok ())
    | .error e => .done (.error e)

def sendPayloads : List Str → SiteProg Unit
  | [] => return ()
  | payload :: payloads => do
    sendControl payload
    sendPayloads payloads

/-- Stop with a message. -/
def stopWith {α : Type} (text : String) : SiteProg α := .done (.error (.message text))

end PacketTide
