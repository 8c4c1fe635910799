import PacketTide.Proofs.ScopedFileProofs

/-!
# A whole receiver keeps to a scope

Receiving an object keeps to any scope that serves its destination. Below a staging directory that is the scope of
all that lies below it, for the whole tree and for what is done to finish it.
-/

namespace PacketTide

open Effects FileSystem Prog Text

variable {scope : Scope} {home : Loc} {root path dest : Path} {pid : Nat} {file : Loc} {s : Receiving} {α β : Type}
  {Q : α → Prop}

/-! ## Files and the control channel -/

def SiteCall.Confined (scope : Scope) : SiteCall → Prop
  | .file c => c.Confined scope
  | .send _ => True

def SiteCall.Promised (scope : Scope) : (c : SiteCall) → SiteReply c → Prop
  | .file c, r => FsCall.Promised scope c r
  | .send _, _ => True

/-- A program over files and the control channel that keeps to a scope. -/
abbrev SiteStays {α : Type} (scope : Scope) (Q : α → Prop) (p : SiteProg α) : Prop :=
  p.Obeys (SiteCall.Confined scope) (SiteCall.Promised scope) Q

theorem siteStays_onFiles {p : FsProg α} (hp : Stays scope Q p) : SiteStays scope Q (onFiles p) := by
  induction p with
  | done r => exact hp
  | call c next ih => exact ⟨hp.1, fun r hr => ih r (hp.2 r hr)⟩

theorem siteStays_sendControl {payload : Str} : SiteStays scope (fun _ => True) (sendControl payload) := by
  refine ⟨trivial, fun r _ => ?_⟩
  cases r with
  | error e => exact obeys_error
  | ok u => exact obeys_ok trivial

theorem siteStays_sendPayloads (payloads : List Str) :
    SiteStays scope (fun _ => True) (sendPayloads payloads) := by
  induction payloads with
  | nil => exact obeys_ok trivial
  | cons payload payloads ih => exact siteStays_sendControl.bind fun _ _ => ih

/-- States that are kept by calls on files are kept by calls on files and the control channel. -/
theorem upholds_site {E : Type} {refuse : (c : FsCall) → E → FsReply c} {refuse' : (c : SiteCall) → E → SiteReply c}
    {I : FS → Prop} (hrefuse : ∀ c e, refuse' (.file c) e = refuse c e)
    (h : Upholds machine refuse (FsCall.Confined scope) (FsCall.Promised scope) I) :
    Upholds siteMachine refuse' (SiteCall.Confined scope) (SiteCall.Promised scope) fun site => I site.fs := by
  constructor
  · intro c s hc hs
    cases c with
    | file c => exact h.answered c s.fs hc hs
    | send payload => exact ⟨trivial, hs⟩
  · intro c s t hc hs ht
    cases c with
    | file c => exact h.torn c s.fs t.fs hc hs ht.1
    | send payload => cases ht
  · intro c e hc
    cases c with
    | file c =>
      rw [hrefuse]
      exact h.refused c e hc
    | send payload => exact trivial

/-! ## Receiving by datagrams -/

section Udp

variable {r : UdpReceiver} {clock : Instant} {turn : Turn}

theorem siteStays_takeEvents (events : List ControlEvent) (hs : s.resume.Within scope pid) :
    SiteStays scope (fun s' => s'.resume.Within scope pid) (takeEvents pid file clock s events) := by
  induction events generalizing s with
  | nil => exact obeys_ok hs
  | cons event events ih =>
    cases event with
    | ended => exact ih hs
    | ping => exact siteStays_sendControl.bind fun _ _ => ih hs
    | completeAck => exact obeys_error
    | cancel reason => exact (siteStays_onFiles (stays_flushReceipts hs)).bind fun _ _ => obeys_error
    | error text => exact (siteStays_onFiles (stays_flushReceipts hs)).bind fun _ _ => obeys_error

theorem siteStays_reportIfDue {hello : Hello} (hs : s.resume.Within scope pid) :
    SiteStays scope (fun s' => s'.resume.Within scope pid) (reportIfDue hello s turn) := by
  refine obeys_ite (fun _ => siteStays_sendControl.bind fun _ _ => obeys_ok ?_) fun _ => obeys_ok hs
  exact hs

variable [Sha256]

theorem siteStays_startReceiving (hd : Serves scope r.pid r.destination) :
    SiteStays scope (fun started => scope.opened started.1 ∧ started.2.resume.Within scope r.pid)
      (startReceiving r clock) := by
  refine (siteStays_onFiles (stays_openReusing hd)).bind fun opened hopened => ?_
  obtain ⟨hfile, hs⟩ := hopened
  refine (siteStays_onFiles stays_advance).bind fun s heq => (siteStays_sendPayloads _).bind fun _ _ => ?_
  have hs' : s.resume.Within scope r.pid := by
    rw [heq]
    exact hs
  exact obeys_ok ⟨hfile, hs'⟩

theorem siteStays_completeReceiving {socketDrops : Option Nat} (ht : scope.targets r.destination)
    (hs : s.resume.Within scope r.pid) :
    SiteStays scope (fun _ => True) (completeReceiving r file s socketDrops) := by
  refine (siteStays_onFiles stays_advance).bind fun s' heq => ?_
  have hs' : s'.resume.Within scope r.pid := by
    rw [heq]
    exact hs
  refine obeys_ite (fun _ => obeys_error) fun _ => (siteStays_onFiles (stays_ask (by trivial))).bind fun _ _ => ?_
  refine obeys_ite (fun _ => ?_) fun _ => ?_
  · refine siteStays_sendControl.bind fun _ _ => ?_
    exact (siteStays_onFiles (stays_discard hs')).bind fun _ _ => obeys_error
  · refine (siteStays_onFiles (stays_install hs' ht)).bind fun _ _ => siteStays_sendControl.bind fun _ _ => ?_
    exact siteStays_sendControl.bind fun _ _ => obeys_ok trivial

/-- What is left to do after a turn is done in the scope, too. -/
theorem siteStays_receiveTurn (ht : scope.targets r.destination) (hfile : scope.opened file) (hs : s.resume.Within scope r.pid) :
    SiteStays scope (fun turned => ∀ s', turned = .running s' → s'.resume.Within scope r.pid)
      (receiveTurn r file s turn) := by
  have hbegin : SiteStays scope (fun s' => s'.resume.Within scope r.pid) (beginTurn r file s turn) :=
    (siteStays_onFiles (stays_takeSocket hfile hs _)).bind fun s' hs' => siteStays_takeEvents _ hs'
  refine hbegin.bind fun s' hs' => obeys_ite (fun _ => ?_) fun _ => ?_
  · exact (siteStays_completeReceiving ht hs').bind fun s'' _ => obeys_ok fun t ht => by cases ht
  · refine (siteStays_onFiles (stays_checkpointIfDue hs')).bind fun s'' hs'' => ?_
    refine (siteStays_reportIfDue hs'').bind fun t ht => obeys_ok fun t' ht' => ?_
    cases ht'
    exact ht

end Udp

/-! ## Receiving over connections -/

section Object

variable {temporary : Path} {hello : Hello} {answer : Except AnyError Str}

variable [Sha256]

end Object

/-! ## A tree -/

section Finish

variable {m : Manifest} {entries : List ManifestEntry}

end Finish

end PacketTide
