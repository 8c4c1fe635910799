import PacketTide.FileSystem.Proofs.BesidesProofs
import PacketTide.Proofs.QuietProofs
import PacketTide.Proofs.ResumeProofs
import PacketTide.Proofs.ScopedReceiveProofs
import PacketTide.Proofs.SiteProofs

/-!
# Half of a transfer

At every point of a transfer over connections, whichever calls fail, nothing has changed but files of the receiver
beside the destination and directories above it, the destination is as it was or holds the object, and if the sender
has been told of the object it is there.
-/

namespace PacketTide

open Effects FileSystem FS Prog Text

variable {fs t u : FS} {home : Loc} {dest path : Path} {v : View} {suffixes replaced : List (List UInt8)} {pid : Nat}
  {α : Type} {Q : α → Prop} {content : List UInt8} {sent : List Str}

/-! ## The scope of a receiver -/

theorem upholds_besides : Upholds machine refuse (FsCall.Confined (.beside home path suffixes replaced))
    (FsCall.Promised (.beside home path suffixes replaced)) (FS.Besides home path suffixes replaced v) := by
  refine ⟨fun c s hc hs => hs.answered hc, fun c s t hc hs ht => hs.torn hc ht, fun c e _ => ?_⟩
  cases c with
  | openFile path o => exact fun _ h hok => by cases hok
  | createDir path => exact fun hthere => hthere.elim
  | _ => exact trivial

theorem siteRefuse_file (c : FsCall) (e : Errno) : siteRefuse (.file c) e = refuse c e := rfl

theorem upholds_besides_site : Upholds siteMachine siteRefuse (SiteCall.Confined (.beside home path suffixes replaced))
    (SiteCall.Promised (.beside home path suffixes replaced)) fun site =>
      site.fs.Besides home path suffixes replaced v :=
  upholds_site siteRefuse_file upholds_besides

theorem climbs_beside : Climbs (.beside home dest suffixes replaced) dest := by
  refine ⟨fun parent hparent => ?_, fun below parent hbelow _ hparent => ?_⟩
  · unfold Path.parent at hparent
    split at hparent
    · cases hparent
    next hne =>
      cases hparent
      have hlen := List.length_pos_of_ne_nil hne
      exact ⟨dest.names.length - 1, by omega, by rw [List.dropLast_eq_take]⟩
  · obtain ⟨k, hk, rfl⟩ := hbelow
    unfold Path.parent at hparent
    split at hparent
    · cases hparent
    · cases hparent
      refine ⟨k - 1, by omega, ?_⟩
      rw [List.dropLast_eq_take, List.length_take, List.take_take, Nat.min_eq_left (Nat.le_of_lt hk),
        Nat.min_eq_left (Nat.sub_le k 1)]

theorem serves_beside : Serves (.beside home dest (objectSuffixes pid) replaced) pid dest where
  toClimbs := climbs_beside
  work s hs := ⟨s, hs, rfl⟩
  sources s hs := ⟨s, hs, rfl⟩
  targets s hs := ⟨s, List.mem_append_right _ hs, rfl⟩

theorem dest_target : (Scope.beside home dest suffixes [[]]).targets dest :=
  ⟨[], List.mem_cons_self, (appended_nil dest).symm⟩

theorem objectSuffix_ne (s : List UInt8) (hs : s ∈ objectSuffixes pid) : s ≠ [] ∧ 47 ∉ s := by
  have hdecimal : 47 ∉ decimal pid := fun hmem => absurd (List.mem_append_right _ hmem) (slash_not_mem_temporary pid)
  unfold objectSuffixes at hs
  simp only [List.mem_cons, List.not_mem_nil, or_false] at hs
  rcases hs with rfl | rfl | rfl | rfl
  · exact ⟨by decide, slash_not_mem_part⟩
  · exact ⟨by decide, slash_not_mem_map⟩
  · refine ⟨List.append_ne_nil_of_left_ne_nil (by decide) _, fun hmem => ?_⟩
    rcases List.mem_append.1 hmem with hmem | hmem
    · exact slash_not_mem_map hmem
    · exact slash_not_mem_temporary pid hmem
  · refine ⟨List.append_ne_nil_of_left_ne_nil (by decide) _, fun hmem => ?_⟩
    rcases List.mem_append.1 hmem with hmem | hmem
    · exact absurd hmem (by decide)
    · exact hdecimal hmem

/-! ## Files and the control channel -/

section Site

variable {site : Site} {I : FS → Prop} {answer : Except AnyError Str}

theorem sustains_onFiles {p : FsProg α} {K : α → FS → Prop} (h : Sustains machine refuse I p K site.fs) :
    Sustains siteMachine siteRefuse (fun t => I t.fs) (onFiles p) (fun a t => K a t.fs ∧ t.control = site.control) site :=
  ⟨throughout_onFiles h.throughout, fun a t hrun => ⟨h.returns a t.fs (succeeds_onFiles hrun).1,
    (succeeds_onFiles hrun).2⟩⟩

theorem sustains_sendControl {payload : Str} (h : I site.fs) :
    Sustains siteMachine siteRefuse (fun t => I t.fs) (sendControl payload)
      (fun _ t => t.fs = site.fs ∧ t.control.sent = site.control.sent ++ [payload]) site :=
  ⟨throughout_sendControl h, returns_sendControl fun _ _ hsent => ⟨rfl, hsent⟩⟩

theorem sustains_sendCompletionAndWait (h : I site.fs) :
    Sustains siteMachine siteRefuse (fun t => I t.fs) (sendCompletionAndWait answer)
      (fun _ t => t.fs = site.fs ∧ answer = .ok (ascii "COMPLETE_ACK") ∧
        t.control.sent = site.control.sent ++ [ascii "COMPLETE"]) site := by
  refine (sustains_sendControl h).bind fun _ t ht => ?_
  rw [← ht.1] at h
  rcases answer with e | acknowledgement
  · exact sustains_error h
  · refine Sustains.bind (K := fun a u => a = acknowledgement ∧ u = t) (sustains_ok h ⟨rfl, rfl⟩) fun a u hu => ?_
    obtain ⟨rfl, rfl⟩ := hu
    refine sustains_ite (fun _ => sustains_error h) fun heq => sustains_ok h ⟨ht.1, ?_, ht.2⟩
    rw [not_not.1 heq]

end Site

/-! ## Half of a transfer -/

theorem Placeable.besides (h : Placeable pid dest fs) :
    fs.Besides fs.home dest (objectSuffixes pid) replaced fs.view :=
  ⟨rfl, h.home, h.names_ne, h.above, h.beside, fun _ => .inl rfl⟩

/-- Nothing but files of the receiver has changed, and the destination is as it was or holds the object. -/
structure Halfway [Sha256] (home : Loc) (dest : Path) (pid : Nat) (hello : Hello) (v : View) (fs : FS) : Prop where
  besides : fs.Besides home dest (objectSuffixes pid) [[]] v
  destination : fs.view (home ++ dest.names) = v (home ++ dest.names) ∨ HoldsObject hello (fs.view (home ++ dest.names))

section Halfway

variable [Sha256] {hello : Hello} {site : Site}

/-- A change of the files of the receiver alone. -/
theorem Halfway.keep (h : Halfway home dest pid hello v fs) (ht : t.Besides home dest (objectSuffixes pid) [] fs.view) :
    Halfway home dest pid hello v t := by
  refine ⟨h.besides.trans (ht.mono _), ?_⟩
  rw [ht.view_path objectSuffix_ne]
  exact h.destination

theorem Halfway.looks (h : Halfway home dest pid hello v fs) (hl : t.Looks fs.home fs.view) :
    Halfway home dest pid hello v t :=
  h.keep (h.besides.refl.same hl)

/-- A program that works on the files of the receiver alone. -/
theorem sustains_halfway {p : SiteProg α} (hp : SiteStays (.beside home dest (objectSuffixes pid) []) Q p)
    (h : Halfway home dest pid hello v site.fs) :
    Sustains siteMachine siteRefuse (fun t => Halfway home dest pid hello v t.fs) p
      (fun a t => Q a ∧ t.fs.Besides home dest (objectSuffixes pid) [] site.fs.view) site :=
  (hp.sustains (upholds_besides_site (v := site.fs.view)) h.besides.refl).mono (fun _ ht => h.keep ht) fun _ _ ht => ht

/-- A program that only reads. -/
theorem sustains_reading {p : FsProg α} (hkeeps : p.Only FsCall.KeepsView)
    (hp : Stays (.beside home dest (objectSuffixes pid) []) Q p) (h : Halfway home dest pid hello v site.fs) :
    Sustains siteMachine siteRefuse (fun t => Halfway home dest pid hello v t.fs) (onFiles p)
      (fun a t => Q a ∧ t.fs.Looks site.fs.home site.fs.view ∧ t.control = site.control) site := by
  refine ((sustains_halfway (siteStays_onFiles hp) h).and fun a t hrun => ?_).mono (fun _ ht => ht) fun a t ht =>
    ⟨ht.1.1, ht.2⟩
  obtain ⟨hfiles, hcontrol⟩ := succeeds_onFiles hrun
  exact ⟨returns_keeps hkeeps a t.fs hfiles, hcontrol⟩

theorem leadsToObject_of_view (hhome : fs.home = home) (hne : dest.names ≠ [])
    (h : HoldsObject hello (fs.view (home ++ dest.names))) : LeadsToObject hello dest fs := by
  obtain ⟨content, hview, hhash⟩ := h
  refine ⟨home ++ dest.names, ?_, content, hview, hhash⟩
  rw [← hhome] at hview ⊢
  refine resolve_real ?_ (dirsTo_of_view (by rw [hview]; exact Option.some_ne_none _)) fun _ target hlink => ?_
  · rintro rfl
    exact hne rfl
  · rw [hview] at hlink
    cases hlink

theorem Halfway.leads (h : Halfway home dest pid hello v fs) (hobject : HoldsObject hello (fs.view (home ++ dest.names))) :
    LeadsToObject hello dest fs :=
  leadsToObject_of_view h.besides.home_eq h.besides.names_ne hobject

/-- A place holds the object in a file system. -/
def HoldsAt [Sha256] (hello : Hello) (p : Loc) (fs : FS) : Prop := HoldsObject hello (fs.view p)

/-- The same, and the sender has been told only if the object is there. -/
structure Moment [Sha256] (home : Loc) (dest : Path) (pid : Nat) (hello : Hello) (v : View) (sent : List Str)
    (there : FS → Prop) (t : Site) : Prop where
  halfway : Halfway home dest pid hello v t.fs
  honest : Told sent t → there t.fs

theorem Halfway.moment {t : Site} {there : FS → Prop} (h : Halfway home dest pid hello v t.fs) (hq : Quiet sent t) :
    Moment home dest pid hello v sent there t :=
  ⟨h, fun htold => absurd htold hq.not_told⟩

/-- A program that does not tell the sender. -/
theorem sustains_silent {p : SiteProg α} {K : α → Site → Prop} {there : FS → Prop}
    (h : Sustains siteMachine siteRefuse (fun t => Halfway home dest pid hello v t.fs) p K site)
    (hp : p.Only SiteCall.Silent) (hq : Quiet sent site) :
    Sustains siteMachine siteRefuse (Moment home dest pid hello v sent there) p (fun a t => K a t ∧ Quiet sent t) site :=
  ⟨fun t hv => (h.throughout t hv).moment (throughout_quiet hp hq t hv),
    h.returns.and (throughout_quiet hp hq).returns⟩

/-- A program that runs when the object is there. -/
theorem sustains_there {p : SiteProg α} {K : α → Site → Prop} {there : FS → Prop}
    (h : Sustains siteMachine siteRefuse (fun t => Halfway home dest pid hello v t.fs ∧ there t.fs) p K site) :
    Sustains siteMachine siteRefuse (Moment home dest pid hello v sent there) p K site :=
  h.mono (fun _ ht => ⟨ht.1, fun _ => ht.2⟩) fun _ _ ht => ht

end Halfway

/-! ## Directories above the destination -/

theorem returns_isDir (h : fs.Besides home dest suffixes replaced v) (hpath : dest.Above path) :
    Returns machine refuse (isDir path) (fun found t => t = fs ∧
      (found = true → fs.view (home ++ path.names) = some .dir)) fs := by
  refine returns_bind fun r t hrequest => ?_
  have hexec := succeeds_request hrequest
  have hsame : t = fs := by
    rcases hexec with hexec | ⟨hsame, -⟩
    · exact (congrArg Prod.snd hexec).symm
    · exact hsame
  dsimp only
  split
  next metadata =>
    refine returns_ok ⟨hsame, fun hdir => ?_⟩
    rcases hexec with hexec | ⟨-, e, hrefused⟩
    · exact h.view_of_stat hpath (congrArg Prod.fst hexec) (of_decide_eq_true hdir)
    · cases hrefused
  · exact returns_ok ⟨hsame, fun hdir => by cases hdir⟩

/-- Once the directories above a path have been made, the last of them is there. -/
theorem returns_createDirAll (n : Nat) (h : fs.Besides home dest suffixes replaced v) (hpath : dest.Above path) :
    Returns machine refuse (createDirAll n path) (fun _ t => t.view (home ++ path.names) = some .dir) fs := by
  have hclimbs : Climbs (.beside home dest suffixes replaced) dest := climbs_beside
  cases n with
  | zero => exact returns_error
  | succ n =>
    have hcreate : ∀ {fs t r}, fs.Besides home dest suffixes replaced v →
        Succeeds (ε := AnyError) machine refuse (tryCreateDir path) fs r t →
          t.Besides home dest suffixes replaced v ∧ (r = .ok () → t.view (home ++ path.names) = some .dir) := by
      intro fs t r h hrequest
      rcases succeeds_request hrequest with hexec | ⟨rfl, e, rfl⟩
      · have hbesides := h.createDir hpath
        rw [hexec] at hbesides
        refine ⟨hbesides, fun hok => ?_⟩
        rw [hok] at hexec
        exact h.view_created hpath hexec
      · exact ⟨h, fun hok => by cases hok⟩
    have hisDir : ∀ {fs} (e : Errno), fs.Besides home dest suffixes replaced v → Returns machine refuse
        (do if ← isDir path then return () else Prog.fail (.io e) : FsProg Unit)
          (fun _ t => t.view (home ++ path.names) = some .dir) fs := by
      intro fs e h
      refine returns_bind ((returns_isDir h hpath).mono fun found t hfound => ?_)
      obtain ⟨rfl, hdir⟩ := hfound
      split
      next htrue => exact returns_ok (hdir htrue)
      · exact returns_error
    rw [createDirAll]
    split
    next hempty =>
      refine returns_ok ?_
      rw [hempty, Path.empty, List.append_nil]
      exact h.home_dir
    · refine returns_bind fun r t hrequest => ?_
      obtain ⟨ht, hok⟩ := hcreate h hrequest
      split
      · exact returns_ok (hok rfl)
      · split
        · exact returns_error
        next parent hparent =>
          have habove := hclimbs.next path parent hpath id hparent
          refine returns_bind (((stays_createDirAll hclimbs n habove).returns upholds_besides ht).mono fun _ u hu => ?_)
          refine returns_bind fun r w hrequest => ?_
          obtain ⟨hw, hok⟩ := hcreate hu.2 hrequest
          split
          · exact returns_ok (hok rfl)
          · exact hisDir _ hw
      · exact hisDir _ ht

/-- The directories above the destination are there once they have been made. -/
theorem returns_createParents (h : fs.Besides home dest suffixes replaced v) :
    Returns machine refuse (createParents dest) (fun _ t => DirsTo home t.view dest.names) fs := by
  have hclimbs : Climbs (.beside home dest suffixes replaced) dest := climbs_beside
  unfold createParents
  split
  next hnone =>
    rw [Path.parent, if_neg h.names_ne] at hnone
    cases hnone
  next parent hparent =>
    have habove := hclimbs.parent parent hparent
    rw [Path.parent, if_neg h.names_ne] at hparent
    cases hparent
    refine (returns_createDirAll _ h habove).mono fun _ t hdir => ?_
    have hdirs : DirsTo home t.view dest.names.dropLast :=
      dirsTo_of_view (by rw [hdir]; exact Option.some_ne_none _)
    rw [← List.dropLast_append_getLast h.names_ne]
    exact dirsTo_append.2 ⟨hdirs, dirsTo_singleton.2 hdir⟩

/-! ## Installing -/

section Install

variable [Sha256] {hello : Hello} {site : Site} {answer : Except AnyError Str}

/-- Making the directories above the destination leaves the files of the receiver as they are. -/
theorem sustains_createParents (h : Halfway home dest pid hello v fs) :
    Sustains machine refuse (Halfway home dest pid hello v) (createParents dest)
      (fun _ t => Halfway home dest pid hello v t ∧ DirsTo home t.view dest.names ∧
        ∀ s, t.view (home ++ (dest.appended s).names) = fs.view (home ++ (dest.appended s).names)) fs := by
  have hstays : Stays (.beside home dest (objectSuffixes pid) []) (fun _ => True) (createParents dest) :=
    stays_createParents climbs_beside
  have hspares : Stays (.beside home dest [] []) (fun _ => True) (createParents dest) := stays_createParents climbs_beside
  have hstart : fs.Besides home dest [] [] fs.view :=
    ⟨h.besides.home_eq, h.besides.home_dir, h.besides.names_ne, h.besides.above, fun s hs => absurd hs List.not_mem_nil,
      fun _ => .inl rfl⟩
  refine (((hstays.sustains (upholds_besides (v := fs.view)) h.besides.refl).and
    (hspares.returns (upholds_besides (v := fs.view)) hstart)).and (returns_createParents h.besides)).mono
      (fun _ ht => h.keep ht) fun _ t ht => ⟨h.keep ht.1.1.2, ht.2, fun s => ?_⟩
  rcases ht.1.2.2.outside (home ++ (dest.appended s).names) with hsame | ⟨s', hs', -⟩ | ⟨⟨k, hk, hplace⟩, -⟩
  · exact hsame
  · exact absurd hs' List.not_mem_nil
  · exact absurd hplace.symm (Besides.place_ne_above home dest s hk)

/-- Moving the temporary file to the destination puts the object there, in one step. -/
theorem sustains_rename (h : Halfway home dest pid hello v fs)
    (hfile : fs.view (home ++ (temporaryPath pid dest).names) = some (.file content))
    (hhash : hex (Sha256.digest content).bytes = hello.hash) :
    Sustains machine refuse (Halfway home dest pid hello v) (ask (.rename (temporaryPath pid dest) dest))
      (fun _ t => Halfway home dest pid hello v t ∧ HoldsObject hello (t.view (home ++ dest.names))) fs := by
  have hmoved : ∀ t, FS.exec (.rename (temporaryPath pid dest) dest) fs = (.ok (), t) →
      Halfway home dest pid hello v t ∧ HoldsObject hello (t.view (home ++ dest.names)) := by
    intro t hexec
    have hbesides := h.besides.rename ⟨_, temporary_mem pid, rfl⟩ ⟨[], List.mem_cons_self, (appended_nil dest).symm⟩
    rw [show dest.appended (ascii ".part." ++ decimal pid) = temporaryPath pid dest from rfl, hexec] at hbesides
    have hexec' : FS.exec (.rename (dest.appended (ascii ".part." ++ decimal pid)) (dest.appended [])) fs =
        (.ok (), t) := by
      rw [appended_nil]
      exact hexec
    have hview := h.besides.view_renamed (temporary_mem pid) hfile hexec'
    rw [appended_nil] at hview
    have hobject : HoldsObject hello (t.view (home ++ dest.names)) := ⟨content, hview, hhash⟩
    exact ⟨⟨hbesides, .inr hobject⟩, hobject⟩
  refine ⟨?_, returns_ask fun _ t hexec => hmoved t hexec⟩
  refine throughout_call h (fun _ htorn => by cases htorn) (fun e => throughout_done h) ?_
  rw [exec_machine]
  rcases hexec : FS.exec (.rename (temporaryPath pid dest) dest) fs with ⟨e | _, t⟩
  · refine throughout_done ?_
    rw [exec_rename_error hexec]
    exact h
  · exact throughout_done (hmoved t hexec).1

theorem sustains_installFile (h : Halfway home dest pid hello v fs)
    (hfile : fs.view (home ++ (temporaryPath pid dest).names) = some (.file content))
    (hhash : hex (Sha256.digest content).bytes = hello.hash) :
    Sustains machine refuse (Halfway home dest pid hello v) (installFile (temporaryPath pid dest) dest)
      (fun _ t => Halfway home dest pid hello v t ∧ HoldsObject hello (t.view (home ++ dest.names))) fs := by
  refine (sustains_createParents h).bind fun _ t ht => sustains_rename ht.1 ?_ hhash
  exact (ht.2.2 _).trans hfile

/-- What a transfer comes to: the object is there, the sender has been told, and this is its answer. -/
structure Completed (hello : Hello) (p : Loc) (answer : Except AnyError Str) (sent : List Str) (t : Site) : Prop where
  object : HoldsAt hello p t.fs
  answer : answer = .ok (ascii "COMPLETE_ACK")
  told : Told sent t

/-- Installing the temporary file and telling the sender. -/
theorem sustains_finish (h : Halfway home dest pid hello v site.fs) (hq : Quiet sent site)
    (hfile : site.fs.view (home ++ (temporaryPath pid dest).names) = some (.file content))
    (hhash : hex (Sha256.digest content).bytes = hello.hash) :
    Sustains siteMachine siteRefuse (Moment home dest pid hello v sent (HoldsAt hello (home ++ dest.names)))
      (do
        onFiles (installFile (temporaryPath pid dest) dest)
        sendCompletionAndWait answer)
      (fun _ t => Completed hello (home ++ dest.names) answer sent t) site := by
  have hinstall := sustains_onFiles (sustains_installFile h hfile hhash)
  refine (sustains_silent hinstall (silent_onFiles _) hq).bind fun _ t ht => ?_
  obtain ⟨⟨⟨h', hobject⟩, -⟩, hq'⟩ := ht
  have htells := @sustains_sendCompletionAndWait t
    (fun fs => Halfway home dest pid hello v fs ∧ HoldsAt hello (home ++ dest.names) fs) answer ⟨h', hobject⟩
  refine (sustains_there htells).mono (fun _ hu => hu) fun _ u hu => ?_
  refine ⟨?_, hu.2.1, hq'.tell hu.2.2 List.mem_cons_self⟩
  rw [hu.1]
  exact hobject

/-- The sender is told that the hash does not match. -/
theorem sustains_mismatch {β : Type} {K : β → Site → Prop} {e : AnyError} (h : Halfway home dest pid hello v site.fs)
    (hq : Quiet sent site) :
    Sustains siteMachine siteRefuse (Moment home dest pid hello v sent (HoldsAt hello (home ++ dest.names)))
      (do
        sendControl (ascii "ERROR hash-mismatch")
        Prog.fail e) K site := by
  refine (sustains_silent (sustains_sendControl h) (silent_sendControl (by decide)) hq).bind fun _ t ht => ?_
  rw [← ht.1.1] at h
  exact sustains_error (h.moment ht.2)

end Install

/-! ## Over connections -/

theorem splice_end (new old : List UInt8) : splice old.length new old = old ++ new := by
  unfold splice
  split
  next hnil => rw [hnil, List.append_nil]
  · rw [List.take_length, Nat.sub_self, List.replicate_zero, List.append_nil, List.drop_eq_nil_of_le (Nat.le_add_right _ _),
      List.append_nil]

/-- The file holds what has been hashed. -/
theorem returns_receiveBody {file : Loc} (n remaining : Nat) {hashed : List UInt8} (stream : DataStream)
    (hfile : fs.view file = some (.file hashed)) :
    Returns machine refuse (receiveBody file n remaining hashed stream)
      (fun received t => t.view file = some (.file received.1)) fs := by
  induction n generalizing remaining hashed stream fs with
  | zero => exact returns_ok hfile
  | succ n ih =>
    rw [receiveBody]
    split
    · exact returns_ok hfile
    · split
      · exact returns_error
      · exact returns_error
      next b bytes stream _ =>
        refine returns_bind (returns_ask fun _ t hexec => ih _ _ ?_)
        obtain ⟨u, hexec', hlooks⟩ := exec_writeAt_file fs.looks_self hfile hashed.length (b :: bytes)
        cases hexec.symm.trans hexec'
        rw [hlooks.view_eq, Function.update_self, splice_end]

/-- A file that has been opened to be written afresh is empty, and it is beside the destination. -/
theorem Besides.created {suffix : List UInt8} {file : Loc} (h : fs.Besides home path suffixes replaced v)
    (hs : suffix ∈ suffixes)
    (hexec : FS.exec (.openFile (path.appended suffix) { write := true, create := true, truncate := true }) fs =
      (.ok file, t)) :
    file = home ++ (path.appended suffix).names ∧ t.view file = some (.file []) := by
  rcases h.slot hs true with ⟨hok, hslot⟩ | ⟨e, he⟩
  · obtain ⟨u, hexec', hlooks⟩ := @exec_create_slot _ _ _ _ 0o644 ⟨h.home_eq, rfl⟩ hslot
    cases hexec.symm.trans hexec'
    rw [hlooks.view_eq, Function.update_self]
    exact ⟨rfl, rfl⟩
  · have hres : fs.resolve (!(false || false)) (path.appended suffix) = .error e := he
    rw [FS.exec, hres] at hexec
    cases hexec

section Connections

variable [Sha256] {hello : Hello} {site : Site} {answer : Except AnyError Str}

theorem sustains_completeTcp (file : Loc) {hashed : List UInt8} (h : Halfway home dest pid hello v site.fs)
    (hq : Quiet sent site) (hfile : site.fs.view (home ++ (temporaryPath pid dest).names) = some (.file hashed)) :
    Sustains siteMachine siteRefuse (Moment home dest pid hello v sent (HoldsAt hello (home ++ dest.names)))
      (completeTcp (temporaryPath pid dest) dest hello file hashed answer)
      (fun _ t => Completed hello (home ++ dest.names) answer sent t) site := by
  have hsync := sustains_reading (only_ask (c := .sync file) trivial) (stays_ask (by trivial)) h
  refine (sustains_silent hsync (silent_onFiles _) hq).bind fun _ t ht => ?_
  obtain ⟨⟨-, hlooks, -⟩, hq'⟩ := ht
  have h' := h.looks hlooks
  refine sustains_ite (fun _ => sustains_mismatch h' hq') fun hhash => sustains_finish h' hq' ?_ (not_not.1 hhash)
  rw [hlooks.view_eq]
  exact hfile

theorem sustains_receiveTcp (stream : DataStream) (h : Halfway home dest pid hello v site.fs) (hq : Quiet sent site) :
    Sustains siteMachine siteRefuse (Moment home dest pid hello v sent (HoldsAt hello (home ++ dest.names)))
      (receiveTcp (temporaryPath pid dest) dest hello stream answer)
      (fun _ t => Completed hello (home ++ dest.names) answer sent t) site := by
  have hserves : Serves (.beside home dest (objectSuffixes pid) []) pid dest := serves_beside
  have hwork := hserves.work _ (temporary_mem pid)
  have hopen : Returns siteMachine siteRefuse
      (onFiles (ask (.openFile (temporaryPath pid dest) { write := true, create := true, truncate := true })))
        (fun file t => file = home ++ (temporaryPath pid dest).names ∧ t.fs.view file = some (.file [])) site :=
    returns_onFiles (returns_ask fun file t hexec => Besides.created h.besides (temporary_mem pid) hexec)
  have hopens := (sustains_halfway (siteStays_onFiles (stays_ask (by exact .inr hwork))) h).and hopen
  refine (sustains_silent hopens (silent_onFiles _) hq).bind fun file t ht => ?_
  obtain ⟨⟨⟨hopened, hbesides⟩, rfl, hfile⟩, hq'⟩ := ht
  have h' := h.keep hbesides
  have hbody : Returns siteMachine siteRefuse
      (onFiles (receiveBody (home ++ (temporaryPath pid dest).names) hello.size hello.size [] stream))
        (fun received u => u.fs.view (home ++ (temporaryPath pid dest).names) = some (.file received.1)) t :=
    returns_onFiles (returns_receiveBody _ _ stream hfile)
  have hreceives := (sustains_halfway (siteStays_onFiles (stays_receiveBody (hopened hwork _ rfl) _ _ _ _)) h').and hbody
  refine (sustains_silent hreceives (silent_onFiles _) hq').bind fun received u hu => ?_
  obtain ⟨⟨⟨-, hbesides'⟩, hfile'⟩, hq''⟩ := hu
  exact sustains_completeTcp _ (h'.keep hbesides') hq'' hfile'

/-- The hash that is compared is that of what is in the temporary file. -/
theorem returns_hashFile (h : fs.Besides home path suffixes replaced v) {suffix : List UInt8} (hs : suffix ∈ suffixes) :
    Returns machine refuse (hashFile (path.appended suffix))
      (fun hash t => t.Looks fs.home fs.view ∧ ∃ content,
        fs.view (home ++ (path.appended suffix).names) = some (.file content) ∧ hash = Sha256.digest content) fs := by
  refine returns_bind (returns_ask fun file t hopen => returns_bind (returns_ask fun bytes u hread => returns_ok ?_))
  have hsame : (FS.exec (.openFile (path.appended suffix) {}) fs).2 = fs := exec_openFile_snd rfl rfl rfl
  rw [hopen] at hsame
  obtain rfl : t = fs := hsame
  have hlooks := looks_exec (c := .readToEnd file) trivial t.looks_self
  rw [hread] at hlooks
  refine ⟨hlooks, bytes, ?_, rfl⟩
  obtain ⟨s, -, hplace⟩ := h.opened ⟨suffix, hs, rfl⟩ (congrArg Prod.fst hopen)
  rcases h.slot hs true with ⟨hok, -⟩ | ⟨e, he⟩
  · rw [← exec_openFile_eq_ok (o := {}) hok hopen]
    exact view_of_readToEnd hread
  · have hres : t.resolve (!(false || false)) (path.appended suffix) = .error e := he
    rw [FS.exec, hres] at hopen
    cases hopen

theorem sustains_completeTcp4 (file : Loc) (h : Halfway home dest pid hello v site.fs) (hq : Quiet sent site) :
    Sustains siteMachine siteRefuse (Moment home dest pid hello v sent (HoldsAt hello (home ++ dest.names)))
      (completeTcp4 (temporaryPath pid dest) dest hello file answer)
      (fun _ t => Completed hello (home ++ dest.names) answer sent t) site := by
  have hsync := sustains_reading (only_ask (c := .sync file) trivial) (stays_ask (by trivial)) h
  refine (sustains_silent hsync (silent_onFiles _) hq).bind fun _ t ht => ?_
  obtain ⟨⟨-, hlooks, -⟩, hq'⟩ := ht
  have h' := h.looks hlooks
  have hhashed : Returns siteMachine siteRefuse (onFiles (hashFile (temporaryPath pid dest)))
      (fun hash u => u.fs.Looks t.fs.home t.fs.view ∧ ∃ content,
        t.fs.view (home ++ (temporaryPath pid dest).names) = some (.file content) ∧ hash = Sha256.digest content) t :=
    returns_onFiles (returns_hashFile h'.besides (temporary_mem pid))
  have hreads : (hashFile (temporaryPath pid dest)).Only FsCall.KeepsView :=
    (only_ask ⟨rfl, rfl, rfl⟩).bind fun _ => (only_ask trivial).bind fun _ => only_done _
  have hhashes := (sustains_reading hreads stays_hashFile h').and hhashed
  refine (sustains_silent hhashes (silent_onFiles _) hq').bind fun hash u hu => ?_
  obtain ⟨⟨⟨-, hlooks', -⟩, -, content, hfile, rfl⟩, hq''⟩ := hu
  have h'' := h'.looks hlooks'
  refine sustains_ite (fun _ => sustains_mismatch h'' hq'') fun hhash => sustains_finish h'' hq'' ?_ (not_not.1 hhash)
  rw [hlooks'.view_eq]
  exact hfile

theorem sustains_receiveTcp4 (auth : Auth.SessionAuth) (events : Tcp4Events)
    (h : Halfway home dest pid hello v site.fs) (hq : Quiet sent site) :
    Sustains siteMachine siteRefuse (Moment home dest pid hello v sent (HoldsAt hello (home ++ dest.names)))
      (receiveTcp4 auth (temporaryPath pid dest) dest hello events answer)
      (fun received t => received ≠ none → Completed hello (home ++ dest.names) answer sent t) site := by
  have hserves : Serves (.beside home dest (objectSuffixes pid) []) pid dest := serves_beside
  have hlanes := @stays_receiveLanes _ _ _ _ auth hello.size events hserves
  refine (sustains_silent (sustains_halfway (siteStays_onFiles hlanes) h) (silent_onFiles _) hq).bind
    fun received t ht => ?_
  obtain ⟨⟨-, hbesides⟩, hq'⟩ := ht
  have h' := h.keep hbesides
  cases received with
  | none => exact sustains_ok (h'.moment hq') fun hne => absurd rfl hne
  | some file =>
    refine (sustains_completeTcp4 file h' hq').kept.bind fun _ u hu => sustains_ok hu.2 fun _ => ?_
    exact hu.1

end Connections

end PacketTide
