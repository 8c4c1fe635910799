import PacketTide.Proofs.ConsistencyProofs
import PacketTide.Proofs.HalfwayProofs
import PacketTide.Proofs.TreeReceiptProofs

/-!
# An object is received completely or not at all

At every point of a run of a receiver, over any transport and whichever calls fail, nothing has changed but its own
files beside the destination, and the destination is as it was or holds the object. A run that ends well has told
the sender of an object that is there, and has heard its acknowledgement.
-/

namespace PacketTide

open Effects FileSystem FS Prog Text

variable {fs : FS} {home : Loc} {dest : Path} {v : View} {pid : Nat} {α : Type} {content : List UInt8}
  {site t : Site} {sent : List Str}

/-! ## The object at its destination -/

theorem exec_readToEnd_snd (file : Loc) (fs : FS) : (FS.exec (.readToEnd file) fs).2 = fs := by
  rw [FS.exec]
  split <;> rfl

section Object

variable [Sha256] {hello : Hello}

/-- A destination that is found to hold the object does so. -/
theorem returns_holdsObject :
    Returns machine refuse (holdsObject dest hello) (fun found t => t = fs ∧ (found = true → LeadsToObject hello dest t))
      fs := by
  refine returns_bind fun r t hrequest => ?_
  have hsame : t = fs := by
    rcases succeeds_request hrequest with hexec | ⟨hsame, -⟩
    · exact (congrArg Prod.snd hexec).symm
    · exact hsame
  obtain rfl := hsame
  dsimp only
  split
  · exact returns_ok ⟨rfl, fun hf => by cases hf⟩
  · split
    · refine returns_bind (returns_ask fun file u hopen => returns_bind (returns_ask fun bytes w hread => returns_ok ?_))
      have hsame : (FS.exec (.openFile dest {}) t).2 = t := exec_openFile_snd rfl rfl rfl
      rw [hopen] at hsame
      obtain rfl : u = t := hsame
      have hsame := exec_readToEnd_snd file u
      rw [hread] at hsame
      obtain rfl : w = u := hsame
      refine ⟨rfl, fun hhash => ?_⟩
      rcases hres : w.resolve true dest with e | p
      · have hres' : w.resolve (!(false || false)) dest = .error e := hres
        rw [FS.exec, hres'] at hopen
        cases hopen
      · obtain rfl := exec_openFile_eq_ok (o := {}) hres hopen
        exact ⟨file, hres, bytes, view_of_readToEnd hread, of_decide_eq_true hhash⟩
    · exact returns_ok ⟨rfl, fun hf => by cases hf⟩

end Object

/-! ## By datagrams -/

section Datagrams

variable [Sha256] {hello : Hello} {r : UdpReceiver} {file : Loc} {s : Receiving}

theorem Halfway.sited (h : Halfway home dest pid hello v fs) (hdirs : DirsTo home fs.view dest.names) :
    Sited pid fs.home fs.view dest := by
  rw [h.besides.home_eq]
  refine ⟨h.besides.names_ne, hdirs, h.besides.leaf _ (part_mem pid), h.besides.leaf _ (map_mem pid), ?_⟩
  rw [temporaryOf_mapOf]
  exact h.besides.leaf _ (mapTemporary_mem pid)

/-- The end of a transfer does not tell the sender before the object is there. -/
theorem honest_completeReceiving (hb : r.hello.Bounded) (hs : s.Sound r content)
    (hd : OnDisk r.pid r.destination file content site.fs) (hfull : s.resume.receivedCount = r.hello.chunks)
    (hq : Quiet sent site) (socketDrops : Option Nat) :
    Throughout siteMachine siteRefuse (fun t => Told sent t → LeadsToObject r.hello r.destination t.fs)
      (completeReceiving r file s socketDrops) site := by
  have hhonest : ∀ t, Quiet sent t → Told sent t → LeadsToObject r.hello r.destination t.fs :=
    fun t hquiet htold => absurd htold hquiet.not_told
  obtain ⟨hend, hhashed⟩ := hs.advanced_full hb hfull
  obtain ⟨u, hrun, hlu⟩ := run_advance hb hs hd
  have hadvance := throughout_quiet (silent_onFiles (advanceHashFrontier file r.hello.chunkLayout s)) hq
  have hhashes : Returns siteMachine siteRefuse (onFiles (advanceHashFrontier file r.hello.chunkLayout s))
      (fun s₁ t => s₁ = s.advanced r content ∧ OnDisk r.pid r.destination file content t.fs) site :=
    returns_onFiles (strict_advance.returns hrun ⟨rfl, hd.looks hlu⟩)
  refine throughout_bind (hadvance.mono hhonest) ((hadvance.returns.and hhashes).mono fun s₁ t ht => ?_)
  obtain ⟨hquiet, hs₁, hdt⟩ := ht
  rw [hs₁, hend, hhashed]
  rw [if_neg (not_not.2 rfl)]
  have hsync := throughout_quiet (silent_onFiles (ask (.sync file))) hquiet
  have hsynced : Returns siteMachine siteRefuse (onFiles (ask (.sync file)))
      (fun _ w => OnDisk r.pid r.destination file content w.fs) t :=
    returns_onFiles ((returns_keeps (only_ask (c := .sync file) trivial)).mono fun _ _ hl => hdt.looks hl)
  refine throughout_bind (hsync.mono hhonest) ((hsync.returns.and hsynced).mono fun _ w hw => ?_)
  obtain ⟨hquiet', hdw⟩ := hw
  split
  · refine (throughout_quiet ?_ hquiet').mono hhonest
    exact (silent_sendControl (by decide)).bind fun _ => (silent_onFiles _).bind fun _ => only_done _
  next hhash =>
    have hadvanced := hs.advanced
    obtain ⟨-, hmoved⟩ := throughout_install hdw hadvanced.partPath hadvanced.mapPath
    have hinstall := throughout_quiet (silent_onFiles ((s.advanced r content).resume.install r.destination)) hquiet'
    refine throughout_bind (hinstall.mono hhonest) (returns_onFiles (hmoved.mono fun _ x hx => ?_))
    have hleads : LeadsToObject r.hello r.destination x :=
      leadsToObject_of_view hx.home hd.sited.names_ne ⟨content, hx.destination, not_not.1 hhash⟩
    have htells : Throughout siteMachine siteRefuse (fun y => LeadsToObject r.hello r.destination y.fs)
        (do
          sendControl (formatFeedbackReport ((s.advanced r content).update socketDrops).telemetry [])
          sendControl (ascii "COMPLETE")
          return (s.advanced r content).update socketDrops) ⟨x, w.control⟩ :=
      throughout_bind (throughout_sendControl hleads) (returns_sendControl fun _ _ _ =>
        throughout_bind (throughout_sendControl hleads) (returns_sendControl fun _ _ _ => throughout_done hleads))
    exact htells.mono fun _ hy _ => hy

/-- A loop that goes on is in a state in which the receipts, the hash and the open file fit together, and has not told
the sender; one that has ended has put the object to its destination and has told the sender. -/
def TurnsTo (r : UdpReceiver) (file : Loc) (sent : List Str) : Turned → Site → Prop
  | .running s, t => Quiet sent t ∧ ∃ content, s.Sound r content ∧ OnDisk r.pid r.destination file content t.fs
  | .completed _, t => Told sent t

theorem sustains_receiveTurn (hb : r.hello.Bounded) (hs : s.Sound r content)
    (hd : OnDisk r.pid r.destination file content site.fs) (h : Halfway home r.destination r.pid r.hello v site.fs)
    (hq : Quiet sent site) (turn : Turn) :
    Sustains siteMachine siteRefuse (Moment home r.destination r.pid r.hello v sent (LeadsToObject r.hello r.destination)) (receiveTurn r file s turn)
      (TurnsTo r file sent) site := by
  have hhome := h.besides.home_eq
  have hbegin : Throughout siteMachine siteRefuse (Quiet sent) (beginTurn r file s turn) site :=
    throughout_quiet silent_beginTurn hq
  refine ⟨fun t hv => ⟨⟨?_, ?_⟩, ?_⟩, fun turned t hrun => ?_⟩
  · have hwithin : s.resume.Within (.beside home r.destination (objectSuffixes r.pid) [[]]) r.pid :=
      (@within_forObject _ _ _ r.identity serves_beside []).same hs.partPath hs.mapPath
    have hopened : (Scope.beside home r.destination (objectSuffixes r.pid) [[]]).opened file := by
      refine ⟨_, part_mem r.pid, ?_⟩
      rw [hd.place, hhome]
      rfl
    have hframe : Throughout siteMachine siteRefuse
        (fun t => t.fs.Besides home r.destination (objectSuffixes r.pid) [[]] v) (receiveTurn r file s turn) site :=
      (siteStays_receiveTurn dest_target hopened hwithin).throughout upholds_besides_site h.besides
    exact hframe t hv
  · have hdest := (throughout_receiveTurn hb hs hd turn t hv).destination
    rw [hhome] at hdest
    rcases hdest with hsame | hobject
    · rw [hsame]
      exact h.destination
    · exact .inr hobject
  · have hhonest : ∀ u, Quiet sent u → Told sent u → LeadsToObject r.hello r.destination u.fs :=
      fun u hquiet htold => absurd htold hquiet.not_told
    refine throughout_bind (hbegin.mono hhonest)
      ((hbegin.returns.and (returns_beginTurn hb hs hd turn)).mono fun s₂ u hu => ?_) t hv
    obtain ⟨hquiet, content', hbegun⟩ := hu
    split
    next hfull =>
      have hcomplete := honest_completeReceiving hb hbegun.sound hbegun.disk hfull.2 hquiet turn.socketDrops
      exact throughout_bind hcomplete (hcomplete.returns.mono fun _ _ hw => throughout_done hw)
    · refine (throughout_quiet ?_ hquiet).mono hhonest
      exact (silent_onFiles _).bind fun _ => silent_reportIfDue.bind fun _ => only_done _
  · cases turned with
    | running s' =>
      obtain ⟨content', hwent⟩ := wentOn_of_succeeds hb hs hd hrun
      refine ⟨?_, content', hwent.sound, hwent.disk⟩
      obtain ⟨s₂, u, hrun', hrest⟩ := succeeds_bind hrun
      have hquiet := hbegin.returns _ _ hrun'
      split at hrest
      · obtain ⟨s₃, w, -, hdone⟩ := succeeds_bind hrest
        cases (succeeds_done hdone).1
      · refine (throughout_quiet ?_ hquiet).returns _ _ hrest
        exact (silent_onFiles _).bind fun _ => silent_reportIfDue.bind fun _ => only_done _
    | completed s' =>
      obtain ⟨s₂, u, hrun', hrest⟩ := succeeds_bind hrun
      obtain ⟨content', hbegun⟩ := returns_beginTurn hb hs hd turn s₂ u hrun'
      have hquiet := hbegin.returns _ _ hrun'
      split at hrest
      next hfull =>
        obtain ⟨s₃, w, hcomplete, hdone⟩ := succeeds_bind hrest
        obtain ⟨-, rfl⟩ := succeeds_done hdone
        obtain ⟨-, -, -, -, hsent⟩ :=
          (completing hb hbegun.sound hbegun.disk hfull.2 turn.socketDrops).returns _ _ hcomplete
        exact hquiet.tell hsent (List.mem_cons_of_mem _ List.mem_cons_self)
      · obtain ⟨s₃, w, -, hrest⟩ := succeeds_bind hrest
        obtain ⟨s₄, x, -, hdone⟩ := succeeds_bind hrest
        cases (succeeds_done hdone).1

/-- Turn after turn the invariant is kept, until the sender is told. -/
theorem sustains_receiveTurns (hb : r.hello.Bounded) (turns : List Turn) (hs : s.Sound r content)
    (hd : OnDisk r.pid r.destination file content site.fs) (h : Halfway home r.destination r.pid r.hello v site.fs)
    (hq : Quiet sent site) :
    Sustains siteMachine siteRefuse (Moment home r.destination r.pid r.hello v sent (LeadsToObject r.hello r.destination)) (receiveTurns r file s turns)
      (fun turned t => ∀ s', turned = .completed s' → Told sent t) site := by
  induction turns generalizing s content site with
  | nil => exact sustains_ok (h.moment hq) fun s' heq => by cases heq
  | cons turn turns ih =>
    refine (sustains_receiveTurn hb hs hd h hq turn).kept.bind fun turned t ht => ?_
    obtain ⟨hturned, hmoment⟩ := ht
    cases turned with
    | running s' =>
      obtain ⟨hq', content', hs', hd'⟩ := hturned
      exact ih hs' hd' hmoment.halfway hq'
    | completed s' => exact sustains_ok hmoment fun _ _ => hturned

end Datagrams

theorem sustains_awaitAcknowledgement {I : FS → Prop} (awaited : List Awaited) (h : I site.fs) :
    Sustains siteMachine siteRefuse (fun t => I t.fs) (awaitAcknowledgement awaited)
      (fun _ t => t.fs = site.fs ∧ .event .completeAck ∈ awaited) site := by
  induction awaited generalizing site with
  | nil => exact sustains_error h
  | cons first awaited ih =>
    rcases first with event | _ | _
    · cases event with
      | completeAck => exact sustains_ok h ⟨rfl, List.mem_cons_self⟩
      | ping =>
        refine (sustains_sendControl h).bind fun _ t ht => ?_
        rw [← ht.1] at h
        refine (ih h).mono (fun _ hu => hu) fun _ u hu => ?_
        exact ⟨hu.1.trans ht.1, List.mem_cons_of_mem _ hu.2⟩
      | ended => exact (ih h).mono (fun _ hu => hu) fun _ u hu => ⟨hu.1, List.mem_cons_of_mem _ hu.2⟩
      | cancel reason => exact sustains_error h
      | error text => exact sustains_error h
    · exact sustains_error h
    · exact sustains_error h

theorem sustains_reportComplete {I : FS → Prop} {hello : Hello} {socketDrops : Option Nat}
    {answer : Except AnyError Str} (h : I site.fs) :
    Sustains siteMachine siteRefuse (fun t => I t.fs) (reportComplete hello socketDrops answer)
      (fun _ t => t.fs = site.fs ∧ answer = .ok (ascii "COMPLETE_ACK") ∧ ∃ report,
        t.control.sent = site.control.sent ++ [report, ascii "COMPLETE"]) site := by
  refine (sustains_sendControl h).bind fun _ t ht => ?_
  rw [← ht.1] at h
  refine (sustains_sendControl h).bind fun _ u hu => ?_
  rw [← hu.1] at h
  rcases answer with e | acknowledgement
  · exact sustains_error h
  · refine sustains_ite (fun _ => sustains_error h) fun heq => sustains_ok h ⟨hu.1.trans ht.1, ?_,
      formatFeedbackReport (completeTelemetry hello socketDrops) [], ?_⟩
    · rw [not_not.1 heq]
    · rw [hu.2, ht.2, List.append_assoc]
      rfl

theorem outside_of_besides {t : FS} {replaced : List (List UInt8)} (hreplaced : ∀ s ∈ replaced, s = [])
    (h : t.Besides home dest (objectSuffixes pid) replaced v) (q : Loc) :
    t.view q = v q ∨ q = home ++ dest.names ∨ (∃ s ∈ objectSuffixes pid, q = home ++ (dest.appended s).names) ∨
      (∃ k < dest.names.length, q = home ++ dest.names.take k) ∧ v q = none ∧ t.view q = some .dir := by
  rcases h.outside q with hsame | ⟨s, hs, hplace⟩ | hdir
  · exact .inl hsame
  · rcases List.mem_append.1 hs with hs | hs
    · rw [hreplaced s hs, appended_nil] at hplace
      exact .inr (.inl hplace)
    · exact .inr (.inr (.inl ⟨s, hs, hplace⟩))
  · exact .inr (.inr (.inr hdir))

section Objects

variable [Sha256] {hello : Hello} {r : UdpReceiver}

theorem sustains_receiveUdp (script : UdpScript) (hr : r.Able)
    (h : Halfway home r.destination r.pid r.hello v site.fs) (hdirs : DirsTo home site.fs.view r.destination.names)
    (hq : Quiet sent site) :
    Sustains siteMachine siteRefuse (Moment home r.destination r.pid r.hello v sent (LeadsToObject r.hello r.destination)) (receiveUdp r script)
      (fun received t => received ≠ none → LeadsToObject r.hello r.destination t.fs ∧
        (script.answer = .ok (ascii "COMPLETE_ACK") ∨ .event .completeAck ∈ script.awaited) ∧ Told sent t) site := by
  have hserves : Serves (.beside home r.destination (objectSuffixes r.pid) []) r.pid r.destination := serves_beside
  have hholds : Returns siteMachine siteRefuse (onFiles (holdsObject r.destination r.hello))
      (fun found t => t = site ∧ (found = true → LeadsToObject r.hello r.destination t.fs)) site :=
    returns_onFiles (returns_holdsObject.mono fun found t ht => ⟨by rw [ht.1], ht.2⟩)
  have hlooks := (sustains_halfway (siteStays_onFiles stays_holdsObject) h).and hholds
  refine (sustains_silent hlooks (silent_onFiles _) hq).bind fun found t ht => ?_
  obtain ⟨⟨-, rfl, hleads⟩, -⟩ := ht
  refine sustains_ite (fun hfound => ?_) fun _ => ?_
  · have htells := @sustains_reportComplete t
      (fun fs => Halfway home r.destination r.pid r.hello v fs ∧ LeadsToObject r.hello r.destination fs) r.hello
      script.socketDrops script.answer ⟨h, hleads hfound⟩
    refine (sustains_there htells).kept.bind fun telemetry u hu => sustains_ok hu.2 fun _ => ?_
    obtain ⟨⟨hsame, hanswer, report, hsent⟩, -⟩ := hu
    rw [hsame]
    exact ⟨hleads hfound, .inl hanswer, hq.tell hsent (List.mem_cons_of_mem _ List.mem_cons_self)⟩
  · have hstarts := (sustains_halfway (siteStays_startReceiving hserves) h).and
      (returns_startReceiving_of_able hr script.clock (h.sited hdirs))
    refine (sustains_silent hstarts silent_startReceiving hq).bind fun started u hu => ?_
    obtain ⟨⟨⟨-, hbesides⟩, reused, content, hentered⟩, hq'⟩ := hu
    refine (sustains_receiveTurns hr.bounded script.turns hentered.sound hentered.disk (h.keep hbesides) hq').kept.bind
      fun turned w hw => ?_
    obtain ⟨hturned, hmoment⟩ := hw
    cases turned with
    | running s => exact sustains_ok hmoment fun hne => absurd rfl hne
    | completed s =>
      have htold := hturned s rfl
      have hthere := hmoment.honest htold
      have hawaits := @sustains_awaitAcknowledgement w
        (fun fs => Halfway home r.destination r.pid r.hello v fs ∧ LeadsToObject r.hello r.destination fs)
        script.awaited ⟨hmoment.halfway, hthere⟩
      refine ((sustains_there hawaits).kept.and (sent_grows _)).bind fun _ x hx => ?_
      obtain ⟨⟨⟨hsame, hack⟩, hlast⟩, hgrows⟩ := hx
      refine sustains_ok hlast fun _ => ⟨?_, .inr hack, htold.later hgrows⟩
      rw [hsame]
      exact hthere

/-! ## The whole receiver -/

theorem Moment.leads (h : Moment home dest pid hello v sent (HoldsAt hello (home ++ dest.names)) t) :
    Moment home dest pid hello v sent (LeadsToObject hello dest) t :=
  ⟨h.halfway, fun htold => h.halfway.leads (h.honest htold)⟩

/-- A temporary file that is removed is one of the files of the receiver. -/
theorem sustains_removing {transfer : SiteProg α} {K : α → Site → Prop}
    (h : Sustains siteMachine siteRefuse (Moment home dest pid hello v sent (HoldsAt hello (home ++ dest.names)))
      transfer K site) :
    Sustains siteMachine siteRefuse (Moment home dest pid hello v sent (LeadsToObject hello dest))
      (removing (temporaryPath pid dest) transfer) K site := by
  have hserves : Serves (.beside home dest (objectSuffixes pid) []) pid dest := serves_beside
  have hwork := hserves.work _ (temporary_mem pid)
  refine (h.attempt.mono (fun _ ht => ht.leads) fun _ _ ht => ht).bind fun r t ht => ?_
  cases r with
  | error e =>
    have hframe : Throughout siteMachine siteRefuse (fun u => u.fs.Besides home dest (objectSuffixes pid) [] t.fs.view)
        (onFiles (tryRemove (temporaryPath pid dest))) t :=
      (siteStays_onFiles (obeys_request (by exact hwork))).throughout upholds_besides_site ht.1.halfway.besides.refl
    have hmoment : Throughout siteMachine siteRefuse (Moment home dest pid hello v sent (LeadsToObject hello dest))
        (onFiles (tryRemove (temporaryPath pid dest))) t := by
      intro u hv
      refine Moment.leads ⟨ht.1.halfway.keep (hframe u hv), fun htold => ?_⟩
      have hcontrol := (visits_onFiles hv).2
      unfold Told at htold
      rw [hcontrol] at htold
      unfold HoldsAt
      rw [(hframe u hv).view_path objectSuffix_ne]
      exact ht.1.honest htold
    exact Sustains.bind ⟨hmoment, hmoment.returns⟩ fun _ u hu => sustains_error hu
  | ok a => exact sustains_ok ht.1.leads (ht.2 a rfl)

/-- A manifest that is used has been read as the greeting announces it. -/
theorem read_of_readReuse {lines : List Str} {m : Cdc.Manifest} (h : readReuse hello lines = .ok (some m)) :
    ∃ count hash payloads, Cdc.readReuseManifest hello.size count hash payloads = .ok m := by
  unfold readReuse at h
  split at h
  · cases h
  next count hash _ =>
    refine ⟨count, hash, lines, ?_⟩
    rcases hread : Cdc.readReuseManifest hello.size count hash lines with e | manifest
    · rw [hread] at h
      cases h
    · rw [hread] at h
      cases h
      rfl

theorem sustains_receiveGreeted {args : ReceiveArgs} {script : ObjectScript} {auth : Auth.SessionAuth}
    (hb : hello.Bounded) (h : Halfway home args.out pid hello v site.fs) (hq : Quiet sent site) :
    Sustains siteMachine siteRefuse (Moment home args.out pid hello v sent (LeadsToObject hello args.out))
      (receiveGreeted pid args script auth hello)
      (fun received t => received ≠ none → LeadsToObject hello args.out t.fs ∧ script.Acknowledges hello.transport ∧
        Told sent t) site := by
  have hchecks := sustains_halfway (siteStays_onFiles (stays_checked (r := readReuse hello script.lines))) h
  refine (sustains_silent hchecks (silent_onFiles _) hq).bind fun reuse t ht => ?_
  obtain ⟨⟨hreuse, hbesides⟩, hq'⟩ := ht
  refine (sustains_silent (sustains_onFiles (sustains_createParents (h.keep hbesides))) (silent_onFiles _) hq').bind
    fun _ u hu => ?_
  obtain ⟨⟨⟨h', hdirs, -⟩, -⟩, hq''⟩ := hu
  have hready : Sustains siteMachine siteRefuse (Moment home args.out pid hello v sent (LeadsToObject hello args.out)) (sendControl (readyPayload hello))
      (fun _ w => Halfway home args.out pid hello v w.fs ∧ Quiet sent w) u := by
    refine (sustains_silent (sustains_sendControl h') (silent_sendControl (ready_ne_complete hello)) hq'').mono
      (fun _ hw => hw) fun _ w hw => ⟨?_, hw.2⟩
    rw [hw.1.1]
    exact h'
  dsimp only
  cases htransport : hello.transport with
  | tcp =>
    refine hready.bind fun _ w hw => ?_
    refine (sustains_removing (sustains_receiveTcp script.stream hw.1 hw.2)).kept.bind fun _ x hx => ?_
    exact sustains_ok hx.2 fun _ => ⟨hx.2.halfway.leads hx.1.object, hx.1.answer, hx.1.told⟩
  | tcp4 =>
    refine hready.bind fun _ w hw => ?_
    refine (sustains_removing (sustains_receiveTcp4 auth script.lanes hw.1 hw.2)).kept.bind fun received x hx => ?_
    refine sustains_ok hx.2 fun hne => ?_
    have hreceived : received ≠ none := by
      rintro rfl
      exact hne rfl
    have hcompleted := hx.1 hreceived
    exact ⟨hx.2.halfway.leads hcompleted.object, hcompleted.answer, hcompleted.told⟩
  | udp =>
    dsimp only
    split
    · exact sustains_error (h'.moment hq'')
    next identity hidentity =>
      have hable : UdpReceiver.Able ⟨pid, args.out, hello, identity, auth.udp,
          reuse.bind fun manifest => args.reuseFrom.map fun candidate => (manifest, candidate)⟩ := by
        refine ⟨hb, hidentity, fun m candidate hsome => ?_⟩
        obtain ⟨m', hm', hpair⟩ := Option.bind_eq_some_iff.1 hsome
        obtain ⟨candidate', -, heq⟩ := Option.map_eq_some_iff.1 hpair
        cases heq
        rw [hm'] at hreuse
        exact read_of_readReuse hreuse
      refine (sustains_receiveUdp script.udp hable h' hdirs hq'').kept.bind fun telemetry x hx => ?_
      refine sustains_ok hx.2 fun hne => ?_
      have hreceived : telemetry ≠ none := by
        rintro rfl
        exact hne rfl
      exact hx.1 hreceived

/-! ## Every moment -/

variable {script : ObjectScript}

theorem Halfway.progress {t : FS} (h : Halfway fs.home dest pid hello fs.view t) (hgreets : script.Greets hello) :
    ObjectProgress pid script dest fs t := by
  refine ⟨outside_of_besides (fun s hs => List.mem_singleton.1 hs) h.besides, ?_⟩
  rcases h.destination with hsame | hobject
  · exact .inl hsame
  · exact .inr ⟨hello, hgreets, hobject⟩

theorem progress_of_besides {t : FS} (h : t.Besides fs.home dest (objectSuffixes pid) [] fs.view) :
    ObjectProgress pid script dest fs t :=
  ⟨outside_of_besides (fun _ hs => absurd hs List.not_mem_nil) h, .inl (h.view_path objectSuffix_ne)⟩

/-- A moment of a receiver: it has not been greeted yet, or it works on the object of the greeting. -/
def ReceiveMoment (pid : Nat) (script : ObjectScript) (dest : Path) (site t : Site) : Prop :=
  t.fs.Besides site.fs.home dest (objectSuffixes pid) [] site.fs.view ∧ Quiet site.control.sent t ∨
    ∃ hello, script.Greets hello ∧
      Moment site.fs.home dest pid hello site.fs.view site.control.sent (LeadsToObject hello dest) t

theorem sustains_receiveOn (args : ReceiveArgs) (script : ObjectScript) (h : Placeable pid args.out site.fs) :
    Sustains siteMachine siteRefuse (ReceiveMoment pid script args.out site) (receiveOn pid args script)
      (fun received t => received ≠ none → ObjectReceived script args.out site t) site := by
  have hloaded : Throughout siteMachine siteRefuse
      (fun t => t.fs.Besides site.fs.home args.out (objectSuffixes pid) [] site.fs.view)
        (onFiles (SecretKey.load args.keyFile)) site :=
    (siteStays_onFiles stays_load).throughout upholds_besides_site h.besides
  have hself : Quiet site.control.sent site := quiet_self
  have hquiet := throughout_quiet (silent_onFiles (SecretKey.load args.keyFile)) hself
  refine Sustains.bind ⟨fun t hv => .inl ⟨hloaded t hv, hquiet t hv⟩, hloaded.returns.and hquiet.returns⟩
    fun key t ht => ?_
  obtain ⟨hbesides, hq⟩ := ht
  have hmoment : ReceiveMoment pid script args.out site t := .inl ⟨hbesides, hq⟩
  rcases hhandshake : script.handshake key with stop | ⟨body, auth⟩
  · cases stop with
    | panic => exact sustains_ok hmoment fun hne => absurd rfl hne
    | error e => exact sustains_error hmoment
  · refine Sustains.bind (K := fun out u => out = some (body, auth) ∧ u = t) (sustains_ok hmoment ⟨rfl, rfl⟩)
      fun out u hu => ?_
    obtain ⟨rfl, rfl⟩ := hu
    dsimp only
    rcases hparse : parseHello body with stop | parsed
    · cases stop with
      | panic => exact sustains_ok hmoment fun hne => absurd rfl hne
      | error e => exact sustains_error hmoment
    · refine Sustains.bind (K := fun out w => out = some parsed ∧ w = u) (sustains_ok hmoment ⟨rfl, rfl⟩)
        fun out w hw => ?_
      obtain ⟨rfl, rfl⟩ := hw
      have hgreets : script.Greets { parsed with session := auth.session } :=
        ⟨key, body, auth, parsed, hhandshake, hparse, rfl⟩
      have hbounded : { parsed with session := auth.session }.Bounded := { (parseHello_ok hparse).1 with }
      have hhalfway : Halfway site.fs.home args.out pid { parsed with session := auth.session } site.fs.view w.fs :=
        ⟨hbesides.mono _, .inl (hbesides.view_path objectSuffix_ne)⟩
      refine (sustains_receiveGreeted hbounded hhalfway hq).mono (fun _ hx => .inr ⟨_, hgreets, hx⟩)
        fun received x hx hne => ?_
      obtain ⟨hleads, hack, htold⟩ := hx hne
      exact ⟨⟨_, hgreets, hleads, hack⟩, htold⟩

/-- At every point of a run of a receiver, whatever the sender does and whichever calls fail, nothing has changed but
its own files beside the destination and directories above it that were missing, and the destination is as it was or
holds the object of the greeting. A run that ends well has put the object there, has told the sender, and has heard
its acknowledgement. -/
theorem object_received_or_untouched (args : ReceiveArgs) (script : ObjectScript) (h : Placeable pid args.out site.fs) :
    Sustains siteMachine siteRefuse (fun t => ObjectProgress pid script args.out site.fs t.fs)
      (receiveOn pid args script) (fun received t => received ≠ none → ObjectReceived script args.out site t) site := by
  refine (sustains_receiveOn args script h).mono (fun t ht => ?_) fun _ _ ht => ht
  rcases ht with ⟨hbesides, -⟩ | ⟨hello, hgreets, hmoment⟩
  · exact progress_of_besides hbesides
  · exact hmoment.halfway.progress hgreets

end Objects

section Example

open Sample

/-- A sender sends a file of one byte over a connection. -/
def Sample.sevenObject : ObjectScript where
  handshake _ := .ok (sevenGreeting.hello, sevenAuth)
  stream := { input := [.ok 7] }
  answer := .ok (ascii "COMPLETE_ACK")

theorem Sample.placeable_keyed : Placeable 1 ⟨none, [d]⟩ keyed.fs := by
  have hbeside : ∀ s ∈ objectSuffixes 1, keyed.fs.view (keyed.fs.home ++ (Path.appended ⟨none, [d]⟩ s).names) = none := by
    decide
  refine ⟨by decide, rfl, fun k hk => .inr ?_, fun s hs => .inl (hbeside s hs)⟩
  obtain rfl : k = 0 := Nat.lt_one_iff.1 hk
  rfl

/-- A file of one byte, received over TCP. -/
theorem object_received_or_untouched_seven :
    ObjectReceived sevenObject ⟨none, [d]⟩ keyed
      ((receiveOn 1 ⟨⟨none, [d]⟩, ⟨none, [k]⟩, none⟩ sevenObject).run siteMachine keyed).2 :=
  (object_received_or_untouched ⟨⟨none, [d]⟩, ⟨none, [k]⟩, none⟩ sevenObject placeable_keyed).returns
    (some none) _ (Succeeds.of_fst (by decide +kernel)) (Option.some_ne_none _)

end Example

end PacketTide
