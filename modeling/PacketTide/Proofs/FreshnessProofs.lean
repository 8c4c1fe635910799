import PacketTide.Proofs.AgreementProofs
import PacketTide.Proofs.SessionProofs

/-!
# Freshness for clients

A client's greeting is all that it contributes to the transcript of its session. Clients with
different greetings never accept anything from the same server; clients with the same greeting do, and
only `send` puts something fresh into its greeting.
-/

namespace PacketTide.Auth

open Effects FileSystem Prog Text

/-! ## Greetings -/

theorem graphic_wireName (transport : Transport) :
    Graphic transport.wireName ∧ transport.wireName ≠ ascii "DIR" := by
  cases transport <;> decide

theorem plain_fields (g : SendGreeting) : ∀ f ∈ g.fields, Plain f := by
  have hr0 : Plain (ascii "R0") := by decide
  have hr1 : Plain (ascii "R1") := by decide
  have hreuse : ∀ f ∈ reuseGreeting g.reuse, Plain f := by
    rcases g.reuse with _ | ⟨count, hash⟩
    · simp [reuseGreeting, hr0]
    · simp [reuseGreeting, hr1, plain_decimal, plain_hex]
  simp only [SendGreeting.fields, List.mem_append]
  rintro f (hf | hf)
  · simp only [List.mem_cons, List.not_mem_nil, or_false] at hf
    rcases hf with rfl | rfl | rfl | rfl | rfl | rfl | rfl | rfl
    · exact (graphic_wireName g.transport).1.plain
    · exact plain_decimal _
    · exact plain_hex _
    · exact plain_hex _
    · exact plain_decimal _
    · exact plain_decimal _
    · exact plain_decimal _
    · exact plain_decimal _
  · exact hreuse f hf

theorem plain_directoryFields (hash : Hash) (entries : Nat) :
    ∀ f ∈ [ascii "DIR", hex hash.bytes, decimal entries], Plain f := by
  have hdir : Plain (ascii "DIR") := by decide
  intro f hf
  simp only [List.mem_cons, List.not_mem_nil, or_false] at hf
  rcases hf with rfl | rfl | rfl
  · exact hdir
  · exact plain_hex _
  · exact plain_decimal _

theorem hex_injective {bytes bytes' : List UInt8} (h : hex bytes = hex bytes') : bytes = bytes' := by
  have hlen : bytes.length = bytes'.length := by
    have hhex := congrArg List.length h
    rw [length_hex, length_hex] at hhex
    omega
  have hdecode := decodeArray_hex (rfl : bytes.length = bytes.length)
  rw [h, decodeArray_hex hlen.symm] at hdecode
  exact (Except.ok.inj hdecode).symm

/-- The fields of a greeting are read off it. -/
theorem fields_injective {fields fields' : List Str} (h : ∀ f ∈ fields, Plain f)
    (h' : ∀ f ∈ fields', Plain f) (hne : fields ≠ []) (hne' : fields' ≠ [])
    (heq : [space].intercalate fields = [space].intercalate fields') : fields = fields' := by
  rw [← splitOn_fields h hne, heq, splitOn_fields h' hne']

/-- Sessions with the same greeting offer the same session id, or send the same directory. -/
theorem hello_injective {start start' : Start} (h : start.hello = start'.hello) :
    (∃ g g', start = .send g ∧ start' = .send g' ∧ g.offeredSession = g'.offeredSession) ∨
      ∃ hash entries, start = .sendDir hash entries ∧ start' = .sendDir hash entries := by
  cases start with
  | send g =>
    cases start' with
    | send g' =>
      have hfields := fields_injective (plain_fields g) (plain_fields g') (by simp [SendGreeting.fields])
        (by simp [SendGreeting.fields]) h
      have hoffer : (g.fields)[3]? = (g'.fields)[3]? := by rw [hfields]
      have hhex : hex g.offeredSession.toList = hex g'.offeredSession.toList := Option.some.inj hoffer
      exact .inl ⟨g, g', rfl, rfl, Vector.toList_inj.1 (hex_injective hhex)⟩
    | sendDir hash entries =>
      have hfields := fields_injective (plain_fields g) (plain_directoryFields hash entries)
        (by simp [SendGreeting.fields]) (by simp) h
      have hname : (g.fields)[0]? = some (ascii "DIR") := by
        rw [hfields]
        rfl
      exact absurd (Option.some.inj hname) (graphic_wireName g.transport).2
  | sendDir hash entries =>
    cases start' with
    | send g =>
      have hfields := fields_injective (plain_directoryFields hash entries) (plain_fields g)
        (by simp) (by simp [SendGreeting.fields]) h
      have hname : (g.fields)[0]? = some (ascii "DIR") := by
        rw [← hfields]
        rfl
      exact absurd (Option.some.inj hname) (graphic_wireName g.transport).2
    | sendDir hash' entries' =>
      have hfields := fields_injective (plain_directoryFields hash entries)
        (plain_directoryFields hash' entries') (by simp) (by simp) h
      simp only [List.cons.injEq, and_true, true_and] at hfields
      obtain ⟨hhash, hentries⟩ := hfields
      obtain rfl := hash_bytes_injective (hex_injective hhash)
      obtain rfl := decimal_injective hentries
      exact .inr ⟨hash, entries, rfl, rfl⟩

/-! ## What clients accept and servers vouch for -/

section Sessions

variable [Sha256] {p : Party}

/-- A client accepts the response of one transcript, which holds its greeting, and after that the
frames of the session of that transcript. -/
theorem Party.client_accepts {hello : Str} (hrole : p.role = .client hello) {m : Hash × List UInt8}
    (hm : m ∈ p.final.accepted) :
    ∃ challenge nonce : List UInt8, challenge.length = 32 ∧ nonce.length = 32 ∧
      (p.key, serverHelloInput (transcriptOf challenge hello nonce)) ∈ p.final.accepted ∧
      (m = (p.key, serverHelloInput (transcriptOf challenge hello nonce)) ∨
        ∃ n payload, m = ((deriveSession p.key (transcriptOf challenge hello nonce)).s2c,
          controlMacInput (deriveSession p.key (transcriptOf challenge hello nonce)).session
            .serverToClient n payload)) := by
  obtain ⟨r, w, hstage, hend⟩ := p.client_stage hrole
  cases hstage with
  | silent hv ha =>
    rcases hend with ⟨_, _, _, rfl⟩ | ⟨_, _, hr, -⟩
    · rw [ha] at hm
      cases hm
    · cases hr
  | greeted hlen hv ha =>
    rcases hend with ⟨_, _, _, rfl⟩ | ⟨_, _, hr, -⟩
    · rw [ha] at hm
      cases hm
    · cases hr
  | @convinced _ _ challenge nonce hlen hlen' hv ha =>
    rcases hend with ⟨_, _, _, rfl⟩ | ⟨_, _, hr, -⟩
    · rw [ha] at hm ⊢
      exact ⟨challenge, nonce, hlen, hlen', List.mem_singleton_self _,
        .inl (List.mem_singleton.1 hm)⟩
    · cases hr
  | @finished _ challenge nonce hlen hlen' hv ha =>
    rcases hend with ⟨_, hr, -⟩ | ⟨auth, channel, hr, -, hlog⟩
    · cases hr
    cases hr
    refine ⟨challenge, nonce, hlen, hlen', hlog.kept' _ ?_, ?_⟩
    · rw [ha]
      exact List.mem_singleton_self _
    · rcases hlog.accepted m hm with hm | ⟨n, payload, rfl⟩
      · rw [ha] at hm
        exact .inl (List.mem_singleton.1 hm)
      · exact .inr ⟨n, payload, rfl⟩

/-- A server vouches for the response of one transcript, which holds the values it drew, and after
that for the frames of the session of that transcript. -/
theorem Party.server_vouches (hrole : p.role = .server) :
    ∃ challenge nonce : Hash, ∃ hello : Str, ∀ m ∈ p.final.vouched,
      (p.key, serverHelloInput (transcriptOf challenge.bytes hello nonce.bytes)) ∈ p.final.vouched ∧
      (m = (p.key, serverHelloInput (transcriptOf challenge.bytes hello nonce.bytes)) ∨
        ∃ n payload, m =
          ((deriveSession p.key (transcriptOf challenge.bytes hello nonce.bytes)).s2c,
            controlMacInput
              (deriveSession p.key (transcriptOf challenge.bytes hello nonce.bytes)).session
              .serverToClient n payload)) := by
  obtain ⟨r, w, hstage, hend⟩ := p.server_stage hrole
  have hnone : ∀ {e : Stop}, w.vouched = [] → r = .error e → p.final.vouched = [] := by
    intro e hv hr
    rcases hend with ⟨_, _, _, rfl⟩ | ⟨_, _, _, hr', -⟩
    · exact hv
    · cases hr.symm.trans hr'
  cases hstage with
  | silent hv ha =>
    refine ⟨Vector.replicate 32 0, Vector.replicate 32 0, [], fun m hm => ?_⟩
    rw [hnone hv rfl] at hm
    cases hm
  | greeted hv ha =>
    refine ⟨Vector.replicate 32 0, Vector.replicate 32 0, [], fun m hm => ?_⟩
    rw [hnone hv rfl] at hm
    cases hm
  | @responded _ _ challenge nonce _ hello hdraws hv ha =>
    refine ⟨challenge, nonce, hello, fun m hm => ?_⟩
    rcases hend with ⟨_, _, _, rfl⟩ | ⟨_, _, _, hr, -⟩
    · rw [hv] at hm ⊢
      exact ⟨List.mem_singleton_self _, .inl (List.mem_singleton.1 hm)⟩
    · cases hr
  | @finished _ challenge nonce _ hello hdraws hv ha =>
    refine ⟨challenge, nonce, hello, fun m hm => ?_⟩
    rcases hend with ⟨_, hr, -⟩ | ⟨_, auth, channel, hr, -, hlog⟩
    · cases hr
    cases hr
    refine ⟨hlog.kept _ ?_, ?_⟩
    · rw [hv]
      exact List.mem_singleton_self _
    · rcases hlog.vouched m hm with hm | ⟨n, payload, rfl, -⟩
      · rw [hv] at hm
        exact .inl (List.mem_singleton.1 hm)
      · exact .inr ⟨n, payload, rfl⟩

/-- A client that has returned accepted the response of its own transcript. -/
theorem Party.client_established {hello hello' : Str} (hrole : p.role = .client hello)
    {auth : SessionAuth} (h : p.Established hello' auth) :
    ∃ challenge nonce : List UInt8, challenge.length = 32 ∧ nonce.length = 32 ∧
      auth = deriveSession p.key (transcriptOf challenge hello nonce) ∧
      (p.key, serverHelloInput (transcriptOf challenge hello nonce)) ∈ p.final.accepted := by
  obtain ⟨channel, h⟩ := h
  obtain ⟨r, w, hstage, hend⟩ := p.client_stage hrole
  rcases hend with ⟨_, _, hr, -⟩ | ⟨auth', channel', rfl, houtcome, hlog⟩
  · rw [hr] at h
    cases h
  · rw [houtcome] at h
    cases h
    cases hstage with
    | @finished _ challenge nonce hlen hlen' hv ha =>
      refine ⟨challenge, nonce, hlen, hlen', rfl, hlog.kept' _ ?_⟩
      rw [ha]
      exact List.mem_singleton_self _

/-- No client vouches for a response. -/
theorem Party.client_response {hello : Str} (hrole : p.role = .client hello) {key : Hash}
    {transcript : List UInt8} : (key, serverHelloInput transcript) ∉ p.final.vouched := by
  intro h
  have hkind : (serverHelloInput transcript).take 13 ≠ ascii "tsu4 control" ++ [0] := by
    rw [take_serverHelloInput]
    decide
  obtain ⟨r, w, hstage, hend⟩ := p.client_stage hrole
  have hw : (key, serverHelloInput transcript) ∈ w.vouched := by
    rcases hend with ⟨_, _, _, rfl⟩ | ⟨_, _, _, _, hlog⟩
    · exact h
    · exact hlog.vouched_handshake h hkind
  obtain ⟨challenge, -, hall⟩ := hstage.challenge
  rcases hall _ hw with heq | ⟨transcript', heq⟩
  · exact ne_of_take (take_serverHelloInput _) (take_clientHelloInput _ _) (by decide)
      (Prod.mk.inj heq).2
  · exact ne_of_take (take_serverHelloInput _) (take_clientFinishInput _) (by decide)
      (Prod.mk.inj heq).2

end Sessions

/-! ## Freshness -/

section Freshness

variable [Sha256] {ι : Type} {parties : ι → Party}

/-- The receiver's control key determines the key and the transcript it was derived from. -/
theorem eq_of_s2c (hinjective : InjectiveKeys parties) {i k : ι} {transcript transcript' : List UInt8}
    (hi : (parties i).Transcript transcript) (hk : (parties k).Transcript transcript')
    (h : (deriveSession (parties i).key transcript).s2c =
      (deriveSession (parties k).key transcript').s2c) :
    (parties i).key = (parties k).key ∧ transcript = transcript' := by
  obtain ⟨hroot, -⟩ := hinjective _ _ _ _ (.control hi) (.control hk) h
  obtain ⟨hkey, htranscript⟩ :=
    hinjective _ _ _ _ (.root hi) (.root hk) (hash_bytes_injective hroot)
  exact ⟨hash_bytes_injective hkey, sessionRootInput_injective htranscript⟩

/-- All clients that accept something from one server have its key and one greeting. -/
theorem exists_hello_of_accepts (hinjective : InjectiveKeys parties) {k : ι}
    (hk : (parties k).role = .server) :
    ∃ greeted, ∀ i hello, (parties i).role = .client hello → ∀ m ∈ (parties k).final.vouched,
      m ∈ (parties i).final.accepted → (parties i).key = (parties k).key ∧ hello = greeted := by
  obtain ⟨challenge, nonce, greeted, hvouches⟩ := (parties k).server_vouches hk
  refine ⟨greeted, fun i hello hi m hm ha => ?_⟩
  obtain ⟨challenge', nonce', hlen, hlen', haccepted, hclient⟩ := (parties i).client_accepts hi ha
  obtain ⟨hvouched, hserver⟩ := hvouches m hm
  have hsame : (parties i).key = (parties k).key ∧
      transcriptOf challenge' hello nonce' = transcriptOf challenge.bytes greeted nonce.bytes := by
    rcases hclient with rfl | ⟨n, payload, rfl⟩
    · rcases hserver with heq | ⟨n, payload, heq⟩
      · obtain ⟨hkey, hmessage⟩ := Prod.mk.inj heq
        exact ⟨hkey, serverHelloInput_injective hmessage⟩
      · exact absurd (Prod.mk.inj heq).2
          (ne_of_take (take_serverHelloInput _) (take_controlMacInput _ _ _ _) (by decide))
    · rcases hserver with heq | ⟨n', payload', heq⟩
      · exact absurd (Prod.mk.inj heq).2
          (ne_of_take (take_controlMacInput _ _ _ _) (take_serverHelloInput _) (by decide))
      · exact eq_of_s2c hinjective (.inl haccepted) (.inr hvouched) (Prod.mk.inj heq).1
  refine ⟨hsame.1, ?_⟩
  exact (transcriptOf_injective (hlen.trans (length_hash_bytes _).symm)
    (hlen'.trans (length_hash_bytes _).symm) hsame.2).2.1

/-- In a run in which no key is used to send a directory twice, every client that returns has a
server of its own. -/
theorem fresh_clients {starts : ι → Start} (hideal : Ideal starts parties)
    (hdirectories : FreshDirectories starts parties) : FreshClients parties where
  responded i hello auth hi h := by
    obtain ⟨challenge, nonce, hlen, hlen', rfl, haccepted⟩ := (parties i).client_established hi h
    obtain ⟨k, hvouched⟩ := hideal.unforgeable i _ haccepted
    rcases hk : (parties k).role with hello' | _
    · exact absurd hvouched ((parties k).client_response hk)
    · have hkind : (serverHelloInput (transcriptOf challenge hello nonce)).take 13 ≠
          ascii "tsu4 control" ++ [0] := by
        rw [take_serverHelloInput]
        decide
      obtain ⟨hkey, challenge', nonce', rest, hello', hdraws, hmessage⟩ :=
        (parties k).server_response hk hvouched hkind
      obtain ⟨rfl, rfl, rfl⟩ := transcriptOf_injective (hlen.trans (length_hash_bytes _).symm)
        (hlen'.trans (length_hash_bytes _).symm) (serverHelloInput_injective hmessage)
      exact ⟨k, challenge', nonce', rest, hk, hkey.symm, hdraws, hvouched, haccepted, rfl⟩
  unshared i i' k hello hello' hi hi' hk m hm m' hm' ha ha' := by
    obtain ⟨greeted, hall⟩ := exists_hello_of_accepts hideal.injectiveKeys hk
    obtain ⟨hkey, rfl⟩ := hall i hello hi m hm ha
    obtain ⟨hkey', rfl⟩ := hall i' hello' hi' m' hm' ha'
    have hstart := (hideal.started i hello' hi).symm.trans (hideal.started i' hello' hi')
    rcases hello_injective hstart with ⟨g, g', hg, hg', hoffer⟩ | ⟨hash, entries, hd, hd'⟩
    · exact hideal.freshOffers i i' hello' hello' g g' hi hi' hg hg' hoffer
    · exact hdirectories i i' hello' hello' hash entries hi hi' (hkey.trans hkey'.symm) hd hd'

end Freshness

/-! ## A replayed session -/

section Transcripts

variable [Sha256] {key challenge nonce : Hash} {hello : Str} {ι : Type}

/-- All parties have one transcript. -/
theorem transcript_replayed (hhello : Printable hello)
    (hlen : hello.length + 71 ≤ maxHandshakeLine) {i : Option ι} {transcript : List UInt8}
    (h : (replayed key challenge nonce hello ι i).Transcript transcript) :
    (replayed key challenge nonce hello ι i).key = key ∧
      transcript = pairedTranscript challenge nonce hello := by
  have hkinds : ∀ transcript' transcript'' : List UInt8,
      serverHelloInput transcript' ≠ clientFinishInput transcript'' := fun _ _ =>
    ne_of_take (take_serverHelloInput _) (take_clientFinishInput _) (by decide)
  have hkinds' : ∀ (transcript' challenge' : List UInt8) (hello' : Str),
      serverHelloInput transcript' ≠ clientHelloInput challenge' hello' := fun _ _ _ =>
    ne_of_take (take_serverHelloInput _) (take_clientHelloInput _ _) (by decide)
  cases i with
  | none =>
    have hserver : (pairedServer key challenge nonce hello).Transcript transcript := h
    rw [Party.Transcript, accepted_pairedServer _ _ _ _ hhello hlen,
      vouched_pairedServer _ _ _ _ hhello hlen] at hserver
    refine ⟨rfl, ?_⟩
    simp only [List.mem_cons, Prod.mk.injEq, hkinds, hkinds', and_false, List.not_mem_nil,
      or_false, false_or] at hserver
    exact serverHelloInput_injective hserver.2
  | some i =>
    have hclient : (pairedClient key challenge nonce hello).Transcript transcript := h
    rw [Party.Transcript, accepted_pairedClient, vouched_pairedClient] at hclient
    refine ⟨rfl, ?_⟩
    simp only [List.mem_cons, Prod.mk.injEq, hkinds, hkinds', and_false, List.not_mem_nil,
      or_false] at hclient
    exact serverHelloInput_injective hclient.2

/-- With one transcript there is one derivation of each kind. -/
theorem keyQuery_replayed (hhello : Printable hello) (hlen : hello.length + 71 ≤ maxHandshakeLine)
    {k m : List UInt8} (h : KeyQuery (replayed key challenge nonce hello ι) k m) :
    (k = key.bytes ∧ m = sessionRootInput (pairedTranscript challenge nonce hello)) ∨
      (k = (hmacSha256 key.bytes
          (sessionRootInput (pairedTranscript challenge nonce hello))).bytes ∧
        m = ascii "server to client control") := by
  cases h with
  | root hi =>
    obtain ⟨hkey, rfl⟩ := transcript_replayed hhello hlen hi
    rw [hkey]
    exact .inl ⟨rfl, rfl⟩
  | control hi =>
    obtain ⟨hkey, rfl⟩ := transcript_replayed hhello hlen hi
    rw [hkey]
    exact .inr ⟨rfl, rfl⟩

theorem injectiveKeys_replayed (hhello : Printable hello)
    (hlen : hello.length + 71 ≤ maxHandshakeLine)
    (hne : hmacSha256 key.bytes (sessionRootInput (pairedTranscript challenge nonce hello)) ≠
      (deriveSession key (pairedTranscript challenge nonce hello)).s2c) :
    InjectiveKeys (replayed key challenge nonce hello ι) := by
  intro k m k' m' h h' heq
  rcases keyQuery_replayed hhello hlen h with ⟨rfl, rfl⟩ | ⟨rfl, rfl⟩
  · rcases keyQuery_replayed hhello hlen h' with ⟨rfl, rfl⟩ | ⟨rfl, rfl⟩
    · exact ⟨rfl, rfl⟩
    · exact absurd heq hne
  · rcases keyQuery_replayed hhello hlen h' with ⟨rfl, rfl⟩ | ⟨rfl, rfl⟩
    · exact absurd heq.symm hne
    · exact ⟨rfl, rfl⟩

end Transcripts

section Example

local instance : Sha256 := sha2

/-- One server and any number of clients that send the same directory. -/
def sampleReplay (ι : Type) : Option ι → Party :=
  replayed sampleKey sampleChallenge sampleNonce sampleHello ι

def sampleStart : Start := .sendDir (Vector.replicate 32 3) 0

theorem ideal_sampleReplay (ι : Type) [Inhabited ι] :
    Ideal (fun _ => sampleStart) (sampleReplay ι) where
  started i hello hi := by
    rcases i with _ | i
    · cases hi
    · cases hi
      rfl
  unforgeable := unforgeable_replayed _ _ _ _ printable_sampleHello.1 printable_sampleHello.2
  freshDraws := freshDraws_replayed _ _ _ _ (by decide)
  freshOffers _ _ _ _ _ _ _ _ h := by cases h
  injectiveKeys := injectiveKeys_replayed printable_sampleHello.1 printable_sampleHello.2
    (by decide +kernel)

/-- With one client, the server's response is accepted once. -/
theorem fresh_clients_one : FreshClients (sampleReplay Unit) := by
  refine fresh_clients (ideal_sampleReplay Unit) ?_
  rintro (_ | i) (_ | j) hello hello' hash entries hi hj - - -
  · rfl
  · cases hi
  · cases hj
  · rfl

/-- A second client that sends the same directory accepts the recorded response of the first one's
server. -/
theorem not_fresh_clients :
    ¬ ∀ (ι : Type) (starts : ι → Start) (parties : ι → Party), Ideal starts parties →
      FreshClients parties := by
  intro h
  have hfresh := h (Option Bool) (fun _ => sampleStart) (sampleReplay Bool) (ideal_sampleReplay Bool)
  have hvouched : (sampleKey, serverHelloInput
      (pairedTranscript sampleChallenge sampleNonce sampleHello)) ∈
        (sampleReplay Bool none).final.vouched := by
    show _ ∈ (pairedServer sampleKey sampleChallenge sampleNonce sampleHello).final.vouched
    rw [vouched_pairedServer _ _ _ _ printable_sampleHello.1 printable_sampleHello.2]
    exact List.mem_singleton_self _
  have haccepted : ∀ b, (sampleKey, serverHelloInput
      (pairedTranscript sampleChallenge sampleNonce sampleHello)) ∈
        (sampleReplay Bool (some b)).final.accepted := by
    intro b
    show _ ∈ (pairedClient sampleKey sampleChallenge sampleNonce sampleHello).final.accepted
    rw [accepted_pairedClient]
    exact List.mem_singleton_self _
  have heq := hfresh.unshared (some true) (some false) none sampleHello sampleHello rfl rfl rfl _
    hvouched _ hvouched (haccepted true) (haccepted false)
  cases heq

end Example

end PacketTide.Auth
