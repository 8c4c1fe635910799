import PacketTide.ManifestExchange
import PacketTide.Proofs.ControlProofs
import PacketTide.Proofs.ManifestProofs

/-!
# Manifests are read back from their text

Every valid manifest is the one that is parsed from its text, also after the text has been sent
line by line.
-/

namespace PacketTide

open FileSystem Text

/-! ## Fields -/

theorem hexDigits_of_byte (b : UInt8) :
    digitsValue 16 [hexDigit (b >>> 4), hexDigit (b &&& 15)] = some b.toNat ∧
      isLowerHexDigit (hexDigit (b >>> 4)) ∧ isLowerHexDigit (hexDigit (b &&& 15)) := by
  have hall : ∀ k : Fin 256,
      digitsValue 16 [hexDigit (UInt8.ofNat k >>> 4), hexDigit (UInt8.ofNat k &&& 15)] =
        some (UInt8.ofNat k).toNat ∧
      isLowerHexDigit (hexDigit (UInt8.ofNat k >>> 4)) ∧
      isLowerHexDigit (hexDigit (UInt8.ofNat k &&& 15)) := by decide +kernel
  have hb := hall ⟨b.toNat, b.toNat_lt⟩
  rwa [UInt8.ofNat_toNat] at hb

theorem hexPairs_hex (bytes : List UInt8) : hexPairs (hex bytes) = bytes := by
  induction bytes with
  | nil => rfl
  | cons b bytes ih =>
    rw [hex_cons, hexPairs, (hexDigits_of_byte b).1, Option.getD_some, UInt8.ofNat_toNat, ih]

theorem all_isLowerHexDigit_hex (bytes : List UInt8) : (hex bytes).all isLowerHexDigit := by
  induction bytes with
  | nil => rfl
  | cons b bytes ih =>
    rw [hex_cons, List.all_cons, List.all_cons, ih, (hexDigits_of_byte b).2.1,
      (hexDigits_of_byte b).2.2]
    rfl

theorem decodeHex_hex {bytes : List UInt8} (h : bytes ≠ []) : decodeHex (hex bytes) = .ok bytes := by
  have hne : (hex bytes).isEmpty = false := by
    rw [List.isEmpty_eq_false_iff]
    exact hex_ne_nil h
  have heven : (hex bytes).length % 2 = 0 := by
    rw [length_hex]
    omega
  simp [decodeHex, hne, heven, all_isLowerHexDigit_hex, hexPairs_hex]

theorem decodeHash_hex (hash : Hash) : decodeHash (hex hash.bytes) = .ok hash := by
  have hne : hash.bytes ≠ [] := by
    intro he
    have hlen := congrArg List.length he
    simp [Hash.bytes] at hlen
  have hsize : hash.bytes.toArray.size = 32 := by simp [Hash.bytes]
  unfold decodeHash
  rw [decodeHex_hex hne, check_bind, dif_pos hsize]
  rfl

theorem canonicalUnsigned_decimal (message : String) {n : Nat} (h : n < 2 ^ 64) :
    canonicalUnsigned message (decimal n) = .ok n := by
  have hne : (decimal n).isEmpty = false := by
    rw [List.isEmpty_eq_false_iff]
    exact decimal_ne_nil n
  have hzero : (decide (1 < (decimal n).length) && (decimal n).head? == some 48) = false := by
    rw [Bool.and_eq_false_imp]
    intro hlen
    simpa using head_decimal (of_decide_eq_true hlen)
  simp [canonicalUnsigned, hne, all_isDigit_decimal, hzero, parseUnsigned_decimal h]

theorem parseU64_decimal {n : Nat} (h : n < 2 ^ 64) : parseU64 (decimal n) = .ok n :=
  canonicalUnsigned_decimal _ h

theorem unsignedPart_decimalInt (n : Int) : unsignedPart (decimalInt n) = decimal n.natAbs := by
  unfold unsignedPart decimalInt
  split
  next => rw [stripPrefix_cons, Option.getD_some]
  next => rw [stripPrefix_decimal (by decide), Option.getD_none]

theorem decimalInt_ne_minus_zero (n : Int) : decimalInt n ≠ ascii "-0" := by
  have htext : ascii "-0" = 45 :: decimal 0 := by decide
  rw [htext]
  unfold decimalInt
  split
  next hn =>
    intro he
    have := decimal_injective (List.cons.inj he).2
    omega
  next =>
    intro he
    exact not_mem_decimal (by decide) (he ▸ List.mem_cons_self)

theorem parseI64_decimalInt {n : Int} (h : -2 ^ 63 ≤ n) (h' : n < 2 ^ 63) :
    parseI64 (decimalInt n) = .ok n := by
  have hminus : (decimalInt n == ascii "-0") = false := by
    simpa using decimalInt_ne_minus_zero n
  have hne : (decimalInt n).isEmpty = false := by
    rw [List.isEmpty_eq_false_iff]
    unfold decimalInt
    split
    · exact List.cons_ne_nil _ _
    · exact decimal_ne_nil _
  have hdigits : (decimal n.natAbs).isEmpty = false := by
    rw [List.isEmpty_eq_false_iff]
    exact decimal_ne_nil _
  have hzero : (decide (1 < (decimal n.natAbs).length) &&
      (decimal n.natAbs).head? == some 48) = false := by
    rw [Bool.and_eq_false_imp]
    intro hlen
    simpa using head_decimal (of_decide_eq_true hlen)
  have hvalue : parseSigned 64 10 (decimalInt n) = some n := parseSigned_decimalInt h h'
  simp only [parseI64, unsignedPart_decimalInt, hminus, hne, hdigits, all_isDigit_decimal, hzero,
    hvalue]
  rfl

theorem parseMode_decimal {mode : Nat} (h : mode ≤ 0o777) : parseMode (decimal mode) = .ok mode := by
  unfold parseMode
  rw [parseU64_decimal (by omega), check_bind, refuseIf_of_not (by omega)]
  rfl

theorem parseNanoseconds_decimalInt {n : Int} (h : 0 ≤ n) (h' : n < 1000000000) :
    parseNanoseconds (decimalInt n) = .ok n := by
  unfold parseNanoseconds
  rw [parseI64_decimalInt (by omega) (by omega), check_bind, refuseIf_of_not (by omega)]
  rfl

/-! ## Entries -/

/-- What the checks of an entry promise about the entry itself. -/
structure ManifestEntry.Sound (entry : ManifestEntry) : Prop where
  path : validateRelativePath entry.path = .ok ()
  mode : entry.mode ≤ 0o777
  nanoseconds_ge : 0 ≤ entry.modifiedNanoseconds
  nanoseconds_lt : entry.modifiedNanoseconds < 1000000000
  directory : entry.kind = .directory → entry.size = 0 ∧ entry.hash = none
  file : entry.kind = .file → ∃ hash, entry.hash = some hash

/-- The fields of the line of an entry. -/
def entryFields (entry : ManifestEntry) : List Str :=
  match entry.kind with
  | .directory =>
    [ascii "D", hex entry.path, decimal entry.mode, decimalInt entry.modifiedSeconds,
      decimalInt entry.modifiedNanoseconds]
  | .file =>
    [ascii "F", hex entry.path, decimal entry.size, hex ((entry.hash.map Hash.bytes).getD []),
      decimal entry.mode, decimalInt entry.modifiedSeconds, decimalInt entry.modifiedNanoseconds]

/-- The line of an entry without its newline. -/
def entryText (entry : ManifestEntry) : Str := [space].intercalate (entryFields entry)

theorem entryLine_eq (entry : ManifestEntry) : entryLine entry = entryText entry ++ [newline] := by
  have hd : ascii "D " = ascii "D" ++ [space] := by decide
  have hf : ascii "F " = ascii "F" ++ [space] := by decide
  unfold entryLine entryText entryFields
  cases entry.kind <;> simp [List.intercalate_cons_cons, hd, hf]

theorem plain_entryFields (entry : ManifestEntry) : ∀ f ∈ entryFields entry, Plain f := by
  have hd : Plain (ascii "D") := by decide
  have hf : Plain (ascii "F") := by decide
  unfold entryFields
  cases entry.kind with
  | directory =>
    simp only [List.forall_mem_cons]
    exact ⟨hd, plain_hex _, plain_decimal _, plain_decimalInt _, plain_decimalInt _, by simp⟩
  | file =>
    simp only [List.forall_mem_cons]
    exact ⟨hf, plain_hex _, plain_decimal _, plain_hex _, plain_decimal _, plain_decimalInt _,
      plain_decimalInt _, by simp⟩

theorem entryFields_ne_nil (entry : ManifestEntry) : entryFields entry ≠ [] := by
  unfold entryFields
  cases entry.kind <;> simp

theorem decodePath_hex {path : List UInt8} (h : validateRelativePath path = .ok ()) :
    decodePath (hex path) = .ok path := by
  have hne := (of_validateRelativePath h).1
  unfold decodePath
  rw [decodeHex_hex hne, check_bind, h]
  rfl

/-- An entry is read back from its line. -/
theorem parseEntry_entryText {entry : ManifestEntry} (h : entry.Sound) (ht : entry.Typed) :
    parseEntry (entryText entry) = .ok entry := by
  have hsplit := splitOn_fields (plain_entryFields entry) (entryFields_ne_nil entry)
  have hseconds := parseI64_decimalInt ht.seconds_ge ht.seconds_lt
  have hnano := parseNanoseconds_decimalInt h.nanoseconds_ge h.nanoseconds_lt
  have hmode := parseMode_decimal h.mode
  have hpath := decodePath_hex h.path
  unfold parseEntry
  rw [entryText, hsplit]
  rcases entry with ⟨path, kind, mode, seconds, nanoseconds, size, hash⟩
  cases kind with
  | directory =>
    obtain ⟨rfl, rfl⟩ := h.directory rfl
    simp only [entryFields, if_true, hpath, hmode, hseconds, hnano]
    rfl
  | file =>
    obtain ⟨value, rfl⟩ := h.file rfl
    have hsize := parseU64_decimal ht.size_lt
    have hhash := decodeHash_hex value
    simp only [entryFields, if_true, Option.map_some, Option.getD_some, hpath, hmode, hseconds,
      hnano, hsize, hhash]
    rfl

theorem sound_of_validateEntry {previous : Option (List UInt8)}
    {kinds : List (List UInt8 × EntryKind)} {entry : ManifestEntry}
    (h : validateEntry previous kinds entry = .ok ()) : entry.Sound := by
  obtain ⟨_, hpath, h⟩ := except_bind_ok h
  obtain ⟨_, -, h⟩ := except_bind_ok h
  obtain ⟨_, hnano, h⟩ := except_bind_ok h
  obtain ⟨_, hmode, h⟩ := except_bind_ok h
  obtain ⟨_, hdir, h⟩ := except_bind_ok h
  obtain ⟨_, hfile, -⟩ := except_bind_ok h
  have hnano := refuseIf_ok hnano
  have hmode := refuseIf_ok hmode
  have hdir := refuseIf_ok hdir
  have hfile := refuseIf_ok hfile
  refine ⟨hpath, by omega, by omega, by omega, ?_, ?_⟩
  · intro hk
    simp only [hk, true_and, not_or, not_not, Option.not_isSome_iff_eq_none] at hdir
    exact hdir
  · intro hk
    exact Option.ne_none_iff_exists'.1 fun hn => hfile ⟨hk, by simp [hn]⟩

theorem sound_of_validateEntriesFrom {previous : Option (List UInt8)}
    {kinds : List (List UInt8 × EntryKind)} {entries : List ManifestEntry}
    (h : validateEntriesFrom previous kinds entries = .ok ()) : ∀ e ∈ entries, e.Sound := by
  induction entries generalizing previous kinds with
  | nil => simp
  | cons entry entries ih =>
    obtain ⟨_, hentry, hrest⟩ := except_bind_ok h
    exact List.forall_mem_cons.2 ⟨sound_of_validateEntry hentry, ih hrest⟩

theorem sound_of_validateEntries {entries : List ManifestEntry}
    (h : validateEntries entries = .ok ()) :
    entries.length ≤ maxManifestEntries ∧ ∀ e ∈ entries, e.Sound := by
  obtain ⟨_, hcount, hfrom⟩ := except_bind_ok h
  have hcount := refuseIf_ok hcount
  exact ⟨by omega, sound_of_validateEntriesFrom hfrom⟩

/-! ## Manifests -/

/-- The fields of the first line. -/
def headerFields (m : Manifest) : List Str :=
  [ascii "PTM1", decimal m.entries.length, decimal m.rootMode, decimalInt m.rootModifiedSeconds,
    decimalInt m.rootModifiedNanoseconds]

/-- The lines of a manifest. -/
def manifestLines (m : Manifest) : List Str :=
  [space].intercalate (headerFields m) ::
    (m.entries.map entryText ++ [[space].intercalate [ascii "HASH", hex m.hash.bytes]])

theorem plain_headerFields (m : Manifest) : ∀ f ∈ headerFields m, Plain f := by
  have htag : Plain (ascii "PTM1") := by decide
  unfold headerFields
  simp only [List.forall_mem_cons]
  exact ⟨htag, plain_decimal _, plain_decimal _, plain_decimalInt _, plain_decimalInt _, by simp⟩

theorem plain_footerFields (m : Manifest) : ∀ f ∈ [ascii "HASH", hex m.hash.bytes], Plain f := by
  have htag : Plain (ascii "HASH") := by decide
  simp only [List.forall_mem_cons]
  exact ⟨htag, plain_hex _, by simp⟩

theorem ofFields_manifestLines {m : Manifest} {l : Str} (h : l ∈ manifestLines m) : OfFields l := by
  rcases List.mem_cons.1 h with rfl | h
  · exact ⟨_, plain_headerFields m, rfl⟩
  · rcases List.mem_append.1 h with h | h
    · obtain ⟨e, -, rfl⟩ := List.mem_map.1 h
      exact ⟨_, plain_entryFields e, rfl⟩
    · rw [List.mem_singleton.1 h]
      exact ⟨_, plain_footerFields m, rfl⟩

theorem canonicalBody_eq (m : Manifest) :
    canonicalBody m.entries m.rootMode m.rootModifiedSeconds m.rootModifiedNanoseconds =
      ([space].intercalate (headerFields m) :: m.entries.map entryText).flatMap
        (· ++ [newline]) := by
  have htag : ascii "PTM1 " = ascii "PTM1" ++ [space] := by decide
  have hlines : m.entries.flatMap entryLine =
      (m.entries.map entryText).flatMap (· ++ [newline]) := by
    rw [List.flatMap_map]
    exact List.flatMap_congr fun e _ => entryLine_eq e
  rw [List.flatMap_cons, ← hlines, canonicalBody, htag]
  simp [headerFields, List.intercalate_cons_cons]

theorem encode_eq (m : Manifest) : encode m = (manifestLines m).flatMap (· ++ [newline]) := by
  have htag : ascii "HASH " = ascii "HASH" ++ [space] := by decide
  unfold encode manifestLines
  rw [canonicalBody_eq, ← List.cons_append, List.flatMap_append, htag]
  simp [List.intercalate_cons_cons]

theorem lines_encode (m : Manifest) : lines (encode m) = manifestLines m := by
  rw [encode_eq]
  exact lines_ofFields fun _ hl => ofFields_manifestLines hl

theorem length_manifestLines (m : Manifest) :
    (manifestLines m).length = m.entries.length + 2 := by
  simp [manifestLines]

theorem getLast_encode (m : Manifest) : (encode m).getLast? = some newline := by
  simp [encode]

theorem carriageReturn_not_mem_encode (m : Manifest) : carriageReturn ∉ encode m := by
  rw [encode_eq]
  exact carriageReturn_not_mem_ofFields fun _ hl => ofFields_manifestLines hl

theorem parseEntries_entryText {entries : List ManifestEntry} (h : ∀ e ∈ entries, e.Sound)
    (ht : ∀ e ∈ entries, e.Typed) (rest : List Str) :
    parseEntries entries.length (entries.map entryText ++ rest) = .ok (entries, rest) := by
  induction entries with
  | nil => rfl
  | cons entry entries ih =>
    obtain ⟨hentry, h⟩ := List.forall_mem_cons.1 h
    obtain ⟨htyped, ht⟩ := List.forall_mem_cons.1 ht
    rw [List.length_cons, List.map_cons, List.cons_append, parseEntries,
      parseEntry_entryText hentry htyped, check_bind, ih h ht]
    rfl

theorem parseFooter_hash (m : Manifest) :
    parseFooter [[space].intercalate [ascii "HASH", hex m.hash.bytes]] = .ok m.hash := by
  have htag : [space].intercalate [ascii "HASH", hex m.hash.bytes] =
      ascii "HASH " ++ hex m.hash.bytes := by
    have hlit : ascii "HASH " = ascii "HASH" ++ [space] := by decide
    rw [hlit]
    simp [List.intercalate_cons_cons]
  have hstrip : stripPrefix (ascii "HASH ") (ascii "HASH " ++ hex m.hash.bytes) =
      some (hex m.hash.bytes) := by
    rw [stripPrefix, if_pos (List.prefix_append _ _), List.drop_left]
  rw [htag]
  simp only [parseFooter, hstrip]
  exact decodeHash_hex m.hash

theorem parseHeader_header [Sha256] {m : Manifest} (h : Encodable m) :
    parseHeader ([space].intercalate (headerFields m)) =
      .ok (m.entries.length, m.rootMode, m.rootModifiedSeconds, m.rootModifiedNanoseconds) := by
  have hmax : maxManifestEntries < 2 ^ 64 := by decide
  have hcount := parseU64_decimal (Nat.lt_of_le_of_lt (sound_of_validateEntries h.valid).1 hmax)
  have hmode := parseMode_decimal h.rootMode
  have hseconds := parseI64_decimalInt h.rootSeconds_ge h.rootSeconds_lt
  have hnano := parseNanoseconds_decimalInt h.rootNanoseconds_ge h.rootNanoseconds_lt
  unfold parseHeader
  rw [splitOn_fields (plain_headerFields m) (by simp [headerFields])]
  simp only [headerFields, if_true, hcount, hmode, hseconds, hnano]
  rfl

/-- A manifest is read back from its text. -/
theorem parse_encode [Sha256] {m : Manifest} (h : Encodable m) : parse (encode m) = .ok m := by
  obtain ⟨hcount, hsound⟩ := sound_of_validateEntries h.valid
  have hlen := h.length_le
  have hform : ¬ ((encode m).length > maxManifestBytes ∨ (encode m).getLast? ≠ some newline ∨
      carriageReturn ∈ encode m) := by
    rw [not_or, not_or, not_not]
    exact ⟨by omega, getLast_encode m, carriageReturn_not_mem_encode m⟩
  have htake : (m.entries.map entryText ++
      [[space].intercalate [ascii "HASH", hex m.hash.bytes]]).take m.entries.length =
      m.entries.map entryText := List.take_left' (by simp)
  unfold parse
  rw [refuseIf_of_not hform, check_bind, lines_encode, manifestLines]
  dsimp only
  rw [parseHeader_header h, check_bind]
  dsimp only
  rw [refuseIf_of_not (by omega), check_bind, parseEntries_entryText hsound h.typed, check_bind]
  dsimp only
  rw [parseFooter_hash, check_bind, htake, ← canonicalBody_eq,
    refuseIf_of_not (by simpa using h.hash_eq), check_bind, h.valid, check_bind,
    refuseIf_of_not (by simp), check_bind]
  rfl

/-! ## Sending a manifest -/

theorem length_intercalate_space (fields : List Str) :
    ([space].intercalate fields).length ≤ (fields.map List.length).sum + fields.length := by
  induction fields with
  | nil => simp
  | cons f fields ih =>
    cases fields with
    | nil => simp
    | cons g fields =>
      rw [List.intercalate_cons_cons]
      simp only [List.length_append, List.map_cons, List.sum_cons, List.length_cons] at ih ⊢
      simp only [List.length_nil]
      omega

theorem length_decimalInt_le {n : Int} (h : -2 ^ 63 ≤ n) (h' : n < 2 ^ 63) :
    (decimalInt n).length ≤ 20 := by
  have habs : (decimal n.natAbs).length ≤ 19 := length_decimal_le (by omega) (by omega)
  unfold decimalInt
  split
  · rw [List.length_cons]
    omega
  · omega

/-- A line of an entry fits into a frame. -/
theorem length_entryText {entry : ManifestEntry} (h : entry.Sound) (ht : entry.Typed) :
    (entryText entry).length ≤ maxControlLine / 2 := by
  have hpath := (of_validateRelativePath h.path).2.1
  have hhex := length_hex entry.path
  have hmode : (decimal entry.mode).length ≤ 3 :=
    length_decimal_le (by omega) (Nat.lt_of_le_of_lt h.mode (by decide))
  have hseconds := length_decimalInt_le ht.seconds_ge ht.seconds_lt
  have hnano : (decimalInt entry.modifiedNanoseconds).length ≤ 20 := by
    have h1 := h.nanoseconds_ge
    have h2 := h.nanoseconds_lt
    exact length_decimalInt_le (by omega) (by omega)
  have hsize : (decimal entry.size).length ≤ 20 := by
    have := ht.size_lt
    exact length_decimal_le (by omega) (by omega)
  have hmax : maxRelativePathBytes = 4096 := rfl
  have hframe : maxControlLine / 2 = 32768 := rfl
  have htag : (ascii "D").length = 1 ∧ (ascii "F").length = 1 := by decide
  have hle := length_intercalate_space (entryFields entry)
  unfold entryText
  refine Nat.le_trans hle ?_
  unfold entryFields
  cases hk : entry.kind with
  | directory =>
    simp only [List.map_cons, List.map_nil, List.sum_cons, List.sum_nil, List.length_cons,
      List.length_nil, htag.1, hhex]
    omega
  | file =>
    obtain ⟨hash, hhash⟩ := h.file hk
    have hlen := length_hash hash
    simp only [hhash, Option.map_some, Option.getD_some, List.map_cons, List.map_nil,
      List.sum_cons, List.sum_nil, List.length_cons, List.length_nil, htag.2, hhex, hlen]
    omega

theorem length_header [Sha256] {m : Manifest} (h : Encodable m) :
    ([space].intercalate (headerFields m)).length ≤ maxControlLine / 2 := by
  have hcount : (decimal m.entries.length).length ≤ 20 := by
    have := (sound_of_validateEntries h.valid).1
    have hmax : maxManifestEntries = 1000000 := rfl
    exact length_decimal_le (by omega) (by omega)
  have hmode : (decimal m.rootMode).length ≤ 3 :=
    length_decimal_le (by omega) (Nat.lt_of_le_of_lt h.rootMode (by decide))
  have hseconds := length_decimalInt_le h.rootSeconds_ge h.rootSeconds_lt
  have hnano : (decimalInt m.rootModifiedNanoseconds).length ≤ 20 := by
    have h1 := h.rootNanoseconds_ge
    have h2 := h.rootNanoseconds_lt
    exact length_decimalInt_le (by omega) (by omega)
  have hframe : maxControlLine / 2 = 32768 := rfl
  have htag : (ascii "PTM1").length = 4 := by decide
  refine Nat.le_trans (length_intercalate_space _) ?_
  simp only [headerFields, List.map_cons, List.map_nil, List.sum_cons, List.sum_nil,
    List.length_cons, List.length_nil, htag]
  omega

/-- Every line of a manifest fits into a frame. -/
theorem controlPayload_manifestPayloads [Sha256] {m : Manifest} (h : Encodable m) :
    ∀ p ∈ manifestPayloads m, controlPayload p := by
  have hsound := (sound_of_validateEntries h.valid).2
  intro p hp
  unfold manifestPayloads at hp
  rw [lines_encode] at hp
  rcases List.mem_append.1 hp with hp | hp
  · refine ⟨(ofFields_manifestLines hp).newline_not_mem.1, ?_⟩
    rcases List.mem_cons.1 hp with rfl | hp
    · exact length_header h
    · rcases List.mem_append.1 hp with hp | hp
      · obtain ⟨e, he, rfl⟩ := List.mem_map.1 hp
        exact length_entryText (hsound e he) (h.typed e he)
      · have hfooter := length_intercalate_space [ascii "HASH", hex m.hash.bytes]
        have htag : (ascii "HASH").length = 4 := by decide
        have hframe : maxControlLine / 2 = 32768 := rfl
        simp only [List.map_cons, List.map_nil, List.sum_cons, List.sum_nil, List.length_cons,
          List.length_nil, htag, length_hash] at hfooter
        rw [List.mem_singleton.1 hp]
        omega
  · rw [List.mem_singleton.1 hp]
    decide

/-- A manifest that is sent line by line is received as it is. -/
theorem receiveManifest_manifestPayloads [Sha256] {m : Manifest} (h : Encodable m) :
    receiveManifest m.hash m.entries.length (manifestPayloads m) = .ok m := by
  have hcount := (sound_of_validateEntries h.valid).1
  have hcollect : collectLines maxManifestBytes "directory manifest byte limit exceeded"
      (m.entries.length + 2) [] (manifestPayloads m) = .ok (encode m, [ascii "MANIFEST_END"]) := by
    have hlen := h.length_le
    rw [encode_eq, ← List.nil_append (List.flatMap _ _)] at hlen
    have hlines := collectLines_eq_ok "directory manifest byte limit exceeded"
      [ascii "MANIFEST_END"] hlen
    rw [length_manifestLines, List.nil_append, ← encode_eq] at hlines
    rw [manifestPayloads, lines_encode]
    exact hlines
  unfold receiveManifest
  rw [refuseIf_of_not (by omega), check_bind, hcollect, check_bind]
  dsimp only
  rw [expectLine_self, check_bind, parse_encode h, check_bind, refuseIf_of_not (by simp)]
  rfl

/-- What `build` returns can be sent. -/
theorem encodable_of_buildManifest [Sha256] {scanned : List ManifestEntry} {rootMode : Nat}
    {seconds nanoseconds : Int} {m : Manifest} (ht : ∀ e ∈ scanned, e.Typed)
    (hmode : rootMode ≤ 0o777) (hs : -2 ^ 63 ≤ seconds) (hs' : seconds < 2 ^ 63)
    (hn : 0 ≤ nanoseconds) (hn' : nanoseconds < 1000000000)
    (h : buildManifest scanned rootMode seconds nanoseconds = .ok m) : Encodable m := by
  obtain ⟨_, hvalid, h⟩ := except_bind_ok h
  obtain ⟨_, hlen, h⟩ := except_bind_ok h
  have hlen := refuseIf_ok hlen
  cases h
  refine ⟨hvalid, fun e he => ht e ?_, hmode, hs, hs', hn, hn', rfl, ?_⟩
  · exact (List.mergeSort_perm _ _).subset he
  · have htag : (ascii "HASH ").length = 5 := by decide
    simp only [encode, List.length_append, List.length_singleton, htag, length_hash]
    omega

/-- Manifests and their texts determine each other: a valid manifest, in particular one that was
built, is parsed from its text, also after it has been sent line by line; and a text that is parsed
is the one of its manifest. -/
theorem manifest_canonical [Sha256] :
    (∀ m, Encodable m → parse (encode m) = .ok m ∧
      sendAll {} (manifestPayloads m) = .ok { sent := manifestPayloads m } ∧
      receiveManifest m.hash m.entries.length (manifestPayloads m) = .ok m) ∧
    (∀ scanned rootMode seconds nanoseconds m, (∀ e ∈ scanned, ManifestEntry.Typed e) →
      rootMode ≤ 0o777 → -2 ^ 63 ≤ seconds → seconds < 2 ^ 63 → 0 ≤ nanoseconds →
      nanoseconds < 1000000000 → buildManifest scanned rootMode seconds nanoseconds = .ok m →
      Encodable m) ∧
    ∀ encoded m, parse encoded = .ok m → encode m = encoded := by
  refine ⟨fun m h => ⟨parse_encode h, ?_, receiveManifest_manifestPayloads h⟩, ?_, ?_⟩
  · exact sendAll_eq_ok (controlPayload_manifestPayloads h) []
  · intro scanned rootMode seconds nanoseconds m ht hmode hs hs' hn hn' h
    exact encodable_of_buildManifest ht hmode hs hs' hn hn' h
  · intro encoded m h
    exact (encode_of_parse h).1

end PacketTide
