import PacketTide.Acceptance
import PacketTide.ReceiveLoop
import PacketTide.Proofs.BitmapProofs
import PacketTide.Proofs.RepairProofs
import PacketTide.Proofs.RoundTripProofs
import PacketTide.Text.Proofs.WordProofs

/-!
# The resume response is read back

The sender reads from the answer of the receiver exactly the bitmap that the receiver wrote.
-/

namespace PacketTide

open Text

/-! ## Words -/

theorem digitsValue_hexDigits (bytes : List UInt8) :
    digitsValue 16 (hex bytes) = some (fromBeBytes bytes) := by
  induction bytes using List.reverseRecOn with
  | nil => rfl
  | append_singleton bytes b ih =>
    have hall : ∀ k : Fin 256, digitValue 16 (hexDigit (UInt8.ofNat k >>> 4)) = some (k.val / 16) ∧
        digitValue 16 (hexDigit (UInt8.ofNat k &&& 15)) = some (k.val % 16) := by
      decide +kernel
    obtain ⟨hhigh, hlow⟩ := hall ⟨b.toNat, b.toNat_lt⟩
    rw [UInt8.ofNat_toNat] at hhigh hlow
    have hsplit : hex (bytes ++ [b]) = hex bytes ++ [hexDigit (b >>> 4)] ++ [hexDigit (b &&& 15)] := by
      simp [hex]
    rw [hsplit, digitsValue_snoc, digitsValue_snoc, ih, Option.bind_some, hhigh, Option.map_some,
      Option.bind_some, hlow, Option.map_some, fromBeBytes_snoc]
    congr 1
    show (fromBeBytes bytes * 16 + b.toNat / 16) * 16 + b.toNat % 16 = fromBeBytes bytes * 256 + b.toNat
    omega

theorem parseResumeWord_hex (word : BitVec 64) :
    parseResumeWord (hex (toBeBytes word.toNat)) = .ok word := by
  have hne : hex (toBeBytes word.toNat) ≠ [] := hex_ne_nil (by rw [toBeBytes]; exact List.cons_ne_nil _ _)
  have hplus : stripPrefix [43] (hex (toBeBytes word.toNat)) = none := by
    rw [stripPrefix, if_neg]
    intro hpre
    have hmem := hpre.subset List.mem_cons_self
    have hdigits : ∀ b ∈ hex (toBeBytes word.toNat), b ≠ 43 := by
      intro b hb
      obtain ⟨a, -, hb⟩ := List.mem_flatMap.1 hb
      have hall : ∀ k : Fin 256, hexDigit (UInt8.ofNat k >>> 4) ≠ 43 ∧
          hexDigit (UInt8.ofNat k &&& 15) ≠ 43 := by
        decide +kernel
      have ha := hall ⟨a.toNat, a.toNat_lt⟩
      rw [UInt8.ofNat_toNat] at ha
      rcases List.mem_cons.1 hb with rfl | hb
      · exact ha.1
      · rw [List.mem_singleton.1 hb]
        exact ha.2
    exact hdigits _ hmem rfl
  have hvalue : parseUnsigned 64 16 (hex (toBeBytes word.toNat)) = some word.toNat := by
    rw [parseUnsigned, hplus, Option.getD_none, if_neg (by simpa using hne), digitsValue_hexDigits,
      fromBeBytes_toBeBytes word.isLt]
    simp [word.isLt]
  rw [parseResumeWord, hvalue]
  simp

theorem ne_of_head {s t : Str} (h : s.head? ≠ t.head?) : s ≠ t := fun heq => h (congrArg _ heq)

/-! ## The bitmap -/

/-- The line for a word of a bitmap. -/
theorem readResumeWord_line {done rest : Bitmap} {word : BitVec 64} (hword : word ≠ 0#64)
    (hlen : done.length < 2 ^ 64) :
    readResumeWord (done ++ 0#64 :: rest)
        (ascii "H " ++ decimal done.length ++ space :: hex (toBeBytes word.toNat)) =
      .ok (done ++ word :: rest) := by
  have hfields : splitWhitespace
      (ascii "H " ++ decimal done.length ++ space :: hex (toBeBytes word.toNat)) =
      [ascii "H", decimal done.length, hex (toBeBytes word.toNat)] := by
    have hsplit := @splitWhitespace_fields
        [ascii "H", decimal done.length, hex (toBeBytes word.toNat)] ?_
    · rw [← hsplit]
      congr 1
    · refine List.forall_mem_cons.2 ⟨by decide, List.forall_mem_cons.2
        ⟨⟨graphic_decimal _, decimal_ne_nil _⟩, List.forall_mem_singleton.2 ⟨graphic_hex _, ?_⟩⟩⟩
      exact hex_ne_nil (by rw [toBeBytes]; exact List.cons_ne_nil _ _)
  have hplace : ¬((done ++ 0#64 :: rest).length ≤ done.length ∨
      (done ++ 0#64 :: rest)[done.length]? ≠ some 0#64 ∨ word = 0#64) := by
    simp [hword]
  rw [readResumeWord, hfields]
  simp only [refuseIf_of_not (not_not.2 rfl), check_bind, parseChunkNumber_decimal hlen,
    parseResumeWord_hex, refuseIf_of_not hplace]
  simp [pure, Except.pure]

theorem readResumeWords_resumePayloads (lines : List Str) {done words : Bitmap}
    (hlen : done.length + words.length ≤ 2 ^ 64) :
    readResumeWords (done ++ List.replicate words.length 0#64)
        ((((words.zipIdx done.length).filter fun entry => entry.1 ≠ 0#64).map fun entry =>
          ascii "H " ++ decimal entry.2 ++ space :: hex (toBeBytes entry.1.toNat)) ++
            ascii "GO" :: lines) =
      .ok (done ++ words, lines) := by
  induction words generalizing done with
  | nil => rw [List.length_nil, List.replicate_zero]; rfl
  | cons word words ih =>
    rw [List.length_cons] at hlen
    have hnext : (done ++ [word]).length = done.length + 1 := List.length_append
    have hrest := @ih (done ++ [word]) (by omega)
    rw [hnext, List.append_assoc, List.append_assoc, List.singleton_append,
      List.singleton_append] at hrest
    rw [List.zipIdx_cons, List.length_cons, List.replicate_succ]
    by_cases hword : word = 0#64
    · rw [List.filter_cons_of_neg (by simpa using hword)]
      rw [hword] at hrest ⊢
      exact hrest
    · rw [List.filter_cons_of_pos (by simpa using hword), List.map_cons, List.cons_append,
        readResumeWords]
      have hgo : ascii "H " ++ decimal done.length ++ space :: hex (toBeBytes word.toNat) ≠
          ascii "GO" := ne_of_head (show (some 72 : Option UInt8) ≠ some 71 by decide)
      rw [if_neg hgo, readResumeWord_line hword (by omega), check_bind]
      exact hrest

theorem beyondFile_of_bitmapFor {chunks : Nat} {bitmap : Bitmap} (h : BitmapFor chunks bitmap) :
    beyondFile chunks bitmap = false := by
  rw [beyondFile, decide_eq_false_iff_not]
  rintro ⟨hrest, hany⟩
  rw [Option.any_eq_true] at hany
  obtain ⟨word, hlast, hbeyond⟩ := hany
  refine of_decide_eq_true hbeyond (BitVec.eq_of_getLsbD_eq fun i hi => ?_)
  rw [List.getLast?_eq_getElem?] at hlast
  have hpos : 0 < bitmap.length := List.length_pos_iff.2 fun hnil => by simp [hnil] at hlast
  have hlen := h.length_eq
  unfold bitmapWords at hlen
  have hplace : (64 * (bitmap.length - 1) + i) / 64 = bitmap.length - 1 ∧
      (64 * (bitmap.length - 1) + i) % 64 = i := by omega
  have hbit : bitmapContains bitmap (64 * (bitmap.length - 1) + i) = word.getLsbD i := by
    rw [bitmapContains_eq, hplace.1, hplace.2, hlast]
    rfl
  have hmask : (2 ^ (chunks % 64) - 1).testBit i = decide (i < chunks % 64) :=
    Nat.testBit_two_pow_sub_one _ _
  simp only [BitVec.getLsbD_and, BitVec.getLsbD_not, BitVec.getLsbD_ofNat, hmask, hi,
    decide_true, Bool.true_and]
  by_cases hlt : i < chunks % 64
  · simp [hlt]
  · have hclear : word.getLsbD i = false := by
      rw [← hbit, Bool.eq_false_iff]
      intro hset
      have hchunk := h.lt_chunks _ hset
      omega
    simp [hclear]

/-! ## The whole answer -/

theorem stripPrefix_eq_none {p s : Str} {b c : UInt8} (hp : p.head? = some b) (hs : s.head? = some c)
    (h : b ≠ c) : stripPrefix p s = none := by
  rw [stripPrefix, if_neg]
  rintro ⟨t, rfl⟩
  rcases p with _ | ⟨b', p⟩
  · cases hp
  · cases hp
    cases hs
    exact h rfl

/-- An acceptance is neither a report nor a confirmation. -/
theorem ready_cases (payloadBytes reportInterval : Nat) :
    (stripPrefix (ascii "M ") (ascii "READY " ++ decimal payloadBytes ++
        space :: decimal reportInterval)).isSome = false ∧
      ascii "READY " ++ decimal payloadBytes ++ space :: decimal reportInterval ≠ ascii "COMPLETE" := by
  constructor
  · rw [stripPrefix_eq_none (b := 77) (c := 82) rfl rfl (by decide)]
    rfl
  · exact ne_of_head (show (some 82 : Option UInt8) ≠ some 67 by decide)

/-- The answer of a receiver is read as it was meant. -/
theorem readAcceptance_payloads {hello : Hello} {reused : Reused}
    (hbitmap : BitmapFor hello.chunks reused.resume.bitmap)
    (hbound : hello.chunks * hello.payloadBytes < 2 ^ 64) (hpayload : 0 < hello.payloadBytes)
    (hcount : reused.chunks ≤ bitmapCount reused.resume.bitmap)
    (hbytes : reused.bytes ≤ reused.chunks * hello.payloadBytes) (lines : List Str) :
    readAcceptance .udp hello.chunks hello.payloadBytes hello.reportInterval
        (acceptancePayloads hello reused ++ lines) =
      .ok ({ durableChunks := reused.resume.bitmap, reusedBytes := reused.bytes,
             reusedChunks := reused.chunks }, lines) := by
  have hchunks : hello.chunks < 2 ^ 64 := by
    have hle := Nat.le_mul_of_pos_right hello.chunks hpayload
    omega
  have hcovered : reused.chunks ≤ hello.chunks := hcount.trans hbitmap.count_le
  have hobject := Nat.mul_le_mul_right hello.payloadBytes hcovered
  obtain ⟨hready, hcomplete⟩ : (stripPrefix (ascii "M ") (readyPayload hello)).isSome = false ∧
      readyPayload hello ≠ ascii "COMPLETE" := ready_cases _ _
  have hsplit : (reusedPayload reused).splitOn space =
      [ascii "REUSED", decimal reused.bytes, decimal reused.chunks] := by
    have hfields := @splitOn_fields [ascii "REUSED", decimal reused.bytes, decimal reused.chunks]
        ?_ ?_
    · rw [← hfields]
      congr 1
      have hlabel : ascii "REUSED " = ascii "REUSED" ++ [space] := by decide
      simp [reusedPayload, hlabel, List.intercalate_cons_cons]
    · exact List.forall_mem_cons.2 ⟨by decide, List.forall_mem_cons.2
        ⟨plain_decimal _, List.forall_mem_singleton.2 (plain_decimal _)⟩⟩
    · exact List.cons_ne_nil _ _
  have hinventory : ¬(min (hello.chunks * hello.payloadBytes) (2 ^ 64 - 1) < reused.bytes ∨
      hello.chunks < reused.chunks) := by omega
  have hwords := @readResumeWords_resumePayloads lines [] reused.resume.bitmap
      (by rw [List.length_nil, Nat.zero_add, hbitmap.length_eq, bitmapWords]; omega)
  rw [List.length_nil, List.nil_append, List.nil_append, hbitmap.length_eq] at hwords
  have hresume : readResume hello.chunks hello.payloadBytes (reusedPayload reused ::
      (resumePayloads reused.resume.bitmap ++ ascii "GO" :: lines)) =
        .ok ({ durableChunks := reused.resume.bitmap, reusedBytes := reused.bytes,
               reusedChunks := reused.chunks }, lines) := by
    rw [readResume, nextLine, check_bind]
    simp only [hsplit, refuseIf_of_not (not_not.2 rfl), check_bind, parseCanonicalU64,
      canonicalUnsigned_decimal _ (lt_of_le_of_lt (hbytes.trans hobject) hbound),
      canonicalUnsigned_decimal _ (lt_of_le_of_lt hcovered hchunks), refuseIf_of_not hinventory]
    rw [resumePayloads, hwords]
    simp only [check_bind, beyondFile_of_bitmapFor hbitmap, refuseIf_of_not Bool.false_ne_true,
      refuseIf_of_not (Nat.not_lt.2 hcount)]
    rfl
  have hanswer : acceptancePayloads hello reused ++ lines = readyPayload hello ::
      reusedPayload reused :: (resumePayloads reused.resume.bitmap ++ ascii "GO" :: lines) := by
    simp [acceptancePayloads]
  rw [hanswer, readAcceptance, nextLine, check_bind]
  simp only [hready, Bool.false_eq_true, if_false]
  rw [pure_bind]
  simp only [if_neg hcomplete]
  have hexpected : ¬(readyPayload hello ≠
      ascii "READY " ++ decimal hello.payloadBytes ++ space :: decimal hello.reportInterval) :=
    not_not.2 rfl
  rw [if_neg hexpected, hresume]
  rfl

end PacketTide
