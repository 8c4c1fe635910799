import PacketTide.CdcMachine
import PacketTide.Proofs.GreetingProofs
import PacketTide.Proofs.ScanProofs

/-!
# What the parser of content manifests accepts

The parser accepts just the texts of canonical manifests, and the addition that it does not check does
not overflow.
-/

namespace PacketTide.Cdc

open Text

/-! ## The text of an accepted manifest -/

theorem decodeHash_eq_ok {value : Str} {hash : Hash} (h : decodeHash value = .ok hash) :
    hex hash.bytes = value := by
  unfold decodeHash at h
  split at h
  · cases h
  next hform =>
    obtain ⟨hlen, hdigits⟩ := not_or.1 hform
    rw [not_not] at hlen
    split at h
    next hsize =>
      cases h
      exact hex_hexPairs value (by omega) (Bool.of_not_eq_false hdigits)
    next => cases h

theorem lines_of_parseChunks {size n offset stop : Nat} {chunks : List Chunk} {lines rest : List Str}
    (h : parseChunks size n offset lines = .ok (chunks, stop, rest)) :
    chunks.length = n ∧ lines = lines.take n ++ rest := by
  induction n generalizing offset chunks lines with
  | zero =>
    cases h
    exact ⟨rfl, rfl⟩
  | succ n ih =>
    rcases lines with _ | ⟨line, lines⟩
    · cases h
    rw [parseChunks] at h
    split at h
    next tag first length hash hfields =>
      obtain ⟨_, -, h⟩ := except_bind_ok h
      obtain ⟨first, -, h⟩ := except_bind_ok h
      obtain ⟨length, -, h⟩ := except_bind_ok h
      obtain ⟨_, -, h⟩ := except_bind_ok h
      obtain ⟨_, -, h⟩ := except_bind_ok h
      obtain ⟨_, -, h⟩ := except_bind_ok h
      obtain ⟨hash, -, h⟩ := except_bind_ok h
      obtain ⟨⟨chunks', stop', rest'⟩, hchunks, h⟩ := except_bind_ok h
      cases h
      obtain ⟨hlen, hlines⟩ := ih hchunks
      refine ⟨by rw [List.length_cons, hlen], ?_⟩
      rw [List.take_succ_cons, List.cons_append, ← hlines]
    next => cases h

theorem parseFooter_eq_ok {last : List Str} {hash : Hash} (h : parseFooter last = .ok hash) :
    last = [ascii "CHASH " ++ hex hash.bytes] := by
  match last, h with
  | [footer], h =>
    unfold parseFooter stripPrefix at h
    by_cases hp : ascii "CHASH " <+: footer
    · simp only [hp, if_true] at h
      obtain ⟨supplied, rfl⟩ := hp
      rw [List.drop_left] at h
      rw [decodeHash_eq_ok h]
    · simp only [hp, if_false] at h
      cases h

/-- What is parsed is the text of a canonical manifest. -/
theorem canonical_of_parse [Sha256] {s : Str} {m : Manifest} (h : parse s = .ok m) :
    s.length ≤ maxEncodedBytes ∧ s = encode m ∧ Canonical m := by
  unfold parse at h
  obtain ⟨_, hform, h⟩ := except_bind_ok h
  have hform := refuseIf_ok hform
  rw [not_or, not_or, not_not] at hform
  obtain ⟨hlen, hend, hcr⟩ := hform
  have hlines := flatMap_lines hcr hend
  rcases hl : lines s with _ | ⟨header, rest⟩
  · rw [hl] at h
    cases h
  · rw [hl] at h hlines
    obtain ⟨⟨size, count⟩, -, h⟩ := except_bind_ok h
    obtain ⟨_, hcount, h⟩ := except_bind_ok h
    obtain ⟨⟨chunks, stop, last⟩, hchunks, h⟩ := except_bind_ok h
    obtain ⟨_, hcover, h⟩ := except_bind_ok h
    obtain ⟨hash, hfooter, h⟩ := except_bind_ok h
    obtain ⟨_, hbody, h⟩ := except_bind_ok h
    cases h
    have hstop : stop = size := not_not.1 (not_or.1 (refuseIf_ok hcover)).1
    rw [hstop] at hchunks
    obtain ⟨hhash, hbody⟩ := not_or.1 (refuseIf_ok hbody)
    rw [not_not] at hhash hbody
    obtain ⟨hlength, hrest⟩ := lines_of_parseChunks hchunks
    have hle : chunks.length ≤ maxChunks := hlength ▸ Nat.not_lt.1 (refuseIf_ok hcount)
    refine ⟨Nat.not_lt.1 hlen, ?_, hle, laid_of_parseChunks hchunks, ?_⟩
    · rw [parseFooter_eq_ok hfooter] at hrest
      rw [← hlines, hrest, ← List.cons_append, List.flatMap_append, ← hbody]
      simp [encode]
    · rw [hhash, hbody]

/-! ## Overflow -/

theorem refuseIf_of {c : Prop} [Decidable c] {message : String} (h : c) : refuseIf c message = .error message :=
  if_pos h

theorem ofCheck_bind_congr {α β : Type} {r : Check α} {f : α → Except Stop β} {g : α → Check β}
    (h : ∀ a, r = .ok a → f a = ofCheck (g a)) : (ofCheck r >>= f) = ofCheck (r >>= g) := by
  rcases r with e | a
  · rfl
  · exact h a rfl

/-- The loop over the chunks is the same with additions that may overflow. -/
theorem parseChunks64_eq {size n offset : Nat} (lines : List Str)
    (hroom : offset + n * maxChunkBytes < 2 ^ 64) :
    parseChunks64 size n offset lines = ofCheck (parseChunks size n offset lines) := by
  induction n generalizing offset lines with
  | zero => rfl
  | succ n ih =>
    rcases lines with _ | ⟨line, lines⟩
    · rfl
    rw [parseChunks64, parseChunks]
    rcases line.splitOn space with _ | ⟨tag, _ | ⟨first, _ | ⟨length, _ | ⟨hash, _ | ⟨more, fields⟩⟩⟩⟩⟩ <;>
      try rfl
    rw [Nat.succ_mul] at hroom
    refine ofCheck_bind_congr fun _ _ => ofCheck_bind_congr fun first _ => ofCheck_bind_congr fun length _ =>
      ofCheck_bind_congr fun _ _ => ?_
    have htail : ∀ hfirst : first = offset, length ≤ maxChunkBytes →
        (ofCheck (refuseIf (2 ^ 64 ≤ first + length) "content-defined offset overflow") >>= fun _ =>
          ofCheck (decodeHash hash) >>= fun hash => parseChunks64 size n (first + length) lines >>= fun parsed =>
            pure (⟨first, length, hash⟩ :: parsed.1, parsed.2.1, parsed.2.2)) =
          ofCheck (refuseIf (2 ^ 64 ≤ first + length) "content-defined offset overflow" >>= fun _ =>
            decodeHash hash >>= fun hash => parseChunks size n (first + length) lines >>= fun parsed =>
              pure (⟨first, length, hash⟩ :: parsed.1, parsed.2.1, parsed.2.2)) := by
      intro hfirst hlength
      rw [ih lines (by omega)]
      exact ofCheck_bind_congr fun _ _ => ofCheck_bind_congr fun hash _ => ofCheck_bind_congr fun _ _ => rfl
    by_cases hlayout : first ≠ offset ∨ length = 0 ∨ length > maxChunkBytes
    · have hrefused : first ≠ offset ∨ length = 0 ∨ length > maxChunkBytes ∨
          length < minChunkBytes ∧ first + length ≠ size :=
        hlayout.imp_right (Or.imp_right .inl)
      rw [refuseIf_of hlayout, refuseIf_of hrefused]
      rfl
    · obtain ⟨hfirst, hlength⟩ := not_or.1 hlayout
      have htail := htail (not_not.1 hfirst) (Nat.not_lt.1 (not_or.1 hlength).2)
      rw [refuseIf_of_not hlayout]
      show (if length < minChunkBytes then _ else _) = _
      have hpass : (length < minChunkBytes → first + length = size) →
          ¬(first ≠ offset ∨ length = 0 ∨ length > maxChunkBytes ∨
            length < minChunkBytes ∧ first + length ≠ size) := by
        rintro hlast (hne | hzero | hlong | ⟨hshort, hstop⟩)
        · exact hfirst hne
        · exact hlength (.inl hzero)
        · exact hlength (.inr hlong)
        · exact hstop (hlast hshort)
      by_cases hshort : length < minChunkBytes
      · rw [if_pos hshort, add64, if_neg (by omega)]
        show (ofCheck (refuseIf (first + length ≠ size) _) >>= _) = _
        by_cases hstop : first + length ≠ size
        · rw [refuseIf_of hstop, refuseIf_of (Or.inr (Or.inr (Or.inr ⟨hshort, hstop⟩)))]
          rfl
        · rw [refuseIf_of_not hstop, refuseIf_of_not (hpass fun _ => not_not.1 hstop)]
          exact htail
      · rw [if_neg hshort, refuseIf_of_not (hpass fun hlt => absurd hlt hshort)]
        exact htail

theorem parse64_eq [Sha256] (s : Str) : parse64 s = ofCheck (parse s) := by
  rw [parse64, parse]
  refine ofCheck_bind_congr fun _ _ => ?_
  rcases lines s with _ | ⟨header, rest⟩
  · rfl
  · refine ofCheck_bind_congr fun fields _ => ofCheck_bind_congr fun _ hcount => ?_
    have hle : fields.2 * maxChunkBytes ≤ maxChunks * maxChunkBytes :=
      Nat.mul_le_mul_right _ (Nat.not_lt.1 (refuseIf_ok hcount))
    have hmax : maxChunks * maxChunkBytes < 2 ^ 64 := by decide
    rw [parseChunks64_eq rest (by omega)]
    exact ofCheck_bind_congr fun _ _ => ofCheck_bind_congr fun _ _ => ofCheck_bind_congr fun _ _ =>
      ofCheck_bind_congr fun _ _ => rfl

/-- The parser accepts just the texts of canonical manifests, and no addition in it overflows. -/
theorem parse_exact [Sha256] (s : Str) :
    (∀ m : Manifest, parse s = .ok m ↔ s.length ≤ maxEncodedBytes ∧ s = encode m ∧ Canonical m) ∧
      parse64 s = ofCheck (parse s) := by
  refine ⟨fun m => ⟨canonical_of_parse, ?_⟩, parse64_eq s⟩
  rintro ⟨hlen, rfl, hm⟩
  exact parse_encode hm hlen

end PacketTide.Cdc
