import PacketTide.Text.Proofs.SplitProofs

/-!
# Lemmas about words

Words of visible ASCII characters: they are well-formed, white space splits text into them, and
hexadecimal ones are decoded again.
-/

namespace Text

/-- Text of visible ASCII characters. -/
def Graphic (s : Str) : Prop := ∀ b ∈ s, space < b ∧ b < 0x7F

instance (s : Str) : Decidable (Graphic s) := List.decidableBAll (fun b => space < b ∧ b < 0x7F) s

theorem Graphic.plain {s : Str} (h : Graphic s) : Plain s := fun b hb => (h b hb).1

theorem graphic_append {s t : Str} (hs : Graphic s) (ht : Graphic t) : Graphic (s ++ t) := by
  intro b hb
  rcases List.mem_append.1 hb with hb | hb
  · exact hs b hb
  · exact ht b hb

theorem graphic_of_isDigit {s : Str} (h : ∀ b ∈ s, isDigit b) : Graphic s := by
  intro b hb
  refine ⟨plain_of_isDigit h b hb, ?_⟩
  have hd := h b hb
  simp only [isDigit, Bool.and_eq_true, decide_eq_true_eq, UInt8.le_iff_toNat_le] at hd
  rw [UInt8.lt_iff_toNat_lt]
  have h57 : (57 : UInt8).toNat = 57 := rfl
  have h127 : (0x7F : UInt8).toNat = 127 := rfl
  omega

theorem graphic_decimal (n : Nat) : Graphic (decimal n) :=
  graphic_of_isDigit fun _ => isDigit_of_mem_decimal

theorem graphic_hex (bytes : List UInt8) : Graphic (hex bytes) := by
  intro b hb
  refine ⟨plain_hex bytes b hb, ?_⟩
  rcases isLowerHexDigit_iff.1 (isLowerHexDigit_of_mem_hex hb) with h | h
  · exact UInt8.lt_of_le_of_lt h.2 (by decide)
  · exact UInt8.lt_of_le_of_lt h.2 (by decide)

/-- Text of visible ASCII characters and spaces. -/
def Printable (s : Str) : Prop := ∀ b ∈ s, space ≤ b ∧ b < 0x7F

instance (s : Str) : Decidable (Printable s) :=
  List.decidableBAll (fun b => space ≤ b ∧ b < 0x7F) s

theorem Graphic.printable {s : Str} (h : Graphic s) : Printable s := fun b hb =>
  ⟨UInt8.le_of_lt (h b hb).1, (h b hb).2⟩

theorem printable_append {s t : Str} (hs : Printable s) (ht : Printable t) : Printable (s ++ t) := by
  intro b hb
  rcases List.mem_append.1 hb with hb | hb
  · exact hs b hb
  · exact ht b hb

theorem printable_hex (bytes : List UInt8) : Printable (hex bytes) := (graphic_hex bytes).printable

/-! ## Well-formedness -/

theorem validUtf8_of_ascii {s : Str} (h : ∀ b ∈ s, b < 0x80) : validUtf8 s = true := by
  induction s with
  | nil => rfl
  | cons b s ih =>
    rw [validUtf8.eq_def]
    simp only
    rw [if_pos (h b List.mem_cons_self)]
    exact ih fun c hc => h c (List.mem_cons_of_mem _ hc)

/-- A string may be followed by another one. -/
theorem validUtf8_append {s t : Str} (h : validUtf8 s = true) : validUtf8 (s ++ t) = validUtf8 t := by
  fun_induction validUtf8 s with
  | case1 => rfl
  | case2 a rest hlow ih =>
    rw [List.cons_append, validUtf8.eq_def]
    simp [hlow, ih h]
  | case3 => cases h
  | case4 a hlow b rest htwo ih =>
    simp only [Bool.and_eq_true] at h
    rw [List.cons_append, validUtf8.eq_def]
    simp [hlow, htwo, ih h.2, h.1]
  | case5 => cases h
  | case6 a hlow b htwo c rest hthree ih =>
    simp only [Bool.and_eq_true] at h
    rw [List.cons_append, validUtf8.eq_def]
    simp [hlow, htwo, hthree, ih h.2, h.1]
  | case7 => cases h
  | case8 a hlow b htwo c hthree d rest ih =>
    simp only [Bool.and_eq_true] at h
    rw [List.cons_append, validUtf8.eq_def]
    simp [hlow, htwo, hthree, ih h.2, h.1]

theorem Printable.valid {s : Str} (h : Printable s) : validUtf8 s = true :=
  validUtf8_of_ascii fun b hb => UInt8.lt_trans (h b hb).2 (by decide)

theorem isCharBoundary_of_ascii {s : Str} (h : ∀ b ∈ s, b < 0x80) {i : Nat} (hi : i ≤ s.length) :
    isCharBoundary s i = true := by
  unfold isCharBoundary
  split
  next b hb =>
    have hlt := h b (List.mem_of_getElem? hb)
    have hcont : ¬ 0x80 ≤ b := UInt8.not_le.2 hlt
    simp [isContinuation, hcont]
  next hnone =>
    have hlen := List.getElem?_eq_none_iff.1 hnone
    have hlast : i = s.length := by omega
    rw [hlast]
    exact beq_self_eq_true _

/-! ## White space -/

theorem leadingWhitespace_graphic {b : UInt8} (h : space < b ∧ b < 0x7F) (s : Str) :
    leadingWhitespace (b :: s) = 0 := by
  have hnone : (whitespace.find? fun w => w.isPrefixOf (b :: s)) = none := by
    rw [List.find?_eq_none]
    intro w hw hprefix
    have hall : ∀ w ∈ whitespace, ∃ c, w.head? = some c ∧ ¬ (space < c ∧ c < 0x7F) := by decide
    obtain ⟨c, hc, hno⟩ := hall w hw
    obtain ⟨rest, hrest⟩ := List.isPrefixOf_iff_prefix.1 hprefix
    cases w with
    | nil => cases hc
    | cons c' w =>
      cases hc
      cases hrest
      exact hno h
  rw [leadingWhitespace, hnone]

theorem leadingWhitespace_space (s : Str) : leadingWhitespace (space :: s) = 1 := rfl

theorem splitWhitespaceFrom_graphic {word : Str} (h : Graphic word) (acc s : Str) :
    splitWhitespaceFrom 0 acc (word ++ s) = splitWhitespaceFrom 0 (acc ++ word) s := by
  induction word generalizing acc with
  | nil => simp
  | cons b word ih =>
    rw [List.cons_append, splitWhitespaceFrom, leadingWhitespace_graphic (h b List.mem_cons_self)]
    dsimp only
    rw [ih fun c hc => h c (List.mem_cons_of_mem _ hc)]
    simp

/-- A word that is followed by a space is split off. -/
theorem splitWhitespaceFrom_space {word : Str} (hne : word ≠ []) (s : Str) :
    splitWhitespaceFrom 0 word (space :: s) = word :: splitWhitespaceFrom 0 [] s := by
  rw [splitWhitespaceFrom, leadingWhitespace_space]
  simp [hne]

/-- White space splits fields apart again. -/
theorem splitWhitespace_fields {fields : List Str} (h : ∀ f ∈ fields, Graphic f ∧ f ≠ []) :
    splitWhitespace ([space].intercalate fields) = fields := by
  induction fields with
  | nil => rfl
  | cons f fields ih =>
    obtain ⟨hf, hne⟩ := h f List.mem_cons_self
    cases fields with
    | nil =>
      have hsplit := splitWhitespaceFrom_graphic hf [] []
      rw [List.append_nil] at hsplit
      rw [List.intercalate_singleton, splitWhitespace, hsplit, List.nil_append, splitWhitespaceFrom]
      simp [hne]
    | cons g fields =>
      rw [List.intercalate_cons_cons, List.append_assoc, splitWhitespace,
        splitWhitespaceFrom_graphic hf, List.nil_append, List.singleton_append,
        splitWhitespaceFrom_space hne]
      have hrest := ih fun k hk => h k (List.mem_cons_of_mem _ hk)
      rw [splitWhitespace] at hrest
      rw [hrest]

/-! ## Hexadecimal words -/

theorem length_drop_hex (bytes : List UInt8) (i : Nat) :
    (hex bytes).drop (i * 2) = hex (bytes.drop i) := by
  induction bytes generalizing i with
  | nil => simp [hex]
  | cons b bytes ih =>
    cases i with
    | zero => rfl
    | succ i =>
      have htwo : (i + 1) * 2 = i * 2 + 1 + 1 := by omega
      rw [hex_cons, htwo, List.drop_succ_cons, List.drop_succ_cons, ih, List.drop_succ_cons]

/-- A pair of digits is the slice at its place. -/
theorem slice_hex {bytes : List UInt8} {i : Nat} {b : UInt8} (h : bytes[i]? = some b) :
    slice (hex bytes) (i * 2) (i * 2 + 2) = some [hexDigit (b >>> 4), hexDigit (b &&& 15)] := by
  obtain ⟨hi, hb⟩ := List.getElem?_eq_some_iff.1 h
  have hascii : ∀ c ∈ hex bytes, c < 0x80 := fun c hc =>
    UInt8.lt_trans (graphic_hex bytes c hc).2 (by decide)
  have hlen := length_hex bytes
  have hstart := isCharBoundary_of_ascii hascii (i := i * 2) (by omega)
  have hstop := isCharBoundary_of_ascii hascii (i := i * 2 + 2) (by omega)
  unfold slice
  rw [hstart, hstop, decide_eq_true (by omega : i * 2 ≤ i * 2 + 2)]
  have hdrop : bytes.drop i = b :: bytes.drop (i + 1) := by
    rw [List.drop_eq_getElem_cons hi, hb]
  have htake : ((hex bytes).take (i * 2 + 2)).drop (i * 2) = ((hex bytes).drop (i * 2)).take 2 := by
    rw [List.drop_take, Nat.add_sub_cancel_left]
  simp only [Bool.and_self, if_true, htake, length_drop_hex, hdrop, hex_cons]
  rfl

theorem parseUnsigned_hexPair (b : UInt8) :
    parseUnsigned 8 16 [hexDigit (b >>> 4), hexDigit (b &&& 15)] = some b.toNat := by
  have hall : ∀ k : Fin 256, parseUnsigned 8 16
      [hexDigit (UInt8.ofNat k >>> 4), hexDigit (UInt8.ofNat k &&& 15)] = some k.val := by
    decide +kernel
  have hb := hall ⟨b.toNat, b.toNat_lt⟩
  rwa [UInt8.ofNat_toNat] at hb

end Text
