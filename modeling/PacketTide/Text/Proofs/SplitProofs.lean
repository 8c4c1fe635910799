import PacketTide.Text.Proofs.NumberProofs

/-!
# Lemmas about splitting text

Lines and fields put together again, hexadecimal text, prefixes.
-/

namespace Text

/-! ## Lines -/

theorem intercalate_snoc (sep : Str) (parts : List Str) (last : Str) :
    sep.intercalate (parts ++ [last]) = parts.flatMap (· ++ sep) ++ last := by
  induction parts with
  | nil => simp
  | cons part parts ih =>
    obtain ⟨next, rest, hr⟩ := List.exists_cons_of_ne_nil (l := parts ++ [last]) (by simp)
    rw [List.cons_append, hr, List.intercalate_cons_cons, ← hr, ih, List.flatMap_cons]
    simp

/-- The parts of a text do not contain what it was split at. -/
theorem not_mem_of_mem_splitOn {x : UInt8} {s part : Str} (h : part ∈ s.splitOn x) : x ∉ part := by
  induction s generalizing part with
  | nil =>
    rw [List.splitOn_nil, List.mem_singleton] at h
    subst h
    exact List.not_mem_nil
  | cons b s ih =>
    rw [List.splitOn_cons_eq_if_modifyHead] at h
    by_cases hb : (b == x) = true
    · rw [if_pos hb, List.mem_cons] at h
      rcases h with rfl | h
      · exact List.not_mem_nil
      · exact ih h
    · rw [if_neg hb] at h
      obtain ⟨first, rest, hsplit⟩ := List.exists_cons_of_ne_nil (List.splitOn_ne_nil x s)
      rw [hsplit, List.modifyHead_cons, List.mem_cons] at h
      rcases h with rfl | h
      · have hfirst : x ∉ first := ih (by rw [hsplit]; exact List.mem_cons_self)
        rw [List.mem_cons, not_or]
        exact ⟨fun he => hb (by simp [he]), hfirst⟩
      · exact ih (by rw [hsplit]; exact List.mem_cons_of_mem _ h)

/-- The parts of a text contain only what is in it. -/
theorem mem_of_mem_splitOn {x b : UInt8} {s part : Str} (h : part ∈ s.splitOn x) (hb : b ∈ part) :
    b ∈ s := by
  induction s generalizing part with
  | nil =>
    rw [List.splitOn_nil, List.mem_singleton] at h
    rwa [h] at hb
  | cons c s ih =>
    rw [List.splitOn_cons_eq_if_modifyHead] at h
    obtain ⟨first, rest, hsplit⟩ := List.exists_cons_of_ne_nil (List.splitOn_ne_nil x s)
    by_cases hc : (c == x) = true
    · rw [if_pos hc, List.mem_cons] at h
      rcases h with rfl | h
      · cases hb
      · exact List.mem_cons_of_mem _ (ih h hb)
    · rw [if_neg hc, hsplit, List.modifyHead_cons, List.mem_cons] at h
      rcases h with rfl | h
      · rcases List.mem_cons.1 hb with rfl | hb
        · exact List.mem_cons_self
        · exact List.mem_cons_of_mem _ (ih (hsplit ▸ List.mem_cons_self) hb)
      · exact List.mem_cons_of_mem _ (ih (hsplit ▸ List.mem_cons_of_mem _ h) hb)

/-- Text without carriage returns that ends with a newline consists of its lines. -/
theorem flatMap_lines {s : Str} (hcr : carriageReturn ∉ s) (hend : s.getLast? = some newline) :
    (lines s).flatMap (· ++ [newline]) = s := by
  have hne := List.splitOn_ne_nil newline s
  have hall : [newline].intercalate (s.splitOn newline) = s := List.intercalate_splitOn newline
  rw [← List.dropLast_append_getLast hne, intercalate_snoc] at hall
  have hlast : (s.splitOn newline).getLast hne = [] := by
    by_contra h
    have hmem := not_mem_of_mem_splitOn (List.getLast_mem hne)
    rw [← hall, List.getLast?_append, List.getLast?_eq_some_getLast h, Option.some_or] at hend
    have hlastmem := List.getLast_mem h
    rw [Option.some.inj hend] at hlastmem
    exact hmem hlastmem
  have hstrip : (s.splitOn newline).dropLast.map
      (fun l => (stripSuffix [carriageReturn] l).getD l) = (s.splitOn newline).dropLast := by
    refine (List.map_congr_left fun l hl => ?_).trans (List.map_id _)
    have hl' : carriageReturn ∉ l := fun h =>
      hcr (mem_of_mem_splitOn ((List.dropLast_prefix _).subset hl) h)
    have hsuf : ¬ [carriageReturn] <:+ l := fun h => hl' (h.subset List.mem_cons_self)
    simp [stripSuffix, hsuf]
  rw [hlast, List.append_nil] at hall
  have hlines : lines s = (s.splitOn newline).dropLast := by
    simp only [lines, hstrip, List.getLast?_eq_some_getLast hne, hlast]
  rw [hlines, hall]

/-- Lines are read back from their text. -/
theorem lines_flatMap {parts : List Str} (h : ∀ l ∈ parts, newline ∉ l ∧ carriageReturn ∉ l) :
    lines (parts.flatMap (· ++ [newline])) = parts := by
  have hsplit : (parts.flatMap (· ++ [newline])).splitOn newline = parts ++ [[]] := by
    have hjoin := intercalate_snoc [newline] parts []
    rw [List.append_nil] at hjoin
    rw [← hjoin]
    refine List.splitOn_intercalate newline ?_ (by simp)
    intro l hl
    rcases List.mem_append.1 hl with hl | hl
    · exact (h l hl).1
    · rw [List.mem_singleton.1 hl]
      exact List.not_mem_nil
  have hstrip : parts.map (fun l => (stripSuffix [carriageReturn] l).getD l) = parts := by
    refine (List.map_congr_left fun l hl => ?_).trans (List.map_id _)
    have hsuf : ¬ [carriageReturn] <:+ l := fun hs => (h l hl).2 (hs.subset List.mem_cons_self)
    simp [stripSuffix, hsuf]
  simp only [lines, hsplit, List.dropLast_concat, hstrip]
  simp

/-! ## The first and the last separator -/

theorem splitOnce_append {sep : UInt8} {first : Str} (h : sep ∉ first) (rest : Str) :
    splitOnce sep (first ++ sep :: rest) = some (first, rest) := by
  induction first with
  | nil => rw [List.nil_append, splitOnce, if_pos rfl]
  | cons b first ih =>
    obtain ⟨hb, hfirst⟩ := not_or.1 fun hm => h (List.mem_cons.2 hm)
    rw [List.cons_append, splitOnce, if_neg (Ne.symm hb), ih hfirst, Option.map_some]

theorem splitOnce_eq_none {sep : UInt8} {s : Str} (h : sep ∉ s) : splitOnce sep s = none := by
  induction s with
  | nil => rfl
  | cons b s ih =>
    rw [List.mem_cons, not_or] at h
    rw [splitOnce, if_neg (Ne.symm h.1), ih h.2]
    rfl

theorem rsplitOnce_append {sep : UInt8} {last : Str} (h : sep ∉ last) (rest : Str) :
    rsplitOnce sep (rest ++ sep :: last) = some (rest, last) := by
  have hrev : (rest ++ sep :: last).reverse = last.reverse ++ sep :: rest.reverse := by simp
  rw [rsplitOnce, hrev, splitOnce_append (fun hm => h (List.mem_reverse.1 hm))]
  simp

/-! ## Fields -/

/-- Text of bytes above the space. -/
def Plain (s : Str) : Prop := ∀ b ∈ s, space < b

instance (s : Str) : Decidable (Plain s) := List.decidableBAll (fun b => space < b) s

theorem plain_of_isDigit {s : Str} (h : ∀ b ∈ s, isDigit b) : Plain s := by
  intro b hb
  have hd := h b hb
  simp only [isDigit, Bool.and_eq_true, decide_eq_true_eq, UInt8.le_iff_toNat_le] at hd
  rw [UInt8.lt_iff_toNat_lt]
  have h48 : (48 : UInt8).toNat = 48 := rfl
  have h32 : space.toNat = 32 := rfl
  omega

theorem plain_decimal (n : Nat) : Plain (decimal n) := plain_of_isDigit fun _ => isDigit_of_mem_decimal

theorem plain_decimalInt (n : Int) : Plain (decimalInt n) := by
  unfold decimalInt
  split
  next =>
    intro b hb
    rcases List.mem_cons.1 hb with rfl | hb
    · decide
    · exact plain_decimal _ b hb
  next => exact plain_decimal _

theorem Plain.space_not_mem {s : Str} (h : Plain s) : space ∉ s := fun hs =>
  absurd (h _ hs) (by decide)

/-- Fields are read back from the text that holds them. -/
theorem splitOn_fields {fields : List Str} (h : ∀ f ∈ fields, Plain f) (hne : fields ≠ []) :
    ([space].intercalate fields).splitOn space = fields :=
  List.splitOn_intercalate space (fun _ hf => (h _ hf).space_not_mem) hne

/-- Plain fields and the spaces between them hold no control characters. -/
theorem space_le_of_mem_fields {fields : List Str} (h : ∀ f ∈ fields, Plain f) {b : UInt8}
    (hb : b ∈ [space].intercalate fields) : space ≤ b := by
  induction fields with
  | nil => simp at hb
  | cons f fields ih =>
    have hf := h f List.mem_cons_self
    cases fields with
    | nil =>
      rw [List.intercalate_singleton] at hb
      exact UInt8.le_of_lt (hf b hb)
    | cons g fields =>
      rw [List.intercalate_cons_cons, List.mem_append, List.mem_append] at hb
      rcases hb with (hb | hb) | hb
      · exact UInt8.le_of_lt (hf b hb)
      · rw [List.mem_singleton.1 hb]
        exact UInt8.le_refl _
      · exact ih (fun k hk => h k (List.mem_cons_of_mem _ hk)) hb

theorem newline_not_mem_fields {fields : List Str} (h : ∀ f ∈ fields, Plain f) :
    newline ∉ [space].intercalate fields ∧ carriageReturn ∉ [space].intercalate fields :=
  ⟨fun hb => absurd (space_le_of_mem_fields h hb) (by decide),
    fun hb => absurd (space_le_of_mem_fields h hb) (by decide)⟩

/-- A line that consists of fields with spaces between them. -/
def OfFields (line : Str) : Prop :=
  ∃ fields : List Str, (∀ f ∈ fields, Plain f) ∧ line = [space].intercalate fields

theorem OfFields.newline_not_mem {line : Str} (h : OfFields line) : newline ∉ line ∧ carriageReturn ∉ line := by
  obtain ⟨fields, hf, rfl⟩ := h
  exact newline_not_mem_fields hf

/-- A text of such lines splits into them. -/
theorem lines_ofFields {parts : List Str} (h : ∀ l ∈ parts, OfFields l) :
    lines (parts.flatMap (· ++ [newline])) = parts := lines_flatMap fun l hl => (h l hl).newline_not_mem

theorem carriageReturn_not_mem_ofFields {parts : List Str} (h : ∀ l ∈ parts, OfFields l) :
    carriageReturn ∉ parts.flatMap (· ++ [newline]) := by
  intro hmem
  obtain ⟨l, hl, hmem⟩ := List.mem_flatMap.1 hmem
  rcases List.mem_append.1 hmem with hmem | hmem
  · exact (h l hl).newline_not_mem.2 hmem
  · exact absurd (List.mem_singleton.1 hmem) (by decide)

/-! ## Hexadecimal text -/

theorem hex_cons (b : UInt8) (bytes : List UInt8) :
    hex (b :: bytes) = hexDigit (b >>> 4) :: hexDigit (b &&& 15) :: hex bytes := by
  simp [hex]

theorem length_hex (bytes : List UInt8) : (hex bytes).length = 2 * bytes.length := by
  induction bytes with
  | nil => rfl
  | cons b bytes ih =>
    rw [hex_cons, List.length_cons, List.length_cons, ih, List.length_cons]
    omega

theorem isLowerHexDigit_hexDigit (a : UInt8) :
    isLowerHexDigit (hexDigit (a >>> 4)) = true ∧ isLowerHexDigit (hexDigit (a &&& 15)) = true := by
  have hall : ∀ k : Fin 256, isLowerHexDigit (hexDigit (UInt8.ofNat k >>> 4)) = true ∧
      isLowerHexDigit (hexDigit (UInt8.ofNat k &&& 15)) = true := by decide +kernel
  have ha := hall ⟨a.toNat, a.toNat_lt⟩
  rwa [UInt8.ofNat_toNat] at ha

/-- Hexadecimal text consists of lower-case digits. -/
theorem isLowerHexDigit_of_mem_hex {bytes : List UInt8} {b : UInt8} (h : b ∈ hex bytes) :
    isLowerHexDigit b = true := by
  obtain ⟨a, -, hb⟩ := List.mem_flatMap.1 h
  obtain ⟨hhigh, hlow⟩ := isLowerHexDigit_hexDigit a
  rcases List.mem_cons.1 hb with rfl | hb
  · exact hhigh
  · rw [List.mem_singleton.1 hb]
    exact hlow

theorem isLowerHexDigit_iff {b : UInt8} :
    isLowerHexDigit b = true ↔ (48 ≤ b ∧ b ≤ 57) ∨ (97 ≤ b ∧ b ≤ 102) := by
  simp [isLowerHexDigit, isDigit]

/-- A byte that is no lower-case digit does not occur in hexadecimal text. -/
theorem not_mem_hex {bytes : List UInt8} {b : UInt8} (h : isLowerHexDigit b = false) : b ∉ hex bytes :=
  fun hb => absurd (isLowerHexDigit_of_mem_hex hb) (by rw [h]; decide)

theorem plain_hex (bytes : List UInt8) : Plain (hex bytes) := by
  intro b hb
  have hspace : space = 32 := rfl
  rcases isLowerHexDigit_iff.1 (isLowerHexDigit_of_mem_hex hb) with h | h
  · rw [hspace]
    simp only [UInt8.le_iff_toNat_le, UInt8.lt_iff_toNat_lt] at h ⊢
    exact Nat.lt_of_lt_of_le (by decide) h.1
  · rw [hspace]
    simp only [UInt8.le_iff_toNat_le, UInt8.lt_iff_toNat_lt] at h ⊢
    exact Nat.lt_of_lt_of_le (by decide) h.1

theorem hex_ne_nil {bytes : List UInt8} (h : bytes ≠ []) : hex bytes ≠ [] := by
  obtain ⟨b, bytes, rfl⟩ := List.exists_cons_of_ne_nil h
  rw [hex_cons]
  simp

end Text
