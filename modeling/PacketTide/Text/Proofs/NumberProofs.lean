import Mathlib.Data.List.Basic
import Mathlib.Data.List.Induction
import PacketTide.Text.Basic

/-!
# Lemmas about numbers in text

Eight bytes hold a number of 64 bits. Decimal text consists of digits only, without leading zeros,
and the number is read back from it.
-/

namespace Text

/-! ## Numbers as eight bytes -/

@[simp] theorem length_toBeBytes (n : Nat) : (toBeBytes n).length = 8 := rfl

theorem fromBeBytes_snoc (bytes : List UInt8) (b : UInt8) :
    fromBeBytes (bytes ++ [b]) = fromBeBytes bytes * 256 + b.toNat := by
  simp [fromBeBytes]

/-- The bytes of the first `k + 1` positions, from those of the first `k`. -/
theorem fromBeBytes_positions (n k : Nat) :
    fromBeBytes ((List.range k).reverse.map fun i => UInt8.ofNat (n >>> (8 * i))) =
      n % 256 ^ k := by
  induction k generalizing n with
  | zero => simp [fromBeBytes, Nat.mod_one]
  | succ k ih =>
    have hshift : (List.range (k + 1)).reverse.map (fun i => UInt8.ofNat (n >>> (8 * i))) =
        (List.range k).reverse.map (fun i => UInt8.ofNat ((n / 256) >>> (8 * i))) ++
          [UInt8.ofNat n] := by
      rw [List.range_succ_eq_map, List.reverse_cons, List.map_append, List.map_reverse,
        List.map_reverse, List.map_map]
      congr 2
      apply List.map_congr_left
      intro i _
      show UInt8.ofNat (n >>> (8 * (i + 1))) = UInt8.ofNat ((n / 256) >>> (8 * i))
      rw [Nat.mul_succ, Nat.add_comm, Nat.shiftRight_add,
        Nat.shiftRight_eq_div_pow n 8]
    have hpow : 256 ^ (k + 1) = 256 * 256 ^ k := by rw [Nat.pow_succ, Nat.mul_comm]
    have hbyte : (UInt8.ofNat n).toNat = n % 256 := UInt8.toNat_ofNat'
    rw [hshift, fromBeBytes_snoc, ih (n / 256), hbyte, hpow, Nat.mod_mul]
    omega

/-- A number of 64 bits is read back from its eight bytes. -/
theorem fromBeBytes_toBeBytes {n : Nat} (h : n < 2 ^ 64) : fromBeBytes (toBeBytes n) = n := by
  have hk := fromBeBytes_positions n 8
  rw [Nat.mod_eq_of_lt (by omega)] at hk
  exact hk

theorem toBeBytes_injective {m n : Nat} (hm : m < 2 ^ 64) (hn : n < 2 ^ 64)
    (h : toBeBytes m = toBeBytes n) : m = n := by
  rw [← fromBeBytes_toBeBytes hm, h, fromBeBytes_toBeBytes hn]

theorem fromBeBytes_lt (bytes : List UInt8) : fromBeBytes bytes < 256 ^ bytes.length := by
  induction bytes using List.reverseRecOn with
  | nil => exact Nat.one_pos
  | append_singleton bytes b ih =>
    have hb := b.toNat_lt
    rw [fromBeBytes_snoc, List.length_append, List.length_singleton, Nat.pow_succ]
    omega

/-- Byte strings of one length are told apart by the numbers that they form. -/
theorem fromBeBytes_injective {bytes others : List UInt8} (hlength : bytes.length = others.length)
    (h : fromBeBytes bytes = fromBeBytes others) : bytes = others := by
  induction bytes using List.reverseRecOn generalizing others with
  | nil => exact (List.length_eq_zero_iff.1 hlength.symm).symm
  | append_singleton bytes b ih =>
    rcases List.eq_nil_or_concat' others with rfl | ⟨others, b', rfl⟩
    · rw [List.length_append] at hlength
      cases hlength
    have hb := b.toNat_lt
    have hb' := b'.toNat_lt
    rw [fromBeBytes_snoc, fromBeBytes_snoc] at h
    rw [List.length_append, List.length_append, List.length_singleton, List.length_singleton] at hlength
    have hbytes : bytes = others := ih (by omega) (by omega)
    have hlast : b = b' := UInt8.toNat_inj.1 (by omega)
    rw [hbytes, hlast]

/-- Eight bytes are the bytes of the number that they form. -/
theorem toBeBytes_fromBeBytes {bytes : List UInt8} (h : bytes.length = 8) :
    toBeBytes (fromBeBytes bytes) = bytes := by
  have hlt := fromBeBytes_lt bytes
  rw [h] at hlt
  exact fromBeBytes_injective (by rw [length_toBeBytes, h]) (fromBeBytes_toBeBytes hlt)

/-! ## Decimal text -/

theorem isDigit_of_mem_decimal {n : Nat} {b : UInt8} (h : b ∈ decimal n) : isDigit b := by
  unfold decimal at h
  obtain ⟨c, hc, rfl⟩ := List.mem_map.1 h
  have hd := Nat.isDigit_of_mem_toDigits (by omega) (by omega) hc
  rw [Char.isDigit, Bool.and_eq_true, decide_eq_true_eq, decide_eq_true_eq] at hd
  obtain ⟨h1, h2⟩ := hd
  have h1 : 48 ≤ c.toNat := h1
  have h2 : c.toNat ≤ 57 := h2
  have hb : c.toNat.toUInt8.toNat = c.toNat := by
    show (UInt8.ofNat c.toNat).toNat = c.toNat
    rw [UInt8.toNat_ofNat', Nat.mod_eq_of_lt (by omega)]
  simp only [isDigit, Bool.and_eq_true, decide_eq_true_eq, UInt8.le_iff_toNat_le, hb]
  exact ⟨h1, h2⟩

/-- Decimal text has no byte that is not a digit. -/
theorem not_mem_decimal {n : Nat} {b : UInt8} (h : isDigit b = false) : b ∉ decimal n := by
  intro hb
  rw [isDigit_of_mem_decimal hb] at h
  cases h

/-- The last digit comes off the end. -/
theorem decimal_eq (n : Nat) :
    decimal n = (if n < 10 then [] else decimal (n / 10)) ++ [UInt8.ofNat (48 + n % 10)] := by
  have hdigit : ∀ d : Fin 10, (Nat.digitChar d).toNat.toUInt8 = UInt8.ofNat (48 + d.val) := by decide
  have hlast : (Nat.digitChar (n % 10)).toNat.toUInt8 = UInt8.ofNat (48 + n % 10) :=
    hdigit ⟨n % 10, Nat.mod_lt _ (by omega)⟩
  unfold decimal
  rw [Nat.toDigits_eq_if (by omega)]
  split
  next hn =>
    rw [Nat.mod_eq_of_lt hn] at hlast ⊢
    rw [List.map_singleton, hlast, List.nil_append]
  next =>
    rw [List.map_append, List.map_singleton, hlast]

theorem decimal_of_lt {n : Nat} (h : n < 10) : decimal n = [UInt8.ofNat (48 + n)] := by
  rw [decimal_eq, if_pos h, Nat.mod_eq_of_lt h, List.nil_append]

theorem decimal_of_ge {n : Nat} (h : 10 ≤ n) :
    decimal n = decimal (n / 10) ++ [UInt8.ofNat (48 + n % 10)] := by
  rw [decimal_eq, if_neg (by omega)]

theorem decimal_ne_nil (n : Nat) : decimal n ≠ [] := by
  rw [decimal_eq]
  simp

theorem length_decimal_of_ge {n : Nat} (h : 10 ≤ n) :
    (decimal n).length = (decimal (n / 10)).length + 1 := by
  rw [decimal_of_ge h, List.length_append, List.length_singleton]

theorem length_decimal_le {n k : Nat} (hk : 1 ≤ k) (h : n < 10 ^ k) : (decimal n).length ≤ k := by
  induction k generalizing n with
  | zero => omega
  | succ k ih =>
    by_cases hn : n < 10
    · rw [decimal_of_lt hn, List.length_singleton]
      omega
    · have hdiv : n / 10 < 10 ^ k := by
        rw [Nat.pow_succ] at h
        omega
      have hk' : 1 ≤ k := by
        by_contra hzero
        obtain rfl : k = 0 := by omega
        omega
      have := ih hk' hdiv
      rw [length_decimal_of_ge (by omega)]
      omega

theorem le_length_decimal {n k : Nat} (h : 10 ^ k ≤ n) : k + 1 ≤ (decimal n).length := by
  induction k generalizing n with
  | zero =>
    have := List.length_pos_of_ne_nil (decimal_ne_nil n)
    omega
  | succ k ih =>
    have hpos : 0 < 10 ^ k := Nat.pow_pos (by omega)
    rw [Nat.pow_succ] at h
    have := ih (n := n / 10) (by omega)
    rw [length_decimal_of_ge (by omega)]
    omega

theorem head_decimal_ne_zero {n : Nat} (h : 1 ≤ n) : (decimal n).head? ≠ some 48 := by
  induction n using Nat.strongRecOn with
  | ind n ih =>
    by_cases hn : n < 10
    · rw [decimal_of_lt hn, List.head?_cons]
      intro he
      have hbyte := congrArg UInt8.toNat (Option.some.inj he)
      rw [UInt8.toNat_ofNat', Nat.mod_eq_of_lt (by omega)] at hbyte
      have : (48 : UInt8).toNat = 48 := rfl
      omega
    · rw [decimal_of_ge (by omega), List.head?_append_of_ne_nil _ (decimal_ne_nil _)]
      exact ih (n / 10) (by omega) (by omega)

/-- Text of more than one digit does not start with a zero. -/
theorem head_decimal {n : Nat} (h : 1 < (decimal n).length) : (decimal n).head? ≠ some 48 := by
  apply head_decimal_ne_zero
  by_contra hn
  rw [decimal_of_lt (by omega), List.length_singleton] at h
  omega

theorem digitsValue_snoc (radix : Nat) (s : Str) (b : UInt8) :
    digitsValue radix (s ++ [b]) =
      (digitsValue radix s).bind fun n => (digitValue radix b).map fun d => n * radix + d := by
  simp [digitsValue]

theorem digitValue_decimal {d : Nat} (h : d < 10) : digitValue 10 (UInt8.ofNat (48 + d)) = some d := by
  have hall : ∀ k : Fin 10, digitValue 10 (UInt8.ofNat (48 + k.val)) = some k.val := by decide
  exact hall ⟨d, h⟩

/-- A number is read back from its decimal text. -/
theorem digitsValue_decimal (n : Nat) : digitsValue 10 (decimal n) = some n := by
  induction n using Nat.strongRecOn with
  | ind n ih =>
    rw [decimal_eq, digitsValue_snoc, digitValue_decimal (Nat.mod_lt _ (by omega))]
    split
    next hn =>
      have hnil : digitsValue 10 [] = some 0 := rfl
      rw [hnil, Option.bind_some, Option.map_some, Nat.mod_eq_of_lt hn]
      simp
    next hn =>
      rw [ih (n / 10) (by omega), Option.bind_some, Option.map_some]
      congr 1
      omega

theorem decimal_injective {m n : Nat} (h : decimal m = decimal n) : m = n := by
  have hm := digitsValue_decimal m
  rw [h, digitsValue_decimal n] at hm
  exact (Option.some.inj hm).symm

theorem all_isDigit_decimal (n : Nat) : (decimal n).all isDigit := by
  rw [List.all_eq_true]
  exact fun b hb => isDigit_of_mem_decimal hb

theorem stripPrefix_decimal {b : UInt8} (hb : isDigit b = false) (n : Nat) :
    stripPrefix [b] (decimal n) = none := by
  have hpre : ¬ [b] <+: decimal n := by
    intro h
    exact not_mem_decimal hb (h.subset List.mem_cons_self)
  rw [stripPrefix, if_neg hpre]

theorem parseUnsigned_decimal {bits n : Nat} (h : n < 2 ^ bits) :
    parseUnsigned bits 10 (decimal n) = some n := by
  have hne : (decimal n).isEmpty = false := by
    rw [List.isEmpty_eq_false_iff]
    exact decimal_ne_nil n
  simp only [parseUnsigned, stripPrefix_decimal (by decide : isDigit 43 = false), Option.getD_none,
    hne, digitsValue_decimal]
  simp [h]

theorem parseUnsigned_lt {bits radix n : Nat} {s : Str} (h : parseUnsigned bits radix s = some n) :
    n < 2 ^ bits := by
  unfold parseUnsigned at h
  dsimp only at h
  split at h
  · cases h
  · exact of_decide_eq_true (Option.filter_eq_some_iff.1 h).2

theorem parseSigned_decimal {bits n : Nat} (h : n < 2 ^ (bits - 1)) :
    parseSigned bits 10 (decimal n) = some (n : Int) := by
  rw [parseSigned, stripPrefix_decimal (by decide : isDigit 45 = false), parseUnsigned_decimal h]
  rfl

theorem stripPrefix_cons (b : UInt8) (s : Str) : stripPrefix [b] (b :: s) = some s := by
  simp [stripPrefix]

theorem parseSigned_minus {bits n : Nat} (h : n ≤ 2 ^ (bits - 1)) :
    parseSigned bits 10 (45 :: decimal n) = some (-(n : Int)) := by
  have hne : (decimal n).isEmpty = false := by
    rw [List.isEmpty_eq_false_iff]
    exact decimal_ne_nil n
  have hfilter : (some n).filter (fun k => decide (k ≤ 2 ^ (bits - 1))) = some n := by
    rw [Option.filter_some, if_pos (decide_eq_true h)]
  simp only [parseSigned, stripPrefix_cons, hne, digitsValue_decimal, hfilter]
  rfl

/-- A signed number is read back from its decimal text. -/
theorem parseSigned_decimalInt {bits : Nat} {n : Int} (h : -(2 ^ (bits - 1) : Nat) ≤ n)
    (h' : n < (2 ^ (bits - 1) : Nat)) : parseSigned bits 10 (decimalInt n) = some n := by
  unfold decimalInt
  split
  next hn =>
    have habs : ((n.natAbs : Nat) : Int) = -n := Int.ofNat_natAbs_of_nonpos (by omega)
    rw [parseSigned_minus (by omega), habs, Int.neg_neg]
  next hn =>
    have habs : ((n.natAbs : Nat) : Int) = n := Int.natAbs_of_nonneg (by omega)
    rw [parseSigned_decimal (by omega), habs]

end Text
