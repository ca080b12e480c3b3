import SkyrUrl.Driver

/-!
# The IPv4 parser

`parse_ipv4_address` reads each part with `parse_ipv4_number`, which hands the part after its
prefix to `std::stoul`.  `std::stoul` skips white space and a sign, skips a second `0x` in
radix 16, reads the longest run of digits and ignores what follows it, and throws above
`ULONG_MAX`.  The WHATWG IPv4 parser reads a part only when it is made entirely of radix-`R`
digits, over unbounded naturals: `ipv4ParserSpec`, modelled from the spec.

    (∀ part, a radix-R number below 2^64) →
      parseIpv4Address input = ipv4ParserSpec input            (parseIpv4Address_eq_spec)
    parseIpv4Address "1a" = some "0.0.0.1" ≠ ipv4ParserSpec "1a" (ipv4_partial_number_folded)
    parseIpv4Address (ipv4ToString m) = some (ipv4ToString m)   (parseIpv4Address_ipv4ToString)

The sum it accumulates from one to four numbers in range is below `2^32`, so the narrowing to
the 32-bit address keeps it, and different numbers give different addresses
(`ipv4_accumulator_exact`).
-/

namespace SkyrUrl

/-! ## Decimal digits -/

theorem toDigitsCore_append (b : Nat) : ∀ (fuel n : Nat) (ds : List Char),
    Nat.toDigitsCore b fuel n ds = Nat.toDigitsCore b fuel n [] ++ ds
  | 0, _, _ => rfl
  | fuel + 1, n, ds => by
    simp only [Nat.toDigitsCore]
    split
    · rfl
    · rw [toDigitsCore_append b fuel _ (_ :: ds), toDigitsCore_append b fuel _ [_]]
      simp

theorem toDigitsCore_fuel (b : Nat) (hb : 1 < b) : ∀ (f₁ f₂ n : Nat) (ds : List Char),
    n < f₁ → n < f₂ → Nat.toDigitsCore b f₁ n ds = Nat.toDigitsCore b f₂ n ds
  | 0, _, _, _, h, _ | _, 0, _, _, _, h => absurd h (Nat.not_lt_zero _)
  | f₁ + 1, f₂ + 1, n, ds, h₁, h₂ => by
    simp only [Nat.toDigitsCore]
    split
    · rfl
    · rename_i hn
      have : n / b < n := Nat.div_lt_self (Nat.pos_of_ne_zero fun h => hn (by simp [h])) hb
      exact toDigitsCore_fuel b hb f₁ f₂ _ _ (by omega) (by omega)

/-- The last digit comes off the end. -/
theorem toDigits_eq_append {b : Nat} (hb : 1 < b) (n : Nat) : Nat.toDigits b n =
    (if n < b then [] else Nat.toDigits b (n / b)) ++ [Nat.digitChar (n % b)] := by
  have hdiv : n / b = 0 ↔ n < b := Nat.div_eq_zero_iff (by omega)
  unfold Nat.toDigits
  rw [Nat.toDigitsCore]
  split
  · rw [if_pos (hdiv.1 ‹_›)]; rfl
  · have hlt : n / b < n := Nat.div_lt_self (by omega) hb
    rw [if_neg (mt hdiv.2 ‹_›), toDigitsCore_append,
      toDigitsCore_fuel b hb n (n / b + 1) _ _ (by omega) (by omega)]

theorem toDigits_ten (n : Nat) : Nat.toDigits 10 n =
    (if n < 10 then [] else Nat.toDigits 10 (n / 10)) ++ [Nat.digitChar (n % 10)] :=
  toDigits_eq_append (by omega) n

/-- The decimal digit characters, as the readers see them. -/
theorem digitChar_decimal : ∀ k < 10, digitValue 10 (Nat.digitChar k) = some k ∧
    isSpace (Nat.digitChar k) = false ∧ Nat.digitChar k ≠ '+' ∧ Nat.digitChar k ≠ '-' ∧
    (Nat.digitChar k = '0' → k = 0) := by
  decide

theorem toDigits_ten_cons (n : Nat) : ∃ k rest, k < 10 ∧
    Nat.toDigits 10 n = Nat.digitChar k :: rest ∧ (k = 0 → n = 0 ∧ rest = []) := by
  induction n using Nat.strong_induction_on with
  | _ n ih =>
    rw [toDigits_ten]
    split
    · exact ⟨n, [], by omega, by simp [Nat.mod_eq_of_lt ‹n < 10›], fun h => ⟨h, rfl⟩⟩
    · obtain ⟨k, rest, hk, he, h0⟩ := ih (n / 10) (by omega)
      exact ⟨k, rest ++ _, hk, by rw [he]; rfl, fun h => absurd (h0 h).1 (by omega)⟩

theorem toDigits_ne_nil (n : Nat) : Nat.toDigits 10 n ≠ [] := by
  obtain ⟨k, rest, -, he, -⟩ := toDigits_ten_cons n
  simp [he]

theorem mem_toDigits {b : Nat} (hb : 1 < b) {n : Nat} :
    ∀ {c : Char}, c ∈ Nat.toDigits b n → ∃ k < b, c = Nat.digitChar k := by
  induction n using Nat.strong_induction_on with
  | _ n ih =>
    intro c hc
    rw [toDigits_eq_append hb] at hc
    rcases List.mem_append.1 hc with hc | hc
    · split at hc
      · simp at hc
      · exact ih (n / b) (Nat.div_lt_self (by omega) hb) hc
    · exact ⟨n % b, Nat.mod_lt _ (by omega), List.mem_singleton.1 hc⟩

theorem mem_toDigits_ten {n : Nat} {c : Char} (h : c ∈ Nat.toDigits 10 n) :
    ∃ k < 10, c = Nat.digitChar k :=
  mem_toDigits (by omega) h

/-! ## `strtoul` on a string of digits -/

/-- A string made entirely of radix-`R` digits, read as a number after `acc`; `none` at a
byte that is not such a digit. -/
def digitsValue (R : Nat) (digits : List Char) (acc : Nat) : Option Nat :=
  digits.foldlM (fun n c => (digitValue R c).map (n * R + ·)) acc

theorem digitsValue_toDigits (n : Nat) : digitsValue 10 (Nat.toDigits 10 n) 0 = some n := by
  induction n using Nat.strong_induction_on with
  | _ n ih =>
    rw [toDigits_ten]
    have hd := (digitChar_decimal (n % 10) (Nat.mod_lt _ (by omega))).1
    split
    · rw [Nat.mod_eq_of_lt ‹n < 10›] at hd ⊢
      simp [digitsValue, hd]
    · simp only [digitsValue, List.foldlM_append] at ih ⊢
      rw [ih (n / 10) (by omega)]
      simp [hd]; omega

theorem digitsValue_isSome {R : Nat} : ∀ {l : List Char} {acc v : Nat},
    digitsValue R l acc = some v → ∀ c ∈ l, (digitValue R c).isSome
  | [], _, _, _ => by simp
  | c :: l, acc, v, h => by
    simp only [digitsValue, List.foldlM_cons] at h
    cases hc : digitValue R c with
    | none => simp [hc] at h
    | some d =>
      simp only [hc, Option.map_some', Option.some_bind] at h
      intro x hx
      rcases List.mem_cons.1 hx with rfl | hx
      · simp [hc]
      · exact digitsValue_isSome h x hx

/-- The digit loop of `strtoul` reads a whole string of digits. -/
theorem readDigits_of_digitsValue {R : Nat} : ∀ {l : List Char} {acc v : Nat} (count : Nat),
    digitsValue R l acc = some v → readDigits R l acc count = (v, count + l.length)
  | [], acc, v, count, h => by simp_all [digitsValue, readDigits]
  | c :: l, acc, v, count, h => by
    simp only [digitsValue, List.foldlM_cons] at h
    cases hc : digitValue R c with
    | none => simp [hc] at h
    | some d =>
      simp only [hc, Option.map_some'] at h
      rw [readDigits, hc]
      simp only
      rw [readDigits_of_digitsValue (count + 1) h]
      simp only [List.length_cons]; congr 1; omega

/-- White space, signs and the `x` of a hex prefix are digits of no radix up to 16. -/
theorem digitValue_eq_none {R : Nat} (hR : R ≤ 16) {c : Char}
    (hc : isSpace c ∨ c = '+' ∨ c = '-' ∨ c = 'x' ∨ c = 'X') : digitValue R c = none := by
  simp only [isSpace, Bool.or_eq_true, decide_eq_true_eq] at hc
  rcases hc with (((((rfl | rfl) | rfl) | rfl) | rfl) | rfl) | rfl | rfl | rfl | rfl
  all_goals first
    | rfl
    | (have h : digitValue R 'x' = (some 33).filter (· < R) := rfl
       rw [h]; simp only [Option.filter, decide_eq_true_eq]; split <;> first | rfl | omega)
    | (have h : digitValue R 'X' = (some 33).filter (· < R) := rfl
       rw [h]; simp only [Option.filter, decide_eq_true_eq]; split <;> first | rfl | omega)

/-- **`strtoul` on a number.**  A non-empty string of radix-`R` digits is read whole, without
white space, sign or a second prefix; its value saturates at `ULONG_MAX`. -/
theorem strtoul_of_digitsValue {R : Nat} {l : List Char} {v : Nat} (hR : R ≤ 16) (hl : l ≠ [])
    (hv : digitsValue R l 0 = some v) :
    strtoul l R = if 2 ^ 64 ≤ v then (2 ^ 64 - 1, l.length, true) else (v, l.length, false) := by
  obtain ⟨c, rest, rfl⟩ := List.exists_cons_of_ne_nil hl
  have hdig := digitsValue_isSome hv
  have hc : ¬ (isSpace c ∨ c = '+' ∨ c = '-' ∨ c = 'x' ∨ c = 'X') := fun h => by
    simpa [digitValue_eq_none hR h] using hdig c (List.mem_cons_self _ _)
  simp only [not_or, Bool.not_eq_true] at hc
  have hx : hasHexPrefix (c :: rest) = false := by
    match rest, hdig with
    | x :: d :: _, hdig =>
      have hx : ¬ (x = 'x' ∨ x = 'X') := fun h => by
        simpa [digitValue_eq_none hR (Or.inr (Or.inr (Or.inr h)))] using hdig x (by simp)
      unfold hasHexPrefix; split <;> simp_all
    | [], _ | [_], _ => simp [hasHexPrefix]
  have hread := readDigits_of_digitsValue 0 hv
  unfold strtoul
  simp only [List.takeWhile_cons, hc.1, Bool.false_eq_true, if_false, List.length_nil,
    List.drop_zero]
  split
  · simp_all
  · simp_all
    split
    · rfl
    · rw [Nat.mod_eq_of_lt (by omega)]

theorem stoul_of_digitsValue {R : Nat} {l : List Char} {v : Nat} (hR : R ≤ 16) (hl : l ≠ [])
    (hv : digitsValue R l 0 = some v) (hlt : v < 2 ^ 64) : stoul l R = some v := by
  rw [stoul, strtoul_of_digitsValue hR hl hv, if_neg (Nat.not_le.2 hlt)]
  simp [hl]

/-! ## The WHATWG parser -/

/-- The parts of a host for the IPv4 parser: split on `.`, one trailing empty part dropped
when there are others. -/
def ipv4Parts (input : List Char) : List (List Char) :=
  let parts := input.splitOn '.'
  if parts.getLastD [] = [] ∧ 1 < parts.length then parts.dropLast else parts

/-- Modelled from the spec: a part's digits and radix, `0x`/`0X` selecting 16 and another
leading `0` of a part of two or more bytes 8. -/
def ipv4RadixSpec : List Char → List Char × Nat
  | '0' :: x :: rest => if x = 'x' ∨ x = 'X' then (rest, 16) else (x :: rest, 8)
  | part => (part, 10)

/-- Modelled from the spec: the WHATWG IPv4 number parser over the naturals, `none` unless
the part is made entirely of radix-`R` digits. -/
def ipv4NumberSpec (part : List Char) : Option Nat :=
  digitsValue (ipv4RadixSpec part).2 (ipv4RadixSpec part).1 0

/-- Modelled from the spec: the WHATWG IPv4 parser over unbounded naturals.  The input itself
when it has more than four parts or a part that is not a number, `none` when a number is out
of range, else the dotted-decimal form of `n_(k-1) + Σ_(i<k-1) n_i * 256^(3-i)`. -/
def ipv4ParserSpec (input : List Char) : Option (List Char) :=
  let parts := ipv4Parts input
  if 4 < parts.length ∨ [] ∈ parts then some input
  else match parts.mapM ipv4NumberSpec with
    | none => some input
    | some numbers =>
      if numbers.dropLast.any (· > 255) then none
      else if 256 ^ (5 - numbers.length) ≤ numbers.getLastD 0 then none
      else some (ipv4ToString (numbers.getLastD 0 +
        (numbers.dropLast.enum.map fun (i, n) => n * 256 ^ (3 - i)).sum))

/-! ## Agreement and divergence -/

theorem toLower_eq_x {x : Char} (h : x.toLower = 'x') : x = 'x' ∨ x = 'X' := by
  simp only [Char.toLower] at h
  split at h
  · right
    have := congrArg Char.toNat h
    rw [charToNat_ofNat (by omega)] at this
    rw [← Char.ofNat_toNat x, show x.toNat = 88 by simp at this; omega]
  · left; exact h

/-- A part that does not start with `0` is read in radix 10. -/
theorem parseIpv4Number_cons {c : Char} (rest : List Char) (hc : c ≠ '0') :
    parseIpv4Number (c :: rest) = stoul (c :: rest) 10 := by
  simp [parseIpv4Number, hc]

/-- A part that is a WHATWG number below `2^64` gets the same value from `stoul`. -/
theorem parseIpv4Number_eq_spec {part : List Char} (hp : part ≠ []) {n : Nat}
    (hn : ipv4NumberSpec part = some n) (hlt : n < 2 ^ 64) : parseIpv4Number part = some n := by
  rcases part with _ | ⟨c, _ | ⟨x, rest⟩⟩
  · exact absurd rfl hp
  · simp only [ipv4NumberSpec, ipv4RadixSpec] at hn
    simp [parseIpv4Number, stoul_of_digitsValue (by omega) (by simp) hn hlt]
  · by_cases hc : c = '0'
    · subst hc
      by_cases hx : x = 'x' ∨ x = 'X'
      · have hl : x.toLower = 'x' := by rcases hx with rfl | rfl <;> rfl
        simp only [ipv4NumberSpec, ipv4RadixSpec, hx, if_true] at hn
        simp only [parseIpv4Number, hl, if_true]
        rcases rest with _ | ⟨y, rest⟩
        · simpa [digitsValue] using hn
        · simp [stoul_of_digitsValue (by omega) (by simp) hn hlt]
      · have hl : x.toLower ≠ 'x' := fun h => hx (toLower_eq_x h)
        simp only [ipv4NumberSpec, ipv4RadixSpec, hx, if_false] at hn
        simp [parseIpv4Number, hl, stoul_of_digitsValue (by omega) (by simp) hn hlt]
    · simp only [ipv4NumberSpec, ipv4RadixSpec] at hn
      rw [parseIpv4Number_cons _ hc]
      split at hn
      · simp_all
      · exact stoul_of_digitsValue (by omega) (by simp) hn hlt

theorem parseIpv4Parts_eq_spec : ∀ {parts : List (List Char)}, [] ∉ parts →
    (∀ part ∈ parts, ∃ n < 2 ^ 64, ipv4NumberSpec part = some n) →
    parseIpv4Parts parts = parts.mapM ipv4NumberSpec
  | [], _, _ => rfl
  | part :: parts, hne, h => by
    obtain ⟨n, hlt, hn⟩ := h part (List.mem_cons_self _ _)
    have hp : part ≠ [] := fun e => hne (e ▸ List.mem_cons_self _ _)
    rw [parseIpv4Parts, if_neg hp, parseIpv4Number_eq_spec hp hn hlt,
      parseIpv4Parts_eq_spec (fun e => hne (List.mem_cons_of_mem _ e))
        fun q hq => h q (List.mem_cons_of_mem _ hq)]
    simp only [List.mapM_cons, hn]
    cases parts.mapM ipv4NumberSpec <;> rfl

theorem parseIpv4Parts_of_nil_mem : ∀ {parts : List (List Char)}, [] ∈ parts →
    parseIpv4Parts parts = none
  | [], h => absurd h (List.not_mem_nil _)
  | part :: parts, h => by
    rw [parseIpv4Parts]
    split
    · rfl
    · rename_i hp
      rw [parseIpv4Parts_of_nil_mem ((List.mem_cons.1 h).resolve_left (Ne.symm hp))]
      split <;> simp_all

/-- The `counter` loop sums `numbers[i] * 256^(3 - i)`. -/
theorem ipv4Fold_eq : ∀ (numbers : List Nat) (counter ipv4 : Nat),
    ipv4Fold numbers counter ipv4 =
      ipv4 + ((numbers.enumFrom counter).map fun (i, n) => n * 256 ^ (3 - i)).sum
  | [], _, _ => rfl
  | n :: numbers, counter, ipv4 => by
    rw [ipv4Fold, ipv4Fold_eq numbers]
    simp only [List.enumFrom_cons, List.map_cons, List.sum_cons]; omega

/-- The serialisation reads only the low 32 bits. -/
theorem ipv4ToString_mod (m : Nat) : ipv4ToString (m % 2 ^ 32) = ipv4ToString m := by
  simp only [ipv4ToString, show m % 2 ^ 32 / 2 ^ 24 % 256 = m / 2 ^ 24 % 256 by omega,
    show m % 2 ^ 32 / 2 ^ 16 % 256 = m / 2 ^ 16 % 256 by omega,
    show m % 2 ^ 32 / 2 ^ 8 % 256 = m / 2 ^ 8 % 256 by omega, show m % 2 ^ 32 % 256 = m % 256 by omega]

/-- **Where the parts are numbers, the two parsers agree.**  When every part is made entirely
of radix-`R` digits and its value is below `2^64`, `std::stoul` reads it whole, and
`parse_ipv4_address` returns what the WHATWG parser returns. -/
theorem parseIpv4Address_eq_spec {input : List Char}
    (h : ∀ part ∈ ipv4Parts input, ∃ n < 2 ^ 64, ipv4NumberSpec part = some n) :
    parseIpv4Address input = ipv4ParserSpec input := by
  unfold parseIpv4Address ipv4ParserSpec
  simp only [ipv4Parts] at h ⊢
  generalize (if (input.splitOn '.').getLastD [] = [] ∧ 1 < (input.splitOn '.').length then
    (input.splitOn '.').dropLast else input.splitOn '.') = parts at h ⊢
  by_cases h4 : 4 < parts.length
  · simp [h4]
  by_cases hnil : [] ∈ parts
  · simp [h4, hnil, parseIpv4Parts_of_nil_mem hnil]
  simp only [h4, hnil, or_self, if_false, parseIpv4Parts_eq_spec hnil h]
  cases parts.mapM ipv4NumberSpec with
  | none => rfl
  | some numbers => simp only [ipv4Fold_eq, ipv4ToString_mod, Nat.zero_add]; rfl

/-- **`std::stoul` reads a prefix.**  The part `1a` is not a decimal number, so the WHATWG
parser returns the host unchanged; `std::stoul` reads its `1` and stops there, so
`parse_ipv4_address` returns the address `0.0.0.1`, and `http://1a` parses with that host. -/
theorem ipv4_partial_number_folded :
    parseIpv4Address "1a".toList = some "0.0.0.1".toList ∧
      ipv4ParserSpec "1a".toList = some "1a".toList ∧
      basicParse 30 "http://1a".toList none none none =
        some (.ok { scheme := "http".toList, host := some "0.0.0.1".toList, path := [[]] }) := by
  decide

/-! ## The serialisation reads back -/

/-- A decimal number below `2^64`, as `to_string` writes it, is read back by
`parse_ipv4_number`. -/
theorem parseIpv4Number_toDigits {n : Nat} (h : n < 2 ^ 64) :
    parseIpv4Number (Nat.toDigits 10 n) = some n := by
  obtain ⟨k, rest, hk, he, h0⟩ := toDigits_ten_cons n
  by_cases hk0 : k = 0
  · obtain ⟨rfl, rfl⟩ := h0 hk0
    subst hk0; rfl
  · rw [he, parseIpv4Number_cons rest fun e => hk0 ((digitChar_decimal k hk).2.2.2.2 e), ← he]
    exact stoul_of_digitsValue (by omega) (by simp [he]) (digitsValue_toDigits n) h

theorem ipv4ToString_eq_intercalate (m : Nat) : ipv4ToString m =
    ['.'].intercalate [Nat.toDigits 10 (m / 2 ^ 24 % 256), Nat.toDigits 10 (m / 2 ^ 16 % 256),
      Nat.toDigits 10 (m / 2 ^ 8 % 256), Nat.toDigits 10 (m % 256)] := by
  simp [ipv4ToString, List.intercalate]

/-- **The dotted-decimal form is an IPv4 address.**  `parse_ipv4_address` reads its four
numbers back and serialises the same address. -/
theorem parseIpv4Address_ipv4ToString (m : Nat) :
    parseIpv4Address (ipv4ToString m) = some (ipv4ToString m) := by
  have hdot : ∀ n, '.' ∉ Nat.toDigits 10 n := fun n h => by
    obtain ⟨k, hk, he⟩ := mem_toDigits_ten h
    exact absurd he (by revert k; decide)
  have hsplit : (ipv4ToString m).splitOn '.' = [Nat.toDigits 10 (m / 2 ^ 24 % 256),
      Nat.toDigits 10 (m / 2 ^ 16 % 256), Nat.toDigits 10 (m / 2 ^ 8 % 256),
      Nat.toDigits 10 (m % 256)] := by
    rw [ipv4ToString_eq_intercalate, List.splitOn_intercalate]
    · simpa using ⟨hdot _, hdot _, hdot _, hdot _⟩
    · simp
  have hnum : ∀ k, k < 256 → parseIpv4Number (Nat.toDigits 10 k) = some k :=
    fun k hk => parseIpv4Number_toDigits (by omega)
  unfold parseIpv4Address
  simp only [hsplit, List.getLastD_cons, List.getLastD_nil, toDigits_ne_nil, false_and, if_false,
    List.length_cons, List.length_nil]
  simp [parseIpv4Parts, toDigits_ne_nil, hnum _ (Nat.mod_lt _ (by omega : 256 > 0)), ipv4Fold]
  refine ⟨⟨by omega, by omega, by omega⟩, by omega, ?_⟩
  rw [show (m % 256 + m / 16777216 % 256 * 16777216 + m / 65536 % 256 * 65536 +
    m / 256 % 256 * 256) % 4294967296 = m % 2 ^ 32 by omega, ipv4ToString_mod]

/-! ## The accumulator

`parse_ipv4_address` adds the last number to `numbers[i] * 256^(3 - i)` for the others, then
narrows the sum to the 32-bit `ipv4_address`.  The two range checks before it bound every
number but the last by 255 and the last by `256^(5 - k)`: the sum then fits in 32 bits, and
the numbers are read back from it by division and remainder. -/

/-- The two range checks of `parse_ipv4_address` on its `k` numbers: none before the last is
over 255, and the last is below `256^(5 - k)`. -/
def ipv4InRange (numbers : List Nat) : Prop :=
  numbers.dropLast.any (· > 255) = false ∧ numbers.getLastD 0 < 256 ^ (5 - numbers.length)

instance : DecidablePred ipv4InRange := fun _ => inferInstanceAs (Decidable (_ ∧ _))

/-- The `k` numbers read back from an address `v`: a byte from the top for each number before
the last, and what lies below them for the last. -/
def ipv4Unfold (k v : Nat) : List Nat :=
  (List.range (k - 1)).map (fun i => v / 256 ^ (3 - i) % 256) ++ [v % 256 ^ (5 - k)]

/-- **Numbers in range fit in 32 bits and are read back from their sum.** -/
theorem ipv4Fold_inRange {numbers : List Nat} (h1 : 1 ≤ numbers.length) (h4 : numbers.length ≤ 4)
    (h : ipv4InRange numbers) :
    ipv4Fold numbers.dropLast 0 (numbers.getLastD 0) < 2 ^ 32 ∧
      ipv4Unfold numbers.length (ipv4Fold numbers.dropLast 0 (numbers.getLastD 0)) = numbers := by
  rcases numbers with _ | ⟨a, _ | ⟨b, _ | ⟨c, _ | ⟨d, _ | ⟨e, ns⟩⟩⟩⟩⟩
  · simp at h1
  all_goals simp [ipv4InRange, ipv4Unfold, ipv4Fold, List.range_succ] at h h4 ⊢
  all_goals omega

/-- **The 32-bit address loses nothing, and tells the numbers apart.**  For `k` from 1 to 4
numbers of any size that pass the two range checks, the sum `parse_ipv4_address` accumulates
is below `2^32`, so narrowing it to the 32-bit `ipv4_address` keeps it; and two different lists
of `k` numbers in range give different addresses. -/
theorem ipv4_accumulator_exact :
    (∀ numbers : List Nat, 1 ≤ numbers.length → numbers.length ≤ 4 → ipv4InRange numbers →
      ipv4Fold numbers.dropLast 0 (numbers.getLastD 0) < 2 ^ 32) ∧
    (∀ ns ms : List Nat, 1 ≤ ns.length → ns.length ≤ 4 → ms.length = ns.length →
      ipv4InRange ns → ipv4InRange ms → ns ≠ ms →
      ipv4Fold ns.dropLast 0 (ns.getLastD 0) % 2 ^ 32 ≠
        ipv4Fold ms.dropLast 0 (ms.getLastD 0) % 2 ^ 32) := by
  refine ⟨fun numbers h1 h4 h => (ipv4Fold_inRange h1 h4 h).1,
    fun ns ms h1 h4 hlen hn hm hne heq => hne ?_⟩
  obtain ⟨hnlt, hnback⟩ := ipv4Fold_inRange h1 h4 hn
  obtain ⟨hmlt, hmback⟩ := ipv4Fold_inRange (hlen ▸ h1) (hlen ▸ h4) hm
  rw [Nat.mod_eq_of_lt hnlt, Nat.mod_eq_of_lt hmlt] at heq
  rw [← hnback, ← hmback, heq, hlen]

theorem ipv4_accumulator_exact_loopback :
    ipv4Fold [127] 0 1 < 2 ^ 32 ∧ ipv4Fold [127] 0 1 % 2 ^ 32 ≠ ipv4Fold [127] 0 2 % 2 ^ 32 :=
  ⟨ipv4_accumulator_exact.1 [127, 1] (by decide) (by decide) (by decide),
    ipv4_accumulator_exact.2 [127, 1] [127, 2] (by decide) (by decide) rfl (by decide) (by decide)
      (by decide)⟩

end SkyrUrl
