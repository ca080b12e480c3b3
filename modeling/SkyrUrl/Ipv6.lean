import SkyrUrl.Host

/-!
# The IPv6 parser against the `IPv6address` grammar

`parse_ipv6_address` is a pointer loop with a compression index, a back-up into a
dotted-quad sub-parser and a final swap loop.  `ipv6AddressSpec` reads the same text
declaratively, after the `IPv6address` production of the URI grammar: colon-separated groups
of one to four hex digits, at most one `::` standing for one or more zero pieces, an optional
last group that is a dotted quad of decimal octets without leading zeros, eight pieces in all.
The grammar values its hex digits by their ranges (`hexDigitValue`), not with the code's
`hex_to_dec`; `h16Value_eq` relates the two.

* `ipv6DottedQuad_spec`: the dotted-quad loop accepts exactly the four octets of
  `ipv4Ls32` and packs them into two pieces.
* `ipv6Main_groups`, `ipv6Main_leading`: from the start of a group, the main loop reads the
  groups of the text up to its end, or up to a `::`.
* `ipv6Swap_spec`: the swap loop moves the pieces after the compression to the tail.
* `parseIpv6Address_eq_spec`: for every text, the parser returns the address the grammar
  gives it, and `none` exactly for the texts the grammar rejects.
-/

namespace SkyrUrl

/-! ## The grammar -/

/-- One hex digit more on a value. -/
def hexStep (n : Nat) (c : Char) : Nat := n * 0x10 + hexToDec c

/-- One decimal digit more on a value. -/
def decStep (n : Nat) (c : Char) : Nat := n * 10 + (c.toNat - '0'.toNat)

/-- The value of a string of hex digits, most significant first. -/
def hexValue (s : List Char) : Nat := s.foldl hexStep 0

/-- The value of a string of decimal digits, most significant first. -/
def decValue (s : List Char) : Nat := s.foldl decStep 0

/-- Modelled from the spec: the value of a `HEXDIG`, a decimal digit or a letter from `a`
to `f` in either case; none for any other byte. -/
def hexDigitValue (c : Char) : Option Nat :=
  if '0'.toNat ≤ c.toNat ∧ c.toNat ≤ '9'.toNat then some (c.toNat - '0'.toNat)
  else if 'a'.toNat ≤ c.toNat ∧ c.toNat ≤ 'f'.toNat then some (c.toNat - 'a'.toNat + 10)
  else if 'A'.toNat ≤ c.toNat ∧ c.toNat ≤ 'F'.toNat then some (c.toNat - 'A'.toNat + 10)
  else none

/-- Modelled from the spec: an `h16` group, one to four hex digits of either case, and its
value. -/
def h16Value (s : List Char) : Option Nat :=
  if s ≠ [] ∧ s.length ≤ 4 then (s.mapM hexDigitValue).map (·.foldl (· * 0x10 + ·) 0)
  else none

/-- Modelled from the spec: a `dec-octet`, a decimal number from 0 to 255 without leading
zeros. -/
def isDecOctet (s : List Char) : Bool :=
  s ≠ [] ∧ s.all Char.isDigit ∧ (s.length = 1 ∨ s.headD '0' ≠ '0') ∧ decValue s ≤ 255

/-- Modelled from the spec: a dotted quad `IPv4address`, as the last two pieces. -/
def ipv4Ls32 (s : List Char) : Option (List Nat) :=
  match s.splitOn '.' with
  | [a, b, c, d] =>
    if [a, b, c, d].all isDecOctet then
      some [decValue a * 0x100 + decValue b, decValue c * 0x100 + decValue d]
    else none
  | _ => none

/-- Modelled from the spec: the pieces of colon-separated groups, each an `h16`; the last one
may be a dotted quad when `ls32` holds. -/
def groupPieces (ls32 : Bool) : List (List Char) → Option (List Nat)
  | [] => some []
  | [g] =>
    match h16Value g with
    | some v => some [v]
    | none => if ls32 then ipv4Ls32 g else none
  | g :: gs => do
    let v ← h16Value g
    let vs ← groupPieces ls32 gs
    pure (v :: vs)

/-- Modelled from the spec: the pieces of a text of colon-separated groups, none for the
empty text. -/
def groupsPieces (ls32 : Bool) (s : List Char) : Option (List Nat) :=
  if s = [] then some [] else groupPieces ls32 (s.splitOn ':')

/-- The text before and after its first `::`. -/
def splitDoubleColon : List Char → Option (List Char × List Char)
  | ':' :: ':' :: r => some ([], r)
  | c :: r => (splitDoubleColon r).map fun (l, r') => (c :: l, r')
  | [] => none

/-- Modelled from the spec: the eight pieces an `IPv6address` text denotes, and `none` for a
text that is not one.  Without `::` the groups give the eight pieces; with it, the groups
before and after it give at most seven, and `::` stands for the zero pieces between them. -/
def ipv6AddressSpec (v : List Char) : Option (List Nat) :=
  match splitDoubleColon v with
  | none => (groupsPieces true v).filter (·.length == 8)
  | some (l, r) => do
    let lp ← groupsPieces false l
    let rp ← groupsPieces true r
    if lp.length + rp.length ≤ 7 then
      pure (lp ++ List.replicate (8 - (lp.length + rp.length)) 0 ++ rp)
    else none

/-! ## Groups -/

/-- A text is its first group, alone or followed by the separator and the rest. -/
theorem splitOn_cases (sep : Char) : ∀ s : List Char, ∃ g, sep ∉ g ∧
    ((s = g ∧ s.splitOn sep = [g]) ∨ ∃ t, s = g ++ sep :: t ∧ s.splitOn sep = g :: t.splitOn sep)
  | [] => ⟨[], by simp⟩
  | x :: xs => by
    by_cases hx : x = sep
    · exact ⟨[], by simp, .inr ⟨xs, by simp [hx], by simp [List.splitOn, hx]⟩⟩
    obtain ⟨g, hg, h⟩ := splitOn_cases sep xs
    refine ⟨x :: g, by simp [Ne.symm hx, hg], ?_⟩
    rcases h with ⟨rfl, h⟩ | ⟨t, rfl, h⟩
    · exact .inl ⟨rfl, by simp_all [List.splitOn]⟩
    · exact .inr ⟨t, rfl, by simp_all [List.splitOn]⟩

@[simp] theorem splitOn_ne_nil (sep : Char) (s : List Char) : s.splitOn sep ≠ [] :=
  List.splitOnP_ne_nil _ _

/-! ### The grammar's hex digits and `hex_to_dec`

The grammar values its digits by their ranges; the code lowercases a byte and subtracts.
They agree on the bytes `isxdigit` accepts, which are ASCII, so one table settles it. -/

theorem isXdigit_toNat {c : Char} (h : isXdigit c) : c.toNat < 128 := by
  simp only [isXdigit, Char.isDigit, Bool.or_eq_true, Bool.and_eq_true, decide_eq_true_eq,
    Char.le_def, UInt32.le_def, BitVec.le_def] at h
  simp only [Char.toNat, UInt32.toNat]; simp at h; omega

theorem hexDigitValue_table : ∀ n < 128, hexDigitValue (Char.ofNat n) =
    if isXdigit (Char.ofNat n) then some (hexToDec (Char.ofNat n)) else none := by
  decide

theorem hexDigitValue_eq (c : Char) :
    hexDigitValue c = if isXdigit c then some (hexToDec c) else none := by
  by_cases hc : c.toNat < 128
  · have := hexDigitValue_table c.toNat hc
    rwa [Char.ofNat_toNat] at this
  · have h9 : '9'.toNat = 57 := rfl
    have hf : 'f'.toNat = 102 := rfl
    have hF : 'F'.toNat = 70 := rfl
    rw [if_neg fun h => hc (isXdigit_toNat h), hexDigitValue, if_neg (by omega),
      if_neg (by omega), if_neg (by omega)]

theorem mapM_hexDigitValue : ∀ s : List Char,
    s.mapM hexDigitValue = if s.all isXdigit then some (s.map hexToDec) else none
  | [] => rfl
  | c :: s => by
    rw [List.mapM_cons, hexDigitValue_eq, mapM_hexDigitValue s]
    by_cases hc : isXdigit c <;> by_cases hs : s.all isXdigit <;> simp [hc, hs]

/-- An `h16` group in the code's terms: one to four bytes that `isxdigit` accepts, valued
with `hex_to_dec`. -/
theorem h16Value_eq (s : List Char) :
    h16Value s = if s ≠ [] ∧ s.length ≤ 4 ∧ s.all isXdigit then some (hexValue s) else none := by
  rw [h16Value, mapM_hexDigitValue]
  by_cases h : s ≠ [] ∧ s.length ≤ 4 <;> by_cases hx : s.all isXdigit <;>
    simp [h, hx, hexValue, List.foldl_map] <;> rfl

@[simp] theorem h16Value_nil : h16Value [] = none := rfl

@[simp] theorem ipv4Ls32_nil : ipv4Ls32 [] = none := rfl

@[simp] theorem groupPieces_nil_cons (ls32 : Bool) (gs : List (List Char)) :
    groupPieces ls32 ([] :: gs) = none := by
  cases gs <;> cases ls32 <;> rfl

theorem groupPieces_cons {ls32 : Bool} {g : List Char} {gs : List (List Char)} (h : gs ≠ []) :
    groupPieces ls32 (g :: gs) = (h16Value g).bind fun v => (groupPieces ls32 gs).map (v :: ·) := by
  cases gs with
  | nil => contradiction
  | cons g' gs =>
    show (do let v ← h16Value g; let vs ← groupPieces ls32 (g' :: gs); pure (v :: vs)) = _
    cases h16Value g <;> cases groupPieces ls32 (g' :: gs) <;> rfl

theorem groupPieces_single (ls32 : Bool) (g : List Char) :
    groupPieces ls32 [g] = match h16Value g with
      | some v => some [v]
      | none => if ls32 then ipv4Ls32 g else none := rfl

/-! ## The address array -/

/-- The parser's eight pieces with `P` in front and zeros after. -/
def pieces (P : List Nat) : List Nat := P ++ List.replicate (8 - P.length) 0

theorem pieces_set {P : List Nat} (h : P.length < 8) (x : Nat) :
    (pieces P).set P.length x = pieces (P ++ [x]) := by
  obtain ⟨k, hk⟩ : ∃ k, 8 - P.length = k + 1 := ⟨7 - P.length, by omega⟩
  have hk' : 8 - (P.length + 1) = k := by omega
  simp [pieces, hk, hk', List.replicate_succ]

theorem pieces_getD {P : List Nat} (h : P.length < 8) : (pieces P).getD P.length 0 = 0 := by
  obtain ⟨k, hk⟩ : ∃ k, 8 - P.length = k + 1 := ⟨7 - P.length, by omega⟩
  simp [pieces, hk, List.replicate_succ, List.getElem_append_right]

theorem pieces_getD_last (P : List Nat) (x : Nat) : (pieces (P ++ [x])).getD P.length 0 = x := by
  simp [pieces, List.getElem_append_right]

theorem pieces_set_last (P : List Nat) (x y : Nat) :
    (pieces (P ++ [x])).set P.length y = pieces (P ++ [y]) := by
  simp [pieces, List.set_append_left, List.set_append_right]

theorem pieces_append_zero {P : List Nat} (h : P.length < 8) : pieces (P ++ [0]) = pieces P := by
  obtain ⟨k, hk⟩ : ∃ k, 8 - P.length = k + 1 := ⟨7 - P.length, by omega⟩
  have hk' : 8 - (P.length + 1) = k := by omega
  simp [pieces, hk, hk', List.replicate_succ]

/-! ## Digits -/

theorem isDigit_toNat {c : Char} (h : c.isDigit) : 48 ≤ c.toNat ∧ c.toNat ≤ 57 := by
  simp only [Char.isDigit, Bool.and_eq_true, decide_eq_true_eq, UInt32.le_def,
    BitVec.le_def] at h
  simp only [Char.toNat, UInt32.toNat]; simp at h; omega

theorem isXdigit_of_isDigit {c : Char} (h : c.isDigit) : isXdigit c := by
  simp [isXdigit, h]

/-- A text is its leading decimal digits followed by a text that does not start with one. -/
theorem digits_cases : ∀ o : List Char,
    ∃ d e, o = d ++ e ∧ (∀ c ∈ d, c.isDigit) ∧ ∀ c ∈ e.head?, c.isDigit = false
  | [] => ⟨[], [], rfl, by simp, by simp⟩
  | c :: o => by
    cases hc : c.isDigit
    · exact ⟨[], c :: o, rfl, by simp, by simpa using hc⟩
    · obtain ⟨d, e, rfl, hd, he⟩ := digits_cases o
      exact ⟨c :: d, e, rfl, by simpa [hc] using hd, he⟩

theorem foldl_decStep_ge (v : Nat) : ∀ d : List Char, v * 10 ^ d.length ≤ d.foldl decStep v
  | [] => by simp
  | c :: d => by
    have ih := foldl_decStep_ge (decStep v c) d
    have : v * 10 ≤ decStep v c := by simp [decStep]
    calc v * 10 ^ (d.length + 1) = v * 10 * 10 ^ d.length := by
          rw [Nat.pow_succ', ← Nat.mul_assoc]
      _ ≤ decStep v c * 10 ^ d.length := Nat.mul_le_mul_right _ this
      _ ≤ d.foldl decStep (decStep v c) := ih

theorem isDecOctet_digits {o : List Char} (h : isDecOctet o) : ∀ c ∈ o, c.isDigit := by
  simp only [isDecOctet, decide_eq_true_eq, List.all_eq_true] at h
  exact h.2.1

theorem isDecOctet_eq_false {o : List Char} {c : Char} (hc : c ∈ o) (h : c.isDigit = false) :
    isDecOctet o = false :=
  Bool.eq_false_iff.2 fun ho => by simp [isDecOctet_digits ho c hc] at h

/-- An octet has at most three digits: a fourth would take it past 999. -/
theorem isDecOctet_length {o : List Char} (h : isDecOctet o) : o.length ≤ 3 := by
  match o, h with
  | c :: d, h =>
    simp only [isDecOctet, decValue, ne_eq, List.cons_ne_nil, not_false_eq_true,
      List.all_cons, Bool.and_eq_true, List.length_cons, List.headD_cons,
      List.foldl_cons, decide_eq_true_eq, true_and] at h
    obtain ⟨⟨hc, -⟩, hz, hv⟩ := h
    rcases hz with hz | hz
    · simp only [List.length_cons]; omega
    have h1 : 1 ≤ decStep 0 c := by
      have := isDigit_toNat hc
      have : c.toNat ≠ 48 := fun e => hz (by rw [← Char.ofNat_toNat c, e])
      simp [decStep]; omega
    have hpow : 10 ^ d.length ≤ 255 := by
      simpa using (Nat.mul_le_mul_right _ h1).trans ((foldl_decStep_ge _ d).trans hv)
    have : d.length < 3 := by
      by_contra hd
      have := Nat.pow_le_pow_right (show 0 < 10 by decide) (Nat.not_lt.1 hd)
      simp at this
      omega
    simp only [List.length_cons]; omega

/-! ## The dotted quad -/

/-- **What `ipv4Ls32` accepts.**  Four octets, separated by dots. -/
theorem ipv4Ls32_some {s : List Char} {ys : List Nat} (h : ipv4Ls32 s = some ys) :
    ∃ a b c d, s = a ++ '.' :: (b ++ '.' :: (c ++ '.' :: d)) ∧ isDecOctet a ∧ isDecOctet b ∧
      isDecOctet c ∧ isDecOctet d ∧
      ys = [decValue a * 0x100 + decValue b, decValue c * 0x100 + decValue d] := by
  unfold ipv4Ls32 at h
  split at h
  · rename_i a b c d hs
    split_ifs at h with ho
    cases h
    have hi := List.intercalate_splitOn s '.'
    rw [hs] at hi
    simp only [List.all_cons, List.all_nil, Bool.and_true, Bool.and_eq_true] at ho
    exact ⟨a, b, c, d, by simpa [List.intercalate] using hi.symm, ho.1, ho.2.1, ho.2.2.1,
      ho.2.2.2, rfl⟩
  · cases h

theorem ipv4Ls32_length {s : List Char} {ys : List Nat} (h : ipv4Ls32 s = some ys) :
    ys.length = 2 := by
  obtain ⟨-, -, -, -, -, -, -, -, -, rfl⟩ := ipv4Ls32_some h
  rfl

/-- A text with a colon is no dotted quad. -/
theorem ipv4Ls32_eq_none_of_colon {s : List Char} (h : ':' ∈ s) : ipv4Ls32 s = none := by
  cases hs : ipv4Ls32 s with
  | none => rfl
  | some ys =>
    obtain ⟨a, b, c, d, rfl, ha, hb, hc, hd, -⟩ := ipv4Ls32_some hs
    have hcolon : (':').isDigit = false := by decide
    simp only [List.mem_append, List.mem_cons] at h
    rcases h with h | h | h | h | h | h | h <;>
      first
      | exact absurd h (by decide)
      | simp [isDecOctet_digits ha _ h] at hcolon
      | simp [isDecOctet_digits hb _ h] at hcolon
      | simp [isDecOctet_digits hc _ h] at hcolon
      | simp [isDecOctet_digits hd _ h] at hcolon

/-! ## The hex-digit loop -/

section HexPiece

variable {r : List Char} {v n : Nat}

theorem readHexPiece_append {p : List Char} (hp : ∀ c ∈ p, isXdigit c) :
    ∀ {v n : Nat}, n + p.length ≤ 4 →
      readHexPiece (p ++ r) v n = readHexPiece r (p.foldl hexStep v) (n + p.length) := by
  induction p with
  | nil => intros; rfl
  | cons c p ih =>
    intro v n hn
    simp only [List.length_cons] at hn
    have hc := hp c (List.mem_cons_self _ _)
    rw [List.cons_append, readHexPiece, if_pos ⟨by omega, hc⟩,
      ih (fun x hx => hp x (List.mem_cons_of_mem _ hx)) (by omega)]
    simp only [List.foldl_cons, List.length_cons, hexStep, Nat.add_assoc, Nat.add_comm 1]

theorem readHexPiece_stop (h : n = 4 ∨ ∀ c ∈ r.head?, isXdigit c = false) :
    readHexPiece r v n = (v, n, r) := by
  cases r with
  | nil => rfl
  | cons c r =>
    rw [readHexPiece, if_neg]
    rintro ⟨hn, hc⟩
    rcases h with rfl | h
    · omega
    · simp [hc] at h

/-- The hex-digit loop reads a prefix of hex digits, four at most from `0`. -/
theorem readHexPiece_split : ∀ {s : List Char} {v n v' n' : Nat} {r : List Char},
    readHexPiece s v n = (v', n', r) →
      ∃ pre, s = pre ++ r ∧ (∀ c ∈ pre, isXdigit c) ∧ n' = n + pre.length ∧ (n ≤ 4 → n' ≤ 4)
  | [], v, n, v', n', r, h => by
    cases h
    exact ⟨[], rfl, by simp, rfl, id⟩
  | c :: s, v, n, v', n', r, h => by
    rw [readHexPiece] at h
    split_ifs at h with hc
    · obtain ⟨pre, rfl, hpre, rfl, hle⟩ := readHexPiece_split h
      exact ⟨c :: pre, rfl, by simp_all, by simp; omega, fun _ => hle (by omega)⟩
    · cases h
      exact ⟨[], rfl, by simp, rfl, id⟩

/-- An `h16` group before a colon or the end is read whole. -/
theorem readHexPiece_h16 {g tail : List Char} {x : Nat} (hg : h16Value g = some x)
    (ht : ∀ c ∈ tail.head?, c = ':') : readHexPiece (g ++ tail) 0 0 = (x, g.length, tail) := by
  simp only [h16Value_eq] at hg
  split_ifs at hg with h
  cases hg
  rw [readHexPiece_append (by simpa using h.2.2) (by simp [h.2.1]), readHexPiece_stop]
  · simp [hexValue]
  · exact .inr fun c hc => by rw [ht c hc]; rfl

/-- A dotted quad starts with one to three digits and a dot, and that is where the hex-digit
loop stops. -/
theorem readHexPiece_ipv4 {s : List Char} {ys : List Nat} (h : ipv4Ls32 s = some ys) :
    ∃ v n rest, readHexPiece s 0 0 = (v, n, '.' :: rest) ∧ 0 < n := by
  obtain ⟨a, b, c, d, rfl, ha, -⟩ := ipv4Ls32_some h
  have hx : ∀ x ∈ a, isXdigit x := fun x hx => isXdigit_of_isDigit (isDecOctet_digits ha x hx)
  have hl := isDecOctet_length ha
  have hne : a ≠ [] := by simp [isDecOctet] at ha; exact ha.1
  refine ⟨_, _, _, by rw [readHexPiece_append hx (by omega), readHexPiece_stop (.inr
    (by simp; decide))], ?_⟩
  simpa using List.length_pos.2 hne

end HexPiece

/-! ## The decimal-digit loop -/

/-- From a positive value, the decimal loop reads all digits, or fails once past 255. -/
theorem readIpv4Piece_some {t : List Char} (ht : ∀ c ∈ t.head?, c.isDigit = false) :
    ∀ {d : List Char} {v : Nat}, (∀ c ∈ d, c.isDigit) → 0 < v → v ≤ 255 →
      readIpv4Piece (d ++ t) (some v) =
        if d.foldl decStep v ≤ 255 then some (some (d.foldl decStep v), t) else none
  | [], v, _, _, hv => by
    rw [List.nil_append, List.foldl_nil, if_pos hv]
    cases t with
    | nil => rfl
    | cons c t =>
      simp only [List.head?_cons, Option.mem_def, Option.some.injEq, forall_eq'] at ht
      simp [readIpv4Piece, ht]
  | c :: d, v, hd, hv, hv' => by
    have hc := hd c (List.mem_cons_self _ _)
    obtain ⟨w, rfl⟩ : ∃ w, v = w + 1 := ⟨v - 1, by omega⟩
    have hmono := foldl_decStep_ge (decStep (w + 1) c) d
    have h48 : '0'.toNat = 48 := rfl
    rw [List.cons_append, readIpv4Piece, if_pos hc, List.foldl_cons]
    show (if 255 < (w + 1) * 10 + (c.toNat - '0'.toNat) then none
      else readIpv4Piece (d ++ t) (some ((w + 1) * 10 + (c.toNat - '0'.toNat)))) = _
    by_cases hbig : 255 < (w + 1) * 10 + (c.toNat - '0'.toNat)
    · rw [if_pos hbig, if_neg]
      have : 1 ≤ 10 ^ d.length := Nat.one_le_pow _ _ (by decide)
      have := Nat.mul_le_mul_left (decStep (w + 1) c) this
      simp only [decStep] at hmono this ⊢; omega
    · rw [if_neg hbig]
      exact readIpv4Piece_some ht (fun x hx => hd x (List.mem_cons_of_mem _ hx))
        (by omega) (by omega)

/-- **The decimal loop reads an octet.**  On a run of digits it returns the value when the
run is a `dec-octet`, and fails on a leading zero or a value past 255. -/
theorem readIpv4Piece_digits {d t : List Char} (hd : ∀ c ∈ d, c.isDigit) (hne : d ≠ [])
    (ht : ∀ c ∈ t.head?, c.isDigit = false) :
    readIpv4Piece (d ++ t) none = if isDecOctet d then some (some (decValue d), t) else none := by
  obtain ⟨c, d, rfl⟩ := List.exists_cons_of_ne_nil hne
  have hc := hd c (List.mem_cons_self _ _)
  have hbounds := isDigit_toNat hc
  rw [List.cons_append, readIpv4Piece, if_pos hc]
  dsimp only
  by_cases h0 : c = '0'
  · subst h0
    cases d with
    | nil =>
      cases t with
      | nil => rfl
      | cons x t =>
        simp only [List.head?_cons, Option.mem_def, Option.some.injEq, forall_eq'] at ht
        simp [readIpv4Piece, ht, isDecOctet, decValue, decStep]
    | cons x d =>
      have hx := hd x (by simp)
      simp [readIpv4Piece, hx, isDecOctet]
  · have hpos : c.toNat ≠ 48 := fun e => h0 (by rw [← Char.ofNat_toNat c, e])
    have h48 : '0'.toNat = 48 := rfl
    rw [readIpv4Piece_some ht (fun x hx => hd x (List.mem_cons_of_mem _ hx)) (by omega)
      (by omega)]
    have hd' : ∀ x ∈ d, x.isDigit := fun x hx => hd x (List.mem_cons_of_mem _ hx)
    simp [isDecOctet, decValue, decStep, h0, hc]
    simp only [eq_true hd', true_and]

/-! ## The dotted-quad loop -/

/-- The pieces after the dotted-quad loop has packed the numbers `vs`, from
`numbers_seen = k`. -/
def packOctets (k : Nat) (address : List Nat) (pieceIndex : Nat) : List Nat → List Nat × Nat
  | [] => (address, pieceIndex)
  | v :: vs =>
    packOctets (k + 1) (address.set pieceIndex (address.getD pieceIndex 0 * 0x100 + v))
      (if k + 1 = 2 ∨ k + 1 = 4 then pieceIndex + 1 else pieceIndex) vs

/-- What the dotted-quad loop returns from `numbers_seen = k` with the octets `os` still to
read. -/
def dottedResult (k : Nat) (address : List Nat) (pieceIndex : Nat) (os : List (List Char)) :
    Option (List Nat × Nat) :=
  if k + os.length = 4 ∧ os.all isDecOctet then
    some (packOctets k address pieceIndex (os.map decValue))
  else none

section DottedQuad

variable {k fuel : Nat} {address : List Nat} {pi : Nat}

theorem ipv6DottedQuad_nil : ipv6DottedQuad (fuel + 1) [] k address pi =
    .ok (if k = 4 then some (address, pi) else none) := by
  simp only [ipv6DottedQuad, if_true, ne_eq, ite_not]; rfl

/-- **One pass of the dotted-quad loop.**  After the separator, the pass reads the octet `o`
up to the next dot or the end, and fails unless it is a `dec-octet`. -/
theorem ipv6DottedQuad_octet {s o rest : List Char} (hs : s ≠ [])
    (hskip : skipIpv4Separator k s = some (o ++ rest)) (ho : '.' ∉ o)
    (hrest : ∀ c ∈ rest.head?, c = '.') (hf : (o ++ rest).length ≤ fuel) :
    ipv6DottedQuad (fuel + 1) s k address pi =
      if isDecOctet o then
        ipv6DottedQuad fuel rest (k + 1) (address.set pi (address.getD pi 0 * 0x100 + decValue o))
          (if k + 1 = 2 ∨ k + 1 = 4 then pi + 1 else pi)
      else .ok none := by
  have hrest' : ∀ c ∈ rest.head?, c.isDigit = false := fun c hc => by rw [hrest c hc]; rfl
  rw [ipv6DottedQuad, if_neg hs, hskip]
  dsimp only
  obtain ⟨d, e, rfl, hd, he⟩ := digits_cases o
  rcases d with _ | ⟨x, d⟩
  · have hhead : ((e ++ rest).headD ']').isDigit = false := by
      rcases e with _ | ⟨y, e⟩
      · rcases rest with _ | ⟨y, rest⟩
        · rfl
        · simp only [List.head?_cons, Option.mem_def, Option.some.injEq, forall_eq'] at hrest
          simp [hrest]
      · simpa using he
    have hoct : isDecOctet e = false := by
      rcases e with _ | ⟨y, e⟩
      · rfl
      · exact isDecOctet_eq_false (List.mem_cons_self _ _) (by simpa using he)
    simp only [List.nil_append, hhead, hoct]
    rfl
  have hx := hd x (List.mem_cons_self _ _)
  have he' : ∀ c ∈ (e ++ rest).head?, c.isDigit = false := by
    rcases e with _ | ⟨y, e⟩
    · simpa using hrest'
    · simpa using he
  rw [List.append_assoc, if_neg (by simp [hx]),
    readIpv4Piece_digits hd (List.cons_ne_nil _ _) he']
  rcases e with _ | ⟨y, e⟩
  · by_cases hoct : isDecOctet (x :: d)
    · simp only [List.append_nil, List.nil_append, if_pos hoct]; rfl
    · simp only [List.append_nil, List.nil_append, if_neg hoct]; rfl
  · have hy : y.isDigit = false := by simpa using he
    have hyd : y ≠ '.' := fun h => ho (by simp [h])
    have hfalse : isDecOctet (x :: d ++ y :: e) = false :=
      isDecOctet_eq_false (List.mem_append_right _ (List.mem_cons_self _ _)) hy
    simp only [hfalse, Bool.false_eq_true, if_false]
    by_cases hoct : isDecOctet (x :: d)
    · rw [if_pos hoct]
      obtain ⟨f, rfl⟩ : ∃ f, fuel = f + 1 := ⟨fuel - 1, by simp at hf; omega⟩
      simp [ipv6DottedQuad, valueOf, skipIpv4Separator, hyd]
    · rw [if_neg hoct]; rfl

/-- **The dotted-quad loop after a dot.**  From `numbers_seen = k ≥ 1`, the loop reads the
dot-separated octets that follow and accepts when they bring the count to four. -/
theorem ipv6DottedQuad_dot (t : List Char) {k fuel : Nat} {address : List Nat} {pi : Nat}
    (hk : 1 ≤ k) (hf : t.length < fuel) :
    ipv6DottedQuad (fuel + 1) ('.' :: t) k address pi =
      .ok (dottedResult k address pi (t.splitOn '.')) := by
  by_cases hk4 : k < 4
  swap
  · have hlen := List.length_pos.2 (splitOn_ne_nil '.' t)
    have hnone : dottedResult k address pi (t.splitOn '.') = none :=
      if_neg fun h => by omega
    rw [hnone, ipv6DottedQuad, if_neg (List.cons_ne_nil _ _)]
    simp [skipIpv4Separator, hk4, show 0 < k by omega]
  have hskip : ∀ u : List Char, skipIpv4Separator k ('.' :: u) = some u := fun u => by
    simp [skipIpv4Separator, hk4]; omega
  obtain ⟨o, ho, (⟨hs, hsp⟩ | ⟨t', hs, hsp⟩)⟩ := splitOn_cases '.' t
  · rw [ipv6DottedQuad_octet (List.cons_ne_nil _ _) (by rw [hskip, List.append_nil, hs]) ho
      (by simp) (by rw [List.append_nil, ← hs]; omega), hsp]
    obtain ⟨f, rfl⟩ : ∃ f, fuel = f + 1 := ⟨fuel - 1, by omega⟩
    by_cases hoct : isDecOctet o <;> simp [ipv6DottedQuad_nil, dottedResult, packOctets, hoct]
  · have hlen : t'.length + 1 < fuel := by
      have := congrArg List.length hs
      simp at this; omega
    rw [ipv6DottedQuad_octet (List.cons_ne_nil _ _) (by rw [hskip, hs]) ho (by simp)
      (by rw [← hs]; omega), hsp]
    obtain ⟨f, rfl⟩ : ∃ f, fuel = f + 1 := ⟨fuel - 1, by omega⟩
    rw [ipv6DottedQuad_dot t' (by omega) (by omega)]
    by_cases hoct : isDecOctet o
    · simp only [dottedResult, if_pos hoct, List.length_cons, List.all_cons, hoct,
        Bool.true_and, List.map_cons, packOctets, Nat.add_right_comm k 1, Nat.add_assoc, ite_true]
    · simp [dottedResult, hoct]
termination_by t.length
decreasing_by
  have := congrArg List.length hs
  simp at this; omega

/-- The four octets packed after `P`: two pieces. -/
theorem packOctets_quad {P : List Nat} (hP : P.length ≤ 6) (a b c d : Nat) :
    packOctets 1 (pieces (P ++ [a])) P.length [b, c, d] =
      (pieces (P ++ [a * 0x100 + b, c * 0x100 + d]), P.length + 2) := by
  have e1 : P.length + 1 = (P ++ [a * 0x100 + b]).length := by simp
  rw [packOctets, if_pos (by decide), pieces_getD_last, pieces_set_last,
    packOctets, if_neg (by decide), e1, pieces_getD (by simp; omega), Nat.zero_mul, Nat.zero_add,
    pieces_set (by simp; omega), packOctets, if_pos (by decide), pieces_getD_last,
    pieces_set_last, packOctets]
  simp

/-- **The dotted-quad loop reads a dotted quad.**  From the first octet, with at most six
pieces `P` written, the loop accepts exactly the texts of `ipv4Ls32` and writes their two
pieces after `P`. -/
theorem ipv6DottedQuad_spec {s : List Char} {P : List Nat} (hP : P.length ≤ 6)
    (hf : s.length < fuel) :
    ipv6DottedQuad fuel s 0 (pieces P) P.length =
      .ok ((ipv4Ls32 s).map fun ys => (pieces (P ++ ys), P.length + 2)) := by
  obtain ⟨f, rfl⟩ : ∃ f, fuel = f + 1 := ⟨fuel - 1, by omega⟩
  by_cases hs0 : s = []
  · subst hs0; rfl
  obtain ⟨o, ho, (⟨hs, hsp⟩ | ⟨t, hs, hsp⟩)⟩ := splitOn_cases '.' s
  · rw [ipv6DottedQuad_octet hs0
      (show skipIpv4Separator 0 s = some (o ++ []) by simp [skipIpv4Separator, hs]) ho
      (by simp) (by rw [List.append_nil, ← hs]; omega)]
    have hnone : ipv4Ls32 s = none := by unfold ipv4Ls32; rw [hsp]
    rw [hnone]
    cases f <;> split_ifs <;> simp [ipv6DottedQuad, ipv6DottedQuad_nil]
  · have hlen := congrArg List.length hs
    simp only [List.length_append, List.length_cons] at hlen
    rw [ipv6DottedQuad_octet hs0
      (show skipIpv4Separator 0 s = some (o ++ '.' :: t) by simp [skipIpv4Separator, hs]) ho
      (by simp) (by rw [← hs]; omega)]
    unfold ipv4Ls32
    rw [hsp]
    by_cases hoct : isDecOctet o
    swap
    · rw [if_neg hoct]
      split <;> simp_all
    have ho0 : 0 < o.length := List.length_pos.2 (by simp [isDecOctet] at hoct; exact hoct.1)
    obtain ⟨f, rfl⟩ : ∃ f', f = f' + 1 := ⟨f - 1, by omega⟩
    rw [if_pos hoct, ipv6DottedQuad_dot t le_rfl (by omega), pieces_getD (by omega), Nat.zero_mul,
      Nat.zero_add, pieces_set (by omega)]
    generalize t.splitOn '.' = os
    rcases os with _ | ⟨b, _ | ⟨c, _ | ⟨d, _ | ⟨e, os⟩⟩⟩⟩ <;>
      simp [dottedResult, hoct]
    · rw [packOctets_quad hP]
    · intro h; omega

end DottedQuad

/-! ## The main loop, one group at a time -/

theorem h16Value_ne_nil {g : List Char} {x : Nat} (h : h16Value g = some x) : g ≠ [] := by
  rintro rfl; cases h

section MainLoop

variable {fuel : Nat} {address : List Nat} {pi : Nat} {c : Option Nat}

theorem ipv6Main_nil : ipv6Main (fuel + 1) [] address pi c = .ok (some (address, pi, c)) := rfl

/-- A colon at the start of a group is the `::`: it fails when a compression was already
seen, and otherwise records one. -/
theorem ipv6Main_colon (t : List Char) :
    ipv6Main (fuel + 1) (':' :: t) address pi c =
      if pi = 8 then .ok none
      else if c.isSome then .ok none
      else ipv6Main fuel t address (pi + 1) (some (pi + 1)) := by
  rw [ipv6Main]
  simp only [if_pos (rfl : ':' = ':')]
  split_ifs <;> rfl

/-- An `h16` group followed by a colon is stored, and the loop goes on after the colon unless
the text ends there. -/
theorem ipv6Main_h16_colon {g t : List Char} {x : Nat} (hg : h16Value g = some x)
    (hc : ':' ∉ g) :
    ipv6Main (fuel + 1) (g ++ ':' :: t) address pi c =
      if pi = 8 then .ok none
      else if t = [] then .ok none
      else ipv6Main fuel t (address.set pi x) (pi + 1) c := by
  obtain ⟨y, g', rfl⟩ := List.exists_cons_of_ne_nil (h16Value_ne_nil hg)
  have hy : y ≠ ':' := fun h => hc (h ▸ List.mem_cons_self _ _)
  have hr := @readHexPiece_h16 _ (':' :: t) _ hg (by simp)
  rw [List.cons_append] at hr ⊢
  rw [ipv6Main]
  simp only [hy, if_false, hr]
  split_ifs <;> rfl

/-- An `h16` group at the end of the text is stored. -/
theorem ipv6Main_h16_end {g : List Char} {x : Nat} (hg : h16Value g = some x) (hc : ':' ∉ g)
    (hf : 0 < fuel) :
    ipv6Main (fuel + 1) g address pi c =
      if pi = 8 then .ok none else .ok (some (address.set pi x, pi + 1, c)) := by
  obtain ⟨y, g', rfl⟩ := List.exists_cons_of_ne_nil (h16Value_ne_nil hg)
  obtain ⟨f, rfl⟩ : ∃ f, fuel = f + 1 := ⟨fuel - 1, by omega⟩
  have hy : y ≠ ':' := fun h => hc (h ▸ List.mem_cons_self _ _)
  have hr := @readHexPiece_h16 _ [] _ hg (by simp)
  rw [List.append_nil] at hr
  rw [ipv6Main]
  simp only [hy, if_false, hr]
  split_ifs <;> rfl

/-- If the hex-digit loop reads a group up to a colon or the end of the text, the group is an
`h16`. -/
theorem h16Value_isSome_of_read {g tail r : List Char} {v n : Nat} (hne : g ≠ []) (hc : ':' ∉ g)
    (ht : ∀ x ∈ tail.head?, x = ':') (hr : readHexPiece (g ++ tail) 0 0 = (v, n, r))
    (hr' : ∀ x ∈ r.head?, x = ':') : (h16Value g).isSome := by
  obtain ⟨pre, hs, hx, rfl, hle⟩ := readHexPiece_split hr
  have hpre : pre = g := by
    rcases List.append_eq_append_iff.1 hs with ⟨a', rfl, rfl⟩ | ⟨c', rfl, rfl⟩
    · rcases a' with _ | ⟨z, a'⟩
      · simp
      · have : z = ':' := ht z (by simp)
        exact absurd (hx z (by simp)) (by rw [this]; decide)
    · rcases c' with _ | ⟨z, c'⟩
      · simp
      · exact absurd (hr' z (by simp)) fun h => hc (by subst h; simp)
  subst hpre
  have h4 : pre.length ≤ 4 := by simpa using hle (Nat.zero_le 4)
  simp [h16Value_eq, hne, h4, List.all_eq_true.2 hx]

/-- **A group that is not an `h16`** can only be a dotted quad, and only from at most the
seventh piece: the loop returns the pieces of `ipv4Ls32` of the rest of the text. -/
theorem ipv6Main_other {g tail : List Char} {P : List Nat} (hg : h16Value g = none)
    (hne : g ≠ []) (hc : ':' ∉ g) (ht : ∀ x ∈ tail.head?, x = ':') (hP : P.length ≤ 8) :
    ipv6Main (fuel + 1) (g ++ tail) (pieces P) P.length c =
      .ok (if P.length ≤ 6 then
        (ipv4Ls32 (g ++ tail)).map fun ys => (pieces (P ++ ys), P.length + 2, c) else none) := by
  obtain ⟨y, g', rfl⟩ := List.exists_cons_of_ne_nil hne
  have hy : y ≠ ':' := fun h => hc (h ▸ List.mem_cons_self _ _)
  rw [List.cons_append, ipv6Main]
  simp only [hy, if_false]
  rw [← List.cons_append]
  by_cases h8 : P.length = 8
  · simp [h8]
  rw [if_neg h8]
  rcases hr : readHexPiece (y :: g' ++ tail) 0 0 with ⟨v, n, r⟩
  cases hv : ipv4Ls32 (y :: g' ++ tail) with
  | some ys =>
    obtain ⟨v', n', rest, hr', hn⟩ := readHexPiece_ipv4 hv
    rw [hr] at hr'
    cases hr'
    by_cases h6 : P.length ≤ 6
    · simp only [if_neg (Nat.pos_iff_ne_zero.1 hn), if_neg (Nat.not_lt.2 h6), if_pos h6]
      rw [ipv6DottedQuad_spec h6 (Nat.lt_succ_self _), hv]
      rfl
    · simp [h6, Nat.lt_of_not_le h6]
  | none =>
    simp only [Option.map_none', ite_self]
    rcases r with _ | ⟨z, r⟩
    · exact absurd (h16Value_isSome_of_read hne hc ht hr (by simp)) (by simp [hg])
    by_cases hz : z = ':'
    · subst hz
      exact absurd (h16Value_isSome_of_read hne hc ht hr (by simp)) (by simp [hg])
    by_cases hd : z = '.'
    · subst hd
      split_ifs with h0 h6
      · rfl
      · rfl
      · rw [ipv6DottedQuad_spec (by omega) (Nat.lt_succ_self _), hv]; rfl
    · split <;> simp_all

end MainLoop

/-! ## The first `::` -/

theorem splitDoubleColon_cons {x : Char} (hx : x ≠ ':') (s : List Char) :
    splitDoubleColon (x :: s) = (splitDoubleColon s).map fun p => (x :: p.1, p.2) := by
  rw [splitDoubleColon]
  intro r h; exact absurd h hx

theorem splitDoubleColon_colon {s : List Char} (hs : ∀ x ∈ s.head?, x ≠ ':') :
    splitDoubleColon (':' :: s) = (splitDoubleColon s).map fun p => (':' :: p.1, p.2) := by
  rw [splitDoubleColon]
  rintro r - rfl; exact hs ':' (by simp) rfl

theorem splitDoubleColon_append {g : List Char} (hg : ':' ∉ g) (s : List Char) :
    splitDoubleColon (g ++ s) = (splitDoubleColon s).map fun p => (g ++ p.1, p.2) := by
  induction g with
  | nil => simp
  | cons x g ih =>
    simp only [List.mem_cons, not_or] at hg
    rw [List.cons_append, splitDoubleColon_cons (Ne.symm hg.1), ih hg.2, Option.map_map]
    rfl

theorem splitDoubleColon_eq_some {v l r : List Char} (h : splitDoubleColon v = some (l, r)) :
    v = l ++ ':' :: ':' :: r := by
  induction v generalizing l r with
  | nil => cases h
  | cons x s ih =>
    have step : ∀ y, splitDoubleColon (y :: s) = (splitDoubleColon s).map
        (fun p => (y :: p.1, p.2)) → splitDoubleColon (y :: s) = some (l, r) → y :: s = l ++ ':' :: ':' :: r := by
      intro y he h
      rw [he] at h
      obtain ⟨⟨l', r'⟩, h', he⟩ := Option.map_eq_some'.1 h
      cases he
      rw [ih h']; rfl
    by_cases hx : x = ':'
    · subst hx
      rcases s with _ | ⟨y, s⟩
      · simp [splitDoubleColon] at h
      by_cases hy : y = ':'
      · subst hy; cases h; rfl
      · exact step ':' (splitDoubleColon_colon (by simpa using hy)) h
    · exact step x (splitDoubleColon_cons hx s) h

/-- Where the first `::` is not at the very start of `: w`, `w` does not start with `:`. -/
theorem head_ne_colon {w : List Char} (h : ∀ r, splitDoubleColon (':' :: w) ≠ some ([], r)) :
    ∀ y ∈ w.head?, y ≠ ':' := by
  rintro y hy rfl
  rcases w with _ | ⟨z, w⟩
  · cases hy
  · obtain rfl : z = ':' := by simpa using hy
    exact h w rfl

/-- Without a `::` in `g : t`, there is none in `t`, and `t` does not start with a colon. -/
theorem splitDoubleColon_tail {g t : List Char} (hg : ':' ∉ g)
    (h : splitDoubleColon (g ++ ':' :: t) = none) :
    splitDoubleColon t = none ∧ ∀ x ∈ t.head?, x ≠ ':' := by
  rw [splitDoubleColon_append hg, Option.map_eq_none'] at h
  have hth := head_ne_colon fun r hr => by rw [hr] at h; cases h
  rw [splitDoubleColon_colon hth, Option.map_eq_none'] at h
  exact ⟨h, hth⟩

/-- When the first `::` of `g : t :: r` follows `t`, then `t` is not empty, does not start with
a colon, and is followed by the first `::` of `t :: r`. -/
theorem splitDoubleColon_tail_some {g t r : List Char} (hg : ':' ∉ g)
    (h : splitDoubleColon (g ++ ':' :: (t ++ ':' :: ':' :: r)) = some (g ++ ':' :: t, r)) :
    t ≠ [] ∧ (∀ x ∈ t.head?, x ≠ ':') ∧ splitDoubleColon (t ++ ':' :: ':' :: r) = some (t, r) := by
  rw [splitDoubleColon_append hg] at h
  obtain ⟨⟨l', r'⟩, h, he⟩ := Option.map_eq_some'.1 h
  simp only [Prod.mk.injEq, List.append_cancel_left_eq] at he
  obtain ⟨rfl, rfl⟩ := he
  have hw := head_ne_colon fun r'' hr => by rw [hr] at h; cases h
  have ht0 : t ≠ [] := by
    rintro rfl
    exact hw ':' rfl rfl
  have hth : ∀ x ∈ t.head?, x ≠ ':' := by
    obtain ⟨y, t', rfl⟩ := List.exists_cons_of_ne_nil ht0
    simpa using hw
  rw [splitDoubleColon_colon hw, Option.map_eq_some'] at h
  obtain ⟨⟨l'', r''⟩, h, he⟩ := h
  simp only [Prod.mk.injEq, List.cons.injEq, true_and] at he
  obtain ⟨rfl, rfl⟩ := he
  exact ⟨ht0, hth, h⟩

/-! ## The main loop over the groups -/

/-- What the main loop returns from the start of a group, when it reads no `::` there: the
pieces of the groups of `rest` after `P`, if they fit. -/
def groupsResult (rest : List Char) (P : List Nat) (c : Option Nat) :
    Option (List Nat × Nat × Option Nat) :=
  (groupsPieces true rest).bind fun xs =>
    if P.length + xs.length ≤ 8 then some (pieces (P ++ xs), P.length + xs.length, c) else none

theorem not_beq_colon {g : List Char} (hg : ':' ∉ g) : ∀ x ∈ g, ¬(x == ':') = true :=
  fun _ hx hxe => hg (beq_iff_eq.1 hxe ▸ hx)

theorem splitOn_colon_append {g : List Char} (hg : ':' ∉ g) (t : List Char) :
    (g ++ ':' :: t).splitOn ':' = g :: t.splitOn ':' :=
  List.splitOnP_first _ _ (not_beq_colon hg) ':' (by simp) t

/-- The groups of `g :` followed by the groups of `t`. -/
theorem groupsPieces_cons {ls32 : Bool} {g t : List Char} (hg : ':' ∉ g) (ht : t ≠ []) :
    groupsPieces ls32 (g ++ ':' :: t) =
      (h16Value g).bind fun v => (groupsPieces ls32 t).map (v :: ·) := by
  simp [groupsPieces, ht, splitOn_colon_append hg, groupPieces_cons]

/-- A text ending in a colon has an empty last group. -/
theorem groupsPieces_colon_end {ls32 : Bool} {g : List Char} (hg : ':' ∉ g) :
    groupsPieces ls32 (g ++ [':']) = none := by
  simp [groupsPieces, splitOn_colon_append hg, groupPieces_cons]

/-- A text that starts with `:` has an empty first group, which the grammar rejects. -/
theorem groupsPieces_colon (ls32 : Bool) (t : List Char) : groupsPieces ls32 (':' :: t) = none := by
  have hsplit := splitOn_colon_append (List.not_mem_nil ':') t
  rw [List.nil_append] at hsplit
  simp [groupsPieces, hsplit]

/-- The groups of a text with no colon: one group. -/
theorem groupsPieces_single {ls32 : Bool} {g : List Char} (hg : ':' ∉ g) (hne : g ≠ []) :
    groupsPieces ls32 g = groupPieces ls32 [g] := by
  simp [groupsPieces, hne, List.splitOn, List.splitOnP_eq_single _ _ (not_beq_colon hg)]

/-- Reading the group `g` of value `x` moves it from the text to the pieces. -/
theorem groupsResult_cons {g t : List Char} {x : Nat} (hg : ':' ∉ g) (ht : t ≠ [])
    (hx : h16Value g = some x) (P : List Nat) (c : Option Nat) :
    groupsResult (g ++ ':' :: t) P c = groupsResult t (P ++ [x]) c := by
  simp only [groupsResult, groupsPieces_cons hg ht, hx, Option.some_bind]
  cases groupsPieces true t with
  | none => rfl
  | some xs =>
    simp only [Option.map_some', Option.some_bind, List.length_append, List.length_cons,
      List.length_singleton, List.append_assoc, List.singleton_append, Nat.add_assoc,
      Nat.add_comm 1, List.length_nil, Nat.zero_add]

/-- More than eight pieces never fit. -/
theorem groupsResult_eq_none {s : List Char} {P : List Nat} (h : 8 < P.length) (c : Option Nat) :
    groupsResult s P c = none := by
  unfold groupsResult
  cases groupsPieces true s with
  | none => rfl
  | some xs => simp only [Option.some_bind, if_neg (show ¬P.length + xs.length ≤ 8 by omega)]

/-- **The main loop from the start of a group.**  When a compression was seen already, or when
neither a `::` nor a leading colon lies ahead, the loop reads the groups of the rest of the
text: each `h16` is stored, a last dotted quad fills two pieces, anything else fails, and so
does a ninth piece. -/
theorem ipv6Main_groups (rest : List Char) {P : List Nat} {c : Option Nat} {fuel : Nat}
    (hf : rest.length < fuel) (hP : P.length ≤ 8)
    (hc : c.isSome ∨ (splitDoubleColon rest = none ∧ ∀ x ∈ rest.head?, x ≠ ':')) :
    ipv6Main fuel rest (pieces P) P.length c = .ok (groupsResult rest P c) := by
  obtain ⟨f, rfl⟩ : ∃ f, fuel = f + 1 := ⟨fuel - 1, by omega⟩
  obtain ⟨g, hg, (⟨hs, -⟩ | ⟨t, hs, -⟩)⟩ := splitOn_cases ':' rest
  · subst hs
    by_cases hg0 : rest = []
    · subst hg0
      simp [groupsResult, groupsPieces, ipv6Main_nil, hP]
    have hlen := List.length_pos.2 hg0
    rw [groupsResult, groupsPieces_single hg hg0, groupPieces_single]
    cases hx : h16Value rest with
    | some x =>
      rw [ipv6Main_h16_end hx hg (by omega)]
      by_cases h8 : P.length = 8
      · simp [h8]
      · simp [h8, pieces_set (Nat.lt_of_le_of_ne hP h8), show P.length + 1 ≤ 8 by omega]
    | none =>
      have h := @ipv6Main_other f c rest [] P hx hg0 hg (by simp) hP
      rw [List.append_nil] at h
      rw [h]
      cases hv : ipv4Ls32 rest with
      | none => simp
      | some ys =>
        have := ipv4Ls32_length hv
        by_cases h6 : P.length ≤ 6 <;> simp [h6, this]
  · subst hs
    have hlen : t.length < f := by simp at hf; omega
    by_cases hg0 : g = []
    · subst hg0
      rw [List.nil_append, ipv6Main_colon]
      have hnone : groupsResult (':' :: t) P c = none := by
        simp [groupsResult, groupsPieces_colon]
      rcases hc with hc | ⟨-, hc⟩
      · simp [hc, hnone]
      · exact absurd rfl (hc ':' (by simp))
    cases hx : h16Value g with
    | none =>
      rw [ipv6Main_other hx hg0 hg (by simp) hP, ipv4Ls32_eq_none_of_colon (by simp)]
      by_cases ht : t = []
      · subst ht
        simp [groupsResult, groupsPieces_colon_end hg]
      · simp [groupsResult, groupsPieces_cons hg ht, hx]
    | some x =>
      rw [ipv6Main_h16_colon hx hg]
      by_cases ht : t = []
      · subst ht
        simp [groupsResult, groupsPieces_colon_end hg]
      rw [groupsResult_cons hg ht hx]
      by_cases h8 : P.length = 8
      · rw [if_pos h8, groupsResult_eq_none (by simp; omega)]
      rw [if_neg h8, if_neg ht, pieces_set (by omega), show P.length + 1 = (P ++ [x]).length by simp]
      exact ipv6Main_groups t (by omega) (by simp; omega)
        (hc.imp_right fun ⟨hsd, _⟩ => splitDoubleColon_tail hg hsd)
termination_by rest.length

/-- What the main loop returns from the start of a group, before any compression, on a text
whose first `::` follows `l`: the groups of `l` after `P`, the compression, and the groups of
`r`. -/
def leadingResult (l r : List Char) (P : List Nat) : Option (List Nat × Nat × Option Nat) :=
  (groupsPieces false l).bind fun xs =>
    if P.length + xs.length < 8 then
      groupsResult r (P ++ xs ++ [0]) (some (P.length + xs.length + 1))
    else none

/-- Reading the group `g` of value `x` before the `::` moves it to the pieces. -/
theorem leadingResult_cons {g t : List Char} {x : Nat} (hg : ':' ∉ g) (ht : t ≠ [])
    (hx : h16Value g = some x) (r : List Char) (P : List Nat) :
    leadingResult (g ++ ':' :: t) r P = leadingResult t r (P ++ [x]) := by
  simp only [leadingResult, groupsPieces_cons hg ht, hx, Option.some_bind]
  cases groupsPieces false t with
  | none => rfl
  | some xs =>
    simp only [Option.map_some', Option.some_bind, List.length_append, List.length_cons,
      List.length_singleton, List.append_assoc, List.singleton_append, Nat.add_assoc,
      Nat.add_comm 1, List.length_nil, Nat.zero_add]

/-- With eight pieces or more before the `::`, it has no room. -/
theorem leadingResult_eq_none {l r : List Char} {P : List Nat} (h : 8 ≤ P.length) :
    leadingResult l r P = none := by
  unfold leadingResult
  cases groupsPieces false l with
  | none => rfl
  | some xs => simp only [Option.some_bind, if_neg (show ¬P.length + xs.length < 8 by omega)]

/-- **The main loop before the `::`.**  From the start of a group and before any compression,
on a text whose first `::` follows `l`, the loop stores the `h16` groups of `l`, records the
compression after them, and reads the groups after the `::`. -/
theorem ipv6Main_leading (l r : List Char) {P : List Nat} {fuel : Nat}
    (hf : (l ++ ':' :: ':' :: r).length < fuel) (hP : P.length ≤ 8) (hl : l ≠ [])
    (hh : ∀ x ∈ l.head?, x ≠ ':') (hsd : splitDoubleColon (l ++ ':' :: ':' :: r) = some (l, r)) :
    ipv6Main fuel (l ++ ':' :: ':' :: r) (pieces P) P.length none = .ok (leadingResult l r P) := by
  obtain ⟨f, rfl⟩ : ∃ f, fuel = f + 1 := ⟨fuel - 1, by omega⟩
  obtain ⟨g, hg, (⟨hs, -⟩ | ⟨t, hs, -⟩)⟩ := splitOn_cases ':' l
  · subst hs
    rw [leadingResult, groupsPieces_single hg hl, groupPieces_single]
    cases hx : h16Value l with
    | none =>
      rw [ipv6Main_other hx hl hg (by simp) hP, ipv4Ls32_eq_none_of_colon (by simp)]
      simp
    | some x =>
      rw [ipv6Main_h16_colon hx hg, if_neg (List.cons_ne_nil _ _)]
      by_cases h8 : P.length = 8
      · simp [h8]
      obtain ⟨f, rfl⟩ : ∃ f', f = f' + 1 := ⟨f - 1, by simp at hf; omega⟩
      rw [if_neg h8, ipv6Main_colon]
      by_cases h7 : P.length + 1 = 8
      · simp [h7]
      rw [if_neg h7, if_neg (by simp), pieces_set (by omega), ← pieces_append_zero (by simp; omega),
        show P.length + 1 + 1 = (P ++ [x] ++ [0]).length by simp,
        ipv6Main_groups r (by simp at hf; omega) (by simp; omega) (.inl Option.isSome_some)]
      simp [show P.length + 1 < 8 by omega]
  · subst hs
    have hg0 : g ≠ [] := by
      rintro rfl
      exact hh ':' (by simp) rfl
    simp only [List.append_assoc, List.cons_append] at hsd hf ⊢
    obtain ⟨ht0, hth, hsd'⟩ := splitDoubleColon_tail_some hg hsd
    cases hx : h16Value g with
    | none =>
      rw [ipv6Main_other hx hg0 hg (by simp) hP, ipv4Ls32_eq_none_of_colon (by simp)]
      simp [leadingResult, groupsPieces_cons hg ht0, hx]
    | some x =>
      rw [ipv6Main_h16_colon hx hg, leadingResult_cons hg ht0 hx]
      by_cases h8 : P.length = 8
      · rw [if_pos h8, leadingResult_eq_none (by simp; omega)]
      rw [if_neg h8, if_neg (by simp), pieces_set (by omega),
        show P.length + 1 = (P ++ [x]).length by simp]
      exact ipv6Main_leading t r (by simp at hf ⊢; omega) (by simp; omega) ht0 hth hsd'
termination_by l.length

/-! ## The swap loop -/

/-- One pass of the swap loop: the piece `y` before `d` zeros trades places with the last of
them. -/
theorem swap_step (X W : List Nat) (y d : Nat) {p q : Nat} (hp : p = X.length + d)
    (hq : q = X.length) :
    let L := X ++ y :: (List.replicate d 0 ++ W)
    (L.set p (L.getD q 0)).set q (L.getD p 0) = X ++ List.replicate d 0 ++ y :: W := by
  subst hp hq
  cases d with
  | zero => simp [List.getElem_append_right]
  | succ k =>
    have hL : X ++ y :: (List.replicate (k + 1) 0 ++ W) =
        (X ++ y :: List.replicate k 0) ++ 0 :: W := by
      simp [List.replicate_succ']
    have hlen : (X ++ y :: List.replicate k 0).length = X.length + (k + 1) := by
      simp only [List.length_append, List.length_cons, List.length_replicate]
    simp only [hL]
    rw [← hlen]
    simp [List.getElem?_append_right, List.set_append_right, List.replicate_succ,
      List.getElem_append_right]

/-- The swap loop, run to the end: the pieces `B` after the compression `A` trade places
with the `d` zeros after them. -/
theorem ipv6Swap_run (A : List Nat) (hA : 0 < A.length) (d : Nat) :
    ∀ (B W : List Nat),
      ipv6Swap A.length B.length (A.length + B.length + d - 1) (A ++ B ++ List.replicate d 0 ++ W) =
        A ++ List.replicate d 0 ++ B ++ W := by
  intro B
  induction B using List.reverseRecOn with
  | nil =>
    intro W
    simp [ipv6Swap]
  | append_singleton B y ih =>
    intro W
    have hp : A.length + (B ++ [y]).length + d - 1 = (A.length + B.length + d - 1) + 1 := by
      simp; omega
    have hL : A ++ (B ++ [y]) ++ List.replicate d 0 ++ W =
        (A ++ B) ++ y :: (List.replicate d 0 ++ W) := by simp
    rw [hp, List.length_append, List.length_singleton, ipv6Swap, hL,
      swap_step (A ++ B) W y d (by simp; omega) (by simp)]
    have := ih (y :: W)
    simp only [List.append_assoc, List.cons_append, List.nil_append] at this ⊢
    exact this

/-- **The swap loop moves the pieces after the compression to the tail.**  With the
compression after the pieces `A` and the pieces `B` read after it, the loop leaves `A`, the
zeros, then `B`. -/
theorem ipv6Swap_spec {A B : List Nat} (hA : 0 < A.length) (h : A.length + B.length ≤ 8) :
    ipv6Swap A.length B.length 7 (pieces (A ++ B)) =
      A ++ List.replicate (8 - (A.length + B.length)) 0 ++ B := by
  have := ipv6Swap_run A hA (8 - (A.length + B.length)) B []
  rw [show A.length + B.length + (8 - (A.length + B.length)) - 1 = 7 by omega] at this
  simpa [pieces] using this

/-- The end of the parser after a compression behind the pieces `xs`, with `ys` read after it:
the swap leaves the zeros between them. -/
theorem ipv6Swap_compress (xs ys : List Nat) (h : xs.length + ys.length ≤ 7) :
    ipv6Swap (xs.length + 1) (xs.length + 1 + ys.length - (xs.length + 1)) 7
        (pieces (xs ++ [0] ++ ys)) =
      xs ++ List.replicate (8 - (xs.length + ys.length)) 0 ++ ys := by
  have hswap := @ipv6Swap_spec (xs ++ [0]) ys (by simp) (by simp; omega)
  simp only [List.length_append, List.length_singleton] at hswap
  rw [Nat.add_sub_cancel_left, hswap,
    show 8 - (xs.length + ys.length) = 8 - (xs.length + 1 + ys.length) + 1 by omega,
    List.replicate_succ]
  simp

/-! ## The parser against the grammar

One lemma for each way the parser starts: at a single `:` (an error), at `::`, or at a group,
with or without a `::` later. -/

/-- A text that starts with a single `:` is rejected at once. -/
theorem parseIpv6Address_colon {w : List Char} (hw : ∀ y ∈ w.head?, y ≠ ':') :
    parseIpv6Address (':' :: w) = .ok none := by
  rcases w with _ | ⟨y, w⟩
  · rfl
  · simp only [List.head?_cons, Option.mem_def, Option.some.injEq, forall_eq', ne_eq] at hw
    simp [parseIpv6Address, hw]

/-- A text with no `::` that starts with a group: the loop reads the groups, and the parser keeps
them when there are eight. -/
theorem parseIpv6Address_groups {x : Char} {v : List Char} (hx : x ≠ ':')
    (hsd : splitDoubleColon (x :: v) = none) :
    parseIpv6Address (x :: v) = .ok ((groupsPieces true (x :: v)).filter (·.length == 8)) := by
  have hmain := ipv6Main_groups (x :: v) (P := []) (c := none) (Nat.lt_add_one _) (by simp)
    (.inr ⟨hsd, by simpa using hx⟩)
  simp only [pieces, List.nil_append, List.length_nil, Nat.sub_zero] at hmain
  simp only [parseIpv6Address, hx, List.cons.injEq, false_and, imp_false, not_false_eq_true,
    implies_true, hmain, ok_bind, groupsResult]
  cases groupsPieces true (x :: v) with
  | none => rfl
  | some xs =>
    by_cases h8 : xs.length = 8
    · simp [h8, pieces, Option.filter]
    · by_cases hle : xs.length ≤ 8 <;> simp [h8, hle, Option.filter]

/-- A text that starts with `::`: the loop reads the groups after it from piece 1, and the swap
moves them to the end. -/
theorem parseIpv6Address_leading_compress (r : List Char) :
    parseIpv6Address (':' :: ':' :: r) = .ok ((groupsPieces true r).bind fun ys =>
      if ys.length ≤ 7 then some (List.replicate (8 - ys.length) 0 ++ ys) else none) := by
  have hmain := ipv6Main_groups r (P := [0]) (c := some 1) (Nat.lt_add_one _) (by simp)
    (.inl Option.isSome_some)
  rw [show pieces [0] = List.replicate 8 0 from rfl, List.length_singleton] at hmain
  simp only [parseIpv6Address, hmain, ok_bind, groupsResult, List.length_singleton]
  cases groupsPieces true r with
  | none => rfl
  | some ys =>
    by_cases h7 : ys.length ≤ 7
    · have hswap := ipv6Swap_compress [] ys (by simpa using h7)
      simp only [List.length_nil, Nat.zero_add, List.nil_append, Nat.add_sub_cancel_left] at hswap
      simp only [Option.some_bind, if_pos (show 1 + ys.length ≤ 8 by omega), if_pos h7,
        Nat.add_sub_cancel_left, hswap]
      rfl
    · simp only [Option.some_bind, if_neg (show ¬ 1 + ys.length ≤ 8 by omega), if_neg h7]
      rfl

/-- A text with groups before its first `::`: the loop reads both sides, and the swap moves the
groups after `::` to the end. -/
theorem parseIpv6Address_compress {x : Char} {l r : List Char} (hx : x ≠ ':')
    (hsd : splitDoubleColon (x :: l ++ ':' :: ':' :: r) = some (x :: l, r)) :
    parseIpv6Address (x :: l ++ ':' :: ':' :: r) = .ok ((groupsPieces false (x :: l)).bind fun xs =>
      (groupsPieces true r).bind fun ys => if xs.length + ys.length ≤ 7 then
        some (xs ++ List.replicate (8 - (xs.length + ys.length)) 0 ++ ys) else none) := by
  have hmain := ipv6Main_leading (x :: l) r (P := []) (Nat.lt_add_one _) (by simp)
    (List.cons_ne_nil x l) (by simpa using hx) hsd
  simp only [leadingResult, pieces, List.nil_append, List.length_nil, Nat.sub_zero, Nat.zero_add,
    List.cons_append] at hmain ⊢
  simp only [parseIpv6Address, hx, List.cons.injEq, false_and, imp_false, not_false_eq_true,
    implies_true, hmain, ok_bind]
  cases groupsPieces false (x :: l) with
  | none => rfl
  | some xs =>
    simp only [Option.some_bind, groupsResult, List.length_append, List.length_singleton]
    cases groupsPieces true r with
    | none => by_cases hxs : xs.length < 8 <;> simp only [hxs, if_true, if_false, Option.none_bind] <;> rfl
    | some ys =>
      simp only [Option.some_bind]
      by_cases h7 : xs.length + ys.length ≤ 7
      · simp only [if_pos (show xs.length < 8 by omega),
          if_pos (show xs.length + 1 + ys.length ≤ 8 by omega), if_pos h7, ipv6Swap_compress xs ys h7]
        rfl
      · by_cases hxs : xs.length < 8
        · simp only [if_pos hxs, if_neg (show ¬ xs.length + 1 + ys.length ≤ 8 by omega), if_neg h7]
          rfl
        · simp only [if_neg hxs, if_neg h7]
          rfl

/-- **`parse_ipv6_address` parses the `IPv6address` grammar.**  For every text, the parser
returns the eight pieces the grammar gives it: the explicit groups in order, the zeros of a
`::` between them, a dotted quad packed into the last two pieces; and it returns `none`
exactly on the texts the grammar rejects. -/
theorem parseIpv6Address_eq_spec (v : List Char) : parseIpv6Address v = .ok (ipv6AddressSpec v) := by
  cases hsd : splitDoubleColon v with
  | none =>
    rcases v with _ | ⟨x, v⟩
    · rfl
    by_cases hx : x = ':'
    · subst hx
      rw [parseIpv6Address_colon (head_ne_colon (by simp [hsd])), ipv6AddressSpec, hsd,
        groupsPieces_colon]
      rfl
    · rw [parseIpv6Address_groups hx hsd, ipv6AddressSpec, hsd]
  | some lr =>
    obtain ⟨l, r⟩ := lr
    obtain rfl := splitDoubleColon_eq_some hsd
    rcases l with _ | ⟨x, l⟩
    · rw [List.nil_append, parseIpv6Address_leading_compress]
      simp [ipv6AddressSpec, splitDoubleColon, groupsPieces]
    by_cases hx : x = ':'
    · subst hx
      simp only [ipv6AddressSpec, hsd, groupsPieces_colon, Option.bind_eq_bind, Option.none_bind]
      rw [List.cons_append, parseIpv6Address_colon (head_ne_colon fun r' h => by
        rw [← List.cons_append, hsd] at h; cases h)]
    · rw [parseIpv6Address_compress hx hsd, ipv6AddressSpec, hsd]
      rfl

example : parseIpv6Address "1::ffff:1.2.3.4".toList =
    .ok (some [1, 0, 0, 0, 0, 0xffff, 0x102, 0x304]) := by rfl

end SkyrUrl
