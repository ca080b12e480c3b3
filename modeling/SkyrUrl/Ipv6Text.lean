import SkyrUrl.Ipv6
import SkyrUrl.Ipv4

/-!
# The IPv6 serializer reads back

`ipv6ToString` prints the eight pieces of an address in lowercase hex separated by colons,
and prints the first longest run of two or more zero pieces as `::`.

* `ipv6ToString_of_none`, `ipv6ToString_of_some`: the text is the eight hex groups, or the
  groups before the compressed run, `::` and the groups after it;
* `parseIpv6Address_pieces`: what `parse_ipv6_address` returns is eight pieces of 16 bits;
* `parseIpv6Address_ipv6ToString`: `parse_ipv6_address` reads the text back as the address;
* `parseHost_bracket_idempotent`: the host `parse_host` returns for a bracketed input, put
  back between brackets, parses to itself.
-/

namespace SkyrUrl

/-! ## Hex digits -/

/-- The lowercase hex digit characters, as `hex_to_dec` and the grammar see them. -/
theorem hexDigitChar : ∀ k < 16, hexToDec (Nat.digitChar k) = k ∧ isXdigit (Nat.digitChar k) ∧
    Nat.digitChar k ≠ ':' := by
  decide

theorem hexDigits_ne_nil (n : Nat) : Nat.toDigits 16 n ≠ [] := by
  rw [toDigits_eq_append (by omega)]
  simp

theorem colon_not_mem_hexDigits (n : Nat) : ':' ∉ Nat.toDigits 16 n := fun h => by
  obtain ⟨k, hk, he⟩ := mem_toDigits (by omega) h
  exact (hexDigitChar k hk).2.2 he.symm

theorem hexValue_hexDigits (n : Nat) : hexValue (Nat.toDigits 16 n) = n := by
  induction n using Nat.strong_induction_on with
  | _ n ih =>
    rw [toDigits_eq_append (by omega)]
    have hd := (hexDigitChar (n % 16) (Nat.mod_lt _ (by omega))).1
    simp only [hexValue, List.foldl_append, List.foldl_cons, List.foldl_nil, hexStep, hd] at ih ⊢
    split
    · simp only [List.foldl_nil]; omega
    · rw [ih (n / 16) (by omega)]; omega

theorem length_hexDigits_le {n k : Nat} (hk : 1 ≤ k) (h : n < 16 ^ k) :
    (Nat.toDigits 16 n).length ≤ k := by
  induction k generalizing n with
  | zero => omega
  | succ k ih =>
    rw [toDigits_eq_append (by omega)]
    split
    · simp only [List.nil_append, List.length_singleton]; omega
    · have hk' : 1 ≤ k := by
        rcases k with _ | k
        · simp at h; omega
        · omega
      have := ih hk' (show n / 16 < 16 ^ k by rw [Nat.pow_succ] at h; omega)
      simp; omega

/-- A piece below `2^16` prints as an `h16` group of its own value. -/
theorem h16Value_hexDigits {n : Nat} (h : n < 0x10000) : h16Value (Nat.toDigits 16 n) = some n := by
  have hx : (Nat.toDigits 16 n).all isXdigit := List.all_eq_true.2 fun c hc => by
    obtain ⟨k, hk, rfl⟩ := mem_toDigits (by omega) hc
    exact (hexDigitChar k hk).2.1
  rw [h16Value_eq, if_pos ⟨hexDigits_ne_nil n, length_hexDigits_le (k := 4) (by omega) h, hx⟩,
    hexValue_hexDigits]

/-! ## The text of a run of pieces -/

/-- Pieces in lowercase hex separated by colons, as `ipv6ToString` prints the pieces on each
side of the compressed run. -/
def hexText : List Nat → List Char
  | [] => []
  | [x] => Nat.toDigits 16 x
  | x :: xs => Nat.toDigits 16 x ++ ':' :: hexText xs

@[simp] theorem hexText_nil : hexText [] = [] := rfl

theorem hexText_single (x : Nat) : hexText [x] = Nat.toDigits 16 x := rfl

theorem hexText_cons_cons (x y : Nat) (rest : List Nat) :
    hexText (x :: y :: rest) = Nat.toDigits 16 x ++ ':' :: hexText (y :: rest) := rfl

/-- The text of pieces starts with a hex digit. -/
theorem hexText_cons (x : Nat) (xs : List Nat) : ∃ d t, hexText (x :: xs) = d :: t ∧ d ≠ ':' := by
  obtain ⟨d, t, he⟩ := List.exists_cons_of_ne_nil (hexDigits_ne_nil x)
  have hd : d ≠ ':' := fun h => colon_not_mem_hexDigits x (by rw [he, h]; exact List.mem_cons_self _ _)
  cases xs with
  | nil => exact ⟨d, t, he, hd⟩
  | cons y rest => exact ⟨d, t ++ ':' :: hexText (y :: rest), by rw [hexText_cons_cons, he]; rfl, hd⟩

/-- The grammar reads the groups of the text back as the pieces. -/
theorem groupsPieces_hexText (ls32 : Bool) : ∀ xs : List Nat, (∀ x ∈ xs, x < 0x10000) →
    groupsPieces ls32 (hexText xs) = some xs
  | [], _ => rfl
  | [x], h => by
    rw [hexText_single, groupsPieces_single (colon_not_mem_hexDigits x) (hexDigits_ne_nil x),
      groupPieces_single, h16Value_hexDigits (h x (List.mem_singleton_self x))]
  | x :: y :: rest, h => by
    obtain ⟨d, t, he, -⟩ := hexText_cons y rest
    rw [hexText_cons_cons, groupsPieces_cons (colon_not_mem_hexDigits x)
        (by rw [he]; exact List.cons_ne_nil _ _), h16Value_hexDigits (h x (List.mem_cons_self _ _)),
      groupsPieces_hexText ls32 (y :: rest) fun z hz => h z (List.mem_cons_of_mem _ hz)]
    rfl

/-- The text has no `::`. -/
theorem splitDoubleColon_hexText : ∀ xs : List Nat, splitDoubleColon (hexText xs) = none
  | [] => rfl
  | [x] => by
    have := splitDoubleColon_append (colon_not_mem_hexDigits x) []
    rw [List.append_nil] at this
    rw [hexText_single, this]
    rfl
  | x :: y :: rest => by
    obtain ⟨d, t, he, hd⟩ := hexText_cons y rest
    rw [hexText_cons_cons, splitDoubleColon_append (colon_not_mem_hexDigits x), he,
      splitDoubleColon_colon (by simpa using hd), ← he, splitDoubleColon_hexText (y :: rest)]
    rfl

/-- The first `::` after the text is the one that follows it. -/
theorem splitDoubleColon_hexText_append : ∀ {xs : List Nat}, xs ≠ [] → ∀ r : List Char,
    splitDoubleColon (hexText xs ++ ':' :: ':' :: r) = some (hexText xs, r)
  | [x], _, r => by
    rw [hexText_single, splitDoubleColon_append (colon_not_mem_hexDigits x)]
    simp [splitDoubleColon]
  | x :: y :: rest, _, r => by
    obtain ⟨d, t, he, hd⟩ := hexText_cons y rest
    rw [hexText_cons_cons, List.append_assoc, List.cons_append,
      splitDoubleColon_append (colon_not_mem_hexDigits x), he, List.cons_append,
      splitDoubleColon_colon (by simpa using hd), ← List.cons_append, ← he,
      splitDoubleColon_hexText_append (List.cons_ne_nil y rest) r]
    rfl

/-- Between the groups before the compressed run, each group is followed by a colon. -/
theorem flatMap_hexDigits_colon : ∀ {xs : List Nat}, xs ≠ [] →
    xs.flatMap (Nat.toDigits 16 · ++ [':']) = hexText xs ++ [':']
  | [x], _ => by simp [hexText_single]
  | x :: y :: rest, _ => by
    rw [List.flatMap_cons, flatMap_hexDigits_colon (List.cons_ne_nil y rest), hexText_cons_cons]
    simp

/-! ## Runs of zero pieces -/

/-- After the run of zeros at `i`, the pieces from its end. -/
theorem dropWhile_drop_eq (a : List Nat) (i : Nat) :
    (a.drop i).dropWhile (· = 0) = a.drop (i + zeroRun a i) := by
  have h := List.takeWhile_append_dropWhile (· = 0) (a.drop i)
  rw [← List.drop_drop, zeroRun]
  calc (a.drop i).dropWhile (· = 0)
      = ((a.drop i).takeWhile (· = 0) ++ (a.drop i).dropWhile (· = 0)).drop
          ((a.drop i).takeWhile (· = 0)).length := (List.drop_left _ _).symm
    _ = (a.drop i).drop ((a.drop i).takeWhile (· = 0)).length := by rw [h]

/-- The pieces from `i` are the run of zeros there, then the pieces after it. -/
theorem drop_eq_zeroRun (a : List Nat) (i : Nat) :
    a.drop i = List.replicate (zeroRun a i) 0 ++ a.drop (i + zeroRun a i) := by
  have htw : (a.drop i).takeWhile (· = 0) = List.replicate (zeroRun a i) 0 :=
    List.eq_replicate_iff.2 ⟨rfl, fun b hb => by simpa using List.mem_takeWhile_imp hb⟩
  rw [← dropWhile_drop_eq, ← htw, List.takeWhile_append_dropWhile]

theorem zeroRun_le (a : List Nat) (i : Nat) : zeroRun a i ≤ a.length - i := by
  rw [zeroRun, ← List.length_drop]
  exact (List.takeWhile_sublist _).length_le

theorem getD_of_lt_zeroRun {a : List Nat} {i m : Nat} (hm : m < zeroRun a i) :
    a.getD (i + m) 0 = 0 := by
  have hd := drop_eq_zeroRun a i
  rw [List.getD_eq_getElem?_getD, ← List.getElem?_drop, hd, List.getElem?_append_left (by simpa),
    List.getElem?_replicate_of_lt hm]
  rfl

/-- The piece after a run of zeros, if any, is not zero. -/
theorem getD_zeroRun_ne_zero {a : List Nat} {i : Nat} (h : i + zeroRun a i < a.length) :
    a.getD (i + zeroRun a i) 0 ≠ 0 := by
  have hne : (a.drop i).dropWhile (· = 0) ≠ [] := by
    rw [dropWhile_drop_eq]; simpa using h
  have := List.head_dropWhile_not (· = 0) (a.drop i) hne
  simp only [dropWhile_drop_eq, List.head_drop, decide_eq_false_iff_not] at this
  simpa [List.getD_eq_getElem?_getD, h] using this

/-- A fold that keeps its value or replaces it by the index at hand, with a property. -/
theorem foldl_keep_or_index {f : Option Nat → Nat → Option Nat} {P : Nat → Prop}
    (hf : ∀ best j, f best j = best ∨ (f best j = some j ∧ P j)) :
    ∀ (is : List Nat) (best : Option Nat) (b : Nat), b ∈ is.foldl f best → b ∈ best ∨ (b ∈ is ∧ P b)
  | [], _, _, h => .inl h
  | j :: is, best, b, h => by
    rcases foldl_keep_or_index hf is (f best j) b h with h | h
    · rcases hf best j with he | ⟨he, hp⟩
      · exact .inl (he ▸ h)
      · rw [he, Option.mem_some_iff] at h
        exact .inr ⟨h ▸ List.mem_cons_self _ _, h ▸ hp⟩
    · exact .inr ⟨List.mem_cons_of_mem _ h.1, h.2⟩

/-- The compressed index starts a run of at least two zero pieces. -/
theorem ipv6Compress_some {a : List Nat} {i : Nat} (h : ipv6Compress a = some i) :
    i < 8 ∧ 2 ≤ zeroRun a i := by
  rcases foldl_keep_or_index (P := fun j => 2 ≤ zeroRun a j)
      (fun best j => by dsimp only; split; exacts [.inr ⟨rfl, ‹_ ∧ _›.1⟩, .inl rfl])
      (List.range 8) none i h with h | ⟨hi, hk⟩
  · cases h
  · exact ⟨List.mem_range.1 hi, hk⟩

/-! ## The serializer's loop -/

/-- One pass of the loop of `ipv6ToString` at piece `i`: the text so far, and whether the
zero pieces of the compressed run are being skipped. -/
def toStringStep (address : List Nat) (compress : Option Nat) (acc : List Char × Bool) (i : Nat) :
    List Char × Bool :=
  let (output, ignore0) := acc
  let piece := address.getD i 0
  if ignore0 ∧ piece = 0 then (output, true)
  else if compress = some i then (output ++ (if i = 0 then "::".toList else [':']), true)
  else (output ++ Nat.toDigits 16 piece ++ (if i ≠ 7 then [':'] else []), false)

theorem ipv6ToString_eq_foldl (address : List Nat) : ipv6ToString address =
    ((List.range 8).foldl (toStringStep address (ipv6Compress address)) ([], false)).1 := rfl

section Loop

variable {a : List Nat} {c : Option Nat}

theorem toStringStep_print {out : List Char} {ignore0 : Bool} {i : Nat}
    (hz : ignore0 = true → a.getD i 0 ≠ 0) (hc : c ≠ some i) :
    toStringStep a c (out, ignore0) i =
      (out ++ (Nat.toDigits 16 (a.getD i 0) ++ if i ≠ 7 then [':'] else []), false) := by
  simp only [toStringStep]
  rw [if_neg fun h => hz h.1 h.2, if_neg hc, List.append_assoc]

theorem toStringStep_skip {out : List Char} {i : Nat} (hz : a.getD i 0 = 0) :
    toStringStep a c (out, true) i = (out, true) := by
  simp only [toStringStep]
  rw [if_pos ⟨trivial, hz⟩]

theorem toStringStep_compress {out : List Char} {i : Nat} :
    toStringStep a (some i) (out, false) i = (out ++ if i = 0 then "::".toList else [':'], true) := by
  simp only [toStringStep, Bool.false_eq_true, false_and, if_false, if_true]

theorem map_getD_range' {s : Nat} : ∀ {n : Nat}, s + n ≤ a.length →
    (List.range' s n).map (a.getD · 0) = (a.drop s).take n
  | 0, _ => by simp
  | n + 1, h => by
    have hs : s < a.length := by omega
    rw [List.range'_succ, List.map_cons, map_getD_range' (by omega), List.drop_eq_getElem_cons hs,
      List.take_succ_cons]
    simp [List.getD_eq_getElem?_getD, hs]

/-- Pieces up to the compressed index print as hex groups, each followed by a colon. -/
theorem foldl_plain : ∀ (n s : Nat) (out : List Char), s + n ≤ 7 →
    (∀ j ∈ List.range' s n, c ≠ some j) →
    (List.range' s n).foldl (toStringStep a c) (out, false) =
      (out ++ ((List.range' s n).map (a.getD · 0)).flatMap (Nat.toDigits 16 · ++ [':']), false)
  | 0, _, out, _, _ => by simp
  | n + 1, s, out, h, hc => by
    rw [List.range'_succ] at hc ⊢
    rw [List.foldl_cons, toStringStep_print (fun h => absurd h Bool.false_ne_true)
        (hc s (List.mem_cons_self _ _)),
      if_pos (by omega), foldl_plain n (s + 1) _ (by omega) fun j hj => hc j (List.mem_cons_of_mem _ hj)]
    simp

/-- Zero pieces while the run is skipped leave the text as it is. -/
theorem foldl_zeros : ∀ (n s : Nat) (out : List Char), (∀ j ∈ List.range' s n, a.getD j 0 = 0) →
    (List.range' s n).foldl (toStringStep a c) (out, true) = (out, true)
  | 0, _, _, _ => rfl
  | n + 1, s, out, h => by
    rw [List.range'_succ] at h ⊢
    rw [List.foldl_cons, toStringStep_skip (h s (List.mem_cons_self _ _))]
    exact foldl_zeros n (s + 1) out fun j hj => h j (List.mem_cons_of_mem _ hj)

/-- From a piece that is printed, the pieces to the end print as hex groups separated by
colons. -/
theorem foldl_tail : ∀ (n s : Nat) (out : List Char) (ignore0 : Bool), s + n = 8 →
    (0 < n → ignore0 = true → a.getD s 0 ≠ 0) → (∀ j ∈ List.range' s n, c ≠ some j) →
    ((List.range' s n).foldl (toStringStep a c) (out, ignore0)).1 =
      out ++ hexText ((List.range' s n).map (a.getD · 0))
  | 0, _, out, _, _, _, _ => by simp [hexText]
  | 1, s, out, ig, h, hz, hc => by
    obtain rfl : s = 7 := by omega
    simp only [List.range'_succ, List.range'_zero, List.foldl_cons, List.foldl_nil, List.map_cons,
      List.map_nil] at hc ⊢
    rw [toStringStep_print (hz (by omega)) (hc 7 (List.mem_singleton_self 7)), if_neg (by omega),
      List.append_nil, hexText_single]
  | n + 2, s, out, ig, h, hz, hc => by
    rw [List.range'_succ] at hc ⊢
    rw [List.foldl_cons, toStringStep_print (hz (by omega)) (hc s (List.mem_cons_self _ _)),
      if_pos (by omega), foldl_tail (n + 1) (s + 1) _ false (by omega)
        (fun _ h => absurd h Bool.false_ne_true) fun j hj => hc j (List.mem_cons_of_mem _ hj),
      List.range'_succ]
    simp only [List.map_cons, hexText_cons_cons, List.append_assoc, List.cons_append,
      List.singleton_append, List.nil_append]

end Loop

/-! ## What the parser returns -/

/-- Eight pieces of sixteen bits: the value an `ipv6_address` holds. -/
structure Ipv6Pieces (a : List Nat) : Prop where
  length : a.length = 8
  lt : ∀ x ∈ a, x < 0x10000

theorem xdigit_table : ∀ n < 128, isXdigit (Char.ofNat n) → hexToDec (Char.ofNat n) < 16 := by
  decide

theorem hexToDec_lt {c : Char} (h : isXdigit c) : hexToDec c < 16 := by
  have := xdigit_table c.toNat (isXdigit_toNat h)
  rw [Char.ofNat_toNat] at this
  exact this h

theorem foldl_hexStep_lt : ∀ (s : List Char) (v : Nat), (∀ c ∈ s, isXdigit c) →
    s.foldl hexStep v < (v + 1) * 16 ^ s.length
  | [], v, _ => by simp
  | c :: s, v, h => by
    have hc := hexToDec_lt (h c (List.mem_cons_self _ _))
    calc (c :: s).foldl hexStep v = s.foldl hexStep (hexStep v c) := rfl
      _ < (hexStep v c + 1) * 16 ^ s.length :=
        foldl_hexStep_lt s _ fun x hx => h x (List.mem_cons_of_mem _ hx)
      _ ≤ (v + 1) * 16 * 16 ^ s.length := Nat.mul_le_mul_right _ (by simp only [hexStep]; omega)
      _ = (v + 1) * 16 ^ (c :: s).length := by rw [List.length_cons, Nat.pow_succ', Nat.mul_assoc]

theorem h16Value_lt {g : List Char} {x : Nat} (h : h16Value g = some x) : x < 0x10000 := by
  simp only [h16Value_eq] at h
  split at h
  · rename_i hg
    cases h
    calc hexValue g < (0 + 1) * 16 ^ g.length := foldl_hexStep_lt g 0 (List.all_eq_true.1 hg.2.2)
      _ ≤ 16 ^ 4 := by rw [Nat.zero_add, Nat.one_mul]; exact Nat.pow_le_pow_right (by omega) hg.2.1
  · cases h

theorem decValue_le_of_isDecOctet {o : List Char} (h : isDecOctet o) : decValue o ≤ 255 := by
  simp only [isDecOctet, decide_eq_true_eq] at h
  exact h.2.2.2

theorem ipv4Ls32_lt {s : List Char} {ys : List Nat} (h : ipv4Ls32 s = some ys) :
    ∀ y ∈ ys, y < 0x10000 := by
  obtain ⟨a, b, c, d, -, ha, hb, hc, hd, rfl⟩ := ipv4Ls32_some h
  have := decValue_le_of_isDecOctet ha
  have := decValue_le_of_isDecOctet hb
  have := decValue_le_of_isDecOctet hc
  have := decValue_le_of_isDecOctet hd
  simp only [List.mem_cons, List.mem_singleton, List.not_mem_nil, or_false]
  rintro y (rfl | rfl) <;> omega

theorem groupPieces_lt {ls32 : Bool} : ∀ {gs : List (List Char)} {xs : List Nat},
    groupPieces ls32 gs = some xs → ∀ x ∈ xs, x < 0x10000
  | [], _, h => by cases h; simp
  | [g], xs, h => by
    rw [groupPieces_single] at h
    cases hv : h16Value g with
    | some v =>
      simp only [hv, Option.some.injEq] at h
      subst h
      simpa using h16Value_lt hv
    | none =>
      cases ls32
      · simp [hv] at h
      · simp only [hv, if_true] at h
        exact ipv4Ls32_lt h
  | g :: g' :: gs, xs, h => by
    rw [groupPieces_cons (List.cons_ne_nil g' gs)] at h
    obtain ⟨v, hv, h⟩ := Option.bind_eq_some.1 h
    obtain ⟨vs, hvs, rfl⟩ := Option.map_eq_some'.1 h
    simp only [List.mem_cons, forall_eq_or_imp]
    exact ⟨h16Value_lt hv, groupPieces_lt hvs⟩

theorem groupsPieces_lt {ls32 : Bool} {s : List Char} {xs : List Nat}
    (h : groupsPieces ls32 s = some xs) : ∀ x ∈ xs, x < 0x10000 := by
  unfold groupsPieces at h
  split at h
  · cases h; simp
  · exact groupPieces_lt h

theorem ipv6Pieces_compress {xs ys : List Nat} {n : Nat} (hx : ∀ x ∈ xs, x < 0x10000)
    (hy : ∀ y ∈ ys, y < 0x10000) (hn : xs.length + n + ys.length = 8) :
    Ipv6Pieces (xs ++ List.replicate n 0 ++ ys) where
  length := by simp only [List.length_append, List.length_replicate]; omega
  lt x hm := by
    simp only [List.mem_append, List.mem_replicate] at hm
    rcases hm with (hm | ⟨-, rfl⟩) | hm
    · exact hx x hm
    · omega
    · exact hy x hm

/-- **The parser returns eight pieces of sixteen bits.**  Whatever the text, an address that
`parse_ipv6_address` returns has eight pieces, each below `2^16`: a group has at most four hex
digits, a dotted quad packs two octets into each of its pieces, and `::` fills the rest with
zeros. -/
theorem parseIpv6Address_pieces {v : List Char} {a : List Nat}
    (h : parseIpv6Address v = .ok (some a)) : Ipv6Pieces a := by
  cases hsd : splitDoubleColon v with
  | none =>
    rcases v with _ | ⟨x, v⟩
    · cases h
    by_cases hx : x = ':'
    · subst hx
      rw [parseIpv6Address_colon (head_ne_colon (by simp [hsd]))] at h
      cases h
    · rw [parseIpv6Address_groups hx hsd] at h
      obtain ⟨hg, h8⟩ := Option.filter_eq_some.1 (Except.ok.inj h)
      exact ⟨by simpa using h8, groupsPieces_lt hg⟩
  | some lr =>
    obtain ⟨l, r⟩ := lr
    obtain rfl := splitDoubleColon_eq_some hsd
    rcases l with _ | ⟨x, l⟩
    · rw [List.nil_append, parseIpv6Address_leading_compress] at h
      obtain ⟨ys, hys, h⟩ := Option.bind_eq_some.1 (Except.ok.inj h)
      split at h
      · cases h
        rw [← List.nil_append (List.replicate _ 0)]
        exact ipv6Pieces_compress (by simp) (groupsPieces_lt hys) (by simp only [List.length_nil]; omega)
      · cases h
    by_cases hx : x = ':'
    · subst hx
      rw [List.cons_append, parseIpv6Address_colon (head_ne_colon fun r' h => by
        rw [← List.cons_append, hsd] at h; cases h)] at h
      cases h
    · rw [parseIpv6Address_compress hx hsd] at h
      obtain ⟨xs, hxs, h⟩ := Option.bind_eq_some.1 (Except.ok.inj h)
      obtain ⟨ys, hys, h⟩ := Option.bind_eq_some.1 h
      split at h
      · cases h
        exact ipv6Pieces_compress (groupsPieces_lt hxs) (groupsPieces_lt hys) (by omega)
      · cases h

/-! ## The text -/

/-- **Without a compressed run, the text is the eight hex groups.** -/
theorem ipv6ToString_of_none {a : List Nat} (hl : a.length = 8) (hc : ipv6Compress a = none) :
    ipv6ToString a = hexText a := by
  rw [ipv6ToString_eq_foldl, hc, List.range_eq_range',
    foldl_tail 8 0 [] false rfl (fun _ h => absurd h Bool.false_ne_true) (by simp),
    map_getD_range' (by omega), List.drop_zero, List.take_of_length_le (by omega), List.nil_append]

/-- **With a compressed run, the text is the groups before it, `::`, and the groups after
it.** -/
theorem ipv6ToString_of_some {a : List Nat} {i : Nat} (hl : a.length = 8)
    (hc : ipv6Compress a = some i) :
    ipv6ToString a = hexText (a.take i) ++ ':' :: ':' :: hexText (a.drop (i + zeroRun a i)) := by
  obtain ⟨hi, hk⟩ := ipv6Compress_some hc
  have hlen : i + zeroRun a i ≤ 8 := by have := zeroRun_le a i; omega
  have hsplit : List.range 8 = List.range' 0 i ++ List.range' i 1 ++
      List.range' (i + 1) (zeroRun a i - 1) ++ List.range' (i + zeroRun a i) (8 - (i + zeroRun a i)) := by
    rw [List.range_eq_range']
    conv_lhs => rw [show 8 = 8 - (i + zeroRun a i) + (zeroRun a i - 1 + (1 + i)) by omega,
      ← List.range'_append_1, ← List.range'_append_1, ← List.range'_append_1]
    simp only [Nat.zero_add, Nat.add_comm 1 i, show zeroRun a i - 1 + (i + 1) = i + zeroRun a i by omega]
  have hpre := foldl_plain (a := a) (c := some i) i 0 [] (by omega) fun j hj h => by
    rw [List.mem_range'_1] at hj
    rw [Option.some_inj] at h; omega
  have hzero := fun out => foldl_zeros (a := a) (c := some i) (zeroRun a i - 1) (i + 1) out fun j hj => by
    rw [List.mem_range'_1] at hj
    simpa [show i + (j - i) = j by omega] using getD_of_lt_zeroRun (a := a) (i := i) (m := j - i) (by omega)
  have htail := fun out => foldl_tail (a := a) (c := some i) (8 - (i + zeroRun a i)) (i + zeroRun a i) out true
    (by omega) (fun hpos _ => getD_zeroRun_ne_zero (by omega)) fun j hj h => by
      rw [List.mem_range'_1] at hj
      rw [Option.some_inj] at h; omega
  have htake : (a.drop (i + zeroRun a i)).take (8 - (i + zeroRun a i)) = a.drop (i + zeroRun a i) :=
    List.take_of_length_le (by simp only [List.length_drop]; omega)
  rw [ipv6ToString_eq_foldl, hc, hsplit, List.foldl_append, List.foldl_append, List.foldl_append,
    hpre, List.range'_succ, List.range'_zero, List.foldl_cons, List.foldl_nil, toStringStep_compress,
    hzero, htail, map_getD_range' (by omega), map_getD_range' (by omega), List.drop_zero, htake,
    List.nil_append]
  rcases Nat.eq_zero_or_pos i with rfl | hi0
  · simp
  · rw [flatMap_hexDigits_colon (List.ne_nil_of_length_pos (by rw [List.length_take, hl]; omega)),
      if_neg (by omega)]
    simp

/-! ## Reading the text back -/

/-- **The serializer's text reads back.**  For every address of eight pieces below `2^16`,
`parse_ipv6_address` returns the address from the text `ipv6ToString` prints for it. -/
theorem parseIpv6Address_ipv6ToString {a : List Nat} (ha : Ipv6Pieces a) :
    parseIpv6Address (ipv6ToString a) = .ok (some a) := by
  obtain ⟨hl, hb⟩ := ha
  cases hc : ipv6Compress a with
  | none =>
    obtain ⟨x, xs, rfl⟩ := List.exists_cons_of_ne_nil (List.ne_nil_of_length_pos (by omega : 0 < a.length))
    obtain ⟨d, t, he, hd⟩ := hexText_cons x xs
    have hsd := splitDoubleColon_hexText (x :: xs)
    rw [he] at hsd
    rw [ipv6ToString_of_none hl hc, he, parseIpv6Address_groups hd hsd, ← he,
      groupsPieces_hexText true _ hb]
    simp [Option.filter, hl]
  | some i =>
    obtain ⟨hi, hk⟩ := ipv6Compress_some hc
    have hd := drop_eq_zeroRun a i
    have hlen : i + zeroRun a i ≤ 8 := by have := zeroRun_le a i; omega
    have hbd : ∀ x ∈ a.drop (i + zeroRun a i), x < 0x10000 := fun x hx =>
      hb x (List.mem_of_mem_drop hx)
    have hrun : a.take i ++ List.replicate (zeroRun a i) 0 ++ a.drop (i + zeroRun a i) = a := by
      rw [List.append_assoc, ← hd, List.take_append_drop]
    rw [ipv6ToString_of_some hl hc]
    rcases Nat.eq_zero_or_pos i with rfl | hi0
    · rw [List.take_zero, hexText_nil, List.nil_append, parseIpv6Address_leading_compress,
        groupsPieces_hexText true _ hbd, Option.some_bind, List.length_drop, hl,
        if_pos (by omega), show 8 - (8 - (0 + zeroRun a 0)) = zeroRun a 0 by omega]
      rw [List.take_zero, List.nil_append] at hrun
      rw [hrun]
    · obtain ⟨x, xs, hx⟩ := List.exists_cons_of_ne_nil
        (List.ne_nil_of_length_pos (by rw [List.length_take, hl]; omega : 0 < (a.take i).length))
      obtain ⟨d, t, he, hdc⟩ := hexText_cons x xs
      have hsd := splitDoubleColon_hexText_append (List.cons_ne_nil x xs)
        (hexText (a.drop (i + zeroRun a i)))
      rw [he] at hsd
      rw [hx, he, parseIpv6Address_compress hdc hsd, ← he, ← hx,
        groupsPieces_hexText false _ fun x hx => hb x (List.mem_of_mem_take hx),
        groupsPieces_hexText true _ hbd, Option.some_bind, Option.some_bind, List.length_take,
        List.length_drop, hl, if_pos (by omega),
        show 8 - (min i 8 + (8 - (i + zeroRun a i))) = zeroRun a i by omega, hrun]

/-- The text `ipv6ToString` prints for an address of eight pieces below `2^16`, between
brackets, parses to itself. -/
theorem parseHost_ipv6ToString {a : List Nat} (ha : Ipv6Pieces a) (isNotSpecial : Bool) :
    parseHost ('[' :: ipv6ToString a ++ [']']) isNotSpecial = .ok (some (ipv6ToString a)) := by
  have hlast : ('[' :: ipv6ToString a ++ [']']).getLastD '\x00' = ']' := by
    rw [List.getLastD_eq_getLast?, List.getLast?_concat]
    rfl
  have hhead : ('[' :: ipv6ToString a ++ [']']).headD '\x00' = '[' := rfl
  rw [parseHost, if_pos hhead, if_neg (not_not.2 hlast), List.cons_append, List.drop_one,
    List.tail_cons, List.dropLast_concat, parseIpv6Address_ipv6ToString ha]
  rfl

/-- What `parse_host` returns for a bracketed input is the text of an address of eight
pieces below `2^16`. -/
theorem parseHost_bracket {h h' : List Char} {isNotSpecial : Bool} (hb : h.headD '\x00' = '[')
    (hp : parseHost h isNotSpecial = .ok (some h')) : ∃ a, Ipv6Pieces a ∧ h' = ipv6ToString a := by
  rw [parseHost, if_pos hb] at hp
  split at hp
  · cases hp
  · cases hv : parseIpv6Address (h.drop 1).dropLast with
    | error e => rw [hv] at hp; cases hp
    | ok o =>
      rw [hv, ok_bind] at hp
      cases o with
      | none => cases hp
      | some a => cases hp; exact ⟨a, parseIpv6Address_pieces hv, rfl⟩

/-- **Bracketed hosts are fixed points too.**  A host `h'` that `parse_host(h, b)` returns for
an `h` that starts with `[` is the text of an IPv6 address; put back between brackets,
`parse_host` returns it unchanged, whatever the special flag. -/
theorem parseHost_bracket_idempotent {h h' : List Char} {isNotSpecial : Bool}
    (hb : h.headD '\x00' = '[') (hp : parseHost h isNotSpecial = .ok (some h'))
    (isNotSpecial' : Bool) : parseHost ('[' :: h' ++ [']']) isNotSpecial' = .ok (some h') := by
  obtain ⟨a, ha, rfl⟩ := parseHost_bracket hb hp
  exact parseHost_ipv6ToString ha isNotSpecial'

theorem parseHost_bracket_idempotent_compressed :
    "[1:0:0:0:0:FFFF:0:1]".toList.headD '\x00' = '[' ∧
      parseHost "[1:0:0:0:0:FFFF:0:1]".toList false = .ok (some "1::ffff:0:1".toList) ∧
      parseHost ('[' :: "1::ffff:0:1".toList ++ [']']) true = .ok (some "1::ffff:0:1".toList) :=
  have hp : parseHost "[1:0:0:0:0:FFFF:0:1]".toList false = .ok (some "1::ffff:0:1".toList) := rfl
  ⟨rfl, hp, parseHost_bracket_idempotent (by rfl) hp true⟩

end SkyrUrl
