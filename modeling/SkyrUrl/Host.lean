import SkyrUrl.Context

/-!
# Host parsing

`parse_host` and what it calls: the IPv6 parser with its embedded dotted quad, the
WHATWG IPv4 parser over `std::stoul`, the opaque-host encoder and the lowercasing
`domain_to_ascii`; and the two helpers of `parse_port`.

`std::strtoul` / `std::stoul` are modelled as glibc computes them with a 64-bit
`unsigned long`.  `ipv4_address::to_string` and `ipv6_address::to_string` are not among
the sources and are modelled from the spec (§4.2, §4.3).  In `parse_ipv6_address` the
view ends just before the host's `]`, and a read at the end (`*last`) sees that byte.
-/

namespace SkyrUrl

/-- `value()` on an optional: its value, or `std::bad_optional_access`. -/
def valueOf {α : Type} : Option α → Except ParseAbort α
  | some a => pure a
  | none => throw .badOptionalAccess

@[simp] theorem valueOf_some {α : Type} (a : α) : valueOf (some a) = pure a := rfl

@[simp] theorem valueOf_none {α : Type} : valueOf (none : Option α) = throw .badOptionalAccess :=
  rfl

@[simp] theorem throw_bind {α β : Type} (e : ParseAbort) (f : α → Except ParseAbort β) :
    (throw e >>= f) = throw e := rfl

theorem ok_bind {α β : Type} (a : α) (f : α → Except ParseAbort β) :
    (Except.ok a >>= f) = f a := rfl

@[simp] theorem pure_eq_ok {α : Type} {a b : α} : (pure a : Except ParseAbort α) = .ok b ↔ a = b :=
  ⟨Except.ok.inj, congrArg _⟩

theorem bind_eq_ok {α β : Type} {x : Except ParseAbort α} {f : α → Except ParseAbort β} {b : β} :
    x >>= f = .ok b ↔ ∃ a, x = .ok a ∧ f a = .ok b := by
  cases x <;> simp [bind, Except.bind]

@[simp] theorem throw_ne_ok {α : Type} {e : ParseAbort} {b : α} :
    (throw e : Except ParseAbort α) ≠ .ok b := nofun

/-! What holds of every success of each branch holds of every success of the computation:
a property of a handler's results is proved by descending its branches, binds and returns
with these, leaving the conditions and the bound values in its records unsplit. -/

theorem forall_ok_ite {α : Type} {p : Prop} [Decidable p] {x y : Except ParseAbort α}
    {P : α → Prop} (hx : p → ∀ b, x = .ok b → P b) (hy : ¬p → ∀ b, y = .ok b → P b) :
    ∀ b, (if p then x else y) = .ok b → P b :=
  iteInduction (motive := fun r : Except ParseAbort α => ∀ b, r = .ok b → P b) hx hy

theorem forall_ok_bind {α β : Type} {x : Except ParseAbort α} {f : α → Except ParseAbort β}
    {P : β → Prop} (hf : ∀ a b, f a = .ok b → P b) : ∀ b, x >>= f = .ok b → P b := fun b h => by
  obtain ⟨a, -, ha⟩ := bind_eq_ok.1 h
  exact hf a b ha

theorem forall_ok_pure {α : Type} {a : α} {P : α → Prop} (h : P a) :
    ∀ b, (pure a : Except ParseAbort α) = .ok b → P b := fun _ hb => pure_eq_ok.1 hb ▸ h

theorem forall_ok_throw {α : Type} {e : ParseAbort} {P : α → Prop} :
    ∀ b, (throw e : Except ParseAbort α) = .ok b → P b := fun _ h => absurd h throw_ne_ok

/-! ## Numbers -/

/-- The value of `c` as a digit of radix `base`, if it is one (letters of either case
stand for 10 to 35). -/
def digitValue (base : Nat) (c : Char) : Option Nat :=
  let d :=
    if c.isDigit then some (c.toNat - '0'.toNat)
    else if 'a' ≤ c ∧ c ≤ 'z' then some (c.toNat - 'a'.toNat + 10)
    else if 'A' ≤ c ∧ c ≤ 'Z' then some (c.toNat - 'A'.toNat + 10)
    else none
  d.filter (· < base)

/-- The digits of radix `base` at the front of the input folded into `acc`, and their
count added to `count`. -/
def readDigits (base : Nat) : List Char → Nat → Nat → Nat × Nat
  | [], acc, count => (acc, count)
  | c :: rest, acc, count =>
    match digitValue base c with
    | some d => readDigits base rest (acc * base + d) (count + 1)
    | none => (acc, count)

/-- `0x` or `0X` followed by a hex digit, the prefix `strtoul` skips in base 16. -/
def hasHexPrefix : List Char → Bool
  | '0' :: x :: d :: _ => (x = 'x' || x = 'X') && isXdigit d
  | _ => false

/-- `std::strtoul(s, &end, base)` with 64-bit `unsigned long`: the value (saturated at
`ULONG_MAX` on overflow, negated modulo `2^64` after a `-`), the number of bytes read
(`0` when no digit was) and whether it overflowed (`errno = ERANGE`). -/
def strtoul (s : List Char) (base : Nat) : Nat × Nat × Bool :=
  let spaces := (s.takeWhile isSpace).length
  let s1 := s.drop spaces
  let (negative, signLength) : Bool × Nat :=
    match s1 with
    | '+' :: _ => (false, 1)
    | '-' :: _ => (true, 1)
    | _ => (false, 0)
  let s2 := s1.drop signLength
  let prefixLength := if base = 16 ∧ hasHexPrefix s2 then 2 else 0
  let (value, count) := readDigits base (s2.drop prefixLength) 0 0
  let consumed := spaces + signLength + prefixLength + count
  if count = 0 then (0, 0, false)
  else if 2 ^ 64 ≤ value then (2 ^ 64 - 1, consumed, true)
  else ((if negative then 2 ^ 64 - value else value) % 2 ^ 64, consumed, false)

/-- `std::stoul(s, nullptr, base)`: `none` where it throws (`invalid_argument` when no
digit is read, `out_of_range` on overflow). -/
def stoul (s : List Char) (base : Nat) : Option Nat :=
  match strtoul s base with
  | (value, consumed, erange) => if consumed = 0 ∨ erange then none else some value

/-- `is_valid_port`: `strtoul` reads the whole buffer, at least one byte, and the value is
below `std::numeric_limits<std::uint16_t>::max()`. -/
def isValidPort (port : List Char) : Bool :=
  match strtoul port 10 with
  | (value, consumed, _) => consumed = port.length ∧ consumed ≠ 0 ∧ value < 65535

/-- `std::atoi` on the port buffer, which holds decimal digits only: their value. -/
def atoi (s : List Char) : Nat := (readDigits 10 s 0 0).1

/-! ## IPv4 -/

/-- `parse_ipv4_number`: a `0x`/`0X` prefix selects radix 16, another leading `0` of a part
of two or more bytes radix 8; an empty remainder is `0`. -/
def parseIpv4Number (input : List Char) : Option Nat :=
  let (input, R) : List Char × Nat :=
    match input with
    | '0' :: x :: rest => if x.toLower = 'x' then (rest, 16) else (x :: rest, 8)
    | _ => (input, 10)
  if input = [] then some 0 else stoul input R

/-- The parts' numbers, or `none` as soon as a part is empty or not a number. -/
def parseIpv4Parts : List (List Char) → Option (List Nat)
  | [] => some []
  | part :: parts =>
    if part = [] then none
    else match parseIpv4Number part, parseIpv4Parts parts with
      | some n, some ns => some (n :: ns)
      | _, _ => none

/-- The `counter` loop: `ipv4 + Σ numbers[i] * 256^(3 - i)` for `i` from `counter`. -/
def ipv4Fold : List Nat → Nat → Nat → Nat
  | [], _, ipv4 => ipv4
  | number :: numbers, counter, ipv4 => ipv4Fold numbers (counter + 1) (ipv4 + number * 256 ^ (3 - counter))

/-- Modelled from the spec: `ipv4_address::to_string` (§4.2), four dotted decimals, the
most significant byte first. -/
def ipv4ToString (address : Nat) : List Char :=
  Nat.toDigits 10 (address / 2 ^ 24 % 256) ++ ['.'] ++ Nat.toDigits 10 (address / 2 ^ 16 % 256) ++
    ['.'] ++ Nat.toDigits 10 (address / 2 ^ 8 % 256) ++ ['.'] ++ Nat.toDigits 10 (address % 256)

/-- `parse_ipv4_address`: the input itself when it is not an IPv4 number, `none` when a
number is out of range, the dotted-decimal address otherwise.  All values are below
`2^53`, so the `double` arithmetic of `std::pow` is exact; the `uint64` result is narrowed
to the 32-bit `ipv4_address`. -/
def parseIpv4Address (input : List Char) : Option (List Char) :=
  let parts := input.splitOn '.'
  let parts := if parts.getLastD [] = [] ∧ 1 < parts.length then parts.dropLast else parts
  if 4 < parts.length then some input
  else match parseIpv4Parts parts with
    | none => some input
    | some numbers =>
      if numbers.dropLast.any (· > 255) then none
      else if 256 ^ (5 - numbers.length) ≤ numbers.getLastD 0 then none
      else some (ipv4ToString (ipv4Fold numbers.dropLast 0 (numbers.getLastD 0) % 2 ^ 32))

/-! ## IPv6 -/

/-- The hex-digit loop: at most four digits, with the value and count so far. -/
def readHexPiece : List Char → Nat → Nat → Nat × Nat × List Char
  | [], value, length => (value, length, [])
  | c :: rest, value, length =>
    if length < 4 ∧ isXdigit c then readHexPiece rest (value * 0x10 + hexToDec c) (length + 1)
    else (value, length, c :: rest)

/-- The digit loop of the dotted quad: `ipv4_piece` after the digits at the front of the
input, and the bytes after them; `none` on a leading zero or a value over 255. -/
def readIpv4Piece : List Char → Option Nat → Option (Option Nat × List Char)
  | [], piece => some (piece, [])
  | c :: rest, piece =>
    if c.isDigit then
      let number := c.toNat - '0'.toNat
      match piece with
      | none => readIpv4Piece rest (some number)
      | some 0 => none
      | some v => if 255 < v * 10 + number then none else readIpv4Piece rest (some (v * 10 + number))
    else some (piece, c :: rest)

/-- The separator test at the top of the dotted-quad loop: after the first number, a `.`
is skipped while fewer than four numbers were read; anything else fails. -/
def skipIpv4Separator (numbersSeen : Nat) (rest : List Char) : Option (List Char) :=
  if 0 < numbersSeen then
    match rest with
    | '.' :: r => if numbersSeen < 4 then some r else none
    | _ => none
  else some rest

/-- The dotted-quad loop of `parse_ipv6_address`, with `numbers_seen`, the pieces and
`piece_index`; each pass reads a byte, so the input's length bounds `fuel`. -/
def ipv6DottedQuad : Nat → List Char → Nat → List Nat → Nat →
    Except ParseAbort (Option (List Nat × Nat))
  | 0, _, _, _, _ => pure none
  | fuel + 1, rest, numbersSeen, address, pieceIndex =>
    if rest = [] then pure (if numbersSeen ≠ 4 then none else some (address, pieceIndex))
    else
      match skipIpv4Separator numbersSeen rest with
      | none => pure none
      | some r =>
        if !(r.headD ']').isDigit then pure none
        else match readIpv4Piece r none with
          | none => pure none
          | some (piece, r') => do
            let v ← valueOf piece
            let address := address.set pieceIndex (address.getD pieceIndex 0 * 0x100 + v)
            let pieceIndex := if numbersSeen + 1 = 2 ∨ numbersSeen + 1 = 4 then pieceIndex + 1 else pieceIndex
            ipv6DottedQuad fuel r' (numbersSeen + 1) address pieceIndex

/-- The main loop of `parse_ipv6_address` over the bytes from the iterator, with the
pieces, `piece_index` and `compress`; it ends with those three, or `none` on failure.
Each pass reads a byte, so the input's length bounds `fuel`. -/
def ipv6Main : Nat → List Char → List Nat → Nat → Option Nat →
    Except ParseAbort (Option (List Nat × Nat × Option Nat))
  | 0, _, _, _, _ => pure none
  | fuel + 1, rest, address, pieceIndex, compress =>
    match rest with
    | [] => pure (some (address, pieceIndex, compress))
    | c :: tail =>
      if pieceIndex = 8 then pure none
      else if c = ':' then
        if compress.isSome then pure none
        else ipv6Main fuel tail address (pieceIndex + 1) (some (pieceIndex + 1))
      else
        match readHexPiece rest 0 0 with
        | (value, length, r) =>
          match r with
          | '.' :: _ =>
            if length = 0 then pure none
            else if 6 < pieceIndex then pure none
            else do
              match ← ipv6DottedQuad (rest.length + 1) rest 0 address pieceIndex with
              | none => pure none
              | some (address, pieceIndex) => pure (some (address, pieceIndex, compress))
          | ':' :: r' =>
            if r' = [] then pure none
            else ipv6Main fuel r' (address.set pieceIndex value) (pieceIndex + 1) compress
          | [] => ipv6Main fuel [] (address.set pieceIndex value) (pieceIndex + 1) compress
          | _ :: _ => pure none

/-- The swap loop that moves the pieces after `compress` to the tail. -/
def ipv6Swap (compress : Nat) : Nat → Nat → List Nat → List Nat
  | 0, _, address => address
  | _, 0, address => address
  | swaps + 1, pieceIndex + 1, address =>
    ipv6Swap compress swaps pieceIndex
      ((address.set (pieceIndex + 1) (address.getD (compress + swaps) 0)).set (compress + swaps)
        (address.getD (pieceIndex + 1) 0))

/-- `parse_ipv6_address`: the eight pieces, or `none`. -/
def parseIpv6Address (input : List Char) : Except ParseAbort (Option (List Nat)) := do
  let start : Option (List Char × Nat × Option Nat) :=
    match input with
    | ':' :: ':' :: rest => some (rest, 1, some 1)
    | ':' :: _ => none
    | _ => some (input, 0, none)
  match start with
  | none => pure none
  | some (rest, pieceIndex, compress) =>
    match ← ipv6Main (rest.length + 1) rest (List.replicate 8 0) pieceIndex compress with
    | none => pure none
    | some (address, pieceIndex, some c) => pure (some (ipv6Swap c (pieceIndex - c) 7 address))
    | some (address, pieceIndex, none) => pure (if pieceIndex ≠ 8 then none else some address)

/-- The length of the run of zero pieces from index `i`. -/
def zeroRun (address : List Nat) (i : Nat) : Nat := ((address.drop i).takeWhile (· = 0)).length

/-- The first longest run of at least two zero pieces, if any. -/
def ipv6Compress (address : List Nat) : Option Nat :=
  (List.range 8).foldl (fun best i =>
    if 2 ≤ zeroRun address i ∧ best.all (fun b => zeroRun address b < zeroRun address i) then
      some i
    else best) none

/-- Modelled from the spec: `ipv6_address::to_string` (§4.3, last item): lowercase hex
pieces without leading zeros, the first longest run of two or more zero pieces
compressed to `::`. -/
def ipv6ToString (address : List Nat) : List Char :=
  let compress := ipv6Compress address
  ((List.range 8).foldl (fun (acc : List Char × Bool) i =>
    let (output, ignore0) := acc
    let piece := address.getD i 0
    if ignore0 ∧ piece = 0 then (output, true)
    else if compress = some i then (output ++ (if i = 0 then "::".toList else [':']), true)
    else (output ++ Nat.toDigits 16 piece ++ (if i ≠ 7 then [':'] else []), false))
    ([], false)).1

/-! ## Hosts -/

/-- `is_forbidden_host_point`: the bytes of `"\0\t\n\r #%/:?@[\\]"`. -/
def isForbiddenHostPoint (c : Char) : Bool :=
  c ∈ ['\x00', '\t', '\n', '\r', ' ', '#', '%', '/', ':', '?', '@', '[', '\\', ']']

/-- The bytes `parse_opaque_host` rejects: those of `"\0\t\n\r #/:?@[\\]"`. -/
def isForbiddenOpaqueHostPoint (c : Char) : Bool :=
  c ∈ ['\x00', '\t', '\n', '\r', ' ', '#', '/', ':', '?', '@', '[', '\\', ']']

/-- `parse_opaque_host`: reject a forbidden byte, else percent-encode each byte (C0
controls and bytes above `0x7E` only). -/
def parseOpaqueHost (input : List Char) : Option (List Char) :=
  if input.any isForbiddenOpaqueHostPoint then none
  else some (input.flatMap (pctEncodeChar ·))

/-- `domain_to_ascii`: ASCII lowercasing. -/
def domainToAscii (input : List Char) : List Char := input.map Char.toLower

/-- `parse_host(input, is_not_special)`.  `input.front()` of an empty view reads the NUL
after the buffer. -/
def parseHost (input : List Char) (isNotSpecial : Bool := false) :
    Except ParseAbort (Option (List Char)) :=
  if input.headD '\x00' = '[' then
    if input.getLastD '\x00' ≠ ']' then pure none
    else do
      match ← parseIpv6Address (input.drop 1).dropLast with
      | some address => pure (some (ipv6ToString address))
      | none => pure none
  else if isNotSpecial then pure (parseOpaqueHost input)
  else
    let asciiDomain := domainToAscii (pctDecode input)
    if asciiDomain.any isForbiddenHostPoint then pure none
    else pure (parseIpv4Address asciiDomain)

end SkyrUrl
