import Mathlib.Data.List.Basic
import Mathlib.Algebra.Order.Ring.Nat
import Mathlib.Data.Nat.Digits

/-!
# Bytes, the scheme table and the percent codec

The parser of `url_parser_context.cpp` reads the bytes of a `std::string`.  A byte is
modelled as a `Char`: every theorem of this development is stated for every list of
characters, so in particular for every byte string.  The character classes are those of
the C locale, which the source selects with `std::locale("C")`.

The scheme table (`url_schemes.hpp`) and `pct_encode_char` / `pct_decode`
(`skyr/url/details/encode.hpp`, `decode.hpp`) are not among the sources; they are
modelled from the spec (§3 "Scheme registry", §4.1).
-/

namespace SkyrUrl

/-! ## Character classes -/

/-- `std::isspace` in the C locale. -/
def isSpace (c : Char) : Bool :=
  c = ' ' || c = '\t' || c = '\n' || c = '\x0b' || c = '\x0c' || c = '\r'

/-- `std::isxdigit` in the C locale. -/
def isXdigit (c : Char) : Bool :=
  c.isDigit || ('a' ≤ c && c ≤ 'f') || ('A' ≤ c && c ≤ 'F')

theorem charToNat_ofNat {n : Nat} (h : n < 0xd800) : (Char.ofNat n).toNat = n := by
  simp [Char.ofNat, Char.ofNatAux, Nat.isValidChar, Char.toNat, h]; rfl

/-- `hex_to_dec`: the value of a hexadecimal digit. -/
def hexToDec (c : Char) : Nat :=
  let lower := c.toLower
  if lower.isDigit then lower.toNat - '0'.toNat else lower.toNat - 'a'.toNat + 10

/-! ## The scheme table -/

/-- Modelled from the spec: the default ports of `url_schemes.hpp` (§3, "Scheme registry":
`ftp→21, file→-, http→80, https→443, ws→80, wss→443`). -/
def defaultPort (scheme : List Char) : Option Nat :=
  if scheme = "ftp".toList then some 21
  else if scheme = "http".toList then some 80
  else if scheme = "https".toList then some 443
  else if scheme = "ws".toList then some 80
  else if scheme = "wss".toList then some 443
  else none

/-- Modelled from the spec: `details::is_special`, membership in the special-scheme set. -/
def isSpecial (scheme : List Char) : Bool :=
  scheme ∈ ["ftp".toList, "file".toList, "http".toList, "https".toList, "ws".toList,
    "wss".toList]

/-- Modelled from the spec: `details::is_default_port`. -/
def isDefaultPort (scheme : List Char) (port : Nat) : Bool :=
  defaultPort scheme = some port

/-! ## The percent codec -/

/-- An uppercase hexadecimal digit. -/
def hexDigit (n : Nat) : Char :=
  if n < 10 then Char.ofNat ('0'.toNat + n) else Char.ofNat ('A'.toNat + n - 10)

/-- Modelled from the spec: `details::pct_encode_char(c, out, includes)` (§4.1).  A byte
below `0x20` or above `0x7E`, or one of `includes`, becomes `%XX` (uppercase hex); any
other byte is copied. -/
def pctEncodeChar (c : Char) (includes : List Char := []) : List Char :=
  if c.toNat < 0x20 ∨ 0x7E < c.toNat ∨ c ∈ includes then
    ['%', hexDigit (c.toNat / 16 % 16), hexDigit (c.toNat % 16)]
  else [c]

/-- The set `parse_fragment` passes to `pct_encode_char`. -/
def fragmentSet : List Char := " \"<>\x60".toList

/-- The set `parse_query` passes to `pct_encode_char`. -/
def querySet : List Char := " \"#<>".toList

/-- The set `parse_path` passes to `pct_encode_char`. -/
def pathSet : List Char := " \"<>\x60#?\x7b\x7d".toList

/-- The set `parse_authority` passes to `pct_encode_char` for the userinfo. -/
def userinfoSet : List Char := " \"<>\x60#?\x7b\x7d/:;=@[\\]^|".toList

/-- The byte that the escape `%ab` spells. -/
def pctDecodeByte (a b : Char) : Char := Char.ofNat (hexToDec a * 16 + hexToDec b)

/-- The decoding loop over the bytes from the iterator; `skip` counts the two hex digits
of an escape that was already decoded (the iterator moves past them). -/
def pctDecodeFrom : Nat → List Char → List Char
  | _, [] => []
  | skip + 1, _ :: rest => pctDecodeFrom skip rest
  | 0, c :: rest =>
    match c, rest with
    | '%', a :: b :: _ =>
      if isXdigit a ∧ isXdigit b then pctDecodeByte a b :: pctDecodeFrom 2 rest
      else '%' :: pctDecodeFrom 0 rest
    | c, _ => c :: pctDecodeFrom 0 rest

/-- Modelled from the spec: `details::pct_decode` (§4.1).  `%` and two hex digits become
the byte they spell; a `%` not so followed is copied. -/
def pctDecode (input : List Char) : List Char := pctDecodeFrom 0 input

/-! ## Path segments -/

/-- `is_single_dot_path_segment`. -/
def isSingleDotPathSegment (segment : List Char) : Bool :=
  let lower := segment.map Char.toLower
  lower = ".".toList || lower = "%2e".toList

/-- `is_double_dot_path_segment`. -/
def isDoubleDotPathSegment (segment : List Char) : Bool :=
  let lower := segment.map Char.toLower
  lower = "..".toList || lower = ".%2e".toList || lower = "%2e.".toList ||
    lower = "%2e%2e".toList

/-- `is_windows_drive_letter(it, last)`: at least two bytes, the first an ASCII letter and
the second `:` or `|`.  Only the first two bytes are read. -/
def isWindowsDriveLetter : List Char → Bool
  | a :: b :: _ => a.isAlpha && (b = ':' || b = '|')
  | _ => false

/-- `shorten_path`: drop the last segment, except the sole drive letter of a `file` path. -/
def shortenPath (scheme : List Char) (path : List (List Char)) : List (List Char) :=
  if path = [] then path
  else if scheme = "file".toList ∧ path.length = 1 ∧ isWindowsDriveLetter (path.headD []) then
    path
  else path.dropLast

end SkyrUrl
