import SkyrUrl.Basic

/-!
# The URL record and the parser context

`url_record`, the parse states, the actions a state handler returns and the
`url_parser_context` that the driver threads through the handlers.  The header that
declares the context and its cursor operations (`url_parser_context.hpp`) is not among
the sources: `is_eof`, `increment`, `decrement`, `reset` and `restart_from_buffer` are
modelled from the spec (§4.6.2, §9 "Input iteration"), with the position an integer index
into the sanitized input, so that a move before the first byte is visible.

A position at the end reads the `std::string`'s terminating NUL, which is the byte the
handlers see at EOF.
-/

namespace SkyrUrl

/-- `url_record`, with the fields the parser reads and writes.  The record's
`validation_error` field is never written by the parser and is left out. -/
structure UrlRecord where
  scheme : List Char := []
  username : List Char := []
  password : List Char := []
  host : Option (List Char) := none
  port : Option Nat := none
  path : List (List Char) := []
  query : Option (List Char) := none
  fragment : Option (List Char) := none
  cannotBeABaseUrl : Bool := false
  deriving DecidableEq, Repr

namespace UrlRecord

/-- `url_record::is_special`. -/
def isSpecial (url : UrlRecord) : Bool := SkyrUrl.isSpecial url.scheme

/-- `url_record::includes_credentials`. -/
def includesCredentials (url : UrlRecord) : Bool := url.username ≠ [] || url.password ≠ []

end UrlRecord

/-- `url_state` (also spelled `url_parse_state` in `url_parse.cpp`). -/
inductive UrlState
  | schemeStart
  | scheme
  | noScheme
  | specialRelativeOrAuthority
  | pathOrAuthority
  | relative
  | relativeSlash
  | specialAuthoritySlashes
  | specialAuthorityIgnoreSlashes
  | authority
  | host
  | hostname
  | port
  | file
  | fileSlash
  | fileHost
  | pathStart
  | path
  | cannotBeABaseUrlPath
  | query
  | fragment
  deriving DecidableEq, Repr

/-- `url_parse_action`, what a state handler asks of the driver. -/
inductive UrlParseAction
  | success
  | fail
  | increment
  | continue_
  deriving DecidableEq, Repr

/-- What escapes a handler instead of an action: `std::bad_optional_access` from `value()`
on an empty optional, or an index past the end of a vector or string (undefined
behaviour in the source). -/
inductive ParseAbort
  | badOptionalAccess
  | outOfRange
  deriving DecidableEq, Repr

/-- `url_parser_context`.  `input` is the sanitized input (`view`) and `it` the index of
the iterator into it.  The `validation_error` flag is written by the handlers but read by
nothing, and is left out. -/
structure UrlParserContext where
  input : List Char
  it : Int
  base : Option UrlRecord
  url : UrlRecord
  state : UrlState
  stateOverride : Option UrlState
  buffer : List Char
  atFlag : Bool
  squareBracesFlag : Bool
  passwordTokenSeenFlag : Bool
  deriving DecidableEq, Repr

/-- What a handler returns: its action and the context it leaves, or an abort. -/
abbrev HandlerResult := Except ParseAbort (UrlParseAction × UrlParserContext)

namespace UrlParserContext

/-- Modelled from the spec: `is_eof()`, the iterator is at `end(view)`. -/
def isEof (ctx : UrlParserContext) : Bool := ctx.it = ctx.input.length

/-- Modelled from the spec: `increment()`, one byte forward. -/
@[simp] def increment (ctx : UrlParserContext) : UrlParserContext := { ctx with it := ctx.it + 1 }

/-- Modelled from the spec: `decrement()`, the one-byte rewind. -/
@[simp] def decrement (ctx : UrlParserContext) : UrlParserContext := { ctx with it := ctx.it - 1 }

/-- Modelled from the spec: `reset()`, back to the first byte. -/
@[simp] def reset (ctx : UrlParserContext) : UrlParserContext := { ctx with it := 0 }

/-- Modelled from the spec: `restart_from_buffer()`, back by the buffer's length plus one,
so that the driver's next increment lands on the buffer's first byte again (§4.6.3,
"rewind input to start of buffer"). -/
@[simp] def restartFromBuffer (ctx : UrlParserContext) : UrlParserContext :=
  { ctx with it := ctx.it - ctx.buffer.length - 1 }

/-- The bytes from the iterator to `end(view)`. -/
def remaining (ctx : UrlParserContext) : List Char := ctx.input.drop ctx.it.toNat

/-- `*it`: the byte at the iterator, the terminating NUL at the end. -/
def byte (ctx : UrlParserContext) : Char := ctx.remaining.headD '\x00'

/-- `remaining_starts_with(it, end(view), chars)`: the bytes after the iterator start
with `chars` (the loop reads the terminating NUL when the input ends first, which no
pattern contains). -/
def remainingStartsWith (ctx : UrlParserContext) (chars : List Char) : Bool :=
  chars.isPrefixOf (ctx.remaining.drop 1)

end UrlParserContext

/-! ## Sanitization and the initial context -/

/-- `is_whitespace`: true for a byte that is kept.  The source's predicate returns the
negation of its name: `!(isspace(ch) || ch ∈ "\0\x1b\x04\x12\x1f")`. -/
def isWhitespace (ch : Char) : Bool :=
  !(isSpace ch || ch ∈ ['\x00', '\x1b', '\x04', '\x12', '\x1f'])

/-- `remove_leading_whitespace`: the input from its first kept byte, and whether nothing
was removed. -/
def removeLeadingWhitespace (input : List Char) : List Char × Bool :=
  let rest := input.dropWhile (fun c => !isWhitespace c)
  (rest, rest.length = input.length)

/-- `remove_trailing_whitespace`: the input up to its last kept byte, and whether nothing
was removed. -/
def removeTrailingWhitespace (input : List Char) : List Char × Bool :=
  let rest := (input.reverse.dropWhile (fun c => !isWhitespace c)).reverse
  (rest, rest.length = input.length)

/-- `remove_tabs_and_newlines`: the input without `\t`, `\r`, `\n`, and whether nothing
was removed. -/
def removeTabsAndNewlines (input : List Char) : List Char × Bool :=
  let rest := input.filter (fun c => c ∉ ['\t', '\r', '\n'])
  (rest, rest.length = input.length)

/-- The input as the constructor leaves it. -/
def sanitize (input : List Char) : List Char :=
  (removeTabsAndNewlines (removeTrailingWhitespace (removeLeadingWhitespace input).1).1).1

/-- The constructor `url_parser_context(input, base, url, state_override)`. -/
def UrlParserContext.init (input : List Char) (base url : Option UrlRecord)
    (stateOverride : Option UrlState) : UrlParserContext :=
  { input := sanitize input
    it := 0
    base := base
    url := url.getD {}
    state := stateOverride.getD .schemeStart
    stateOverride := stateOverride
    buffer := []
    atFlag := false
    squareBracesFlag := false
    passwordTokenSeenFlag := false }

@[simp] theorem UrlParserContext.init_input (input : List Char) (base url : Option UrlRecord)
    (o : Option UrlState) : (UrlParserContext.init input base url o).input = sanitize input :=
  rfl

/-! ## What sanitization removes

The constructor strips the bytes `is_whitespace` rejects from both ends, then removes tabs
and newlines everywhere.  Tabs and newlines are among the stripped bytes, so removing them
beforehand changes nothing, and stripped bytes added at either end are stripped again. -/

section Strip

variable {p q : Char → Bool}

/-- Stripping a prefix commutes with filtering out bytes that the stripping removes. -/
theorem dropWhile_filter (hpq : ∀ c, q c = false → p c = true) : ∀ l : List Char,
    (l.filter q).dropWhile p = (l.dropWhile p).filter q
  | [] => rfl
  | c :: l => by
    by_cases hq : q c
    · by_cases hp : p c
      · rw [List.filter_cons_of_pos hq, List.dropWhile_cons_of_pos hp,
          List.dropWhile_cons_of_pos hp, dropWhile_filter hpq l]
      · rw [List.dropWhile_cons_of_neg hp, List.filter_cons_of_pos hq,
          List.dropWhile_cons_of_neg hp]
    · rw [List.filter_cons_of_neg hq, List.dropWhile_cons_of_pos (hpq c (by simpa using hq)),
        dropWhile_filter hpq l]

theorem dropWhile_of_forall : ∀ {l : List Char}, (∀ c ∈ l, p c = true) → l.dropWhile p = []
  | [], _ => rfl
  | c :: l, h => by
    rw [List.dropWhile_cons_of_pos (h c (List.mem_cons_self _ _))]
    exact dropWhile_of_forall fun x hx => h x (List.mem_cons_of_mem _ hx)

theorem dropWhile_of_forall_not : ∀ {l : List Char}, (∀ c ∈ l, p c = false) → l.dropWhile p = l
  | [], _ => rfl
  | c :: _, h => List.dropWhile_cons_of_neg (by simp [h c (List.mem_cons_self _ _)])

end Strip

theorem tab_or_newline_stripped (c : Char) :
    decide (c ∉ ['\t', '\r', '\n']) = false → (!isWhitespace c) = true := by
  simp only [List.mem_cons, List.mem_singleton, List.not_mem_nil, or_false, decide_eq_false_iff_not,
    not_not]
  rintro (rfl | rfl | rfl) <;> rfl

/-- Removing tabs and newlines before the constructor changes nothing. -/
theorem sanitize_removeTabsAndNewlines (input : List Char) :
    sanitize (removeTabsAndNewlines input).1 = sanitize input := by
  simp only [sanitize, removeTabsAndNewlines, removeTrailingWhitespace, removeLeadingWhitespace,
    dropWhile_filter tab_or_newline_stripped, ← List.filter_reverse, List.filter_filter,
    Bool.and_self]

/-- Stripped bytes added at either end are stripped again. -/
theorem sanitize_append_stripped {l r : List Char} (hl : ∀ c ∈ l, isWhitespace c = false)
    (hr : ∀ c ∈ r, isWhitespace c = false) (input : List Char) :
    sanitize (l ++ input ++ r) = sanitize input := by
  have hl' : ∀ c ∈ l, (!isWhitespace c) = true := by simpa using hl
  have hr' : ∀ c ∈ r, (!isWhitespace c) = true := by simpa using hr
  simp only [sanitize, removeTabsAndNewlines, removeTrailingWhitespace, removeLeadingWhitespace,
    List.append_assoc, List.dropWhile_append_of_pos hl', List.dropWhile_append]
  split
  · rename_i he
    rw [List.isEmpty_iff.1 he, dropWhile_of_forall hr']
  · rw [List.reverse_append, List.dropWhile_append_of_pos (by simpa using hr')]

/-- A text of kept bytes without tabs or newlines is its own sanitization. -/
theorem sanitize_of_kept {s : List Char}
    (h : ∀ c ∈ s, isWhitespace c = true ∧ c ∉ ['\t', '\r', '\n']) : sanitize s = s := by
  have hp : ∀ c ∈ s, (!isWhitespace c) = false := fun c hc => by simp [(h c hc).1]
  simp only [sanitize, removeTabsAndNewlines, removeTrailingWhitespace, removeLeadingWhitespace,
    dropWhile_of_forall_not hp, dropWhile_of_forall_not (p := fun c => !isWhitespace c)
      (l := s.reverse) (by simpa using hp), List.reverse_reverse]
  exact List.filter_eq_self.2 fun c hc => by simpa using (h c hc).2

/-- The bytes that sanitization removes are all at most `0x20`. -/
theorem toNat_le_of_removed {c : Char} (h : isWhitespace c = false ∨ c ∈ ['\t', '\r', '\n']) :
    c.toNat ≤ 0x20 := by
  have hl : ∀ l : List Char, (∀ d ∈ l, d.toNat ≤ 0x20) → c ∈ l → c.toNat ≤ 0x20 :=
    fun l hl hc => hl c hc
  rcases h with h | h
  · simp only [isWhitespace, isSpace, Bool.not_eq_false', Bool.or_eq_true, decide_eq_true_eq] at h
    rcases h with (((((rfl | rfl) | rfl) | rfl) | rfl) | rfl) | h
    any_goals decide
    exact hl _ (by decide) h
  · exact hl _ (by decide) h

/-- A text of bytes above `0x20` is its own sanitization. -/
theorem sanitize_of_printable {s : List Char} (h : ∀ c ∈ s, 0x20 < c.toNat) : sanitize s = s :=
  sanitize_of_kept fun c hc => by
    have := h c hc
    exact ⟨Bool.not_eq_false _ ▸ fun hw => absurd (toNat_le_of_removed (.inl hw)) (by omega),
      fun ht => absurd (toNat_le_of_removed (.inr ht)) (by omega)⟩

end SkyrUrl
