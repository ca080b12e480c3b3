import SkyrUrl.Resolution
import SkyrUrl.Shape

/-!
# The query and fragment setters

A setter re-parses one component by entering the loop at that component's state with the
record to change: `basic_parse(s, none, r, query)` and `basic_parse(s, none, r, fragment)`.
Under an override the query state does not leave for the fragment state at `#`, and the
fragment state has no way out, so both runs read the whole sanitized input into their
component.

* `query_override_run`, `fragment_override_run`: what the run returns, for every record and
  every input: the component with the encoding of the input appended; and, when the record
  has no such component, the record itself if there is nothing to append, or else the
  `bad_optional_access` that `url.query.value()` (`url.fragment.value()`) throws;
* `query_setter_roundtrip`, `fragment_setter_roundtrip`: setting an empty component to a
  text made of the bytes its encoding lets through gives that text back.
-/

namespace SkyrUrl

open UrlParserContext

/-! ## Passes at the end of the input -/

section Pass

variable {ctx : UrlParserContext}

theorem isEof_of_remaining_nil (h0 : 0 ≤ ctx.it) (hl : ctx.it ≤ ctx.input.length)
    (hr : ctx.remaining = []) : ctx.isEof = true := by
  have := congrArg List.length hr
  simp only [remaining, List.length_drop, List.length_nil] at this
  simp only [isEof, decide_eq_true_eq]; omega

theorem it_lt_of_remaining_cons {c : Char} {r : List Char} (hr : ctx.remaining = c :: r) :
    ctx.it.toNat < ctx.input.length := by
  have := congrArg List.length hr
  simp only [remaining, List.length_drop, List.length_cons] at this; omega

theorem remaining_nil_byte (hr : ctx.remaining = []) : ctx.byte = '\x00' := by
  simp [byte, hr]

/-- At EOF the query state returns the record. -/
theorem loopBody_query_eof (hs : ctx.state = .query) (he : ctx.isEof = true)
    (hr : ctx.remaining = []) : loopBody ctx = .done (.ok ctx.url) := by
  simp [loopBody, dispatch, hs, parseFuncs, parseQuery, remaining_nil_byte hr, he, pure,
    Except.pure, afterAction]

/-- At EOF the fragment state reads the terminating NUL and returns the record. -/
theorem loopBody_fragment_eof (hs : ctx.state = .fragment) (he : ctx.isEof = true)
    (hr : ctx.remaining = []) : loopBody ctx = .done (.ok ctx.url) := by
  simp only [loopBody, dispatch, hs, parseFuncs, parseFragment, remaining_nil_byte hr, if_true]
  simp [pure, Except.pure, afterAction, he]

end Pass

/-! ## The runs -/

/-- **The query state under an override reads the rest of the input.**  Each byte, `#`
included, is percent-encoded onto the query, and at the end the loop returns the record. -/
theorem terminates_query : ∀ (r : List Char) {ctx : UrlParserContext} {acc : List Char}
    {o : ParseOutcome}, ctx.state = .query → ctx.stateOverride ≠ none →
    ctx.url.query = some acc → 0 ≤ ctx.it → ctx.it ≤ ctx.input.length → ctx.remaining = r →
    .ok { ctx.url with query := some (acc ++ r.flatMap (pctEncodeChar · querySet)) } = o →
    Terminates ctx o
  | [], ctx, acc, o, hs, _, hq, h0, hl, hr, ho => by
    refine ⟨ctx, .refl, ?_⟩
    rw [loopBody_query_eof hs (isEof_of_remaining_nil h0 hl hr) hr, ← ho, List.flatMap_nil,
      List.append_nil, ← hq]
  | c :: r, ctx, acc, o, hs, hov, hq, h0, hl, hr, ho => by
    have hd : dispatch ctx = .ok (.increment, { ctx with url := { ctx.url with
        query := some (acc ++ pctEncodeChar c querySet) } }) := by
      simp [dispatch, hs, parseFuncs, parseQuery, hov, isEof_eq_false_of_remaining hr, hq,
        byte_of_remaining hr]
    have hlen := it_lt_of_remaining_cons hr
    rw [terminates_of_step (step_of_increment_remaining hd hr)]
    refine terminates_query r hs hov rfl (by simp only [increment]; omega)
      (by simp only [increment]; omega) (remaining_increment h0 hr) ?_
    simp [← ho]

/-- The query state under an override, on a record without a query: the first byte before
EOF calls `url.query.value()` on an empty optional. -/
theorem loopBody_query_none {ctx : UrlParserContext} {c : Char} {r : List Char}
    (hs : ctx.state = .query) (hov : ctx.stateOverride ≠ none) (hq : ctx.url.query = none)
    (hr : ctx.remaining = c :: r) : loopBody ctx = .done (.aborted .badOptionalAccess) := by
  simp [loopBody, dispatch, hs, parseFuncs, parseQuery, hov, isEof_eq_false_of_remaining hr, hq]
  rfl

/-- The fragment state on a record without a fragment skips NUL bytes, and calls
`url.fragment.value()` on an empty optional at the first other byte. -/
theorem terminates_fragment_none : ∀ (r : List Char) {ctx : UrlParserContext},
    ctx.state = .fragment → ctx.url.fragment = none → 0 ≤ ctx.it →
    ctx.it ≤ ctx.input.length → ctx.remaining = r →
    Terminates ctx (if r.filter (· ≠ '\x00') = [] then .ok ctx.url else .aborted .badOptionalAccess)
  | [], ctx, hs, _, h0, hl, hr => ⟨ctx, .refl,
      loopBody_fragment_eof hs (isEof_of_remaining_nil h0 hl hr) hr⟩
  | c :: r, ctx, hs, hf, h0, hl, hr => by
    by_cases hc : c = '\x00'
    · have hd : dispatch ctx = .ok (.increment, ctx) := by
        simp only [dispatch, hs, parseFuncs, parseFragment, byte_of_remaining hr, if_pos hc]
        rfl
      have hlen := it_lt_of_remaining_cons hr
      rw [terminates_of_step (step_of_increment_remaining hd hr)]
      have := terminates_fragment_none r (show ctx.increment.state = .fragment from hs) hf
        (by simp only [increment]; omega) (by simp only [increment]; omega)
        (remaining_increment h0 hr)
      simpa [List.filter_cons, hc] using this
    · refine ⟨ctx, .refl, ?_⟩
      have hne : (c :: r).filter (· ≠ '\x00') ≠ [] := by simp [List.filter_cons, hc]
      rw [if_neg hne]
      simp [loopBody, dispatch, hs, parseFuncs, parseFragment, byte_of_remaining hr, hc, hf]
      rfl

/-! ## The setters -/

/-- The context a setter starts from reads the sanitized input from its start. -/
theorem remaining_init (s : List Char) (r : UrlRecord) (st : UrlState) :
    (UrlParserContext.init s none (some r) (some st)).remaining = sanitize s := by
  simp [remaining, UrlParserContext.init]

/-- **The query setter appends the encoded input to the query.**  For every record and every
input, `basic_parse(s, none, r, query)` returns `r` with the percent-encoding of every byte of
the sanitized input appended to its query, `#` included.  A record without a query is
returned unchanged when the sanitized input is empty, and otherwise `url.query.value()`
throws `bad_optional_access`. -/
theorem query_override_run (r : UrlRecord) (s : List Char) :
    Parses s none (some r) (some .query)
      (match r.query, sanitize s with
        | some q, t => .ok { r with query := some (q ++ t.flatMap (pctEncodeChar · querySet)) }
        | none, [] => .ok r
        | none, _ :: _ => .aborted .badOptionalAccess) := by
  rw [parses_iff_terminates]
  have hr := remaining_init s r .query
  rcases hq : r.query with _ | q
  · rcases ht : sanitize s with _ | ⟨c, t⟩
    · rw [ht] at hr
      exact ⟨_, .refl, loopBody_query_eof rfl (isEof_of_remaining_nil (by rfl)
        (by simp [UrlParserContext.init]) hr) hr⟩
    · rw [ht] at hr
      exact ⟨_, .refl, loopBody_query_none rfl (by simp [UrlParserContext.init])
        (by simpa [UrlParserContext.init] using hq) hr⟩
  · exact terminates_query _ rfl (by simp [UrlParserContext.init])
      (by simpa [UrlParserContext.init] using hq) (by rfl) (by simp [UrlParserContext.init]) hr rfl

/-- **The fragment setter appends the encoded input to the fragment.**  For every record and
every input, `basic_parse(s, none, r, fragment)` returns `r` with the percent-encoding of the
sanitized input appended to its fragment, NUL bytes skipped.  A record without a fragment is
returned unchanged when the sanitized input has no byte but NUL, and otherwise
`url.fragment.value()` throws `bad_optional_access`. -/
theorem fragment_override_run (r : UrlRecord) (s : List Char) :
    Parses s none (some r) (some .fragment)
      (match r.fragment, (sanitize s).filter (· ≠ '\x00') with
        | some f, _ => .ok { r with fragment := some (f ++ encodeFragment (sanitize s)) }
        | none, [] => .ok r
        | none, _ :: _ => .aborted .badOptionalAccess) := by
  rw [parses_iff_terminates]
  have hr := remaining_init s r .fragment
  rcases hf : r.fragment with _ | f
  · have := terminates_fragment_none _ rfl (by simpa [UrlParserContext.init] using hf) (by rfl)
      (by simp [UrlParserContext.init]) hr
    rcases ht : (sanitize s).filter (· ≠ '\x00') with _ | ⟨c, t⟩
    · rw [ht, if_pos rfl] at this; exact this
    · rw [ht, if_neg (List.cons_ne_nil c t)] at this; exact this
  · exact terminates_fragment _ rfl (by simpa [UrlParserContext.init] using hf) (by rfl)
      (by simp [UrlParserContext.init]) hr rfl

/-! ## Setting a component to its own text -/

/-- Percent-encoding a text of bytes that the encoding lets through leaves it unchanged. -/
theorem flatMap_pctEncodeChar_of_encoded {set : List Char} :
    ∀ {s : List Char}, encoded set s → s.flatMap (pctEncodeChar · set) = s
  | [], _ => rfl
  | c :: s, h => by
    simp only [encoded, List.all_cons, Bool.and_eq_true, decide_eq_true_eq] at h
    have hc : pctEncodeChar c set = [c] := by
      rw [pctEncodeChar, if_neg]
      rintro (h' | h' | h')
      · omega
      · omega
      · exact h.1.2.2 h'
    rw [List.flatMap_cons, hc, flatMap_pctEncodeChar_of_encoded h.2]
    rfl

/-- A text that the encoding with a set holding the space lets through is its own
sanitization. -/
theorem sanitize_of_encoded {set s : List Char} (hsp : ' ' ∈ set) (h : encoded set s) :
    sanitize s = s :=
  sanitize_of_printable fun c hc => by
    simp only [encoded, List.all_eq_true, decide_eq_true_eq] at h
    obtain ⟨h1, -, h3⟩ := h c hc
    rcases Nat.lt_or_eq_of_le h1 with h1 | h1
    · exact h1
    · exact absurd (show c = ' ' by rw [← Char.ofNat_toNat c, ← h1]) fun he => h3 (he ▸ hsp)

/-- **Setting the query to its own text gives it back.**  For every record and every text
`q` of bytes that the query's encoding lets through (every query a parse produces is one,
`UrlRecord.Shaped`), the query setter on the record with an empty query and the input `q`
returns the record with query `q`. -/
theorem query_setter_roundtrip (r : UrlRecord) {q : List Char} (hq : encoded querySet q) :
    Parses q none (some { r with query := some [] }) (some .query) (.ok { r with query := some q }) := by
  rw [parses_iff_terminates]
  refine terminates_query q rfl (by simp [UrlParserContext.init]) rfl (by rfl)
    (by simp [UrlParserContext.init])
    (by rw [remaining_init, sanitize_of_encoded (by decide) hq]) ?_
  simp [flatMap_pctEncodeChar_of_encoded hq, UrlParserContext.init]

theorem query_setter_roundtrip_pairs :
    encoded querySet "a=1&b=%20".toList = true ∧
      Parses "a=1&b=%20".toList none (some { httpX with query := some [] }) (some .query)
        (.ok { httpX with query := some "a=1&b=%20".toList }) :=
  have hq : encoded querySet "a=1&b=%20".toList = true := by decide
  ⟨hq, query_setter_roundtrip httpX hq⟩

/-- **Setting the fragment to its own text gives it back.** -/
theorem fragment_setter_roundtrip (r : UrlRecord) {f : List Char} (hf : encoded fragmentSet f) :
    Parses f none (some { r with fragment := some [] }) (some .fragment)
      (.ok { r with fragment := some f }) := by
  have hnul : f.filter (· ≠ '\x00') = f := List.filter_eq_self.2 fun c hc => by
    simp only [encoded, List.all_eq_true, decide_eq_true_eq] at hf
    have := (hf c hc).1
    simp only [ne_eq, decide_eq_true_eq]
    rintro rfl
    exact absurd this (by decide)
  rw [parses_iff_terminates]
  refine terminates_fragment f rfl rfl (by rfl) (by simp [UrlParserContext.init])
    (by rw [remaining_init, sanitize_of_encoded (by decide) hf]) ?_
  rw [encodeFragment, hnul, flatMap_pctEncodeChar_of_encoded hf]
  simp [UrlParserContext.init]

theorem fragment_setter_roundtrip_section :
    encoded fragmentSet "sec-2%3E".toList = true ∧
      Parses "sec-2%3E".toList none (some { httpX with fragment := some [] }) (some .fragment)
        (.ok { httpX with fragment := some "sec-2%3E".toList }) :=
  have hf : encoded fragmentSet "sec-2%3E".toList = true := by decide
  ⟨hf, fragment_setter_roundtrip httpX hf⟩

end SkyrUrl
