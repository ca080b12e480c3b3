import SkyrUrl.Driver

/-!
# State overrides

The setters re-parse one component by entering the loop at that component's state with
the record to change (`basic_parse(s, none, r, state_override)`).

* `port_override_frame`: under the `port` override the loop changes nothing but the port:
  every exit of the port state either returns `success` or keeps the record and the state.
* The host and scheme overrides lack such exits.  `parseHostname` returns `success` only
  from its `:` branch, so at EOF the loop goes on into `path_start` and `path`, which push
  an empty segment (`hostname_override_appends_segment`).  `parseScheme` commits the scheme
  and then picks the next state as in a full parse, so the loop parses the rest of the
  input as a URL (`scheme_override_sets_cannot_be_a_base`).
* The `path_start` override does not read a serialized path back: on a non-special URL
  `parse_path_start` pushes the buffer at the leading `/`, so the path gains an empty
  segment (`path_start_override_adds_empty_segment`).
-/

namespace SkyrUrl

open UrlParserContext

/-! ## The port override -/

/-- Under a state override, the port handler keeps the record and the state unless it
returns `success`, and then only the port has changed. -/
theorem parsePort_override {ctx ctx' : UrlParserContext} {c : Char} {a : UrlParseAction}
    (ho : ctx.stateOverride.isSome) (h : parsePort ctx c = (a, ctx')) :
    ctx'.stateOverride = ctx.stateOverride ∧
      ((a = .success ∧ ctx'.url = { ctx.url with port := ctx'.url.port }) ∨
        (a = .increment ∨ a = .fail) ∧ ctx'.url = ctx.url ∧ ctx'.state = ctx.state) := by
  unfold parsePort portDone at h
  split_ifs at h <;> obtain ⟨rfl, rfl⟩ := Prod.mk.inj h <;> simp_all

theorem dispatch_port {ctx : UrlParserContext} (h : ctx.state = .port) :
    dispatch ctx = .ok (parsePort ctx ctx.byte) := by
  simp [dispatch, h, parseFuncs, pure, Except.pure]

/-- The contexts of a run under the port override with record `r`. -/
def PortRun (r : UrlRecord) (ctx : UrlParserContext) : Prop :=
  ctx.state = .port ∧ ctx.stateOverride = some .port ∧ ctx.url = { r with port := ctx.url.port }

theorem portRun_step {r : UrlRecord} {ctx ctx' : UrlParserContext} (hr : PortRun r ctx)
    (h : Step ctx ctx') : PortRun r ctx' := by
  obtain ⟨hs, ho, hu⟩ := hr
  obtain ⟨a, c, hd, hnext⟩ := step_iff.1 h
  rw [dispatch_port hs, Except.ok.injEq] at hd
  obtain ⟨ho', ⟨rfl, -⟩ | ⟨ha, hu', hs'⟩⟩ := parsePort_override (by simp [ho]) hd
  · simp at hnext
  · rcases hnext with ⟨rfl, -⟩ | ⟨-, -, rfl⟩
    · simp at ha
    · exact ⟨hs'.trans hs, ho'.trans ho, by simpa [hu'] using hu⟩

theorem portRun_done {r : UrlRecord} {ctx : UrlParserContext} {o : ParseOutcome}
    (hr : PortRun r ctx) (h : loopBody ctx = .done o) : ∃ p, o = .ok { r with port := p } := by
  obtain ⟨hs, ho, hu⟩ := hr
  rcases done_iff.1 h with ⟨e, he, -⟩ | ⟨a, c, hd, rfl, -⟩
  · simp [dispatch_port hs] at he
  · rw [dispatch_port hs, Except.ok.injEq] at hd
    obtain ⟨-, ⟨-, hu'⟩ | ⟨-, hu', -⟩⟩ := parsePort_override (by simp [ho]) hd
    · exact ⟨c.url.port, by rw [hu', hu]⟩
    · exact ⟨ctx.url.port, by rw [hu', ← hu]⟩

/-- **The port setter changes only the port.**  For every record and every input, what
`basic_parse(s, none, r, port)` returns is `r` with another port. -/
theorem port_override_frame (r : UrlRecord) (s : List Char) (o : ParseOutcome)
    (h : Parses s none (some r) (some .port) o) : ∃ p, o = .ok { r with port := p } := by
  obtain ⟨ctx, hs, hd⟩ := parses_iff_terminates.1 h
  have hinit : PortRun r (UrlParserContext.init s none (some r) (some .port)) :=
    ⟨rfl, rfl, by simp [UrlParserContext.init]⟩
  exact portRun_done (steps_invariant (fun _ _ hc hst => portRun_step hc hst) hs hinit) hd

theorem port_override_frame_8080 :
    Parses "8080".toList none (some { scheme := "http".toList, host := some "h".toList })
        (some .port) (.ok { scheme := "http".toList, host := some "h".toList, port := some 8080 }) ∧
      ∃ p, ParseOutcome.ok { scheme := "http".toList, host := some "h".toList, port := some 8080 } =
        .ok { ({ scheme := "http".toList, host := some "h".toList } : UrlRecord) with port := p } :=
  have h : Parses "8080".toList none (some { scheme := "http".toList, host := some "h".toList })
      (some .port) (.ok { scheme := "http".toList, host := some "h".toList, port := some 8080 }) :=
    ⟨10, by decide⟩
  ⟨h, port_override_frame _ _ _ h⟩

/-! ## The hostname and scheme overrides -/

/-- The record that `basic_parse("http://h/a")` returns. -/
def httpHA : UrlRecord := { scheme := "http".toList, host := some "h".toList, path := ["a".toList] }

/-- **The hostname setter appends a path segment.**  On `http://h/a`, setting the hostname
to `x` gives the path `a/` with an empty last segment. -/
theorem hostname_override_appends_segment :
    Parses "http://h/a".toList none none none (.ok httpHA) ∧
      Parses "x".toList none (some httpHA) (some .hostname)
        (.ok { httpHA with host := some "x".toList, path := ["a".toList, []] }) :=
  ⟨⟨20, by decide⟩, ⟨20, by decide⟩⟩

/-- The record that `basic_parse("foo://h")` returns. -/
def fooH : UrlRecord := { scheme := "foo".toList, host := some "h".toList }

/-- **The scheme setter re-parses the rest as a URL.**  On `foo://h`, setting the scheme
with `bar:` makes the record cannot-be-a-base with the path of one empty segment. -/
theorem scheme_override_sets_cannot_be_a_base :
    Parses "foo://h".toList none none none (.ok fooH) ∧
      Parses "bar:".toList none (some fooH) (some .schemeStart)
        (.ok { fooH with scheme := "bar".toList, cannotBeABaseUrl := true, path := [[]] }) :=
  ⟨⟨20, by decide⟩, ⟨20, by decide⟩⟩

/-! ## The path-start override -/

/-- The record that `basic_parse("foo:/")` returns: one empty path segment. -/
def fooSlash : UrlRecord := { scheme := "foo".toList, path := [[]] }

/-- **Re-parsing a non-special path adds an empty segment.**  The path of `foo:/`
serializes as `/`.  Under the `path_start` override, `parse_path_start` pushes the empty
buffer at that `/` (its special branch has the push commented out) and `parse_path` then
pushes the empty last segment. -/
theorem path_start_override_adds_empty_segment :
    Parses "foo:/".toList none none none (.ok fooSlash) ∧
      Parses "/".toList none (some { fooSlash with path := [] }) (some .pathStart)
        (.ok { fooSlash with path := [[], []] }) :=
  ⟨⟨20, by decide⟩, ⟨20, by decide⟩⟩

end SkyrUrl
