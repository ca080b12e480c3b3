import SkyrUrl.Driver

/-!
# Where the iterator can be

`InBounds k ctx` is what holds at every invocation of a handler: the iterator is between
the mark `k` and the end of the input (so the handler reads a byte of the input, or the
terminating NUL), the states before the authority have an empty buffer, and the authority's
buffer holds only bytes read since the mark.  A positive mark is for runs that have passed
the authority's slashes, where no handler rewinds to the start.

* `step_inBounds`: one pass of the loop keeps `InBounds k`.
* `position_within_input`: from the start, every handler is invoked within the input and
  leaves the iterator at most one byte before it, which the driver's increment undoes.
-/

namespace SkyrUrl

open UrlParserContext

/-- The states before the authority, whose buffer the parser keeps empty. -/
@[simp] def bufferFree : UrlState → Bool
  | .schemeStart | .noScheme | .specialRelativeOrAuthority | .pathOrAuthority | .relative
  | .relativeSlash | .specialAuthoritySlashes | .specialAuthorityIgnoreSlashes => true
  | _ => false

/-- The states from the authority's slashes on, whose handlers never read the base and
never rewind to the start. -/
@[simp] def isAuthorityOrLater : UrlState → Bool
  | .specialAuthorityIgnoreSlashes | .authority | .host | .hostname | .port | .fileHost
  | .pathStart | .path | .cannotBeABaseUrlPath | .query | .fragment => true
  | _ => false

/-- The iterator at a handler invocation, with mark `k`: between the mark and the end, an
empty buffer in the states before the authority, an authority buffer of bytes read since the
mark, and, for a positive mark, a state from the authority's slashes on. -/
def InBounds (k : Nat) (ctx : UrlParserContext) : Prop :=
  k ≤ ctx.it ∧ ctx.it ≤ ctx.input.length ∧ (bufferFree ctx.state → ctx.buffer = []) ∧
    (ctx.state = .authority → ctx.buffer.length + k ≤ ctx.it) ∧
    (0 < k → isAuthorityOrLater ctx.state)

/-- What a handler invoked within bounds leaves: the input kept, the iterator at most one
byte before the mark and at most at the end, and the next invocation within bounds. -/
def StaysInBounds (k : Nat) (ctx : UrlParserContext) : UrlParseAction × UrlParserContext → Prop
  | (a, c) => c.input = ctx.input ∧ k ≤ c.it + 1 ∧ c.it ≤ c.input.length ∧
      (a = .continue_ → InBounds k c) ∧
      (a ≠ .continue_ → c.it < c.input.length → InBounds k c.increment)

/-- The lookahead for one byte: the input goes on after the iterator, with that byte. -/
theorem remainingStartsWith_singleton {ctx : UrlParserContext} {c : Char} :
    ctx.remainingStartsWith [c] = true ↔
      ctx.it.toNat + 1 < ctx.input.length ∧ ctx.input[ctx.it.toNat + 1]? = some c := by
  unfold remainingStartsWith remaining
  rw [List.drop_drop]
  cases h : ctx.input.drop (ctx.it.toNat + 1) with
  | nil => simp_all [List.isPrefixOf]
  | cons d ds =>
    have hlen : ctx.it.toNat + 1 < ctx.input.length := by
      have := congrArg List.length h
      simp only [List.length_drop, List.length_cons] at this
      omega
    have h2 := congrArg List.head? h
    simp only [List.head?_drop, List.head?_cons] at h2
    simp only [List.isPrefixOf, hlen, h2, true_and, Option.some.injEq, beq_iff_eq,
      Bool.and_eq_true, List.isPrefixOf_nil_left, and_true]
    exact eq_comm

/-! ## One lemma per handler

Each lemma evaluates the invariant at the handler's state, descends the handler's branches
(`iteInduction`, and the `forall_ok_*` lemmas for a handler that can fail) without splitting
the conditions inside its records, and closes each branch by `simp`, which evaluates the
state classes `bufferFree` and `isAuthorityOrLater` of the result and the cursor moves
(`increment`, `decrement`, `reset`, `restartFromBuffer`), then by linear arithmetic. -/

section Handlers

variable {k : Nat} {ctx c' : UrlParserContext} {a : UrlParseAction} {c : Char}

theorem parseSchemeStart_inBounds (h : InBounds k ctx) (hs : ctx.state = .schemeStart)
    (hr : parseSchemeStart ctx c = (a, c')) : StaysInBounds k ctx (a, c') := by
  obtain ⟨h1, h2, h3, h4, h5⟩ := h
  simp [hs] at h4 h5
  rw [← hr]
  unfold parseSchemeStart
  repeat' refine iteInduction (motive := StaysInBounds k ctx) (fun _ => ?_) (fun _ => ?_)
  all_goals simp [StaysInBounds, InBounds, hs, h3] <;> omega

theorem parseScheme_inBounds (h : InBounds k ctx) (hs : ctx.state = .scheme)
    (hr : parseScheme ctx c = (a, c')) : StaysInBounds k ctx (a, c') := by
  obtain ⟨h1, h2, h3, h4, h5⟩ := h
  simp [hs] at h4 h5
  rw [← hr]
  unfold parseScheme schemeNextState
  repeat' refine iteInduction (motive := StaysInBounds k ctx) (fun _ => ?_) (fun _ => ?_)
  all_goals
    (try simp only [remainingStartsWith_singleton] at *) <;>
    simp [StaysInBounds, InBounds, hs, h3] <;> omega

theorem parseNoScheme_inBounds (h : InBounds k ctx) (hs : ctx.state = .noScheme)
    (hr : parseNoScheme ctx c = (a, c')) : StaysInBounds k ctx (a, c') := by
  obtain ⟨h1, h2, h3, h4, h5⟩ := h
  simp [hs] at h4 h5
  rw [← hr]
  unfold parseNoScheme
  repeat' first
    | refine iteInduction (motive := StaysInBounds k ctx) (fun _ => ?_) (fun _ => ?_)
    | split
  all_goals simp [StaysInBounds, InBounds, hs, h3] <;> omega

theorem parseSpecialRelativeOrAuthority_inBounds (h : InBounds k ctx)
    (hs : ctx.state = .specialRelativeOrAuthority)
    (hr : parseSpecialRelativeOrAuthority ctx c = (a, c')) : StaysInBounds k ctx (a, c') := by
  obtain ⟨h1, h2, h3, h4, h5⟩ := h
  simp [hs] at h4 h5
  rw [← hr]
  unfold parseSpecialRelativeOrAuthority
  repeat' refine iteInduction (motive := StaysInBounds k ctx) (fun _ => ?_) (fun _ => ?_)
  all_goals
    (try simp only [remainingStartsWith_singleton] at *) <;>
    simp [StaysInBounds, InBounds, hs, h3] <;> omega

theorem parsePathOrAuthority_inBounds (h : InBounds k ctx) (hs : ctx.state = .pathOrAuthority)
    (hr : parsePathOrAuthority ctx c = (a, c')) : StaysInBounds k ctx (a, c') := by
  obtain ⟨h1, h2, h3, h4, h5⟩ := h
  simp [hs] at h4 h5
  rw [← hr]
  unfold parsePathOrAuthority
  repeat' refine iteInduction (motive := StaysInBounds k ctx) (fun _ => ?_) (fun _ => ?_)
  all_goals simp [StaysInBounds, InBounds, hs, h3] <;> omega

theorem parseRelative_inBounds (h : InBounds k ctx) (hs : ctx.state = .relative)
    (hr : parseRelative ctx c = .ok (a, c')) : StaysInBounds k ctx (a, c') := by
  obtain ⟨h1, h2, h3, h4, h5⟩ := h
  simp [hs] at h4 h5
  suffices ∀ r, parseRelative ctx c = .ok r → StaysInBounds k ctx r from this _ hr
  unfold parseRelative
  dsimp only
  repeat' first
    | refine forall_ok_ite (fun _ => ?_) (fun _ => ?_)
    | refine forall_ok_bind fun _ => ?_
    | refine forall_ok_pure ?_
  all_goals simp [StaysInBounds, InBounds, hs, h3] <;> omega

theorem parseRelativeSlash_inBounds (h : InBounds k ctx) (hs : ctx.state = .relativeSlash)
    (hr : parseRelativeSlash ctx c = .ok (a, c')) : StaysInBounds k ctx (a, c') := by
  obtain ⟨h1, h2, h3, h4, h5⟩ := h
  simp [hs] at h4 h5
  suffices ∀ r, parseRelativeSlash ctx c = .ok r → StaysInBounds k ctx r from this _ hr
  unfold parseRelativeSlash
  repeat' first
    | refine forall_ok_ite (fun _ => ?_) (fun _ => ?_)
    | refine forall_ok_bind fun _ => ?_
    | refine forall_ok_pure ?_
  all_goals simp [StaysInBounds, InBounds, hs, h3] <;> omega

theorem parseSpecialAuthoritySlashes_inBounds (h : InBounds k ctx)
    (hs : ctx.state = .specialAuthoritySlashes)
    (hr : parseSpecialAuthoritySlashes ctx c = (a, c')) : StaysInBounds k ctx (a, c') := by
  obtain ⟨h1, h2, h3, h4, h5⟩ := h
  simp [hs] at h4 h5
  rw [← hr]
  unfold parseSpecialAuthoritySlashes
  repeat' refine iteInduction (motive := StaysInBounds k ctx) (fun _ => ?_) (fun _ => ?_)
  all_goals
    (try simp only [remainingStartsWith_singleton] at *) <;>
    simp [StaysInBounds, InBounds, hs, h3] <;> omega

theorem parseSpecialAuthorityIgnoreSlashes_inBounds (h : InBounds k ctx)
    (hs : ctx.state = .specialAuthorityIgnoreSlashes)
    (hr : parseSpecialAuthorityIgnoreSlashes ctx c = (a, c')) : StaysInBounds k ctx (a, c') := by
  obtain ⟨h1, h2, h3, h4, h5⟩ := h
  simp [hs] at h4 h5
  rw [← hr]
  unfold parseSpecialAuthorityIgnoreSlashes
  repeat' refine iteInduction (motive := StaysInBounds k ctx) (fun _ => ?_) (fun _ => ?_)
  all_goals simp [StaysInBounds, InBounds, hs, h3] <;> omega

theorem parseAuthority_inBounds (h : InBounds k ctx) (hs : ctx.state = .authority)
    (hr : parseAuthority ctx c = (a, c')) : StaysInBounds k ctx (a, c') := by
  obtain ⟨h1, h2, h3, h4, h5⟩ := h
  simp [hs] at h4 h5
  rw [← hr]
  unfold parseAuthority
  dsimp only
  repeat' refine iteInduction (motive := StaysInBounds k ctx) (fun _ => ?_) (fun _ => ?_)
  all_goals simp [StaysInBounds, InBounds, hs, h3] <;> omega

theorem parsePort_inBounds (h : InBounds k ctx) (hs : ctx.state = .port)
    (hr : parsePort ctx c = (a, c')) : StaysInBounds k ctx (a, c') := by
  obtain ⟨h1, h2, h3, h4, h5⟩ := h
  simp [hs] at h4 h5
  rw [← hr]
  unfold parsePort portDone
  dsimp only
  repeat' refine iteInduction (motive := StaysInBounds k ctx) (fun _ => ?_) (fun _ => ?_)
  all_goals simp [StaysInBounds, InBounds, hs, h3] <;> omega

theorem parseFile_inBounds (h : InBounds k ctx) (hs : ctx.state = .file)
    (hr : parseFile ctx c = (a, c')) : StaysInBounds k ctx (a, c') := by
  obtain ⟨h1, h2, h3, h4, h5⟩ := h
  simp [hs] at h4 h5
  rw [← hr]
  unfold parseFile
  dsimp only
  repeat' first
    | refine iteInduction (motive := StaysInBounds k ctx) (fun _ => ?_) (fun _ => ?_)
    | split
  all_goals simp [StaysInBounds, InBounds, hs, h3] <;> omega

theorem parseFileSlash_inBounds (h : InBounds k ctx) (hs : ctx.state = .fileSlash)
    (hr : parseFileSlash ctx c = (a, c')) : StaysInBounds k ctx (a, c') := by
  obtain ⟨h1, h2, h3, h4, h5⟩ := h
  simp [hs] at h4 h5
  rw [← hr]
  unfold parseFileSlash
  dsimp only
  repeat' refine iteInduction (motive := StaysInBounds k ctx) (fun _ => ?_) (fun _ => ?_)
  all_goals simp [StaysInBounds, InBounds, hs, h3] <;> omega

theorem parsePathStart_inBounds (h : InBounds k ctx) (hs : ctx.state = .pathStart)
    (hr : parsePathStart ctx c = (a, c')) : StaysInBounds k ctx (a, c') := by
  obtain ⟨h1, h2, h3, h4, h5⟩ := h
  simp [hs] at h4 h5
  rw [← hr]
  unfold parsePathStart
  dsimp only
  repeat' refine iteInduction (motive := StaysInBounds k ctx) (fun _ => ?_) (fun _ => ?_)
  all_goals simp [StaysInBounds, InBounds, hs, h3] <;> omega

theorem parseHostname_inBounds (h : InBounds k ctx)
    (hs : ctx.state = .host ∨ ctx.state = .hostname)
    (hr : parseHostname ctx c = .ok (a, c')) : StaysInBounds k ctx (a, c') := by
  obtain ⟨h1, h2, h3, h4, h5⟩ := h
  suffices ∀ r, parseHostname ctx c = .ok r → StaysInBounds k ctx r from this _ hr
  unfold parseHostname
  dsimp only
  repeat' first
    | refine forall_ok_ite (fun _ => ?_) (fun _ => ?_)
    | refine forall_ok_bind fun | none => ?_ | some _ => ?_
    | refine forall_ok_pure ?_
  all_goals rcases hs with hs | hs <;> simp [StaysInBounds, InBounds, hs, h3] <;> omega

theorem parseFileHost_inBounds (h : InBounds k ctx) (hs : ctx.state = .fileHost)
    (hr : parseFileHost ctx c = .ok (a, c')) : StaysInBounds k ctx (a, c') := by
  obtain ⟨h1, h2, h3, h4, h5⟩ := h
  simp [hs] at h4 h5
  suffices ∀ r, parseFileHost ctx c = .ok r → StaysInBounds k ctx r from this _ hr
  unfold parseFileHost
  dsimp only
  repeat' first
    | refine forall_ok_ite (fun _ => ?_) (fun _ => ?_)
    | refine forall_ok_bind fun | none => ?_ | some _ => ?_
    | refine forall_ok_pure ?_
  all_goals simp [StaysInBounds, InBounds, hs, h3] <;> omega

theorem parsePath_inBounds (h : InBounds k ctx) (hs : ctx.state = .path)
    (hr : parsePath ctx c = .ok (a, c')) : StaysInBounds k ctx (a, c') := by
  obtain ⟨h1, h2, h3, h4, h5⟩ := h
  simp [hs] at h4 h5
  suffices ∀ r, parsePath ctx c = .ok r → StaysInBounds k ctx r from this _ hr
  unfold parsePath
  dsimp only
  repeat' first
    | refine forall_ok_ite (fun _ => ?_) (fun _ => ?_)
    | refine forall_ok_bind fun _ => ?_
    | refine forall_ok_pure ?_
  all_goals simp [StaysInBounds, InBounds, hs, h3] <;> omega

theorem parseCannotBeABaseUrl_inBounds (h : InBounds k ctx) (hs : ctx.state = .cannotBeABaseUrlPath)
    (hr : parseCannotBeABaseUrl ctx c = .ok (a, c')) : StaysInBounds k ctx (a, c') := by
  obtain ⟨h1, h2, h3, h4, h5⟩ := h
  simp [hs] at h4 h5
  suffices ∀ r, parseCannotBeABaseUrl ctx c = .ok r → StaysInBounds k ctx r from this _ hr
  unfold parseCannotBeABaseUrl
  repeat' first
    | refine forall_ok_ite (fun _ => ?_) (fun _ => ?_)
    | refine forall_ok_bind fun _ => ?_
    | refine forall_ok_pure ?_
    | refine forall_ok_throw
    | split
  all_goals simp [StaysInBounds, InBounds, hs, h3] <;> omega

theorem parseQuery_inBounds (h : InBounds k ctx) (hs : ctx.state = .query)
    (hr : parseQuery ctx c = .ok (a, c')) : StaysInBounds k ctx (a, c') := by
  obtain ⟨h1, h2, h3, h4, h5⟩ := h
  simp [hs] at h4 h5
  suffices ∀ r, parseQuery ctx c = .ok r → StaysInBounds k ctx r from this _ hr
  unfold parseQuery
  repeat' first
    | refine forall_ok_ite (fun _ => ?_) (fun _ => ?_)
    | refine forall_ok_bind fun _ => ?_
    | refine forall_ok_pure ?_
  all_goals simp [StaysInBounds, InBounds, hs, h3] <;> omega

theorem parseFragment_inBounds (h : InBounds k ctx) (hs : ctx.state = .fragment)
    (hr : parseFragment ctx c = .ok (a, c')) : StaysInBounds k ctx (a, c') := by
  obtain ⟨h1, h2, h3, h4, h5⟩ := h
  simp [hs] at h4 h5
  suffices ∀ r, parseFragment ctx c = .ok r → StaysInBounds k ctx r from this _ hr
  unfold parseFragment
  repeat' first
    | refine forall_ok_ite (fun _ => ?_) (fun _ => ?_)
    | refine forall_ok_bind fun _ => ?_
    | refine forall_ok_pure ?_
  all_goals simp [StaysInBounds, InBounds, hs, h3] <;> omega

end Handlers

/-! ## The loop -/

theorem dispatch_inBounds {k : Nat} {ctx c' : UrlParserContext} {a : UrlParseAction}
    (h : InBounds k ctx) (hd : dispatch ctx = .ok (a, c')) : StaysInBounds k ctx (a, c') := by
  unfold dispatch at hd
  cases hs : ctx.state <;> simp only [hs, parseFuncs, pure_eq_ok] at hd
  case schemeStart => exact parseSchemeStart_inBounds h hs hd
  case scheme => exact parseScheme_inBounds h hs hd
  case noScheme => exact parseNoScheme_inBounds h hs hd
  case specialRelativeOrAuthority => exact parseSpecialRelativeOrAuthority_inBounds h hs hd
  case pathOrAuthority => exact parsePathOrAuthority_inBounds h hs hd
  case relative => exact parseRelative_inBounds h hs hd
  case relativeSlash => exact parseRelativeSlash_inBounds h hs hd
  case specialAuthoritySlashes => exact parseSpecialAuthoritySlashes_inBounds h hs hd
  case specialAuthorityIgnoreSlashes => exact parseSpecialAuthorityIgnoreSlashes_inBounds h hs hd
  case authority => exact parseAuthority_inBounds h hs hd
  case host => exact parseHostname_inBounds h (.inl hs) hd
  case hostname => exact parseHostname_inBounds h (.inr hs) hd
  case port => exact parsePort_inBounds h hs hd
  case file => exact parseFile_inBounds h hs hd
  case fileSlash => exact parseFileSlash_inBounds h hs hd
  case fileHost => exact parseFileHost_inBounds h hs hd
  case pathStart => exact parsePathStart_inBounds h hs hd
  case path => exact parsePath_inBounds h hs hd
  case cannotBeABaseUrlPath => exact parseCannotBeABaseUrl_inBounds h hs hd
  case query => exact parseQuery_inBounds h hs hd
  case fragment => exact parseFragment_inBounds h hs hd

/-- One pass of the loop keeps the iterator within bounds. -/
theorem step_inBounds {k : Nat} {ctx ctx' : UrlParserContext} (h : InBounds k ctx)
    (hs : Step ctx ctx') : InBounds k ctx' := by
  obtain ⟨a, c, hd, hnext⟩ := step_iff.1 hs
  obtain ⟨-, -, hle, hcont, hinc⟩ := dispatch_inBounds h hd
  rcases hnext with ⟨rfl, rfl⟩ | ⟨ha, heof, rfl⟩
  · exact hcont rfl
  · simp only [isEof, decide_eq_false_iff_not] at heof
    exact hinc (by rcases ha with rfl | rfl <;> simp) (by omega)

theorem step_input {k : Nat} {ctx ctx' : UrlParserContext} (h : InBounds k ctx)
    (hs : Step ctx ctx') : ctx'.input = ctx.input := by
  obtain ⟨a, c, hd, hnext⟩ := step_iff.1 hs
  obtain ⟨hin, -⟩ := dispatch_inBounds h hd
  rcases hnext with ⟨-, rfl⟩ | ⟨-, -, rfl⟩ <;> exact hin

theorem init_inBounds (input : List Char) (base url : Option UrlRecord) (o : Option UrlState) :
    InBounds 0 (UrlParserContext.init input base url o) :=
  ⟨by simp [UrlParserContext.init], by simp only [UrlParserContext.init]; omega, fun _ => rfl,
    fun _ => by simp [UrlParserContext.init], by simp⟩

/-- **Every handler runs within the input.**  For every input, base, record and state
override, each handler of the loop is invoked with the iterator on a byte of the input or
at its end, and leaves it at most one byte before the first (`decrement()` or
`restart_from_buffer()` there), which the driver's increment undoes. -/
theorem position_within_input (input : List Char) (base url : Option UrlRecord)
    (o : Option UrlState) {ctx : UrlParserContext}
    (h : Relation.ReflTransGen Step (UrlParserContext.init input base url o) ctx) :
    0 ≤ ctx.it ∧ ctx.it ≤ ctx.input.length ∧
      ∀ a c', dispatch ctx = .ok (a, c') → -1 ≤ c'.it ∧ c'.it ≤ c'.input.length := by
  have hb := steps_invariant (fun _ _ hc hst => step_inBounds hc hst) h
    (init_inBounds input base url o)
  refine ⟨hb.1, hb.2.1, fun a c' hd => ?_⟩
  obtain ⟨-, h1, h2, -⟩ := dispatch_inBounds hb hd
  exact ⟨by omega, h2⟩

theorem position_within_input_at_start :
    (0 ≤ (UrlParserContext.init "a".toList none none none).it ∧
      (UrlParserContext.init "a".toList none none none).it ≤
        (UrlParserContext.init "a".toList none none none).input.length ∧
      ∀ a c', dispatch (UrlParserContext.init "a".toList none none none) = .ok (a, c') →
        -1 ≤ c'.it ∧ c'.it ≤ c'.input.length) :=
  position_within_input "a".toList none none none .refl

/-- The record that `basic_parse("http://x/")` returns. -/
def httpX : UrlRecord := { scheme := "http".toList, host := some "x".toList, path := [[]] }

/-- **`parse_relative` decrements at the first byte.**  With base `http://x/`, the input
`a` reaches the relative state at the first byte, whose handler moves the iterator before
it. -/
theorem relative_decrement_before_first_byte :
    Parses "http://x/".toList none none none (.ok httpX) ∧
      ∃ ctx c', Relation.ReflTransGen Step (UrlParserContext.init "a".toList (some httpX) none none) ctx ∧
        dispatch ctx = .ok (.increment, c') ∧ c'.it = -1 :=
  ⟨⟨20, by decide⟩,
    { input := "a".toList, it := 0, base := some httpX, url := {}, state := .relative,
      stateOverride := none, buffer := [], atFlag := false, squareBracesFlag := false,
      passwordTokenSeenFlag := false },
    { input := "a".toList, it := -1, base := some httpX,
      url := { scheme := "http".toList, host := some "x".toList }, state := .path,
      stateOverride := none, buffer := [], atFlag := false, squareBracesFlag := false,
      passwordTokenSeenFlag := false },
    steps_of_passes (n := 3) (by decide), rfl, rfl⟩

end SkyrUrl
