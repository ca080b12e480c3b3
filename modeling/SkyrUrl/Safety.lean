import SkyrUrl.Driver

/-!
# No handler raises

In a run with no record and no state override, every access that can raise is guarded by how
its state is reached: the relative states only with a base, the query and fragment states only
after their component was set, the cannot-be-a-base path only after a segment was pushed.
`Safe` is that reachability invariant; host parsing and `parse_path`'s drive-letter fix-up
raise on no input at all.

* `dispatch_safe`: on a `Safe` context the handler returns, with a `Safe` context;
* `basicParse_never_throws`: so every handler of such a run returns, and whatever
  `basic_parse` returns is a record;
* `basicParse_safe_but_http_never_returns`: that holds for every input, yet on `http://` the
  loop never ends, so `basic_parse` does not always return.
-/

namespace SkyrUrl

/-! ## Host parsing and path segments -/

/-- The digit loop of the dotted quad yields a piece once it has read a digit. -/
theorem readIpv4Piece_isSome {r r' : List Char} {p q : Option Nat}
    (h : readIpv4Piece r p = some (q, r')) (hp : p.isSome ∨ (r.headD ']').isDigit) : q.isSome := by
  induction r generalizing p with
  | nil =>
    simp only [readIpv4Piece, Option.some.injEq, Prod.mk.injEq] at h
    obtain ⟨rfl, -⟩ := h
    simpa using hp
  | cons c rest ih =>
    simp only [readIpv4Piece] at h
    split_ifs at h with hc
    · split at h
      · exact ih h (.inl rfl)
      · cases h
      · split_ifs at h
        exact ih h (.inl rfl)
    · simp only [Option.some.injEq, Prod.mk.injEq] at h
      obtain ⟨rfl, -⟩ := h
      simpa [hc] using hp

/-- The dotted-quad loop never raises: its `value()` follows `readIpv4Piece_isSome`. -/
theorem ipv6DottedQuad_ok (fuel : Nat) (rest : List Char) (n : Nat) (address : List Nat) (i : Nat) :
    ∃ r, ipv6DottedQuad fuel rest n address i = .ok r := by
  induction fuel generalizing rest n address i with
  | zero => exact ⟨_, rfl⟩
  | succ fuel ih =>
    unfold ipv6DottedQuad
    by_cases hr : rest = []
    · exact ⟨_, if_pos hr⟩
    rw [if_neg hr]
    split
    · exact ⟨_, rfl⟩
    rename_i r _
    by_cases hd : (!(r.headD ']').isDigit) = true
    · exact ⟨_, if_pos hd⟩
    rw [if_neg hd]
    split
    · exact ⟨_, rfl⟩
    rename_i piece r' hp
    obtain ⟨v, rfl⟩ := Option.isSome_iff_exists.1 (readIpv4Piece_isSome hp (.inr (by simpa using hd)))
    exact ih _ _ _ _


/-- A computation that returns, followed by one that returns for every value, returns. -/
theorem exists_bind_ok {α β : Type} {x : Except ParseAbort α} {f : α → Except ParseAbort β}
    (hx : ∃ a, x = .ok a) (hf : ∀ a, ∃ b, f a = .ok b) : ∃ b, x >>= f = .ok b := by
  obtain ⟨a, rfl⟩ := hx
  exact hf a

theorem ipv6Main_ok (fuel : Nat) (rest : List Char) (address : List Nat) (i : Nat)
    (compress : Option Nat) : ∃ r, ipv6Main fuel rest address i compress = .ok r := by
  induction fuel generalizing rest address i compress with
  | zero => exact ⟨_, rfl⟩
  | succ fuel ih =>
    unfold ipv6Main
    repeat' split
    all_goals first
      | exact ⟨_, rfl⟩
      | exact ih _ _ _ _
      | exact exists_bind_ok (ipv6DottedQuad_ok _ _ _ _ _) fun
          | none => ⟨_, rfl⟩
          | some _ => ⟨_, rfl⟩

theorem parseIpv6Address_ok (input : List Char) : ∃ r, parseIpv6Address input = .ok r := by
  unfold parseIpv6Address
  dsimp only
  split <;> try dsimp only
  all_goals first
    | exact ⟨_, rfl⟩
    | exact exists_bind_ok (ipv6Main_ok _ _ _ _ _) fun
        | none => ⟨_, rfl⟩
        | some (_, _, none) => ⟨_, rfl⟩
        | some (_, _, some _) => ⟨_, rfl⟩

/-- **Host parsing never raises**: the one `value()` of `parse_host`, on `ipv4_piece`, comes
after a digit was read. -/
theorem parseHost_ok (input : List Char) (isNotSpecial : Bool) :
    ∃ r, parseHost input isNotSpecial = .ok r := by
  unfold parseHost
  dsimp only
  split_ifs
  all_goals first
    | exact ⟨_, rfl⟩
    | exact exists_bind_ok (parseIpv6Address_ok _) fun
        | none => ⟨_, rfl⟩
        | some _ => ⟨_, rfl⟩

/-- `parse_path` pushes a drive letter only when the buffer is one, so `buffer[1]` exists. -/
theorem pathSegment_ok (url : UrlRecord) (buffer : List Char) :
    ∃ r, pathSegment url buffer = .ok r := by
  unfold pathSegment
  split_ifs with h
  · obtain _ | ⟨c0, _ | ⟨c1, rest⟩⟩ := buffer
    all_goals simp_all [isWindowsDriveLetter, setSecondToColon]
  · exact ⟨_, rfl⟩

/-! ## The invariant -/

open UrlParserContext

/-- What keeps every handler from raising: the relative states have a base, the query and
fragment states have their component, and the cannot-be-a-base path state has a segment. -/
def Safe (ctx : UrlParserContext) : Prop :=
  match ctx.state with
  | .specialRelativeOrAuthority | .relative | .relativeSlash => ctx.base.isSome
  | .query => ctx.url.query.isSome
  | .fragment => ctx.url.fragment.isSome
  | .cannotBeABaseUrlPath => ctx.url.path ≠ []
  | _ => True

/-- A handler returns, with a context that is `Safe`. -/
def SafeResult (r : HandlerResult) : Prop := ∃ p, r = .ok p ∧ Safe p.2

@[simp] theorem safeResult_pure (p : HandlerStep) : SafeResult (pure p) ↔ Safe p.2 := by
  simp [SafeResult]

theorem safeResult_bind {α : Type} {x : Except ParseAbort α} {f : α → HandlerResult}
    (hx : ∃ a, x = .ok a) (hf : ∀ a, SafeResult (f a)) : SafeResult (x >>= f) := by
  obtain ⟨a, rfl⟩ := hx
  exact hf a

theorem safe_ite {p : Prop} [Decidable p] {x y : HandlerStep} (hx : p → Safe x.2)
    (hy : ¬p → Safe y.2) : Safe (if p then x else y).2 := by
  split
  exacts [hx ‹_›, hy ‹_›]

theorem safeResult_ite {p : Prop} [Decidable p] {x y : HandlerResult} (hx : p → SafeResult x)
    (hy : ¬p → SafeResult y) : SafeResult (if p then x else y) := by
  split
  exacts [hx ‹_›, hy ‹_›]

/-! ## One lemma per handler -/

section Handlers

variable {ctx : UrlParserContext} {c : Char}

theorem schemeNextState_safe : Safe (schemeNextState ctx).2 := by
  unfold schemeNextState
  refine safe_ite (fun _ => by simp [Safe]) fun _ => safe_ite (fun h => ?_) fun _ => ?_
  · obtain ⟨b, hb, -⟩ := Option.map_eq_some'.1 h.2
    simp [Safe, hb]
  repeat' refine safe_ite (fun _ => ?_) (fun _ => ?_)
  all_goals simp [Safe]

theorem parseSchemeStart_safe (hs : ctx.state = .schemeStart) : Safe (parseSchemeStart ctx c).2 := by
  unfold parseSchemeStart
  repeat' refine safe_ite (fun _ => ?_) (fun _ => ?_)
  all_goals simp [Safe, hs]

theorem parseScheme_safe (hs : ctx.state = .scheme) : Safe (parseScheme ctx c).2 := by
  unfold parseScheme
  repeat' first
    | exact schemeNextState_safe
    | refine safe_ite (fun _ => ?_) (fun _ => ?_)
  all_goals simp [Safe, hs]

theorem parseNoScheme_safe (hs : ctx.state = .noScheme) : Safe (parseNoScheme ctx c).2 := by
  unfold parseNoScheme
  split
  · simp [Safe, hs]
  repeat' refine safe_ite (fun _ => ?_) (fun _ => ?_)
  all_goals simp [Safe, *]

theorem parseSpecialRelativeOrAuthority_safe (h : Safe ctx)
    (hs : ctx.state = .specialRelativeOrAuthority) :
    Safe (parseSpecialRelativeOrAuthority ctx c).2 := by
  simp only [Safe, hs] at h
  unfold parseSpecialRelativeOrAuthority
  refine safe_ite (fun _ => ?_) (fun _ => ?_) <;> simp [Safe, h]

theorem parsePathOrAuthority_safe : Safe (parsePathOrAuthority ctx c).2 := by
  unfold parsePathOrAuthority
  refine safe_ite (fun _ => ?_) (fun _ => ?_) <;> simp [Safe]

theorem parseRelative_safe (h : Safe ctx) (hs : ctx.state = .relative) :
    SafeResult (parseRelative ctx c) := by
  simp only [Safe, hs] at h
  obtain ⟨b, hb⟩ := Option.isSome_iff_exists.1 h
  unfold parseRelative
  simp only [hb, valueOf_some, pure_bind]
  repeat' refine safeResult_ite (fun _ => ?_) (fun _ => ?_)
  all_goals simp [Safe, hs, hb]

theorem parseRelativeSlash_safe (h : Safe ctx) (hs : ctx.state = .relativeSlash) :
    SafeResult (parseRelativeSlash ctx c) := by
  simp only [Safe, hs] at h
  obtain ⟨b, hb⟩ := Option.isSome_iff_exists.1 h
  unfold parseRelativeSlash
  simp only [hb, valueOf_some, pure_bind]
  repeat' refine safeResult_ite (fun _ => ?_) (fun _ => ?_)
  all_goals simp [Safe]

theorem parseSpecialAuthoritySlashes_safe : Safe (parseSpecialAuthoritySlashes ctx c).2 := by
  unfold parseSpecialAuthoritySlashes
  refine safe_ite (fun _ => ?_) (fun _ => ?_) <;> simp [Safe]

theorem parseSpecialAuthorityIgnoreSlashes_safe (hs : ctx.state = .specialAuthorityIgnoreSlashes) :
    Safe (parseSpecialAuthorityIgnoreSlashes ctx c).2 := by
  unfold parseSpecialAuthorityIgnoreSlashes
  refine safe_ite (fun _ => ?_) (fun _ => ?_) <;> simp [Safe, hs]

theorem parseAuthority_safe (hs : ctx.state = .authority) : Safe (parseAuthority ctx c).2 := by
  unfold parseAuthority
  repeat' refine safe_ite (fun _ => ?_) (fun _ => ?_)
  all_goals simp [Safe, hs]

theorem parseHostname_safe (hs : ctx.state = .host ∨ ctx.state = .hostname) :
    SafeResult (parseHostname ctx c) := by
  have hsafe : ∀ c' : UrlParserContext, c'.state = ctx.state → Safe c' := fun c' e => by
    rcases hs with hs | hs <;> simp [Safe, e, hs]
  unfold parseHostname
  repeat' first
    | refine safeResult_ite (fun _ => ?_) (fun _ => ?_)
    | refine safeResult_bind (parseHost_ok _ _) fun
        | none => ?_
        | some _ => ?_
  all_goals simp only [safeResult_pure]
  all_goals first
    | exact hsafe _ rfl
    | simp [Safe]

theorem parsePort_safe (hs : ctx.state = .port) : Safe (parsePort ctx c).2 := by
  unfold parsePort portDone
  repeat' refine safe_ite (fun _ => ?_) (fun _ => ?_)
  all_goals simp [Safe, hs]

theorem parseFile_safe (hs : ctx.state = .file) : Safe (parseFile ctx c).2 := by
  unfold parseFile
  refine safe_ite (fun _ => ?_) (fun _ => ?_)
  · simp [Safe]
  split
  · repeat' refine safe_ite (fun _ => ?_) (fun _ => ?_)
    all_goals simp [Safe, hs]
  · simp [Safe]

theorem parseFileSlash_safe : Safe (parseFileSlash ctx c).2 := by
  unfold parseFileSlash
  refine safe_ite (fun _ => ?_) (fun _ => ?_) <;> simp [Safe]

theorem parseFileHost_safe (hs : ctx.state = .fileHost) : SafeResult (parseFileHost ctx c) := by
  unfold parseFileHost
  repeat' first
    | refine safeResult_ite (fun _ => ?_) (fun _ => ?_)
    | refine safeResult_bind (parseHost_ok _ _) fun
        | none => ?_
        | some _ => ?_
  all_goals simp [Safe, hs]

theorem parsePathStart_safe (hs : ctx.state = .pathStart) : Safe (parsePathStart ctx c).2 := by
  unfold parsePathStart
  repeat' refine safe_ite (fun _ => ?_) (fun _ => ?_)
  all_goals simp [Safe, hs]

theorem parsePath_safe (hs : ctx.state = .path) : SafeResult (parsePath ctx c) := by
  unfold parsePath
  simp only [pure_bind]
  repeat' first
    | refine safeResult_ite (fun _ => ?_) (fun _ => ?_)
    | refine (safeResult_pure _).2 ?_
    | refine safeResult_bind (pathSegment_ok _ _) fun _ => ?_
  all_goals simp [Safe, hs]

theorem parseCannotBeABaseUrl_safe (h : Safe ctx) (hs : ctx.state = .cannotBeABaseUrlPath) :
    SafeResult (parseCannotBeABaseUrl ctx c) := by
  simp only [Safe, hs] at h
  unfold parseCannotBeABaseUrl
  repeat' refine safeResult_ite (fun _ => ?_) (fun _ => ?_)
  rotate_left 2
  · rcases hp : ctx.url.path with _ | ⟨p0, rest⟩
    · exact absurd hp h
    · simp [Safe, hs]
  all_goals simp [Safe, hs, h]

theorem parseQuery_safe (h : Safe ctx) (hs : ctx.state = .query) :
    SafeResult (parseQuery ctx c) := by
  simp only [Safe, hs] at h
  obtain ⟨q, hq⟩ := Option.isSome_iff_exists.1 h
  unfold parseQuery
  repeat' refine safeResult_ite (fun _ => ?_) (fun _ => ?_)
  all_goals simp [Safe, hs, hq]

theorem parseFragment_safe (h : Safe ctx) (hs : ctx.state = .fragment) :
    SafeResult (parseFragment ctx c) := by
  simp only [Safe, hs] at h
  obtain ⟨f, hf⟩ := Option.isSome_iff_exists.1 h
  unfold parseFragment
  refine safeResult_ite (fun _ => ?_) (fun _ => ?_) <;> simp [Safe, hs, hf]

end Handlers

/-! ## The loop -/

section Loop

variable {ctx : UrlParserContext}

/-- On a `Safe` context the handler of its state returns, with a `Safe` context. -/
theorem dispatch_safe (h : Safe ctx) : SafeResult (dispatch ctx) := by
  unfold dispatch
  cases hs : ctx.state <;> simp only [hs, parseFuncs, safeResult_pure]
  case schemeStart => exact parseSchemeStart_safe hs
  case scheme => exact parseScheme_safe hs
  case noScheme => exact parseNoScheme_safe hs
  case specialRelativeOrAuthority => exact parseSpecialRelativeOrAuthority_safe h hs
  case pathOrAuthority => exact parsePathOrAuthority_safe
  case relative => exact parseRelative_safe h hs
  case relativeSlash => exact parseRelativeSlash_safe h hs
  case specialAuthoritySlashes => exact parseSpecialAuthoritySlashes_safe
  case specialAuthorityIgnoreSlashes => exact parseSpecialAuthorityIgnoreSlashes_safe hs
  case authority => exact parseAuthority_safe hs
  case host => exact parseHostname_safe (.inl hs)
  case hostname => exact parseHostname_safe (.inr hs)
  case port => exact parsePort_safe hs
  case file => exact parseFile_safe hs
  case fileSlash => exact parseFileSlash_safe
  case fileHost => exact parseFileHost_safe hs
  case pathStart => exact parsePathStart_safe hs
  case path => exact parsePath_safe hs
  case cannotBeABaseUrlPath => exact parseCannotBeABaseUrl_safe h hs
  case query => exact parseQuery_safe h hs
  case fragment => exact parseFragment_safe h hs

theorem step_safe {ctx' : UrlParserContext} (h : Safe ctx) (hs : Step ctx ctx') : Safe ctx' := by
  obtain ⟨a, c, hd, hc⟩ := step_iff.1 hs
  obtain ⟨p, hp, hsafe⟩ := dispatch_safe h
  rw [hd] at hp
  cases hp
  rcases hc with ⟨-, rfl⟩ | ⟨-, -, rfl⟩ <;> exact hsafe

end Loop

/-- **`basic_parse` never raises.**  With no record and no state override, every handler of
the run returns an action, so no `value()` of an empty optional and no out-of-range index is
ever reached, and what `basic_parse` returns is a record. -/
theorem basicParse_never_throws (input : List Char) (base : Option UrlRecord) :
    (∀ ctx, Relation.ReflTransGen Step (UrlParserContext.init input base none none) ctx →
      ∃ a c, dispatch ctx = .ok (a, c)) ∧
      ∀ o, Parses input base none none o → ∃ url, o = .ok url := by
  have hok : ∀ ctx, Relation.ReflTransGen Step (UrlParserContext.init input base none none) ctx →
      ∃ a c, dispatch ctx = .ok (a, c) := fun ctx hr => by
    have hsafe := steps_invariant (fun _ _ h hs => step_safe h hs) hr
      (by simp [Safe, UrlParserContext.init])
    obtain ⟨⟨a, c⟩, hd, -⟩ := dispatch_safe hsafe
    exact ⟨a, c, hd⟩
  refine ⟨hok, fun o ho => ?_⟩
  obtain ⟨ctx', hr, hdone⟩ := parses_iff_terminates.1 ho
  rcases done_iff.1 hdone with ⟨e, he, -⟩ | ⟨a, c, -, rfl, -⟩
  · obtain ⟨a, c, hd⟩ := hok ctx' hr
    rw [hd] at he
    cases he
  · exact ⟨_, rfl⟩

/-- **No handler raises, yet `basic_parse` need not return.**  For every input and base,
with no record and no state override, every handler of the run returns an action and what
`basic_parse` returns is a record; but on `http://` the loop never ends, so it returns
nothing at all. -/
theorem basicParse_safe_but_http_never_returns :
    (∀ input base ctx, Relation.ReflTransGen Step (UrlParserContext.init input base none none) ctx →
      ∃ a c, dispatch ctx = .ok (a, c)) ∧
    (∀ input base o, Parses input base none none o → ∃ url, o = .ok url) ∧
    ∀ o, ¬ Parses "http://".toList none none none o := by
  refine ⟨fun input base => (basicParse_never_throws input base).1,
    fun input base => (basicParse_never_throws input base).2, fun o ho => ?_⟩
  obtain ⟨stuck, hreach, hcycle⟩ := http_empty_host_cycle
  exact not_terminates_of_cycle hcycle o ((terminates_of_steps hreach).1 (parses_iff_terminates.1 ho))

end SkyrUrl
