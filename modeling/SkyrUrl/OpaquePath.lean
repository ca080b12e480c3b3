import SkyrUrl.Setters

/-!
# URLs with an opaque path

At the `:` of a scheme that is not special, with no `/` after it, `parse_scheme` marks the
record cannot-be-a-base and opens one empty path segment.  The cannot-be-a-base-URL path
state then percent-encodes every byte up to a `?` or a `#` onto that segment with the C0
control set only, the query state encodes up to a `#`, and the fragment state reads the rest.

* `parse_opaque_path`: every such input `scheme:path?query#fragment`, with the query and the
  fragment each there or not, parses to the record with the lowercased scheme, the one
  encoded segment, the encoded query and fragment and nothing else, against every base.
-/

namespace SkyrUrl

open UrlParserContext

/-- An optional component as it stands in an input: its delimiter and its text, or
nothing. -/
def delimited (d : Char) : Option (List Char) → List Char
  | none => []
  | some x => d :: x

/-- The loop just past the `:` of a scheme that is not special, when no `/` follows it. -/
def afterOpaqueScheme (input : List Char) (base : Option UrlRecord) (scheme : List Char) :
    UrlParserContext :=
  { input := input, it := scheme.length + 1, base := base,
    url := { scheme := scheme, path := [[]], cannotBeABaseUrl := true },
    state := .cannotBeABaseUrlPath, stateOverride := none, buffer := [], atFlag := false,
    squareBracesFlag := false, passwordTokenSeenFlag := false }

/-- At the `:` of a scheme that is not special, with no `/` after it, the loop opens the
opaque path. -/
theorem step_afterOpaqueScheme {input rest B : List Char} {base : Option UrlRecord}
    (hd : input.drop B.length = ':' :: rest) (hsp : isSpecial B = false)
    (hr : rest.head? ≠ some '/') :
    Step (schemeRead input base B) (afterOpaqueScheme input base B) := by
  have hb := byte_of_remaining (schemeRead_remaining base hd)
  have hf : B ≠ ['f', 'i', 'l', 'e'] := by rintro rfl; exact absurd hsp (by decide)
  have hpre : ['/'].isPrefixOf rest = false := by
    cases rest with
    | nil => rfl
    | cons x r =>
      have hx : x ≠ '/' := fun e => hr (by rw [e]; rfl)
      simp [List.isPrefixOf, Ne.symm hx]
  refine step_congr (step_of_increment (c := { schemeRead input base B with
    url := { scheme := B, path := [[]], cannotBeABaseUrl := true }, buffer := [],
    state := .cannotBeABaseUrlPath }) ?_
    (by change (schemeRead input base B).byte ≠ _; rw [hb]; decide))
    (by simp [afterOpaqueScheme, schemeRead])
  simp only [dispatch, parseFuncs, hb]
  simp [parseScheme, schemeNextState, schemeRead, UrlRecord.isSpecial, hf, hsp,
    remainingStartsWith, remaining, hd, hpre]

section Runs

variable {ctx : UrlParserContext} {rest : List Char}

theorem it_add_le_of_remaining {pre tail : List Char} (hl : ctx.it ≤ ctx.input.length)
    (hr : ctx.remaining = pre ++ tail) : ctx.it + pre.length ≤ ctx.input.length := by
  have := congrArg List.length hr
  rw [remaining, List.length_drop, List.length_append] at this
  omega

/-- **The bytes of the opaque path.**  The cannot-be-a-base-URL path state moves over bytes
other than `?` and `#`, percent-encoding each onto the first segment. -/
theorem steps_opaque_bytes : ∀ (s : List Char) {ctx : UrlParserContext} {p0 tail : List Char}
    {ps : List (List Char)}, ctx.state = .cannotBeABaseUrlPath → ctx.url.path = p0 :: ps →
    0 ≤ ctx.it → ctx.remaining = s ++ tail → (∀ c ∈ s, c ≠ '?' ∧ c ≠ '#') →
    Relation.ReflTransGen Step ctx { ctx with
      it := ctx.it + s.length
      url := { ctx.url with path := (p0 ++ s.flatMap (pctEncodeChar ·)) :: ps } }
  | [], ctx, p0, _, ps, _, hp, _, _, _ => by
    simpa [← hp] using Relation.ReflTransGen.refl
  | c :: s, ctx, p0, tail, ps, hs, hp, h0, hr, hcs => by
    obtain ⟨hq, hh⟩ := hcs c (List.mem_cons_self _ _)
    have hd : dispatch ctx = .ok (.increment,
        { ctx with url := { ctx.url with path := (p0 ++ pctEncodeChar c) :: ps } }) := by
      simp [dispatch, hs, parseFuncs, parseCannotBeABaseUrl, byte_of_remaining hr, hq, hh,
        isEof_eq_false_of_remaining hr, hp, pure, Except.pure]
    refine .head (step_of_increment_remaining hd hr) ?_
    have := @steps_opaque_bytes s { ctx with url := { ctx.url with
      path := (p0 ++ pctEncodeChar c) :: ps } }.increment _ _ _ hs rfl
      (by simp only [increment]; omega) (remaining_increment h0 hr)
      fun x hx => hcs x (List.mem_cons_of_mem _ hx)
    have e : ctx.it + 1 + (s.length : Int) = ctx.it + ((c :: s).length : Nat) := by
      simp only [List.length_cons]; omega
    simpa only [increment, List.append_assoc, List.flatMap_cons, e] using this

/-- **The bytes of a query.**  The query state moves over bytes other than `#`,
percent-encoding each onto the query. -/
theorem steps_query_bytes : ∀ (q : List Char) {ctx : UrlParserContext} {acc tail : List Char},
    ctx.state = .query → ctx.url.query = some acc → 0 ≤ ctx.it → ctx.remaining = q ++ tail →
    '#' ∉ q →
    Relation.ReflTransGen Step ctx { ctx with
      it := ctx.it + q.length
      url := { ctx.url with query := some (acc ++ q.flatMap (pctEncodeChar · querySet)) } }
  | [], ctx, acc, _, _, hq, _, _, _ => by
    simpa [← hq] using Relation.ReflTransGen.refl
  | c :: q, ctx, acc, tail, hs, hq, h0, hr, hh => by
    have hc : c ≠ '#' := fun e => hh (e ▸ List.mem_cons_self _ _)
    have hd : dispatch ctx = .ok (.increment,
        { ctx with url := { ctx.url with query := some (acc ++ pctEncodeChar c querySet) } }) := by
      simp [dispatch, hs, parseFuncs, parseQuery, byte_of_remaining hr, hc,
        isEof_eq_false_of_remaining hr, hq]
    refine .head (step_of_increment_remaining hd hr) ?_
    have := @steps_query_bytes q { ctx with url := { ctx.url with
      query := some (acc ++ pctEncodeChar c querySet) } }.increment _ _ hs rfl
      (by simp only [increment]; omega) (remaining_increment h0 hr)
      fun hm => hh (List.mem_cons_of_mem _ hm)
    have e : ctx.it + 1 + (q.length : Int) = ctx.it + ((c :: q).length : Nat) := by
      simp only [List.length_cons]; omega
    simpa only [increment, List.append_assoc, List.flatMap_cons, e] using this

/-- At EOF the opaque path and the query states return the record. -/
theorem loopBody_opaque_or_query_eof
    (hs : ctx.state = .cannotBeABaseUrlPath ∨ ctx.state = .query) (he : ctx.isEof = true)
    (hr : ctx.remaining = []) : loopBody ctx = .done (.ok ctx.url) := by
  rcases hs with hs | hs
  · simp [loopBody, dispatch, hs, parseFuncs, parseCannotBeABaseUrl, remaining_nil_byte hr, he,
      pure, Except.pure, afterAction]
  · exact loopBody_query_eof hs he hr

/-- At a `#`, outside an override, the opaque path and the query states open the
fragment. -/
theorem step_opaque_or_query_hash
    (hs : ctx.state = .cannotBeABaseUrlPath ∨ ctx.state = .query)
    (hov : ctx.stateOverride = none) (hr : ctx.remaining = '#' :: rest) :
    Step ctx { ctx with url := { ctx.url with fragment := some [] }, state := .fragment }.increment :=
  step_of_increment_remaining (by rcases hs with hs | hs <;>
    simp [dispatch, hs, parseFuncs, parseCannotBeABaseUrl, parseQuery, hov, byte_of_remaining hr,
      pure, Except.pure]) hr

/-- At a `?` the opaque path state opens the query. -/
theorem step_opaque_question (hr : ctx.remaining = '?' :: rest)
    (hs : ctx.state = .cannotBeABaseUrlPath) :
    Step ctx { ctx with url := { ctx.url with query := some [] }, state := .query }.increment :=
  step_of_increment_remaining (by simp [dispatch, hs, parseFuncs, parseCannotBeABaseUrl,
    byte_of_remaining hr, pure, Except.pure]) hr

/-- What is left after the opaque path or the query is a fragment or nothing. -/
theorem terminates_delimited_fragment (f : Option (List Char)) {o : ParseOutcome}
    (hs : ctx.state = .cannotBeABaseUrlPath ∨ ctx.state = .query)
    (hov : ctx.stateOverride = none) (h0 : 0 ≤ ctx.it) (hl : ctx.it ≤ ctx.input.length)
    (hr : ctx.remaining = delimited '#' f)
    (ho : .ok { ctx.url with fragment := f.map encodeFragment } = o)
    (hn : ctx.url.fragment = none) : Terminates ctx o := by
  cases f with
  | none =>
    refine ⟨ctx, .refl, ?_⟩
    rw [loopBody_opaque_or_query_eof hs (isEof_of_remaining_nil h0 hl hr) hr, ← ho,
      Option.map_none', ← hn]
  | some f =>
    have hlen := it_lt_of_remaining_cons hr
    rw [terminates_of_step (step_opaque_or_query_hash hs hov hr)]
    exact terminates_fragment f rfl rfl (by simp only [increment]; omega)
      (by simp only [increment]; omega) (remaining_increment h0 hr) (by simp [← ho])

/-- **The query to the end.**  The query state reads a query and what follows it. -/
theorem terminates_query_tail {acc q : List Char} (f : Option (List Char)) {o : ParseOutcome}
    (hs : ctx.state = .query) (hov : ctx.stateOverride = none) (hq : ctx.url.query = some acc)
    (hn : ctx.url.fragment = none) (h0 : 0 ≤ ctx.it) (hl : ctx.it ≤ ctx.input.length)
    (hr : ctx.remaining = q ++ delimited '#' f) (hh : '#' ∉ q)
    (ho : .ok { ctx.url with
      query := some (acc ++ q.flatMap (pctEncodeChar · querySet))
      fragment := f.map encodeFragment } = o) : Terminates ctx o := by
  rw [terminates_of_steps (steps_query_bytes q hs hq h0 hr hh)]
  exact terminates_delimited_fragment f (.inr hs) hov (by dsimp only; omega)
    (it_add_le_of_remaining hl hr) (remaining_advance h0 hr _ _) ho hn

/-- **The opaque path to the end.**  The cannot-be-a-base-URL path state reads the path and
the optional query and fragment after it. -/
theorem terminates_opaque_tail {p0 s : List Char} {ps : List (List Char)}
    (q f : Option (List Char)) {o : ParseOutcome} (hs : ctx.state = .cannotBeABaseUrlPath)
    (hov : ctx.stateOverride = none) (hp : ctx.url.path = p0 :: ps)
    (hq : ctx.url.query = none) (hn : ctx.url.fragment = none) (h0 : 0 ≤ ctx.it)
    (hl : ctx.it ≤ ctx.input.length)
    (hr : ctx.remaining = s ++ (delimited '?' q ++ delimited '#' f))
    (hsc : ∀ c ∈ s, c ≠ '?' ∧ c ≠ '#') (hqc : ∀ x ∈ q, '#' ∉ x)
    (ho : .ok { ctx.url with
      path := (p0 ++ s.flatMap (pctEncodeChar ·)) :: ps
      query := q.map (·.flatMap (pctEncodeChar · querySet))
      fragment := f.map encodeFragment } = o) : Terminates ctx o := by
  rw [terminates_of_steps (steps_opaque_bytes s hs hp h0 hr hsc)]
  have hr' := remaining_advance h0 hr
    { ctx.url with path := (p0 ++ s.flatMap (pctEncodeChar ·)) :: ps } ctx.buffer
  have hl' := it_add_le_of_remaining hl hr
  cases q with
  | none =>
    exact terminates_delimited_fragment f (.inl hs) hov (by dsimp only; omega) hl' hr'
      (by rw [← ho, Option.map_none', ← hq]) hn
  | some q =>
    replace hr' : _ = '?' :: (q ++ delimited '#' f) := hr'
    have hlen : (ctx.it + s.length).toNat < ctx.input.length := it_lt_of_remaining_cons hr'
    rw [terminates_of_step (step_opaque_question hr' hs)]
    exact terminates_query_tail f rfl hov rfl hn (by simp only [increment]; omega)
      (by simp only [increment]; omega) (remaining_increment (by dsimp only; omega) hr')
      (hqc q rfl) (by simp [← ho])

end Runs

/-! ## The parse -/

/-- **A URL with an opaque path.**  A scheme that is not special, `:`, a path that does not
start with `/`, then an optional query and an optional fragment: the parse returns the
record with the lowercased scheme, the path as one segment percent-encoded with the C0
control set, the query and the fragment each encoded with its own set, the
cannot-be-a-base flag, and no credentials, host or port, whatever the base. -/
theorem parse_opaque_path {sch s : List Char} {q f : Option (List Char)}
    (base : Option UrlRecord) (hsch : isScheme sch)
    (hsp : isSpecial (sch.map Char.toLower) = false)
    (hsan : sanitize (sch ++ ':' :: (s ++ (delimited '?' q ++ delimited '#' f))) =
      sch ++ ':' :: (s ++ (delimited '?' q ++ delimited '#' f)))
    (hs0 : s.head? ≠ some '/') (hsc : ∀ c ∈ s, c ≠ '?' ∧ c ≠ '#') (hqc : ∀ x ∈ q, '#' ∉ x) :
    Parses (sch ++ ':' :: (s ++ (delimited '?' q ++ delimited '#' f))) base none none
      (.ok { scheme := sch.map Char.toLower, path := [s.flatMap (pctEncodeChar ·)],
             query := q.map (·.flatMap (pctEncodeChar · querySet)),
             fragment := f.map encodeFragment, cannotBeABaseUrl := true }) := by
  set body := s ++ (delimited '?' q ++ delimited '#' f)
  have hd : (sch ++ ':' :: body).drop (sch.map Char.toLower).length = ':' :: body := by simp
  have hb0 : body.head? ≠ some '/' := by
    cases s with
    | nil => cases q <;> cases f <;> simp [body, delimited]
    | cons x s => simpa [body] using hs0
  rw [parses_iff_terminates, terminates_of_steps (steps_schemeRead base hsch hsan),
    terminates_of_step (step_afterOpaqueScheme hd hsp hb0)]
  refine terminates_opaque_tail q f rfl rfl rfl rfl rfl (by simp only [afterOpaqueScheme]; omega)
    (by simp [afterOpaqueScheme]) ?_ hsc hqc (by simp [afterOpaqueScheme])
  simp [remaining, afterOpaqueScheme]

theorem parse_opaque_path_mailto :
    isScheme "mailto".toList ∧ isSpecial ("mailto".toList.map Char.toLower) = false ∧
      sanitize ("mailto".toList ++ ':' :: ("x@y".toList ++
        (delimited '?' (some "a=b".toList) ++ delimited '#' none))) =
        "mailto".toList ++ ':' :: ("x@y".toList ++
          (delimited '?' (some "a=b".toList) ++ delimited '#' none)) ∧
      Parses ("mailto".toList ++ ':' :: ("x@y".toList ++
          (delimited '?' (some "a=b".toList) ++ delimited '#' none))) none none none
        (.ok { scheme := "mailto".toList, path := ["x@y".toList], query := some "a=b".toList,
               cannotBeABaseUrl := true }) :=
  ⟨by decide, by decide, by decide, parse_opaque_path none (by decide) (by decide) (by decide)
    (by decide) (by decide) (by decide)⟩

end SkyrUrl
