import SkyrUrl.Paths
import SkyrUrl.Backslash

/-!
# Resolving a reference against a base

Two kinds of reference read against a base record `b`:

* A relative path: a scheme-less reference without `?` or `#` that does not start with two
  slashes takes the base's scheme, userinfo, host and port, and its path is the reference's
  segments applied to the base path without its last segment (or to the root when the
  reference starts with a slash): `relative_reference_resolution`.
* A fragment: `#f` returns the base with its fragment replaced by `f`, percent-encoded,
  whichever of the no-scheme, relative or file routes reads it:
  `fragment_reference_replaces_fragment`.
-/

namespace SkyrUrl

open UrlParserContext

/-! ## The resolved path, as the spec gives it -/

/-- Modelled from the spec: the path of a relative reference `s` resolved against a base
path, from the base path without its last segment, or from the root when `s` starts with a
slash. -/
def resolveRelativePath (special : Bool) (basePath : List (List Char)) (s : List Char) :
    List (List Char) :=
  if isPathSlash special (s.headD '\x00') then resolveSegments [] (pathSegments special s.tail)
  else resolveSegments basePath.dropLast (pathSegments special s)

/-- Modelled from the spec: the fragment-set percent-encoding of `f`, its NUL bytes
dropped. -/
def encodeFragment (f : List Char) : List Char :=
  (f.filter (· ≠ '\x00')).flatMap (pctEncodeChar · fragmentSet)

/-! ## Single passes -/

section Passes

variable {ctx : UrlParserContext} {b : UrlRecord} {c : Char} {rest : List Char}

theorem step_of_increment_isEof {c : UrlParserContext} (hd : dispatch ctx = .ok (.increment, c))
    (he : c.isEof = false) : Step ctx c.increment :=
  step_iff.2 ⟨_, _, hd, .inr ⟨.inl rfl, he, rfl⟩⟩

/-- The iterator one byte back from a byte of the input is not at its end. -/
theorem isEof_decrement (h : ctx.remaining = c :: rest) : ctx.decrement.isEof = false := by
  have := isEof_eq_false_of_remaining h
  have hlen : ctx.it.toNat < ctx.input.length := by
    have := congrArg List.length h
    simp only [remaining, List.length_drop, List.length_cons] at this; omega
  simp only [isEof, decrement, decide_eq_false_iff_not] at this ⊢; omega

theorem step_relative_pathSlash (hs : ctx.state = .relative) (hb : ctx.base = some b)
    (h : ctx.remaining = c :: rest) (hc : isPathSlash (isSpecial b.scheme) c) :
    Step ctx { ctx with url := { ctx.url with scheme := b.scheme }, state := .relativeSlash }.increment := by
  have hc' : c = '/' ∨ (isSpecial b.scheme = true ∧ c = '\\') := by
    simpa [isPathSlash] using hc
  refine step_of_increment_remaining ?_ h
  rcases hc' with rfl | ⟨hsp, rfl⟩
  · simp [dispatch, parseFuncs, hs, byte_of_remaining h, parseRelative, hb,
      isEof_eq_false_of_remaining h]
  · simp [dispatch, parseFuncs, hs, byte_of_remaining h, parseRelative, hb,
      isEof_eq_false_of_remaining h, UrlRecord.isSpecial, hsp]

theorem step_relative_other (hs : ctx.state = .relative) (hb : ctx.base = some b)
    (h : ctx.remaining = c :: rest) (hc : isPathSlash (isSpecial b.scheme) c = false)
    (hq : c ≠ '?') (hh : c ≠ '#') :
    Step ctx { ctx.decrement with
      url := { ({ ctx.url with scheme := b.scheme }).withAuthorityOf b with path := b.path.dropLast }
      state := .path }.increment := by
  have hc' : c ≠ '/' ∧ ¬(isSpecial b.scheme = true ∧ c = '\\') := by simpa [isPathSlash] using hc
  refine step_of_increment_isEof ?_ (isEof_decrement h)
  simp [dispatch, parseFuncs, hs, byte_of_remaining h, parseRelative, hb,
    isEof_eq_false_of_remaining h, UrlRecord.isSpecial, hc', hq, hh]

theorem step_relativeSlash_other (hs : ctx.state = .relativeSlash) (hb : ctx.base = some b)
    (hsp : ctx.url.isSpecial = isSpecial b.scheme)
    (hc : isPathSlash (isSpecial b.scheme) ctx.byte = false) (he : ctx.decrement.isEof = false) :
    Step ctx { ctx.decrement with url := ctx.url.withAuthorityOf b, state := .path }.increment := by
  have hc' : ctx.byte ≠ '/' ∧ ¬(isSpecial b.scheme = true ∧ ctx.byte = '\\') := by
    simpa [isPathSlash] using hc
  refine step_of_increment_isEof ?_ he
  simp only [dispatch, parseFuncs, hs, parseRelativeSlash, hsp, hb]
  rw [if_neg (by tauto), if_neg hc'.1]
  rfl

end Passes

/-! ## A relative path -/

theorem terminates_of_pathRun {ctx : UrlParserContext} {o : ParseOutcome} (hp : PathRun ctx)
    (hb : ctx.buffer = [])
    (ho : .ok { ctx.url with
      path := resolveSegments ctx.url.path (pathSegments ctx.url.isSpecial ctx.remaining) } = o) :
    Terminates ctx o :=
  ho ▸ terminates_path hp hb

/-- A reference that names no scheme is read from the no-scheme state. -/
theorem inputScheme_eq_none_of {s : List Char}
    (h : ¬ ∃ sch rest, isScheme sch ∧ s = sch ++ ':' :: rest) : inputScheme s = none := by
  cases hs : inputScheme s with
  | none => rfl
  | some B =>
    obtain ⟨sch, rest, he, hsch, -⟩ := inputScheme_eq_some hs
    exact absurd ⟨sch, rest, hsch, he⟩ h

/-- **A relative path reference.**  Against a base that is not cannot-be-a-base and whose
scheme is not `file`, a scheme-less sanitized reference without `?` or `#` that does not
start with two slashes (`\` counting when the base is special) parses to the base's scheme,
userinfo, host and port, no query and no fragment, and the reference's path resolved against
the base path. -/
theorem relative_reference_resolution {b : UrlRecord} (hcbab : b.cannotBeABaseUrl = false)
    (hfile : b.scheme ≠ "file".toList) {s : List Char} (hne : s ≠ []) (hsan : sanitize s = s)
    (hscheme : ¬ ∃ sch rest, isScheme sch ∧ s = sch ++ ':' :: rest) (hq : '?' ∉ s)
    (hf : '#' ∉ s)
    (hslashes : ¬ ∃ c₁ c₂ rest, s = c₁ :: c₂ :: rest ∧ isPathSlash (isSpecial b.scheme) c₁ ∧
      isPathSlash (isSpecial b.scheme) c₂) :
    Parses s (some b) none none (.ok
      { scheme := b.scheme, username := b.username, password := b.password, host := b.host,
        port := b.port, path := resolveRelativePath (isSpecial b.scheme) b.path s }) := by
  have h₀ := steps_noScheme_start (some b)
    (by rw [hsan]; exact inputScheme_eq_none_of hscheme : inputScheme (sanitize s) = none)
  have h₁ := @step_noScheme { UrlParserContext.init s (some b) none none with state := .noScheme }
    b rfl rfl hcbab
  rw [if_neg hfile] at h₁
  obtain ⟨c, r, rfl⟩ := List.exists_cons_of_ne_nil hne
  have hr : ({ UrlParserContext.init (c :: r) (some b) none none with
      state := .relative }.reset).remaining = c :: r := by simp [remaining, hsan]
  have hq' : '?' ∉ r := fun h => hq (List.mem_cons_of_mem _ h)
  have hf' : '#' ∉ r := fun h => hf (List.mem_cons_of_mem _ h)
  rw [parses_iff_terminates, terminates_of_steps (h₀.tail h₁)]
  by_cases hc : isPathSlash (isSpecial b.scheme) c
  · have hr₂ : isPathSlash (isSpecial b.scheme) (r.headD '\x00') = false := by
      rcases r with _ | ⟨c', r'⟩
      · simp [isPathSlash]
      · exact Bool.eq_false_iff.2 fun hc' => hslashes ⟨c, c', r', rfl, hc, hc'⟩
    refine (terminates_of_step (step_relative_pathSlash rfl rfl hr hc)).2 ?_
    refine (terminates_of_step (step_relativeSlash_other (b := b) rfl rfl ?_ ?_ ?_)).2 ?_
    · rfl
    · simpa [byte, remaining, hsan] using hr₂
    · simp [isEof, hsan]; omega
    refine terminates_of_pathRun ⟨rfl, rfl, hfile, ?_, ?_, ?_, ?_⟩ rfl ?_
    all_goals simp [remaining, UrlParserContext.init, UrlRecord.withAuthorityOf,
      UrlRecord.isSpecial, resolveRelativePath, hsan, hc, hq', hf',
      Int.le_add_of_nonneg_left (Int.ofNat_nonneg _)]
  · refine (terminates_of_step (step_relative_other rfl rfl hr (Bool.eq_false_iff.2 hc)
      (fun e => hq (e ▸ List.mem_cons_self _ _)) (fun e => hf (e ▸ List.mem_cons_self _ _)))).2 ?_
    refine terminates_of_pathRun ⟨rfl, rfl, hfile, ?_, ?_, ?_, ?_⟩ rfl ?_
    all_goals simp [remaining, UrlParserContext.init, UrlRecord.withAuthorityOf,
      UrlRecord.isSpecial, resolveRelativePath, hsan, hc, hq, hf]
    omega

theorem relative_reference_resolution_dotdot :
    resolveRelativePath true ["b".toList, "c".toList, "d".toList] "../g".toList =
        ["b".toList, "g".toList] ∧
      Parses "../g".toList
        (some { scheme := "http".toList, host := some "a".toList,
                path := ["b".toList, "c".toList, "d".toList] }) none none
        (.ok { scheme := "http".toList, host := some "a".toList,
               path := resolveRelativePath true ["b".toList, "c".toList, "d".toList] "../g".toList }) := by
  refine ⟨by decide, relative_reference_resolution rfl (by decide) (by decide) (by decide) ?_
    (by decide) (by decide) ?_⟩
  · rintro ⟨sch, rest, -, h⟩
    have : ':' ∈ "../g".toList := h ▸ List.mem_append_right _ (List.mem_cons_self _ _)
    exact absurd this (by decide)
  · rintro ⟨c₁, c₂, rest, h, h₁, -⟩
    simp only [String.toList, List.cons.injEq] at h
    rw [← h.1] at h₁
    exact absurd h₁ (by decide)

/-! ## A fragment -/

theorem encodeFragment_cons (c : Char) (f : List Char) :
    encodeFragment (c :: f) =
      (if c = '\x00' then [] else pctEncodeChar c fragmentSet) ++ encodeFragment f := by
  by_cases hc : c = '\x00' <;> simp [encodeFragment, List.filter_cons, hc]

/-- **The fragment state reads the rest of the input.**  Each byte but NUL is percent-encoded
onto the fragment, and at the end the loop returns the record. -/
theorem terminates_fragment : ∀ (r : List Char) {ctx : UrlParserContext} {acc : List Char}
    {o : ParseOutcome}, ctx.state = .fragment → ctx.url.fragment = some acc → 0 ≤ ctx.it →
    ctx.it ≤ ctx.input.length → ctx.remaining = r →
    .ok { ctx.url with fragment := some (acc ++ encodeFragment r) } = o → Terminates ctx o
  | [], ctx, acc, o, hs, hf, h0, hl, hr, ho => by
    have heof : ctx.isEof = true := by
      have := congrArg List.length hr
      simp only [remaining, List.length_drop, List.length_nil] at this
      simp only [isEof, decide_eq_true_eq]; omega
    refine ⟨ctx, .refl, ?_⟩
    simp only [loopBody, dispatch, hs, parseFuncs, parseFragment, byte, hr, List.headD_nil,
      if_true, pure, Except.pure, afterAction, heof, ← ho]
    simp [encodeFragment, ← hf]
  | c :: r, ctx, acc, o, hs, hf, h0, hl, hr, ho => by
    have hd : dispatch ctx = .ok (.increment, { ctx with url := { ctx.url with
        fragment := some (acc ++ if c = '\x00' then [] else pctEncodeChar c fragmentSet) } }) := by
      by_cases hc : c = '\x00'
      · rw [if_pos hc, List.append_nil, ← hf]
        show dispatch ctx = .ok (.increment, ctx)
        simp only [dispatch, hs, parseFuncs, parseFragment, byte_of_remaining hr, if_pos hc]
        rfl
      · simp [dispatch, hs, parseFuncs, parseFragment, byte_of_remaining hr, hc, hf]
    have hlen : ctx.it.toNat < ctx.input.length := by
      have := congrArg List.length hr
      simp only [remaining, List.length_drop, List.length_cons] at this; omega
    rw [terminates_of_step (step_of_increment_remaining hd hr)]
    refine terminates_fragment r hs rfl (by simp only [increment]; omega)
      (by simp only [increment]; omega) (remaining_increment h0 hr) ?_
    simp [← ho, encodeFragment_cons]

section HashPasses

variable {ctx : UrlParserContext} {b : UrlRecord} {rest : List Char}

/-- `parse_no_scheme` on `#` against a cannot-be-a-base base copies its scheme, path and
query and moves to the fragment state. -/
theorem step_noScheme_hash (hs : ctx.state = .noScheme) (hb : ctx.base = some b)
    (hcb : b.cannotBeABaseUrl = true) (h : ctx.remaining = '#' :: rest) :
    Step ctx { ctx with
      url := { ctx.url with
        scheme := b.scheme, path := b.path, query := b.query, fragment := some [],
        cannotBeABaseUrl := true }
      state := .fragment }.increment :=
  step_of_increment_remaining (by simp [dispatch, parseFuncs, hs, parseNoScheme, hb, hcb,
    byte_of_remaining h, pure, Except.pure]) h

/-- `parse_relative` on `#` copies the base's scheme, authority, path and query. -/
theorem step_relative_hash (hs : ctx.state = .relative) (hb : ctx.base = some b)
    (h : ctx.remaining = '#' :: rest) :
    Step ctx { ctx with
      url := { ({ ctx.url with scheme := b.scheme }).withAuthorityOf b with
        path := b.path, query := b.query, fragment := some [] }
      state := .fragment }.increment :=
  step_of_increment_remaining (by simp [dispatch, parseFuncs, hs, parseRelative, hb,
    byte_of_remaining h, isEof_eq_false_of_remaining h]) h

/-- `parse_file` on `#` against a file base copies its host, path and query. -/
theorem step_file_hash (hs : ctx.state = .file) (hb : ctx.base = some b)
    (hf : b.scheme = "file".toList) (h : ctx.remaining = '#' :: rest) :
    Step ctx { ctx with
      url := { ctx.url with
        scheme := "file".toList, host := b.host, path := b.path, query := b.query,
        fragment := some [] }
      state := .fragment }.increment := by
  have hf' : b.scheme = ['f', 'i', 'l', 'e'] := hf
  have he := isEof_eq_false_of_remaining h
  simp only [isEof] at he
  refine step_of_increment_remaining ?_ h
  simp [dispatch, parseFuncs, hs, parseFile, hb, hf', byte_of_remaining h, isEof, he]

end HashPasses

/-- A step on the `#` of `#f` into the fragment state, with an empty fragment so far, ends
in the record with the encoding of `f` as its fragment. -/
theorem terminates_of_hash_step {ctx ctx' : UrlParserContext} {f : List Char} {o : ParseOutcome}
    (hstep : Step ctx ctx'.increment) (hs : ctx'.state = .fragment)
    (hf : ctx'.url.fragment = some []) (h0 : ctx'.it = 0) (hi : ctx'.input = '#' :: f)
    (ho : .ok { ctx'.url with fragment := some (encodeFragment f) } = o) :
    Terminates ctx o := by
  have hr : ctx'.remaining = '#' :: f := by simp [remaining, hi, h0]
  refine (terminates_of_step hstep).2 (terminates_fragment f hs hf (by simp [h0]) ?_
    (remaining_increment (by simp [h0]) hr) ho)
  show ctx'.it + 1 ≤ (ctx'.input.length : Int)
  rw [h0, hi, List.length_cons]
  omega

/-- **A fragment reference.**  Against a well-formed base, `#f` returns the base with its
fragment replaced by the encoding of `f`: cannot-be-a-base bases through the no-scheme state,
file bases through the file state and the others through the relative state; the fields each
route leaves at the fresh record's defaults are those well-formedness fixes. -/
theorem fragment_reference_replaces_fragment {b : UrlRecord} (hwf : b.WellFormed)
    {f : List Char} (hsan : sanitize ('#' :: f) = '#' :: f) :
    Parses ('#' :: f) (some b) none none (.ok { b with fragment := some (encodeFragment f) }) := by
  have h₀ := steps_noScheme_start (some b)
    (by rw [hsan]; rfl : inputScheme (sanitize ('#' :: f)) = none)
  have hr : ({ UrlParserContext.init ('#' :: f) (some b) none none with
      state := .noScheme }).remaining = '#' :: f := by simp [remaining, hsan, UrlParserContext.init]
  rw [parses_iff_terminates, terminates_of_steps h₀]
  cases hcb : b.cannotBeABaseUrl
  · have h₁ := @step_noScheme { UrlParserContext.init ('#' :: f) (some b) none none with
      state := .noScheme } b rfl rfl hcb
    rw [terminates_of_step h₁]
    by_cases hfile : b.scheme = "file".toList
    · obtain ⟨hp, hu, hpw⟩ := hwf.file hfile
      rw [if_pos hfile]
      refine terminates_of_hash_step (step_file_hash rfl rfl hfile hr) rfl rfl rfl hsan ?_
      cases b; simp_all [UrlParserContext.init]
    · rw [if_neg hfile]
      refine terminates_of_hash_step (step_relative_hash rfl rfl hr) rfl rfl rfl hsan ?_
      cases b; simp_all [UrlParserContext.init, UrlRecord.withAuthorityOf]
  · obtain ⟨-, hh, hp, hu, hpw⟩ := hwf.cannot_be_a_base hcb
    refine terminates_of_hash_step (step_noScheme_hash rfl rfl hcb hr) rfl rfl rfl hsan ?_
    cases b; simp_all [UrlParserContext.init]

theorem fragment_reference_replaces_fragment_httpX :
    httpX.WellFormed ∧ sanitize ('#' :: "y".toList) = '#' :: "y".toList ∧
      Parses ('#' :: "y".toList) (some httpX) none none
        (.ok { httpX with fragment := some (encodeFragment "y".toList) }) :=
  ⟨httpX_wellFormed, by decide, fragment_reference_replaces_fragment httpX_wellFormed (by decide)⟩

end SkyrUrl
