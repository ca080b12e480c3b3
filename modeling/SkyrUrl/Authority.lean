import SkyrUrl.Rebase
import SkyrUrl.WellFormed

/-!
# Reaching the authority

The passes of the loop that read a scheme, its `:` and the two slashes after it, or the two
slashes of a scheme-relative reference against a base, and end at the start of the authority
(`authorityStart`) with only the scheme recorded.  From there `parseLoop_rebase` applies:

* `base_ignored_after_authority`: an input that names a scheme and an authority parses the
  same against every base;
* `scheme_relative_resolves_as_absolute`: `//t` against a well-formed base parses as the
  base's scheme followed by `://t`.
-/

namespace SkyrUrl

open UrlParserContext

/-! ## Sanitized inputs -/

/-- What a sanitized input looks like: no tab or newline, and a kept byte at its end. -/
theorem sanitized_shape {t : List Char} (h : sanitize t = t) :
    (∀ c ∈ t, c ∉ ['\t', '\r', '\n']) ∧
      t.reverse.dropWhile (fun c => !isWhitespace c) = t.reverse := by
  unfold sanitize removeTabsAndNewlines removeTrailingWhitespace removeLeadingWhitespace at h
  simp only at h
  have hL := List.dropWhile_suffix (l := t) (fun c => !isWhitespace c)
  generalize t.dropWhile (fun c => !isWhitespace c) = L at h hL
  have hM := List.dropWhile_suffix (l := L.reverse) (fun c => !isWhitespace c)
  generalize hMd : L.reverse.dropWhile (fun c => !isWhitespace c) = M at h hM
  have h₁ : t.length ≤ M.length := by
    have := List.length_filter_le (fun c => decide (c ∉ ['\t', '\r', '\n'])) M.reverse
    rw [h, List.length_reverse] at this
    exact this
  have h₂ := hM.length_le
  have h₃ := hL.length_le
  rw [List.length_reverse] at h₂
  have hLt : L = t := hL.eq_of_length (by omega)
  subst hLt
  have hMt : M = L.reverse := hM.eq_of_length (by rw [List.length_reverse]; omega)
  rw [hMt, List.reverse_reverse] at h
  exact ⟨fun c hc => by simpa using (List.filter_eq_self.1 h) c hc, hMd.trans hMt⟩

/-- A prefix of kept bytes that are no tab or newline leaves a sanitized input sanitized. -/
theorem sanitize_append {p t : List Char} (hp : p ≠ [])
    (hkeep : ∀ c ∈ p, isWhitespace c ∧ c ∉ ['\t', '\r', '\n']) (ht : sanitize t = t) :
    sanitize (p ++ t) = p ++ t := by
  obtain ⟨htabs, hrev⟩ := sanitized_shape ht
  have hfront : (p ++ t).dropWhile (fun c => !isWhitespace c) = p ++ t := by
    obtain ⟨a, p', rfl⟩ := List.exists_cons_of_ne_nil hp
    exact List.dropWhile_cons_of_neg (by simp [(hkeep a (List.mem_cons_self a p')).1])
  have hback : (p.reverse).dropWhile (fun c => !isWhitespace c) = p.reverse := by
    obtain ⟨a, q, hq⟩ := List.exists_cons_of_ne_nil (List.reverse_ne_nil_iff.2 hp)
    rw [hq]
    have ha : a ∈ p := List.mem_reverse.1 (hq ▸ List.mem_cons_self a q)
    exact List.dropWhile_cons_of_neg (by simp [(hkeep a ha).1])
  have hend : ((p ++ t).reverse).dropWhile (fun c => !isWhitespace c) = (p ++ t).reverse := by
    rw [List.reverse_append, List.dropWhile_append, hrev]
    cases t.reverse <;> simp [hback]
  unfold sanitize removeTabsAndNewlines removeTrailingWhitespace removeLeadingWhitespace
  simp only [hfront, hend, List.reverse_reverse]
  refine List.filter_eq_self.2 fun c hc => ?_
  rcases List.mem_append.1 hc with hc | hc
  · simpa using (hkeep c hc).2
  · simpa using htabs c hc

/-- The bytes that sanitizing keeps everywhere: all but C whitespace and the source's extra
control bytes. -/
theorem kept_of_not_mem {c : Char}
    (h : c ∉ [' ', '\t', '\n', '\x0b', '\x0c', '\r', '\x00', '\x1b', '\x04', '\x12', '\x1f']) :
    isWhitespace c ∧ c ∉ ['\t', '\r', '\n'] := by
  simp only [List.mem_cons, List.mem_singleton, List.not_mem_nil, or_false, not_or] at h
  simp [isWhitespace, isSpace, h]

theorem kept_of_isSchemeChar {c : Char} (h : isSchemeChar c) :
    isWhitespace c ∧ c ∉ ['\t', '\r', '\n'] :=
  kept_of_not_mem fun hm => by
    have : ∀ d ∈ [' ', '\t', '\n', '\x0b', '\x0c', '\r', '\x00', '\x1b', '\x04', '\x12', '\x1f'],
        isSchemeChar d = false := by decide
    simp [this c hm] at h

theorem isSchemeChar_of_isScheme {s : List Char} (h : isScheme s) : ∀ c ∈ s, isSchemeChar c := by
  obtain _ | ⟨c₀, cs⟩ := s
  · simp [isScheme] at h
  simp only [isScheme, Bool.and_eq_true, List.all_eq_true] at h
  rintro c (_ | ⟨_, hc⟩)
  · simp [isSchemeChar, Char.isAlphanum, h.1]
  · exact h.2 c hc

theorem sanitize_scheme_slashes {sch t : List Char} (hsch : isScheme sch) (ht : sanitize t = t) :
    sanitize (sch ++ ':' :: '/' :: '/' :: t) = sch ++ ':' :: '/' :: '/' :: t := by
  have := sanitize_append (p := sch ++ [':', '/', '/']) (by simp) ?_ ht
  · simpa using this
  intro c hc
  rcases List.mem_append.1 hc with hc | hc
  · exact kept_of_isSchemeChar (isSchemeChar_of_isScheme hsch c hc)
  · exact (by decide : ∀ d ∈ [':', '/', '/'], isWhitespace d ∧ d ∉ ['\t', '\r', '\n']) c hc

/-! ## Single passes -/

theorem isEof_eq_false_of_byte {ctx : UrlParserContext} (h : ctx.byte ≠ '\x00') :
    ctx.isEof = false := by
  simp only [isEof, decide_eq_false_iff_not]
  intro he
  apply h
  have : ctx.it.toNat = ctx.input.length := by omega
  simp [byte, remaining, this]

/-- A handler that returns `increment` away from the end: the loop goes on one byte
further. -/
theorem step_of_increment {ctx c : UrlParserContext} (hd : dispatch ctx = .ok (.increment, c))
    (hb : c.byte ≠ '\x00') : Step ctx c.increment :=
  step_iff.2 ⟨_, _, hd, .inr ⟨.inl rfl, isEof_eq_false_of_byte hb, rfl⟩⟩

theorem step_congr {a b c : UrlParserContext} (h : Step a b) (e : b = c) : Step a c := e ▸ h

theorem step_of_continue {ctx c : UrlParserContext} (hd : dispatch ctx = .ok (.continue_, c)) :
    Step ctx c :=
  step_iff.2 ⟨_, _, hd, .inl ⟨rfl, rfl⟩⟩

theorem remaining_increment {ctx : UrlParserContext} {x : Char} {rest : List Char}
    (hit : 0 ≤ ctx.it) (h : ctx.remaining = x :: rest) : ctx.increment.remaining = rest := by
  have : (ctx.it + 1).toNat = ctx.it.toNat + 1 := by omega
  simp only [remaining, increment, this, ← List.drop_drop] at h ⊢
  rw [h]; rfl

theorem remaining_of_drop {ctx : UrlParserContext} {k j : Nat} {r : List Char}
    (hd : ctx.input.drop k = r) (hit : ctx.it = k + j) : ctx.remaining = r.drop j := by
  have : ctx.it.toNat = k + j := by omega
  simp only [remaining, this, ← hd, List.drop_drop]

section Passes

variable {ctx : UrlParserContext} {x : Char} {rest : List Char}

theorem byte_of_remaining (h : ctx.remaining = x :: rest) : ctx.byte = x := by
  simp [byte, h]

theorem byte_slash (h : ctx.remaining = '/' :: rest) : ctx.byte ≠ '\x00' := by
  rw [byte_of_remaining h]; decide

theorem step_file_slash (hs : ctx.state = .file) (h : ctx.remaining = '/' :: rest) :
    Step ctx { ctx with url := { ctx.url with scheme := "file".toList }, state := .fileSlash }.increment :=
  step_of_increment (by simp [dispatch, parseFuncs, hs, byte_of_remaining h, parseFile, pure, Except.pure])
    (byte_slash h)

theorem step_fileSlash_slash (hs : ctx.state = .fileSlash) (h : ctx.remaining = '/' :: rest) :
    Step ctx { ctx with state := .fileHost }.increment :=
  step_of_increment (by simp [dispatch, parseFuncs, hs, byte_of_remaining h, parseFileSlash, pure, Except.pure])
    (byte_slash h)

theorem step_pathOrAuthority_slash (hs : ctx.state = .pathOrAuthority)
    (h : ctx.remaining = '/' :: rest) : Step ctx { ctx with state := .authority }.increment :=
  step_of_increment (by simp [dispatch, parseFuncs, hs, byte_of_remaining h, parsePathOrAuthority, pure,
    Except.pure]) (byte_slash h)

theorem step_authoritySlashes (hs : ctx.state = .specialRelativeOrAuthority ∨
      ctx.state = .specialAuthoritySlashes) (hit : 0 ≤ ctx.it)
    (h : ctx.remaining = '/' :: '/' :: rest) :
    Step ctx { ctx.increment with state := .specialAuthorityIgnoreSlashes }.increment := by
  have hsw : ctx.remainingStartsWith ['/'] := by simp [remainingStartsWith, h]
  refine step_of_increment ?_ (byte_slash (remaining_increment hit h) :)
  rcases hs with hs | hs <;>
    simp [dispatch, parseFuncs, hs, byte_of_remaining h, parseSpecialRelativeOrAuthority,
      parseSpecialAuthoritySlashes, hsw, pure, Except.pure]

theorem step_relative_slash {b : UrlRecord} (hs : ctx.state = .relative) (hb : ctx.base = some b)
    (h : ctx.remaining = '/' :: rest) :
    Step ctx { ctx with url := { ctx.url with scheme := b.scheme }, state := .relativeSlash }.increment :=
  step_of_increment (by simp [dispatch, parseFuncs, hs, byte_of_remaining h, parseRelative, hb,
    isEof_eq_false_of_byte (byte_slash h)]) (byte_slash h)

theorem step_relativeSlash_slash (hs : ctx.state = .relativeSlash)
    (h : ctx.remaining = '/' :: rest) :
    Step ctx { ctx with state := if ctx.url.isSpecial then .specialAuthorityIgnoreSlashes
      else .authority }.increment := by
  refine step_of_increment ?_ (byte_slash h)
  by_cases hsp : ctx.url.isSpecial <;> simp [dispatch, parseFuncs, hs, byte_of_remaining h, parseRelativeSlash, hsp]

theorem step_schemeStart_not_alpha (hs : ctx.state = .schemeStart) (hov : ctx.stateOverride = none)
    (h : ctx.byte.isAlpha = false) : Step ctx { ctx with state := .noScheme }.reset :=
  step_of_continue (by simp [dispatch, parseFuncs, hs, parseSchemeStart, h, hov, pure, Except.pure])

theorem step_noScheme {b : UrlRecord} (hs : ctx.state = .noScheme) (hb : ctx.base = some b)
    (hcb : b.cannotBeABaseUrl = false) :
    Step ctx { ctx with state := if b.scheme = "file".toList then .file else .relative }.reset := by
  refine step_of_continue ?_
  by_cases hf : b.scheme = "file".toList <;>
    simp only [dispatch, parseFuncs, hs, parseNoScheme, hb, hcb, hf, Bool.false_eq_true, false_and, ne_eq,
      not_true, not_false_eq_true, if_true, if_false] <;> rfl

end Passes

/-! ## The scheme -/

/-- The scheme state on a scheme byte: the byte, lowercased, goes to the buffer. -/
theorem step_scheme_byte {ctx : UrlParserContext} {x : Char} {rest : List Char}
    (hs : ctx.state = .scheme) (h : ctx.remaining = x :: rest) (hx : isSchemeChar x) :
    Step ctx { ctx with buffer := ctx.buffer ++ [x.toLower] }.increment := by
  have hb : ctx.byte = x := by simp [byte, h]
  have hx0 : x ≠ '\x00' := by rintro rfl; exact absurd hx (by decide)
  refine step_of_increment ?_ (show ctx.byte ≠ _ by rw [hb]; exact hx0)
  simp only [isSchemeChar] at hx
  simp only [dispatch, parseFuncs, hs, hb, parseScheme, hx, if_true]
  rfl

/-- The scheme state reads a run of scheme bytes into its buffer, lowercased. -/
theorem steps_scheme_bytes (rest : List Char) :
    ∀ (cs : List Char) (ctx : UrlParserContext), cs.all isSchemeChar → ctx.state = .scheme →
      0 ≤ ctx.it → ctx.remaining = cs ++ rest →
      Relation.ReflTransGen Step ctx
        { ctx with buffer := ctx.buffer ++ cs.map Char.toLower, it := ctx.it + cs.length }
  | [], ctx, _, _, _, _ => by simpa using Relation.ReflTransGen.refl
  | x :: cs, ctx, hcs, hs, hit, h => by
    simp only [List.all_cons, Bool.and_eq_true] at hcs
    refine .head (step_scheme_byte hs h hcs.1) ?_
    have := steps_scheme_bytes rest cs { ctx with buffer := ctx.buffer ++ [x.toLower] }.increment
      hcs.2 hs (by simp only [increment]; omega) (remaining_increment hit h)
    have e : ctx.it + 1 + (cs.length : Int) = ctx.it + ((x :: cs).length : Nat) := by
      simp only [List.length_cons]; omega
    simpa only [increment, List.append_assoc, List.singleton_append, List.map_cons, e] using this

/-- The scheme state once the scheme's bytes are read into the buffer, at the byte after
them. -/
def schemeRead (input : List Char) (base : Option UrlRecord) (buffer : List Char) :
    UrlParserContext :=
  { input := input, it := buffer.length, base := base, url := {}, state := .scheme,
    stateOverride := none, buffer := buffer, atFlag := false, squareBracesFlag := false,
    passwordTokenSeenFlag := false }

/-- Without record or override, the loop reads a leading scheme into its buffer. -/
theorem steps_schemeRead {s sch rest : List Char} (base : Option UrlRecord) (hsch : isScheme sch)
    (hs : sanitize s = sch ++ rest) :
    Relation.ReflTransGen Step (UrlParserContext.init s base none none)
      (schemeRead (sch ++ rest) base (sch.map Char.toLower)) := by
  obtain _ | ⟨c₀, cs⟩ := sch
  · simp [isScheme] at hsch
  simp only [isScheme, Bool.and_eq_true] at hsch
  have hinit : Step (UrlParserContext.init s base none none)
      { schemeRead (c₀ :: cs ++ rest) base [c₀.toLower] with it := 1 } := by
    simp only [Step, loopBody, dispatch, parseFuncs, UrlParserContext.init, hs, Option.getD_none]
    simp [byte, remaining, parseSchemeStart, hsch.1, afterAction, isEof, schemeRead, pure,
      Except.pure]
    omega
  refine .head hinit ?_
  have := steps_scheme_bytes rest cs
    { schemeRead (c₀ :: cs ++ rest) base [c₀.toLower] with it := 1 } hsch.2 rfl
    (by simp) (by simp [remaining, schemeRead])
  convert this using 1
  simp [schemeRead]
  omega

/-- The state that the `:` of a special scheme leads to: `file`, else the state that tells a
scheme-relative reference from an authority when the base has the same scheme, else the
special authority slashes. -/
def specialSchemeState (scheme : List Char) (base : Option UrlRecord) : UrlState :=
  if scheme = "file".toList then .file
  else if base.map (·.scheme) = some scheme then .specialRelativeOrAuthority
  else .specialAuthoritySlashes

/-- The loop just past the `:` of a special scheme. -/
def afterSpecialScheme (input : List Char) (base : Option UrlRecord) (scheme : List Char) :
    UrlParserContext :=
  { input := input, it := scheme.length + 1, base := base, url := { scheme := scheme },
    state := specialSchemeState scheme base, stateOverride := none, buffer := [],
    atFlag := false, squareBracesFlag := false, passwordTokenSeenFlag := false }

theorem schemeRead_remaining {input rest B : List Char} (base : Option UrlRecord)
    (hd : input.drop B.length = rest) : (schemeRead input base B).remaining = rest := by
  simp [remaining, schemeRead, hd]

/-- At the `:` of a special scheme, the scheme is stored and the loop moves past the `:`. -/
theorem step_afterSpecialScheme {input rest B : List Char} {base : Option UrlRecord}
    (hd : input.drop B.length = ':' :: rest) (hsp : isSpecial B) :
    Step (schemeRead input base B) (afterSpecialScheme input base B) := by
  have hb := byte_of_remaining (schemeRead_remaining base hd)
  refine step_congr (step_of_increment (c := { schemeRead input base B with
    url := { scheme := B }, buffer := [], state := specialSchemeState B base }) ?_
    (by change (schemeRead input base B).byte ≠ _; rw [hb]; decide))
    (by simp [afterSpecialScheme, schemeRead])
  simp only [dispatch, parseFuncs, hb]
  by_cases hf : B = "file".toList
  · simp [parseScheme, schemeNextState, schemeRead, specialSchemeState, hf]
  have hf' : B ≠ ['f', 'i', 'l', 'e'] := hf
  by_cases hb : base.map (fun r : UrlRecord => r.scheme) = some B <;>
    simp [parseScheme, schemeNextState, schemeRead, specialSchemeState, UrlRecord.isSpecial, hf,
      hf', hsp, hb]

/-! ## The start of the authority -/

/-- The state that a scheme's `://` leads to: `file_host` for `file`, the ignore-slashes
state for the other special schemes, the authority otherwise. -/
def authorityState (scheme : List Char) : UrlState :=
  if scheme = "file".toList then .fileHost
  else if isSpecial scheme then .specialAuthorityIgnoreSlashes
  else .authority

/-- The loop at the start of the authority, byte `k`, with only the scheme recorded. -/
def authorityStart (input : List Char) (k : Nat) (base : Option UrlRecord) (scheme : List Char) :
    UrlParserContext :=
  { input := input, it := k, base := base, url := { scheme := scheme },
    state := authorityState scheme, stateOverride := none, buffer := [], atFlag := false,
    squareBracesFlag := false, passwordTokenSeenFlag := false }

/-- From the scheme's `:`, the two slashes lead to the start of the authority. -/
theorem steps_colon_slashes {input rest B : List Char} (base : Option UrlRecord)
    (hd : input.drop B.length = ':' :: '/' :: '/' :: rest) :
    Relation.ReflTransGen Step (schemeRead input base B)
      (authorityStart input (B.length + 3) base B) := by
  have hr : ∀ {ctx : UrlParserContext} (j : Nat), ctx.input = input → ctx.it = B.length + j →
      ctx.remaining = (':' :: '/' :: '/' :: rest).drop j := fun j hi hit =>
    remaining_of_drop (hi ▸ hd) hit
  by_cases hsp : isSpecial B
  · refine .head (step_afterSpecialScheme hd hsp) ?_
    by_cases hf : B = "file".toList
    · refine .head (step_file_slash (by simp [afterSpecialScheme, specialSchemeState, hf])
        (hr 1 rfl rfl)) (.single (step_congr (step_fileSlash_slash rfl (hr 2 rfl ?_)) ?_))
      · simp [afterSpecialScheme]; omega
      · simp [authorityStart, authorityState, afterSpecialScheme, hf]
    · have hf' : B ≠ ['f', 'i', 'l', 'e'] := hf
      refine .single (step_congr (step_authoritySlashes ?_ ?_ (hr 1 rfl rfl)) ?_)
      · simp only [afterSpecialScheme, specialSchemeState, if_neg hf]; split_ifs <;> simp
      · simp [afterSpecialScheme]; omega
      · simp [authorityStart, authorityState, afterSpecialScheme, hf', hsp]; omega
  · have hf : B ≠ ['f', 'i', 'l', 'e'] := fun h => hsp (by simp [h]; decide)
    have h1 : Step (schemeRead input base B)
        { schemeRead input base B with
          url := { scheme := B }, buffer := [], state := .pathOrAuthority }.increment.increment :=
      step_of_increment (by
        simp only [dispatch, parseFuncs, byte_of_remaining (schemeRead_remaining base hd)]
        simp [parseScheme, schemeNextState, schemeRead, UrlRecord.isSpecial, hf, hsp,
          remainingStartsWith, remaining, hd])
        (byte_slash (hr 1 rfl (by simp [schemeRead])))
    refine .head h1 (.single (step_congr (step_pathOrAuthority_slash rfl (hr 2 rfl ?_)) ?_))
    · simp [schemeRead]; omega
    · simp [authorityStart, authorityState, schemeRead, hf, hsp]; omega

/-- Without record or override, a scheme followed by `://` leads to the start of the
authority, with the scheme lowercased, whatever the base. -/
theorem steps_authorityStart_of_scheme {sch rest : List Char} (base : Option UrlRecord)
    (hsch : isScheme sch)
    (hs : sanitize (sch ++ ':' :: '/' :: '/' :: rest) = sch ++ ':' :: '/' :: '/' :: rest) :
    Relation.ReflTransGen Step (UrlParserContext.init (sch ++ ':' :: '/' :: '/' :: rest) base none none)
      (authorityStart (sch ++ ':' :: '/' :: '/' :: rest) (sch.length + 3) base
        (sch.map Char.toLower)) := by
  have hd : (sch ++ ':' :: '/' :: '/' :: rest).drop (sch.map Char.toLower).length =
      ':' :: '/' :: '/' :: rest := by simp
  have := steps_colon_slashes base hd
  rw [List.length_map] at this
  exact (steps_schemeRead base hsch hs).trans this

theorem isAuthorityOrLater_authorityState (scheme : List Char) :
    isAuthorityOrLater (authorityState scheme) := by
  unfold authorityState; split_ifs <;> rfl

theorem inBounds_authorityStart {input : List Char} {k : Nat} {base : Option UrlRecord}
    {scheme : List Char} (hk : k ≤ input.length) : InBounds k (authorityStart input k base scheme) := by
  simp only [InBounds, authorityStart, isAuthorityOrLater_authorityState]
  simp
  omega

/-- Two runs at the start of an authority with the same scheme and the same bytes after
it return the same, whatever their bases and the bytes before. -/
theorem terminates_authorityStart_iff {input input' : List Char} {k k' : Nat}
    {base base' : Option UrlRecord} {scheme : List Char} {o : ParseOutcome} (hk : 0 < k)
    (hkle : k ≤ input.length) (hk' : k' ≤ input'.length) (hsuf : input.drop k = input'.drop k') :
    Terminates (authorityStart input' k' base' scheme) o ↔
      Terminates (authorityStart input k base scheme) o := by
  have e : authorityStart input' k' base' scheme =
      (authorityStart input k base scheme).rebase input' base' (k' - k) := by
    simp only [authorityStart, rebase, mk.injEq, true_and, and_true]
    omega
  simp only [terminates_iff, e, parseLoop_rebase _ (inBounds_authorityStart hkle) hk hsuf hk']

/-- Against a base that is not cannot-be-a-base, `//` leads to the start of the authority
with the base's scheme. -/
theorem steps_authorityStart_of_slashes {t : List Char} {b : UrlRecord}
    (hcb : b.cannotBeABaseUrl = false) (ht : sanitize ('/' :: '/' :: t) = '/' :: '/' :: t) :
    Relation.ReflTransGen Step (UrlParserContext.init ('/' :: '/' :: t) (some b) none none)
      (authorityStart ('/' :: '/' :: t) 2 (some b) b.scheme) := by
  have hr : ∀ {ctx : UrlParserContext} (j : Nat), ctx.input = '/' :: '/' :: t → ctx.it = j →
      ctx.remaining = ('/' :: '/' :: t).drop j := fun j hi hit =>
    remaining_of_drop (k := 0) (by rw [hi]; rfl) (by omega)
  refine .head (step_schemeStart_not_alpha rfl rfl ?_) (.head (step_noScheme rfl rfl hcb) ?_)
  · rw [byte_of_remaining (hr 0 (by simp [ht]) rfl)]; rfl
  by_cases hf : b.scheme = "file".toList
  · rw [if_pos hf]
    refine .head (step_file_slash rfl (hr 0 (by simp [ht]) rfl))
      (.single (step_congr (step_fileSlash_slash rfl (hr 1 (by simp [ht]) rfl)) ?_))
    simp [authorityStart, authorityState, hf, UrlParserContext.init, ht]
  · have hf' : b.scheme ≠ ['f', 'i', 'l', 'e'] := hf
    rw [if_neg hf]
    refine .head (step_relative_slash rfl rfl (hr 0 (by simp [ht]) rfl))
      (.single (step_congr (step_relativeSlash_slash rfl (hr 1 (by simp [ht]) rfl)) ?_))
    simp [authorityStart, authorityState, hf', UrlParserContext.init, ht, UrlRecord.isSpecial]

/-! ## The base after the authority -/

/-- **Once the input names its authority, the base is not read.**  A sanitized input that
starts with a scheme, `:` and two slashes parses the same against any two bases. -/
theorem base_ignored_after_authority {sch rest : List Char} (hsch : isScheme sch)
    (hs : sanitize (sch ++ "://".toList ++ rest) = sch ++ "://".toList ++ rest)
    (b₁ b₂ : Option UrlRecord) (o : ParseOutcome) :
    Parses (sch ++ "://".toList ++ rest) b₁ none none o ↔
      Parses (sch ++ "://".toList ++ rest) b₂ none none o := by
  have e : sch ++ "://".toList ++ rest = sch ++ ':' :: '/' :: '/' :: rest := by simp
  rw [e] at hs ⊢
  rw [parses_iff_terminates, parses_iff_terminates,
    terminates_of_steps (steps_authorityStart_of_scheme b₁ hsch hs),
    terminates_of_steps (steps_authorityStart_of_scheme b₂ hsch hs)]
  exact terminates_authorityStart_iff (by omega) (by simp) (by simp) rfl


theorem base_ignored_after_authority_http :
    isScheme "http".toList ∧
      sanitize ("http".toList ++ "://".toList ++ "x/".toList) =
        "http".toList ++ "://".toList ++ "x/".toList ∧
      (Parses ("http".toList ++ "://".toList ++ "x/".toList) none none none (.ok httpX) ↔
        Parses ("http".toList ++ "://".toList ++ "x/".toList) (some httpX) none none (.ok httpX)) :=
  ⟨by decide, by decide, base_ignored_after_authority (by decide) (by decide) none (some httpX) _⟩

theorem httpX_wellFormed : httpX.WellFormed where
  scheme := by decide
  cannot_be_a_base h := absurd h (by decide)
  file h := absurd h (by decide)
  port p h := by simp [httpX] at h
  host _ _ := ⟨"x".toList, rfl, by decide⟩
  path := by decide
  query q h := by simp [httpX] at h

/-- **A scheme-relative reference resolves as the absolute URL with the base's scheme.**
Against a well-formed base that is not cannot-be-a-base, `//t` parses as `scheme://t` does
with no base, for every sanitized `t`. -/
theorem scheme_relative_resolves_as_absolute {b : UrlRecord} (hb : b.WellFormed)
    (hcb : b.cannotBeABaseUrl = false) {t : List Char} (ht : sanitize t = t) (o : ParseOutcome) :
    Parses ("//".toList ++ t) (some b) none none o ↔
      Parses (b.scheme ++ "://".toList ++ t) none none none o := by
  obtain ⟨hsch, hlow⟩ := isLowerScheme_isScheme hb.scheme
  have e₁ : "//".toList ++ t = '/' :: '/' :: t := rfl
  have e₂ : b.scheme ++ "://".toList ++ t = b.scheme ++ ':' :: '/' :: '/' :: t := by simp
  have hA := steps_authorityStart_of_slashes (t := t) hcb
    (sanitize_append (p := ['/', '/']) (by simp) (by decide) ht)
  have hB := steps_authorityStart_of_scheme none hsch (sanitize_scheme_slashes hsch ht)
  rw [hlow] at hB
  rw [e₁, e₂, parses_iff_terminates, parses_iff_terminates, terminates_of_steps hA,
    terminates_of_steps hB]
  exact terminates_authorityStart_iff (by omega) (by simp) (by simp) (by simp)

theorem scheme_relative_resolves_as_absolute_http :
    httpX.WellFormed ∧ httpX.cannotBeABaseUrl = false ∧ sanitize "y".toList = "y".toList ∧
      Parses (httpX.scheme ++ "://".toList ++ "y".toList) none none none
        (.ok { scheme := "http".toList, host := some "y".toList, path := [[]] }) ∧
      Parses ("//".toList ++ "y".toList) (some httpX) none none
        (.ok { scheme := "http".toList, host := some "y".toList, path := [[]] }) :=
  have habs : Parses (httpX.scheme ++ "://".toList ++ "y".toList) none none none
      (.ok { scheme := "http".toList, host := some "y".toList, path := [[]] }) := ⟨20, by decide⟩
  ⟨httpX_wellFormed, rfl, by decide, habs,
    (scheme_relative_resolves_as_absolute httpX_wellFormed rfl (by decide) _).2 habs⟩

end SkyrUrl
