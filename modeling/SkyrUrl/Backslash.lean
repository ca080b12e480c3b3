import SkyrUrl.SlashVariant
import SkyrUrl.Authority

/-!
# Backslashes in special URLs

In a URL with a special scheme the handlers read `\` where they read `/`, up to the first `?`
or `#`.  `backslash_variant_parses_same` says so of whole parses: an input and a slash variant
of it (`SlashVariant`) parse the same when the effective scheme is special.  The proof runs
the two loops side by side:

* `SlashAlike ctx`: what makes the handler of the state read `\` as `/` (a special scheme,
  in the record or for the relative states in the base); `parseFuncs_backslash`.
* `parseFuncs_rebase_base`: the handlers before the authority, read against the variant
  input, return the same moved to it (the ones from the authority on are `parseFuncs_rebase`).
* `KeepsSlashAlike`: what a handler's return keeps for the next pass, one lemma per handler.
* `SlashSync`, `dispatch_sync`, `loopBody_sync`: a pass of the first run is the same pass of
  the variant's run, except for the stutter of `stutter_steps`: where the special authority
  states skip `//` in one pass, the variant with a `\` there takes three.
* `terminates_slashSync`: by `terminates_iff_of_simulation`, the two loops return the same.
-/

namespace SkyrUrl

open UrlParserContext

/-! ## Handlers that read `\` as `/` -/

/-- What makes the handler of a context's state read `\` as `/`: a special scheme in the
record, or for the no-scheme and relative states (which take the scheme from the base) a
special base, and for the special-relative-or-authority state a base of the same scheme.
The scheme states and the states of a non-special URL never hold it; the query and fragment
states read bytes after a `?` or `#`, which the variant leaves alone. -/
def SlashAlike (ctx : UrlParserContext) : Prop :=
  match ctx.state with
  | .schemeStart | .scheme | .pathOrAuthority | .cannotBeABaseUrlPath => False
  | .noScheme | .relative => ∃ b, ctx.base = some b ∧ isSpecial b.scheme
  | .specialRelativeOrAuthority =>
    ctx.url.isSpecial ∧ ctx.base.map (·.scheme) = some ctx.url.scheme
  | .file | .query | .fragment => True
  | _ => ctx.url.isSpecial

/-- The states after a `?` or `#`. -/
def isQueryOrFragment : UrlState → Bool
  | .query | .fragment => true
  | _ => false

@[simp] theorem isSpecial_file : isSpecial ['f', 'i', 'l', 'e'] = true := by decide

section Backslash

variable {ctx : UrlParserContext}

theorem parseNoScheme_backslash : parseNoScheme ctx '\\' = parseNoScheme ctx '/' := by
  simp [parseNoScheme]

theorem parseRelative_backslash {b : UrlRecord} (hb : ctx.base = some b)
    (hsp : isSpecial b.scheme) : parseRelative ctx '\\' = parseRelative ctx '/' := by
  simp [parseRelative, hb, hsp, UrlRecord.isSpecial]

theorem parseRelativeSlash_backslash (hsp : ctx.url.isSpecial) :
    parseRelativeSlash ctx '\\' = parseRelativeSlash ctx '/' := by
  simp [parseRelativeSlash, hsp]

theorem parseSpecialAuthorityIgnoreSlashes_backslash :
    parseSpecialAuthorityIgnoreSlashes ctx '\\' = parseSpecialAuthorityIgnoreSlashes ctx '/' := by
  simp [parseSpecialAuthorityIgnoreSlashes]

theorem parseAuthority_backslash (hsp : ctx.url.isSpecial) :
    parseAuthority ctx '\\' = parseAuthority ctx '/' := by
  simp [parseAuthority, isAuthorityEnd, hsp]

theorem parseHostname_backslash (hsp : ctx.url.isSpecial) :
    parseHostname ctx '\\' = parseHostname ctx '/' := by
  simp [parseHostname, isAuthorityEnd, hsp]

theorem parsePort_backslash (hsp : ctx.url.isSpecial) :
    parsePort ctx '\\' = parsePort ctx '/' := by
  simp [parsePort, isAuthorityEnd, hsp]

theorem parseFile_backslash : parseFile ctx '\\' = parseFile ctx '/' := by
  simp [parseFile]

theorem parseFileSlash_backslash : parseFileSlash ctx '\\' = parseFileSlash ctx '/' := by
  simp [parseFileSlash]

theorem parseFileHost_backslash : parseFileHost ctx '\\' = parseFileHost ctx '/' := by
  simp [parseFileHost]

theorem parsePathStart_backslash (hsp : ctx.url.isSpecial) :
    parsePathStart ctx '\\' = parsePathStart ctx '/' := by
  simp [parsePathStart, hsp]

theorem parsePath_backslash (hsp : ctx.url.isSpecial) :
    parsePath ctx '\\' = parsePath ctx '/' := by
  simp [parsePath, hsp]

/-- The handler of a `SlashAlike` context, other than the lookahead states and those after
a `?` or `#`, returns the same on `\\` as on `/`. -/
theorem parseFuncs_backslash {s : UrlState} (hs : ctx.state = s) (h : SlashAlike ctx)
    (hl : ¬(s = .specialRelativeOrAuthority ∨ s = .specialAuthoritySlashes))
    (hq : isQueryOrFragment s = false) :
    parseFuncs s ctx '\\' = parseFuncs s ctx '/' := by
  unfold SlashAlike at h
  rw [hs] at h
  cases s <;> simp [isQueryOrFragment] at hl hq <;> simp only at h <;> simp only [parseFuncs]
  case noScheme => rw [parseNoScheme_backslash]
  case relative => obtain ⟨b, hb, hsp⟩ := h; exact parseRelative_backslash hb hsp
  case relativeSlash => exact parseRelativeSlash_backslash h
  case specialAuthorityIgnoreSlashes => rw [parseSpecialAuthorityIgnoreSlashes_backslash]
  case authority => rw [parseAuthority_backslash h]
  case host => exact parseHostname_backslash h
  case hostname => exact parseHostname_backslash h
  case port => rw [parsePort_backslash h]
  case file => rw [parseFile_backslash]
  case fileSlash => rw [parseFileSlash_backslash]
  case fileHost => exact parseFileHost_backslash
  case pathStart => rw [parsePathStart_backslash h]
  case path => exact parsePath_backslash h

end Backslash

/-- The lookahead of the two special-authority-slashes states: `//` at the iterator. -/
def slashesAhead (ctx : UrlParserContext) : Prop :=
  ctx.byte = '/' ∧ ctx.remainingStartsWith ['/'] = true

/-! ## The handlers before the authority on the variant input -/

section Rebase

variable {ctx : UrlParserContext} {i : List Char} {c : Char}

theorem parseNoScheme_rebase :
    parseNoScheme (ctx.rebase i ctx.base 0) c = rebaseStep i ctx.base 0 (parseNoScheme ctx c) := by
  unfold parseNoScheme
  simp only [rebase_base]
  split <;> (try split_ifs) <;> simp [rebaseStep, rebase]

theorem parseRelative_rebase (h : i.length = ctx.input.length) :
    parseRelative (ctx.rebase i ctx.base 0) c =
      (parseRelative ctx c).map (rebaseStep i ctx.base 0) := by
  unfold parseRelative
  simp only [rebase_base, rebase_isEof (by simp [h] : (i.length : Int) = ctx.input.length + 0),
    rebase_url]
  refine bind_eq_map_bind fun _ => ?_
  repeat' refine ite_eq_apply_ite (fun _ => ?_) (fun _ => ?_)
  all_goals simp [rebaseStep, rebase, pure, Except.pure, Except.map]

theorem parseRelativeSlash_rebase :
    parseRelativeSlash (ctx.rebase i ctx.base 0) c =
      (parseRelativeSlash ctx c).map (rebaseStep i ctx.base 0) := by
  unfold parseRelativeSlash
  simp only [rebase_base, rebase_url]
  split_ifs
  · rfl
  · rfl
  · cases hb : ctx.base
    · rfl
    · simp [rebaseStep, rebase, hb, pure, Except.pure, Except.map, bind, Except.bind]

theorem parseFile_rebase (h : i.length = ctx.input.length)
    (hw : isWindowsDriveLetter (i.drop ctx.it.toNat) = isWindowsDriveLetter ctx.remaining) :
    parseFile (ctx.rebase i ctx.base 0) c = rebaseStep i ctx.base 0 (parseFile ctx c) := by
  unfold parseFile
  simp only [remaining] at hw
  simp only [isEof, remaining, rebase, Int.add_zero, h, hw]
  repeat' first
    | refine ite_eq_apply_ite (fun _ => ?_) (fun _ => ?_)
    | split
  all_goals simp [rebaseStep, rebase]

theorem parseFileSlash_rebase
    (hw : isWindowsDriveLetter (i.drop ctx.it.toNat) = isWindowsDriveLetter ctx.remaining) :
    parseFileSlash (ctx.rebase i ctx.base 0) c = rebaseStep i ctx.base 0 (parseFileSlash ctx c) := by
  unfold parseFileSlash
  simp only [remaining] at hw
  simp only [remaining, rebase, Int.add_zero, hw]
  split_ifs <;> simp [rebaseStep, rebase]


variable {c₂ : Char}

theorem parseSpecialRelativeOrAuthority_rebase
    (hc : (c₂ = '/' ∧ (ctx.rebase i ctx.base 0).remainingStartsWith ['/'] = true) ↔
      (c = '/' ∧ ctx.remainingStartsWith ['/'] = true)) :
    parseSpecialRelativeOrAuthority (ctx.rebase i ctx.base 0) c₂ =
      rebaseStep i ctx.base 0 (parseSpecialRelativeOrAuthority ctx c) := by
  unfold parseSpecialRelativeOrAuthority
  simp only [hc]
  split_ifs <;> simp [rebaseStep, rebase]

theorem parseSpecialAuthoritySlashes_rebase
    (hc : (c₂ = '/' ∧ (ctx.rebase i ctx.base 0).remainingStartsWith ['/'] = true) ↔
      (c = '/' ∧ ctx.remainingStartsWith ['/'] = true)) :
    parseSpecialAuthoritySlashes (ctx.rebase i ctx.base 0) c₂ =
      rebaseStep i ctx.base 0 (parseSpecialAuthoritySlashes ctx c) := by
  unfold parseSpecialAuthoritySlashes
  simp only [hc]
  split_ifs <;> simp [rebaseStep, rebase]

/-- The handlers before the authority, other than the lookahead states, and all from the
authority on, read against a variant input of the same length with the same drive letter
ahead, return the same moved to it. -/
theorem parseFuncs_rebase_base (h : SlashAlike ctx)
    (hl : ¬(ctx.state = .specialRelativeOrAuthority ∨ ctx.state = .specialAuthoritySlashes))
    (hlen : i.length = ctx.input.length)
    (hw : isWindowsDriveLetter (i.drop ctx.it.toNat) = isWindowsDriveLetter ctx.remaining) :
    parseFuncs ctx.state (ctx.rebase i ctx.base 0) c =
      (parseFuncs ctx.state ctx c).map (rebaseStep i ctx.base 0) := by
  have hlen' : (i.length : Int) = ctx.input.length + 0 := by simp [hlen]
  unfold SlashAlike at h
  cases hs : ctx.state <;> simp only [hs] at h hl <;> simp at hl
  case noScheme => simp only [parseFuncs, pure, Except.pure, Except.map, parseNoScheme_rebase]
  case relative => exact parseRelative_rebase hlen
  case relativeSlash => exact parseRelativeSlash_rebase
  case file => simp only [parseFuncs, pure, Except.pure, Except.map, parseFile_rebase hlen hw]
  case fileSlash =>
    simp only [parseFuncs, pure, Except.pure, Except.map, parseFileSlash_rebase hw]
  all_goals exact parseFuncs_rebase rfl hlen'

end Rebase

/-! ## What a pass keeps -/

/-- What a handler's return on byte `c` keeps for the next pass: the input and the base,
`SlashAlike`, and the query and fragment states entered only at a `?` or `#`, at the same
position. -/
def KeepsSlashAlike (ctx : UrlParserContext) (c : Char) (r : HandlerStep) : Prop :=
  r.2.input = ctx.input ∧ r.2.base = ctx.base ∧ SlashAlike r.2 ∧
    (isQueryOrFragment r.2.state →
      (isQueryOrFragment ctx.state ∨ c = '?' ∨ c = '#') ∧ r.2.it = ctx.it)

/-- `KeepsSlashAlike` of what a handler returns, if it returns. -/
def KeepsSlashAlikeResult (ctx : UrlParserContext) (c : Char) (r : HandlerResult) : Prop :=
  ∀ p, r = .ok p → KeepsSlashAlike ctx c p

section Lemmas

variable {ctx : UrlParserContext} {c : Char}

theorem keepsSlashAlike_ite {p : Prop} [Decidable p] {x y : HandlerStep} (hx : p → KeepsSlashAlike ctx c x)
    (hy : ¬p → KeepsSlashAlike ctx c y) : KeepsSlashAlike ctx c (if p then x else y) :=
  iteInduction (motive := KeepsSlashAlike ctx c) hx hy

theorem keepsSlashAlikeResult_ite {p : Prop} [Decidable p] {x y : HandlerResult}
    (hx : p → KeepsSlashAlikeResult ctx c x) (hy : ¬p → KeepsSlashAlikeResult ctx c y) :
    KeepsSlashAlikeResult ctx c (if p then x else y) :=
  forall_ok_ite hx hy

@[simp] theorem keepsSlashAlikeResult_pure {p : HandlerStep} :
    KeepsSlashAlikeResult ctx c (pure p) ↔ KeepsSlashAlike ctx c p := by
  simp [KeepsSlashAlikeResult]

@[simp] theorem keepsSlashAlikeResult_throw {e : ParseAbort} : KeepsSlashAlikeResult ctx c (throw e) := by
  simp [KeepsSlashAlikeResult]

theorem keepsSlashAlikeResult_bind {α : Type} {x : Except ParseAbort α} {f : α → HandlerResult}
    (hf : ∀ a, KeepsSlashAlikeResult ctx c (f a)) : KeepsSlashAlikeResult ctx c (x >>= f) :=
  forall_ok_bind hf

end Lemmas

section Handlers

variable {ctx : UrlParserContext} {c : Char}

theorem parseNoScheme_keepsSlashAlike (h : SlashAlike ctx) (hs : ctx.state = .noScheme) :
    KeepsSlashAlike ctx c (parseNoScheme ctx c) := by
  simp only [SlashAlike, hs, UrlRecord.isSpecial] at h
  obtain ⟨b, hb, hsp⟩ := h
  simp only [parseNoScheme, hb]
  repeat' refine keepsSlashAlike_ite (fun _ => ?_) (fun _ => ?_)
  all_goals simp_all [KeepsSlashAlike, SlashAlike, isQueryOrFragment]

theorem parseRelative_keepsSlashAlike (h : SlashAlike ctx) (hs : ctx.state = .relative) :
    KeepsSlashAlikeResult ctx c (parseRelative ctx c) := by
  simp only [SlashAlike, hs, UrlRecord.isSpecial] at h
  obtain ⟨b, hb, hsp⟩ := h
  simp only [parseRelative, hb, valueOf_some, pure_bind]
  repeat' refine keepsSlashAlikeResult_ite (fun _ => ?_) (fun _ => ?_)
  all_goals simp_all [KeepsSlashAlike, SlashAlike, isQueryOrFragment, UrlRecord.isSpecial, UrlRecord.withAuthorityOf]

theorem parseRelativeSlash_keepsSlashAlike (h : SlashAlike ctx) (hs : ctx.state = .relativeSlash) :
    KeepsSlashAlikeResult ctx c (parseRelativeSlash ctx c) := by
  simp only [SlashAlike, hs, UrlRecord.isSpecial] at h
  unfold parseRelativeSlash
  repeat' first
    | refine keepsSlashAlikeResult_ite (fun _ => ?_) (fun _ => ?_)
    | refine keepsSlashAlikeResult_bind fun _ => ?_
  all_goals simp_all [KeepsSlashAlike, SlashAlike, isQueryOrFragment, UrlRecord.isSpecial, UrlRecord.withAuthorityOf]

theorem parseSpecialAuthorityIgnoreSlashes_keepsSlashAlike (h : SlashAlike ctx)
    (hs : ctx.state = .specialAuthorityIgnoreSlashes) :
    KeepsSlashAlike ctx c (parseSpecialAuthorityIgnoreSlashes ctx c) := by
  simp only [SlashAlike, hs, UrlRecord.isSpecial] at h
  unfold parseSpecialAuthorityIgnoreSlashes
  refine keepsSlashAlike_ite (fun _ => ?_) (fun _ => ?_) <;>
    simp [KeepsSlashAlike, SlashAlike, isQueryOrFragment, UrlRecord.isSpecial, hs, h]

theorem parseAuthority_keepsSlashAlike (h : SlashAlike ctx) (hs : ctx.state = .authority) :
    KeepsSlashAlike ctx c (parseAuthority ctx c) := by
  simp only [SlashAlike, hs, UrlRecord.isSpecial] at h
  unfold parseAuthority
  repeat' refine keepsSlashAlike_ite (fun _ => ?_) (fun _ => ?_)
  all_goals simp [KeepsSlashAlike, SlashAlike, isQueryOrFragment, hs, h, UrlRecord.isSpecial, encodeUserinfo_scheme]

theorem parseHostname_keepsSlashAlike (h : SlashAlike ctx) (hs : ctx.state = .host ∨ ctx.state = .hostname) :
    KeepsSlashAlikeResult ctx c (parseHostname ctx c) := by
  have hsp : isSpecial ctx.url.scheme := by
    rcases hs with hs | hs <;> simpa only [SlashAlike, hs, UrlRecord.isSpecial] using h
  unfold parseHostname
  repeat' first
    | refine keepsSlashAlikeResult_ite (fun _ => ?_) (fun _ => ?_)
    | refine keepsSlashAlikeResult_bind fun
        | none => ?_
        | some _ => ?_
  all_goals simp only [keepsSlashAlikeResult_pure]
  all_goals first
    | exact ⟨rfl, rfl, h, by rcases hs with hs | hs <;> simp [hs, isQueryOrFragment]⟩
    | simp [KeepsSlashAlike, SlashAlike, isQueryOrFragment, UrlRecord.isSpecial, hsp]

theorem parsePort_keepsSlashAlike (h : SlashAlike ctx) (hs : ctx.state = .port) :
    KeepsSlashAlike ctx c (parsePort ctx c) := by
  simp only [SlashAlike, hs, UrlRecord.isSpecial] at h
  unfold parsePort portDone
  repeat' refine keepsSlashAlike_ite (fun _ => ?_) (fun _ => ?_)
  all_goals simp [KeepsSlashAlike, SlashAlike, isQueryOrFragment, UrlRecord.isSpecial, hs, h]

theorem parseFile_keepsSlashAlike (hs : ctx.state = .file) : KeepsSlashAlike ctx c (parseFile ctx c) := by
  unfold parseFile
  refine keepsSlashAlike_ite (fun _ => ?_) (fun _ => ?_)
  · simp [KeepsSlashAlike, SlashAlike, isQueryOrFragment, UrlRecord.isSpecial]
  rcases hb : ctx.base with _ | b <;> simp only [hb]
  · simp [KeepsSlashAlike, SlashAlike, isQueryOrFragment, UrlRecord.isSpecial, hb]
  repeat' refine keepsSlashAlike_ite (fun _ => ?_) (fun _ => ?_)
  all_goals simp_all [KeepsSlashAlike, SlashAlike, isQueryOrFragment, UrlRecord.isSpecial]

theorem parseFileSlash_keepsSlashAlike (h : SlashAlike ctx) (hs : ctx.state = .fileSlash) :
    KeepsSlashAlike ctx c (parseFileSlash ctx c) := by
  simp only [SlashAlike, hs, UrlRecord.isSpecial] at h
  unfold parseFileSlash
  refine keepsSlashAlike_ite (fun _ => ?_) (fun _ => ?_)
  · simp [KeepsSlashAlike, SlashAlike, isQueryOrFragment, UrlRecord.isSpecial, h]
  refine ⟨rfl, rfl, ?_, by simp [isQueryOrFragment]⟩
  simp only [SlashAlike, UrlRecord.isSpecial]
  split
  · split_ifs
    · split
      · split_ifs <;> simpa using h
      · simpa using h
    · exact h
  · exact h

theorem parseFileHost_keepsSlashAlike (h : SlashAlike ctx) (hs : ctx.state = .fileHost) :
    KeepsSlashAlikeResult ctx c (parseFileHost ctx c) := by
  simp only [SlashAlike, hs, UrlRecord.isSpecial] at h
  unfold parseFileHost
  repeat' first
    | refine keepsSlashAlikeResult_ite (fun _ => ?_) (fun _ => ?_)
    | refine keepsSlashAlikeResult_bind fun
        | none => ?_
        | some _ => ?_
  all_goals simp [KeepsSlashAlike, SlashAlike, isQueryOrFragment, UrlRecord.isSpecial, hs, h]

theorem parsePathStart_keepsSlashAlike (h : SlashAlike ctx) (hs : ctx.state = .pathStart) :
    KeepsSlashAlike ctx c (parsePathStart ctx c) := by
  simp only [SlashAlike, hs, UrlRecord.isSpecial] at h
  unfold parsePathStart
  repeat' refine keepsSlashAlike_ite (fun _ => ?_) (fun _ => ?_)
  all_goals simp_all [KeepsSlashAlike, SlashAlike, isQueryOrFragment, UrlRecord.isSpecial]

theorem parsePath_keepsSlashAlike (h : SlashAlike ctx) (hs : ctx.state = .path) :
    KeepsSlashAlikeResult ctx c (parsePath ctx c) := by
  simp only [SlashAlike, hs, UrlRecord.isSpecial] at h
  unfold parsePath
  simp only [pure_bind]
  repeat' first
    | refine keepsSlashAlikeResult_ite (fun _ => ?_) (fun _ => ?_)
    | refine keepsSlashAlikeResult_bind fun _ => ?_
  all_goals simp_all [KeepsSlashAlike, SlashAlike, isQueryOrFragment, UrlRecord.isSpecial,
    apply_ite UrlRecord.scheme, apply_ite isSpecial]

theorem parseQuery_keepsSlashAlike (hs : ctx.state = .query) :
    KeepsSlashAlikeResult ctx c (parseQuery ctx c) := by
  unfold parseQuery
  repeat' first
    | refine keepsSlashAlikeResult_ite (fun _ => ?_) (fun _ => ?_)
    | refine keepsSlashAlikeResult_bind fun _ => ?_
  all_goals simp [KeepsSlashAlike, SlashAlike, isQueryOrFragment, hs]

theorem parseFragment_keepsSlashAlike (hs : ctx.state = .fragment) :
    KeepsSlashAlikeResult ctx c (parseFragment ctx c) := by
  unfold parseFragment
  repeat' first
    | refine keepsSlashAlikeResult_ite (fun _ => ?_) (fun _ => ?_)
    | refine keepsSlashAlikeResult_bind fun _ => ?_
  all_goals simp [KeepsSlashAlike, SlashAlike, isQueryOrFragment, hs]

theorem parseSpecialRelativeOrAuthority_keepsSlashAlike (h : SlashAlike ctx)
    (hs : ctx.state = .specialRelativeOrAuthority) :
    KeepsSlashAlike ctx c (parseSpecialRelativeOrAuthority ctx c) := by
  simp only [SlashAlike, hs] at h
  obtain ⟨hsp, hb⟩ := h
  obtain ⟨b, hb, he⟩ := Option.map_eq_some'.1 hb
  unfold parseSpecialRelativeOrAuthority
  refine keepsSlashAlike_ite (fun _ => ?_) (fun _ => ?_)
  · simp [KeepsSlashAlike, SlashAlike, isQueryOrFragment, hsp]
  · simp only [UrlRecord.isSpecial] at hsp
    simp [KeepsSlashAlike, SlashAlike, isQueryOrFragment, hb, he, hsp]

theorem parseSpecialAuthoritySlashes_keepsSlashAlike (h : SlashAlike ctx)
    (hs : ctx.state = .specialAuthoritySlashes) :
    KeepsSlashAlike ctx c (parseSpecialAuthoritySlashes ctx c) := by
  simp only [SlashAlike, hs] at h
  unfold parseSpecialAuthoritySlashes
  refine keepsSlashAlike_ite (fun _ => ?_) (fun _ => ?_) <;> simp [KeepsSlashAlike, SlashAlike, isQueryOrFragment, h]

/-- On a context with `SlashAlike`, the handler of its state returns what `KeepsSlashAlike` asks. -/
theorem dispatch_keepsSlashAlike (h : SlashAlike ctx) : KeepsSlashAlikeResult ctx ctx.byte (dispatch ctx) := by
  have h' := h
  unfold SlashAlike at h'
  unfold dispatch
  cases hs : ctx.state <;> simp only [hs] at h' <;> simp only [parseFuncs, keepsSlashAlikeResult_pure]
  case noScheme => exact parseNoScheme_keepsSlashAlike h hs
  case specialRelativeOrAuthority => exact parseSpecialRelativeOrAuthority_keepsSlashAlike h hs
  case relative => exact parseRelative_keepsSlashAlike h hs
  case relativeSlash => exact parseRelativeSlash_keepsSlashAlike h hs
  case specialAuthoritySlashes => exact parseSpecialAuthoritySlashes_keepsSlashAlike h hs
  case specialAuthorityIgnoreSlashes => exact parseSpecialAuthorityIgnoreSlashes_keepsSlashAlike h hs
  case authority => exact parseAuthority_keepsSlashAlike h hs
  case host => exact parseHostname_keepsSlashAlike h (.inl hs)
  case hostname => exact parseHostname_keepsSlashAlike h (.inr hs)
  case port => exact parsePort_keepsSlashAlike h hs
  case file => exact parseFile_keepsSlashAlike hs
  case fileSlash => exact parseFileSlash_keepsSlashAlike h hs
  case fileHost => exact parseFileHost_keepsSlashAlike h hs
  case pathStart => exact parsePathStart_keepsSlashAlike h hs
  case path => exact parsePath_keepsSlashAlike h hs
  case query => exact parseQuery_keepsSlashAlike hs
  case fragment => exact parseFragment_keepsSlashAlike hs

end Handlers

/-! ## The two runs in step -/

theorem slashesAhead_iff {ctx : UrlParserContext} :
    slashesAhead ctx ↔ ∃ r, ctx.remaining = '/' :: '/' :: r := by
  rcases h : ctx.remaining with _ | ⟨x, _ | ⟨y, r⟩⟩ <;>
    simp [slashesAhead, byte, remainingStartsWith, h, List.isPrefixOf]
  exact fun _ => eq_comm

/-- The run of an input at `ctx` and the run of its slash variant `i` at
`ctx.rebase i ctx.base 0`: the inputs related, the iterator within bounds, the handler of
the state reading `\` as `/`, and from a `?` or `#` on the same bytes. -/
structure SlashSync (i : List Char) (ctx : UrlParserContext) : Prop where
  variant : SlashVariant ctx.input i
  inBounds : InBounds 0 ctx
  slashAlike : SlashAlike ctx
  agree : isQueryOrFragment ctx.state → i.drop ctx.it.toNat = ctx.remaining

/-- The variant's run stutters: the first run skips `//` in one pass, where the second sees a
`\` among those two bytes and goes round by the relative or the ignore-slashes state. -/
def Stutters (i : List Char) (ctx : UrlParserContext) : Prop :=
  (ctx.state = .specialRelativeOrAuthority ∨ ctx.state = .specialAuthoritySlashes) ∧
    slashesAhead ctx ∧ ¬slashesAhead (ctx.rebase i ctx.base 0)

section Sync

variable {i : List Char} {ctx : UrlParserContext}

theorem rebase_remaining_zero {b : Option UrlRecord} :
    (ctx.rebase i b 0).remaining = i.drop ctx.it.toNat := by
  simp [remaining]

theorem SlashSync.remaining_variant (h : SlashSync i ctx) :
    SlashVariant ctx.remaining (ctx.rebase i ctx.base 0).remaining := by
  rw [rebase_remaining_zero]
  exact h.variant.drop _

theorem SlashSync.byte_or (h : SlashSync i ctx) :
    (ctx.rebase i ctx.base 0).byte = ctx.byte ∨
      (ctx.byte = '/' ∧ (ctx.rebase i ctx.base 0).byte = '\\') :=
  h.remaining_variant.headD _

theorem SlashSync.byte_eq (h : SlashSync i ctx) (hq : isQueryOrFragment ctx.state) :
    (ctx.rebase i ctx.base 0).byte = ctx.byte := by
  simp only [byte, rebase_remaining_zero, h.agree hq]

theorem SlashSync.slashesAhead_of_rebase (h : SlashSync i ctx)
    (h₂ : slashesAhead (ctx.rebase i ctx.base 0)) : slashesAhead ctx := by
  obtain ⟨r, hr⟩ := slashesAhead_iff.1 h₂
  exact slashesAhead_iff.2 (h.remaining_variant.slashes_left hr)

end Sync

theorem isAuthorityOrLater_of_isQueryOrFragment {s : UrlState} (h : isQueryOrFragment s) :
    isAuthorityOrLater s := by
  cases s <;> simp_all [isQueryOrFragment, isAuthorityOrLater]

theorem drop_toNat_succ {l₁ l₂ : List Char} {n : Int} (h : l₁.drop n.toNat = l₂.drop n.toNat) :
    l₁.drop (n + 1).toNat = l₂.drop (n + 1).toNat := by
  by_cases hn : n < 0
  · rwa [show (n + 1).toNat = n.toNat by omega]
  · rw [show (n + 1).toNat = n.toNat + 1 by omega, ← List.drop_drop, ← List.drop_drop, h]

theorem head?_remaining_of_byte {ctx : UrlParserContext} {x : Char} (hx : x ≠ '\x00')
    (h : ctx.byte = x) : ctx.remaining.head? = some x := by
  unfold byte at h
  cases hr : ctx.remaining with
  | nil => simp only [hr, List.headD_nil] at h; exact absurd h.symm hx
  | cons y ys => simp_all

section Pass

variable {i : List Char} {ctx ctx' : UrlParserContext}

/-- A pass that is not a stutter is the same pass on both runs. -/
theorem dispatch_sync (h : SlashSync i ctx) (hns : ¬Stutters i ctx) :
    dispatch (ctx.rebase i ctx.base 0) = (dispatch ctx).map (rebaseStep i ctx.base 0) := by
  have hlen := h.variant.length_eq.symm
  have hw : isWindowsDriveLetter (i.drop ctx.it.toNat) = isWindowsDriveLetter ctx.remaining :=
    (h.variant.drop _).isWindowsDriveLetter_eq.symm
  unfold dispatch
  rw [rebase_state]
  by_cases hl : ctx.state = .specialRelativeOrAuthority ∨ ctx.state = .specialAuthoritySlashes
  · have hc : (ctx.rebase i ctx.base 0).byte = '/' ∧
        (ctx.rebase i ctx.base 0).remainingStartsWith ['/'] = true ↔
          ctx.byte = '/' ∧ ctx.remainingStartsWith ['/'] = true :=
      ⟨h.slashesAhead_of_rebase, fun h₁ => by_contra fun h₂ => hns ⟨hl, h₁, h₂⟩⟩
    rcases hl with hs | hs <;> rw [hs] <;> simp only [parseFuncs, pure, Except.pure, Except.map]
    · rw [parseSpecialRelativeOrAuthority_rebase hc]
    · rw [parseSpecialAuthoritySlashes_rebase hc]
  cases hq : isQueryOrFragment ctx.state
  · rcases h.byte_or with hb | ⟨hb₁, hb₂⟩
    · rw [hb]
      exact parseFuncs_rebase_base h.slashAlike hl hlen hw
    · rw [hb₂, parseFuncs_backslash (show (ctx.rebase i ctx.base 0).state = ctx.state from rfl)
        h.slashAlike hl hq, ← hb₁]
      exact parseFuncs_rebase_base h.slashAlike hl hlen hw
  · rw [h.byte_eq hq]
    exact parseFuncs_rebase (isAuthorityOrLater_of_isQueryOrFragment hq) (by simp [hlen])

theorem loopBody_sync (h : SlashSync i ctx) (hns : ¬Stutters i ctx) :
    loopBody (ctx.rebase i ctx.base 0) = (loopBody ctx).rebase i ctx.base 0 := by
  unfold loopBody
  rw [dispatch_sync h hns]
  rcases hdc : dispatch ctx with e | ⟨a, c⟩
  · rfl
  · have hc : (i.length : Int) = c.input.length + 0 := by
      rw [(dispatch_keepsSlashAlike h.slashAlike _ hdc).1, h.variant.length_eq]; simp
    cases a <;> simp only [Except.map, rebaseStep, afterAction, rebase_isEof hc] <;> (try split) <;>
      simp only [LoopStep.rebase, rebase_increment, rebase_url]

/-- A pass of the first run keeps it in step with the variant, and keeps the base. -/
theorem step_sync (h : SlashSync i ctx) (hst : Step ctx ctx') :
    SlashSync i ctx' ∧ ctx'.base = ctx.base := by
  obtain ⟨a, c, hd, hc⟩ := step_iff.1 hst
  obtain ⟨hin, hbase, hok, hqf⟩ := dispatch_keepsSlashAlike h.slashAlike _ hd
  have hA : isQueryOrFragment c.state → i.drop c.it.toNat = c.input.drop c.it.toNat := by
    intro hq
    obtain ⟨hq' | hq' | hq', hit⟩ := hqf hq <;> rw [hit, hin]
    · exact h.agree hq'
    · exact ((h.variant.drop _).eq_of_delim (.inl (head?_remaining_of_byte (by decide) hq'))).symm
    · exact ((h.variant.drop _).eq_of_delim (.inr (head?_remaining_of_byte (by decide) hq'))).symm
  have hv : SlashVariant ctx'.input i := by
    rcases hc with ⟨-, rfl⟩ | ⟨-, -, rfl⟩ <;> exact hin ▸ h.variant
  rcases hc with ⟨-, rfl⟩ | ⟨-, -, rfl⟩
  · exact ⟨⟨hv, step_inBounds h.inBounds hst, hok, hA⟩, hbase⟩
  · exact ⟨⟨hv, step_inBounds h.inBounds hst, hok, fun hq => drop_toNat_succ (hA hq)⟩, hbase⟩

end Pass

/-! ## The stutter -/

section Stutter

variable {ctx : UrlParserContext} {x : Char} {rest : List Char}

/-- A handler that moves back one byte into a new state: the loop goes on at the same byte in
that state. -/
theorem step_of_decrement {s : UrlState}
    (hd : dispatch ctx = .ok (.increment, { ctx.decrement with state := s }))
    (hit : ctx.it ≤ ctx.input.length) : Step ctx { ctx with state := s } :=
  step_iff.2 ⟨_, _, hd, .inr ⟨.inl rfl, by simp [isEof]; omega, by simp⟩⟩

theorem byte_ne_nul_of_slashLike (h : ctx.remaining = x :: rest) (hx : x = '/' ∨ x = '\\') :
    ctx.byte ≠ '\x00' := by
  rw [byte_of_remaining h]; rcases hx with rfl | rfl <;> decide

theorem step_relative_slashLike {b : UrlRecord} (hs : ctx.state = .relative)
    (hb : ctx.base = some b) (hsp : isSpecial b.scheme) (h : ctx.remaining = x :: rest)
    (hx : x = '/' ∨ x = '\\') :
    Step ctx
      { ctx with url := { ctx.url with scheme := b.scheme }, state := .relativeSlash }.increment := by
  have hne := byte_ne_nul_of_slashLike h hx
  refine step_of_increment ?_ hne
  rcases hx with rfl | rfl <;>
    simp [dispatch, parseFuncs, hs, byte_of_remaining h, parseRelative, hb, hsp,
      UrlRecord.isSpecial, isEof_eq_false_of_byte hne]

theorem step_relativeSlash_slashLike (hs : ctx.state = .relativeSlash)
    (hsp : ctx.url.isSpecial) (h : ctx.remaining = x :: rest) (hx : x = '/' ∨ x = '\\') :
    Step ctx { ctx with state := .specialAuthorityIgnoreSlashes }.increment := by
  refine step_of_increment ?_ (byte_ne_nul_of_slashLike h hx)
  rcases hx with rfl | rfl <;>
    simp [dispatch, parseFuncs, hs, byte_of_remaining h, parseRelativeSlash, hsp]

theorem step_ignoreSlashes_slashLike (hs : ctx.state = .specialAuthorityIgnoreSlashes)
    (h : ctx.remaining = x :: rest) (hx : x = '/' ∨ x = '\\') : Step ctx ctx.increment := by
  refine step_of_increment ?_ (byte_ne_nul_of_slashLike h hx)
  rcases hx with rfl | rfl <;>
    simp [dispatch, parseFuncs, hs, byte_of_remaining h, parseSpecialAuthorityIgnoreSlashes]

variable {y : Char}

/-- At `//` with a `\` among the two bytes, the special-relative-or-authority state goes
back one byte into the relative state, which with the base's scheme reads both bytes as
slashes. -/
theorem transGen_specialRelativeOrAuthority_slashLike {b : UrlRecord}
    (hs : ctx.state = .specialRelativeOrAuthority) (hb : ctx.base = some b)
    (hbe : b.scheme = ctx.url.scheme) (hsp : isSpecial ctx.url.scheme) (hit : 0 ≤ ctx.it)
    (hle : ctx.it ≤ ctx.input.length) (h : ctx.remaining = x :: y :: rest)
    (hx : x = '/' ∨ x = '\\') (hy : y = '/' ∨ y = '\\') (hns : ¬slashesAhead ctx) :
    Relation.TransGen Step ctx
      { ctx with state := .specialAuthorityIgnoreSlashes, it := ctx.it + 1 + 1 } := by
  have e₁ : Step ctx { ctx with state := .relative } :=
    step_of_decrement (by
      show parseFuncs ctx.state _ _ = _
      rw [hs]
      exact congrArg pure (if_neg hns)) hle
  have e₂ : Step { ctx with state := .relative }
      { ctx with url := { ctx.url with scheme := b.scheme }, state := .relativeSlash }.increment :=
    step_relative_slashLike rfl hb (hbe ▸ hsp) h hx
  rw [hbe] at e₂
  have e₃ : Step { ctx with state := .relativeSlash }.increment
      { { ctx with state := .relativeSlash }.increment with
        state := .specialAuthorityIgnoreSlashes }.increment :=
    step_relativeSlash_slashLike rfl (by simpa [UrlRecord.isSpecial] using hsp)
      (remaining_increment hit h) hy
  exact .head e₁ (.head e₂ (.single e₃))

/-- At `//` with a `\` among the two bytes, the special-authority-slashes state goes back one
byte into the ignore-slashes state, which skips both. -/
theorem transGen_specialAuthoritySlashes_slashLike (hs : ctx.state = .specialAuthoritySlashes)
    (hit : 0 ≤ ctx.it) (hle : ctx.it ≤ ctx.input.length) (h : ctx.remaining = x :: y :: rest)
    (hx : x = '/' ∨ x = '\\') (hy : y = '/' ∨ y = '\\') (hns : ¬slashesAhead ctx) :
    Relation.TransGen Step ctx
      { ctx with state := .specialAuthorityIgnoreSlashes, it := ctx.it + 1 + 1 } := by
  have e₁ : Step ctx { ctx with state := .specialAuthorityIgnoreSlashes } :=
    step_of_decrement (by
      show parseFuncs ctx.state _ _ = _
      rw [hs]
      exact congrArg pure (if_neg hns)) hle
  have e₂ : Step { ctx with state := .specialAuthorityIgnoreSlashes }
      { ctx with state := .specialAuthorityIgnoreSlashes }.increment :=
    step_ignoreSlashes_slashLike rfl h hx
  have e₃ : Step { ctx with state := .specialAuthorityIgnoreSlashes }.increment
      { ctx with state := .specialAuthorityIgnoreSlashes }.increment.increment :=
    step_ignoreSlashes_slashLike rfl (remaining_increment hit h) hy
  exact .head e₁ (.head e₂ (.single e₃))

variable {i : List Char}

/-- **The stutter.**  Where the first run skips `//` in one pass, the variant's run has a `\`
among those two bytes and reaches the same context in three passes. -/
theorem stutter_steps (h : SlashSync i ctx) (hst : Stutters i ctx) :
    ∃ ctx', Step ctx ctx' ∧
      Relation.TransGen Step (ctx.rebase i ctx.base 0) (ctx'.rebase i ctx.base 0) := by
  obtain ⟨hs, h₁, h₂⟩ := hst
  obtain ⟨r, hr⟩ := slashesAhead_iff.1 h₁
  obtain ⟨x, y, r₂, hr₂, hx, hy⟩ := SlashVariant.slashLike (hr ▸ h.remaining_variant)
  have hit : 0 ≤ ctx.it := by have := h.inBounds.1; omega
  have hle : (ctx.rebase i ctx.base 0).it ≤ (ctx.rebase i ctx.base 0).input.length := by
    have := h.inBounds.2.1; have := h.variant.length_eq; simp; omega
  have e : { ctx.rebase i ctx.base 0 with
        state := .specialAuthorityIgnoreSlashes
        it := (ctx.rebase i ctx.base 0).it + 1 + 1 } =
      ({ ctx.increment with state := .specialAuthorityIgnoreSlashes }.increment).rebase i ctx.base 0 := by
    simp only [rebase, increment, Int.add_zero]
  refine ⟨_, step_authoritySlashes hs hit hr, e ▸ ?_⟩
  have hok := h.slashAlike
  rcases hs with hs | hs <;> simp only [SlashAlike, hs] at hok
  · obtain ⟨b, hb, hbe⟩ := Option.map_eq_some'.1 hok.2
    exact transGen_specialRelativeOrAuthority_slashLike hs hb hbe hok.1 (by simpa using hit) hle
      hr₂ hx hy h₂
  · exact transGen_specialAuthoritySlashes_slashLike hs (by simpa using hit) hle hr₂ hx hy h₂

end Stutter

/-! ## The two runs end alike -/

/-- The simulation relation: the variant's context is the first run's, read against the
variant input, with the two in step. -/
def SlashRel (c₁ c₂ : UrlParserContext) : Prop :=
  ∃ i, SlashSync i c₁ ∧ c₂ = c₁.rebase i c₁.base 0

section Simulation

variable {c₁ c₂ c₁' : UrlParserContext}

theorem slashRel_done {o : ParseOutcome} (hr : SlashRel c₁ c₂) (hd : loopBody c₁ = .done o) :
    loopBody c₂ = .done o := by
  obtain ⟨i, h, rfl⟩ := hr
  by_cases hst : Stutters i c₁
  · obtain ⟨c', hs, -⟩ := stutter_steps h hst
    rw [Step, hd] at hs
    cases hs
  · rw [loopBody_sync h hst, hd]
    rfl

theorem slashRel_step (hr : SlashRel c₁ c₂) (hs : Step c₁ c₁') :
    ∃ c₂', Relation.TransGen Step c₂ c₂' ∧ SlashRel c₁' c₂' := by
  obtain ⟨i, h, rfl⟩ := hr
  obtain ⟨h', hbase⟩ := step_sync h hs
  refine ⟨c₁'.rebase i c₁.base 0, ?_, i, h', by rw [hbase]⟩
  by_cases hst : Stutters i c₁
  · obtain ⟨c', hs', hT⟩ := stutter_steps h hst
    rw [Step, hs] at hs'
    cases hs'
    exact hT
  · exact .single (show loopBody _ = _ by rw [loopBody_sync h hst, hs]; rfl)

/-- The loops of an input and of its variant, in step, return the same. -/
theorem terminates_slashSync {i : List Char} {ctx : UrlParserContext} (h : SlashSync i ctx)
    (o : ParseOutcome) : Terminates ctx o ↔ Terminates (ctx.rebase i ctx.base 0) o :=
  terminates_iff_of_simulation slashRel_done slashRel_step ⟨i, h, rfl⟩ o

end Simulation

/-! ## Up to the first pass in step -/

section Start

variable {s B : List Char} (base : Option UrlRecord)

/-- An input that names a special scheme is read up to just past the scheme's `:`. -/
theorem steps_afterSpecialScheme (hB : inputScheme (sanitize s) = some B) (hsp : isSpecial B) :
    Relation.ReflTransGen Step (UrlParserContext.init s base none none)
      (afterSpecialScheme (sanitize s) base B) := by
  obtain ⟨sch, rest, hs, hsch, rfl⟩ := inputScheme_eq_some hB
  rw [hs]
  exact (steps_schemeRead base hsch hs).tail (step_afterSpecialScheme
    (show (sch ++ ':' :: rest).drop (sch.map Char.toLower).length = ':' :: rest by simp) hsp)

/-- An input that names no scheme is read from its start again in the no-scheme state. -/
theorem steps_noScheme_start (hB : inputScheme (sanitize s) = none) :
    Relation.ReflTransGen Step (UrlParserContext.init s base none none)
      { UrlParserContext.init s base none none with state := .noScheme } := by
  rcases inputScheme_eq_none hB with hna | ⟨sch, rest, hs, hsch, hnsc, hncolon⟩
  · exact .single (step_schemeStart_not_alpha rfl rfl hna)
  have hr : (schemeRead (sch ++ rest) base (sch.map Char.toLower)).remaining = rest :=
    schemeRead_remaining base (by simp)
  have hd : dispatch (schemeRead (sch ++ rest) base (sch.map Char.toLower)) =
      .ok (.continue_, { schemeRead (sch ++ rest) base (sch.map Char.toLower) with
        buffer := [], state := .noScheme }.reset) := by
    have hb : (schemeRead (sch ++ rest) base (sch.map Char.toLower)).byte = rest.headD '\x00' := by
      simp only [byte, hr]
    simp only [isSchemeChar] at hnsc
    simp only [dispatch, parseFuncs, hb]
    generalize rest.headD '\x00' = x at hnsc hncolon
    simp only [Bool.or_eq_false_iff, decide_eq_false_iff_not] at hnsc
    simp [parseScheme, hnsc, hncolon, schemeRead]
  refine (steps_schemeRead base hsch hs).tail (step_congr (step_of_continue hd) ?_)
  simp [schemeRead, UrlParserContext.init, hs]

end Start

theorem slashAlike_afterSpecialScheme {i B : List Char} {base : Option UrlRecord}
    (hsp : isSpecial B) : SlashAlike (afterSpecialScheme i base B) := by
  unfold afterSpecialScheme specialSchemeState
  split_ifs <;> simp_all [SlashAlike, UrlRecord.isSpecial]

/-- **Backslashes read as slashes in special URLs.**  For every input whose effective scheme
(its own, else the base's) is special, replacing any of its `/` before the first `?` or `#`
by `\` changes nothing: `basic_parse` returns the same on both inputs, or runs for ever on
both. -/
theorem backslash_variant_parses_same {s s' : List Char} (hv : SlashVariant s s')
    {base : Option UrlRecord} (hsp : ∃ sch, effectiveScheme s base = some sch ∧ isSpecial sch)
    (o : ParseOutcome) : Parses s base none none o ↔ Parses s' base none none o := by
  have hv' := hv.sanitize
  obtain ⟨B, hB, hspB⟩ := hsp
  unfold effectiveScheme at hB
  rw [parses_iff_terminates, parses_iff_terminates]
  cases hs : inputScheme (sanitize s) with
  | some B' =>
    simp only [hs, Option.some.injEq] at hB
    subst hB
    have h₁ := steps_afterSpecialScheme base hs hspB
    have h₂ := steps_afterSpecialScheme base (hv'.inputScheme_eq ▸ hs) hspB
    have e : (afterSpecialScheme (sanitize s) base B').rebase (sanitize s') base 0 =
        afterSpecialScheme (sanitize s') base B' := by
      simp [afterSpecialScheme, rebase]
    have hsync : SlashSync (sanitize s') (afterSpecialScheme (sanitize s) base B') := by
      refine ⟨hv', steps_invariant (fun _ _ => step_inBounds) h₁ (init_inBounds _ _ _ _),
        slashAlike_afterSpecialScheme hspB, fun hq => absurd hq ?_⟩
      unfold afterSpecialScheme specialSchemeState
      split_ifs <;> simp [isQueryOrFragment]
    rw [terminates_of_steps h₁, terminates_of_steps h₂, ← e]
    exact terminates_slashSync hsync o
  | none =>
    rw [hs] at hB
    obtain ⟨b, rfl, rfl⟩ := Option.map_eq_some'.1 hB
    have h₁ := steps_noScheme_start (some b) hs
    have h₂ := steps_noScheme_start (some b) (hv'.inputScheme_eq ▸ hs)
    have hsync : SlashSync (sanitize s')
        { UrlParserContext.init s (some b) none none with state := .noScheme } :=
      ⟨hv', steps_invariant (fun _ _ => step_inBounds) h₁ (init_inBounds _ _ _ _),
        ⟨b, rfl, hspB⟩, fun hq => absurd hq (by simp [isQueryOrFragment])⟩
    rw [terminates_of_steps h₁, terminates_of_steps h₂]
    exact terminates_slashSync hsync o

theorem backslash_variant_parses_same_scheme_relative :
    SlashVariant "//x".toList "\\\\x".toList ∧
      (∃ sch, effectiveScheme "//x".toList (some httpX) = some sch ∧ isSpecial sch) ∧
      Parses "//x".toList (some httpX) none none (.ok httpX) ∧
      (Parses "//x".toList (some httpX) none none (.ok httpX) ↔
        Parses "\\\\x".toList (some httpX) none none (.ok httpX)) :=
  ⟨.slash (.slash (.refl _)), ⟨"http".toList, by decide, by decide⟩, ⟨20, by decide⟩,
    backslash_variant_parses_same (.slash (.slash (.refl _))) ⟨"http".toList, by decide, by decide⟩ _⟩

end SkyrUrl
