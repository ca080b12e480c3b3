import SkyrUrl.Handlers
import Mathlib.Logic.Relation

/-!
# The driver loop of `basic_parse`

`parseFuncs` is the `parse_funcs` table of `url_parse.cpp` and `dispatch` its call on the
byte at the iterator; `loopBody` is one pass of its `while (true)` loop and `parseLoop` the
loop itself, run for at most `fuel` passes (`none` when the fuel runs out).  `basicParse` builds the context (sanitizing the input)
and runs the loop; `Parses input base url stateOverride o` says that the call returns
`o`.

The `switch` of the loop has no `case` for `url_parse_action::fail`: a handler's `fail`
falls through to the code after the switch exactly like `increment`.  And `basic_parse`
never returns an error code: the handlers return plain actions, which the `parse_funcs`
lambdas wrap into an `expected` that always holds a value, so `if (!action)` never fires.

The relational reading (`Step`, `Terminates`) is what the invariants of later modules are
proved over; `terminates_iff` connects it to `parseLoop`.
-/

namespace SkyrUrl

open UrlParserContext

/-- The `parse_funcs` table of `basic_parse`: the handler of each state, applied to a context
and a byte. -/
def parseFuncs : UrlState → UrlParserContext → Char → HandlerResult
  | .schemeStart, ctx, c => pure (parseSchemeStart ctx c)
  | .scheme, ctx, c => pure (parseScheme ctx c)
  | .noScheme, ctx, c => pure (parseNoScheme ctx c)
  | .specialRelativeOrAuthority, ctx, c => pure (parseSpecialRelativeOrAuthority ctx c)
  | .pathOrAuthority, ctx, c => pure (parsePathOrAuthority ctx c)
  | .relative, ctx, c => parseRelative ctx c
  | .relativeSlash, ctx, c => parseRelativeSlash ctx c
  | .specialAuthoritySlashes, ctx, c => pure (parseSpecialAuthoritySlashes ctx c)
  | .specialAuthorityIgnoreSlashes, ctx, c => pure (parseSpecialAuthorityIgnoreSlashes ctx c)
  | .authority, ctx, c => pure (parseAuthority ctx c)
  | .host, ctx, c => parseHostname ctx c
  | .hostname, ctx, c => parseHostname ctx c
  | .port, ctx, c => pure (parsePort ctx c)
  | .file, ctx, c => pure (parseFile ctx c)
  | .fileSlash, ctx, c => pure (parseFileSlash ctx c)
  | .fileHost, ctx, c => parseFileHost ctx c
  | .pathStart, ctx, c => pure (parsePathStart ctx c)
  | .path, ctx, c => parsePath ctx c
  | .cannotBeABaseUrlPath, ctx, c => parseCannotBeABaseUrl ctx c
  | .query, ctx, c => parseQuery ctx c
  | .fragment, ctx, c => parseFragment ctx c

/-- `func(context, *context.it)` with `func = parse_funcs[context.state]`. -/
def dispatch (ctx : UrlParserContext) : HandlerResult := parseFuncs ctx.state ctx ctx.byte

/-- What `basic_parse` ends with: the record it returns, or what escaped a handler. -/
inductive ParseOutcome
  | ok (url : UrlRecord)
  | aborted (e : ParseAbort)
  deriving DecidableEq, Repr

/-- What a pass of the loop leads to: the loop returns, or goes round with a context. -/
inductive LoopStep
  | done (o : ParseOutcome)
  | next (ctx : UrlParserContext)
  deriving DecidableEq

/-- The `switch` on a handler's action, then the EOF test and the increment.  `fail` has no
`case` and falls through like `increment`. -/
def afterAction : UrlParseAction → UrlParserContext → LoopStep
  | .success, ctx' => .done (.ok ctx'.url)
  | .continue_, ctx' => .next ctx'
  | .increment, ctx' | .fail, ctx' =>
    if ctx'.isEof then .done (.ok ctx'.url) else .next ctx'.increment

/-- One pass of the loop: the handler, then `afterAction` on what it returned. -/
def loopBody (ctx : UrlParserContext) : LoopStep :=
  match dispatch ctx with
  | .error e => .done (.aborted e)
  | .ok (a, ctx') => afterAction a ctx'

/-- The `while (true)` loop of `basic_parse`, for at most `fuel` passes. -/
def parseLoop : Nat → UrlParserContext → Option ParseOutcome
  | 0, _ => none
  | fuel + 1, ctx =>
    match loopBody ctx with
    | .done o => some o
    | .next ctx' => parseLoop fuel ctx'

/-- `details::basic_parse(input, base, url, state_override)`, its loop run for at most
`fuel` passes. -/
def basicParse (fuel : Nat) (input : List Char) (base url : Option UrlRecord)
    (stateOverride : Option UrlState) : Option ParseOutcome :=
  parseLoop fuel (UrlParserContext.init input base url stateOverride)

/-- `basic_parse(input, base, url, state_override)` returns `o`. -/
def Parses (input : List Char) (base url : Option UrlRecord) (stateOverride : Option UrlState)
    (o : ParseOutcome) : Prop :=
  ∃ fuel, basicParse fuel input base url stateOverride = some o

/-- Whether the handler of the pass at `ctx` returns `fail`. -/
def failsAt (ctx : UrlParserContext) : Bool :=
  match dispatch ctx with
  | .ok (.fail, _) => true
  | _ => false

/-! ## The relational reading of the loop -/

/-- A pass of the loop that goes round. -/
def Step (ctx ctx' : UrlParserContext) : Prop := loopBody ctx = .next ctx'

/-- The loop from `ctx` returns `o`. -/
def Terminates (ctx : UrlParserContext) (o : ParseOutcome) : Prop :=
  ∃ ctx', Relation.ReflTransGen Step ctx ctx' ∧ loopBody ctx' = .done o

/-- **Inversion of a pass that goes round.**  The handler returned an action other than
`success`: `continue_` goes round with the handler's context, `increment` and `fail` with
that context moved one byte on, when it is not at EOF. -/
theorem step_iff {ctx ctx' : UrlParserContext} :
    Step ctx ctx' ↔ ∃ a c, dispatch ctx = .ok (a, c) ∧
      ((a = .continue_ ∧ c = ctx') ∨
        ((a = .increment ∨ a = .fail) ∧ c.isEof = false ∧ c.increment = ctx')) := by
  unfold Step
  rcases h : dispatch ctx with e | ⟨a, c⟩
  · simp [loopBody, h]
  · cases a <;> cases he : c.isEof <;> simp [loopBody, h, afterAction, he, and_assoc]

/-- **Inversion of a pass that returns.** -/
theorem done_iff {ctx : UrlParserContext} {o : ParseOutcome} :
    loopBody ctx = .done o ↔ (∃ e, dispatch ctx = .error e ∧ .aborted e = o) ∨
      ∃ a c, dispatch ctx = .ok (a, c) ∧ .ok c.url = o ∧
        (a = .success ∨ ((a = .increment ∨ a = .fail) ∧ c.isEof = true)) := by
  rcases h : dispatch ctx with e | ⟨a, c⟩
  · simp [loopBody, h]
  · cases a <;> cases he : c.isEof <;> simp [loopBody, h, afterAction, he, and_assoc]

/-- A property that every pass going round keeps holds all along a run. -/
theorem steps_invariant {P : UrlParserContext → Prop}
    (hP : ∀ c c', P c → Step c c' → P c') {ctx ctx' : UrlParserContext}
    (h : Relation.ReflTransGen Step ctx ctx') (h0 : P ctx) : P ctx' := by
  induction h with
  | refl => exact h0
  | tail _ hst ih => exact hP _ _ ih hst

@[simp] theorem parseLoop_zero (ctx : UrlParserContext) : parseLoop 0 ctx = none := rfl

theorem parseLoop_succ_of_done {ctx : UrlParserContext} {o : ParseOutcome} (fuel : Nat)
    (h : loopBody ctx = .done o) : parseLoop (fuel + 1) ctx = some o := by
  simp [parseLoop, h]

theorem parseLoop_succ_of_step {ctx ctx' : UrlParserContext} (fuel : Nat) (h : Step ctx ctx') :
    parseLoop (fuel + 1) ctx = parseLoop fuel ctx' := by
  simp only [Step] at h
  simp [parseLoop, h]

/-- A loop that returns within `fuel` passes returns the same with more fuel. -/
theorem parseLoop_mono {fuel fuel' : Nat} {ctx : UrlParserContext} {o : ParseOutcome}
    (h : parseLoop fuel ctx = some o) (hle : fuel ≤ fuel') : parseLoop fuel' ctx = some o := by
  induction fuel generalizing fuel' ctx with
  | zero => simp at h
  | succ fuel ih =>
    obtain ⟨fuel', rfl⟩ : ∃ f, fuel' = f + 1 := ⟨fuel' - 1, by omega⟩
    unfold parseLoop at h ⊢
    split at h
    · simpa using h
    · exact ih h (by omega)

theorem terminates_iff {ctx : UrlParserContext} {o : ParseOutcome} :
    Terminates ctx o ↔ ∃ fuel, parseLoop fuel ctx = some o := by
  constructor
  · rintro ⟨ctx', hs, hd⟩
    induction hs using Relation.ReflTransGen.head_induction_on with
    | refl => exact ⟨1, parseLoop_succ_of_done 0 hd⟩
    | head hstep _ ih =>
      obtain ⟨fuel, hf⟩ := ih
      exact ⟨fuel + 1, by rw [parseLoop_succ_of_step fuel hstep, hf]⟩
  · rintro ⟨fuel, h⟩
    induction fuel generalizing ctx with
    | zero => simp at h
    | succ fuel ih =>
      unfold parseLoop at h
      split at h
      · rename_i o' hb
        cases h
        exact ⟨ctx, .refl, hb⟩
      · rename_i ctx' hb
        obtain ⟨ctx'', hs, hd⟩ := ih h
        exact ⟨ctx'', .head hb hs, hd⟩

theorem parses_iff_terminates {input : List Char} {base url : Option UrlRecord}
    {stateOverride : Option UrlState} {o : ParseOutcome} :
    Parses input base url stateOverride o ↔
      Terminates (UrlParserContext.init input base url stateOverride) o :=
  terminates_iff.symm

/-- The loop is deterministic: it returns at most one outcome. -/
theorem terminates_unique {ctx : UrlParserContext} {o o' : ParseOutcome}
    (h : Terminates ctx o) (h' : Terminates ctx o') : o = o' := by
  obtain ⟨f, hf⟩ := terminates_iff.1 h
  obtain ⟨f', hf'⟩ := terminates_iff.1 h'
  have := (parseLoop_mono hf (le_max_left f f')).symm.trans (parseLoop_mono hf' (le_max_right f f'))
  simpa using this

/-- A context reached by going round the loop returns what the loop from it returns. -/
theorem terminates_of_step {ctx ctx' : UrlParserContext} {o : ParseOutcome} (h : Step ctx ctx') :
    Terminates ctx o ↔ Terminates ctx' o := by
  constructor
  · rintro ⟨c, hs, hd⟩
    cases hs using Relation.ReflTransGen.head_induction_on with
    | refl => simp only [Step] at h; rw [h] at hd; cases hd
    | head h1 hs' =>
      simp only [Step] at h h1
      rw [h] at h1
      cases h1
      exact ⟨c, hs', hd⟩
  · rintro ⟨c, hs, hd⟩
    exact ⟨c, .head h hs, hd⟩

theorem terminates_of_steps {ctx ctx' : UrlParserContext} {o : ParseOutcome}
    (h : Relation.ReflTransGen Step ctx ctx') : Terminates ctx o ↔ Terminates ctx' o := by
  induction h with
  | refl => rfl
  | tail _ h2 ih => exact ih.trans (terminates_of_step h2)

theorem parseLoop_of_step {ctx ctx' : UrlParserContext} {o : ParseOutcome} {fuel : Nat}
    (h : Step ctx ctx') (hf : parseLoop fuel ctx = some o) :
    ∃ f < fuel, parseLoop f ctx' = some o := by
  obtain _ | f := fuel
  · simp at hf
  · exact ⟨f, by omega, by rwa [parseLoop_succ_of_step f h] at hf⟩

theorem parseLoop_of_transGen {ctx ctx' : UrlParserContext} {o : ParseOutcome} {fuel : Nat}
    (h : Relation.TransGen Step ctx ctx') (hf : parseLoop fuel ctx = some o) :
    ∃ f < fuel, parseLoop f ctx' = some o := by
  induction h with
  | single h => exact parseLoop_of_step h hf
  | tail _ h ih =>
    obtain ⟨f, hlt, hf⟩ := ih
    obtain ⟨g, hg, hg'⟩ := parseLoop_of_step h hf
    exact ⟨g, by omega, hg'⟩

/-- **Two loops matched pass by pass return alike.**  Let `R` relate the contexts of two
loops so that a pass of the first that returns is matched by a pass of the second that
returns the same, and a pass of the first that goes round by one or more passes of the
second, to related contexts.  Then the loops from related contexts return the same. -/
theorem terminates_iff_of_simulation {R : UrlParserContext → UrlParserContext → Prop}
    (hdone : ∀ {c₁ c₂ o}, R c₁ c₂ → loopBody c₁ = .done o → loopBody c₂ = .done o)
    (hstep : ∀ {c₁ c₂ c₁'}, R c₁ c₂ → Step c₁ c₁' →
      ∃ c₂', Relation.TransGen Step c₂ c₂' ∧ R c₁' c₂')
    {c₁ c₂ : UrlParserContext} (h : R c₁ c₂) (o : ParseOutcome) :
    Terminates c₁ o ↔ Terminates c₂ o := by
  constructor
  · rintro ⟨c, hs, hd⟩
    induction hs using Relation.ReflTransGen.head_induction_on generalizing c₂ with
    | refl => exact ⟨c₂, .refl, hdone h hd⟩
    | head h₁ _ ih =>
      obtain ⟨c₂', h₂, h'⟩ := hstep h h₁
      exact (terminates_of_steps h₂.to_reflTransGen).2 (ih h')
  · intro h₂
    obtain ⟨fuel, hf⟩ := terminates_iff.1 h₂
    clear h₂
    induction fuel using Nat.strong_induction_on generalizing c₁ c₂ with
    | _ fuel ih =>
      cases hl : loopBody c₁ with
      | done o' =>
        cases terminates_unique (terminates_iff.2 ⟨fuel, hf⟩) ⟨c₂, .refl, hdone h hl⟩
        exact ⟨c₁, .refl, hl⟩
      | next c₁' =>
        obtain ⟨c₂', h₂, h'⟩ := hstep h hl
        obtain ⟨f, hlt, hf'⟩ := parseLoop_of_transGen h₂ hf
        exact (terminates_of_step hl).2 (ih f hlt h' hf')

/-- The context after `n` passes that each go round, if the loop goes round that often. -/
def passes : Nat → UrlParserContext → Option UrlParserContext
  | 0, ctx => some ctx
  | n + 1, ctx =>
    match loopBody ctx with
    | .next ctx' => passes n ctx'
    | .done _ => none

theorem steps_of_passes {n : Nat} {ctx ctx' : UrlParserContext} (h : passes n ctx = some ctx') :
    Relation.ReflTransGen Step ctx ctx' := by
  induction n generalizing ctx with
  | zero => cases h; exact .refl
  | succ n ih =>
    unfold passes at h
    split at h
    · rename_i c hb
      exact .head hb (ih h)
    · cases h

/-- A context that the loop maps to itself never returns. -/
theorem not_terminates_of_cycle {ctx : UrlParserContext} (h : Step ctx ctx) (o : ParseOutcome) :
    ¬ Terminates ctx o := by
  rw [terminates_iff]
  rintro ⟨fuel, hf⟩
  induction fuel with
  | zero => simp at hf
  | succ fuel ih => exact ih (by rwa [parseLoop_succ_of_step fuel h] at hf)

/-- The loop on `http://` reaches the host state at EOF, a context it maps to itself. -/
theorem http_empty_host_cycle : ∃ ctx, Relation.ReflTransGen Step
    (UrlParserContext.init "http://".toList none none none) ctx ∧ Step ctx ctx :=
  ⟨{ input := "http://".toList, it := 7, base := none, url := { scheme := "http".toList },
      state := .host, stateOverride := none, buffer := [], atFlag := false,
      squareBracesFlag := false, passwordTokenSeenFlag := false },
    steps_of_passes (n := 13) (by decide), show loopBody _ = .next _ by decide⟩

/-- **`http://` never returns.**  At EOF the host state moves the iterator back and fails
on the empty buffer of a special URL; the driver treats the `fail` like `increment`, which
brings back the same context, for ever. -/
theorem basicParse_http_empty_host_diverges (fuel : Nat) :
    basicParse fuel "http://".toList none none none = none := by
  obtain ⟨stuck, hreach, hcycle⟩ := http_empty_host_cycle
  cases h : basicParse fuel "http://".toList none none none with
  | none => rfl
  | some o =>
    exact absurd ((terminates_of_steps hreach).1 (terminates_iff.2 ⟨fuel, h⟩))
      (not_terminates_of_cycle hcycle o)

/-! ## The sanitized input

The loop reads the input only through the constructor's sanitization, so what that removes
never matters. -/

theorem basicParse_of_sanitize_eq {input input' : List Char} (h : sanitize input = sanitize input')
    (fuel : Nat) (base url : Option UrlRecord) (o : Option UrlState) :
    basicParse fuel input base url o = basicParse fuel input' base url o := by
  simp only [basicParse, UrlParserContext.init, h]

/-- **Tabs and newlines never matter.**  Two inputs that are equal once tabs and newlines are
removed parse alike, for every fuel, base, record and override: `basic_parse` removes them
after trimming the ends, and they are among the bytes the trimming strips. -/
theorem basicParse_tabs_and_newlines {input input' : List Char}
    (h : (removeTabsAndNewlines input).1 = (removeTabsAndNewlines input').1) (fuel : Nat)
    (base url : Option UrlRecord) (o : Option UrlState) :
    basicParse fuel input base url o = basicParse fuel input' base url o :=
  basicParse_of_sanitize_eq (by rw [← sanitize_removeTabsAndNewlines input, h,
    sanitize_removeTabsAndNewlines]) fuel base url o

theorem basicParse_tabs_and_newlines_scheme :
    (removeTabsAndNewlines "ht\ttp://a\n/b".toList).1 = (removeTabsAndNewlines "http://a/b".toList).1 ∧
      basicParse 30 "ht\ttp://a\n/b".toList none none none =
        basicParse 30 "http://a/b".toList none none none :=
  have h : (removeTabsAndNewlines "ht\ttp://a\n/b".toList).1 =
      (removeTabsAndNewlines "http://a/b".toList).1 := by decide
  ⟨h, basicParse_tabs_and_newlines h 30 none none none⟩

/-- **Stripped bytes at the ends never matter.**  Bytes that `is_whitespace` rejects (the C
locale's spaces, NUL, `\x04`, `\x12`, `\x1b`, `\x1f`), added before or after any input,
leave every parse of it unchanged. -/
theorem basicParse_strip_ends {l r : List Char} (hl : ∀ c ∈ l, isWhitespace c = false)
    (hr : ∀ c ∈ r, isWhitespace c = false) (input : List Char) (fuel : Nat)
    (base url : Option UrlRecord) (o : Option UrlState) :
    basicParse fuel (l ++ input ++ r) base url o = basicParse fuel input base url o :=
  basicParse_of_sanitize_eq (sanitize_append_stripped hl hr input) fuel base url o

theorem basicParse_strip_ends_controls :
    ((∀ c ∈ " \x00".toList, isWhitespace c = false) ∧ ∀ c ∈ "\x1b ".toList, isWhitespace c = false) ∧
      basicParse 30 (" \x00".toList ++ "http://a/b".toList ++ "\x1b ".toList) none none none =
        basicParse 30 "http://a/b".toList none none none :=
  have hl : ∀ c ∈ " \x00".toList, isWhitespace c = false := by decide
  have hr : ∀ c ∈ "\x1b ".toList, isWhitespace c = false := by decide
  ⟨⟨hl, hr⟩, basicParse_strip_ends hl hr _ 30 none none none⟩

end SkyrUrl
