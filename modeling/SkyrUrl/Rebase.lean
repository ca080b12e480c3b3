import SkyrUrl.Positions

/-!
# Runs read against another prefix

From the authority's slashes on, no handler reads the base, reads the input before the
iterator, or rewinds further back than the authority's start.  So a run from such a state
is the same run when the input before a mark is replaced by another prefix and the base by
another base: `rebase` moves the context to the new input, and

* `parseFuncs_rebase`: every handler of these states commutes with `rebase`;
* `parseLoop_rebase`: so does the whole loop, for contexts within bounds of the mark.

This is what makes scheme-relative references resolve like absolute URLs and makes the base
irrelevant once an input names its authority.
-/

namespace SkyrUrl

namespace UrlParserContext

/-- The context read against `input` and `base`, with `d` more bytes before the iterator. -/
def rebase (ctx : UrlParserContext) (input : List Char) (base : Option UrlRecord) (d : Int) :
    UrlParserContext :=
  { ctx with input := input, it := ctx.it + d, base := base }

variable {ctx : UrlParserContext} {i : List Char} {b : Option UrlRecord} {d : Int}

@[simp] theorem rebase_input : (ctx.rebase i b d).input = i := rfl
@[simp] theorem rebase_it : (ctx.rebase i b d).it = ctx.it + d := rfl
@[simp] theorem rebase_base : (ctx.rebase i b d).base = b := rfl
@[simp] theorem rebase_url : (ctx.rebase i b d).url = ctx.url := rfl
@[simp] theorem rebase_state : (ctx.rebase i b d).state = ctx.state := rfl
@[simp] theorem rebase_stateOverride : (ctx.rebase i b d).stateOverride = ctx.stateOverride := rfl
@[simp] theorem rebase_buffer : (ctx.rebase i b d).buffer = ctx.buffer := rfl
@[simp] theorem rebase_atFlag : (ctx.rebase i b d).atFlag = ctx.atFlag := rfl
@[simp] theorem rebase_squareBracesFlag :
    (ctx.rebase i b d).squareBracesFlag = ctx.squareBracesFlag := rfl

theorem rebase_isEof (h : (i.length : Int) = ctx.input.length + d) :
    (ctx.rebase i b d).isEof = ctx.isEof := by
  simp only [isEof, rebase, h]
  exact decide_eq_decide.2 (by omega)

theorem rebase_increment : (ctx.rebase i b d).increment = ctx.increment.rebase i b d := by
  simp only [rebase, increment, mk.injEq, true_and, and_true]
  omega

/-- The byte at the iterator comes from the bytes after the mark, which both inputs share. -/
theorem rebase_byte {k₁ k₂ : Nat} (hk : k₁ ≤ ctx.it) (hsuf : ctx.input.drop k₁ = i.drop k₂) :
    (ctx.rebase i b (k₂ - k₁)).byte = ctx.byte := by
  have h₁ : ctx.input.drop ctx.it.toNat = (ctx.input.drop k₁).drop (ctx.it.toNat - k₁) := by
    rw [List.drop_drop]; congr 1; omega
  have h₂ : i.drop (ctx.it + (k₂ - k₁)).toNat = (i.drop k₂).drop (ctx.it.toNat - k₁) := by
    rw [List.drop_drop]; congr 1; omega
  simp only [byte, remaining, rebase, h₁, h₂, hsuf]

end UrlParserContext

open UrlParserContext

/-- A handler's action with its context rebased. -/
def rebaseStep (i : List Char) (b : Option UrlRecord) (d : Int) (r : HandlerStep) : HandlerStep :=
  (r.1, r.2.rebase i b d)

/-! ## The handlers from the authority on -/

section Handlers

variable {ctx : UrlParserContext} {i : List Char} {b : Option UrlRecord} {d : Int} {c : Char}

/-- Matches a handler's branches with those of the handler on the rebased context, one
condition at a time, without splitting the conditions inside the records they build. -/
theorem ite_eq_apply_ite {α β : Type} {p : Prop} [Decidable p] {x y : α} {x' y' : β} {f : α → β}
    (hx : p → x' = f x) (hy : ¬p → y' = f y) : (if p then x' else y') = f (if p then x else y) := by
  split
  exacts [hx ‹_›, hy ‹_›]

theorem bind_eq_map_bind {α β γ : Type} {x : Except ParseAbort γ} {g : γ → Except ParseAbort α}
    {g' : γ → Except ParseAbort β} {f : α → β} (h : ∀ a, g' a = (g a).map f) :
    x >>= g' = (x >>= g).map f := by
  cases x
  · rfl
  · exact h _

theorem parseSpecialAuthorityIgnoreSlashes_rebase :
    parseSpecialAuthorityIgnoreSlashes (ctx.rebase i b d) c =
      rebaseStep i b d (parseSpecialAuthorityIgnoreSlashes ctx c) := by
  unfold parseSpecialAuthorityIgnoreSlashes
  repeat' refine ite_eq_apply_ite (fun _ => ?_) (fun _ => ?_)
  all_goals simp only [rebaseStep, decrement, rebase, mk.injEq, Prod.mk.injEq, true_and,
    and_true] <;> omega

theorem parseAuthority_rebase (h : (i.length : Int) = ctx.input.length + d) :
    parseAuthority (ctx.rebase i b d) c = rebaseStep i b d (parseAuthority ctx c) := by
  unfold parseAuthority isAuthorityEnd
  simp only [rebase_isEof h, rebase_url, rebase_buffer, rebase_atFlag]
  repeat' refine ite_eq_apply_ite (fun _ => ?_) (fun _ => ?_)
  all_goals simp only [rebaseStep, restartFromBuffer, rebase, mk.injEq, Prod.mk.injEq, true_and,
    and_true] <;> omega

theorem parseHostname_rebase (h : (i.length : Int) = ctx.input.length + d) :
    parseHostname (ctx.rebase i b d) c = (parseHostname ctx c).map (rebaseStep i b d) := by
  unfold parseHostname isAuthorityEnd
  simp only [rebase_isEof h, rebase_url, rebase_buffer, rebase_squareBracesFlag,
    rebase_stateOverride, decrement]
  repeat' first
    | refine ite_eq_apply_ite (fun _ => ?_) (fun _ => ?_)
    | refine bind_eq_map_bind fun _ => ?_
    | split
  all_goals simp only [pure, Except.pure, Except.map, rebaseStep, rebase, mk.injEq,
    Prod.mk.injEq, Except.ok.injEq, true_and, and_true] <;> omega

theorem parsePort_rebase (h : (i.length : Int) = ctx.input.length + d) :
    parsePort (ctx.rebase i b d) c = rebaseStep i b d (parsePort ctx c) := by
  unfold parsePort portDone isAuthorityEnd
  simp only [rebase_isEof h, rebase_url, rebase_buffer, rebase_stateOverride]
  repeat' refine ite_eq_apply_ite (fun _ => ?_) (fun _ => ?_)
  all_goals simp only [rebaseStep, decrement, rebase, mk.injEq, Prod.mk.injEq, true_and,
    and_true] <;> omega

theorem parseFileHost_rebase (h : (i.length : Int) = ctx.input.length + d) :
    parseFileHost (ctx.rebase i b d) c = (parseFileHost ctx c).map (rebaseStep i b d) := by
  unfold parseFileHost
  simp only [rebase_isEof h, rebase_url, rebase_buffer, rebase_stateOverride, decrement]
  repeat' first
    | refine ite_eq_apply_ite (fun _ => ?_) (fun _ => ?_)
    | refine bind_eq_map_bind fun _ => ?_
    | split
  all_goals simp only [pure, Except.pure, Except.map, rebaseStep, rebase, mk.injEq,
    Prod.mk.injEq, Except.ok.injEq, true_and, and_true] <;> omega

theorem parsePathStart_rebase (h : (i.length : Int) = ctx.input.length + d) :
    parsePathStart (ctx.rebase i b d) c = rebaseStep i b d (parsePathStart ctx c) := by
  unfold parsePathStart
  simp only [rebase_isEof h, rebase_url, rebase_stateOverride]
  repeat' refine ite_eq_apply_ite (fun _ => ?_) (fun _ => ?_)
  all_goals simp only [rebaseStep, decrement, rebase, mk.injEq, Prod.mk.injEq, true_and,
    and_true] <;> omega

theorem parsePath_rebase (h : (i.length : Int) = ctx.input.length + d) :
    parsePath (ctx.rebase i b d) c = (parsePath ctx c).map (rebaseStep i b d) := by
  unfold parsePath
  simp only [rebase_isEof h, rebase_url, rebase_buffer, rebase_stateOverride]
  repeat' first
    | refine ite_eq_apply_ite (fun _ => ?_) (fun _ => ?_)
    | refine bind_eq_map_bind fun ⟨_, _⟩ => ?_
  all_goals rfl

theorem parseCannotBeABaseUrl_rebase (h : (i.length : Int) = ctx.input.length + d) :
    parseCannotBeABaseUrl (ctx.rebase i b d) c =
      (parseCannotBeABaseUrl ctx c).map (rebaseStep i b d) := by
  unfold parseCannotBeABaseUrl
  simp only [rebase_isEof h, rebase_url]
  split_ifs <;> (try split) <;> rfl

theorem parseQuery_rebase (h : (i.length : Int) = ctx.input.length + d) :
    parseQuery (ctx.rebase i b d) c = (parseQuery ctx c).map (rebaseStep i b d) := by
  unfold parseQuery
  simp only [rebase_isEof h, rebase_url, rebase_stateOverride]
  split_ifs <;> (try rcases ctx.url.query with _ | _) <;> rfl

theorem parseFragment_rebase :
    parseFragment (ctx.rebase i b d) c = (parseFragment ctx c).map (rebaseStep i b d) := by
  unfold parseFragment
  simp only [rebase_url]
  split_ifs <;> (try rcases ctx.url.fragment with _ | _) <;> rfl

end Handlers

/-! ## The loop -/

/-- What a pass leads to, rebased. -/
def LoopStep.rebase (i : List Char) (b : Option UrlRecord) (d : Int) : LoopStep → LoopStep
  | .done o => .done o
  | .next ctx => .next (ctx.rebase i b d)

section Loop

variable {ctx : UrlParserContext} {i : List Char} {b : Option UrlRecord} {d : Int}

/-- Every handler from the authority on commutes with `rebase`. -/
theorem parseFuncs_rebase {s : UrlState} {c : Char} (hs : isAuthorityOrLater s)
    (h : (i.length : Int) = ctx.input.length + d) :
    parseFuncs s (ctx.rebase i b d) c = (parseFuncs s ctx c).map (rebaseStep i b d) := by
  cases s <;> simp only [isAuthorityOrLater, Bool.false_eq_true] at hs <;>
    simp only [parseFuncs, pure, Except.pure, Except.map]
  case specialAuthorityIgnoreSlashes => rw [parseSpecialAuthorityIgnoreSlashes_rebase]
  case authority => rw [parseAuthority_rebase h]
  case host => exact parseHostname_rebase h
  case hostname => exact parseHostname_rebase h
  case port => rw [parsePort_rebase h]
  case fileHost => exact parseFileHost_rebase h
  case pathStart => rw [parsePathStart_rebase h]
  case path => exact parsePath_rebase h
  case cannotBeABaseUrlPath => exact parseCannotBeABaseUrl_rebase h
  case query => exact parseQuery_rebase h
  case fragment => exact parseFragment_rebase

theorem dispatch_rebase (hs : isAuthorityOrLater ctx.state)
    (h : (i.length : Int) = ctx.input.length + d) (hbyte : (ctx.rebase i b d).byte = ctx.byte) :
    dispatch (ctx.rebase i b d) = (dispatch ctx).map (rebaseStep i b d) := by
  unfold dispatch
  rw [hbyte, rebase_state]
  exact parseFuncs_rebase hs h

/-- One pass of the loop on a rebased context is the rebased pass. -/
theorem loopBody_rebase {k₁ k₂ : Nat} (hb : InBounds k₁ ctx) (hk : 0 < k₁)
    (hsuf : ctx.input.drop k₁ = i.drop k₂) (hk₂ : k₂ ≤ i.length) :
    loopBody (ctx.rebase i b (k₂ - k₁)) = (loopBody ctx).rebase i b (k₂ - k₁) := by
  have hlen : (i.length : Int) = ctx.input.length + (k₂ - k₁) := by
    have := congrArg List.length hsuf
    simp only [List.length_drop] at this
    have := hb.1
    have := hb.2.1
    omega
  have hd := dispatch_rebase (b := b) (hb.2.2.2.2 hk) hlen (rebase_byte hb.1 hsuf)
  unfold loopBody
  rw [hd]
  rcases hdc : dispatch ctx with e | ⟨a, c⟩
  · rfl
  · obtain ⟨hin, -⟩ := dispatch_inBounds hb hdc
    have hc : (i.length : Int) = c.input.length + (k₂ - k₁) := by rw [hin]; exact hlen
    cases a <;> simp only [Except.map, rebaseStep, afterAction, rebase_isEof hc] <;> (try split) <;>
      simp only [LoopStep.rebase, rebase_increment, rebase_url]

/-- **The loop from the authority on reads neither the base nor the bytes before the mark.**
A context within bounds of a positive mark runs to the same outcome against any input that
has the same bytes after its own mark, and against any base. -/
theorem parseLoop_rebase {k₁ k₂ : Nat} (fuel : Nat) (hb : InBounds k₁ ctx) (hk : 0 < k₁)
    (hsuf : ctx.input.drop k₁ = i.drop k₂) (hk₂ : k₂ ≤ i.length) :
    parseLoop fuel (ctx.rebase i b (k₂ - k₁)) = parseLoop fuel ctx := by
  induction fuel generalizing ctx with
  | zero => rfl
  | succ fuel ih =>
    unfold parseLoop
    rw [loopBody_rebase hb hk hsuf hk₂]
    cases hl : loopBody ctx with
    | done o => rfl
    | next c =>
      have hs : Step ctx c := hl
      exact ih (step_inBounds hb hs) (by rw [step_input hb hs]; exact hsuf)

end Loop

end SkyrUrl
