import SkyrUrl.Setters

/-!
# The userinfo of an authority

`parse_authority` collects the bytes of the authority in its buffer and, at each `@`, moves
the buffer into the credentials.  The first `:` of the whole userinfo switches from the
username to the password (`password_token_seen_flag` is a member of the context, kept from
one `@` to the next), every other byte is percent-encoded with the userinfo set, and an `@`
before the last one comes back as the `%40` put in front of the next buffer.  At the end of
the authority the iterator goes back to the byte after the last `@`, and the host state
reads the rest.

* `encodeUserinfo_false`: the loop over a buffer, in closed form;
* `steps_userinfo`: the authority state over a userinfo and its last `@`, whatever the
  number of `@` in it, commits the userinfo as if it were one buffer (`pendingUserinfo`);
* `parseLoop_withUserinfo`: from the host state on, no handler reads the credentials or the
  authority's flags;
* `parse_userinfo`: an input with a userinfo parses as the same input without it, with the
  username and the password that the userinfo's first `:` splits.
-/

namespace SkyrUrl

open UrlParserContext

/-! ## The loop over the buffer -/

theorem encodeUserinfo_append (url : UrlRecord) (seen : Bool) (a b : List Char) :
    encodeUserinfo url seen (a ++ b) =
      encodeUserinfo (encodeUserinfo url seen a).1 (encodeUserinfo url seen a).2 b := by
  induction a generalizing url seen with
  | nil => rfl
  | cons c a ih =>
    simp only [List.cons_append, encodeUserinfo.eq_2]
    split_ifs <;> exact ih _ _

/-- After the first `:`, every byte goes to the password. -/
theorem encodeUserinfo_true (url : UrlRecord) (b : List Char) :
    encodeUserinfo url true b =
      ({ url with password := url.password ++ b.flatMap (pctEncodeChar · userinfoSet) }, true) := by
  induction b generalizing url with
  | nil => simp [encodeUserinfo]
  | cons c b ih => simp [encodeUserinfo, ih]

/-- **The credentials of a buffer.**  The bytes before its first `:` go to the username and
those after it to the password, each percent-encoded with the userinfo set; the `:` goes to
neither, and the flag says whether there was one. -/
theorem encodeUserinfo_false (url : UrlRecord) (b : List Char) :
    encodeUserinfo url false b =
      ({ url with
          username := url.username ++ (b.takeWhile (· != ':')).flatMap (pctEncodeChar · userinfoSet)
          password := url.password ++
            ((b.dropWhile (· != ':')).drop 1).flatMap (pctEncodeChar · userinfoSet) },
        decide (':' ∈ b)) := by
  induction b generalizing url with
  | nil => simp [encodeUserinfo]
  | cons c b ih =>
    by_cases hc : c = ':'
    · subst hc; simp [encodeUserinfo, encodeUserinfo_true]
    · simp [encodeUserinfo, hc, Ne.symm hc, ih]

/-- The `%40` put before the buffer of a later `@` goes where the `@` itself, percent-encoded,
would go. -/
theorem encodeUserinfo_pct40 (url : UrlRecord) (seen : Bool) (b : List Char) :
    encodeUserinfo url seen ('%' :: '4' :: '0' :: b) = encodeUserinfo url seen ('@' :: b) := by
  have h : ∀ c ∈ ['%', '4', '0'], pctEncodeChar c userinfoSet = [c] := by decide
  have ha : pctEncodeChar '@' userinfoSet = ['%', '4', '0'] := by decide
  cases seen <;> simp [encodeUserinfo, h, ha]

/-! ## From the host state on -/

/-- The states from the host on.  No handler of these states moves back to the authority. -/
def isHostOrLater : UrlState → Bool
  | .host | .hostname | .port | .fileHost | .pathStart | .path | .cannotBeABaseUrlPath
  | .query | .fragment => true
  | _ => false

/-- The record with other credentials. -/
def UrlRecord.withCredentials (url : UrlRecord) (username password : List Char) : UrlRecord :=
  { url with username := username, password := password }

/-- The context with the credentials and the flags an `@` of the authority leaves. -/
def UrlParserContext.withUserinfo (ctx : UrlParserContext) (username password : List Char)
    (seen : Bool) : UrlParserContext :=
  { ctx with url := ctx.url.withCredentials username password, atFlag := true,
             passwordTokenSeenFlag := seen }

/-- A handler's action with the credentials and flags of its context replaced. -/
def userinfoStep (username password : List Char) (seen : Bool) (r : HandlerStep) : HandlerStep :=
  (r.1, r.2.withUserinfo username password seen)

/-- An outcome with the credentials of its record replaced. -/
def ParseOutcome.withCredentials (username password : List Char) : ParseOutcome → ParseOutcome
  | .ok url => .ok (url.withCredentials username password)
  | .aborted e => .aborted e

/-- What a pass leads to, with the credentials and flags replaced. -/
def LoopStep.withUserinfo (username password : List Char) (seen : Bool) : LoopStep → LoopStep
  | .done o => .done (o.withCredentials username password)
  | .next ctx => .next (ctx.withUserinfo username password seen)

section Fields

variable {url : UrlRecord} {ctx : UrlParserContext} {u p : List Char} {seen : Bool}

@[simp] theorem UrlRecord.withCredentials_scheme : (url.withCredentials u p).scheme = url.scheme :=
  rfl
@[simp] theorem UrlRecord.withCredentials_path : (url.withCredentials u p).path = url.path := rfl
@[simp] theorem UrlRecord.withCredentials_query : (url.withCredentials u p).query = url.query := rfl
@[simp] theorem UrlRecord.withCredentials_fragment :
    (url.withCredentials u p).fragment = url.fragment := rfl
@[simp] theorem UrlRecord.withCredentials_isSpecial :
    (url.withCredentials u p).isSpecial = url.isSpecial := rfl

@[simp] theorem withUserinfo_url : (ctx.withUserinfo u p seen).url = ctx.url.withCredentials u p :=
  rfl
@[simp] theorem withUserinfo_stateOverride :
    (ctx.withUserinfo u p seen).stateOverride = ctx.stateOverride := rfl
@[simp] theorem withUserinfo_buffer : (ctx.withUserinfo u p seen).buffer = ctx.buffer := rfl
@[simp] theorem withUserinfo_isEof : (ctx.withUserinfo u p seen).isEof = ctx.isEof := rfl

theorem pathSegment_withCredentials (buffer : List Char) :
    pathSegment (url.withCredentials u p) buffer = pathSegment url buffer := rfl

end Fields

section Handlers

variable {ctx : UrlParserContext} {c : Char} {u p : List Char} {seen : Bool}

theorem parseHostname_withUserinfo :
    parseHostname (ctx.withUserinfo u p seen) c =
      (parseHostname ctx c).map (userinfoStep u p seen) := by
  unfold parseHostname isAuthorityEnd
  exact ite_eq_apply_ite (fun _ => rfl) fun _ => ite_eq_apply_ite (fun _ =>
    ite_eq_apply_ite (fun _ => rfl) fun _ => bind_eq_map_bind fun
      | none => rfl
      | some _ => ite_eq_apply_ite (fun _ => rfl) fun _ => rfl) fun _ =>
    ite_eq_apply_ite (fun _ => ite_eq_apply_ite (fun _ => rfl) fun _ => bind_eq_map_bind fun
      | none => rfl
      | some _ => rfl) fun _ => rfl

theorem parsePort_withUserinfo :
    parsePort (ctx.withUserinfo u p seen) c = userinfoStep u p seen (parsePort ctx c) := by
  unfold parsePort portDone isAuthorityEnd
  repeat' refine ite_eq_apply_ite (fun _ => ?_) (fun _ => ?_)
  all_goals rfl

theorem parseFileHost_withUserinfo :
    parseFileHost (ctx.withUserinfo u p seen) c =
      (parseFileHost ctx c).map (userinfoStep u p seen) := by
  unfold parseFileHost
  exact ite_eq_apply_ite (fun _ => ite_eq_apply_ite (fun _ => rfl) fun _ =>
    ite_eq_apply_ite (fun _ => ite_eq_apply_ite (fun _ => rfl) fun _ => rfl) fun _ =>
      bind_eq_map_bind fun
        | none => rfl
        | some _ => ite_eq_apply_ite (fun _ => rfl) fun _ => rfl) fun _ => rfl

theorem parsePathStart_withUserinfo :
    parsePathStart (ctx.withUserinfo u p seen) c =
      userinfoStep u p seen (parsePathStart ctx c) := by
  unfold parsePathStart
  repeat' refine ite_eq_apply_ite (fun _ => ?_) (fun _ => ?_)
  all_goals rfl

/-- The first bind of a handler, on a value that is the image of the other handler's. -/
theorem bind_eq_map_bind_of {α β γ δ : Type} {x' : Except ParseAbort β} {x : Except ParseAbort α}
    {f : α → β} {g' : β → Except ParseAbort δ} {g : α → Except ParseAbort γ} {h : γ → δ}
    (hx : x' = x.map f) (hg : ∀ a, g' (f a) = (g a).map h) : x' >>= g' = (x >>= g).map h := by
  subst hx
  cases x
  · rfl
  · exact hg _

/-- `parse_path` builds the record it binds from the context's record, so the three ways of
applying the buffer are matched first, and what follows is matched once per way, for any
record. -/
theorem parsePath_withUserinfo :
    parsePath (ctx.withUserinfo u p seen) c =
      (parsePath ctx c).map (userinfoStep u p seen) := by
  unfold parsePath
  simp only [withUserinfo_url, withUserinfo_isEof, withUserinfo_buffer, withUserinfo_stateOverride,
    UrlRecord.withCredentials_isSpecial, UrlRecord.withCredentials_scheme,
    UrlRecord.withCredentials_path, pathSegment_withCredentials]
  refine ite_eq_apply_ite (fun _ => ?_) fun _ => rfl
  refine ite_eq_apply_ite
    (fun _ => bind_eq_map_bind_of (f := (UrlRecord.withCredentials · u p)) rfl fun url => ?_)
    fun _ => ite_eq_apply_ite (fun _ => bind_eq_map_bind_of (f := (UrlRecord.withCredentials · u p))
      (by split <;> rfl) fun url => ?_) fun _ => bind_eq_map_bind fun ⟨_, _⟩ =>
        bind_eq_map_bind_of (f := (UrlRecord.withCredentials · u p)) rfl fun url => ?_
  all_goals
    simp only [UrlRecord.withCredentials_scheme]
    refine ite_eq_apply_ite (fun _ => ?_) fun _ => ite_eq_apply_ite (fun _ => ?_) fun _ => ?_
    all_goals split <;> rfl

theorem parseCannotBeABaseUrl_withUserinfo :
    parseCannotBeABaseUrl (ctx.withUserinfo u p seen) c =
      (parseCannotBeABaseUrl ctx c).map (userinfoStep u p seen) := by
  unfold parseCannotBeABaseUrl
  simp only [withUserinfo_url, withUserinfo_isEof, UrlRecord.withCredentials_path]
  refine ite_eq_apply_ite (fun _ => rfl) fun _ => ite_eq_apply_ite (fun _ => rfl) fun _ =>
    ite_eq_apply_ite (fun _ => ?_) fun _ => rfl
  split <;> rfl

theorem parseQuery_withUserinfo :
    parseQuery (ctx.withUserinfo u p seen) c =
      (parseQuery ctx c).map (userinfoStep u p seen) := by
  unfold parseQuery
  simp only [withUserinfo_url, withUserinfo_isEof, withUserinfo_stateOverride,
    UrlRecord.withCredentials_query]
  split_ifs <;> (try rcases ctx.url.query with _ | _) <;> rfl

theorem parseFragment_withUserinfo :
    parseFragment (ctx.withUserinfo u p seen) c =
      (parseFragment ctx c).map (userinfoStep u p seen) := by
  unfold parseFragment
  simp only [withUserinfo_url, UrlRecord.withCredentials_fragment]
  split_ifs <;> (try rcases ctx.url.fragment with _ | _) <;> rfl

end Handlers

section Closure

variable {ctx : UrlParserContext} {c : Char}

/-- Descends a pure handler's branches for `isHostOrLater`. -/
theorem hostOrLater_ite {p : Prop} [Decidable p] {x y : HandlerStep}
    (hx : p → isHostOrLater x.2.state) (hy : ¬p → isHostOrLater y.2.state) :
    isHostOrLater (if p then x else y).2.state := by
  split
  exacts [hx ‹_›, hy ‹_›]

theorem parseHostname_hostOrLater (hs : isHostOrLater ctx.state) :
    ∀ r, parseHostname ctx c = .ok r → isHostOrLater r.2.state := by
  unfold parseHostname
  exact forall_ok_ite (fun _ => forall_ok_pure rfl) fun _ =>
    forall_ok_ite (fun _ => forall_ok_ite (fun _ => forall_ok_pure hs) fun _ =>
      forall_ok_bind fun
        | none => forall_ok_pure hs
        | some _ => forall_ok_ite (fun _ => forall_ok_pure rfl) fun _ => forall_ok_pure rfl)
    fun _ => forall_ok_ite (fun _ => forall_ok_ite (fun _ => forall_ok_pure hs) fun _ =>
      forall_ok_bind fun
        | none => forall_ok_pure hs
        | some _ => forall_ok_pure rfl)
    fun _ => forall_ok_pure hs

theorem parsePort_hostOrLater (hs : isHostOrLater ctx.state) :
    isHostOrLater (parsePort ctx c).2.state := by
  unfold parsePort portDone
  exact hostOrLater_ite (fun _ => hs) fun _ => hostOrLater_ite (fun _ => hostOrLater_ite
    (fun _ => hostOrLater_ite (fun _ => hs) fun _ => rfl) fun _ => hostOrLater_ite (fun _ => hs)
      fun _ => hostOrLater_ite (fun _ => hs) fun _ => rfl) fun _ => hs

theorem parseFileHost_hostOrLater (hs : isHostOrLater ctx.state) :
    ∀ r, parseFileHost ctx c = .ok r → isHostOrLater r.2.state := by
  unfold parseFileHost
  exact forall_ok_ite (fun _ => forall_ok_ite (fun _ => forall_ok_pure rfl) fun _ =>
    forall_ok_ite (fun _ => forall_ok_ite (fun _ => forall_ok_pure hs) fun _ => forall_ok_pure rfl)
      fun _ => forall_ok_bind fun
        | none => forall_ok_pure hs
        | some _ => forall_ok_ite (fun _ => forall_ok_pure hs) fun _ => forall_ok_pure rfl)
    fun _ => forall_ok_pure hs

theorem parsePathStart_hostOrLater (hs : isHostOrLater ctx.state) :
    isHostOrLater (parsePathStart ctx c).2.state := by
  unfold parsePathStart
  exact hostOrLater_ite (fun _ => hostOrLater_ite (fun _ => rfl) fun _ => rfl) fun _ =>
    hostOrLater_ite (fun _ => rfl) fun _ => hostOrLater_ite (fun _ => rfl) fun _ =>
      hostOrLater_ite (fun _ => hostOrLater_ite (fun _ => rfl) fun _ => rfl) fun _ => hs

theorem parsePath_hostOrLater (hs : isHostOrLater ctx.state) :
    ∀ r, parsePath ctx c = .ok r → isHostOrLater r.2.state := by
  unfold parsePath
  refine forall_ok_ite (fun _ => forall_ok_ite (fun _ => ?_) fun _ => forall_ok_ite (fun _ => ?_)
    fun _ => forall_ok_bind fun ⟨_, _⟩ => ?_) fun _ => forall_ok_pure hs
  all_goals exact forall_ok_bind fun _ => forall_ok_ite (fun _ => forall_ok_pure rfl) fun _ =>
    forall_ok_ite (fun _ => forall_ok_pure rfl) fun _ => forall_ok_pure hs

theorem parseCannotBeABaseUrl_hostOrLater (hs : isHostOrLater ctx.state) :
    ∀ r, parseCannotBeABaseUrl ctx c = .ok r → isHostOrLater r.2.state := by
  unfold parseCannotBeABaseUrl
  refine forall_ok_ite (fun _ => forall_ok_pure rfl) fun _ =>
    forall_ok_ite (fun _ => forall_ok_pure rfl) fun _ =>
      forall_ok_ite (fun _ => ?_) fun _ => forall_ok_pure hs
  split
  exacts [forall_ok_pure hs, forall_ok_throw]

theorem parseQuery_hostOrLater (hs : isHostOrLater ctx.state) :
    ∀ r, parseQuery ctx c = .ok r → isHostOrLater r.2.state := by
  unfold parseQuery
  exact forall_ok_ite (fun _ => forall_ok_pure rfl) fun _ =>
    forall_ok_ite (fun _ => forall_ok_bind fun _ => forall_ok_pure hs) fun _ => forall_ok_pure hs

theorem parseFragment_hostOrLater (hs : isHostOrLater ctx.state) :
    ∀ r, parseFragment ctx c = .ok r → isHostOrLater r.2.state := by
  unfold parseFragment
  exact forall_ok_ite (fun _ => forall_ok_pure hs) fun _ =>
    forall_ok_bind fun _ => forall_ok_pure hs

/-- **No handler from the host on moves back to the authority.** -/
theorem dispatch_hostOrLater (hs : isHostOrLater ctx.state) :
    ∀ r, dispatch ctx = .ok r → isHostOrLater r.2.state := by
  unfold dispatch
  cases h : ctx.state with
  | host | hostname => exact parseHostname_hostOrLater (h ▸ hs)
  | port => exact forall_ok_pure (parsePort_hostOrLater (h ▸ hs))
  | fileHost => exact parseFileHost_hostOrLater (h ▸ hs)
  | pathStart => exact forall_ok_pure (parsePathStart_hostOrLater (h ▸ hs))
  | path => exact parsePath_hostOrLater (h ▸ hs)
  | cannotBeABaseUrlPath => exact parseCannotBeABaseUrl_hostOrLater (h ▸ hs)
  | query => exact parseQuery_hostOrLater (h ▸ hs)
  | fragment => exact parseFragment_hostOrLater (h ▸ hs)
  | _ => simp [h, isHostOrLater] at hs

theorem step_hostOrLater {ctx' : UrlParserContext} (hs : isHostOrLater ctx.state)
    (h : Step ctx ctx') : isHostOrLater ctx'.state := by
  obtain ⟨a, c, hd, ⟨-, rfl⟩ | ⟨-, -, rfl⟩⟩ := step_iff.1 h
  exacts [dispatch_hostOrLater hs _ hd, dispatch_hostOrLater hs _ hd]

end Closure

section Loop

variable {ctx : UrlParserContext} {c : Char} {u p : List Char} {seen : Bool}

theorem parseFuncs_withUserinfo {s : UrlState} (hs : isHostOrLater s) :
    parseFuncs s (ctx.withUserinfo u p seen) c =
      (parseFuncs s ctx c).map (userinfoStep u p seen) := by
  cases s <;> simp only [isHostOrLater, Bool.false_eq_true] at hs <;>
    simp only [parseFuncs, pure, Except.pure, Except.map]
  case host => exact parseHostname_withUserinfo
  case hostname => exact parseHostname_withUserinfo
  case port => rw [parsePort_withUserinfo]
  case fileHost => exact parseFileHost_withUserinfo
  case pathStart => rw [parsePathStart_withUserinfo]
  case path => exact parsePath_withUserinfo
  case cannotBeABaseUrlPath => exact parseCannotBeABaseUrl_withUserinfo
  case query => exact parseQuery_withUserinfo
  case fragment => exact parseFragment_withUserinfo

theorem loopBody_withUserinfo (hs : isHostOrLater ctx.state) :
    loopBody (ctx.withUserinfo u p seen) = (loopBody ctx).withUserinfo u p seen := by
  unfold loopBody
  rw [show dispatch (ctx.withUserinfo u p seen) = (dispatch ctx).map (userinfoStep u p seen) from
    parseFuncs_withUserinfo hs]
  rcases dispatch ctx with e | ⟨a, c⟩
  · rfl
  · cases a <;> simp only [Except.map, userinfoStep, afterAction, withUserinfo_isEof] <;>
      (try split) <;> rfl

/-- **From the host state on, the credentials and the authority's flags are never read.**
The loop from a context with other credentials and flags returns what the loop from the
context returns, with those credentials. -/
theorem parseLoop_withUserinfo (fuel : Nat) (hs : isHostOrLater ctx.state) :
    parseLoop fuel (ctx.withUserinfo u p seen) =
      (parseLoop fuel ctx).map (ParseOutcome.withCredentials u p) := by
  induction fuel generalizing ctx with
  | zero => rfl
  | succ fuel ih =>
    unfold parseLoop
    rw [loopBody_withUserinfo hs]
    cases hl : loopBody ctx with
    | done o => rfl
    | next c => exact ih (step_hostOrLater hs hl)

end Loop

/-! ## The authority state -/

/-- The bytes that end the authority: `/`, `?`, `#`, and `\` in a special URL. -/
def endsAuthority (special : Bool) (c : Char) : Bool :=
  c == '/' || c == '?' || c == '#' || (special && c == '\\')

/-- The userinfo that an `@` read now commits: the buffer, after the `@` read before, which
the source puts back as `%40`. -/
def pendingUserinfo (ctx : UrlParserContext) : List Char :=
  if ctx.atFlag then '@' :: ctx.buffer else ctx.buffer

/-- The authority state after an `@` that commits `b` to the credentials. -/
def UrlParserContext.commitUserinfo (ctx : UrlParserContext) (b : List Char) : UrlParserContext :=
  { ctx with url := (encodeUserinfo ctx.url ctx.passwordTokenSeenFlag b).1,
             passwordTokenSeenFlag := (encodeUserinfo ctx.url ctx.passwordTokenSeenFlag b).2,
             atFlag := true, buffer := [] }

/-- The authority state one byte past the `@` that ends the userinfo `q`, with the pending
userinfo and `q` committed. -/
def UrlParserContext.afterUserinfo (ctx : UrlParserContext) (q : List Char) : UrlParserContext :=
  ({ ctx with it := ctx.it + q.length }.commitUserinfo (pendingUserinfo ctx ++ q)).increment

section Authority

variable {ctx : UrlParserContext} {x : Char} {rest : List Char}

theorem isAuthorityEnd_iff :
    isAuthorityEnd ctx x ↔ ctx.isEof ∨ endsAuthority ctx.url.isSpecial x := by
  simp [isAuthorityEnd, endsAuthority, or_assoc]

/-- `parse_authority` at an `@` commits the pending userinfo. -/
theorem parseAuthority_at (ctx : UrlParserContext) :
    parseAuthority ctx '@' = (.increment, ctx.commitUserinfo (pendingUserinfo ctx)) := by
  unfold parseAuthority commitUserinfo pendingUserinfo
  cases ctx.atFlag <;> simp [encodeUserinfo_pct40]

theorem pendingUserinfo_byte (c : Char) :
    pendingUserinfo { ctx with buffer := ctx.buffer ++ [c] }.increment =
      pendingUserinfo ctx ++ [c] := by
  simp only [pendingUserinfo, increment]
  split_ifs <;> rfl

theorem step_authority_at (hs : ctx.state = .authority) (hr : ctx.remaining = '@' :: rest) :
    Step ctx (ctx.commitUserinfo (pendingUserinfo ctx)).increment :=
  step_of_increment_remaining (by
    simp only [dispatch, hs, byte_of_remaining hr, parseFuncs, parseAuthority_at]; rfl) hr

theorem step_authority_byte (hs : ctx.state = .authority) (hr : ctx.remaining = x :: rest)
    (hx : x ≠ '@') (he : endsAuthority ctx.url.isSpecial x = false) :
    Step ctx { ctx with buffer := ctx.buffer ++ [x] }.increment :=
  step_of_increment_remaining (by
    simp only [dispatch, hs, byte_of_remaining hr, parseFuncs, parseAuthority, hx, if_false,
      isAuthorityEnd_iff, isEof_eq_false_of_remaining hr, he, or_self]; rfl) hr

/-- At the end of the authority, a non-empty buffer is the host: the iterator goes back to
its first byte, in the host state. -/
theorem step_authority_end (hs : ctx.state = .authority) (hb : ctx.buffer ≠ [])
    (hat : ctx.byte ≠ '@') (hend : isAuthorityEnd ctx ctx.byte)
    (hit : ctx.it ≤ ctx.input.length) :
    Step ctx { ctx with it := ctx.it - ctx.buffer.length, state := .host, buffer := [] } := by
  have hlen : 0 < ctx.buffer.length := List.length_pos.2 hb
  refine step_iff.2 ⟨.increment, { ctx.restartFromBuffer with state := .host, buffer := [] },
    ?_, .inr ⟨.inl rfl, by simp only [isEof, restartFromBuffer, decide_eq_false_iff_not]; omega,
      by simp only [increment, restartFromBuffer, mk.injEq, true_and, and_true]; omega⟩⟩
  simp only [dispatch, hs, parseFuncs, parseAuthority, hat, hend, hb, and_false, if_false, if_true]
  rfl

/-- **The bytes of the authority other than `@` go to the buffer.** -/
theorem steps_authority_bytes : ∀ (seg : List Char) {ctx : UrlParserContext} {tail : List Char},
    ctx.state = .authority → 0 ≤ ctx.it → ctx.remaining = seg ++ tail →
    (∀ c ∈ seg, c ≠ '@' ∧ endsAuthority ctx.url.isSpecial c = false) →
    Relation.ReflTransGen Step ctx
      { ctx with it := ctx.it + seg.length, buffer := ctx.buffer ++ seg }
  | [], ctx, _, _, _, _, _ => by simpa using Relation.ReflTransGen.refl
  | c :: seg, ctx, tail, hs, hit, hr, hseg => by
    obtain ⟨hc, he⟩ := hseg c (List.mem_cons_self _ _)
    refine .head (step_authority_byte hs hr hc he) ((@steps_authority_bytes seg
      { ctx with buffer := ctx.buffer ++ [c] }.increment tail hs (show 0 ≤ ctx.it + 1 by omega)
      (remaining_increment hit hr) fun x hx => hseg x (List.mem_cons_of_mem _ hx)).trans ?_)
    have e : ctx.it + 1 + (seg.length : Int) = ctx.it + ((c :: seg).length : Nat) := by
      simp only [List.length_cons, Nat.cast_add, Nat.cast_one]; omega
    simp only [increment, e, List.append_assoc, List.singleton_append]
    exact .refl

theorem afterUserinfo_at (q : List Char) :
    ((ctx.commitUserinfo (pendingUserinfo ctx)).increment).afterUserinfo q =
      ctx.afterUserinfo ('@' :: q) := by
  simp only [afterUserinfo, commitUserinfo, pendingUserinfo, increment, if_true,
    List.singleton_append, ← encodeUserinfo_append, List.length_cons, mk.injEq, true_and, and_true]
  push_cast; omega

theorem afterUserinfo_byte (c : Char) (q : List Char) :
    { ctx with buffer := ctx.buffer ++ [c] }.increment.afterUserinfo q =
      ctx.afterUserinfo (c :: q) := by
  rw [afterUserinfo, afterUserinfo, pendingUserinfo_byte]
  simp only [commitUserinfo, increment, List.append_assoc, List.singleton_append, List.length_cons,
    mk.injEq, true_and, and_true]
  push_cast; omega

/-- **The userinfo up to the authority's last `@`.**  However many `@` it holds, the
authority state commits the pending userinfo and the bytes read, as if they were one
buffer: an earlier `@` is committed where the `@` itself would go. -/
theorem steps_userinfo : ∀ (q : List Char) {ctx : UrlParserContext} {rest : List Char},
    ctx.state = .authority → 0 ≤ ctx.it → ctx.remaining = q ++ '@' :: rest →
    (∀ c ∈ q, endsAuthority ctx.url.isSpecial c = false) →
    Relation.ReflTransGen Step ctx (ctx.afterUserinfo q)
  | [], ctx, rest, hs, _, hr, _ => by
    simpa [afterUserinfo] using .single (step_authority_at hs hr)
  | c :: q, ctx, rest, hs, hit, hr, hq => by
    have hq' : ∀ x ∈ q, endsAuthority ctx.url.isSpecial x = false :=
      fun x hx => hq x (List.mem_cons_of_mem _ hx)
    by_cases hc : c = '@'
    · subst hc
      rw [← afterUserinfo_at]
      refine .head (step_authority_at hs hr) (steps_userinfo q hs
        (show 0 ≤ ctx.it + 1 by omega) (remaining_increment hit hr) ?_)
      simpa only [commitUserinfo, increment, UrlRecord.isSpecial, encodeUserinfo_scheme] using hq'
    · rw [← afterUserinfo_byte]
      exact .head (step_authority_byte hs hr hc (hq c (List.mem_cons_self _ _)))
        (steps_userinfo q hs (show 0 ≤ ctx.it + 1 by omega) (remaining_increment hit hr) hq')

/-- **The host after the userinfo.**  From an empty buffer, the authority state reads a host
`h` with no `@` up to the end of the authority, and goes back to its first byte in the host
state. -/
theorem steps_authority_host {h tail : List Char} (hs : ctx.state = .authority)
    (hb : ctx.buffer = []) (hit : 0 ≤ ctx.it) (hr : ctx.remaining = h ++ tail) (hh : h ≠ [])
    (hh' : ∀ c ∈ h, c ≠ '@' ∧ endsAuthority ctx.url.isSpecial c = false)
    (ht : ∀ e ∈ tail.head?, endsAuthority ctx.url.isSpecial e) :
    Relation.ReflTransGen Step ctx { ctx with state := .host } := by
  have hbytes := steps_authority_bytes h hs hit hr hh'
  set c := { ctx with it := ctx.it + h.length, buffer := ctx.buffer ++ h }
  have hrc : c.remaining = tail := remaining_advance hit hr ctx.url _
  have hcl : c.it ≤ c.input.length := by
    have hlen := congrArg List.length hr
    have := List.length_pos.2 hh
    simp only [remaining, List.length_drop, List.length_append] at hlen
    show ctx.it + h.length ≤ ctx.input.length; omega
  have hend : c.byte ≠ '@' ∧ isAuthorityEnd c c.byte := by
    rcases tail with _ | ⟨e, tail⟩
    · exact ⟨by rw [remaining_nil_byte hrc]; decide, isAuthorityEnd_iff.2 (.inl
        (isEof_of_remaining_nil (show 0 ≤ ctx.it + h.length by omega) hcl hrc))⟩
    · have he : endsAuthority ctx.url.isSpecial e := ht e rfl
      rw [byte_of_remaining hrc]
      refine ⟨fun hat => ?_, isAuthorityEnd_iff.2 (.inr he)⟩
      subst hat
      simp [endsAuthority] at he
  refine hbytes.tail (step_congr (step_authority_end hs (by simp [c, hb, hh]) hend.1 hend.2 hcl) ?_)
  simp only [c, hb, List.nil_append, mk.injEq, true_and, and_true]
  omega

end Authority

/-! ## Without the userinfo -/

/-- A list that `dropWhile` leaves whole starts with a byte that it keeps. -/
theorem head_of_dropWhile_eq {p : Char → Bool} {y : Char} {r : List Char}
    (h : (y :: r).dropWhile p = y :: r) : p y = false := by
  by_contra hp
  rw [List.dropWhile_cons_of_pos (by simpa using hp)] at h
  have := (List.dropWhile_suffix (l := r) p).length_le
  rw [h] at this
  simp at this

/-- Bytes taken out of the middle of a sanitized input leave it sanitized, its first and its
last byte staying. -/
theorem sanitize_remove_middle {x : Char} {a m b : List Char} (hx : isWhitespace x) (hb : b ≠ [])
    (hs : sanitize (x :: a ++ m ++ b) = x :: a ++ m ++ b) :
    sanitize (x :: a ++ b) = x :: a ++ b := by
  obtain ⟨htabs, hrev⟩ := sanitized_shape hs
  obtain ⟨y, b', hy⟩ := List.exists_cons_of_ne_nil (List.reverse_ne_nil_iff.2 hb)
  have hrw : ∀ p : List Char, (p ++ b).reverse = y :: (b' ++ p.reverse) := fun p => by
    rw [List.reverse_append, hy, List.cons_append]
  rw [hrw] at hrev
  have hyk := head_of_dropWhile_eq hrev
  simp only [sanitize, removeTabsAndNewlines, removeTrailingWhitespace, removeLeadingWhitespace]
  rw [List.cons_append, List.dropWhile_cons_of_neg (by simpa using hx), ← List.cons_append, hrw,
    List.dropWhile_cons_of_neg (by simpa using hyk), ← hrw, List.reverse_reverse]
  refine List.filter_eq_self.2 fun c hc => ?_
  simpa using htabs c (((List.sublist_append_left _ m).append (List.Sublist.refl b)).subset hc)

/-- From the start of the authority of a scheme other than `file`, the loop reaches the
authority state at the same byte, when that byte does not end the authority. -/
theorem steps_authority_of_authorityStart {input rest : List Char} {k : Nat} {x : Char}
    {base : Option UrlRecord} {scheme : List Char} (hf : scheme ≠ "file".toList)
    (hr : input.drop k = x :: rest) (hx : endsAuthority (isSpecial scheme) x = false) :
    Relation.ReflTransGen Step (authorityStart input k base scheme)
      { authorityStart input k base scheme with state := .authority } := by
  have hf' : scheme ≠ ['f', 'i', 'l', 'e'] := hf
  by_cases hsp : isSpecial scheme
  · have hx' : x ≠ '/' ∧ x ≠ '\\' := by
      simp only [endsAuthority, hsp, Bool.true_and, Bool.or_eq_false_iff, beq_eq_false_iff_ne] at hx
      exact ⟨hx.1.1.1, hx.2⟩
    have hlen := congrArg List.length hr
    simp only [List.length_drop, List.length_cons] at hlen
    refine .single (step_of_decrement ?_ (by simp only [authorityStart]; omega))
    simp [dispatch, parseFuncs, authorityStart, authorityState, hf', hsp, byte, remaining, hr,
      parseSpecialAuthorityIgnoreSlashes, hx', pure, Except.pure]
  · have e : authorityStart input k base scheme =
        { authorityStart input k base scheme with state := .authority } := by
      simp [authorityStart, authorityState, hf', hsp]
    rw [← e]

/-- Modelled from the spec: the username and the password that a userinfo gives, its bytes
before the first `:` and those after it, each percent-encoded with the userinfo set. -/
def userinfoCredentials (u : List Char) : List Char × List Char :=
  ((u.takeWhile (· != ':')).flatMap (pctEncodeChar · userinfoSet),
    ((u.dropWhile (· != ':')).drop 1).flatMap (pctEncodeChar · userinfoSet))

/-- **An authority with a userinfo parses as the authority without it**, with the credentials
that the userinfo's first `:` splits.  Let the input name a scheme other than `file`, then
`//`, a userinfo `u` of bytes that do not end the authority, an `@`, a non-empty host `h` with
no `@` up to the end of the authority, and the rest.  Then it parses to what the input
without `u@` parses to, with the username the userinfo encoding of `u` before its first `:`
and the password that of `u` after it: every `@` inside `u` becomes `%40` and every later
`:` is encoded. -/
theorem parse_userinfo {sch u h tail : List Char} {base : Option UrlRecord} {o : ParseOutcome}
    (hsch : isScheme sch) (hfile : sch.map Char.toLower ≠ "file".toList)
    (hs : sanitize (sch ++ ':' :: '/' :: '/' :: (u ++ '@' :: (h ++ tail))) =
      sch ++ ':' :: '/' :: '/' :: (u ++ '@' :: (h ++ tail)))
    (hu : ∀ c ∈ u, endsAuthority (isSpecial (sch.map Char.toLower)) c = false) (hh : h ≠ [])
    (hh' : ∀ c ∈ h, c ≠ '@' ∧ endsAuthority (isSpecial (sch.map Char.toLower)) c = false)
    (ht : ∀ e ∈ tail.head?, endsAuthority (isSpecial (sch.map Char.toLower)) e) :
    Parses (sch ++ ':' :: '/' :: '/' :: (u ++ '@' :: (h ++ tail))) base none none o ↔
      ∃ o', Parses (sch ++ ':' :: '/' :: '/' :: (h ++ tail)) base none none o' ∧
        o = o'.withCredentials (userinfoCredentials u).1 (userinfoCredentials u).2 := by
  obtain ⟨x, s, rfl⟩ : ∃ x s, sch = x :: s := by
    cases sch
    · simp [isScheme] at hsch
    · exact ⟨_, _, rfl⟩
  have eW : (x :: s) ++ ':' :: '/' :: '/' :: (u ++ '@' :: (h ++ tail)) =
      x :: (s ++ [':', '/', '/']) ++ (u ++ ['@']) ++ (h ++ tail) := by simp
  have eN : (x :: s) ++ ':' :: '/' :: '/' :: (h ++ tail) =
      x :: (s ++ [':', '/', '/']) ++ (h ++ tail) := by
    simp
  have hsN : sanitize ((x :: s) ++ ':' :: '/' :: '/' :: (h ++ tail)) =
      (x :: s) ++ ':' :: '/' :: '/' :: (h ++ tail) := by
    rw [eW] at hs
    rw [eN]
    exact sanitize_remove_middle (kept_of_isSchemeChar (isSchemeChar_of_isScheme hsch x
      (List.mem_cons_self _ _))).1 (by simp [hh]) hs
  set sch' := (x :: s).map Char.toLower
  set k := (x :: s).length + 3
  set U := userinfoCredentials u
  have hdN : ((x :: s) ++ ':' :: '/' :: '/' :: (h ++ tail)).drop k = h ++ tail := by simp [k]
  have hdW : ((x :: s) ++ ':' :: '/' :: '/' :: (u ++ '@' :: (h ++ tail))).drop k =
      u ++ '@' :: (h ++ tail) := by simp [k]
  have hdW' :
      ((x :: s) ++ ':' :: '/' :: '/' :: (u ++ '@' :: (h ++ tail))).drop (k + (u.length + 1)) =
        h ++ tail := by
    rw [← List.drop_drop, hdW]; simp
  set N := (x :: s) ++ ':' :: '/' :: '/' :: (h ++ tail)
  set W := (x :: s) ++ ':' :: '/' :: '/' :: (u ++ '@' :: (h ++ tail))
  -- the run without the userinfo, to the host state
  set hostN : UrlParserContext :=
    { authorityStart N k base sch' with state := .host }
  obtain ⟨h0, h1, hh0⟩ := List.exists_cons_of_ne_nil hh
  have hlN := congrArg List.length hdN
  simp only [List.length_drop, List.length_append] at hlN
  have hhl : 0 < h.length := List.length_pos.2 hh
  have hkN : k ≤ N.length := by omega
  have hrunN : Relation.ReflTransGen Step (UrlParserContext.init N base none none) hostN := by
    refine (steps_authorityStart_of_scheme base hsch hsN).trans
      ((steps_authority_of_authorityStart hfile (by rw [hdN, hh0]; rfl)
        (hh' h0 (hh0 ▸ List.mem_cons_self _ _)).2).trans ?_)
    exact steps_authority_host rfl rfl (by simp only [authorityStart]; omega)
      (by simpa [remaining, authorityStart] using hdN) hh hh' ht
  -- the run with the userinfo, to the host state
  set AW : UrlParserContext := { authorityStart W k base sch' with state := .authority }
  have hkW : k + (u.length + 1) ≤ W.length := by
    have := congrArg List.length hdW'
    simp only [List.length_drop, List.length_append] at this
    omega
  have hspW : (AW.afterUserinfo u).url.isSpecial = isSpecial sch' := by
    simp only [afterUserinfo, commitUserinfo, increment, UrlRecord.isSpecial, encodeUserinfo_scheme]
    rfl
  have hrunW : Relation.ReflTransGen Step (UrlParserContext.init W base none none)
      { AW.afterUserinfo u with state := .host } := by
    obtain ⟨w0, w1, hw, hw0⟩ : ∃ w0 w1, u ++ '@' :: (h ++ tail) = w0 :: w1 ∧
        endsAuthority (isSpecial sch') w0 = false := by
      rcases u with _ | ⟨c, u⟩
      · exact ⟨_, _, rfl, by cases isSpecial sch' <;> rfl⟩
      · exact ⟨_, _, rfl, hu c (List.mem_cons_self _ _)⟩
    refine (steps_authorityStart_of_scheme base hsch hs).trans
      ((steps_authority_of_authorityStart hfile (by rw [hdW, hw]) hw0).trans
      ((@steps_userinfo u AW _ rfl (by simp only [AW, authorityStart]; omega)
        (by simpa [remaining, AW, authorityStart] using hdW) hu).trans ?_))
    have hit : (AW.afterUserinfo u).it = ((k + (u.length + 1) : Nat) : Int) := by
      simp only [afterUserinfo, commitUserinfo, increment, AW, authorityStart]; push_cast; ring
    refine steps_authority_host rfl rfl (by rw [hit]; omega) ?_ hh (hspW ▸ hh') (hspW ▸ ht)
    rw [remaining, hit, Int.toNat_ofNat]
    exact hdW'
  -- the two host states
  have e : { AW.afterUserinfo u with state := .host } =
      (hostN.withUserinfo U.1 U.2 (decide (':' ∈ u))).rebase W base
        (((k + (u.length + 1) : Nat) : Int) - (k : Int)) := by
    simp only [afterUserinfo, commitUserinfo, pendingUserinfo, increment, AW, hostN, authorityStart,
      withUserinfo, rebase, UrlRecord.withCredentials, encodeUserinfo_false, U, userinfoCredentials,
      Bool.false_eq_true, if_false, List.nil_append, mk.injEq, true_and, and_true]
    push_cast; ring
  have hb : InBounds k (hostN.withUserinfo U.1 U.2 (decide (':' ∈ u))) :=
    ⟨le_refl _, Int.ofNat_le.2 hkN, fun _ => rfl, nofun, fun _ => rfl⟩
  have hsuf : N.drop k = W.drop (k + (u.length + 1)) := by rw [hdN, hdW']
  have hloop : ∀ fuel, parseLoop fuel (hostN.withUserinfo U.1 U.2 (decide (':' ∈ u))) =
      (parseLoop fuel hostN).map (ParseOutcome.withCredentials U.1 U.2) := fun fuel =>
    parseLoop_withUserinfo fuel rfl
  rw [parses_iff_terminates, terminates_of_steps hrunW, e, terminates_iff]
  simp only [parseLoop_rebase _ hb (by omega) hsuf hkW, hloop, Option.map_eq_some',
    parses_iff_terminates, terminates_of_steps hrunN, terminates_iff]
  constructor
  · rintro ⟨fuel, o', hf, rfl⟩
    exact ⟨o', ⟨fuel, hf⟩, rfl⟩
  · rintro ⟨o', ⟨fuel, hf⟩, rfl⟩
    exact ⟨fuel, o', hf, rfl⟩

theorem parse_userinfo_two_at :
    (isScheme "http".toList ∧ "http".toList.map Char.toLower ≠ "file".toList ∧
      sanitize ("http".toList ++ ':' :: '/' :: '/' :: ("a@b:c".toList ++ '@' :: ("h".toList ++
        "/p".toList))) =
        "http".toList ++ ':' :: '/' :: '/' :: ("a@b:c".toList ++ '@' :: ("h".toList ++ "/p".toList)) ∧
      (∀ c ∈ "a@b:c".toList, endsAuthority (isSpecial ("http".toList.map Char.toLower)) c = false) ∧
      "h".toList ≠ [] ∧
      (∀ c ∈ "h".toList,
        c ≠ '@' ∧ endsAuthority (isSpecial ("http".toList.map Char.toLower)) c = false) ∧
      (∀ e ∈ "/p".toList.head?, endsAuthority (isSpecial ("http".toList.map Char.toLower)) e)) ∧
    Parses ("http".toList ++ ':' :: '/' :: '/' :: ("a@b:c".toList ++ '@' :: ("h".toList ++
        "/p".toList))) none none none
      (.ok { scheme := "http".toList, username := "a%40b".toList, password := "c".toList,
             host := some "h".toList, path := ["p".toList] }) :=
  have hsch : isScheme "http".toList := by decide
  have hfile : "http".toList.map Char.toLower ≠ "file".toList := by decide
  have hs : sanitize ("http".toList ++ ':' :: '/' :: '/' :: ("a@b:c".toList ++ '@' :: ("h".toList ++
      "/p".toList))) =
      "http".toList ++ ':' :: '/' :: '/' :: ("a@b:c".toList ++ '@' :: ("h".toList ++ "/p".toList)) := by
    decide
  have hu : ∀ c ∈ "a@b:c".toList,
      endsAuthority (isSpecial ("http".toList.map Char.toLower)) c = false := by decide
  have hh : "h".toList ≠ [] := by decide
  have hh' : ∀ c ∈ "h".toList,
      c ≠ '@' ∧ endsAuthority (isSpecial ("http".toList.map Char.toLower)) c = false := by decide
  have ht : ∀ e ∈ "/p".toList.head?,
      endsAuthority (isSpecial ("http".toList.map Char.toLower)) e := by decide
  ⟨⟨hsch, hfile, hs, hu, hh, hh', ht⟩, (parse_userinfo hsch hfile hs hu hh hh' ht).2
    ⟨.ok { scheme := "http".toList, host := some "h".toList, path := ["p".toList] }, ⟨20, by decide⟩,
      by decide⟩⟩

end SkyrUrl
