import SkyrUrl.Host

/-!
# The state handlers

One definition per `url_parser_context::parse_*` member of `url_parser_context.cpp`, in
the source's order.  A handler receives the context and the byte at the iterator (the
terminating NUL at EOF) and returns its action with the context it leaves.  Handlers that
call `value()` on an optional the context does not guard, or index a vector or string,
return a `HandlerResult`, whose error is what that access raises when it fails.
-/

namespace SkyrUrl

open UrlParserContext

/-- The action and context of a handler that can not raise. -/
abbrev HandlerStep := UrlParseAction × UrlParserContext

/-- `parse_scheme_start`. -/
def parseSchemeStart (ctx : UrlParserContext) (c : Char) : HandlerStep :=
  if c.isAlpha then (.increment, { ctx with buffer := ctx.buffer ++ [c.toLower], state := .scheme })
  else if ctx.stateOverride = none then (.continue_, { ctx with state := .noScheme }.reset)
  else (.fail, ctx)

/-- The checks `parse_scheme` makes under a state override before it commits the
scheme: `true` when one of them fails. -/
def schemeOverrideFails (url : UrlRecord) (buffer : List Char) : Bool :=
  (url.isSpecial && !isSpecial buffer) || (!url.isSpecial && isSpecial buffer) ||
    ((url.includesCredentials || url.port.isSome) && buffer = "file".toList) ||
    (url.scheme = "file".toList && (url.host.isNone || url.host = some []))

/-- The end of `parse_scheme` at `:`, once the buffer is stored as the scheme: the next
state, picked from the scheme, the base and the byte after the `:`. -/
def schemeNextState (ctx : UrlParserContext) : HandlerStep :=
  if ctx.url.scheme = "file".toList then (.increment, { ctx with state := .file })
  else if ctx.url.isSpecial ∧ (ctx.base.map (·.scheme)) = some ctx.url.scheme then
    (.increment, { ctx with state := .specialRelativeOrAuthority })
  else if ctx.url.isSpecial then (.increment, { ctx with state := .specialAuthoritySlashes })
  else if ctx.remainingStartsWith ['/'] then
    (.increment, { ctx with state := .pathOrAuthority }.increment)
  else
    (.increment, { ctx with
      url := { ctx.url with cannotBeABaseUrl := true, path := ctx.url.path ++ [[]] }
      state := .cannotBeABaseUrlPath })

/-- `parse_scheme`. -/
def parseScheme (ctx : UrlParserContext) (c : Char) : HandlerStep :=
  if c.isAlphanum || c ∈ ['+', '-', '.'] then
    (.increment, { ctx with buffer := ctx.buffer ++ [c.toLower] })
  else if c = ':' then
    if ctx.stateOverride.isSome ∧ schemeOverrideFails ctx.url ctx.buffer then (.fail, ctx)
    else schemeNextState { ctx with url := { ctx.url with scheme := ctx.buffer }, buffer := [] }
  else if ctx.stateOverride = none then
    (.continue_, { ctx with buffer := [], state := .noScheme }.reset)
  else (.increment, ctx)

/-- `parse_no_scheme`. -/
def parseNoScheme (ctx : UrlParserContext) (c : Char) : HandlerStep :=
  match ctx.base with
  | none => (.fail, ctx)
  | some base =>
    if base.cannotBeABaseUrl ∧ c ≠ '#' then (.fail, ctx)
    else if base.cannotBeABaseUrl then
      (.increment, { ctx with
        url := { ctx.url with scheme := base.scheme, path := base.path, query := base.query,
                              fragment := some [], cannotBeABaseUrl := true }
        state := .fragment })
    else if base.scheme ≠ "file".toList then (.continue_, { ctx with state := .relative }.reset)
    else (.continue_, { ctx with state := .file }.reset)

/-- `parse_special_relative_or_authority`. -/
def parseSpecialRelativeOrAuthority (ctx : UrlParserContext) (c : Char) : HandlerStep :=
  if c = '/' ∧ ctx.remainingStartsWith ['/'] then
    (.increment, { ctx.increment with state := .specialAuthorityIgnoreSlashes })
  else (.increment, { ctx.decrement with state := .relative })

/-- `parse_path_or_authority`. -/
def parsePathOrAuthority (ctx : UrlParserContext) (c : Char) : HandlerStep :=
  if c = '/' then (.increment, { ctx with state := .authority })
  else (.increment, { ctx.decrement with state := .path })

/-- The record with the base's userinfo, host and port. -/
def UrlRecord.withAuthorityOf (url base : UrlRecord) : UrlRecord :=
  { url with username := base.username, password := base.password, host := base.host,
             port := base.port }

/-- `parse_relative`. -/
def parseRelative (ctx : UrlParserContext) (c : Char) : HandlerResult := do
  let base ← valueOf ctx.base
  let url := { ctx.url with scheme := base.scheme }
  if ctx.isEof then
    pure (.increment, { ctx with
      url := { (url.withAuthorityOf base) with path := base.path, query := base.query } })
  else if c = '/' then pure (.increment, { ctx with url := url, state := .relativeSlash })
  else if c = '?' then
    pure (.increment, { ctx with
      url := { (url.withAuthorityOf base) with path := base.path, query := some [] }
      state := .query })
  else if c = '#' then
    pure (.increment, { ctx with
      url := { (url.withAuthorityOf base) with
        path := base.path, query := base.query, fragment := some [] }
      state := .fragment })
  else if url.isSpecial ∧ c = '\\' then
    pure (.increment, { ctx with url := url, state := .relativeSlash })
  else
    pure (.increment, { ctx.decrement with
      url := { (url.withAuthorityOf base) with path := base.path.dropLast }
      state := .path })

/-- `parse_relative_slash`. -/
def parseRelativeSlash (ctx : UrlParserContext) (c : Char) : HandlerResult :=
  if ctx.url.isSpecial ∧ (c = '/' ∨ c = '\\') then
    pure (.increment, { ctx with state := .specialAuthorityIgnoreSlashes })
  else if c = '/' then pure (.increment, { ctx with state := .authority })
  else do
    let base ← valueOf ctx.base
    pure (.increment, { ctx.decrement with url := ctx.url.withAuthorityOf base, state := .path })

/-- `parse_special_authority_slashes`. -/
def parseSpecialAuthoritySlashes (ctx : UrlParserContext) (c : Char) : HandlerStep :=
  if c = '/' ∧ ctx.remainingStartsWith ['/'] then
    (.increment, { ctx.increment with state := .specialAuthorityIgnoreSlashes })
  else
    (.increment, { ctx.decrement with state := .specialAuthorityIgnoreSlashes })

/-- `parse_special_authority_ignore_slashes`. -/
def parseSpecialAuthorityIgnoreSlashes (ctx : UrlParserContext) (c : Char) : HandlerStep :=
  if c ≠ '/' ∧ c ≠ '\\' then (.increment, { ctx.decrement with state := .authority })
  else (.increment, ctx)

/-- The loop of `parse_authority` over the buffer at an `@`: the first `:` (unless one was
seen before) switches to the password; every other byte is percent-encoded with the
userinfo set onto the username or the password.  Returns the record and the flag. -/
def encodeUserinfo : UrlRecord → Bool → List Char → UrlRecord × Bool
  | url, seen, [] => (url, seen)
  | url, seen, c :: cs =>
    if c = ':' ∧ !seen then encodeUserinfo url true cs
    else if seen then
      encodeUserinfo { url with password := url.password ++ pctEncodeChar c userinfoSet } seen cs
    else encodeUserinfo { url with username := url.username ++ pctEncodeChar c userinfoSet } seen cs

/-- The userinfo goes to the username and the password; the scheme stays. -/
@[simp] theorem encodeUserinfo_scheme (url : UrlRecord) (seen : Bool) (buffer : List Char) :
    (encodeUserinfo url seen buffer).1.scheme = url.scheme := by
  induction buffer generalizing url seen with
  | nil => rfl
  | cons c cs ih => unfold encodeUserinfo; split_ifs <;> simp [ih]

/-- The bytes that end the authority, the host and the port: EOF, `/`, `?`, `#`, and `\`
in a special URL. -/
def isAuthorityEnd (ctx : UrlParserContext) (c : Char) : Prop :=
  ctx.isEof ∨ c = '/' ∨ c = '?' ∨ c = '#' ∨ (ctx.url.isSpecial ∧ c = '\\')

instance (ctx : UrlParserContext) (c : Char) : Decidable (isAuthorityEnd ctx c) :=
  inferInstanceAs (Decidable (_ ∨ _))

/-- `parse_authority`. -/
def parseAuthority (ctx : UrlParserContext) (c : Char) : HandlerStep :=
  if c = '@' then
    let buffer := if ctx.atFlag then "%40".toList ++ ctx.buffer else ctx.buffer
    let (url, seen) := encodeUserinfo ctx.url ctx.passwordTokenSeenFlag buffer
    (.increment, { ctx with atFlag := true, url := url, passwordTokenSeenFlag := seen,
                            buffer := [] })
  else if isAuthorityEnd ctx c then
    if ctx.atFlag ∧ ctx.buffer = [] then (.fail, ctx)
    else (.increment, { ctx.restartFromBuffer with state := .host, buffer := [] })
  else (.increment, { ctx with buffer := ctx.buffer ++ [c] })

/-- `parse_hostname`, the handler of both the host and the hostname state. -/
def parseHostname (ctx : UrlParserContext) (c : Char) : HandlerResult :=
  if ctx.stateOverride.isSome ∧ ctx.url.scheme = "file".toList then
    pure (.increment, { ctx.decrement with state := .fileHost })
  else if c = ':' ∧ !ctx.squareBracesFlag then
    if ctx.buffer = [] then pure (.fail, ctx)
    else do
      match ← parseHost ctx.buffer false with
      | none => pure (.fail, ctx)
      | some host =>
        let ctx := { ctx with url := { ctx.url with host := some host }, buffer := [],
                              state := .port }
        if ctx.stateOverride = some .hostname then pure (.success, ctx)
        else pure (.increment, ctx)
  else if isAuthorityEnd ctx c then
    let ctx := ctx.decrement
    if ctx.url.isSpecial ∧ ctx.buffer = [] then pure (.fail, ctx)
    else do
      match ← parseHost ctx.buffer false with
      | none => pure (.fail, ctx)
      | some host =>
        pure (.increment, { ctx with url := { ctx.url with host := some host }, buffer := [],
                                     state := .pathStart })
  else
    pure (.increment, { ctx with
      squareBracesFlag := if c = '[' then true else if c = ']' then false else ctx.squareBracesFlag
      buffer := ctx.buffer ++ [c] })

/-- The end of `parse_port` once the buffer is stored: success under a state override,
else on to `path_start` with the iterator moved back. -/
def portDone (ctx : UrlParserContext) : HandlerStep :=
  if ctx.stateOverride.isSome then (.success, ctx)
  else (.increment, { ctx.decrement with state := .pathStart })

/-- `parse_port`. -/
def parsePort (ctx : UrlParserContext) (c : Char) : HandlerStep :=
  if c.isDigit then (.increment, { ctx with buffer := ctx.buffer ++ [c] })
  else if isAuthorityEnd ctx c ∨ ctx.stateOverride.isSome then
    if ctx.buffer = [] then portDone ctx
    else if !isValidPort ctx.buffer then (.fail, ctx)
    else
      let port := atoi ctx.buffer
      portDone { ctx with
        url := { ctx.url with port := if isDefaultPort ctx.url.scheme port then none else some port }
        buffer := [] }
  else (.fail, ctx)

/-- `parse_file`. -/
def parseFile (ctx : UrlParserContext) (c : Char) : HandlerStep :=
  let ctx := { ctx with url := { ctx.url with scheme := "file".toList } }
  let toPath := (.increment, { ctx.decrement with state := .path })
  if c = '/' ∨ c = '\\' then
    (.increment, { ctx with state := .fileSlash })
  else match ctx.base with
    | some base =>
      if base.scheme ≠ "file".toList then toPath
      else if ctx.isEof then
        (.increment, { ctx with url := { ctx.url with host := base.host, path := base.path,
                                                      query := base.query } })
      else if c = '?' then
        (.increment, { ctx with
          url := { ctx.url with host := base.host, path := base.path, query := some [] }
          state := .query })
      else if c = '#' then
        (.increment, { ctx with
          url := { ctx.url with host := base.host, path := base.path, query := base.query,
                                fragment := some [] }
          state := .fragment })
      else if !isWindowsDriveLetter ctx.remaining then
        (.increment, { ctx.decrement with
          url := { ctx.url with host := base.host,
                                path := shortenPath ctx.url.scheme base.path }
          state := .path })
      else (.increment, { ctx.decrement with state := .path })
    | none => toPath

/-- `parse_file_slash`. -/
def parseFileSlash (ctx : UrlParserContext) (c : Char) : HandlerStep :=
  if c = '/' ∨ c = '\\' then
    (.increment, { ctx with state := .fileHost })
  else
    let url :=
      match ctx.base with
      | some base =>
        if base.scheme = "file".toList ∧ !isWindowsDriveLetter ctx.remaining then
          match base.path with
          | p0 :: _ =>
            if isWindowsDriveLetter p0 then { ctx.url with path := ctx.url.path ++ [p0] }
            else { ctx.url with host := base.host }
          | [] => { ctx.url with host := base.host }
        else ctx.url
      | none => ctx.url
    (.increment, { ctx.decrement with url := url, state := .path })

/-- `parse_file_host`. -/
def parseFileHost (ctx : UrlParserContext) (c : Char) : HandlerResult :=
  if ctx.isEof ∨ c = '/' ∨ c = '\\' ∨ c = '?' ∨ c = '#' then
    let ctx := ctx.decrement
    if ctx.stateOverride = none ∧ isWindowsDriveLetter ctx.buffer then
      pure (.increment, { ctx with state := .path })
    else if ctx.buffer = [] then
      let ctx := { ctx with url := { ctx.url with host := some [] } }
      if ctx.stateOverride.isSome then pure (.success, ctx)
      else pure (.increment, { ctx with state := .pathStart })
    else do
      match ← parseHost ctx.buffer (!ctx.url.isSpecial) with
      | none => pure (.fail, ctx)
      | some host =>
        let host := if host = "localhost".toList then [] else host
        let ctx := { ctx with url := { ctx.url with host := some host } }
        if ctx.stateOverride.isSome then pure (.success, ctx)
        else pure (.increment, { ctx with buffer := [], state := .pathStart })
  else pure (.increment, { ctx with buffer := ctx.buffer ++ [c] })

/-- `parse_path_start`. -/
def parsePathStart (ctx : UrlParserContext) (c : Char) : HandlerStep :=
  if ctx.url.isSpecial then
    let ctx := { ctx with state := .path }
    if c ≠ '/' ∧ c ≠ '\\' then (.increment, ctx.decrement) else (.increment, ctx)
  else if ctx.stateOverride = none ∧ c = '?' then
    (.increment, { ctx with url := { ctx.url with query := some [] }, state := .query })
  else if ctx.stateOverride = none ∧ c = '#' then
    (.increment, { ctx with url := { ctx.url with fragment := some [] }, state := .fragment })
  else if !ctx.isEof then
    if c ≠ '/' then (.increment, { ctx.decrement with state := .path })
    else (.increment, { ctx with url := { ctx.url with path := ctx.url.path ++ [ctx.buffer] },
                                 state := .path })
  else (.increment, ctx)

/-- The `while ((path.size() > 1) && path[0].empty())` loop of `parse_path`. -/
def popLeadingEmpty : List (List Char) → List (List Char)
  | [] :: p :: rest => popLeadingEmpty (p :: rest)
  | path => path

/-- `buffer[1] = ':'`; indexing past a buffer of fewer than two bytes is out of range. -/
def setSecondToColon : List Char → Except ParseAbort (List Char)
  | c0 :: _ :: rest => pure (c0 :: ':' :: rest)
  | _ => throw .outOfRange

/-- The segment that `parse_path` pushes for a buffer that is not a dot segment: a drive
letter starting the path of a `file` URL gets `:` for its second byte.  Also returns the
record's host, which that case clears. -/
def pathSegment (url : UrlRecord) (buffer : List Char) :
    Except ParseAbort (List Char × Option (List Char)) :=
  if url.scheme = "file".toList ∧ url.path = [] ∧ isWindowsDriveLetter buffer then do
    let segment ← setSecondToColon buffer
    pure (segment, some [])
  else pure (buffer, url.host)

/-- `parse_path`. -/
def parsePath (ctx : UrlParserContext) (c : Char) : HandlerResult :=
  let special := ctx.url.isSpecial
  let slash := c = '/' ∨ (special ∧ c = '\\')
  if ctx.isEof ∨ slash ∨ (ctx.stateOverride = none ∧ (c = '?' ∨ c = '#')) then do
    let url ←
      if isDoubleDotPathSegment ctx.buffer then
        let path := shortenPath ctx.url.scheme ctx.url.path
        pure { ctx.url with path := if slash then path else path ++ [[]] }
      else if isSingleDotPathSegment ctx.buffer then
        pure (if slash then ctx.url else { ctx.url with path := ctx.url.path ++ [[]] })
      else do
        let (segment, host) ← pathSegment ctx.url ctx.buffer
        pure { ctx.url with host := host, path := ctx.url.path ++ [segment] }
    let url :=
      if url.scheme = "file".toList ∧ (ctx.isEof ∨ c = '?' ∨ c = '#') then
        { url with path := popLeadingEmpty url.path }
      else url
    let ctx := { ctx with url := url, buffer := [] }
    if c = '?' then
      pure (.increment, { ctx with url := { ctx.url with query := some [] }, state := .query })
    else if c = '#' then
      pure (.increment, { ctx with url := { ctx.url with fragment := some [] }, state := .fragment })
    else pure (.increment, ctx)
  else pure (.increment, { ctx with buffer := ctx.buffer ++ pctEncodeChar c pathSet })

/-- `parse_cannot_be_a_base_url`. -/
def parseCannotBeABaseUrl (ctx : UrlParserContext) (c : Char) : HandlerResult :=
  if c = '?' then
    pure (.increment, { ctx with url := { ctx.url with query := some [] }, state := .query })
  else if c = '#' then
    pure (.increment, { ctx with url := { ctx.url with fragment := some [] }, state := .fragment })
  else
    if !ctx.isEof then
      match ctx.url.path with
      | p0 :: rest =>
        pure (.increment, { ctx with url := { ctx.url with path := (p0 ++ pctEncodeChar c) :: rest } })
      | [] => throw .outOfRange
    else pure (.increment, ctx)

/-- `parse_query`. -/
def parseQuery (ctx : UrlParserContext) (c : Char) : HandlerResult :=
  if ctx.stateOverride = none ∧ c = '#' then
    pure (.increment, { ctx with url := { ctx.url with fragment := some [] }, state := .fragment })
  else if !ctx.isEof then do
    let query ← valueOf ctx.url.query
    pure (.increment, { ctx with url := { ctx.url with query := some (query ++ pctEncodeChar c querySet) } })
  else pure (.increment, ctx)

/-- `parse_fragment`. -/
def parseFragment (ctx : UrlParserContext) (c : Char) : HandlerResult :=
  if c = '\x00' then pure (.increment, ctx)
  else do
    let fragment ← valueOf ctx.url.fragment
    pure (.increment, { ctx with
      url := { ctx.url with fragment := some (fragment ++ pctEncodeChar c fragmentSet) } })

end SkyrUrl
