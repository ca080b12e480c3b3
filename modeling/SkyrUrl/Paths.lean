import SkyrUrl.Authority

/-!
# The path state

`parse_path` reads a path byte by byte: it percent-encodes each byte onto the buffer, and at
a slash or at the end applies the buffer to the path (a double-dot segment shortens it, a
single-dot one is dropped, any other is appended; at the end the dot segments leave an
empty segment).  Over the segments of a path this is a left fold:

    pathRun ctx → Terminates ctx
      (.ok { ctx.url with path := resolveSegments ctx.url.path (pathSegments special r) })
                                                                  (terminates_path)

for a path state with the remaining input `r`, no `?` or `#` in it, and a scheme other than
`file`.  `resolveSegments` and `pathSegments` state the fold as the spec gives it.

For a `file` URL, `parse_path` treats a first segment as a drive letter when its first two
bytes are a letter and `:` or `|`, whatever follows: `drive_letter_prefix_rewritten`.
-/

namespace SkyrUrl

open UrlParserContext

/-! ## The fold, as the spec gives it -/

/-- Modelled from the spec: a slash of a path, `\` counting when the URL is special. -/
def isPathSlash (special : Bool) (c : Char) : Bool := c = '/' || (special && c = '\\')

/-- Modelled from the spec: the segments of a path, split on its slashes and each
percent-encoded with the path set. -/
def pathSegments (special : Bool) (s : List Char) : List (List Char) :=
  (s.splitOnP (isPathSlash special)).map (·.flatMap (pctEncodeChar · pathSet))

/-- Modelled from the spec: the single-dot path segments, `.` and `%2e` with its `e` in
either case. -/
def singleDotSegments : List (List Char) := [".".toList, "%2e".toList, "%2E".toList]

/-- Modelled from the spec: the double-dot path segments, `..`, `.%2e`, `%2e.` and `%2e%2e`
with each `e` in either case. -/
def doubleDotSegments : List (List Char) :=
  ["..".toList, ".%2e".toList, ".%2E".toList, "%2e.".toList, "%2E.".toList, "%2e%2e".toList,
    "%2e%2E".toList, "%2E%2e".toList, "%2E%2E".toList]

/-- Modelled from the spec: one segment applied to a path, `last` when it is the final
segment.  A double-dot segment removes the last element and a single-dot one nothing, and
both then append an empty segment when they are the final one; any other segment is
appended. -/
def applySegment (path : List (List Char)) (seg : List Char) (last : Bool) :
    List (List Char) :=
  if seg ∈ doubleDotSegments then path.dropLast ++ (if last then [[]] else [])
  else if seg ∈ singleDotSegments then path ++ (if last then [[]] else [])
  else path ++ [seg]

/-- Modelled from the spec: the segments applied to a path from left to right. -/
def resolveSegments : List (List Char) → List (List Char) → List (List Char)
  | path, [] => path
  | path, [seg] => applySegment path seg true
  | path, seg :: segs => resolveSegments (applySegment path seg false) segs

theorem resolveSegments_cons (path : List (List Char)) (seg : List Char)
    {segs : List (List Char)} (h : segs ≠ []) :
    resolveSegments path (seg :: segs) = resolveSegments (applySegment path seg false) segs := by
  obtain ⟨s, segs, rfl⟩ := List.exists_cons_of_ne_nil h
  rfl

/-- The segments of a path that starts with `seg` and a slash. -/
theorem pathSegments_first {special : Bool} {seg : List Char} {sep : Char} (rest : List Char)
    (hseg : ∀ c ∈ seg, isPathSlash special c = false) (hsep : isPathSlash special sep) :
    pathSegments special (seg ++ sep :: rest) =
      seg.flatMap (pctEncodeChar · pathSet) :: pathSegments special rest := by
  have h : ∀ c ∈ seg, ¬ isPathSlash special c := fun c hc => by simp [hseg c hc]
  rw [pathSegments, List.splitOnP_first _ _ h sep hsep, List.map_cons]; rfl

theorem pathSegments_single {special : Bool} {seg : List Char}
    (hseg : ∀ c ∈ seg, isPathSlash special c = false) :
    pathSegments special seg = [seg.flatMap (pctEncodeChar · pathSet)] := by
  have h : ∀ c ∈ seg, ¬ isPathSlash special c := fun c hc => by simp [hseg c hc]
  rw [pathSegments, List.splitOnP_eq_single _ _ h]; rfl

/-! ## The dot segments

The code lowercases a segment and compares it with `.` and `%2e` (`..`, `.%2e`, `%2e.` and
`%2e%2e`); the spec lists the segments with either case of `e`.  `toLower` changes only the
uppercase letters, so the two agree. -/

/-- The bytes that `toLower` sends to `d`: `d` itself when it is not an uppercase letter, and
the uppercase letter 32 below it. -/
theorem toLower_eq_iff {c d : Char} : c.toLower = d ↔
    c = d ∧ ¬(65 ≤ c.toNat ∧ c.toNat ≤ 90) ∨ (65 ≤ c.toNat ∧ c.toNat ≤ 90) ∧ c.toNat + 32 = d.toNat := by
  simp only [Char.toLower]
  split_ifs with h
  · constructor
    · intro e
      exact .inr ⟨h, by rw [← e, charToNat_ofNat (by omega)]⟩
    · rintro (⟨-, h'⟩ | ⟨-, e⟩)
      · exact absurd h h'
      · rw [← Char.ofNat_toNat d, ← e]
  · simp [h]

theorem toLower_eq_of_not_letter {c d : Char}
    (hd : d.toNat < 65 ∨ 122 < d.toNat ∨ (90 < d.toNat ∧ d.toNat < 97)) :
    c.toLower = d ↔ c = d := by
  rw [toLower_eq_iff]
  constructor
  · rintro (⟨rfl, -⟩ | ⟨h1, h2⟩)
    · rfl
    · omega
  · rintro rfl
    exact .inl ⟨rfl, by omega⟩

theorem toLower_eq_e {c : Char} : c.toLower = 'e' ↔ c = 'e' ∨ c = 'E' := by
  rw [toLower_eq_iff]
  constructor
  · rintro (⟨h, -⟩ | ⟨-, h⟩)
    · exact .inl h
    · have he : 'e'.toNat = 101 := rfl
      right
      rw [← Char.ofNat_toNat c, show c.toNat = 69 by omega]
  · rintro (rfl | rfl)
    · exact .inl ⟨rfl, by decide⟩
    · exact .inr ⟨by decide, by decide⟩

theorem toLower_eq_dot {c : Char} : c.toLower = '.' ↔ c = '.' :=
  toLower_eq_of_not_letter (by decide)

theorem toLower_eq_pct {c : Char} : c.toLower = '%' ↔ c = '%' :=
  toLower_eq_of_not_letter (by decide)

theorem toLower_eq_two {c : Char} : c.toLower = '2' ↔ c = '2' :=
  toLower_eq_of_not_letter (by decide)

theorem map_toLower_eq_cons {seg L : List Char} {d : Char} :
    seg.map Char.toLower = d :: L ↔
      ∃ a, a.toLower = d ∧ ∃ l, l.map Char.toLower = L ∧ seg = a :: l := by
  rw [List.map_eq_cons_iff]
  constructor
  · rintro ⟨a, l, rfl, h1, h2⟩
    exact ⟨a, h1, l, h2, rfl⟩
  · rintro ⟨a, h1, l, h2, rfl⟩
    exact ⟨a, l, rfl, h1, h2⟩

theorem isSingleDotPathSegment_iff (seg : List Char) :
    isSingleDotPathSegment seg ↔ seg ∈ singleDotSegments := by
  simp [isSingleDotPathSegment, singleDotSegments, map_toLower_eq_cons, toLower_eq_e,
    toLower_eq_dot, toLower_eq_pct, toLower_eq_two, or_and_right, exists_or]

theorem isDoubleDotPathSegment_iff (seg : List Char) :
    isDoubleDotPathSegment seg ↔ seg ∈ doubleDotSegments := by
  simp [isDoubleDotPathSegment, doubleDotSegments, map_toLower_eq_cons, toLower_eq_e,
    toLower_eq_dot, toLower_eq_pct, toLower_eq_two, or_and_right, exists_or, or_assoc]

/-! ## One pass -/

/-- A position before the end reads a byte, so it is not at EOF. -/
theorem isEof_eq_false_of_remaining {ctx : UrlParserContext} {x : Char} {rest : List Char}
    (h : ctx.remaining = x :: rest) : ctx.isEof = false := by
  simp only [isEof, decide_eq_false_iff_not]
  intro he
  have : ctx.it.toNat = ctx.input.length := by omega
  simp [remaining, this] at h

theorem step_of_increment_remaining {ctx c : UrlParserContext} {x : Char} {rest : List Char}
    (hd : dispatch ctx = .ok (.increment, c)) (hr : c.remaining = x :: rest) :
    Step ctx c.increment :=
  step_iff.2 ⟨_, _, hd, .inr ⟨.inl rfl, isEof_eq_false_of_remaining hr, rfl⟩⟩

theorem shortenPath_of_ne_file {scheme : List Char} (h : scheme ≠ "file".toList)
    (path : List (List Char)) : shortenPath scheme path = path.dropLast := by
  unfold shortenPath
  split_ifs with h0 h1
  · simp [h0]
  · exact absurd h1.1 h
  · rfl

/-- `parse_path` at the end of a segment of a URL whose scheme is not `file`: the buffer is
applied to the path. -/
theorem parsePath_end {ctx : UrlParserContext} {c : Char} (hfile : ctx.url.scheme ≠ "file".toList)
    (hend : ctx.isEof ∨ isPathSlash ctx.url.isSpecial c) (hq : c ≠ '?') (hh : c ≠ '#') :
    parsePath ctx c = pure (.increment, { ctx with
      url := { ctx.url with
        path := applySegment ctx.url.path ctx.buffer (!isPathSlash ctx.url.isSpecial c) }
      buffer := [] }) := by
  have hend' : ctx.isEof = true ∨ c = '/' ∨ (ctx.url.isSpecial = true ∧ c = '\\') := by
    simpa [isPathSlash] using hend
  have hfile' : ctx.url.scheme ≠ ['f', 'i', 'l', 'e'] := hfile
  have hseg : pathSegment ctx.url ctx.buffer = pure (ctx.buffer, ctx.url.host) := by
    simp [pathSegment, hfile']
  simp only [parsePath, hend', true_or, if_true, hfile, hfile', false_and, if_false, hq, hh, hseg,
    shortenPath_of_ne_file hfile, applySegment, isPathSlash, pure_bind, apply_ite UrlRecord.scheme,
    ite_self, isDoubleDotPathSegment_iff, isSingleDotPathSegment_iff]
  rw [if_pos (Or.imp_right Or.inl hend')]
  split_ifs <;> simp_all

/-- `parse_path` on a byte inside a segment: the byte goes to the buffer, percent-encoded. -/
theorem parsePath_byte {ctx : UrlParserContext} {c : Char} (heof : ctx.isEof = false)
    (hc : isPathSlash ctx.url.isSpecial c = false) (ho : ctx.stateOverride = none)
    (hq : c ≠ '?') (hh : c ≠ '#') :
    parsePath ctx c = pure (.increment, { ctx with buffer := ctx.buffer ++ pctEncodeChar c pathSet }) := by
  have hc' : c ≠ '/' ∧ ¬(ctx.url.isSpecial = true ∧ c = '\\') := by simpa [isPathSlash] using hc
  simp [parsePath, heof, hc', ho, hq, hh]

/-! ## A whole path -/

/-- What the path state keeps while it reads a path: no state override, a scheme other than
`file`, a position inside the input, and no `?` or `#` ahead. -/
structure PathRun (ctx : UrlParserContext) : Prop where
  state : ctx.state = .path
  stateOverride : ctx.stateOverride = none
  file : ctx.url.scheme ≠ "file".toList
  start : 0 ≤ ctx.it
  bound : ctx.it ≤ ctx.input.length
  query : '?' ∉ ctx.remaining
  fragment : '#' ∉ ctx.remaining

/-- Moving over `pre` leaves the bytes after it. -/
theorem remaining_advance {ctx : UrlParserContext} {pre tail : List Char} (hit : 0 ≤ ctx.it)
    (h : ctx.remaining = pre ++ tail) (url : UrlRecord) (buffer : List Char) :
    { ctx with it := ctx.it + pre.length, url := url, buffer := buffer }.remaining = tail := by
  have : (ctx.it + pre.length).toNat = ctx.it.toNat + pre.length := by omega
  simp only [remaining, this, ← List.drop_drop] at h ⊢
  rw [h, List.drop_left]

/-- A path run moved over `pre`, with the path or the buffer changed, is a path run. -/
theorem PathRun.advance {ctx : UrlParserContext} {pre tail : List Char} (hp : PathRun ctx)
    (h : ctx.remaining = pre ++ tail) (url : UrlRecord) (hu : url.scheme = ctx.url.scheme)
    (buffer : List Char) :
    PathRun { ctx with it := ctx.it + pre.length, url := url, buffer := buffer } := by
  have hr := remaining_advance hp.start h url buffer
  have hlen : ctx.it + pre.length ≤ ctx.input.length := by
    have := congrArg List.length h
    rw [remaining, List.length_drop, List.length_append] at this
    have := hp.start
    have := hp.bound
    omega
  refine ⟨hp.state, hp.stateOverride, hu ▸ hp.file, show 0 ≤ ctx.it + pre.length by
    have := hp.start; omega, hlen, ?_, ?_⟩ <;> rw [hr] <;> intro hm
  · exact hp.query (by simp [h, hm])
  · exact hp.fragment (by simp [h, hm])

/-- **The bytes of a segment.**  The path state moves over them, percent-encoding each onto
the buffer. -/
theorem steps_path_bytes : ∀ (seg : List Char) {ctx : UrlParserContext} {tail : List Char},
    PathRun ctx → ctx.remaining = seg ++ tail →
    (∀ c ∈ seg, isPathSlash ctx.url.isSpecial c = false) →
    Relation.ReflTransGen Step ctx { ctx with
      it := ctx.it + seg.length
      buffer := ctx.buffer ++ seg.flatMap (pctEncodeChar · pathSet) }
  | [], ctx, _, _, _, _ => by simpa using Relation.ReflTransGen.refl
  | c :: seg, ctx, tail, hp, hr, hseg => by
    have hq : c ≠ '?' := fun e => hp.query (by simp [hr, e])
    have hh : c ≠ '#' := fun e => hp.fragment (by simp [hr, e])
    have hd : dispatch ctx =
        .ok (.increment, { ctx with buffer := ctx.buffer ++ pctEncodeChar c pathSet }) := by
      rw [dispatch, show parseFuncs ctx.state = parsePath by rw [hp.state]; rfl,
        byte_of_remaining hr]
      exact parsePath_byte (isEof_eq_false_of_remaining hr) (hseg c (List.mem_cons_self _ _))
        hp.stateOverride hq hh
    have hr' : ctx.remaining = [c] ++ (seg ++ tail) := hr
    have hp' := hp.advance hr' ctx.url rfl (ctx.buffer ++ pctEncodeChar c pathSet)
    refine .head (step_of_increment_remaining hd hr) ?_
    refine (steps_path_bytes seg hp' (remaining_advance hp.start hr' _ _)
      fun x hx => hseg x (List.mem_cons_of_mem _ hx)).trans ?_
    have e : ctx.it + (([c].length : Nat) : Int) + (seg.length : Int) =
        ctx.it + (((c :: seg).length : Nat) : Int) := by
      simp only [List.length_singleton, List.length_cons, List.length_nil]; omega
    rw [e]
    simp only [List.flatMap_cons, List.append_assoc]
    exact .refl

/-- A path is a single segment, or a first segment, a slash and the rest. -/
theorem split_first_slash (p : Char → Bool) : ∀ r : List Char, (∀ c ∈ r, p c = false) ∨
    ∃ seg sep more, r = seg ++ sep :: more ∧ (∀ c ∈ seg, p c = false) ∧ p sep
  | [] => .inl (by simp)
  | c :: r => by
    cases hc : p c
    · rcases split_first_slash p r with h | ⟨seg, sep, more, rfl, hseg, hsep⟩
      · exact .inl (by simpa [hc] using h)
      · exact .inr ⟨c :: seg, sep, more, rfl, by simpa [hc] using hseg, hsep⟩
    · exact .inr ⟨[], c, r, rfl, by simp, hc⟩

/-- **The end of a segment at a slash.**  The buffer is applied to the path as a segment that
is not the last, and the path state goes on after the slash. -/
theorem step_path_slash {ctx : UrlParserContext} {sep : Char} {more : List Char}
    (hp : PathRun ctx) (hr : ctx.remaining = sep :: more)
    (hsep : isPathSlash ctx.url.isSpecial sep) :
    Step ctx { ctx with
      url := { ctx.url with path := applySegment ctx.url.path ctx.buffer false }
      buffer := [] }.increment := by
  have hs : sep = '/' ∨ sep = '\\' := by
    simp only [isPathSlash, Bool.or_eq_true, decide_eq_true_eq, Bool.and_eq_true] at hsep; tauto
  have hq : sep ≠ '?' := by rcases hs with rfl | rfl <;> decide
  have hh : sep ≠ '#' := by rcases hs with rfl | rfl <;> decide
  refine step_of_increment_remaining ?_ hr
  rw [dispatch, show parseFuncs ctx.state = parsePath by rw [hp.state]; rfl, byte_of_remaining hr,
    parsePath_end hp.file (.inr hsep) hq hh, hsep]
  rfl

/-- **The end of the last segment.**  At the end of the input the buffer is applied to the
path as the last segment, and the loop returns the record. -/
theorem loopBody_path_end {ctx : UrlParserContext} (hp : PathRun ctx) (hr : ctx.remaining = []) :
    loopBody ctx =
      .done (.ok { ctx.url with path := applySegment ctx.url.path ctx.buffer true }) := by
  have heof : ctx.isEof = true := by
    have := congrArg List.length hr
    simp only [remaining, List.length_drop, List.length_nil] at this
    have := hp.start; have := hp.bound
    simp only [isEof, decide_eq_true_eq]; omega
  have hb : ctx.byte = '\x00' := by simp [byte, hr]
  have hd : dispatch ctx = pure (.increment, { ctx with
      url := { ctx.url with path := applySegment ctx.url.path ctx.buffer true }
      buffer := [] }) := by
    have hs : isPathSlash ctx.url.isSpecial '\x00' = false := by simp [isPathSlash]
    rw [dispatch, show parseFuncs ctx.state = parsePath by rw [hp.state]; rfl, hb,
      parsePath_end hp.file (.inl heof) (by decide) (by decide), hs]
    rfl
  simp only [loopBody, hd, pure, Except.pure, afterAction]
  exact if_pos heof

/-- **The path state reads a whole path.**  From the start of a segment, the loop returns
the record with the path's segments applied to its path from left to right. -/
theorem terminates_path {ctx : UrlParserContext} (hp : PathRun ctx) (hb : ctx.buffer = []) :
    Terminates ctx (.ok { ctx.url with
      path := resolveSegments ctx.url.path (pathSegments ctx.url.isSpecial ctx.remaining) }) := by
  obtain ⟨n, hn⟩ : ∃ n, ctx.remaining.length = n := ⟨_, rfl⟩
  induction n using Nat.strong_induction_on generalizing ctx with
  | _ n ih =>
    rcases split_first_slash (isPathSlash ctx.url.isSpecial) ctx.remaining with
      hone | ⟨seg, sep, more, hr, hseg, hsep⟩
    · have hr : ctx.remaining = ctx.remaining ++ [] := (List.append_nil _).symm
      have h₁ := steps_path_bytes _ hp hr hone
      have hp₁ := hp.advance hr ctx.url rfl (ctx.buffer ++ ctx.remaining.flatMap (pctEncodeChar · pathSet))
      have hd := loopBody_path_end hp₁ (remaining_advance hp.start hr _ _)
      rw [terminates_of_steps h₁]
      refine ⟨_, .refl, hd.trans ?_⟩
      simp [pathSegments_single hone, resolveSegments, hb]
    · have h₁ := steps_path_bytes seg hp hr hseg
      rw [hb, List.nil_append] at h₁
      have hp₁ := hp.advance hr ctx.url rfl (seg.flatMap (pctEncodeChar · pathSet))
      have h₂ := step_path_slash hp₁ (remaining_advance hp.start hr _ _) hsep
      have hr₂ : ctx.remaining = (seg ++ [sep]) ++ more := by simp [hr]
      have hp₂ := hp.advance hr₂ { ctx.url with
        path := applySegment ctx.url.path (seg.flatMap (pctEncodeChar · pathSet)) false } rfl []
      have hlen : more.length < n := by
        have := hr ▸ hn
        simp only [List.length_append, List.length_cons] at this; omega
      have hr₃ := remaining_advance hp.start hr₂ { ctx.url with
        path := applySegment ctx.url.path (seg.flatMap (pctEncodeChar · pathSet)) false } []
      have h₃ := ih _ hlen hp₂ rfl (by rw [hr₃])
      rw [hr₃] at h₃
      have e : ∀ u : UrlRecord, { ({ ctx with
              it := ctx.it + seg.length
              buffer := seg.flatMap (pctEncodeChar · pathSet) } : UrlParserContext) with
            url := u
            buffer := [] }.increment =
          { ctx with it := ctx.it + (seg ++ [sep]).length, url := u, buffer := [] } := by
        intro u
        simp only [increment, List.length_append, List.length_singleton, mk.injEq, true_and,
          and_true]
        omega
      rw [terminates_of_steps h₁, terminates_of_step (step_congr h₂ (e _))]
      rw [hr, pathSegments_first more hseg hsep, resolveSegments_cons _ _ (by simp [pathSegments,
        List.splitOnP_ne_nil])]
      exact h₃

/-! ## Drive letters -/

/-- **A drive-letter prefix is taken for a drive letter.**  The first segment `c|foo` of
`file://h/c|foo` is not a drive letter (it has more than two bytes), yet `parse_path`
rewrites it to `c:foo` and clears the host `h`. -/
theorem drive_letter_prefix_rewritten :
    Parses "file://h/c|foo".toList none none none
      (.ok { scheme := "file".toList, host := some [], path := ["c:foo".toList] }) :=
  ⟨20, by decide⟩

end SkyrUrl
