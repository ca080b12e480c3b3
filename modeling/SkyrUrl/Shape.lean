import SkyrUrl.HostPort
import SkyrUrl.WellFormed

/-!
# The shape of every record a parse returns

`UrlRecord.WellFormed` is not what `basic_parse` guarantees: a scheme-less input without a
base returns the empty record, and the host of a special URL can stay absent.  What every
parse without a state override does guarantee, for a base of the same shape, is
`UrlRecord.Shaped`: a lowercase scheme or none, the cannot-be-a-base shape, no credentials
or port on `file`, a port below 65535 that is not the scheme's default, hierarchical path
segments with no delimiter that are not dot segments, and a query, a fragment and
credentials that are percent-encoded with their sets.

The proof is an invariant of the driver loop.  `RunShape` adds to the record's shape what
each state knows about its context (`StateFacts`): the empty record before a scheme, the
scheme read so far, the base a relative state resolves against, the bytes the path buffer
can hold.  One lemma per handler shows that it keeps `RunShape`, and
`parse_shaped` follows by induction over the passes of the loop.
-/

namespace SkyrUrl

open UrlParserContext

/-! ## The components of a record -/

/-- The bytes percent-encoding with `set` lets through: printable ASCII outside `set`.  The
`%` and the hex digits of an escape are such bytes for every set the parser uses. -/
def encoded (set s : List Char) : Bool :=
  s.all fun x => decide (0x20 ≤ x.toNat ∧ x.toNat ≤ 0x7E ∧ x ∉ set)

/-- A scheme as a parse records it, or none yet. -/
def schemeOk (scheme : List Char) : Bool := scheme.isEmpty || isLowerScheme scheme

/-- A cannot-be-a-base record has a non-special scheme, one path element, and no host, port
or credentials. -/
def cannotBeABaseOk (cannotBeABaseUrl : Bool) (scheme : List Char) (path : List (List Char))
    (host : Option (List Char)) (port : Option Nat) (username password : List Char) : Bool :=
  !cannotBeABaseUrl || (!isSpecial scheme && path.length == 1 && host.isNone && port.isNone &&
    username.isEmpty && password.isEmpty)

/-- A `file` record has no port and no credentials. -/
def fileOk (scheme : List Char) (port : Option Nat) (username password : List Char) : Bool :=
  scheme != "file".toList || (port.isNone && username.isEmpty && password.isEmpty)

/-- A port is a valid port number other than the scheme's default. -/
def portOk (scheme : List Char) (port : Option Nat) : Bool :=
  port.all fun p => decide (p < 65535 ∧ defaultPort scheme ≠ some p)

/-- A hierarchical path holds plain segments only. -/
def pathOk (cannotBeABaseUrl : Bool) (scheme : List Char) (path : List (List Char)) : Bool :=
  cannotBeABaseUrl || path.all (isPlainSegment (isSpecial scheme))

/-- The shape every record a parse returns keeps. -/
@[mk_iff]
structure UrlRecord.Shaped (r : UrlRecord) : Prop where
  scheme : schemeOk r.scheme
  cannot_be_a_base : cannotBeABaseOk r.cannotBeABaseUrl r.scheme r.path r.host r.port r.username
    r.password
  file : fileOk r.scheme r.port r.username r.password
  port : portOk r.scheme r.port
  path : pathOk r.cannotBeABaseUrl r.scheme r.path
  query : r.query.all (encoded querySet)
  fragment : r.fragment.all (encoded fragmentSet)
  username : encoded userinfoSet r.username
  password : encoded userinfoSet r.password

instance (r : UrlRecord) : Decidable r.Shaped := decidable_of_iff _ (UrlRecord.shaped_iff r).symm

theorem UrlRecord.shaped_empty : ({} : UrlRecord).Shaped := by decide

/-! ## Percent-encoded bytes -/

@[simp] theorem encoded_nil (set : List Char) : encoded set [] = true := rfl

@[simp] theorem encoded_append (set a b : List Char) :
    encoded set (a ++ b) = (encoded set a && encoded set b) := List.all_append

/-- The bytes of an escape: `%` and the hex digits of a byte's two halves. -/
theorem escape_mem (c : Char) :
    ∀ x ∈ ['%', hexDigit (c.toNat / 16 % 16), hexDigit (c.toNat % 16)],
      x ∈ '%' :: (List.range 16).map hexDigit := by
  intro x hx
  simp only [List.mem_cons, List.mem_singleton, List.not_mem_nil, or_false] at hx
  rcases hx with rfl | rfl | rfl
  · exact List.mem_cons_self _ _
  all_goals exact List.mem_cons_of_mem _ (List.mem_map.2 ⟨_, List.mem_range.2
    (Nat.mod_lt _ (by omega)), rfl⟩)

/-- Percent-encoding with `set` gives printable bytes outside `set`, when `%` and the hex
digits are outside it. -/
theorem encoded_pctEncodeChar {set : List Char}
    (hset : encoded set ('%' :: (List.range 16).map hexDigit)) (c : Char) :
    encoded set (pctEncodeChar c set) := by
  simp only [encoded, List.all_eq_true] at hset
  unfold pctEncodeChar
  split_ifs with h
  · simp only [encoded, List.all_eq_true]
    exact fun x hx => hset x (escape_mem c x hx)
  · simp only [not_or, not_lt] at h
    simpa [encoded] using ⟨h.1, h.2.1, h.2.2⟩

theorem encoded_pct_query (c : Char) : encoded querySet (pctEncodeChar c querySet) :=
  encoded_pctEncodeChar (by decide) c

theorem encoded_pct_fragment (c : Char) : encoded fragmentSet (pctEncodeChar c fragmentSet) :=
  encoded_pctEncodeChar (by decide) c

theorem encoded_pct_userinfo (c : Char) : encoded userinfoSet (pctEncodeChar c userinfoSet) :=
  encoded_pctEncodeChar (by decide) c

/-! ## Schemes -/

theorem isLower_iff (c : Char) : c.isLower = true ↔ 97 ≤ c.toNat ∧ c.toNat ≤ 122 := by
  simp only [Char.isLower, Bool.and_eq_true, decide_eq_true_eq, UInt32.le_def, BitVec.le_def,
    Char.toNat, UInt32.toNat]
  simp

theorem isUpper_iff (c : Char) : c.isUpper = true ↔ 65 ≤ c.toNat ∧ c.toNat ≤ 90 := by
  simp only [Char.isUpper, Bool.and_eq_true, decide_eq_true_eq, UInt32.le_def, BitVec.le_def,
    Char.toNat, UInt32.toNat]
  simp

/-- Lowercasing an ASCII letter gives a lowercase letter. -/
theorem toLower_isLower {c : Char} (h : c.isAlpha) : c.toLower.isLower := by
  simp only [Char.toLower]
  split_ifs with hu
  · rw [isLower_iff, charToNat_ofNat (by omega)]; omega
  · simp only [Char.isAlpha, Bool.or_eq_true, isUpper_iff] at h
    exact h.resolve_left hu

/-- Lowercasing a scheme byte gives a byte of a lowercase scheme. -/
theorem toLower_schemeChar {c : Char} (h : isSchemeChar c) :
    (c.toLower.isLower || c.toLower.isDigit || c.toLower ∈ ['+', '-', '.']) := by
  by_cases ha : c.isAlpha
  · simp [toLower_isLower ha]
  · have hu : c.isUpper = false := by simp_all [Char.isAlpha]
    rw [toLower_of_not_isUpper hu]
    simp only [isSchemeChar, Char.isAlphanum, ha, Bool.false_or, Bool.or_eq_true] at h
    simp only [Bool.or_eq_true]
    tauto

/-- `parse_scheme_start` starts a lowercase scheme. -/
theorem isLowerScheme_singleton {c : Char} (h : c.isAlpha) : isLowerScheme [c.toLower] := by
  simp [isLowerScheme, toLower_isLower h]

/-- `parse_scheme` extends a lowercase scheme. -/
theorem isLowerScheme_append {s : List Char} {c : Char} (hs : isLowerScheme s)
    (hc : isSchemeChar c) : isLowerScheme (s ++ [c.toLower]) := by
  obtain _ | ⟨x, xs⟩ := s
  · simp [isLowerScheme] at hs
  simp only [isLowerScheme, Bool.and_eq_true, List.all_eq_true, List.cons_append,
    List.all_append, List.all_cons, List.all_nil, Bool.and_true] at hs ⊢
  exact ⟨hs.1, hs.2, toLower_schemeChar hc⟩

@[simp] theorem schemeOk_nil : schemeOk [] = true := rfl

theorem schemeOk_of_isLowerScheme {s : List Char} (h : isLowerScheme s) : schemeOk s := by
  simp [schemeOk, h]

/-! ## Path segments -/

/-- The bytes the path buffer may hold: no `/`, `?` or `#`, and no `\` in a special URL. -/
def pathBufferOk (special : Bool) (buffer : List Char) : Bool :=
  buffer.all fun x => decide (x ≠ '/' ∧ x ≠ '?' ∧ x ≠ '#' ∧ (special = true → x ≠ '\\'))

@[simp] theorem pathBufferOk_nil (special : Bool) : pathBufferOk special [] = true := rfl

@[simp] theorem pathBufferOk_append (special : Bool) (a b : List Char) :
    pathBufferOk special (a ++ b) = (pathBufferOk special a && pathBufferOk special b) :=
  List.all_append

/-- A byte `parse_path` percent-encodes into the buffer leaves it clean, unless it is a
slash. -/
theorem pathBufferOk_pct {special : Bool} {c : Char} (h1 : c ≠ '/')
    (h2 : special = true → c ≠ '\\') : pathBufferOk special (pctEncodeChar c pathSet) := by
  unfold pctEncodeChar
  split_ifs with h
  · have esc : ∀ y ∈ '%' :: (List.range 16).map hexDigit,
        y ≠ '/' ∧ y ≠ '?' ∧ y ≠ '#' ∧ y ≠ '\\' := by decide
    simp only [pathBufferOk, List.all_eq_true, decide_eq_true_eq]
    exact fun x hx => (esc x (escape_mem c x hx)).imp_right (.imp_right (.imp_right fun h _ => h))
  · simp only [pathBufferOk, List.all_cons, List.all_nil, Bool.and_true, decide_eq_true_eq]
    exact ⟨h1, fun he => h (by subst he; decide), fun he => h (by subst he; decide), h2⟩

@[simp] theorem isPlainSegment_nil (special : Bool) : isPlainSegment special [] = true := by
  cases special <;> decide

/-- A buffer of clean bytes that is no dot segment is a plain segment. -/
theorem isPlainSegment_of_pathBufferOk {special : Bool} {buffer : List Char}
    (h : pathBufferOk special buffer) (h1 : isSingleDotPathSegment buffer = false)
    (h2 : isDoubleDotPathSegment buffer = false) : isPlainSegment special buffer := by
  simp only [pathBufferOk, List.all_eq_true, decide_eq_true_eq] at h
  simp only [isPlainSegment, h1, h2, Bool.and_eq_true, Bool.not_eq_true', Bool.and_eq_false_imp,
    decide_eq_true_eq, decide_eq_false_iff_not, Bool.not_true, Bool.not_false, and_true]
  exact ⟨⟨⟨fun hm => (h _ hm).1 rfl, fun hm => (h _ hm).2.1 rfl⟩, fun hm => (h _ hm).2.2.1 rfl⟩,
    fun hs hm => (h _ hm).2.2.2 hs rfl⟩

/-- The drive-letter segment of `parse_path` is plain: its second byte `:` makes it no dot
segment. -/
theorem isPlainSegment_setSecondToColon {special : Bool} {buffer seg : List Char}
    (h : pathBufferOk special buffer) (hs : setSecondToColon buffer = .ok seg) :
    isPlainSegment special seg := by
  obtain _ | ⟨c0, _ | ⟨c1, rest⟩⟩ := buffer
  all_goals simp only [setSecondToColon] at hs
  · cases hs
  · cases hs
  · cases hs
    simp only [pathBufferOk, List.all_cons, Bool.and_eq_true] at h
    refine isPlainSegment_of_pathBufferOk ?_ (by simp [isSingleDotPathSegment])
      (by simp [isDoubleDotPathSegment])
    simp only [pathBufferOk, List.all_cons, h.1, h.2.2, Bool.and_true, Bool.true_and]
    cases special <;> decide

theorem all_append_singleton {α : Type} {P : α → Bool} {l : List α} {x : α} (hl : l.all P)
    (hx : P x) : (l ++ [x]).all P := by
  simp [hl, hx]

theorem all_of_subset {α : Type} {P : α → Bool} {l l' : List α} (h : l.all P) (hs : l' ⊆ l) :
    l'.all P :=
  List.all_eq_true.2 fun x hx => List.all_eq_true.1 h x (hs hx)

theorem shortenPath_subset (scheme : List Char) (path : List (List Char)) :
    shortenPath scheme path ⊆ path := by
  unfold shortenPath
  split_ifs
  exacts [List.Subset.refl _, List.Subset.refl _, (List.dropLast_sublist _).subset]

theorem popLeadingEmpty_subset (path : List (List Char)) : popLeadingEmpty path ⊆ path := by
  induction path using popLeadingEmpty.induct with
  | case1 p rest ih => rw [popLeadingEmpty]; exact ih.trans (List.subset_cons_self _ _)
  | case2 path h => rw [popLeadingEmpty.eq_2 path h]; exact List.Subset.refl _

/-! ## Updates that keep the shape -/

theorem encoded_append_of {set a b : List Char} (ha : encoded set a) (hb : encoded set b) :
    encoded set (a ++ b) := by
  simp [ha, hb]

theorem cannotBeABaseOk_of_eq_false {c : Bool} {scheme : List Char} {path : List (List Char)}
    {host : Option (List Char)} {port : Option Nat} {username password : List Char}
    (h : c = false) : cannotBeABaseOk c scheme path host port username password := by
  subst h; rfl

theorem fileOk_of_ne {scheme : List Char} {port : Option Nat} {username password : List Char}
    (h : scheme ≠ "file".toList) : fileOk scheme port username password := by
  simp only [fileOk, bne_iff_ne.2 h, Bool.true_or]

@[simp] theorem fileOk_none (scheme : List Char) : fileOk scheme none [] [] = true := by
  simp [fileOk]

theorem pathOk_of_all {c : Bool} {scheme : List Char} {path : List (List Char)}
    (h : path.all (isPlainSegment (isSpecial scheme))) : pathOk c scheme path := by
  simp [pathOk, h]

namespace UrlRecord.Shaped

variable {r : UrlRecord}

/-- A record with a special scheme is hierarchical. -/
theorem cannotBeABaseUrl_eq_false (h : r.Shaped) (hs : r.isSpecial) :
    r.cannotBeABaseUrl = false := by
  simpa [cannotBeABaseOk, show SkyrUrl.isSpecial r.scheme from hs] using h.cannot_be_a_base

/-- The segments of a hierarchical record are plain. -/
theorem path_all (h : r.Shaped) (hc : r.cannotBeABaseUrl = false) :
    r.path.all (isPlainSegment r.isSpecial) := by
  simpa [pathOk, hc] using h.path

/-- Storing a scheme in the empty record, or the scheme it has, keeps the shape. -/
theorem withScheme {s : List Char} (h : r.Shaped) (hs : schemeOk s) (hr : r = {} ∨ r.scheme = s) :
    { r with scheme := s }.Shaped := by
  rcases hr with rfl | rfl
  · exact ⟨hs, rfl, fileOk_none _, rfl, rfl, rfl, rfl, rfl, rfl⟩
  · exact h

/-- A hierarchical record that is not `file` keeps its shape with any encoded userinfo. -/
theorem withUserinfo {u p : List Char} (h : r.Shaped) (hf : r.scheme ≠ "file".toList)
    (hc : r.cannotBeABaseUrl = false) (hu : encoded userinfoSet u) (hp : encoded userinfoSet p) :
    { r with username := u, password := p }.Shaped :=
  { h with
    cannot_be_a_base := cannotBeABaseOk_of_eq_false hc
    file := fileOk_of_ne hf
    username := hu
    password := hp }

/-- A hierarchical record takes the userinfo, host and port of a base of its scheme. -/
theorem withAuthorityOf {b : UrlRecord} (h : r.Shaped) (hb : b.Shaped) (hs : r.scheme = b.scheme)
    (hc : r.cannotBeABaseUrl = false) : (r.withAuthorityOf b).Shaped := by
  cases r; subst hs
  exact { hb with cannot_be_a_base := cannotBeABaseOk_of_eq_false hc, path := h.path,
                  query := h.query, fragment := h.fragment }

theorem withQuery {q : Option (List Char)} (h : r.Shaped) (hq : q.all (encoded querySet)) :
    { r with query := q }.Shaped :=
  { h with query := hq }

theorem withFragment {f : Option (List Char)} (h : r.Shaped) (hf : f.all (encoded fragmentSet)) :
    { r with fragment := f }.Shaped :=
  { h with fragment := hf }

/-- A cannot-be-a-base record has a scheme that is not special and one path element. -/
theorem cannotBeABase_shape (h : r.Shaped) (hc : r.cannotBeABaseUrl = true) :
    SkyrUrl.isSpecial r.scheme = false ∧ r.path.length = 1 := by
  have := h.cannot_be_a_base
  simp only [cannotBeABaseOk, hc, Bool.not_true, Bool.false_or, Bool.and_eq_true,
    Bool.not_eq_true', beq_iff_eq] at this
  exact ⟨this.1.1.1.1.1, this.1.1.1.1.2⟩

end UrlRecord.Shaped

/-- The userinfo loop of `parse_authority` keeps the shape of a hierarchical record that is
not `file`, and leaves it such a record. -/
theorem encodeUserinfo_shaped {url : UrlRecord} (h : url.Shaped)
    (hf : url.scheme ≠ "file".toList) (hc : url.cannotBeABaseUrl = false) (seen : Bool)
    (buffer : List Char) :
    (encodeUserinfo url seen buffer).1.Shaped ∧
      (encodeUserinfo url seen buffer).1.scheme ≠ "file".toList ∧
      (encodeUserinfo url seen buffer).1.cannotBeABaseUrl = false := by
  induction buffer generalizing url seen with
  | nil => exact ⟨h, hf, hc⟩
  | cons c cs ih =>
    unfold encodeUserinfo
    split_ifs
    · exact ih h hf hc true
    · exact ih (h.withUserinfo hf hc h.username
        (encoded_append_of h.password (encoded_pct_userinfo c))) hf hc seen
    · exact ih (h.withUserinfo hf hc (encoded_append_of h.username (encoded_pct_userinfo c))
        h.password) hf hc seen

/-- A bind whose bound value has a property `Q`. -/
theorem forall_ok_bind_of {α β : Type} {x : Except ParseAbort α} {f : α → Except ParseAbort β}
    {Q : α → Prop} {P : β → Prop} (hx : ∀ a, x = .ok a → Q a)
    (hf : ∀ a, Q a → ∀ b, f a = .ok b → P b) : ∀ b, x >>= f = .ok b → P b := fun b h => by
  obtain ⟨a, ha, hb⟩ := bind_eq_ok.1 h
  exact hf a (hx a ha) b hb

theorem forall_ok_valueOf {α β : Type} {x : Option α} {f : α → Except ParseAbort β}
    {P : β → Prop} (hf : ∀ a, x = some a → ∀ b, f a = .ok b → P b) :
    ∀ b, valueOf x >>= f = .ok b → P b := by
  cases x
  · exact fun _ h => nomatch h
  · exact hf _ rfl

/-- What `pathSegment` pushes for a clean buffer that is no dot segment is a plain segment. -/
theorem pathSegment_plain {url : UrlRecord} {buffer : List Char}
    (h : pathBufferOk url.isSpecial buffer) (h1 : ¬isSingleDotPathSegment buffer)
    (h2 : ¬isDoubleDotPathSegment buffer) :
    ∀ r, pathSegment url buffer = .ok r → isPlainSegment url.isSpecial r.1 := by
  unfold pathSegment
  refine forall_ok_ite (fun _ => forall_ok_bind_of (fun seg hs => isPlainSegment_setSecondToColon h hs)
    fun _ hseg => forall_ok_pure hseg) fun _ => forall_ok_pure ?_
  exact isPlainSegment_of_pathBufferOk h (by simpa using h1) (by simpa using h2)

/-- The record `parse_path` keeps after a segment: a `file` path loses its leading empty
segments. -/
theorem shaped_popLeadingEmpty {u : UrlRecord} {p : Prop} [Decidable p] (hu : u.Shaped)
    (hc : u.cannotBeABaseUrl = false) :
    (if p then { u with path := popLeadingEmpty u.path } else u).Shaped := by
  split
  · exact { hu with cannot_be_a_base := cannotBeABaseOk_of_eq_false hc
                    path := pathOk_of_all (all_of_subset (hu.path_all hc) (popLeadingEmpty_subset _)) }
  · exact hu

theorem cannotBeABaseUrl_popLeadingEmpty {u : UrlRecord} {p : Prop} [Decidable p]
    (hc : u.cannotBeABaseUrl = false) :
    (if p then { u with path := popLeadingEmpty u.path } else u).cannotBeABaseUrl = false := by
  split <;> exact hc

/-- The port `parse_port` stores from a valid buffer of digits is a valid non-default port. -/
theorem portOk_atoi {scheme buffer : List Char} (hne : buffer ≠ [])
    (hd : ∀ c ∈ buffer, c.isDigit) (hv : isValidPort buffer) :
    portOk scheme
      (if isDefaultPort scheme (atoi buffer) then none else some (atoi buffer)) := by
  rw [isValidPort_digits hne hd, decide_eq_true_eq] at hv
  split_ifs with hdef
  · rfl
  · simpa [portOk, hv, isDefaultPort] using hdef

theorem UrlRecord.Shaped.query_of {r : UrlRecord} {q : List Char} (h : r.Shaped)
    (hq : r.query = some q) : encoded querySet q := by
  simpa [hq] using h.query

theorem UrlRecord.Shaped.fragment_of {r : UrlRecord} {f : List Char} (h : r.Shaped)
    (hf : r.fragment = some f) : encoded fragmentSet f := by
  simpa [hf] using h.fragment

/-! ## The run invariant -/

/-- What each state of a parse without a state override knows of its context, beyond the
shape of the record.  The `hostname` state is entered only under an override. -/
@[reducible] def StateFacts : UrlState → UrlParserContext → Prop
  | .schemeStart, ctx | .noScheme, ctx => ctx.url = {} ∧ ctx.buffer = []
  | .scheme, ctx => ctx.url = {} ∧ isLowerScheme ctx.buffer
  | .specialRelativeOrAuthority, ctx =>
    ctx.url.isSpecial ∧ ctx.url.scheme ≠ "file".toList ∧ ctx.url.cannotBeABaseUrl = false ∧
      ctx.buffer = [] ∧ ctx.base.map (·.scheme) = some ctx.url.scheme
  | .pathOrAuthority, ctx =>
    ctx.url.scheme ≠ "file".toList ∧ ctx.url.cannotBeABaseUrl = false ∧ ctx.buffer = []
  | .relative, ctx =>
    ctx.url.cannotBeABaseUrl = false ∧ ctx.buffer = [] ∧
      ∃ b, ctx.base = some b ∧ b.scheme ≠ "file".toList ∧ b.cannotBeABaseUrl = false ∧
        (ctx.url = {} ∨ ctx.url.scheme = b.scheme)
  | .relativeSlash, ctx =>
    ctx.url.cannotBeABaseUrl = false ∧ ctx.buffer = [] ∧
      ∃ b, ctx.base = some b ∧ b.scheme ≠ "file".toList ∧ ctx.url.scheme = b.scheme
  | .specialAuthoritySlashes, ctx | .specialAuthorityIgnoreSlashes, ctx | .authority, ctx
  | .host, ctx => ctx.url.scheme ≠ "file".toList ∧ ctx.url.cannotBeABaseUrl = false
  | .hostname, _ => False
  | .port, ctx =>
    ctx.url.scheme ≠ "file".toList ∧ ctx.url.cannotBeABaseUrl = false ∧
      ∀ c ∈ ctx.buffer, c.isDigit
  | .file, ctx =>
    ctx.url.cannotBeABaseUrl = false ∧ (ctx.url = {} ∨ ctx.url.scheme = "file".toList) ∧
      ctx.buffer = []
  | .fileSlash, ctx =>
    ctx.url.scheme = "file".toList ∧ ctx.url.cannotBeABaseUrl = false ∧ ctx.buffer = []
  | .fileHost, ctx =>
    ctx.url.scheme = "file".toList ∧ ctx.url.cannotBeABaseUrl = false ∧
      pathBufferOk true ctx.buffer
  | .pathStart, ctx => ctx.url.cannotBeABaseUrl = false ∧ ctx.buffer = []
  | .path, ctx => ctx.url.cannotBeABaseUrl = false ∧ pathBufferOk ctx.url.isSpecial ctx.buffer
  | .cannotBeABaseUrlPath, ctx => ctx.url.cannotBeABaseUrl = true
  | .query, _ | .fragment, _ => True

/-- The invariant of the driver loop of a parse without a state override. -/
structure RunShape (ctx : UrlParserContext) : Prop where
  url : ctx.url.Shaped
  base : ∀ b, ctx.base = some b → b.Shaped
  noOverride : ctx.stateOverride = none
  facts : StateFacts ctx.state ctx

theorem runShape_init {input : List Char} {base : Option UrlRecord}
    (hb : ∀ b, base = some b → b.Shaped) : RunShape (UrlParserContext.init input base none none) :=
  ⟨UrlRecord.shaped_empty, hb, rfl, rfl, rfl⟩

/-- The keep-lemmas of the handlers that can not raise descend their branches with this. -/
theorem runShape_ite {p : Prop} [Decidable p] {x y : HandlerStep} (hx : p → RunShape x.2)
    (hy : ¬p → RunShape y.2) : RunShape (if p then x else y).2 :=
  iteInduction (motive := fun r : HandlerStep => RunShape r.2) hx hy

/-! ## The scheme states -/

section Handlers

variable {ctx : UrlParserContext} (c : Char)

theorem parseSchemeStart_runShape (h : RunShape ctx) (hs : ctx.state = .schemeStart) :
    RunShape (parseSchemeStart ctx c).2 := by
  cases ctx; subst hs
  obtain ⟨rfl, rfl⟩ := h.facts
  unfold parseSchemeStart
  exact runShape_ite (fun ha => { h with facts := ⟨rfl, isLowerScheme_singleton ha⟩ }) fun _ =>
    runShape_ite (fun _ => { h with facts := ⟨rfl, rfl⟩ }) fun _ => h

theorem parseScheme_runShape (h : RunShape ctx) (hs : ctx.state = .scheme) :
    RunShape (parseScheme ctx c).2 := by
  cases ctx; subst hs
  obtain ⟨rfl, hl⟩ := h.facts
  have hu := UrlRecord.Shaped.withScheme h.url (schemeOk_of_isLowerScheme hl) (.inl rfl)
  unfold parseScheme schemeNextState
  refine runShape_ite (fun ha => { h with facts := ⟨rfl, isLowerScheme_append hl ha⟩ })
    fun _ => runShape_ite (fun _ => runShape_ite (fun _ => h) fun _ => ?_) fun _ =>
      runShape_ite (fun _ => { h with facts := ⟨rfl, rfl⟩ }) fun _ => h
  refine runShape_ite (fun hf => { h with url := hu, facts := ⟨rfl, .inr hf, rfl⟩ }) fun hf =>
    runShape_ite (fun hb => { h with url := hu, facts := ⟨hb.1, hf, rfl, rfl, hb.2⟩ }) fun _ =>
      runShape_ite (fun _ => { h with url := hu, facts := ⟨hf, rfl⟩ }) fun hns =>
        runShape_ite (fun _ => { h with url := hu, facts := ⟨hf, rfl, rfl⟩ }) fun _ => ?_
  refine { h with url := ⟨hu.scheme, ?_, fileOk_none _, rfl, rfl, rfl, rfl, rfl, rfl⟩,
                  facts := rfl }
  simpa [cannotBeABaseOk, UrlRecord.isSpecial] using hns

theorem parseNoScheme_runShape (h : RunShape ctx) (hs : ctx.state = .noScheme) :
    RunShape (parseNoScheme ctx c).2 := by
  obtain ⟨_, _, _ | b⟩ := ctx <;> subst hs
  · exact h
  obtain ⟨rfl, rfl⟩ := h.facts
  have hb := h.base b rfl
  unfold parseNoScheme
  refine runShape_ite (fun _ => h) fun _ => runShape_ite (fun hc => ?_) fun hc =>
    runShape_ite (fun hf => { h with facts := ⟨rfl, rfl, b, rfl, hf, by simpa using hc, .inl rfl⟩ })
      fun _ => { h with facts := ⟨rfl, .inl rfl, rfl⟩ }
  have hcb := hb.cannotBeABase_shape hc
  exact { h with
    url := ⟨hb.scheme, by simp [cannotBeABaseOk, hcb], fileOk_none _, rfl, rfl, hb.query, rfl, rfl,
      rfl⟩
    facts := trivial }

/-! ## The authority states -/

theorem parseSpecialRelativeOrAuthority_runShape (h : RunShape ctx)
    (hs : ctx.state = .specialRelativeOrAuthority) :
    RunShape (parseSpecialRelativeOrAuthority ctx c).2 := by
  cases ctx; subst hs
  obtain ⟨hsp, hf, hc, rfl, hbs⟩ := h.facts
  obtain ⟨b, hb, hbs⟩ := Option.map_eq_some'.1 hbs
  have hbc : b.cannotBeABaseUrl = false :=
    (h.base b hb).cannotBeABaseUrl_eq_false (by rw [UrlRecord.isSpecial, hbs]; exact hsp)
  unfold parseSpecialRelativeOrAuthority
  exact runShape_ite (fun _ => { h with facts := ⟨hf, hc⟩ }) fun _ =>
    { h with facts := ⟨hc, rfl, b, hb, hbs ▸ hf, hbc, .inr hbs.symm⟩ }

theorem parsePathOrAuthority_runShape (h : RunShape ctx) (hs : ctx.state = .pathOrAuthority) :
    RunShape (parsePathOrAuthority ctx c).2 := by
  cases ctx; subst hs
  obtain ⟨hf, hc, rfl⟩ := h.facts
  unfold parsePathOrAuthority
  exact runShape_ite (fun _ => { h with facts := ⟨hf, hc⟩ }) fun _ => { h with facts := ⟨hc, rfl⟩ }

theorem parseRelative_runShape (h : RunShape ctx) (hs : ctx.state = .relative) :
    ∀ r, parseRelative ctx c = .ok r → RunShape r.2 := by
  cases ctx; subst hs
  obtain ⟨hc, rfl, b, rfl, hf, hbc, hor⟩ := h.facts
  have hb := h.base b rfl
  have hu := h.url.withScheme hb.scheme hor
  have ha := hu.withAuthorityOf hb rfl hc
  unfold parseRelative
  refine forall_ok_valueOf fun b' hb' => ?_
  cases hb'
  refine forall_ok_ite (fun _ => forall_ok_pure ?_) fun _ =>
    forall_ok_ite (fun _ => forall_ok_pure ?_) fun _ =>
    forall_ok_ite (fun _ => forall_ok_pure ?_) fun _ =>
    forall_ok_ite (fun _ => forall_ok_pure ?_) fun _ =>
    forall_ok_ite (fun _ => forall_ok_pure ?_) fun _ => forall_ok_pure ?_
  · exact { h with
      url := { ha with cannot_be_a_base := cannotBeABaseOk_of_eq_false hc,
                       path := pathOk_of_all (hb.path_all hbc), query := hb.query }
      facts := ⟨hc, rfl, b, rfl, hf, hbc, .inr rfl⟩ }
  · exact { h with url := hu, facts := ⟨hc, rfl, b, rfl, hf, rfl⟩ }
  · exact { h with
      url := { ha with cannot_be_a_base := cannotBeABaseOk_of_eq_false hc,
                       path := pathOk_of_all (hb.path_all hbc), query := rfl }
      facts := trivial }
  · exact { h with
      url := { ha with cannot_be_a_base := cannotBeABaseOk_of_eq_false hc,
                       path := pathOk_of_all (hb.path_all hbc), query := hb.query, fragment := rfl }
      facts := trivial }
  · exact { h with url := hu, facts := ⟨hc, rfl, b, rfl, hf, rfl⟩ }
  · exact { h with
      url := { ha with
        cannot_be_a_base := cannotBeABaseOk_of_eq_false hc
        path := pathOk_of_all (all_of_subset (hb.path_all hbc) (List.dropLast_sublist _).subset) }
      facts := ⟨hc, rfl⟩ }

theorem parseRelativeSlash_runShape (h : RunShape ctx) (hs : ctx.state = .relativeSlash) :
    ∀ r, parseRelativeSlash ctx c = .ok r → RunShape r.2 := by
  rcases ctx with ⟨_, _, _, url⟩; subst hs
  obtain ⟨hc, rfl, b, rfl, hf, hsch⟩ := h.facts
  have hf' : url.scheme ≠ "file".toList := hsch ▸ hf
  unfold parseRelativeSlash
  refine forall_ok_ite (fun _ => forall_ok_pure { h with facts := ⟨hf', hc⟩ }) fun _ =>
    forall_ok_ite (fun _ => forall_ok_pure { h with facts := ⟨hf', hc⟩ }) fun _ =>
      forall_ok_valueOf fun b' hb' => ?_
  cases hb'
  exact forall_ok_pure
    { h with url := h.url.withAuthorityOf (h.base b rfl) hsch hc, facts := ⟨hc, rfl⟩ }

theorem parseSpecialAuthoritySlashes_runShape (h : RunShape ctx)
    (hs : ctx.state = .specialAuthoritySlashes) :
    RunShape (parseSpecialAuthoritySlashes ctx c).2 := by
  cases ctx; subst hs
  unfold parseSpecialAuthoritySlashes
  exact runShape_ite (fun _ => { h with facts := h.facts }) fun _ => { h with facts := h.facts }

theorem parseSpecialAuthorityIgnoreSlashes_runShape (h : RunShape ctx)
    (hs : ctx.state = .specialAuthorityIgnoreSlashes) :
    RunShape (parseSpecialAuthorityIgnoreSlashes ctx c).2 := by
  cases ctx; subst hs
  unfold parseSpecialAuthorityIgnoreSlashes
  exact runShape_ite (fun _ => { h with facts := h.facts }) fun _ => h

theorem parseAuthority_runShape (h : RunShape ctx) (hs : ctx.state = .authority) :
    RunShape (parseAuthority ctx c).2 := by
  cases ctx; subst hs
  obtain ⟨hf, hc⟩ := h.facts
  unfold parseAuthority
  refine runShape_ite (fun _ => ?_) fun _ => runShape_ite (fun _ => runShape_ite (fun _ => h)
    fun _ => { h with facts := ⟨hf, hc⟩ }) fun _ => { h with facts := ⟨hf, hc⟩ }
  have hE := encodeUserinfo_shaped h.url hf hc
  exact { h with url := (hE _ _).1, facts := (hE _ _).2 }

theorem parseHostname_runShape (h : RunShape ctx) (hs : ctx.state = .host) :
    ∀ r, parseHostname ctx c = .ok r → RunShape r.2 := by
  rcases ctx with ⟨_, _, _, url, _, so⟩; subst hs
  obtain ⟨hf, hc⟩ := h.facts
  obtain rfl : so = none := h.noOverride
  have hu : ∀ host, { url with host := host }.Shaped := fun _ =>
    { h.url with cannot_be_a_base := cannotBeABaseOk_of_eq_false hc }
  unfold parseHostname
  refine forall_ok_ite (fun ho => absurd ho.1 Bool.false_ne_true) fun _ =>
    forall_ok_ite (fun _ => forall_ok_ite (fun _ => forall_ok_pure h) fun _ => ?_) fun _ =>
    forall_ok_ite (fun _ => forall_ok_ite (fun _ => forall_ok_pure { h with facts := ⟨hf, hc⟩ })
      fun _ => ?_) fun _ => forall_ok_pure { h with facts := ⟨hf, hc⟩ }
  · refine forall_ok_bind fun | none => forall_ok_pure h | some _ => ?_
    exact forall_ok_ite (fun _ => forall_ok_pure { h with url := hu _, facts := ⟨hf, hc, nofun⟩ })
      fun _ => forall_ok_pure { h with url := hu _, facts := ⟨hf, hc, nofun⟩ }
  · exact forall_ok_bind fun
      | none => forall_ok_pure { h with facts := ⟨hf, hc⟩ }
      | some _ => forall_ok_pure { h with url := hu _, facts := ⟨hc, rfl⟩ }

theorem parsePort_runShape (h : RunShape ctx) (hs : ctx.state = .port) :
    RunShape (parsePort ctx c).2 := by
  rcases ctx with ⟨_, _, _, url, _, _, buffer⟩; subst hs
  obtain ⟨hf, hc, hd⟩ := h.facts
  unfold parsePort portDone
  refine runShape_ite (fun hdig => { h with facts := ⟨hf, hc, ?_⟩ }) fun _ =>
    runShape_ite (fun _ => ?_) fun _ => h
  · intro x hx
    rcases List.mem_append.1 hx with hx | hx
    exacts [hd x hx, List.mem_singleton.1 hx ▸ hdig]
  refine runShape_ite (fun hb => runShape_ite (fun _ => h) fun _ => { h with facts := ⟨hc, hb⟩ })
    fun hne => runShape_ite (fun _ => h) fun hv => runShape_ite
      (fun _ => { h with url := ?_, facts := ⟨hf, hc, nofun⟩ }) fun _ =>
        { h with url := ?_, facts := ⟨hc, rfl⟩ }
  all_goals exact { h.url with
    cannot_be_a_base := cannotBeABaseOk_of_eq_false hc
    file := fileOk_of_ne hf
    port := portOk_atoi hne hd (by simpa using hv) }

/-! ## The file states -/

theorem parseFile_runShape (h : RunShape ctx) (hs : ctx.state = .file) :
    RunShape (parseFile ctx c).2 := by
  rcases ctx with ⟨_, _, base⟩; subst hs
  obtain ⟨hc, hor, rfl⟩ := h.facts
  have hu := h.url.withScheme (by decide) hor
  unfold parseFile
  refine runShape_ite (fun _ => { h with url := hu, facts := ⟨rfl, hc, rfl⟩ }) fun _ => ?_
  cases base with
  | none => exact { h with url := hu, facts := ⟨hc, rfl⟩ }
  | some b =>
    have hb := h.base b rfl
    refine runShape_ite (fun _ => { h with url := hu, facts := ⟨hc, rfl⟩ }) fun hbf => ?_
    have hbf : b.scheme = "file".toList := not_not.1 hbf
    have hp : b.path.all (isPlainSegment (isSpecial "file".toList)) := by
      rw [← hbf]
      exact hb.path_all (hb.cannotBeABaseUrl_eq_false (by rw [UrlRecord.isSpecial, hbf]; decide))
    refine runShape_ite (fun _ => { h with url := ?_, facts := ⟨hc, .inr rfl, rfl⟩ }) fun _ =>
      runShape_ite (fun _ => { h with url := ?_, facts := trivial }) fun _ =>
      runShape_ite (fun _ => { h with url := ?_, facts := trivial }) fun _ =>
      runShape_ite (fun _ => { h with url := ?_, facts := ⟨hc, rfl⟩ }) fun _ =>
        { h with url := hu, facts := ⟨hc, rfl⟩ }
    · exact { hu with cannot_be_a_base := cannotBeABaseOk_of_eq_false hc, path := pathOk_of_all hp,
                      query := hb.query }
    · exact { hu with cannot_be_a_base := cannotBeABaseOk_of_eq_false hc, path := pathOk_of_all hp,
                      query := rfl }
    · exact { hu with cannot_be_a_base := cannotBeABaseOk_of_eq_false hc, path := pathOk_of_all hp,
                      query := hb.query, fragment := rfl }
    · exact { hu with
        cannot_be_a_base := cannotBeABaseOk_of_eq_false hc
        path := pathOk_of_all (all_of_subset hp (shortenPath_subset _ _)) }

theorem parseFileSlash_runShape (h : RunShape ctx) (hs : ctx.state = .fileSlash) :
    RunShape (parseFileSlash ctx c).2 := by
  rcases ctx with ⟨_, _, base, url⟩; subst hs
  obtain ⟨hsf, hc, rfl⟩ := h.facts
  unfold parseFileSlash
  refine runShape_ite (fun _ => { h with facts := ⟨hsf, hc, rfl⟩ }) fun _ => ?_
  cases base with
  | none => exact { h with facts := ⟨hc, rfl⟩ }
  | some b =>
    have hb := h.base b rfl
    dsimp only
    split_ifs with hcond
    · obtain ⟨hbf, -⟩ := hcond
      split
      · rename_i p0 rest hp
        split_ifs
        · have hbc := hb.cannotBeABaseUrl_eq_false (by rw [UrlRecord.isSpecial, hbf]; decide)
          have hp0 := List.all_eq_true.1 (hb.path_all hbc) p0 (hp ▸ List.mem_cons_self _ _)
          rw [UrlRecord.isSpecial, hbf, ← hsf] at hp0
          exact { h with
            url := { h.url with
              cannot_be_a_base := cannotBeABaseOk_of_eq_false hc
              path := pathOk_of_all (all_append_singleton (h.url.path_all hc) hp0) }
            facts := ⟨hc, rfl⟩ }
        · exact { h with url := { h.url with cannot_be_a_base := cannotBeABaseOk_of_eq_false hc },
                         facts := ⟨hc, rfl⟩ }
      · exact { h with url := { h.url with cannot_be_a_base := cannotBeABaseOk_of_eq_false hc },
                       facts := ⟨hc, rfl⟩ }
    · exact { h with facts := ⟨hc, rfl⟩ }

theorem parseFileHost_runShape (h : RunShape ctx) (hs : ctx.state = .fileHost) :
    ∀ r, parseFileHost ctx c = .ok r → RunShape r.2 := by
  rcases ctx with ⟨_, _, _, url, _, _, buffer⟩; subst hs
  obtain ⟨hsf, hc, hbuf⟩ := h.facts
  have hbuf' : pathBufferOk url.isSpecial buffer := by
    rw [UrlRecord.isSpecial, hsf]; exact hbuf
  have hu : ∀ host, { url with host := host }.Shaped := fun _ =>
    { h.url with cannot_be_a_base := cannotBeABaseOk_of_eq_false hc }
  unfold parseFileHost
  refine forall_ok_ite (fun _ => ?_) fun hn => forall_ok_pure { h with facts := ⟨hsf, hc, ?_⟩ }
  · refine forall_ok_ite (fun _ => forall_ok_pure { h with facts := ⟨hc, hbuf'⟩ }) fun _ =>
      forall_ok_ite (fun hb0 => forall_ok_ite
        (fun _ => forall_ok_pure { h with url := hu _, facts := ⟨hsf, hc, hbuf⟩ })
        fun _ => forall_ok_pure { h with url := hu _, facts := ⟨hc, hb0⟩ }) fun _ =>
      forall_ok_bind fun
        | none => forall_ok_pure { h with facts := ⟨hsf, hc, hbuf⟩ }
        | some _ => forall_ok_ite (fun _ => forall_ok_pure
            { h with url := hu _, facts := ⟨hsf, hc, hbuf⟩ })
            fun _ => forall_ok_pure { h with url := hu _, facts := ⟨hc, rfl⟩ }
  · simp only [not_or] at hn
    simp only [pathBufferOk_append, hbuf, Bool.true_and]
    simpa [pathBufferOk] using ⟨hn.2.1, hn.2.2.2.1, hn.2.2.2.2, hn.2.2.1⟩

/-! ## The path states -/

theorem parsePathStart_runShape (h : RunShape ctx) (hs : ctx.state = .pathStart) :
    RunShape (parsePathStart ctx c).2 := by
  rcases ctx with ⟨_, _, _, url⟩; subst hs
  obtain ⟨hc, rfl⟩ := h.facts
  unfold parsePathStart
  refine runShape_ite (fun _ => runShape_ite (fun _ => { h with facts := ⟨hc, rfl⟩ })
    fun _ => { h with facts := ⟨hc, rfl⟩ }) fun _ =>
    runShape_ite (fun _ => { h with url := h.url.withQuery rfl, facts := trivial }) fun _ =>
    runShape_ite (fun _ => { h with url := h.url.withFragment rfl, facts := trivial }) fun _ =>
    runShape_ite (fun _ => runShape_ite (fun _ => { h with facts := ⟨hc, rfl⟩ }) fun _ => ?_)
      fun _ => h
  exact { h with
    url := { h.url with
      cannot_be_a_base := cannotBeABaseOk_of_eq_false hc
      path := pathOk_of_all (all_append_singleton (h.url.path_all hc) (isPlainSegment_nil _)) }
    facts := ⟨hc, rfl⟩ }

theorem parsePath_runShape (h : RunShape ctx) (hs : ctx.state = .path) :
    ∀ r, parsePath ctx c = .ok r → RunShape r.2 := by
  rcases ctx with ⟨_, _, _, url, _, _, buffer⟩; subst hs
  obtain ⟨hc, hbuf⟩ := h.facts
  have hpa := h.url.path_all hc
  have hsh := all_of_subset hpa (shortenPath_subset url.scheme url.path)
  let Q (u : UrlRecord) : Prop := u.Shaped ∧ u.cannotBeABaseUrl = false
  unfold parsePath
  refine forall_ok_ite (fun _ => ?_) fun hn => forall_ok_pure { h with facts := ⟨hc, ?_⟩ }
  · -- the three ways to the record stored by the same join point
    refine forall_ok_ite (fun _ => forall_ok_bind_of (Q := Q) (forall_ok_pure ⟨{ h.url with
        cannot_be_a_base := cannotBeABaseOk_of_eq_false hc
        path := pathOk_of_all (by split; exacts [hsh, all_append_singleton hsh (isPlainSegment_nil _)]) },
        hc⟩) fun u hu => ?_) fun hdd =>
      forall_ok_ite (fun _ => forall_ok_bind_of (Q := Q) (forall_ok_pure (iteInduction (motive := Q)
        (fun _ => ⟨h.url, hc⟩) fun _ => ⟨{ h.url with
          cannot_be_a_base := cannotBeABaseOk_of_eq_false hc
          path := pathOk_of_all (all_append_singleton hpa (isPlainSegment_nil _)) }, hc⟩))
        fun u hu => ?_) fun hsd =>
      forall_ok_bind_of (pathSegment_plain hbuf hsd hdd) fun _ hp =>
        forall_ok_bind_of (Q := Q) (forall_ok_pure ⟨{ h.url with
          cannot_be_a_base := cannotBeABaseOk_of_eq_false hc
          path := pathOk_of_all (all_append_singleton hpa hp) }, hc⟩) fun u hu => ?_
    all_goals
      obtain ⟨hu, huc⟩ := hu
      exact forall_ok_ite (fun _ => forall_ok_pure { h with
          url := UrlRecord.Shaped.withQuery (shaped_popLeadingEmpty hu huc) rfl, facts := trivial })
        fun _ => forall_ok_ite (fun _ => forall_ok_pure { h with
          url := UrlRecord.Shaped.withFragment (shaped_popLeadingEmpty hu huc) rfl, facts := trivial })
        fun _ => forall_ok_pure { h with
          url := shaped_popLeadingEmpty hu huc
          facts := ⟨cannotBeABaseUrl_popLeadingEmpty huc, rfl⟩ }
  · simp only [not_or, not_and] at hn
    simpa [hbuf] using pathBufferOk_pct hn.2.1.1 hn.2.1.2

theorem parseCannotBeABaseUrl_runShape (h : RunShape ctx) (hs : ctx.state = .cannotBeABaseUrlPath) :
    ∀ r, parseCannotBeABaseUrl ctx c = .ok r → RunShape r.2 := by
  rcases ctx with ⟨_, _, _, url⟩; subst hs
  have hcb : url.cannotBeABaseUrl = true := h.facts
  unfold parseCannotBeABaseUrl
  refine forall_ok_ite (fun _ => forall_ok_pure { h with url := h.url.withQuery rfl, facts := trivial })
    fun _ => forall_ok_ite (fun _ => forall_ok_pure
      { h with url := h.url.withFragment rfl, facts := trivial }) fun _ =>
    forall_ok_ite (fun _ => ?_) fun _ => forall_ok_pure h
  dsimp only
  split
  · rename_i p0 rest hp
    have hcbo := h.url.cannot_be_a_base
    rw [hp] at hcbo
    exact forall_ok_pure { h with
      url := { h.url with cannot_be_a_base := hcbo, path := by simp [pathOk, hcb] }
      facts := hcb }
  · exact forall_ok_throw

/-! ## The query and the fragment -/

theorem parseQuery_runShape (h : RunShape ctx) (hs : ctx.state = .query) :
    ∀ r, parseQuery ctx c = .ok r → RunShape r.2 := by
  cases ctx; subst hs
  unfold parseQuery
  exact forall_ok_ite (fun _ => forall_ok_pure
    { h with url := h.url.withFragment rfl, facts := trivial }) fun _ =>
    forall_ok_ite (fun _ => forall_ok_valueOf fun _ hq => forall_ok_pure { h with
      url := h.url.withQuery (encoded_append_of (h.url.query_of hq) (encoded_pct_query c))
      facts := trivial }) fun _ => forall_ok_pure h

theorem parseFragment_runShape (h : RunShape ctx) (hs : ctx.state = .fragment) :
    ∀ r, parseFragment ctx c = .ok r → RunShape r.2 := by
  cases ctx; subst hs
  unfold parseFragment
  exact forall_ok_ite (fun _ => forall_ok_pure h) fun _ => forall_ok_valueOf fun _ hf =>
    forall_ok_pure { h with
      url := h.url.withFragment (encoded_append_of (h.url.fragment_of hf) (encoded_pct_fragment c))
      facts := trivial }

end Handlers

/-! ## Every run -/

theorem stateFacts_increment {st : UrlState} {ctx : UrlParserContext} (h : StateFacts st ctx) :
    StateFacts st ctx.increment := by
  cases st <;> exact h

/-- **Every handler keeps the invariant.** -/
theorem dispatch_runShape {ctx : UrlParserContext} (h : RunShape ctx) :
    ∀ r, dispatch ctx = .ok r → RunShape r.2 := by
  unfold dispatch
  cases hs : ctx.state with
  | schemeStart => exact forall_ok_pure (parseSchemeStart_runShape _ h hs)
  | scheme => exact forall_ok_pure (parseScheme_runShape _ h hs)
  | noScheme => exact forall_ok_pure (parseNoScheme_runShape _ h hs)
  | specialRelativeOrAuthority =>
    exact forall_ok_pure (parseSpecialRelativeOrAuthority_runShape _ h hs)
  | pathOrAuthority => exact forall_ok_pure (parsePathOrAuthority_runShape _ h hs)
  | relative => exact parseRelative_runShape _ h hs
  | relativeSlash => exact parseRelativeSlash_runShape _ h hs
  | specialAuthoritySlashes => exact forall_ok_pure (parseSpecialAuthoritySlashes_runShape _ h hs)
  | specialAuthorityIgnoreSlashes =>
    exact forall_ok_pure (parseSpecialAuthorityIgnoreSlashes_runShape _ h hs)
  | authority => exact forall_ok_pure (parseAuthority_runShape _ h hs)
  | host => exact parseHostname_runShape _ h hs
  | hostname => exact (hs ▸ h.facts : StateFacts .hostname ctx).elim
  | port => exact forall_ok_pure (parsePort_runShape _ h hs)
  | file => exact forall_ok_pure (parseFile_runShape _ h hs)
  | fileSlash => exact forall_ok_pure (parseFileSlash_runShape _ h hs)
  | fileHost => exact parseFileHost_runShape _ h hs
  | pathStart => exact forall_ok_pure (parsePathStart_runShape _ h hs)
  | path => exact parsePath_runShape _ h hs
  | cannotBeABaseUrlPath => exact parseCannotBeABaseUrl_runShape _ h hs
  | query => exact parseQuery_runShape _ h hs
  | fragment => exact parseFragment_runShape _ h hs

/-- A pass of the loop that goes round keeps the invariant. -/
theorem runShape_step {ctx ctx' : UrlParserContext} (h : RunShape ctx) (hs : Step ctx ctx') :
    RunShape ctx' := by
  obtain ⟨a, c, hd, ⟨-, rfl⟩ | ⟨-, -, rfl⟩⟩ := step_iff.1 hs
  · exact dispatch_runShape h _ hd
  · have hc := dispatch_runShape h _ hd
    exact ⟨hc.url, hc.base, hc.noOverride, stateFacts_increment hc.facts⟩

/-- **Every record a parse without a state override returns has the shape**, for a base that
has it, or none. -/
theorem parse_shaped {input : List Char} {base : Option UrlRecord} {r : UrlRecord}
    (hb : ∀ b, base = some b → b.Shaped) (h : Parses input base none none (.ok r)) : r.Shaped := by
  obtain ⟨ctx, hrun, hdone⟩ := parses_iff_terminates.1 h
  have hc := steps_invariant (fun _ _ => runShape_step) hrun (runShape_init hb)
  obtain ⟨e, -, he⟩ | ⟨a, c, hd, hr, -⟩ := done_iff.1 hdone
  · cases he
  · cases hr
    exact (dispatch_runShape hc _ hd).url

/-- The reference `../c?d#e` against `http://x/a/b`. -/
theorem parse_shaped_relative :
    ((∀ b, some ({ scheme := "http".toList, host := some "x".toList,
                   path := ["a".toList, "b".toList] } : UrlRecord) = some b → b.Shaped) ∧
      Parses "../c?d#e".toList
        (some { scheme := "http".toList, host := some "x".toList,
                path := ["a".toList, "b".toList] }) none none
        (.ok { scheme := "http".toList, host := some "x".toList, path := ["c".toList],
               query := some "d".toList, fragment := some "e".toList })) ∧
      UrlRecord.Shaped { scheme := "http".toList, host := some "x".toList, path := ["c".toList],
                         query := some "d".toList, fragment := some "e".toList } :=
  have hb : ∀ b, some ({ scheme := "http".toList, host := some "x".toList,
                         path := ["a".toList, "b".toList] } : UrlRecord) = some b → b.Shaped := by
    rintro _ ⟨⟩; decide
  ⟨⟨hb, 20, by decide⟩,
    parse_shaped hb (show Parses "../c?d#e".toList _ none none _ from ⟨20, by decide⟩)⟩

end SkyrUrl
