import SkyrUrl.Shape
import SkyrUrl.Ipv6Text

/-!
# Every host a parse stores reads back

For a special URL `parse_host` returns the text of an IPv6 address, or a lowercase domain
without a forbidden byte that the IPv4 parser returns unchanged (a dotted-decimal address is
one): a `CanonicalHost`.  A pass of the loop sets the record's host only to such a return, to
the base's host, or to the empty host (`HostStep`, one lemma per handler; `parse_file_host`
passes `!url.is_special`, which is false in the file states).  So along every run without a
state override the host stays canonical, and written as a URL writes it (an IPv6 address
between brackets, `hostText`) it parses to itself.

* `canonicalHost_of_parseHost`, `CanonicalHost.readsBack`: the hosts `parse_host` returns are
  canonical, and a canonical host reads back;
* `parse_host_reads_back`: the host of every record a parse returns reads back, for a base
  whose host does.
-/

namespace SkyrUrl

open UrlParserContext

/-! ## Canonical hosts -/

/-- Modelled from the spec: a host as the serializer writes it into a URL, an IPv6 address
between brackets (a domain or a dotted-decimal address has no `:`). -/
def hostText (h : List Char) : List Char := if ':' ∈ h then '[' :: h ++ [']'] else h

/-- The hosts `parse_host(_, false)` returns. -/
inductive CanonicalHost : List Char → Prop
  | ipv6 {a : List Nat} : Ipv6Pieces a → CanonicalHost (ipv6ToString a)
  | domain {h : List Char} : h.any isForbiddenHostPoint = false → h.map Char.toLower = h →
      parseIpv4Address h = some h → CanonicalHost h

theorem canonicalHost_nil : CanonicalHost [] := .domain rfl rfl (by decide)

theorem colon_mem_ipv6ToString {a : List Nat} (ha : Ipv6Pieces a) : ':' ∈ ipv6ToString a := by
  cases hc : ipv6Compress a with
  | none =>
    rw [ipv6ToString_of_none ha.length hc]
    obtain ⟨x, y, t, rfl⟩ : ∃ x y t, a = x :: y :: t := by
      match a, ha.length with
      | x :: y :: t, _ => exact ⟨x, y, t, rfl⟩
    rw [hexText_cons_cons]
    exact List.mem_append_right _ (List.mem_cons_self _ _)
  | some i =>
    rw [ipv6ToString_of_some ha.length hc]
    exact List.mem_append_right _ (List.mem_cons_self _ _)

/-- **A canonical host reads back.** -/
theorem CanonicalHost.readsBack {h : List Char} (hc : CanonicalHost h) :
    parseHost (hostText h) false = .ok (some h) := by
  cases hc with
  | ipv6 ha => rw [hostText, if_pos (colon_mem_ipv6ToString ha)]; exact parseHost_ipv6ToString ha false
  | domain hf hl hv =>
    have hcol : ':' ∉ h := fun hm => by
      simpa [isForbiddenHostPoint] using List.any_eq_false.1 hf ':' hm
    rw [hostText, if_neg hcol, parseHost_of_domain hf hl, hv]
    rfl

theorem ipv4ToString_domain (m : Nat) :
    (ipv4ToString m).any isForbiddenHostPoint = false ∧ (ipv4ToString m).map Char.toLower = ipv4ToString m := by
  have hc : ∀ c ∈ ipv4ToString m, isForbiddenHostPoint c = false ∧ c.toLower = c := by
    intro c hc
    rcases mem_ipv4ToString hc with rfl | ⟨k, hk, rfl⟩
    · decide
    · clear hc; revert k; decide
  exact ⟨by simpa using fun c h => (hc c h).1,
    (List.map_congr_left fun c h => (hc c h).2).trans (List.map_id _)⟩

/-- **`parse_host` returns canonical hosts.** -/
theorem canonicalHost_of_parseHost {buf h : List Char} (hp : parseHost buf false = .ok (some h)) :
    CanonicalHost h := by
  by_cases hb : buf.headD '\x00' = '['
  · obtain ⟨a, ha, rfl⟩ := parseHost_bracket hb hp
    exact .ipv6 ha
  · rw [parseHost, if_neg hb, if_neg Bool.false_ne_true] at hp
    dsimp only at hp
    split at hp
    · cases hp
    · rename_i hf
      have hv := pure_eq_ok.1 hp
      rcases parseIpv4Address_cases hv with rfl | ⟨m, rfl⟩
      · exact .domain (by simpa using hf)
          (by simp [domainToAscii, List.map_map, Function.comp_def, toLower_toLower]) hv
      · exact .domain (ipv4ToString_domain m).1 (ipv4ToString_domain m).2
          (parseIpv4Address_ipv4ToString m)

/-! ## What a pass does to the host -/

/-- What a pass does to the host and the base: the base stays, and the host is kept,
cleared, copied from the base, or set to what `parse_host(buffer, false)` returned. -/
structure HostStep (ctx ctx' : UrlParserContext) : Prop where
  base : ctx'.base = ctx.base
  host : ctx'.url.host = ctx.url.host ∨ ctx'.url.host = some [] ∨
    (∃ b, ctx.base = some b ∧ ctx'.url.host = b.host) ∨
    ∃ buf h, parseHost buf false = .ok (some h) ∧ ctx'.url.host = some h

section Handlers

variable {ctx ctx' : UrlParserContext} (c : Char)

theorem HostStep.keep (hb : ctx'.base = ctx.base) (hh : ctx'.url.host = ctx.url.host) :
    HostStep ctx ctx' := ⟨hb, .inl hh⟩

theorem HostStep.clear (hb : ctx'.base = ctx.base) (hh : ctx'.url.host = some []) :
    HostStep ctx ctx' := ⟨hb, .inr (.inl hh)⟩

theorem HostStep.ofBase {b : UrlRecord} (hb : ctx'.base = ctx.base) (hbase : ctx.base = some b)
    (hh : ctx'.url.host = b.host) : HostStep ctx ctx' := ⟨hb, .inr (.inr (.inl ⟨b, hbase, hh⟩))⟩

theorem HostStep.parsed {buf h : List Char} (hb : ctx'.base = ctx.base)
    (hp : parseHost buf false = .ok (some h)) (hh : ctx'.url.host = some h) : HostStep ctx ctx' :=
  ⟨hb, .inr (.inr (.inr ⟨buf, h, hp, hh⟩))⟩

theorem hostStep_ite {p : Prop} [Decidable p] {x y : HandlerStep} (hx : p → HostStep ctx x.2)
    (hy : ¬p → HostStep ctx y.2) : HostStep ctx (if p then x else y).2 :=
  iteInduction (motive := fun r : HandlerStep => HostStep ctx r.2) hx hy

theorem forall_ok_bind_eq {α β : Type} {x : Except ParseAbort α} {f : α → Except ParseAbort β}
    {P : β → Prop} (hf : ∀ a, x = .ok a → ∀ b, f a = .ok b → P b) :
    ∀ b, x >>= f = .ok b → P b :=
  forall_ok_bind_of (fun _ h => h) hf

@[simp] theorem encodeUserinfo_host (url : UrlRecord) (seen : Bool) (buffer : List Char) :
    (encodeUserinfo url seen buffer).1.host = url.host := by
  induction buffer generalizing url seen with
  | nil => rfl
  | cons c cs ih => unfold encodeUserinfo; split_ifs <;> simp [ih]

theorem parseSchemeStart_hostStep : HostStep ctx (parseSchemeStart ctx c).2 := by
  unfold parseSchemeStart
  exact hostStep_ite (fun _ => .keep rfl rfl) fun _ =>
    hostStep_ite (fun _ => .keep rfl rfl) fun _ => .keep rfl rfl

theorem parseScheme_hostStep : HostStep ctx (parseScheme ctx c).2 := by
  unfold parseScheme schemeNextState
  refine hostStep_ite (fun _ => .keep rfl rfl) fun _ =>
    hostStep_ite (fun _ => hostStep_ite (fun _ => .keep rfl rfl) fun _ => ?_) fun _ =>
      hostStep_ite (fun _ => .keep rfl rfl) fun _ => .keep rfl rfl
  exact hostStep_ite (fun _ => .keep rfl rfl) fun _ => hostStep_ite (fun _ => .keep rfl rfl)
    fun _ => hostStep_ite (fun _ => .keep rfl rfl) fun _ =>
      hostStep_ite (fun _ => .keep rfl rfl) fun _ => .keep rfl rfl

theorem parseNoScheme_hostStep : HostStep ctx (parseNoScheme ctx c).2 := by
  unfold parseNoScheme
  split
  · exact .keep rfl rfl
  · exact hostStep_ite (fun _ => .keep rfl rfl) fun _ => hostStep_ite (fun _ => .keep rfl rfl)
      fun _ => hostStep_ite (fun _ => .keep rfl rfl) fun _ => .keep rfl rfl

theorem parseSpecialRelativeOrAuthority_hostStep :
    HostStep ctx (parseSpecialRelativeOrAuthority ctx c).2 :=
  hostStep_ite (fun _ => .keep rfl rfl) fun _ => .keep rfl rfl

theorem parsePathOrAuthority_hostStep : HostStep ctx (parsePathOrAuthority ctx c).2 :=
  hostStep_ite (fun _ => .keep rfl rfl) fun _ => .keep rfl rfl

theorem parseRelative_hostStep : ∀ r, parseRelative ctx c = .ok r → HostStep ctx r.2 := by
  unfold parseRelative
  refine forall_ok_valueOf fun b hb => ?_
  exact forall_ok_ite (fun _ => forall_ok_pure (.ofBase rfl hb rfl)) fun _ =>
    forall_ok_ite (fun _ => forall_ok_pure (.keep rfl rfl)) fun _ =>
    forall_ok_ite (fun _ => forall_ok_pure (.ofBase rfl hb rfl)) fun _ =>
    forall_ok_ite (fun _ => forall_ok_pure (.ofBase rfl hb rfl)) fun _ =>
    forall_ok_ite (fun _ => forall_ok_pure (.keep rfl rfl)) fun _ =>
      forall_ok_pure (.ofBase rfl hb rfl)

theorem parseRelativeSlash_hostStep : ∀ r, parseRelativeSlash ctx c = .ok r → HostStep ctx r.2 := by
  unfold parseRelativeSlash
  exact forall_ok_ite (fun _ => forall_ok_pure (.keep rfl rfl)) fun _ =>
    forall_ok_ite (fun _ => forall_ok_pure (.keep rfl rfl)) fun _ =>
      forall_ok_valueOf fun b hb => forall_ok_pure (.ofBase rfl hb rfl)

theorem parseSpecialAuthoritySlashes_hostStep :
    HostStep ctx (parseSpecialAuthoritySlashes ctx c).2 :=
  hostStep_ite (fun _ => .keep rfl rfl) fun _ => .keep rfl rfl

theorem parseSpecialAuthorityIgnoreSlashes_hostStep :
    HostStep ctx (parseSpecialAuthorityIgnoreSlashes ctx c).2 :=
  hostStep_ite (fun _ => .keep rfl rfl) fun _ => .keep rfl rfl

theorem parseAuthority_hostStep : HostStep ctx (parseAuthority ctx c).2 := by
  unfold parseAuthority
  exact hostStep_ite (fun _ => .keep rfl (encodeUserinfo_host _ _ _)) fun _ =>
    hostStep_ite (fun _ => hostStep_ite (fun _ => .keep rfl rfl) fun _ => .keep rfl rfl) fun _ =>
      .keep rfl rfl

theorem parseHostname_hostStep : ∀ r, parseHostname ctx c = .ok r → HostStep ctx r.2 := by
  unfold parseHostname
  refine forall_ok_ite (fun _ => forall_ok_pure (.keep rfl rfl)) fun _ =>
    forall_ok_ite (fun _ => forall_ok_ite (fun _ => forall_ok_pure (.keep rfl rfl)) fun _ =>
      forall_ok_bind_eq fun o ho => ?_) fun _ =>
    forall_ok_ite (fun _ => forall_ok_ite (fun _ => forall_ok_pure (.keep rfl rfl)) fun _ =>
      forall_ok_bind_eq fun o ho => ?_) fun _ => forall_ok_pure (.keep rfl rfl)
  · cases o with
    | none => exact forall_ok_pure (.keep rfl rfl)
    | some h => exact forall_ok_ite (fun _ => forall_ok_pure (.parsed rfl ho rfl)) fun _ =>
        forall_ok_pure (.parsed rfl ho rfl)
  · cases o with
    | none => exact forall_ok_pure (.keep rfl rfl)
    | some h => exact forall_ok_pure (.parsed rfl ho rfl)

theorem parsePort_hostStep : HostStep ctx (parsePort ctx c).2 := by
  unfold parsePort portDone
  exact hostStep_ite (fun _ => .keep rfl rfl) fun _ => hostStep_ite (fun _ =>
    hostStep_ite (fun _ => hostStep_ite (fun _ => .keep rfl rfl) fun _ => .keep rfl rfl) fun _ =>
      hostStep_ite (fun _ => .keep rfl rfl) fun _ =>
        hostStep_ite (fun _ => .keep rfl rfl) fun _ => .keep rfl rfl) fun _ => .keep rfl rfl

theorem parseFile_hostStep : HostStep ctx (parseFile ctx c).2 := by
  rcases ctx with ⟨_, _, base⟩
  unfold parseFile
  refine hostStep_ite (fun _ => .keep rfl rfl) fun _ => ?_
  cases base with
  | none => exact .keep rfl rfl
  | some b =>
    exact hostStep_ite (fun _ => .keep rfl rfl) fun _ =>
      hostStep_ite (fun _ => .ofBase rfl rfl rfl) fun _ =>
      hostStep_ite (fun _ => .ofBase rfl rfl rfl) fun _ =>
      hostStep_ite (fun _ => .ofBase rfl rfl rfl) fun _ =>
      hostStep_ite (fun _ => .ofBase rfl rfl rfl) fun _ => .keep rfl rfl

theorem parseFileSlash_hostStep : HostStep ctx (parseFileSlash ctx c).2 := by
  rcases ctx with ⟨_, _, base⟩
  unfold parseFileSlash
  refine hostStep_ite (fun _ => .keep rfl rfl) fun _ => ?_
  cases base with
  | none => exact .keep rfl rfl
  | some b =>
    dsimp only
    split_ifs
    · split
      · split_ifs
        · exact .keep rfl rfl
        · exact .ofBase rfl rfl rfl
      · exact .ofBase rfl rfl rfl
    · exact .keep rfl rfl

/-- In the file states the URL is special, so `parse_file_host` passes `false`. -/
theorem parseFileHost_hostStep (hsp : ctx.url.isSpecial = true) :
    ∀ r, parseFileHost ctx c = .ok r → HostStep ctx r.2 := by
  unfold parseFileHost
  refine forall_ok_ite (fun _ => ?_) fun _ => forall_ok_pure (.keep rfl rfl)
  refine forall_ok_ite (fun _ => forall_ok_pure (.keep rfl rfl)) fun _ =>
    forall_ok_ite (fun _ => forall_ok_ite (fun _ => forall_ok_pure (.clear rfl rfl)) fun _ =>
      forall_ok_pure (.clear rfl rfl)) fun _ => forall_ok_bind_eq fun o ho => ?_
  rw [show ctx.decrement.url.isSpecial = true from hsp, Bool.not_true] at ho
  cases o with
  | none => exact forall_ok_pure (.keep rfl rfl)
  | some h =>
    have hs : HostStep ctx { ctx.decrement with
        url := { ctx.url with host := some (if h = "localhost".toList then [] else h) } } := by
      split
      · exact .clear rfl rfl
      · exact .parsed rfl ho rfl
    exact forall_ok_ite (fun _ => forall_ok_pure hs) fun _ => forall_ok_pure ⟨hs.base, hs.host⟩

theorem parsePathStart_hostStep : HostStep ctx (parsePathStart ctx c).2 := by
  unfold parsePathStart
  exact hostStep_ite (fun _ => hostStep_ite (fun _ => .keep rfl rfl) fun _ => .keep rfl rfl)
    fun _ => hostStep_ite (fun _ => .keep rfl rfl) fun _ =>
      hostStep_ite (fun _ => .keep rfl rfl) fun _ =>
      hostStep_ite (fun _ => hostStep_ite (fun _ => .keep rfl rfl) fun _ => .keep rfl rfl)
        fun _ => .keep rfl rfl

theorem pathSegment_host {url : UrlRecord} {buffer : List Char} :
    ∀ p, pathSegment url buffer = .ok p → p.2 = url.host ∨ p.2 = some [] := by
  unfold pathSegment
  exact forall_ok_ite (fun _ => forall_ok_bind fun _ => forall_ok_pure (.inr rfl)) fun _ =>
    forall_ok_pure (.inl rfl)

theorem parsePath_hostStep : ∀ r, parsePath ctx c = .ok r → HostStep ctx r.2 := by
  let Q (u : UrlRecord) : Prop := u.host = ctx.url.host ∨ u.host = some []
  have hQ : ∀ {u : UrlRecord} {ctx' : UrlParserContext}, Q u → ctx'.base = ctx.base →
      ctx'.url.host = u.host → HostStep ctx ctx' := fun hu hb hh => by
    rcases hu with hu | hu
    exacts [.keep hb (hh.trans hu), .clear hb (hh.trans hu)]
  unfold parsePath
  refine forall_ok_ite (fun _ => ?_) fun _ => forall_ok_pure (.keep rfl rfl)
  refine forall_ok_ite (fun _ => forall_ok_bind_of (Q := Q) (forall_ok_pure (.inl rfl))
      fun u hu => ?_) fun _ =>
    forall_ok_ite (fun _ => forall_ok_bind_of (Q := Q) (forall_ok_pure (iteInduction (motive := Q)
      (fun _ => .inl rfl) fun _ => .inl rfl)) fun u hu => ?_) fun _ =>
    forall_ok_bind_of pathSegment_host fun p hp =>
      forall_ok_bind_of (Q := Q) (forall_ok_pure hp) fun u hu => ?_
  all_goals
    have hu' : Q (if u.scheme = "file".toList ∧ (ctx.isEof ∨ c = '?' ∨ c = '#') then
        { u with path := popLeadingEmpty u.path } else u) := by
      split <;> exact hu
    exact forall_ok_ite (fun _ => forall_ok_pure (hQ hu' rfl rfl)) fun _ =>
      forall_ok_ite (fun _ => forall_ok_pure (hQ hu' rfl rfl)) fun _ =>
        forall_ok_pure (hQ hu' rfl rfl)

theorem parseCannotBeABaseUrl_hostStep :
    ∀ r, parseCannotBeABaseUrl ctx c = .ok r → HostStep ctx r.2 := by
  unfold parseCannotBeABaseUrl
  refine forall_ok_ite (fun _ => forall_ok_pure (.keep rfl rfl)) fun _ =>
    forall_ok_ite (fun _ => forall_ok_pure (.keep rfl rfl)) fun _ =>
      forall_ok_ite (fun _ => ?_) fun _ => forall_ok_pure (.keep rfl rfl)
  split
  · exact forall_ok_pure (.keep rfl rfl)
  · exact forall_ok_throw

theorem parseQuery_hostStep : ∀ r, parseQuery ctx c = .ok r → HostStep ctx r.2 := by
  unfold parseQuery
  exact forall_ok_ite (fun _ => forall_ok_pure (.keep rfl rfl)) fun _ =>
    forall_ok_ite (fun _ => forall_ok_valueOf fun _ _ => forall_ok_pure (.keep rfl rfl)) fun _ =>
      forall_ok_pure (.keep rfl rfl)

theorem parseFragment_hostStep : ∀ r, parseFragment ctx c = .ok r → HostStep ctx r.2 := by
  unfold parseFragment
  exact forall_ok_ite (fun _ => forall_ok_pure (.keep rfl rfl)) fun _ =>
    forall_ok_valueOf fun _ _ => forall_ok_pure (.keep rfl rfl)

end Handlers

/-- **Every handler sets the host only from `parse_host`, the base, or to empty**, in a run
without a state override. -/
theorem dispatch_hostStep {ctx : UrlParserContext} (h : RunShape ctx) :
    ∀ r, dispatch ctx = .ok r → HostStep ctx r.2 := by
  unfold dispatch
  cases hs : ctx.state with
  | schemeStart => exact forall_ok_pure (parseSchemeStart_hostStep _)
  | scheme => exact forall_ok_pure (parseScheme_hostStep _)
  | noScheme => exact forall_ok_pure (parseNoScheme_hostStep _)
  | specialRelativeOrAuthority => exact forall_ok_pure (parseSpecialRelativeOrAuthority_hostStep _)
  | pathOrAuthority => exact forall_ok_pure (parsePathOrAuthority_hostStep _)
  | relative => exact parseRelative_hostStep _
  | relativeSlash => exact parseRelativeSlash_hostStep _
  | specialAuthoritySlashes => exact forall_ok_pure (parseSpecialAuthoritySlashes_hostStep _)
  | specialAuthorityIgnoreSlashes =>
    exact forall_ok_pure (parseSpecialAuthorityIgnoreSlashes_hostStep _)
  | authority => exact forall_ok_pure (parseAuthority_hostStep _)
  | host | hostname => exact parseHostname_hostStep _
  | port => exact forall_ok_pure (parsePort_hostStep _)
  | file => exact forall_ok_pure (parseFile_hostStep _)
  | fileSlash => exact forall_ok_pure (parseFileSlash_hostStep _)
  | fileHost =>
    have hf : StateFacts .fileHost ctx := hs ▸ h.facts
    exact parseFileHost_hostStep _ (by rw [UrlRecord.isSpecial, hf.1]; rfl)
  | pathStart => exact forall_ok_pure (parsePathStart_hostStep _)
  | path => exact parsePath_hostStep _
  | cannotBeABaseUrlPath => exact parseCannotBeABaseUrl_hostStep _
  | query => exact parseQuery_hostStep _
  | fragment => exact parseFragment_hostStep _

/-! ## Every run -/

/-- The hosts of the record and of the base are canonical or empty. -/
structure HostsCanonical (ctx : UrlParserContext) : Prop where
  url : ∀ h, ctx.url.host = some h → CanonicalHost h
  base : ∀ b, ctx.base = some b → ∀ h, b.host = some h → CanonicalHost h

theorem HostsCanonical.of_hostStep {ctx ctx' : UrlParserContext} (h : HostsCanonical ctx)
    (hs : HostStep ctx ctx') : HostsCanonical ctx' where
  url x hx := by
    rcases hs.host with hh | hh | ⟨b, hb, hh⟩ | ⟨buf, y, hp, hh⟩
    · exact h.url x (hh ▸ hx)
    · cases hh.symm.trans hx; exact canonicalHost_nil
    · exact h.base b hb x (hh ▸ hx)
    · cases hh.symm.trans hx; exact canonicalHost_of_parseHost hp
  base b hb := h.base b (hs.base ▸ hb)

/-- A pass of the loop that goes round keeps the shape and the canonical hosts. -/
theorem hostsCanonical_step {ctx ctx' : UrlParserContext} (h : RunShape ctx ∧ HostsCanonical ctx)
    (hs : Step ctx ctx') : RunShape ctx' ∧ HostsCanonical ctx' := by
  refine ⟨runShape_step h.1 hs, ?_⟩
  obtain ⟨a, c, hd, ⟨-, rfl⟩ | ⟨-, -, rfl⟩⟩ := step_iff.1 hs
  · exact h.2.of_hostStep (dispatch_hostStep h.1 _ hd)
  · have hc := h.2.of_hostStep (dispatch_hostStep h.1 _ hd)
    exact ⟨hc.url, hc.base⟩

/-- **Every host a parse stores reads back.**  For a base that has the parse's shape and whose
host reads back, the host of every record that a parse without a state override returns,
written as a URL writes it, is returned unchanged by `parse_host(_, false)`. -/
theorem parse_host_reads_back {input : List Char} {base : Option UrlRecord} {r : UrlRecord}
    (hbs : ∀ b, base = some b → b.Shaped)
    (hbh : ∀ b, base = some b → ∀ h, b.host = some h → parseHost (hostText h) false = .ok (some h))
    (hp : Parses input base none none (.ok r)) :
    ∀ h, r.host = some h → parseHost (hostText h) false = .ok (some h) := by
  obtain ⟨ctx, hrun, hdone⟩ := parses_iff_terminates.1 hp
  have hinit : HostsCanonical (UrlParserContext.init input base none none) :=
    ⟨fun _ h => (by cases h), fun b hb h hh => canonicalHost_of_parseHost (hbh b hb h hh)⟩
  have hc := steps_invariant (fun _ _ => hostsCanonical_step) hrun ⟨runShape_init hbs, hinit⟩
  obtain ⟨e, -, he⟩ | ⟨a, c, hd, hr, -⟩ := done_iff.1 hdone
  · cases he
  · cases hr
    exact fun h hh => ((hc.2.of_hostStep (dispatch_hostStep hc.1 _ hd)).url h hh).readsBack

theorem parse_host_reads_back_ipv6 :
    ((∀ b, (none : Option UrlRecord) = some b → b.Shaped) ∧
      (∀ b, (none : Option UrlRecord) = some b → ∀ h, b.host = some h →
        parseHost (hostText h) false = .ok (some h)) ∧
      Parses "http://[1:0:0:0:0:FFFF:0:1]/".toList none none none
        (.ok { scheme := "http".toList, host := some "1::ffff:0:1".toList, path := [[]] })) ∧
      ∀ h, some "1::ffff:0:1".toList = some h → parseHost (hostText h) false = .ok (some h) :=
  have hbs : ∀ b, (none : Option UrlRecord) = some b → b.Shaped := nofun
  have hbh : ∀ b, (none : Option UrlRecord) = some b → ∀ h, b.host = some h →
      parseHost (hostText h) false = .ok (some h) := nofun
  have hp : Parses "http://[1:0:0:0:0:FFFF:0:1]/".toList none none none
      (.ok { scheme := "http".toList, host := some "1::ffff:0:1".toList, path := [[]] }) :=
    ⟨60, by decide⟩
  ⟨⟨hbs, hbh, hp⟩, parse_host_reads_back hbs hbh hp⟩

end SkyrUrl
