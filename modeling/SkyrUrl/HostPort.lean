import SkyrUrl.Ipv4

/-!
# The authority, host and port states

What `parse_authority` does with an empty host, what `parse_hostname`, `parse_file_host` and
`parse_port` hand to `parse_host` and `is_valid_port`, and what they store.

* `parse_authority` returns `fail` when the authority ends right after an `@`, and the driver
  goes on as for `increment`: `http://u@` returns a record with no host, and `http://u@/x`
  takes `x` for its host (`userinfo_without_host_parses`).
* `hostParseArgument ctx` is the buffer that the pass at `ctx` hands to `parse_host`, if it
  calls it; the host states set the record's host only from `parse_host` of that buffer
  (`host_from_parseHost`).  With a special scheme the buffer is never empty
  (`hostParseArgument_ne_nil`); an empty authority of a non-special URL reaches `parse_host`
  with an empty buffer (`parseHost_called_with_empty_buffer`).
* `parse_hostname` passes `is_not_special = false` whatever the scheme, so a non-special host
  is parsed as a domain and not as an opaque host (`nonSpecial_host_parsed_as_domain`).
* A host that `parse_host` returns is a fixed point of it (`parseHost_idempotent`), and so
  is an opaque host (`parseHost_opaque_idempotent`).
* On a non-empty string of digits `is_valid_port` compares the value with 65535 using `<`
  (`isValidPort_digits`, `parsePort_digits`), so the port 65535 is rejected
  (`port_65535_rejected`).
-/

namespace SkyrUrl

open UrlParserContext

/-! ## The userinfo -/

/-- **An empty host after the userinfo is not an error.**  At the end of `http://u@` the
authority state has seen an `@` and holds an empty buffer, so `parse_authority` returns
`fail`; the driver goes on as for `increment` and the parse returns the record with the
username and no host.  With `/x` after the `@` the same `fail` is passed over at the `/`, and
`x` is read as the host. -/
theorem userinfo_without_host_parses :
    (∃ ctx, Relation.ReflTransGen Step (init "http://u@".toList none none none) ctx ∧
      ctx.state = .authority ∧ failsAt ctx = true) ∧
    Parses "http://u@".toList none none none
      (.ok { scheme := "http".toList, username := "u".toList }) ∧
    Parses "http://u@/x".toList none none none
      (.ok { scheme := "http".toList, username := "u".toList, host := some "x".toList,
             path := [[]] }) :=
  ⟨⟨_, @steps_of_passes 9 _ _ rfl, rfl, by decide⟩, ⟨20, by decide⟩, ⟨30, by decide⟩⟩

/-! ## The calls of `parse_host` -/

/-- The buffer that `parse_hostname` hands to `parse_host` at `ctx`: in the `:` branch and in
the end-of-host branch, once their empty-buffer checks pass. -/
def hostnameArgument (ctx : UrlParserContext) : Option (List Char) :=
  if ctx.stateOverride.isSome ∧ ctx.url.scheme = "file".toList then none
  else if ctx.byte = ':' ∧ !ctx.squareBracesFlag then
    if ctx.buffer = [] then none else some ctx.buffer
  else if isAuthorityEnd ctx ctx.byte then
    if ctx.url.isSpecial ∧ ctx.buffer = [] then none else some ctx.buffer
  else none

/-- The buffer that `parse_file_host` hands to `parse_host` at `ctx`: at the end of the host,
when it is neither a drive letter nor empty. -/
def fileHostArgument (ctx : UrlParserContext) : Option (List Char) :=
  if ctx.isEof ∨ ctx.byte = '/' ∨ ctx.byte = '\\' ∨ ctx.byte = '?' ∨ ctx.byte = '#' then
    if ctx.stateOverride = none ∧ isWindowsDriveLetter ctx.buffer then none
    else if ctx.buffer = [] then none
    else some ctx.buffer
  else none

/-- The buffer that the pass at `ctx` hands to `parse_host`, if its handler calls it. -/
def hostParseArgument (ctx : UrlParserContext) : Option (List Char) :=
  match ctx.state with
  | .host | .hostname => hostnameArgument ctx
  | .fileHost => fileHostArgument ctx
  | _ => none

/-- **The host states take their host from `parse_host`.**  A pass of the host or the
hostname state that changes the record's host sets it to what `parse_host` returns for
`hostParseArgument`. -/
theorem host_from_parseHost {ctx ctx' : UrlParserContext} {a : UrlParseAction}
    (hs : ctx.state = .host ∨ ctx.state = .hostname) (hd : dispatch ctx = .ok (a, ctx'))
    (hh : ctx'.url.host ≠ ctx.url.host) :
    ∃ h, hostParseArgument ctx = some h ∧ parseHost h false = .ok ctx'.url.host := by
  have hd' : parseHostname ctx ctx.byte = .ok (a, ctx') := by
    rcases hs with hs | hs <;> simpa [dispatch, parseFuncs, hs] using hd
  have harg : hostParseArgument ctx = hostnameArgument ctx := by
    rcases hs with hs | hs <;> simp only [hostParseArgument, hs]
  rw [harg]
  unfold parseHostname at hd'
  dsimp only at hd'
  split_ifs at hd' <;> (try simp only [pure_eq_ok, Prod.mk.injEq] at hd')
  all_goals first
    | (obtain ⟨-, rfl⟩ := hd'; exact absurd rfl hh)
    | obtain ⟨r, hr, hk⟩ := bind_eq_ok.1 hd'
      rcases r with _ | host
      · obtain ⟨-, rfl⟩ := Prod.mk.inj (pure_eq_ok.1 hk); exact absurd rfl hh
      · refine ⟨ctx.buffer, by unfold hostnameArgument; split_ifs <;> simp_all [decrement], ?_⟩
        obtain ⟨-, rfl⟩ := Prod.mk.inj (pure_eq_ok.1 hk); exact hr

/-- **With a special scheme, `parse_host` gets a non-empty buffer.**  Every call of
`parse_host` made while the record's scheme is special receives a non-empty buffer, so its
`front()` and `back()` read inside the view. -/
theorem hostParseArgument_ne_nil {ctx : UrlParserContext} {h : List Char}
    (hh : hostParseArgument ctx = some h) (hs : ctx.url.isSpecial) : h ≠ [] := by
  revert hh
  unfold hostParseArgument hostnameArgument fileHostArgument
  split <;> (try split_ifs) <;> intro hh <;> cases hh <;> simp_all

/-- **An empty authority reaches `parse_host` with an empty buffer.**  For `foo://` the
hostname state reaches the end of the input with an empty buffer; the scheme is not special,
so `parse_hostname` calls `parse_host("")`, whose first `front()` reads outside the empty view;
the model reads a NUL there, and the parse returns the empty host. -/
theorem parseHost_called_with_empty_buffer :
    ∃ ctx, Relation.ReflTransGen Step (init "foo://".toList none none none) ctx ∧
      hostParseArgument ctx = some [] ∧ ctx.url.isSpecial = false ∧
      Parses "foo://".toList none none none (.ok { scheme := "foo".toList, host := some [] }) :=
  ⟨_, @steps_of_passes 6 _ _ rfl, by decide, by decide, ⟨10, by decide⟩⟩

/-- **A non-special host is parsed as a domain.**  `parse_hostname` calls
`parse_host(buffer, false)` whatever the scheme, so the host `AB` of the non-special URL
`foo://AB` is lowercased, where `parse_opaque_host` keeps it as it is. -/
theorem nonSpecial_host_parsed_as_domain :
    Parses "foo://AB".toList none none none
        (.ok { scheme := "foo".toList, host := some "ab".toList }) ∧
      parseOpaqueHost "AB".toList = some "AB".toList :=
  ⟨⟨12, by decide⟩, by decide⟩

/-! ## Canonical hosts -/

theorem pctDecodeFrom_of_not_mem : ∀ {l : List Char}, '%' ∉ l → pctDecodeFrom 0 l = l
  | [], _ => rfl
  | c :: rest, h => by
    have ih : pctDecodeFrom 0 rest = rest :=
      pctDecodeFrom_of_not_mem fun e => h (List.mem_cons_of_mem _ e)
    rw [pctDecodeFrom.eq_def]
    simp only
    split
    · simp_all
    · rw [ih]

theorem toLower_toLower (c : Char) : c.toLower.toLower = c.toLower := by
  simp only [Char.toLower]
  split
  · rw [if_neg (by rw [charToNat_ofNat (by omega)]; omega)]
  · rfl

/-- `parse_ipv4_address` returns its input or a dotted-decimal address. -/
theorem parseIpv4Address_cases {input h : List Char} (hp : parseIpv4Address input = some h) :
    h = input ∨ ∃ m, h = ipv4ToString m := by
  dsimp only [parseIpv4Address] at hp
  repeat' split at hp
  all_goals first
    | exact .inl (Option.some.inj hp).symm
    | exact .inr ⟨_, (Option.some.inj hp).symm⟩
    | simp at hp

theorem mem_ipv4ToString {m : Nat} {c : Char} (h : c ∈ ipv4ToString m) :
    c = '.' ∨ ∃ k < 10, c = Nat.digitChar k := by
  simp only [ipv4ToString, List.mem_append, List.mem_singleton] at h
  rcases h with ((((((h | h) | h) | h) | h) | h) | h) <;>
    first | exact .inl h | exact .inr (mem_toDigits_ten h)

/-- A lowercase domain without forbidden bytes goes straight to the IPv4 parser. -/
theorem parseHost_of_domain {a : List Char} (hf : a.any isForbiddenHostPoint = false)
    (hl : a.map Char.toLower = a) : parseHost a false = pure (parseIpv4Address a) := by
  have hmem : ∀ c ∈ a, isForbiddenHostPoint c = false := by simpa using hf
  have hb : a.headD '\x00' ≠ '[' := by
    cases a with
    | nil => decide
    | cons c _ =>
      intro e
      have := hmem c (List.mem_cons_self _ _)
      simp only [List.headD_cons] at e
      subst e; revert this; decide
  have hp : '%' ∉ a := fun h => by simpa [isForbiddenHostPoint] using hmem '%' h
  rw [parseHost, if_neg hb]
  simp [pctDecode, pctDecodeFrom_of_not_mem hp, domainToAscii, hl, hf]

/-- **Canonical hosts are fixed points.**  A host `h'` that `parse_host(h, false)` returns for
an `h` that does not start with `[` is returned unchanged by `parse_host(h', false)`: a domain
is already decoded and lowercase, and a dotted-decimal address reads back as itself. -/
theorem parseHost_idempotent {h h' : List Char} (hb : h.headD '\x00' ≠ '[')
    (hp : parseHost h false = .ok (some h')) : parseHost h' false = .ok (some h') := by
  simp only [parseHost, hb, if_false, Bool.false_eq_true] at hp
  split at hp
  · simp at hp
  · rename_i hf
    simp only [Bool.not_eq_true] at hf
    have hv := pure_eq_ok.1 hp
    rcases parseIpv4Address_cases hv with rfl | ⟨m, rfl⟩
    · rw [parseHost_of_domain hf
        (by simp [domainToAscii, List.map_map, Function.comp_def, toLower_toLower]), hv]
      rfl
    · have hc : ∀ c ∈ ipv4ToString m, isForbiddenHostPoint c = false ∧ c.toLower = c := by
        intro c hc
        rcases mem_ipv4ToString hc with rfl | ⟨k, hk, rfl⟩
        · decide
        · clear hc; revert k; decide
      rw [parseHost_of_domain (by simpa using fun c h => (hc c h).1)
        ((List.map_congr_left fun c h => (hc c h).2).trans (List.map_id _)),
        parseIpv4Address_ipv4ToString]
      rfl

theorem parseHost_idempotent_hex :
    "0x7F.1".toList.headD '\x00' ≠ '[' ∧
      parseHost "0x7F.1".toList false = .ok (some "127.0.0.1".toList) ∧
      parseHost "127.0.0.1".toList false = .ok (some "127.0.0.1".toList) :=
  ⟨by decide, rfl, parseHost_idempotent (h := "0x7F.1".toList) (by decide) rfl⟩

/-- A byte of the encoding of an allowed byte of an opaque host is printable and allowed:
`%` and the uppercase hex digits of an escape, or the byte itself. -/
theorem opaque_encoded_byte {c d : Char} (hc : isForbiddenOpaqueHostPoint c = false)
    (hd : d ∈ pctEncodeChar c) :
    0x20 ≤ d.toNat ∧ d.toNat ≤ 0x7E ∧ isForbiddenOpaqueHostPoint d = false := by
  have hesc : ∀ k < 16, 0x20 ≤ (hexDigit k).toNat ∧ (hexDigit k).toNat ≤ 0x7E ∧
      isForbiddenOpaqueHostPoint (hexDigit k) = false := by decide
  unfold pctEncodeChar at hd
  split_ifs at hd with h
  · simp only [List.mem_cons, List.mem_singleton, List.not_mem_nil, or_false] at hd
    rcases hd with rfl | rfl | rfl
    · decide
    · exact hesc _ (Nat.mod_lt _ (by omega))
    · exact hesc _ (Nat.mod_lt _ (by omega))
  · rw [List.mem_singleton] at hd
    subst hd
    simp only [List.not_mem_nil, or_false, not_or, not_lt] at h
    exact ⟨h.1, h.2, hc⟩

/-- An opaque host that `parse_opaque_host` returns is returned unchanged by it. -/
theorem parseOpaqueHost_idempotent {h h' : List Char} (hp : parseOpaqueHost h = some h') :
    parseOpaqueHost h' = some h' := by
  unfold parseOpaqueHost at hp
  split at hp
  · cases hp
  · rename_i hf
    cases hp
    have hb : ∀ d ∈ h.flatMap (pctEncodeChar ·),
        0x20 ≤ d.toNat ∧ d.toNat ≤ 0x7E ∧ isForbiddenOpaqueHostPoint d = false := fun d hd => by
      obtain ⟨c, hc, hd⟩ := List.mem_flatMap.1 hd
      exact opaque_encoded_byte (by simpa using List.any_eq_false.1 (by simpa using hf) c hc) hd
    have hcopy : ∀ d ∈ h.flatMap (pctEncodeChar ·), pctEncodeChar d = [d] := fun d hd => by
      rw [pctEncodeChar, if_neg]
      simp only [List.not_mem_nil, or_false, not_or, not_lt]
      exact ⟨(hb d hd).1, (hb d hd).2.1⟩
    rw [parseOpaqueHost, if_neg (by
        rw [Bool.not_eq_true, List.any_eq_false]; exact fun d hd => by simp [(hb d hd).2.2]),
      List.flatMap_congr hcopy, List.flatMap_singleton']

/-- **Opaque hosts are fixed points too.**  A host `h'` that `parse_host(h, true)` returns for
an `h` that does not start with `[` is returned unchanged by `parse_host(h', true)`: its
escapes and its other bytes are all printable and allowed in an opaque host. -/
theorem parseHost_opaque_idempotent {h h' : List Char} (hb : h.headD '\x00' ≠ '[')
    (hp : parseHost h true = .ok (some h')) : parseHost h' true = .ok (some h') := by
  rw [parseHost, if_neg hb, if_pos rfl, pure_eq_ok] at hp
  have hq := parseOpaqueHost_idempotent hp
  have hb' : h'.headD '\x00' ≠ '[' := by
    cases h' with
    | nil => decide
    | cons d t =>
      intro e
      simp only [List.headD_cons] at e
      subst e
      unfold parseOpaqueHost at hq
      split at hq
      · cases hq
      · rename_i hf
        simp [isForbiddenOpaqueHostPoint] at hf
  rw [parseHost, if_neg hb', if_pos rfl, hq]
  rfl

theorem parseHost_opaque_idempotent_escape :
    "a\x7fb".toList.headD '\x00' ≠ '[' ∧ parseHost "a\x7fb".toList true = .ok (some "a%7Fb".toList) ∧
      parseHost "a%7Fb".toList true = .ok (some "a%7Fb".toList) :=
  have hp : parseHost "a\x7fb".toList true = .ok (some "a%7Fb".toList) := rfl
  ⟨by decide, hp, parseHost_opaque_idempotent (by decide) hp⟩

/-! ## The port -/

theorem digitValue_of_isDigit {c : Char} (h : c.isDigit) : (digitValue 10 c).isSome := by
  have : c.toNat ≤ 57 := by
    simp only [Char.isDigit, Bool.and_eq_true, decide_eq_true_eq, UInt32.le_def,
      BitVec.le_def] at h
    simp only [Char.toNat, UInt32.toNat]; simp at h; omega
  simp [digitValue, h, Option.filter]; omega

theorem digitsValue_of_isSome {R : Nat} : ∀ {l : List Char} (acc : Nat),
    (∀ c ∈ l, (digitValue R c).isSome) → ∃ v, digitsValue R l acc = some v
  | [], acc, _ => ⟨acc, rfl⟩
  | c :: l, acc, h => by
    obtain ⟨d, hd⟩ := Option.isSome_iff_exists.1 (h c (List.mem_cons_self _ _))
    obtain ⟨v, hv⟩ : ∃ v, digitsValue R l (acc * R + d) = some v :=
      digitsValue_of_isSome _ fun x hx => h x (List.mem_cons_of_mem _ hx)
    exact ⟨v, by simp [digitsValue, hd] at hv ⊢; exact hv⟩

/-- On a non-empty string of decimal digits, `is_valid_port` holds exactly when the value is
below 65535; a value beyond `ULONG_MAX` saturates and fails too. -/
theorem isValidPort_digits {p : List Char} (hp : p ≠ []) (hd : ∀ c ∈ p, c.isDigit) :
    isValidPort p = decide (atoi p < 65535) := by
  obtain ⟨v, hv⟩ := digitsValue_of_isSome 0 fun c hc => digitValue_of_isDigit (hd c hc)
  have ha : atoi p = v := by simp [atoi, readDigits_of_digitsValue 0 hv]
  unfold isValidPort
  rw [strtoul_of_digitsValue (by omega) hp hv, ha]
  by_cases h64 : 2 ^ 64 ≤ v
  · rw [if_pos h64]; simp [hp]; omega
  · rw [if_neg h64]; simp [hp]

/-- **The port state at a terminator.**  With a non-empty buffer of digits, `parse_port`
stores the value (none for the scheme's default port) when it is below 65535, and fails
otherwise. -/
theorem parsePort_digits {ctx : UrlParserContext} {c : Char} (hc : c.isDigit = false)
    (hend : isAuthorityEnd ctx c ∨ ctx.stateOverride.isSome) (hp : ctx.buffer ≠ [])
    (hd : ∀ x ∈ ctx.buffer, x.isDigit) :
    parsePort ctx c =
      if atoi ctx.buffer < 65535 then
        portDone { ctx with
          url := { ctx.url with
            port := if isDefaultPort ctx.url.scheme (atoi ctx.buffer) then none
              else some (atoi ctx.buffer) }
          buffer := [] }
      else (.fail, ctx) := by
  simp only [parsePort, hc, Bool.false_eq_true, if_false, hend, if_true, hp,
    isValidPort_digits hp hd]
  by_cases h : atoi ctx.buffer < 65535 <;> simp [h]

/-- **The port 65535 is rejected.**  `is_valid_port` compares with `uint16_t`'s maximum using
`<`: the port state fails on `65535`, the driver goes on as for `increment`, and at the end
of the input the record is returned without a port (and without a path). -/
theorem port_65535_rejected :
    atoi "65535".toList = 65535 ∧ isValidPort "65535".toList = false ∧
      Parses "http://h:65535".toList none none none
        (.ok { scheme := "http".toList, host := some "h".toList }) :=
  ⟨by decide, by decide, ⟨30, by decide⟩⟩

end SkyrUrl
