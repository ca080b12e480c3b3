import SkyrUrl.WellFormed

/-!
# Slash variants of an input

`SlashVariant s t`: `t` is `s` with some of the `/` bytes before its first `?` or `#`
replaced by `\`.  Sanitizing keeps the relation (`SlashVariant.sanitize`), and a variant names
the same scheme (`SlashVariant.inputScheme_eq`), where `inputScheme` is the scheme that the
scheme-start and scheme states read off an input and `effectiveScheme` the scheme a parse
against a base goes by.
-/

namespace SkyrUrl

/-! ## The scheme an input names -/

/-- The scheme state's reading of the bytes after a scheme's first letter: scheme bytes,
lowercased, up to a `:`; `none` when another byte or the end comes first. -/
def schemeBytes : List Char → Option (List Char)
  | [] => none
  | c :: cs =>
    if isSchemeChar c then (schemeBytes cs).map (c.toLower :: ·)
    else if c = ':' then some []
    else none

/-- The scheme an input names, as the scheme-start and scheme states read it: an ASCII letter
and scheme bytes up to a `:`, lowercased. -/
def inputScheme : List Char → Option (List Char)
  | [] => none
  | c :: cs => if c.isAlpha then (schemeBytes cs).map (c.toLower :: ·) else none

/-- The scheme that decides how `basic_parse` reads an input against a base: the sanitized
input's own, else the base's. -/
def effectiveScheme (input : List Char) (base : Option UrlRecord) : Option (List Char) :=
  match inputScheme (sanitize input) with
  | some scheme => some scheme
  | none => base.map (·.scheme)

theorem schemeBytes_eq_some {cs B : List Char} (h : schemeBytes cs = some B) :
    ∃ sch rest, cs = sch ++ ':' :: rest ∧ sch.all isSchemeChar ∧ B = sch.map Char.toLower := by
  induction cs generalizing B with
  | nil => simp [schemeBytes] at h
  | cons c cs ih =>
    unfold schemeBytes at h
    split_ifs at h with hc hcolon
    · obtain ⟨B', hB', rfl⟩ := Option.map_eq_some'.1 h
      obtain ⟨sch, rest, rfl, hsch, rfl⟩ := ih hB'
      exact ⟨c :: sch, rest, rfl, by simp [hc, hsch], rfl⟩
    · cases h
      exact ⟨[], cs, by simp [hcolon], rfl, rfl⟩

theorem schemeBytes_eq_none {cs : List Char} (h : schemeBytes cs = none) :
    ∃ sch rest, cs = sch ++ rest ∧ sch.all isSchemeChar ∧
      isSchemeChar (rest.headD '\x00') = false ∧ rest.headD '\x00' ≠ ':' := by
  induction cs with
  | nil => exact ⟨[], [], rfl, rfl, rfl, by decide⟩
  | cons c cs ih =>
    unfold schemeBytes at h
    split_ifs at h with hc hcolon
    · obtain ⟨sch, rest, rfl, hsch, hr⟩ := ih (Option.map_eq_none'.1 h)
      exact ⟨c :: sch, rest, rfl, by simp [hc, hsch], hr⟩
    · exact ⟨[], c :: cs, rfl, rfl, by simpa using hc, hcolon⟩

theorem inputScheme_eq_some {l B : List Char} (h : inputScheme l = some B) :
    ∃ sch rest, l = sch ++ ':' :: rest ∧ isScheme sch ∧ B = sch.map Char.toLower := by
  obtain _ | ⟨c, cs⟩ := l
  · cases h
  simp only [inputScheme] at h
  split_ifs at h with hc
  obtain ⟨B', hB', rfl⟩ := Option.map_eq_some'.1 h
  obtain ⟨sch, rest, rfl, hsch, rfl⟩ := schemeBytes_eq_some hB'
  exact ⟨c :: sch, rest, rfl, by simp [isScheme, hc, hsch], rfl⟩

theorem inputScheme_eq_none {l : List Char} (h : inputScheme l = none) :
    (l.headD '\x00').isAlpha = false ∨
      ∃ sch rest, l = sch ++ rest ∧ isScheme sch ∧ isSchemeChar (rest.headD '\x00') = false ∧
        rest.headD '\x00' ≠ ':' := by
  obtain _ | ⟨c, cs⟩ := l
  · exact .inl (by decide)
  simp only [inputScheme] at h
  split_ifs at h with hc
  · obtain ⟨sch, rest, rfl, hsch, hr⟩ := schemeBytes_eq_none (Option.map_eq_none'.1 h)
    exact .inr ⟨c :: sch, rest, rfl, by simp [isScheme, hc, hsch], hr⟩
  · exact .inl (by simpa using hc)

/-! ## The relation -/

/-- `t` is `s` with some of its `/` bytes before the first `?` or `#` replaced by `\`. -/
inductive SlashVariant : List Char → List Char → Prop
  | refl (s : List Char) : SlashVariant s s
  | slash {s t : List Char} : SlashVariant s t → SlashVariant ('/' :: s) ('\\' :: t)
  | cons {s t : List Char} (c : Char) : c ≠ '?' → c ≠ '#' → SlashVariant s t →
      SlashVariant (c :: s) (c :: t)

/-- Dropping the bytes at the end of `c :: l` that satisfy `p`. -/
theorem reverse_dropWhile_reverse_cons (p : Char → Bool) (c : Char) (l : List Char) :
    ((c :: l).reverse.dropWhile p).reverse =
      if (l.reverse.dropWhile p).reverse = [] ∧ p c then []
      else c :: (l.reverse.dropWhile p).reverse := by
  rw [List.reverse_cons, List.dropWhile_append]
  cases hl : l.reverse.dropWhile p <;> cases hc : p c <;> simp [hc, List.dropWhile_cons]

theorem isWindowsDriveLetter_cons_of_not_alpha {c : Char} {l : List Char} (h : c.isAlpha = false) :
    isWindowsDriveLetter (c :: l) = false := by
  cases l <;> simp [isWindowsDriveLetter, h]

namespace SlashVariant

variable {s t : List Char}

theorem length_eq (h : SlashVariant s t) : s.length = t.length := by
  induction h with
  | refl => rfl
  | slash _ ih => simp [ih]
  | cons _ _ _ _ ih => simp [ih]

theorem drop (h : SlashVariant s t) (n : Nat) : SlashVariant (s.drop n) (t.drop n) := by
  induction h generalizing n with
  | refl => exact refl _
  | slash h ih => cases n <;> simp [slash h, ih]
  | cons c hq hh h ih => cases n <;> simp [cons c hq hh h, ih]

/-- The bytes at the front: the same, or `/` read as `\`. -/
theorem headD (h : SlashVariant s t) (d : Char) :
    t.headD d = s.headD d ∨ (s.headD d = '/' ∧ t.headD d = '\\') := by
  cases h <;> simp

/-- From a `?` or a `#` on, the variant is the input itself. -/
theorem eq_of_delim (h : SlashVariant s t) (hd : s.head? = some '?' ∨ s.head? = some '#') :
    s = t := by
  cases h with
  | refl => rfl
  | slash => simp at hd
  | cons c hq hh => simp_all

theorem isWindowsDriveLetter_eq (h : SlashVariant s t) :
    isWindowsDriveLetter s = isWindowsDriveLetter t := by
  rcases h with _ | _ | ⟨c, -, -, h⟩
  · rfl
  · rw [isWindowsDriveLetter_cons_of_not_alpha (by decide),
      isWindowsDriveLetter_cons_of_not_alpha (by decide)]
  · rcases h with _ | _ | _ <;> rfl

section Sanitize

variable {p : Char → Bool}

theorem dropWhile (hp : p '/' = p '\\') (h : SlashVariant s t) :
    SlashVariant (s.dropWhile p) (t.dropWhile p) := by
  induction h with
  | refl => exact refl _
  | slash h ih =>
    cases hs : p '/'
    · simp [List.dropWhile_cons, hs, ← hp, slash h]
    · simpa [List.dropWhile_cons, hs, ← hp] using ih
  | cons c hq hh h ih =>
    cases hc : p c
    · simp [List.dropWhile_cons, hc, cons c hq hh h]
    · simpa [List.dropWhile_cons, hc] using ih

theorem filter (hp : p '/' = p '\\') (h : SlashVariant s t) :
    SlashVariant (s.filter p) (t.filter p) := by
  induction h with
  | refl => exact refl _
  | slash _ ih =>
    cases hs : p '/'
    · simpa [List.filter_cons, hs, ← hp] using ih
    · simpa [List.filter_cons, hs, ← hp] using slash ih
  | cons c hq hh _ ih =>
    cases hc : p c
    · simpa [List.filter_cons, hc] using ih
    · simpa [List.filter_cons, hc] using cons c hq hh ih

theorem dropWhile_reverse (hp : p '/' = p '\\') (h : SlashVariant s t) :
    SlashVariant (s.reverse.dropWhile p).reverse (t.reverse.dropWhile p).reverse := by
  induction h with
  | refl => exact refl _
  | slash _ ih =>
    have e := ih.length_eq
    rw [reverse_dropWhile_reverse_cons, reverse_dropWhile_reverse_cons, ← hp]
    split_ifs with h₁ h₂ h₂
    · exact refl _
    · simp_all [← List.length_eq_zero]
    · simp_all [← List.length_eq_zero]
    · exact slash ih
  | cons c hq hh _ ih =>
    have e := ih.length_eq
    rw [reverse_dropWhile_reverse_cons, reverse_dropWhile_reverse_cons]
    split_ifs with h₁ h₂ h₂
    · exact refl _
    · simp_all [← List.length_eq_zero]
    · simp_all [← List.length_eq_zero]
    · exact cons c hq hh ih

end Sanitize

/-- Sanitizing keeps an input and its variant related. -/
theorem sanitize (h : SlashVariant s t) : SlashVariant (SkyrUrl.sanitize s) (SkyrUrl.sanitize t) := by
  unfold SkyrUrl.sanitize removeTabsAndNewlines removeTrailingWhitespace removeLeadingWhitespace
  refine filter ?_ (dropWhile_reverse ?_ (dropWhile ?_ h)) <;> decide

theorem schemeBytes_eq (h : SlashVariant s t) : schemeBytes s = schemeBytes t := by
  induction h with
  | refl => rfl
  | slash => rfl
  | cons c _ _ _ ih => simp only [schemeBytes, ih]

/-- A variant names the same scheme. -/
theorem inputScheme_eq (h : SlashVariant s t) : inputScheme s = inputScheme t := by
  rcases h with _ | _ | ⟨c, -, -, h⟩
  · rfl
  · rfl
  · simp only [inputScheme, h.schemeBytes_eq]

/-- Two slashes in the variant were two slashes in the input. -/
theorem slashes_left {r : List Char} (h : SlashVariant s t)
    (ht : t = '/' :: '/' :: r) : ∃ r', s = '/' :: '/' :: r' := by
  subst ht
  rcases h with _ | _ | ⟨_, -, -, h⟩
  · exact ⟨r, rfl⟩
  · rcases h with _ | _ | ⟨_, -, -, -⟩ <;> exact ⟨_, rfl⟩

/-- Two slashes in the input are two slashes or backslashes in the variant. -/
theorem slashLike {r : List Char} (h : SlashVariant ('/' :: '/' :: r) t) :
    ∃ x y t', t = x :: y :: t' ∧ (x = '/' ∨ x = '\\') ∧ (y = '/' ∨ y = '\\') := by
  rcases h with _ | h | ⟨_, -, -, h⟩ <;> (try rcases h with _ | _ | ⟨_, -, -, -⟩) <;>
    exact ⟨_, _, _, rfl, by simp, by simp⟩

end SlashVariant

end SkyrUrl
