import SkyrUrl.Driver

/-!
# Well-formed records

What a record returned by a successful parse is expected to look like: a lowercase scheme,
the cannot-be-a-base shape, no credentials or port on `file`, a valid non-default port, a
host on the special schemes other than `file`, path segments that are neither dot segments
nor contain a delimiter, and a query without `#`.

`isLowerScheme` is the scheme part; `isLowerScheme_isScheme` shows that the scheme states
read such a scheme back unchanged.

Because the driver lets `fail` fall through like `increment`, a parse that should fail can
return a record that is not well formed: `noScheme_without_base_returns_empty_record`.
-/

namespace SkyrUrl

/-- A byte that `parse_scheme` appends to the scheme. -/
def isSchemeChar (c : Char) : Bool := c.isAlphanum || c ∈ ['+', '-', '.']

/-- A scheme as the scheme states read one: an ASCII letter, then scheme bytes. -/
def isScheme : List Char → Bool
  | [] => false
  | c :: cs => c.isAlpha && cs.all isSchemeChar

/-- A scheme as a parse records it: a lowercase ASCII letter, then lowercase letters,
digits, `+`, `-` and `.`. -/
def isLowerScheme : List Char → Bool
  | [] => false
  | c :: cs => c.isLower && cs.all fun x => x.isLower || x.isDigit || x ∈ ['+', '-', '.']

theorem toLower_of_not_isUpper {c : Char} (h : c.isUpper = false) : c.toLower = c := by
  have hn : ¬(c.toNat ≥ 65 ∧ c.toNat ≤ 90) := by
    simp only [Char.isUpper, Bool.and_eq_false_iff, decide_eq_false_iff_not, UInt32.le_def] at h
    simp only [Char.toNat, UInt32.toNat]
    rcases h with h | h <;> (simp only [BitVec.le_def] at h; simp at h; omega)
  simp only [Char.toLower, hn, if_false]

theorem isUpper_eq_false {c : Char} (h : (c.isLower || c.isDigit || c ∈ ['+', '-', '.']) = true) :
    c.isUpper = false := by
  simp only [Bool.or_eq_true, decide_eq_true_eq, List.mem_cons, List.mem_singleton,
    List.not_mem_nil, or_false] at h
  rcases h with (h | h) | h | h | h
  · simp only [Char.isLower, Bool.and_eq_true, decide_eq_true_eq, UInt32.le_def, BitVec.le_def] at h
    simp only [Char.isUpper, UInt32.le_def, BitVec.le_def, Bool.and_eq_false_iff,
      decide_eq_false_iff_not]
    simp at h ⊢; omega
  · simp only [Char.isDigit, Bool.and_eq_true, decide_eq_true_eq, UInt32.le_def, BitVec.le_def] at h
    simp only [Char.isUpper, UInt32.le_def, BitVec.le_def, Bool.and_eq_false_iff,
      decide_eq_false_iff_not]
    simp at h ⊢; omega
  all_goals subst h; rfl

/-- A lowercase scheme is a scheme, and lowercasing leaves it unchanged. -/
theorem isLowerScheme_isScheme {s : List Char} (h : isLowerScheme s) :
    isScheme s ∧ s.map Char.toLower = s := by
  obtain _ | ⟨c, cs⟩ := s
  · simp [isLowerScheme] at h
  simp only [isLowerScheme, Bool.and_eq_true, List.all_eq_true] at h
  refine ⟨?_, ?_⟩
  · simp only [isScheme, Char.isAlpha, h.1, Bool.or_true, Bool.true_and, List.all_eq_true,
      isSchemeChar, Char.isAlphanum]
    intro x hx
    have := h.2 x hx
    simp only [Bool.or_eq_true] at this ⊢
    tauto
  · simp only [List.map_cons, List.cons.injEq]
    exact ⟨toLower_of_not_isUpper (isUpper_eq_false (by simp [h.1])),
      (List.map_congr_left fun x hx => toLower_of_not_isUpper (isUpper_eq_false (h.2 x hx))).trans
        (List.map_id _)⟩

/-- A path segment that no parse of a hierarchical URL leaves in the path. -/
def isPlainSegment (special : Bool) (seg : List Char) : Bool :=
  '/' ∉ seg && '?' ∉ seg && '#' ∉ seg && !(special && '\\' ∈ seg) &&
    !isSingleDotPathSegment seg && !isDoubleDotPathSegment seg

/-- The well-formed records. -/
structure UrlRecord.WellFormed (r : UrlRecord) : Prop where
  scheme : isLowerScheme r.scheme
  cannot_be_a_base : r.cannotBeABaseUrl →
    r.path.length = 1 ∧ r.host = none ∧ r.port = none ∧ r.username = [] ∧ r.password = []
  file : r.scheme = "file".toList → r.port = none ∧ r.username = [] ∧ r.password = []
  port : ∀ p, r.port = some p → p ≤ 65535 ∧ defaultPort r.scheme ≠ some p
  host : r.isSpecial → r.scheme ≠ "file".toList → ∃ h, r.host = some h ∧ h ≠ []
  path : r.cannotBeABaseUrl = false → ∀ seg ∈ r.path, isPlainSegment r.isSpecial seg
  query : ∀ q, r.query = some q → '#' ∉ q

/-- **A scheme-less input without a base returns the empty record.**  `parse_no_scheme`
returns `fail` at every byte for want of a base, the driver goes on as for `increment`, and
at EOF the loop returns the record it started with, whose scheme is empty. -/
theorem noScheme_without_base_returns_empty_record :
    Parses "foo".toList none none none (.ok {}) ∧ ¬ ({} : UrlRecord).WellFormed :=
  ⟨⟨20, by decide⟩, fun h => absurd h.scheme (by decide)⟩

end SkyrUrl
