import DvSpec.Library.Regex
import DvSpec.Types.Casing
import DvSpec.Types.Hex

/-!
# Git hashes

A git hash is checked in two places: by a helper, with a regular expression on the
lower-case text, and by the `PeerInfo` model, which measures the text first.  The `$` of
the expression also matches in front of a final newline, where the two part.
-/

namespace DvSpec.PeerInfo

open DvSpec.Library

/-- The pattern of a git hash, `^[0-9a-f]{7}$`. -/
def gitHashPattern : Regex :=
  .seq .start (.seq (.times 7 (.oneOf fun char => '0' ≤ char ∧ char ≤ '9' ∨ 'a' ≤ char ∧ char ≤ 'f'))
    .finish)

variable (finalSigma : List Char → List Char → Bool)

/-- Whether a git hash matches the expected format, as the helper sees it. -/
def Helpers.validateGitHash (gitHash : String) : Bool :=
  gitHashPattern.match? (lower finalSigma gitHash.toList)

/-- The field validator of `git_hash` in the message model. -/
def validateGitHash (value : String) : Except PyError String :=
  if value.length ≠ 7 then .error (.valueError "git_hash must be exactly 7 characters")
  else if ¬ (lower finalSigma value.toList).all fun char => char ∈ "0123456789abcdef".toList then
    .error (.valueError "git_hash must be hexadecimal")
  else .ok (String.ofList (lower finalSigma value.toList))

/-! ## Lower-case hex digits -/

/-- The characters of a normalised git hash. -/
def LowerHex (char : Char) : Prop := char ∈ "0123456789abcdef".toList

instance (char : Char) : Decidable (LowerHex char) :=
  inferInstanceAs (Decidable (char ∈ "0123456789abcdef".toList))

theorem toNat_le_of_lowerHex {char : Char} (digit : LowerHex char) : char.toNat ≤ 102 := by
  have each : "0123456789abcdef".toList.all (fun char => char.toNat ≤ 102) = true := by decide
  exact of_decide_eq_true (List.all_eq_true.mp each char digit)

theorem lowerHex_iff_of_ascii : ∀ code < 128,
    (LowerHex (Char.ofNat code) ↔ '0' ≤ Char.ofNat code ∧ Char.ofNat code ≤ '9' ∨
      'a' ≤ Char.ofNat code ∧ Char.ofNat code ≤ 'f') ∧
    (LowerHex (Char.ofNat code).toLower ↔ hexDigit (Char.ofNat code) ≠ none) := by
  decide

/-- The character set of the pattern. -/
theorem lowerHex_iff {char : Char} :
    LowerHex char ↔ '0' ≤ char ∧ char ≤ '9' ∨ 'a' ≤ char ∧ char ≤ 'f' := by
  by_cases ascii : char.toNat < 128
  · have each := (lowerHex_iff_of_ascii char.toNat ascii).1
    rwa [Char.ofNat_toNat] at each
  · refine iff_of_false (fun digit => ascii ?_) ?_
    · exact Nat.lt_of_le_of_lt (toNat_le_of_lowerHex digit) (by decide)
    · have beyond : ∀ last : Char, last.toNat < 128 → ¬ char ≤ last := by
        intro last small within
        exact ascii (Nat.lt_of_le_of_lt (UInt32.le_iff_toNat_le.mp within) small)
      rintro (⟨-, within⟩ | ⟨-, within⟩)
      · exact beyond '9' (by decide) within
      · exact beyond 'f' (by decide) within

/-- Lowering a hex digit of either case. -/
theorem lowerHex_toLower_iff {char : Char} (ascii : char.toNat < 128) :
    LowerHex char.toLower ↔ hexDigit char ≠ none := by
  have each := (lowerHex_iff_of_ascii char.toNat ascii).2
  rwa [Char.ofNat_toNat] at each

/-! ## What the two checks accept -/

variable {finalSigma}

theorem match?_gitHashPattern_iff {text : List Char} :
    gitHashPattern.match? text = true ↔
      ∃ digits : List Char, digits.length = 7 ∧ (∀ char ∈ digits, LowerHex char) ∧
        (text = digits ∨ text = digits ++ ['\n']) := by
  simp only [Regex.match?_eq_true_iff, gitHashPattern, Regex.mem_ends_seq, Regex.mem_ends_start,
    Regex.mem_ends_finish, Regex.mem_ends_times_oneOf, decide_eq_true_eq, ← lowerHex_iff]
  constructor
  · rintro ⟨final, first, ⟨-, rfl⟩, left, ⟨digits, length, hex, equal, -⟩, rest, rfl⟩
    change text = digits ++ final.2 at equal
    refine ⟨digits, length, hex, rest.imp (fun none => ?_) fun newline => ?_⟩
    · rw [equal, none, List.append_nil]
    · rw [equal, newline]
  · rintro ⟨digits, length, hex, alone | newline⟩
    · exact ⟨(7, []), (0, text), ⟨trivial, rfl⟩, (7, []),
        ⟨digits, length, hex, by rw [alone, List.append_nil], rfl⟩, Or.inl rfl, rfl⟩
    · exact ⟨(7, ['\n']), (0, text), ⟨trivial, rfl⟩, (7, ['\n']),
        ⟨digits, length, hex, newline, rfl⟩, Or.inr rfl, rfl⟩

/-- Seven hex digits of either case. -/
def GitHash (text : List Char) : Prop :=
  text.length = 7 ∧ ∀ char ∈ text, hexDigit char ≠ none

theorem ascii_of_gitHash {text : List Char} (hash : GitHash text) :
    ∀ char ∈ text, char.toNat < 128 :=
  fun char member => toNat_lt_of_hexDigit (hash.2 char member)

theorem lower_eq_map_of_lowerHex {text : List Char}
    (hex : ∀ char ∈ lower finalSigma text, LowerHex char) :
    lower finalSigma text = text.map Char.toLower :=
  lower_eq_map fun char member => toNat_le_of_lowerHex (hex char member)

theorem lowerHex_lower_iff {text : List Char} :
    (∀ char ∈ lower finalSigma text, LowerHex char) ↔ ∀ char ∈ text, hexDigit char ≠ none := by
  constructor
  · intro hex
    have ascii := ascii_of_lowerFrom fun char member => toNat_le_of_lowerHex (hex char member)
    intro char member
    refine (lowerHex_toLower_iff (ascii char member)).mp (hex _ ?_)
    rw [lower_eq_map_of_lowerHex hex]
    exact List.mem_map_of_mem member
  · intro hex
    have ascii : ∀ char ∈ text, char.toNat < 128 := fun char member =>
      toNat_lt_of_hexDigit (hex char member)
    rw [lower_ascii ascii]
    intro char member
    obtain ⟨upper, among, rfl⟩ := List.mem_map.mp member
    exact (lowerHex_toLower_iff (ascii upper among)).mpr (hex upper among)

theorem eq_newline_of_toLower {char : Char} (ascii : char.toNat < 128)
    (lowered : char.toLower = '\n') : char = '\n' := by
  have each : ∀ code < 128, (Char.ofNat code).toLower = '\n' → Char.ofNat code = '\n' := by decide
  have found := each char.toNat ascii
  rw [Char.ofNat_toNat] at found
  exact found lowered

/-- The model accepts git hashes and nothing else. -/
theorem validateGitHash_eq_ok_iff {text value : String} :
    validateGitHash finalSigma text = .ok value ↔
      GitHash text.toList ∧ String.ofList (text.toList.map Char.toLower) = value := by
  unfold validateGitHash GitHash
  rw [← String.length_toList, ← @lowerHex_lower_iff finalSigma]
  by_cases length : text.toList.length = 7
  · by_cases hex : ∀ char ∈ lower finalSigma text.toList, LowerHex char
    · have all : (lower finalSigma text.toList).all
          (fun char => char ∈ "0123456789abcdef".toList) = true := by
        simpa [LowerHex] using hex
      rw [if_neg (not_not_intro length), if_neg (not_not_intro all), Except.ok.injEq,
        ← lower_eq_map_of_lowerHex hex]
      exact ⟨fun same => ⟨⟨length, hex⟩, same⟩, And.right⟩
    · have some : ¬ (lower finalSigma text.toList).all
          (fun char => char ∈ "0123456789abcdef".toList) = true := by
        simpa [LowerHex] using hex
      rw [if_neg (not_not_intro length), if_pos some]
      refine iff_of_false ?_ fun valid => hex valid.1.2
      intro accepted
      cases accepted
  · rw [if_pos length]
    refine iff_of_false ?_ fun valid => length valid.1.1
    intro accepted
    cases accepted

/-- A git hash in lower case. -/
theorem normalised_of_gitHash {hash : List Char} (valid : GitHash hash) :
    (hash.map Char.toLower).length = 7 ∧ ∀ char ∈ hash.map Char.toLower, LowerHex char := by
  refine ⟨by rw [List.length_map, valid.1], fun char member => ?_⟩
  obtain ⟨upper, among, rfl⟩ := List.mem_map.mp member
  exact (lowerHex_toLower_iff (ascii_of_gitHash valid upper among)).mpr (valid.2 upper among)

/-- A git hash and one newline after it. -/
def NewlineEnded (text : List Char) : Prop :=
  ∃ hash, GitHash hash ∧ text = hash ++ ['\n']

/-- The helper also accepts a git hash with a newline. -/
theorem helpers_validateGitHash_iff {text : String} :
    Helpers.validateGitHash finalSigma text = true ↔
      GitHash text.toList ∨ NewlineEnded text.toList := by
  rw [Helpers.validateGitHash, match?_gitHashPattern_iff]
  constructor
  · rintro ⟨digits, length, hex, alone | newline⟩
    · refine Or.inl ⟨?_, lowerHex_lower_iff.mp (alone ▸ hex)⟩
      rw [← length, ← alone, lower_eq_map_of_lowerHex (alone ▸ hex), List.length_map]
    · have small : ∀ char ∈ lower finalSigma text.toList, char.toNat ≤ 102 := by
        rw [newline]
        refine List.forall_mem_append.mpr ⟨fun char member => ?_,
          List.forall_mem_singleton.mpr (by decide)⟩
        exact toNat_le_of_lowerHex (hex char member)
      have ascii := ascii_of_lowerFrom small
      rw [lower_eq_map small] at newline
      obtain ⟨hash, back, split, lowered, last⟩ := List.map_eq_append_iff.mp newline
      obtain ⟨char, rfl, lineFeed⟩ := List.map_eq_singleton_iff.mp last
      rw [split] at ascii
      obtain ⟨asciiHash, asciiLast⟩ := List.forall_mem_append.mp ascii
      have final := eq_newline_of_toLower (asciiLast char List.mem_cons_self) lineFeed
      refine Or.inr ⟨hash, ⟨?_, fun digit member => ?_⟩, final ▸ split⟩
      · rw [← length, ← lowered, List.length_map]
      · refine (lowerHex_toLower_iff (asciiHash digit member)).mp (hex _ ?_)
        rw [← lowered]
        exact List.mem_map_of_mem member
  · rintro (hash | ⟨hash, valid, newline⟩)
    · obtain ⟨length, hex⟩ := normalised_of_gitHash hash
      exact ⟨_, length, hex, Or.inl (lower_ascii (ascii_of_gitHash hash))⟩
    · obtain ⟨length, hex⟩ := normalised_of_gitHash valid
      refine ⟨_, length, hex, Or.inr ?_⟩
      have ascii : ∀ char ∈ hash ++ ['\n'], char.toNat < 128 :=
        List.forall_mem_append.mpr
          ⟨ascii_of_gitHash valid, List.forall_mem_singleton.mpr (by decide)⟩
      rw [newline, lower_ascii ascii, List.map_append]
      rfl

/-! ## Where they agree -/

/-- The helper accepts what the model accepts, and the accepted value is normalised. -/
def ChecksAgree (finalSigma : List Char → List Char → Bool) (text : String) : Prop :=
  (Helpers.validateGitHash finalSigma text = true ↔
    ∃ value, validateGitHash finalSigma text = .ok value) ∧
  ∀ value, validateGitHash finalSigma text = .ok value →
    value.length = 7 ∧ ∀ char ∈ value.toList, LowerHex char

/-- The two checks agree on every text but a git hash that ends in a newline. -/
theorem checksAgree_iff (text : String) :
    ChecksAgree finalSigma text ↔ ¬ NewlineEnded text.toList := by
  have normalised : ∀ value, validateGitHash finalSigma text = .ok value →
      value.length = 7 ∧ ∀ char ∈ value.toList, LowerHex char := by
    intro value accepted
    obtain ⟨hash, rfl⟩ := validateGitHash_eq_ok_iff.mp accepted
    rw [← String.length_toList, String.toList_ofList]
    exact normalised_of_gitHash hash
  have accepts : (∃ value, validateGitHash finalSigma text = .ok value) ↔ GitHash text.toList := by
    constructor
    · rintro ⟨value, accepted⟩
      exact (validateGitHash_eq_ok_iff.mp accepted).1
    · intro hash
      exact ⟨_, validateGitHash_eq_ok_iff.mpr ⟨hash, rfl⟩⟩
  rw [ChecksAgree, and_iff_left normalised, accepts, helpers_validateGitHash_iff]
  constructor
  · rintro agree newline
    obtain ⟨hash, valid, equal⟩ := newline
    have short := (agree.mp (Or.inr ⟨hash, valid, equal⟩)).1
    rw [equal, List.length_append, valid.1] at short
    cases short
  · intro none
    exact or_iff_left none

/-- A newline after a git hash passes the helper only. -/
theorem newlineEnded_disagrees :
    ¬ ChecksAgree (fun _ _ => false) "abc1234\n" := by
  intro agree
  have digits : "abc1234".toList.all (fun char => hexDigit char ≠ none) = true := by decide
  have newline : NewlineEnded "abc1234\n".toList :=
    ⟨"abc1234".toList,
      ⟨rfl, fun char member => of_decide_eq_true (List.all_eq_true.mp digits char member)⟩, rfl⟩
  obtain ⟨value, accepted⟩ := agree.1.mp (helpers_validateGitHash_iff.mpr (Or.inr newline))
  have hash := (validateGitHash_eq_ok_iff.mp accepted).1
  exact absurd hash.1 (by decide)

end DvSpec.PeerInfo
