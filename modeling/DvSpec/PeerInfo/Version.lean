import DvSpec.Library.Raising
import DvSpec.Library.Splitting
import DvSpec.Types.IntLiteral

/-!
# Semantic versions

The parser of version strings and the comparison of a peer's version with the supported
ones.
-/

namespace DvSpec.PeerInfo

open DvSpec.Library DvSpec.Library.Raising

/-! ## The parser -/

/-- `items[index]` for an index that is not negative. -/
def item {α : Type} (items : List α) (index : Nat) : Except PyError α :=
  match items[index]? with
  | some found => .ok found
  | none => .error .indexError

/-- The numbers of a version, major, minor and patch. -/
abbrev Numbers := Int × Int × Int

/-- The body of the `try` block: the first three components. -/
def parseNumbers (limit : Nat) (version versionPart : List Char) : Except PyError Numbers := do
  let versionNumbers := versionPart.splitOn '.'
  if versionNumbers.length < 2 then
    let shown := String.ofList version
    .error (.valueError s!"Invalid version format: {shown}")
  else
    let major ← int limit (← item versionNumbers 0)
    let minor ← int limit (← item versionNumbers 1)
    let patch ←
      (if 2 < versionNumbers.length then do int limit (← item versionNumbers 2) else .ok 0)
    .ok (major, minor, patch)

/-- Parse a semantic version string into major, minor, patch and prerelease. -/
def parseSemanticVersion (limit : Nat) (version : String) :
    Except PyError (Int × Int × Int × String) := do
  let version := version.toList.dropWhile fun char => char = 'v'
  let parts := splitOnce '-' version
  let versionPart ← item parts 0
  let prerelease ← (if 1 < parts.length then item parts 1 else .ok [])
  match parseNumbers limit version versionPart with
  | .ok numbers => .ok (numbers.1, numbers.2.1, numbers.2.2, String.ofList prerelease)
  | .error (.valueError _) | .error .indexError =>
      let shown := String.ofList version
      .error (.valueError s!"Invalid version format: {shown}")
  | .error raised => .error raised

/-! ## Compatibility -/

/-- The loop over the supported versions. -/
def matchesAny (limit : Nat) (peerMajor peerMinor : Int) : List String → Except PyError Bool
  | [] => .ok false
  | supportedVersion :: rest => do
      let sup ← parseSemanticVersion limit supportedVersion
      if peerMajor = sup.1 ∧ peerMinor = sup.2.1 then .ok true
      else matchesAny limit peerMajor peerMinor rest

/-- The body of the `try` block of `isCompatibleVersion`. -/
def compareVersions (limit : Nat) (peerVersion : String) (supportedVersions : List String) :
    Except PyError Bool := do
  let peer ← parseSemanticVersion limit peerVersion
  let latest ← parseSemanticVersion limit (← item supportedVersions 0)
  if latest.1 < peer.1 then .ok true
  else if peer.1 = latest.1 ∧ latest.2.1 < peer.2.1 then .ok true
  else matchesAny limit peer.1 peer.2.1 supportedVersions

/-- Whether a peer's version is compatible with the supported ones, the newest first. -/
def isCompatibleVersion (limit : Nat) (peerVersion : String) (supportedVersions : List String) :
    Except PyError Bool :=
  match compareVersions limit peerVersion supportedVersions with
  | .error (.valueError _) => .ok false
  | result => result

/-- The loop finds a supported version with the peer's major and minor number, if it can
read all versions before it. -/
theorem matchesAny_eq_true_iff {limit : Nat} {peerMajor peerMinor : Int} {versions : List String} :
    matchesAny limit peerMajor peerMinor versions = .ok true ↔
      ∃ before version after sup, versions = before ++ version :: after ∧
        (∀ earlier ∈ before, ∃ read, parseSemanticVersion limit earlier = .ok read) ∧
        parseSemanticVersion limit version = .ok sup ∧ peerMajor = sup.1 ∧ peerMinor = sup.2.1 := by
  induction versions with
  | nil => simp [matchesAny]
  | cons first rest ih =>
      rw [matchesAny, bind_eq_ok_iff]
      constructor
      · rintro ⟨sup, read, found⟩
        split at found
        · rename_i same
          exact ⟨[], _, _, sup, rfl, by simp, read, same⟩
        · obtain ⟨before, version, after, other, rfl, reads, parsed, same⟩ := ih.mp found
          exact ⟨_ :: before, version, after, other, rfl,
            List.forall_mem_cons.mpr ⟨⟨sup, read⟩, reads⟩, parsed, same⟩
      · rintro ⟨before, version, after, sup, split, reads, parsed, same⟩
        cases before with
        | nil =>
            obtain ⟨rfl, rfl⟩ := List.cons.inj split
            exact ⟨sup, parsed, if_pos same⟩
        | cons earlier before =>
            obtain ⟨rfl, rfl⟩ := List.cons.inj split
            obtain ⟨⟨read, parses⟩, others⟩ := List.forall_mem_cons.mp reads
            have later := ih.mpr ⟨before, version, after, sup, rfl, others, parsed, same⟩
            refine ⟨read, parses, ?_⟩
            rw [later, ite_self]

/-- A compatible peer runs a version newer than the newest supported one, or one of a
supported minor version. -/
theorem isCompatibleVersion_eq_true_iff {limit : Nat} {peerVersion : String}
    {supportedVersions : List String} :
    isCompatibleVersion limit peerVersion supportedVersions = .ok true ↔
      ∃ newest older peer latest, supportedVersions = newest :: older ∧
        parseSemanticVersion limit peerVersion = .ok peer ∧
        parseSemanticVersion limit newest = .ok latest ∧
        (latest.1 < peer.1 ∨ peer.1 = latest.1 ∧ latest.2.1 < peer.2.1 ∨
          ∃ before version after sup, supportedVersions = before ++ version :: after ∧
            (∀ earlier ∈ before, ∃ read, parseSemanticVersion limit earlier = .ok read) ∧
            parseSemanticVersion limit version = .ok sup ∧
            peer.1 = sup.1 ∧ peer.2.1 = sup.2.1) := by
  have same : isCompatibleVersion limit peerVersion supportedVersions = .ok true ↔
      compareVersions limit peerVersion supportedVersions = .ok true := by
    unfold isCompatibleVersion
    split
    · rename_i refused
      simp [refused]
    · exact Iff.rfl
  rw [same, compareVersions]
  simp only [← matchesAny_eq_true_iff]
  constructor
  · intro accepted
    obtain ⟨peer, read, rest⟩ := bind_eq_ok_iff.mp accepted
    obtain ⟨newest, found, rest⟩ := bind_eq_ok_iff.mp rest
    obtain ⟨latest, parsed, outcome⟩ := bind_eq_ok_iff.mp rest
    cases supportedVersions with
    | nil => cases found
    | cons first older =>
        cases found
        refine ⟨newest, older, peer, latest, rfl, read, parsed, ?_⟩
        split at outcome
        · exact Or.inl ‹_›
        · split at outcome
          · exact Or.inr (Or.inl ‹_›)
          · exact Or.inr (Or.inr outcome)
  · rintro ⟨newest, older, peer, latest, rfl, read, parsed, outcome⟩
    have found : item (newest :: older) 0 = .ok newest := rfl
    rw [read, ok_bind, found, ok_bind, parsed, ok_bind]
    split
    · rfl
    · split
      · rfl
      · rename_i notMajor notMinor
        exact (outcome.resolve_left notMajor).resolve_left notMinor

end DvSpec.PeerInfo
