import DvSpec.PeerInfo.Version

/-!
# The grammar of versions

A text is taken apart into its leading `v`s, the components between dots, and what follows
the first hyphen.  The parser reads the first three components with `int`, whatever else
there is, while the grammar knows one `v`, two or three runs of digits, and no more.
-/

namespace DvSpec.PeerInfo

open DvSpec.Library DvSpec.Library.Raising

/-! ## The parts of a text -/

/-- The parts of a version text, whatever the components are. -/
@[ext]
structure Pieces where
  leading : Nat
  components : List (List Char)
  prerelease : Option (List Char)
  nonempty : components ≠ []
  separated : ∀ component ∈ components, '.' ∉ component ∧ '-' ∉ component
  start : ∀ component ∈ components.head?, component.head? ≠ some 'v'

/-- The text after a hyphen, with the hyphen. -/
def hyphenated : Option (List Char) → List Char
  | none => []
  | some text => '-' :: text

namespace Pieces

/-- The components with the dots between them. -/
def versionPart (pieces : Pieces) : List Char := List.intercalate ['.'] pieces.components

/-- What follows the leading `v`s. -/
def body (pieces : Pieces) : List Char := pieces.versionPart ++ hyphenated pieces.prerelease

/-- The text with the given parts. -/
def text (pieces : Pieces) : List Char := List.replicate pieces.leading 'v' ++ pieces.body

variable (pieces : Pieces)

theorem hyphen_notMem : '-' ∉ pieces.versionPart := by
  intro member
  obtain dot | ⟨component, among, inside⟩ := mem_intercalate member
  · cases dot
  · exact (pieces.separated component among).2 inside

theorem splitOn_versionPart : pieces.versionPart.splitOn '.' = pieces.components :=
  List.splitOn_intercalate '.' (fun component among => (pieces.separated component among).1)
    pieces.nonempty

theorem head?_body_ne : pieces.body.head? ≠ some 'v' := by
  obtain ⟨first, rest, equal⟩ := List.exists_cons_of_ne_nil pieces.nonempty
  have start := pieces.start first (by simp [equal])
  unfold body versionPart
  rw [equal]
  cases first with
  | cons char chars =>
      cases rest with
      | nil => simpa using start
      | cons => simpa [List.intercalate_cons_cons] using start
  | nil =>
      cases rest with
      | nil => cases pieces.prerelease <;> simp [hyphenated]
      | cons => simp [List.intercalate_cons_cons]

theorem dropWhile_text : (pieces.text.dropWhile fun char => decide (char = 'v')) = pieces.body := by
  refine dropWhile_append_eq (fun char member => ?_) fun char head => ?_
  · exact decide_eq_true (List.eq_of_mem_replicate member)
  · exact decide_eq_false fun same => pieces.head?_body_ne (same ▸ head)

theorem takeWhile_text : (pieces.text.takeWhile fun char => decide (char = 'v')) =
    List.replicate pieces.leading 'v' := by
  refine takeWhile_append_eq (fun char member => ?_) fun char head => ?_
  · exact decide_eq_true (List.eq_of_mem_replicate member)
  · exact decide_eq_false fun same => pieces.head?_body_ne (same ▸ head)

/-- Splitting at the first hyphen finds the version part and the prerelease. -/
theorem splitOnce_body :
    splitOnce '-' pieces.body = pieces.versionPart :: pieces.prerelease.toList := by
  unfold body
  cases pieces.prerelease with
  | none =>
      rw [hyphenated, List.append_nil]
      exact splitOnce_of_notMem pieces.hyphen_notMem
  | some rest => exact splitOnce_append pieces.hyphen_notMem

end Pieces

/-- A text has one way of being taken apart. -/
theorem Pieces.text_injective : Function.Injective Pieces.text := by
  intro one two equal
  have leading : List.replicate one.leading 'v' = List.replicate two.leading 'v' := by
    rw [← one.takeWhile_text, equal, two.takeWhile_text]
  have split : one.versionPart :: one.prerelease.toList =
      two.versionPart :: two.prerelease.toList := by
    rw [← one.splitOnce_body, ← one.dropWhile_text, equal, two.dropWhile_text, two.splitOnce_body]
  obtain ⟨part, rest⟩ := List.cons.inj split
  refine Pieces.ext ?_ ?_ ?_
  · simpa using congrArg List.length leading
  · rw [← one.splitOn_versionPart, part, two.splitOn_versionPart]
  · cases first : one.prerelease <;> cases second : two.prerelease <;> simp_all

theorem exists_replicate_append (text : List Char) :
    ∃ leading body, text = List.replicate leading 'v' ++ body ∧ body.head? ≠ some 'v' := by
  induction text with
  | nil => exact ⟨0, [], rfl, by simp⟩
  | cons char rest ih =>
      by_cases same : char = 'v'
      · obtain ⟨leading, body, equal, stops⟩ := ih
        exact ⟨leading + 1, body, by rw [same, equal, List.replicate_succ, List.cons_append], stops⟩
      · exact ⟨0, char :: rest, rfl, by simpa using same⟩

theorem exists_append_hyphenated (body : List Char) :
    ∃ part prerelease, body = part ++ hyphenated prerelease ∧ '-' ∉ part := by
  by_cases present : '-' ∈ body
  · obtain ⟨part, rest, equal, absent⟩ := List.eq_append_cons_of_mem present
    exact ⟨part, some rest, equal, absent⟩
  · exact ⟨body, none, (List.append_nil body).symm, present⟩

/-- The first part of a split text begins as the text does. -/
theorem head?_of_splitOn {text first : List Char} {rest : List (List Char)} {char : Char}
    (split : text.splitOn '.' = first :: rest) (head : first.head? = some char) :
    text.head? = some char := by
  obtain ⟨tail, rfl⟩ := List.head?_eq_some_iff.mp head
  have whole : List.intercalate ['.'] (text.splitOn '.') = text := List.intercalate_splitOn '.'
  rw [split] at whole
  rw [← whole]
  cases rest with
  | nil => rw [List.intercalate_singleton, head]
  | cons second others =>
      rw [List.intercalate_cons_cons, List.append_assoc, List.cons_append, List.head?_cons]

/-- Every text can be taken apart. -/
theorem Pieces.exists_text_eq (text : List Char) : ∃ pieces : Pieces, pieces.text = text := by
  obtain ⟨leading, body, rfl, stops⟩ := exists_replicate_append text
  obtain ⟨part, prerelease, rfl, absent⟩ := exists_append_hyphenated body
  refine ⟨⟨leading, part.splitOn '.', prerelease, List.splitOn_ne_nil _ _, ?_, ?_⟩, ?_⟩
  · intro component among
    have inside := mem_of_mem_splitOn among
    exact ⟨fun dot => (inside _ dot).2 rfl, fun hyphen => absent (inside _ hyphen).1⟩
  · intro component first head
    obtain ⟨rest, split⟩ := List.head?_eq_some_iff.mp first
    apply stops
    rw [List.head?_append, head?_of_splitOn split head]
    rfl
  · simp only [Pieces.text, Pieces.body, Pieces.versionPart, List.intercalate_splitOn]

/-! ## What the parser reads -/

/-- The patch number of the components after the second one. -/
def PatchRead (limit : Nat) : List (List Char) → Int → Prop
  | [], patch => patch = 0
  | component :: _, patch => int limit component = .ok patch

/-- The numbers of the first three components. -/
def NumbersRead (limit : Nat) (components : List (List Char)) (numbers : Numbers) : Prop :=
  ∃ major minor rest, components = major :: minor :: rest ∧ int limit major = .ok numbers.1 ∧
    int limit minor = .ok numbers.2.1 ∧ PatchRead limit rest numbers.2.2

theorem parseNumbers_eq_ok_iff {limit : Nat} {version part : List Char} {numbers : Numbers} :
    parseNumbers limit version part = .ok numbers ↔
      NumbersRead limit (part.splitOn '.') numbers := by
  unfold parseNumbers
  generalize part.splitOn '.' = components
  obtain ⟨first, second, third⟩ := numbers
  cases components with
  | nil => simp [NumbersRead]
  | cons major later =>
      cases later with
      | nil => simp [NumbersRead]
      | cons minor rest =>
          have enough : ¬ (major :: minor :: rest).length < 2 := by simp
          rw [if_neg enough]
          cases rest with
          | nil =>
              simp only [NumbersRead, PatchRead, item, bind_eq_ok_iff]
              simp [eq_comm]
          | cons patch others => simp [NumbersRead, PatchRead, item, bind_eq_ok_iff]

/-- What the `except` clause of the parser catches. -/
def Caught (raised : PyError) : Prop := IsValueError raised ∨ raised = .indexError

theorem item_onlyRaises {α : Type} (items : List α) (index : Nat) :
    OnlyRaises Caught (item items index) := by
  unfold item
  split
  · exact OnlyRaises.ok _
  · exact OnlyRaises.error (Or.inr rfl)

theorem int_onlyRaises (limit : Nat) (text : List Char) : OnlyRaises Caught (int limit text) :=
  fun _ refused => Or.inl (int_raises refused)

/-- The `try` block raises nothing that is not caught. -/
theorem parseNumbers_onlyRaises (limit : Nat) (version part : List Char) :
    OnlyRaises Caught (parseNumbers limit version part) := by
  unfold parseNumbers
  dsimp only
  split
  · exact OnlyRaises.error (Or.inl ⟨_, rfl⟩)
  · refine (item_onlyRaises _ _).bind fun major => (int_onlyRaises _ _).bind fun _ => ?_
    refine (item_onlyRaises _ _).bind fun minor => (int_onlyRaises _ _).bind fun _ => ?_
    refine OnlyRaises.bind ?_ fun _ => OnlyRaises.ok _
    split
    · exact (item_onlyRaises _ _).bind fun patch => int_onlyRaises _ _
    · exact OnlyRaises.ok _

/-- The parser answers with the numbers of the version part and the prerelease, or with a
value error. -/
theorem parseSemanticVersion_text (limit : Nat) (pieces : Pieces) :
    parseSemanticVersion limit (String.ofList pieces.text) =
      match parseNumbers limit pieces.body pieces.versionPart with
      | .ok numbers =>
          .ok (numbers.1, numbers.2.1, numbers.2.2, String.ofList (pieces.prerelease.getD []))
      | .error _ =>
          let shown := String.ofList pieces.body
          .error (.valueError s!"Invalid version format: {shown}") := by
  have caught := parseNumbers_onlyRaises limit pieces.body pieces.versionPart
  have rest : (if 1 < (pieces.versionPart :: pieces.prerelease.toList).length then
      item (pieces.versionPart :: pieces.prerelease.toList) 1 else .ok []) =
      .ok (pieces.prerelease.getD []) := by
    cases pieces.prerelease <;> rfl
  have part : item (pieces.versionPart :: pieces.prerelease.toList) 0 = .ok pieces.versionPart := rfl
  unfold parseSemanticVersion
  simp only [String.toList_ofList, pieces.dropWhile_text, pieces.splitOnce_body, rest, part, ok_bind]
  cases outcome : parseNumbers limit pieces.body pieces.versionPart with
  | ok numbers => rfl
  | error raised =>
      rcases caught raised outcome with ⟨message, rfl⟩ | rfl <;> rfl

/-- The first three components, of at least two, are literals within the limit: digits of any
script with single underscores between them, a sign in front and blanks around. -/
structure Pieces.Readable (limit : Nat) (pieces : Pieces) : Prop where
  count : 2 ≤ pieces.components.length
  read : ∀ component ∈ pieces.components.take 3, ∃ literal : Literal,
    literal.text = component.map transformDecimalAndSpace ∧ WithinLimit limit literal.count

theorem exists_numbersRead_iff {limit : Nat} {pieces : Pieces} :
    (∃ numbers, NumbersRead limit pieces.components numbers) ↔ pieces.Readable limit := by
  constructor
  · rintro ⟨numbers, major, minor, rest, equal, first, second, third⟩
    refine ⟨by simp [equal], fun component among => int_returns_iff.mp ?_⟩
    revert component among
    rw [equal]
    refine List.forall_mem_cons.mpr ⟨⟨_, first⟩, List.forall_mem_cons.mpr ⟨⟨_, second⟩, ?_⟩⟩
    cases rest with
    | nil => simp
    | cons patch others => simpa using ⟨_, third⟩
  · rintro ⟨count, literal⟩
    have read : ∀ component ∈ pieces.components.take 3, ∃ value, int limit component = .ok value :=
      fun component among => int_returns_iff.mpr (literal component among)
    obtain ⟨major, later, equal⟩ := List.exists_cons_of_ne_nil pieces.nonempty
    rw [equal] at count read ⊢
    obtain ⟨minor, rest, rfl⟩ := List.exists_cons_of_length_pos (Nat.lt_of_succ_lt_succ count)
    obtain ⟨⟨first, isMajor⟩, others⟩ := List.forall_mem_cons.mp read
    obtain ⟨⟨second, isMinor⟩, last⟩ := List.forall_mem_cons.mp others
    cases rest with
    | nil => exact ⟨(first, second, 0), major, minor, [], rfl, isMajor, isMinor, rfl⟩
    | cons patch others =>
        obtain ⟨third, isPatch⟩ := last patch List.mem_cons_self
        exact ⟨(first, second, third), major, minor, _, rfl, isMajor, isMinor, isPatch⟩

/-- The parser accepts what `int` reads, and raises a value error otherwise. -/
theorem parseSemanticVersion_pieces {limit : Nat} {version : String} {pieces : Pieces}
    (equal : pieces.text = version.toList) :
    (∀ numbers, NumbersRead limit pieces.components numbers →
      parseSemanticVersion limit version =
        .ok (numbers.1, numbers.2.1, numbers.2.2, String.ofList (pieces.prerelease.getD []))) ∧
    (¬ pieces.Readable limit →
      ∃ message, parseSemanticVersion limit version = .error (.valueError message)) := by
  have whole : version = String.ofList pieces.text := by rw [equal, String.ofList_toList]
  have outcome := parseSemanticVersion_text limit pieces
  rw [whole]
  constructor
  · intro numbers read
    rw [← pieces.splitOn_versionPart] at read
    rw [outcome, parseNumbers_eq_ok_iff.mpr read]
  · intro unread
    cases refused : parseNumbers limit pieces.body pieces.versionPart with
    | ok numbers =>
        have read := parseNumbers_eq_ok_iff.mp refused
        rw [pieces.splitOn_versionPart] at read
        exact absurd (exists_numbersRead_iff.mp ⟨numbers, read⟩) unread
    | error raised =>
        rw [outcome, refused]
        exact ⟨_, rfl⟩

/-! ## The grammar -/

/-- A version of the grammar: an optional `v`, two or three numbers with dots between them,
and an optional hyphen with any text behind it. -/
structure VersionForm where
  prefixed : Bool
  major : { text : List Char // DigitRun text }
  minor : { text : List Char // DigitRun text }
  patch : Option { text : List Char // DigitRun text }
  prerelease : Option (List Char)

namespace VersionForm

def text (form : VersionForm) : List Char :=
  (if form.prefixed then ['v'] else []) ++ (form.major.val ++ '.' :: form.minor.val ++
    (form.patch.elim [] fun patch => '.' :: patch.val) ++ hyphenated form.prerelease)

/-- The numbers of a version, and the text behind its hyphen. -/
def result (form : VersionForm) : Int × Int × Int × String :=
  (runValue form.major.val, runValue form.minor.val,
    (form.patch.elim 0 fun patch => (runValue patch.val : Int)),
    String.ofList (form.prerelease.getD []))

/-- The components of a version. -/
def components (form : VersionForm) : List (List Char) :=
  form.major.val :: form.minor.val :: (form.patch.map Subtype.val).toList

theorem digitRun_of_mem {form : VersionForm} {component : List Char}
    (among : component ∈ form.components) : DigitRun component := by
  rcases List.mem_cons.mp among with rfl | later
  · exact form.major.property
  · rcases List.mem_cons.mp later with rfl | last
    · exact form.minor.property
    · obtain ⟨patch, -, rfl⟩ := Option.map_eq_some_iff.mp (Option.mem_toList.mp last)
      exact patch.property

/-- A version taken apart. -/
def pieces (form : VersionForm) : Pieces where
  leading := form.prefixed.toNat
  components := form.components
  prerelease := form.prerelease
  nonempty := List.cons_ne_nil _ _
  separated component among := by
    have digits := (digitRun_of_mem among).2
    exact ⟨fun dot => absurd (digits _ dot) (by decide),
      fun hyphen => absurd (digits _ hyphen) (by decide)⟩
  start component first head := by
    have digits := (digitRun_of_mem (List.mem_of_mem_head? first)).2
    exact absurd (digits 'v' (List.mem_of_mem_head? head)) (by decide)

theorem text_pieces (form : VersionForm) : form.pieces.text = form.text := by
  have leading : List.replicate form.prefixed.toNat 'v' = if form.prefixed then ['v'] else [] := by
    cases form.prefixed <;> rfl
  have part : List.intercalate ['.'] form.components = form.major.val ++ '.' :: form.minor.val ++
      (form.patch.elim [] fun patch => '.' :: patch.val) := by
    unfold components
    cases form.patch <;> simp [List.intercalate_cons_cons]
  unfold Pieces.text Pieces.body Pieces.versionPart text
  rw [← leading, ← part]
  rfl

end VersionForm

/-- The parts of a version of the grammar. -/
structure Pieces.Plain (pieces : Pieces) : Prop where
  leading : pieces.leading ≤ 1
  count : 2 ≤ pieces.components.length ∧ pieces.components.length ≤ 3
  runs : ∀ component ∈ pieces.components, DigitRun component

theorem plain_iff {pieces : Pieces} : pieces.Plain ↔ ∃ form : VersionForm, form.pieces = pieces := by
  constructor
  · rintro ⟨leading, ⟨least, most⟩, runs⟩
    obtain ⟨major, later, equal⟩ := List.exists_cons_of_ne_nil pieces.nonempty
    rw [equal] at least most runs
    obtain ⟨minor, rest, rfl⟩ := List.exists_cons_of_length_pos (Nat.lt_of_succ_lt_succ least)
    obtain ⟨isMajor, others⟩ := List.forall_mem_cons.mp runs
    obtain ⟨isMinor, last⟩ := List.forall_mem_cons.mp others
    have prefixed : (decide (pieces.leading = 1)).toNat = pieces.leading := by
      rcases Nat.le_one_iff_eq_zero_or_eq_one.mp leading with none | one
      · rw [none]
        rfl
      · rw [one]
        rfl
    cases rest with
    | nil =>
        refine ⟨⟨decide (pieces.leading = 1), ⟨major, isMajor⟩, ⟨minor, isMinor⟩, none,
          pieces.prerelease⟩, ?_⟩
        exact Pieces.ext prefixed equal.symm rfl
    | cons patch beyond =>
        have empty : beyond.length = 0 := by
          simp only [List.length_cons] at most
          omega
        have none : beyond = [] := List.eq_nil_of_length_eq_zero empty
        have isPatch := last patch List.mem_cons_self
        subst none
        refine ⟨⟨decide (pieces.leading = 1), ⟨major, isMajor⟩, ⟨minor, isMinor⟩,
          some ⟨patch, isPatch⟩, pieces.prerelease⟩, ?_⟩
        exact Pieces.ext prefixed equal.symm rfl
  · rintro ⟨form, rfl⟩
    refine ⟨Bool.toNat_le _, ⟨?_, ?_⟩, fun component among => VersionForm.digitRun_of_mem among⟩
    · exact Nat.le_add_left 2 _
    · have bound : (form.patch.map Subtype.val).toList.length ≤ 1 := by cases form.patch <;> simp
      exact Nat.add_le_add_right bound 2

/-- The numbers of the grammar are read if they are short enough. -/
theorem numbersRead_form {limit : Nat} {form : VersionForm}
    (short : ∀ component ∈ form.components, WithinLimit limit component.length) :
    NumbersRead limit form.components
      (form.result.1, form.result.2.1, form.result.2.2.1) := by
  obtain ⟨prefixed, major, minor, patch, prerelease⟩ := form
  obtain ⟨shortMajor, others⟩ := List.forall_mem_cons.mp short
  obtain ⟨shortMinor, last⟩ := List.forall_mem_cons.mp others
  refine ⟨major.val, minor.val, _, rfl, (int_digitRun major.property limit).1 shortMajor,
    (int_digitRun minor.property limit).1 shortMinor, ?_⟩
  cases patch with
  | none => rfl
  | some patch =>
      exact (int_digitRun patch.property limit).1 (last patch.val List.mem_cons_self)

/-! ## Where the parser follows the grammar -/

/-- The parser returns the parts of every version of the grammar and raises a value error
for any other text. -/
def FollowsGrammar (limit : Nat) (version : String) : Prop :=
  (∀ form : VersionForm, form.text = version.toList →
    parseSemanticVersion limit version = .ok form.result) ∧
  ((∀ form : VersionForm, form.text ≠ version.toList) →
    ∃ message, parseSemanticVersion limit version = .error (.valueError message))

/-- Text outside the grammar whose components are literals nevertheless: it has more than one
`v` in front, more than three components, or a component that is not a run of digits. -/
def Lenient (limit : Nat) (version : String) : Prop :=
  ∃ pieces : Pieces, pieces.text = version.toList ∧ pieces.Readable limit ∧ ¬ pieces.Plain

/-- A version of the grammar in which a number has more digits than `int` converts. -/
def Oversized (limit : Nat) (version : String) : Prop :=
  ∃ form : VersionForm, form.text = version.toList ∧
    ∃ component ∈ form.components, ¬ WithinLimit limit component.length

theorem not_readable_of_oversized {limit : Nat} {form : VersionForm} {component : List Char}
    (among : component ∈ form.components) (beyond : ¬ WithinLimit limit component.length) :
    ¬ form.pieces.Readable limit := by
  intro readable
  have three : form.components.take 3 = form.components := by
    unfold VersionForm.components
    cases form.patch <;> rfl
  obtain ⟨value, converted⟩ := int_returns_iff.mpr (readable.read component (three.symm ▸ among))
  obtain ⟨message, refused⟩ := (int_digitRun (VersionForm.digitRun_of_mem among) limit).2 beyond
  rw [refused] at converted
  cases converted

/-- The parser accepts exactly the grammar on texts that are neither lenient nor oversized. -/
theorem followsGrammar_iff (limit : Nat) (version : String) :
    FollowsGrammar limit version ↔ ¬ Lenient limit version ∧ ¬ Oversized limit version := by
  constructor
  · rintro ⟨accepts, refuses⟩
    constructor
    · rintro ⟨pieces, equal, readable, outside⟩
      obtain ⟨numbers, read⟩ := exists_numbersRead_iff.mpr readable
      have none : ∀ form : VersionForm, form.text ≠ version.toList := by
        intro form same
        refine outside (plain_iff.mpr ⟨form, Pieces.text_injective ?_⟩)
        rw [form.text_pieces, same, equal]
      obtain ⟨message, refused⟩ := refuses none
      rw [(parseSemanticVersion_pieces equal).1 numbers read] at refused
      cases refused
    · rintro ⟨form, equal, component, among, beyond⟩
      have parts : form.pieces.text = version.toList := form.text_pieces.trans equal
      obtain ⟨message, refused⟩ :=
        (parseSemanticVersion_pieces parts).2 (not_readable_of_oversized among beyond)
      rw [accepts form equal] at refused
      cases refused
  · rintro ⟨strict, short⟩
    constructor
    · intro form equal
      have parts : form.pieces.text = version.toList := form.text_pieces.trans equal
      refine (parseSemanticVersion_pieces parts).1 _ (numbersRead_form fun component among => ?_)
      by_contra beyond
      exact short ⟨form, equal, component, among, beyond⟩
    · intro none
      obtain ⟨pieces, equal⟩ := Pieces.exists_text_eq version.toList
      refine (parseSemanticVersion_pieces equal).2 fun readable => ?_
      refine strict ⟨pieces, equal, readable, fun plain => ?_⟩
      obtain ⟨form, rfl⟩ := plain_iff.mp plain
      exact none form (form.text_pieces.symm.trans equal)

/-- A second `v` is stripped as well. -/
theorem secondPrefix_accepted : ¬ FollowsGrammar 4300 "vv1.2" := by
  rintro ⟨-, refuses⟩
  have none : ∀ form : VersionForm, form.text ≠ "vv1.2".toList := by
    intro form equal
    have leading := form.pieces.takeWhile_text
    rw [form.text_pieces, equal] at leading
    have two : 2 = form.pieces.leading := by simpa using congrArg List.length leading
    have one : form.pieces.leading ≤ 1 := Bool.toNat_le form.prefixed
    omega
  obtain ⟨message, refused⟩ := refuses none
  cases refused

end DvSpec.PeerInfo
