import DvSpec.Library.BigEndian
import DvSpec.Types.Duty

/-!
# SHA-256

The digest behind every hash root, on words below 2^32.  The padded message and
its windows of sixteen words are single numbers, the oldest word on top, so that
a whole digest is evaluated by number operations.
-/

namespace DvSpec.Sha256

open DvSpec.Library

def lowWord (number : Nat) : Nat := Nat.mod number 4294967296

/-- Addition of words. -/
def addWords (one two : Nat) : Nat := lowWord (Nat.add one two)

def xorWords (one two three : Nat) : Nat := Nat.xor (Nat.xor one two) three

/-- The rotations of a word to the right by three counts, combined: the low words of the
shifts of the word written twice. -/
def rotations (one two three word : Nat) : Nat :=
  let twice := Nat.mul word 4294967297
  lowWord (xorWords (Nat.shiftRight twice one) (Nat.shiftRight twice two)
    (Nat.shiftRight twice three))

/-- Two rotations of a word to the right and a shift, combined. -/
def rotationsAndShift (one two shift word : Nat) : Nat :=
  let twice := Nat.mul word 4294967297
  lowWord (xorWords (Nat.shiftRight twice one) (Nat.shiftRight twice two)
    (Nat.shiftRight word shift))

/-- `first` where the bits of `selector` are set, and `second` elsewhere. -/
def choice (selector first second : Nat) : Nat :=
  Nat.xor (Nat.land selector first) (Nat.land (Nat.xor selector 4294967295) second)

def majority (one two three : Nat) : Nat :=
  xorWords (Nat.land one two) (Nat.land one three) (Nat.land two three)

/-- The constants of the 64 rounds. -/
def roundConstants : List Nat :=
  [0x428a2f98, 0x71374491, 0xb5c0fbcf, 0xe9b5dba5, 0x3956c25b, 0x59f111f1, 0x923f82a4, 0xab1c5ed5,
    0xd807aa98, 0x12835b01, 0x243185be, 0x550c7dc3, 0x72be5d74, 0x80deb1fe, 0x9bdc06a7, 0xc19bf174,
    0xe49b69c1, 0xefbe4786, 0x0fc19dc6, 0x240ca1cc, 0x2de92c6f, 0x4a7484aa, 0x5cb0a9dc, 0x76f988da,
    0x983e5152, 0xa831c66d, 0xb00327c8, 0xbf597fc7, 0xc6e00bf3, 0xd5a79147, 0x06ca6351, 0x14292967,
    0x27b70a85, 0x2e1b2138, 0x4d2c6dfc, 0x53380d13, 0x650a7354, 0x766a0abb, 0x81c2c92e, 0x92722c85,
    0xa2bfe8a1, 0xa81a664b, 0xc24b8b70, 0xc76c51a3, 0xd192e819, 0xd6990624, 0xf40e3585, 0x106aa070,
    0x19a4c116, 0x1e376c08, 0x2748774c, 0x34b0bcb5, 0x391c0cb3, 0x4ed8aa4a, 0x5b9cca4f, 0x682e6ff3,
    0x748f82ee, 0x78a5636f, 0x84c87814, 0x8cc70208, 0x90befffa, 0xa4506ceb, 0xbef9a3f7, 0xc67178f2]

/-- The working variables. -/
structure State where
  a : Nat
  b : Nat
  c : Nat
  d : Nat
  e : Nat
  f : Nat
  g : Nat
  h : Nat

def initialState : State where
  a := 0x6a09e667
  b := 0xbb67ae85
  c := 0x3c6ef372
  d := 0xa54ff53a
  e := 0x510e527f
  f := 0x9b05688c
  g := 0x1f83d9ab
  h := 0x5be0cd19

/-- One round, with the sum of its constant and its message word. -/
def round (state : State) (input : Nat) : State :=
  let chosen := choice state.e state.f state.g
  let first := Nat.add (Nat.add state.h (rotations 6 11 25 state.e)) (Nat.add chosen input)
  let second := Nat.add (rotations 2 13 22 state.a) (majority state.a state.b state.c)
  { a := addWords first second
    b := state.a
    c := state.b
    d := state.c
    e := addWords state.d first
    f := state.e
    g := state.f
    h := state.g }

/-- The word `back` steps before the newest one of the window. -/
def wordBack (window back : Nat) : Nat := lowWord (Nat.shiftRight window (Nat.mul 32 back))

/-- The sixteen words of a block. -/
def lowBlock (number : Nat) : Nat := Nat.mod number (Nat.pow 2 512)

/-- The window moved on by one word of the message schedule. -/
def nextWindow (window : Nat) : Nat :=
  let first := rotationsAndShift 7 18 3 (wordBack window 14)
  let second := rotationsAndShift 17 19 10 (wordBack window 1)
  let word := lowWord (Nat.add (Nat.add (wordBack window 15) first)
    (Nat.add (wordBack window 6) second))
  lowBlock (Nat.add (Nat.shiftLeft window 32) word)

/-- The rounds of the given constants. -/
def rounds : List Nat → Nat → State → State
  | [], _, state => state
  | constant :: rest, window, state =>
      rounds rest (nextWindow window) (round state (Nat.add constant (wordBack window 15)))

/-- Compress one block of sixteen words into the state. -/
def compress (state : State) (block : Nat) : State :=
  let mixed := rounds roundConstants block state
  { a := addWords state.a mixed.a
    b := addWords state.b mixed.b
    c := addWords state.c mixed.c
    d := addWords state.d mixed.d
    e := addWords state.e mixed.e
    f := addWords state.f mixed.f
    g := addWords state.g mixed.g
    h := addWords state.h mixed.h }

/-- The blocks of a message of that many bytes with its padding. -/
def blockCount (length : Nat) : Nat := Nat.div (Nat.add length 72) 64

/-- The message with a one bit, zeros and its length in bits, as a number. -/
def padded (message : Bytes) : Nat :=
  let bits := Nat.mul 8 message.length
  let zeros := Nat.sub (Nat.mul 512 (blockCount message.length)) (Nat.add bits 8)
  Nat.add (Nat.shiftLeft (Nat.add (Nat.mul (fromBigEndian message) 256) 128) zeros) bits

/-- The blocks of a padded message, those before the last `back` done. -/
def compressAll (message : Nat) : Nat → State → State
  | 0, state => state
  | back + 1, state =>
      compressAll message back
        (compress state (lowBlock (Nat.shiftRight message (Nat.mul 512 back))))

/-- The four bytes of a word before others. -/
def wordBytes (word : Nat) (rest : Bytes) : Bytes :=
  UInt8.ofNat (Nat.shiftRight word 24) :: UInt8.ofNat (Nat.shiftRight word 16) ::
    UInt8.ofNat (Nat.shiftRight word 8) :: UInt8.ofNat word :: rest

/-- `hashlib.sha256(message).digest()`. -/
def sha256 (message : Bytes) : Bytes :=
  let state := compressAll (padded message) (blockCount message.length) initialState
  wordBytes state.a (wordBytes state.b (wordBytes state.c (wordBytes state.d
    (wordBytes state.e (wordBytes state.f (wordBytes state.g (wordBytes state.h [])))))))

theorem length_sha256 (message : Bytes) : (sha256 message).length = 32 := rfl

/-- The digests of three letters and of a block of zeros. -/
example : sha256 [97, 98, 99] =
      [186, 120, 22, 191, 143, 1, 207, 234, 65, 65, 64, 222, 93, 174, 34, 35, 176, 3, 97, 163,
        150, 23, 122, 156, 180, 16, 255, 97, 242, 0, 21, 173] ∧
    sha256 (List.replicate 64 0) =
      [245, 165, 253, 66, 209, 106, 32, 48, 39, 152, 239, 110, 211, 9, 151, 155, 67, 0, 61, 35,
        32, 217, 240, 232, 234, 152, 49, 169, 39, 89, 251, 75] := by decide +kernel

end DvSpec.Sha256
