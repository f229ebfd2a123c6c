import DvSpec.Crypto.Signing

/-!
# Schemes on discrete logarithms

The scheme over groups given by the discrete logarithms of their points, with the real
encodings of the points that occur tabulated.  Signatures are taken relative to the
hashed message, as all of them are over one.
-/

namespace DvSpec.Bls

open DvSpec.Library DvSpec.Library.Raising

/-! ## Tabulated encodings -/

/-- The code of a logarithm: the tabulated one, or the logarithm itself. -/
def tabulatedCode (table : List (Nat × Nat)) (log : Nat) : Nat :=
  (Dict.lookup log table).getD log

/-- The logarithm a code stands for. -/
def tabulatedLog (table : List (Nat × Nat)) (code : Nat) : Nat :=
  (Dict.lookup code (table.map Prod.swap)).getD code

/-- A table of distinct reduced logarithms and distinct codes that are no logarithms. -/
structure Tabulates (length : Nat) (table : List (Nat × Nat)) : Prop where
  logs : (table.map Prod.fst).Nodup
  codes : (table.map Prod.snd).Nodup
  large : ∀ entry ∈ table, blsModulus ≤ entry.2
  fits : ∀ entry ∈ table, entry.2 < 256 ^ length
  room : blsModulus ≤ 256 ^ length

namespace Tabulates

variable {length : Nat} {table : List (Nat × Nat)}

theorem swapped_nodup (tabulates : Tabulates length table) :
    ((table.map Prod.swap).map Prod.fst).Nodup := by
  rw [List.map_map]
  exact tabulates.codes

theorem tabulatedLog_tabulatedCode (tabulates : Tabulates length table) {log : Nat}
    (below : log < blsModulus) : tabulatedLog table (tabulatedCode table log) = log := by
  unfold tabulatedCode
  cases listed : Dict.lookup log table with
  | some code =>
      have entry : (code, log) ∈ table.map Prod.swap :=
        List.mem_map.mpr ⟨(log, code), Dict.mem_of_lookup listed, rfl⟩
      rw [Option.getD_some, tabulatedLog, Dict.lookup_of_mem tabulates.swapped_nodup entry,
        Option.getD_some]
  | none =>
      rw [Option.getD_none, tabulatedLog]
      cases coded : Dict.lookup log (table.map Prod.swap) with
      | none => rfl
      | some other =>
          obtain ⟨entry, member, equal⟩ := List.mem_map.mp (Dict.mem_of_lookup coded)
          have code : entry.2 = log := congrArg Prod.fst equal
          exact absurd (tabulates.large entry member) (Nat.not_le_of_lt (code ▸ below))

theorem tabulatedCode_lt (tabulates : Tabulates length table) {log : Nat}
    (below : log < blsModulus) : tabulatedCode table log < 256 ^ length := by
  unfold tabulatedCode
  cases listed : Dict.lookup log table with
  | some code => exact tabulates.fits (log, code) (Dict.mem_of_lookup listed)
  | none => exact Nat.lt_of_lt_of_le below tabulates.room

end Tabulates

/-- The logarithms add as the points do. -/
@[reducible]
def logarithms : AddCommGroup (ZMod blsModulus) := inferInstance

/-- A group given by the discrete logarithms of its points. -/
@[reducible]
def tabulatedCurve (length : Nat) (table : List (Nat × Nat)) : Curve where
  Point := ZMod blsModulus
  add one two := one + two
  multiply point n := n • point
  encode point := toBigEndian length (tabulatedCode table point.val)
  decode data :=
    let point : ZMod blsModulus := tabulatedLog table (fromBigEndian data)
    if toBigEndian length (tabulatedCode table point.val) = data then .ok point
    else .error (.valueError "invalid point encoding")

theorem lawful_tabulatedCurve {length : Nat} {table : List (Nat × Nat)}
    (tabulates : Tabulates length table) : (tabulatedCurve length table).Lawful where
  add_eq _ _ := rfl
  multiply_eq _ _ := rfl
  card_eq := Nat.card_zmod blsModulus
  decode_encode point := by
    change ZMod blsModulus at point
    have below := ZMod.val_lt point
    have decoded : ((tabulatedLog table (fromBigEndian (toBigEndian length
        (tabulatedCode table point.val))) : Nat) : ZMod blsModulus) = point := by
      rw [fromBigEndian_toBigEndian (tabulates.tabulatedCode_lt below),
        tabulates.tabulatedLog_tabulatedCode below, ZMod.natCast_zmod_val]
    simp only [decoded, if_true]

/-! ## The scheme -/

/-- Whether a key and a signature were decoded to one logarithm other than zero. -/
def sameLogarithm : Except PyError (ZMod blsModulus) → Except PyError (ZMod blsModulus) → Bool
  | .ok key, .ok point => decide (key ≠ 0 ∧ point = key)
  | _, _ => false

theorem sameLogarithm_eq_true_iff {pubkey signature : Except PyError (ZMod blsModulus)} :
    sameLogarithm pubkey signature = true ↔
      ∃ key, pubkey = .ok key ∧ key ≠ 0 ∧ ∃ point, signature = .ok point ∧ point * 1 = 1 * key := by
  simp only [mul_one, one_mul]
  cases pubkey with
  | error raised => simp [sameLogarithm]
  | ok key =>
      cases signature with
      | error raised => simp [sameLogarithm]
      | ok point => simp [sameLogarithm]

section

variable (g1Table g2Table : List (Nat × Nat))

@[reducible]
def tabulatedPyEcc : PyEcc where
  G1 := tabulatedCurve 48 g1Table
  G2 := tabulatedCurve 96 g2Table

/-- The sum of decoded points, `none` when one does not decode. -/
def tabulatedSum (length : Nat) (table : List (Nat × Nat)) (encoded : List Bytes) :
    Except PyError (ZMod blsModulus) := do
  let points ← encoded.mapM (tabulatedCurve length table).decode
  return points.sum

/-- Verification by comparing logarithms, which are relative to the hashed message. -/
def tabulatedVerify (pubkey signature : Bytes) : Bool :=
  sameLogarithm ((tabulatedCurve 48 g1Table).decode pubkey)
    ((tabulatedCurve 96 g2Table).decode signature)

/-- Verification under a key that was summed up. -/
def tabulatedVerifyUnder (signature : Bytes) : Except PyError (ZMod blsModulus) → Bool
  | .ok key => tabulatedVerify g1Table g2Table ((tabulatedCurve 48 g1Table).encode key) signature
  | .error _ => false

/-- Verification under the sum of the keys, of which there must be one. -/
def tabulatedVerifySum (pubkeys : List Bytes) (signature : Bytes) : Bool :=
  !pubkeys.isEmpty && tabulatedVerifyUnder g1Table g2Table signature (tabulatedSum 48 g1Table pubkeys)

@[reducible]
def tabulatedProofOfPossession : G2ProofOfPossession where
  skToPk secret := toBigEndian 48 (tabulatedCode g1Table (secret • (1 : ZMod blsModulus)).val)
  sign secret _ := toBigEndian 96 (tabulatedCode g2Table (secret • (1 : ZMod blsModulus)).val)
  verify pubkey _ signature := tabulatedVerify g1Table g2Table pubkey signature
  aggregate signatures := do
    let total ← tabulatedSum 96 g2Table signatures
    return (tabulatedCurve 96 g2Table).encode total
  fastAggregateVerify pubkeys _ signature := tabulatedVerifySum g1Table g2Table pubkeys signature

end

theorem tabulatedSum_eq {length : Nat} {table : List (Nat × Nat)} {encoded : List Bytes}
    {points : List (ZMod blsModulus)}
    (decoded : encoded.mapM (tabulatedCurve length table).decode = .ok points) :
    tabulatedSum length table encoded = .ok points.sum := by
  rw [tabulatedSum, decoded]
  rfl

theorem tabulatedVerify_iff {g1Table g2Table : List (Nat × Nat)} (pubkey signature : Bytes) :
    tabulatedVerify g1Table g2Table pubkey signature = true ↔
      ∃ key : ZMod blsModulus, (tabulatedCurve 48 g1Table).decode pubkey = .ok key ∧ key ≠ 0 ∧
        ∃ point : ZMod blsModulus, (tabulatedCurve 96 g2Table).decode signature = .ok point ∧
          point * 1 = 1 * key :=
  sameLogarithm_eq_true_iff

theorem tabulatedVerifySum_eq {g1Table g2Table : List (Nat × Nat)} {pubkeys : List Bytes}
    {keys : List (ZMod blsModulus)} (signature : Bytes) (nonempty : pubkeys ≠ [])
    (decoded : pubkeys.mapM (tabulatedCurve 48 g1Table).decode = .ok keys) :
    tabulatedVerifySum g1Table g2Table pubkeys signature =
      tabulatedVerify g1Table g2Table ((tabulatedCurve 48 g1Table).encode keys.sum) signature := by
  have total := congrArg (tabulatedVerifyUnder g1Table g2Table signature) (tabulatedSum_eq decoded)
  have listed : (!pubkeys.isEmpty) = true := by
    rw [Bool.not_eq_true', List.isEmpty_eq_false_iff]
    exact nonempty
  unfold tabulatedVerifySum
  rw [listed, Bool.true_and]
  exact total

/-- The logarithms make a scheme whose pairing is multiplication. -/
def tabulatedScheme {g1Table g2Table : List (Nat × Nat)} (one : Tabulates 48 g1Table)
    (two : Tabulates 96 g2Table) :
    @Scheme (tabulatedPyEcc g1Table g2Table) (tabulatedProofOfPossession g1Table g2Table)
      logarithms logarithms (ZMod blsModulus) logarithms :=
  @Scheme.mk (tabulatedPyEcc g1Table g2Table) (tabulatedProofOfPossession g1Table g2Table)
    logarithms logarithms (ZMod blsModulus) logarithms
    (1 : ZMod blsModulus) (fun _ => (1 : ZMod blsModulus))
    (AddMonoidHom.mul : ZMod blsModulus →+ ZMod blsModulus →+ ZMod blsModulus)
    (fun point vanishes => (@mul_one (ZMod blsModulus) _ point).symm.trans vanishes)
    (lawful_tabulatedCurve one) (lawful_tabulatedCurve two) (fun _ => rfl) (fun _ _ => rfl)
    (fun pubkey _ signature => tabulatedVerify_iff pubkey signature)
    (fun _ _ _ decoded => congrArg (fun total => total >>= fun total =>
      pure ((tabulatedCurve 96 g2Table).encode total)) (tabulatedSum_eq decoded))
    (fun _ _ => rfl)
    (fun _ _ _ signature nonempty decoded _ => tabulatedVerifySum_eq signature nonempty decoded)

/-- The code of a multiple of the point the logarithms are relative to. -/
theorem encode_multiple_one {length : Nat} {table : List (Nat × Nat)} {multiple : Nat}
    (small : multiple < blsModulus) :
    (tabulatedCurve length table).encode ((tabulatedCurve length table).multiply
      (1 : ZMod blsModulus) (multiple : ZMod blsModulus).val) =
        toBigEndian length (tabulatedCode table multiple) := by
  have log : ((multiple : ZMod blsModulus).val • (1 : ZMod blsModulus)).val = multiple := by
    rw [ZMod.val_cast_of_lt small, nsmul_one, ZMod.val_cast_of_lt small]
  exact congrArg (fun log => toBigEndian length (tabulatedCode table log)) log

/-! ## A key shared three of four -/

/-- The secret and the shares of the four nodes. -/
def sharedSecrets : List Nat :=
  [0x598d4150de5b558716e1ca4df2853d696c1cc47f3af380d9ac3db876ebd038c5,
    0x7113350cf92900d71d73cab886f244c12b589bfa98d2fd116e0d25265b82fedb,
    0x2a14b99e273adba1640ac3ea6be7ab097b50c6f7e04292598513ebc615f2b4c8,
    0x6c6d1daabbcbe076511a65f3b4a9204d03808d7d113ef8aff1520c541b1f5a8e,
    0x5041128c63a114c57e2f00c44df2f4811c6ca7842bcb7816b2c786d26b08f02b]

/-- The keys of the validator and of the four nodes, and the generator. -/
def sharedKeys : List (Nat × Nat) :=
  [(0, 0xc0 * 256 ^ 47),
    (1, 0x97f1d3a73197d7942695638c4fa9ac0fc3688c4f9774b905a14e3a3f171bac586c55e83ff97a1aeffb3af00adb22c6bb),
    (0x598d4150de5b558716e1ca4df2853d696c1cc47f3af380d9ac3db876ebd038c5,
      0x84a6f81ad08d3491604f6eac59a23a8122545bbb09aa5221b0b9b3b31d4f2a802c31257dcb30a9dbc48116d5097dc99c),
    (0x7113350cf92900d71d73cab886f244c12b589bfa98d2fd116e0d25265b82fedb,
      0xa60fed59bf34aef87bc3936e29ed73dbb7eb1752706d5e479e96e1f40502a08d79dd0e9e81e685223bfcce53dd3f6718),
    (0x2a14b99e273adba1640ac3ea6be7ab097b50c6f7e04292598513ebc615f2b4c8,
      0x88720d6738df12cfd0446ed19381f3140f1722a72aefa7752893fbf0fda262777cf1f24bbb6bd5cbe965ca522787c918),
    (0x6c6d1daabbcbe076511a65f3b4a9204d03808d7d113ef8aff1520c541b1f5a8e,
      0xa6cdd5e776f805a3878ee5e7d867f4a8c94c8ecce81289b64e7f3cb55640d005559d48b5c5008f6a83dd75b228e2b9d5),
    (0x5041128c63a114c57e2f00c44df2f4811c6ca7842bcb7816b2c786d26b08f02b,
      0xb2743d817a54a2cf4953543648556fa44620ff8fbe927c6ed229d3500095002a1a0ab99a900c16116a860225ec506282)]

/-- The signatures of the validator and of the four nodes over one message, and the plain sum
of the latter. -/
def sharedSignatures : List (Nat × Nat) :=
  [(0, 0xc0 * 256 ^ 95),
    (0x598d4150de5b558716e1ca4df2853d696c1cc47f3af380d9ac3db876ebd038c5,
      0x801768d4f0352c5ba204ede60cfa70bc6888f71ff8f73bd27429f5a5d92d2a001db38caa59975fe729dd35c5319f9fee * 256 ^ 48 +
      0x0792b67f912ba478a20f8f8af2b502aa934e7284d025debbaec6e3c6afea0fcd5ea0b2006135c88bf8388d43bb6af19d),
    (0x7113350cf92900d71d73cab886f244c12b589bfa98d2fd116e0d25265b82fedb,
      0x906341bc7b715c2de4b5723ed77f31521c9902938977e7d619295e35ff4d216f3ae437d235d632e592f9140fb6137bcc * 256 ^ 48 +
      0x09b828999f9799de1af6bb3e5da77e148b65b988e068a3aa34dd95fc4f625cfd03f3cac748eceff9da8f74954248872c),
    (0x2a14b99e273adba1640ac3ea6be7ab097b50c6f7e04292598513ebc615f2b4c8,
      0x89b7078f9f9101a8002f884604bbea18f35025d1e81747c5b5c097194de80ca92273aca0469e459151e2047b919ccba6 * 256 ^ 48 +
      0x10efd8c474fa2c54e451db0592b5f93d689efa58f69cd7c35016d10e9a391b430bfd3f8ba9a1f229ad62f965efb4431e),
    (0x6c6d1daabbcbe076511a65f3b4a9204d03808d7d113ef8aff1520c541b1f5a8e,
      0xa34ece44c629645fda7f2e74681c26987ddbefcf8b3e60a14344ddd0e21f599753ac992e81d4840afff3fa15faac5100 * 256 ^ 48 +
      0x14caf21dc26ef0b707d8c376195d4b46dfb03e31d8f97b04ae1dfb68304ff3776e84c29fd9c123b22d4497a8539f6799),
    (0x5041128c63a114c57e2f00c44df2f4811c6ca7842bcb7816b2c786d26b08f02b,
      0x88e913f6169be5936405ecff2fafba8ff5eec6953e2a4a6846c81d28aad7d54e316d2e12d1de2727c11aad5854bcd7e0 * 256 ^ 48 +
      0x0695fc8ad93b9aab63072d4455c27a224fa6e143743cd460bd7b3658464d2f00bc5d99a2cdd7fcf32cdfdc8ce0afaa67),
    (0x6ffad03bec95d723ea54454ae232548e1f1b4fedb6234833973aa414f79dfe5a,
      0xaa87923abb4a288568e1d52053d077dcfeaf775c10260daed963c995bcc6eb82c1b25b19683800ad2af1fc0477a59d57 * 256 ^ 48 +
      0x0524d1e58eb185514031f74a10408dcf7c1321bd54f59c5e2fdd3c5419adc48afaec3599f78f75e4fb9441682b56ef62)]

theorem sharedKeys_tabulates : Tabulates 48 sharedKeys :=
  ⟨by decide +kernel, by decide +kernel, by decide +kernel, by decide +kernel, by decide +kernel⟩

theorem sharedSignatures_tabulates : Tabulates 96 sharedSignatures :=
  ⟨by decide +kernel, by decide +kernel, by decide +kernel, by decide +kernel, by decide +kernel⟩

end DvSpec.Bls
