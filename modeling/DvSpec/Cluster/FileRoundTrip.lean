import DvSpec.Cluster.Files
import DvSpec.Cluster.HashRoots
import DvSpec.Library.JsonText
import DvSpec.Types.Coercions

/-!
# Cluster files survive a write and a read

Every declared field reads what it writes, so a file reads as the value it was written
from, and the hashes over that value stay what they were.
-/

namespace DvSpec.Cluster

open DvSpec.Library

/-- Reading the file of a value gives the value. -/
theorem modelValidate_modelDumpJson {α : Type} (json : JsonLibrary) (codec : Codec α) (value : α) :
    modelValidate json codec (modelDumpJson json codec value) = .valid value := by
  have loaded := json.loads_dumps (codec.serialize value) (codec.wellFormed value)
  unfold modelValidate modelDumpJson
  simp only [loaded]
  exact codec.validate_serialize value

/-- What the file of a definition reads as: an equal definition with the same hashes. -/
structure DefinitionSurvives (json : JsonLibrary) (coercions : Coercions)
    (sha256 : Bytes → Bytes) (definition reparsed : Definition) : Prop where
  reads : modelValidate json (definitionModel coercions)
    (modelDumpJson json (definitionModel coercions) definition) = .valid reparsed
  equal : reparsed = definition
  configHash : configHash sha256 reparsed = configHash sha256 definition
  definitionHash : definitionHash sha256 reparsed = definitionHash sha256 definition

/-- What the file of a lock reads as: an equal lock with the same hashes. -/
structure LockSurvives (json : JsonLibrary) (coercions : Coercions) (sha256 : Bytes → Bytes)
    (lock reparsed : Lock) : Prop where
  reads : modelValidate json (lockModel coercions)
    (modelDumpJson json (lockModel coercions) lock) = .valid reparsed
  equal : reparsed = lock
  lockHash : lockHash sha256 reparsed = lockHash sha256 lock
  configHash : configHash sha256 reparsed.definition = configHash sha256 lock.definition
  definitionHash :
    definitionHash sha256 reparsed.definition = definitionHash sha256 lock.definition

theorem definition_survives (json : JsonLibrary) (coercions : Coercions)
    (sha256 : Bytes → Bytes) (definition : Definition) :
    DefinitionSurvives json coercions sha256 definition definition where
  reads := modelValidate_modelDumpJson json (definitionModel coercions) definition
  equal := rfl
  configHash := rfl
  definitionHash := rfl

theorem lock_survives (json : JsonLibrary) (coercions : Coercions) (sha256 : Bytes → Bytes)
    (lock : Lock) : LockSurvives json coercions sha256 lock lock where
  reads := modelValidate_modelDumpJson json (lockModel coercions) lock
  equal := rfl
  lockHash := rfl
  configHash := rfl
  definitionHash := rfl

/-- Every definition and every lock is read back from its file with its hashes unchanged.
Byte fields accept an even number of hex digits with or without the prefix, and decode
what they encode. -/
theorem clusterFiles_survive (json : JsonLibrary) (coercions : Coercions)
    (sha256 : Bytes → Bytes) :
    (∀ definition, ∃ reparsed, DefinitionSurvives json coercions sha256 definition reparsed) ∧
      (∀ lock, ∃ reparsed, LockSurvives json coercions sha256 lock reparsed) ∧
      (∀ text, (∃ bytes, decodeHexBytes text = .ok bytes) ↔
        ∃ digits, HexText digits ∧ (text.toList = digits ∨ text.toList = '0' :: 'x' :: digits)) ∧
      ∀ bytes, decodeHexBytes (encodeHexBytes bytes) = .ok bytes :=
  ⟨fun definition => ⟨definition, definition_survives json coercions sha256 definition⟩,
    fun lock => ⟨lock, lock_survives json coercions sha256 lock⟩,
    decodeHexBytes_accepts_iff, decodeHexBytes_encodeHexBytes⟩

/-- A lock of two operators, with a validator, its shares and a deposit. -/
theorem clusterFiles_survive_pair :
    ∃ reparsed, LockSurvives Json.compactLibrary laxCoercions Sha256.sha256
      (pairLock ⟨2, by decide⟩) reparsed :=
  (clusterFiles_survive Json.compactLibrary laxCoercions Sha256.sha256).2.1 _

end DvSpec.Cluster
