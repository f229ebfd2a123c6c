import DvSpec.Library.Dict

/-!
# JSON documents

Documents as trees, and what is asked of a library that turns them into text: reading what
it has written gives the document back, as long as no object repeats a key.
-/

namespace DvSpec.Library

inductive Json where
  | null
  | bool (value : Bool)
  | num (value : Int)
  | str (text : String)
  | arr (items : List Json)
  | obj (entries : List (String × Json))

namespace Json

/-- Induction on a document: an array by its items, an object by its values. -/
@[elab_as_elim]
theorem induction {motive : Json → Prop} (null : motive null)
    (bool : ∀ value, motive (bool value)) (num : ∀ value, motive (num value))
    (str : ∀ text, motive (str text))
    (arr : ∀ items, (∀ item ∈ items, motive item) → motive (arr items))
    (obj : ∀ entries, (∀ entry ∈ entries, motive entry.2) → motive (obj entries))
    (document : Json) : motive document :=
  @Json.rec motive (fun items => ∀ item ∈ items, motive item)
    (fun entries => ∀ entry ∈ entries, motive entry.2) (fun entry => motive entry.2)
    null bool num str arr obj (fun _ member => by cases member)
    (fun _ _ first rest => List.forall_mem_cons.mpr ⟨first, rest⟩) (fun _ member => by cases member)
    (fun _ _ first rest => List.forall_mem_cons.mpr ⟨first, rest⟩) (fun _ _ value => value) document

/-- No object of the document repeats a key. -/
inductive WellFormed : Json → Prop where
  | null : WellFormed null
  | bool (value : Bool) : WellFormed (bool value)
  | num (value : Int) : WellFormed (num value)
  | str (text : String) : WellFormed (str text)
  | arr {items : List Json} : (∀ item ∈ items, WellFormed item) → WellFormed (arr items)
  | obj {entries : List (String × Json)} : (entries.map Prod.fst).Nodup →
      (∀ entry ∈ entries, WellFormed entry.2) → WellFormed (obj entries)

end Json

/-- A library that writes documents to text and reads them back. -/
structure JsonLibrary where
  dumps : Json → String
  loads : String → Option Json
  loads_dumps : ∀ document, document.WellFormed → loads (dumps document) = some document

end DvSpec.Library
