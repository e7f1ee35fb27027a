import PolyExpression.Parameter.NameTable
import PolyExpression.Settings.Line

/-!
Parameters found by name. However names are spread over the buckets, each entry of the table of all parameters is a
parameter under its own name. Main statement: so a text finds a parameter exactly if it is the parameter's name.
-/

namespace PolyExpression

namespace NameTable

/-- Every entry is a parameter under its own name. -/
def IsSound (table : NameTable) : Prop := ∀ entries ∈ table.buckets, ∀ entry ∈ entries, entry.1 = entry.2.name

theorem isSound_empty : empty.IsSound := by
  intro entries hentries entry hentry
  obtain ⟨-, rfl⟩ := Vector.mem_replicate.mp hentries
  cases hentry

theorem bucket_mem (table : NameTable) (name : String) : table.bucket name ∈ table.buckets :=
  Vector.getElem_mem _

theorem IsSound.insert {table : NameTable} (h : table.IsSound) (id : ParameterId) :
    (table.insert id.name id).IsSound := by
  unfold NameTable.insert
  dsimp only
  split
  · exact h
  · -- One bucket changes, and its only new entry is the parameter under its name.
    intro entries hentries entry hentry
    rcases @Vector.mem_or_eq_of_mem_set _ _ _ _ _ _ (hash id.name).isLt hentries with hkept | rfl
    · exact h entries hkept entry hentry
    · rcases List.mem_append.mp hentry with hold | hnew
      · exact h _ (table.bucket_mem id.name) entry hold
      · obtain rfl := List.mem_singleton.mp hnew
        rfl

theorem isSound_standard : standard.IsSound :=
  List.foldlRecOn ParameterId.all _ (motive := IsSound) isSound_empty fun _ h id _ => h.insert id

/-- What is found under a text has it as its name. -/
theorem IsSound.find? {table : NameTable} (h : table.IsSound) {name : String} {id : ParameterId}
    (hfind : table.find? name = some id) : name = id.name := by
  unfold NameTable.find? at hfind
  dsimp only at hfind
  split at hfind
  · cases hfind
  · obtain ⟨entry, hentry, rfl⟩ := Option.map_eq_some_iff.mp hfind
    have hname : entry.1 = name := by simpa using List.find?_some hentry
    rw [← hname]
    exact h _ (table.bucket_mem name) entry (List.mem_of_find?_eq_some hentry)

end NameTable

namespace ParameterId

/-- Names are short, made of capital letters and digits, and found again. -/
theorem name_spec (id : ParameterId) : id.name.toList ≠ [] ∧ id.name.toList.length < Settings.nameLimit
    ∧ (∀ c ∈ id.name.toList, Settings.isNameChar c = true) ∧ id.name.toList.map Char.toUpper = id.name.toList
    ∧ named? id.name = some id := by
  have hall : ∀ id ∈ all, id.name.toList ≠ [] ∧ id.name.toList.length < Settings.nameLimit
      ∧ id.name.toList.all Settings.isNameChar = true ∧ id.name.toList.map Char.toUpper = id.name.toList
      ∧ named? id.name = some id := by
    decide +kernel
  obtain ⟨hne, hshort, hchars, hupper, hnamed⟩ := hall id (mem_all id)
  exact ⟨hne, hshort, List.all_eq_true.mp hchars, hupper, hnamed⟩

theorem named?_eq_some_iff {name : String} {id : ParameterId} : named? name = some id ↔ name = id.name := by
  constructor
  · exact NameTable.isSound_standard.find?
  · rintro rfl
    exact id.name_spec.2.2.2.2

end ParameterId

end PolyExpression
