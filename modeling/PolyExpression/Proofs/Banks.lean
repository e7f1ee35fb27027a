import PolyExpression.Bank
import PolyExpression.Proofs.Programs

/-!
Banks written and read back. Reading a bank goes through its programs once, and each of them takes the next section
that is left. Main statements: every program is read from the section at its index and the programs behind the last
section are blank; a bank that is written is read again, whatever bank reads it.
-/

namespace PolyExpression.Bank

open Settings

/-! ### What all banks are like -/

theorem programName_defaultName (index : Fin programCount) : programName (defaultName index) = defaultName index := by
  have hall : ∀ index : Fin programCount, programName (defaultName index) = defaultName index := by decide +kernel
  exact hall index

theorem blankProgram_eq (index : Fin programCount) :
    blankProgram index = ⟨defaultName index, defaultName index, []⟩ := by
  have hnone : sections (linesOf []) = [] := rfl
  rw [blankProgram, Program.ofText_eq, Program.load_eq, hnone, programName_defaultName]
  rfl

/-- Every program has the default name of its index. -/
def HasDefaultNames (programs : Vector Program programCount) : Prop :=
  ∀ index : Fin programCount, (programs.get index).defaultName = defaultName index

/-- Every program is like a program that can be stored, and has the default name of its index. -/
structure WellFormed (bank : Bank) : Prop where
  program : ∀ index : Fin programCount, (bank.programs.get index).WellFormed
  defaultNames : HasDefaultNames bank.programs

/-- The banks that come of the initial one by reading texts, by reading and naming single programs, and by selecting. -/
inductive Reachable : Bank → Prop
  | initial : Reachable .initial
  | load {bank : Bank} (h : Reachable bank) (text : List Char) : Reachable (bank.load text)
  | loadNames {bank : Bank} (h : Reachable bank) (text : List Char) : Reachable (bank.loadNames text)
  | loadProgram {bank : Bank} (h : Reachable bank) (index : Fin programCount) (text : List Char) :
      Reachable (bank.modify index (·.load text))
  | renameProgram {bank : Bank} (h : Reachable bank) (index : Fin programCount) (text : List Char) :
      Reachable (bank.modify index (·.rename text))
  | select {bank : Bank} (h : Reachable bank) (index : ℕ) : Reachable (bank.select index)

/-! ### Reading -/

/-- What a program becomes when it is read from a section, or from none, and only its name may be kept. -/
def entry (namesOnly : Bool) (program : Program) (section? : Option (List (List Char))) : Program :=
  let read := section?.elim program.blanked program.fromSection
  if namesOnly then { read with body := [] } else read

variable {namesOnly : Bool} {programs : Vector Program programCount} {lines : List (List Char)}

theorem blankProgram_eq_entry {index : Fin programCount} (h : (programs.get index).defaultName = defaultName index) :
    blankProgram index = entry namesOnly (programs.get index) none := by
  rw [blankProgram_eq, ← h]
  cases namesOnly <;> rfl

/-- One program is read from the first section that is left, and the sections behind it are left over. -/
theorem readProgram_spec (namesOnly : Bool) (lines : List (List Char)) {index : Fin programCount}
    (h : (programs.get index).defaultName = defaultName index) :
    (readProgram namesOnly (programs, lines) index).1 =
        programs.set index (entry namesOnly (programs.get index) (sections lines).head?) index.isLt
      ∧ sections (readProgram namesOnly (programs, lines) index).2 = (sections lines).tail := by
  cases lines with
  | nil =>
      refine ⟨?_, rfl⟩
      show programs.set index (blankProgram index) = programs.set index (entry namesOnly (programs.get index) none)
      rw [blankProgram_eq_entry h]
  | cons line rest =>
      obtain ⟨hprogram, hrest⟩ := (programs.get index).readSection_spec (line :: rest)
      refine ⟨?_, hrest⟩
      rw [entry, ← hprogram]
      rfl

/-- Where the reading of some lines stands after `k` programs: these are what the first `k` sections make of them, the
others are as they were, and the sections behind the first `k` are left. -/
structure HasRead (namesOnly : Bool) (programs : Vector Program programCount) (lines : List (List Char)) (k : ℕ)
    (state : Vector Program programCount × List (List Char)) : Prop where
  left : sections state.2 = (sections lines).drop k
  program : ∀ index : Fin programCount, state.1.get index =
    if index.val < k then entry namesOnly (programs.get index) (sections lines)[index.val]? else programs.get index

theorem HasRead.readProgram {current : Fin programCount} {state : Vector Program programCount × List (List Char)}
    (h : HasRead namesOnly programs lines current.val state)
    (hdefault : (programs.get current).defaultName = defaultName current) :
    HasRead namesOnly programs lines (current.val + 1) (Bank.readProgram namesOnly state current) := by
  have hcurrent : state.1.get current = programs.get current := by
    rw [h.program current, if_neg (Nat.lt_irrefl _)]
  obtain ⟨hprograms, hleft⟩ := readProgram_spec namesOnly state.2 (by rwa [hcurrent])
  rw [h.left, List.head?_drop, hcurrent] at hprograms
  rw [h.left, List.tail_drop] at hleft
  refine ⟨hleft, fun index => ?_⟩
  show (Bank.readProgram namesOnly (state.1, state.2) current).1[index.val] = _
  rw [hprograms, Vector.getElem_set]
  by_cases hindex : current = index
  · subst hindex
    rw [if_pos rfl, if_pos (Nat.lt_succ_self _)]
  · have hne : current.val ≠ index.val := fun heq => hindex (Fin.ext heq)
    have hiff : index.val < current.val + 1 ↔ index.val < current.val := by omega
    rw [if_neg hne]
    simp only [hiff]
    exact h.program index

theorem take_succ_finRange (current : Fin programCount) : (List.finRange programCount).take (current.val + 1) =
    (List.finRange programCount).take current.val ++ [current] := by
  have hlength : current.val < (List.finRange programCount).length := by
    rw [List.length_finRange]
    exact current.isLt
  rw [List.take_succ_eq_append_getElem hlength, List.getElem_finRange]
  rfl

theorem hasRead_foldl (namesOnly : Bool) (hdefault : HasDefaultNames programs) (lines : List (List Char)) {k : ℕ}
    (hk : k ≤ programCount) : HasRead namesOnly programs lines k
      (((List.finRange programCount).take k).foldl (readProgram namesOnly) (programs, lines)) := by
  induction k with
  | zero => exact ⟨rfl, fun index => (if_neg (Nat.not_lt_zero _)).symm⟩
  | succ k ih =>
      let current : Fin programCount := ⟨k, hk⟩
      rw [take_succ_finRange current, List.foldl_append, List.foldl_cons, List.foldl_nil]
      exact HasRead.readProgram (ih (Nat.le_of_succ_le hk)) (hdefault current)

theorem get_foldl_readProgram (hdefault : HasDefaultNames programs) (lines : List (List Char))
    (index : Fin programCount) :
    ((List.finRange programCount).foldl (readProgram namesOnly) (programs, lines)).1.get index =
      entry namesOnly (programs.get index) (sections lines)[index.val]? := by
  have hread := (hasRead_foldl namesOnly hdefault lines (Nat.le_refl programCount)).program index
  rwa [List.take_of_length_le (by rw [List.length_finRange]), if_pos index.isLt] at hread

theorem load_eq (bank : Bank) (text : List Char) : bank.load text =
    { bank with
      programs := ((List.finRange programCount).foldl (readProgram false) (bank.programs, linesOf text)).1 } := rfl

theorem loadNames_eq (bank : Bank) (text : List Char) : bank.loadNames text =
    { bank with
      programs := ((List.finRange programCount).foldl (readProgram true) (bank.programs, linesOf text)).1 } := rfl

theorem current_load (bank : Bank) (text : List Char) : (bank.load text).current = bank.current := by
  rw [load_eq]

theorem get_load {bank : Bank} (h : bank.WellFormed) (text : List Char) (index : Fin programCount) :
    (bank.load text).programs.get index =
      (sections (linesOf text))[index.val]?.elim (bank.programs.get index).blanked
        (bank.programs.get index).fromSection := by
  rw [load_eq, get_foldl_readProgram h.defaultNames]
  rfl

theorem get_loadNames {bank : Bank} (h : bank.WellFormed) (text : List Char) (index : Fin programCount) :
    (bank.loadNames text).programs.get index = { (bank.load text).programs.get index with body := [] } := by
  rw [get_load h, loadNames_eq, get_foldl_readProgram h.defaultNames]
  rfl

theorem WellFormed.load {bank : Bank} (h : bank.WellFormed) (text : List Char) : (bank.load text).WellFormed := by
  refine ⟨fun index => ?_, fun index => ?_⟩
  · rw [get_load h]
    cases hsection : (sections (linesOf text))[index.val]? with
    | none => exact (h.program index).blanked
    | some inside =>
        exact (h.program index).fromSection fun _ => Program.line_of_mem_sections (List.mem_of_getElem? hsection)
  · rw [get_load h, ← h.defaultNames index]
    cases (sections (linesOf text))[index.val]? <;> rfl

theorem WellFormed.loadNames {bank : Bank} (h : bank.WellFormed) (text : List Char) :
    (bank.loadNames text).WellFormed := by
  have hload := h.load text
  refine ⟨fun index => ?_, fun index => ?_⟩
  · rw [get_loadNames h]
    exact (hload.program index).withoutBody
  · have hdefault := hload.defaultNames index
    rw [get_loadNames h]
    generalize (bank.load text).programs.get index = program at hdefault ⊢
    exact hdefault

theorem get_modify (bank : Bank) (index other : Fin programCount) (f : Program → Program) :
    (bank.modify index f).programs.get other =
      if index = other then f (bank.programs.get index) else bank.programs.get other := by
  show (bank.programs.set index (f (bank.programs.get index)) index.isLt)[other.val] = _
  rw [Vector.getElem_set]
  simp only [Fin.ext_iff]
  rfl

theorem WellFormed.modify {bank : Bank} (h : bank.WellFormed) (index : Fin programCount) {f : Program → Program}
    (hprogram : (f (bank.programs.get index)).WellFormed)
    (hdefault : (f (bank.programs.get index)).defaultName = (bank.programs.get index).defaultName) :
    (bank.modify index f).WellFormed := by
  refine ⟨fun other => ?_, fun other => ?_⟩
  · rw [get_modify]
    split
    · exact hprogram
    · exact h.program other
  · rw [get_modify]
    split
    · next heq => rw [hdefault, h.defaultNames, heq]
    · exact h.defaultNames other

theorem get_initial (index : Fin programCount) : initial.programs.get index =
    if index.val = 0 then .ofText "Default".toList (Bank.defaultName 0) header else blankProgram index :=
  Vector.getElem_ofFn index.isLt

theorem wellFormed_initial : initial.WellFormed := by
  refine ⟨fun index => ?_, fun index => ?_⟩
  · rw [get_initial]
    split <;> exact Program.wellFormed_ofText _ _ _
  · rw [get_initial]
    split
    · next hzero =>
      rw [hzero]
      decide +kernel
    · rw [blankProgram_eq]

theorem Reachable.wellFormed {bank : Bank} (h : bank.Reachable) : bank.WellFormed := by
  induction h with
  | initial => exact wellFormed_initial
  | load _ text ih => exact ih.load text
  | loadNames _ text ih => exact ih.loadNames text
  | loadProgram _ index text ih =>
      exact ih.modify index ((ih.program index).load text) (Program.defaultName_load _ text)
  | renameProgram _ index text ih =>
      exact ih.modify index
        (Program.wellFormed_rename (ih.program index).defaultName (ih.program index).body text) rfl
  | select _ index ih => exact ⟨ih.program, ih.defaultNames⟩

theorem linesOf_flatMap_write {programs : List Program} (h : ∀ program ∈ programs, program.WellFormed) :
    linesOf (programs.flatMap fun program => program.write ++ lineEnd) =
      written (programs.map Program.sectionLines) := by
  induction programs with
  | nil => rfl
  | cons program programs ih =>
      have hprogram := h program List.mem_cons_self
      have hrest := ih fun other hother => h other (List.mem_cons_of_mem _ hother)
      rw [List.flatMap_cons, List.append_assoc, Program.linesOf_write_append hprogram]
      exact congrArg _ hrest

theorem sections_linesOf_write {bank : Bank} (h : bank.WellFormed) :
    sections (linesOf bank.write) = bank.programs.toList.map Program.sectionLines := by
  have hprograms : ∀ program ∈ bank.programs.toList, program.WellFormed := by
    intro program hprogram
    obtain ⟨index, hindex, rfl⟩ := List.mem_iff_getElem.mp hprogram
    rw [Vector.getElem_toList]
    exact h.program ⟨index, by simpa using hindex⟩
  rw [Bank.write, linesOf_flatMap_write hprograms]
  refine sections_written _ fun body hbody => ?_
  obtain ⟨program, hprogram, rfl⟩ := List.mem_map.mp hbody
  exact (hprograms program hprogram).isInner_sectionLines

theorem load_write {a b : Bank} (ha : a.WellFormed) (hb : b.WellFormed) : (b.load a.write).programs = a.programs := by
  refine Vector.ext fun i hi => ?_
  let index : Fin programCount := ⟨i, hi⟩
  have hsection : (a.programs.toList.map Program.sectionLines)[i]? = some (a.programs.get index).sectionLines := by
    rw [List.getElem?_map, Vector.getElem?_toList, Vector.getElem?_eq_getElem hi]
    rfl
  have hread := get_load hb a.write index
  rw [sections_linesOf_write ha, hsection] at hread
  refine hread.trans ?_
  exact Program.fromSection_sectionLines (ha.program index) ((hb.defaultNames index).trans (ha.defaultNames index).symm)

/-- A program that is written is read again, by itself or by any program with the same default name; as it is the same
program, it has the same short name and is written in the same way. A bank that is written is read again by any bank,
whose current program stays where it is. -/
theorem load_write_restores :
    (∀ program other : Program, program.Reachable → other.defaultName = program.defaultName →
      other.load program.write = program)
      ∧ ∀ a b : Bank, a.Reachable → b.Reachable →
        (b.load a.write).programs = a.programs ∧ (b.load a.write).current = b.current :=
  ⟨fun _ _ h hdefault => Program.load_write h.wellFormed hdefault,
    fun a b ha hb => ⟨load_write ha.wellFormed hb.wellFormed, current_load b a.write⟩⟩

/-- The program has a name that was shortened, a comment and a line that is nearly a header. -/
theorem load_write_restores_renamed :
    let program := ((Program.ofText "[Lead]".toList "Init".toList "[mpeemulator]\n; quiet\n[mpe]]\n".toList).rename
      "  a name that is too long for a program ".toList)
    let bank := (initial.modify ⟨5, by decide⟩ (·.load program.write)).select 5
    program.Reachable ∧ program.name = "a name that is too l..m".toList
      ∧ program.body = ["; quiet".toList, "[mpe]]".toList]
      ∧ (Program.ofText [] "Init".toList []).load program.write = program
      ∧ bank.Reachable ∧ (bank.programs.get ⟨5, by decide⟩).body = program.body
      ∧ (initial.load bank.write).programs = bank.programs ∧ (initial.load bank.write).current = initial.current := by
  intro program bank
  have hprogram : program.Reachable := .rename (.ofText _ _ _) _
  have hbank : bank.Reachable := .select (.loadProgram .initial _ _) 5
  obtain ⟨hprograms, hcurrent⟩ := load_write_restores.2 bank initial hbank .initial
  exact ⟨hprogram, by decide +kernel, by decide +kernel,
    load_write_restores.1 program _ hprogram (by decide +kernel), hbank, by decide +kernel, hprograms, hcurrent⟩

end PolyExpression.Bank
