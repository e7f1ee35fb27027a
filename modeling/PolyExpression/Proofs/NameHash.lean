import PolyExpression.Proofs.Checked
import PolyExpression.Proofs.NameLookup

/-!
Names hashed in signed 32-bit words. Bytes of any text are folded into a word that wraps around, and what is left of it
under a mask is used as an index. Main statement: whatever the text, the index is that of a bucket, and what is found
there is the parameter of that name and no other.
-/

namespace PolyExpression

open Checked

namespace NameTable

/-! ### The hash -/

/-- The bytes that have been folded into a word, and their number less one. -/
structure Folded where
  word : Int32
  last : Int32

/-- Folds byte after byte, until five of them have been read. -/
def foldBytes (folded : Folded) : List UInt8 → Folded
  | [] => folded
  | b :: rest =>
      let folded : Folded := ⟨folded.word * 36 + digitOfByte b, folded.last + 1⟩
      if folded.last = 4 then folded else foldBytes folded rest

/-- The signed word that tells the bucket of a text. -/
def hashWord (name : String) : Int32 :=
  match name.toUTF8.toList with
  | [] => 0
  | _ :: rest =>
      let folded := foldBytes ⟨0, -1⟩ rest
      ((folded.word <<< 3 + folded.last).abs * 1413) >>> 7 &&& 127

/-- The word as an index. A negative word would be a very large one. -/
def hashIndex (name : String) : Nat := (hashWord name).toInt64.toUInt64.toNat

/-- Fewer than five bytes have been read; those that are left until then are folded one after the other. -/
theorem foldBytes_eq (bytes : List UInt8) (word : Int32) (count : Nat) (hcount : count < hashedBytes) :
    foldBytes ⟨word, Int32.ofNat count - 1⟩ bytes =
      ⟨((bytes.take (hashedBytes - count)).map digitOfByte).foldl (fun n digit => n * 36 + digit) word,
        Int32.ofNat (count + (bytes.take (hashedBytes - count)).length) - 1⟩ := by
  induction bytes generalizing word count with
  | nil => simp [foldBytes]
  | cons b rest ih =>
      have hleft : hashedBytes - count = hashedBytes - (count + 1) + 1 := by omega
      have hlast : Int32.ofNat count - 1 + 1 = Int32.ofNat (count + 1) - 1 := by
        rw [Int32.sub_add_cancel, Int32.ofNat_add]
        exact (Int32.add_sub_cancel _ 1).symm
      have hfifth : Int32.ofNat (count + 1) - 1 = 4 ↔ count + 1 = hashedBytes := by
        have hall : ∀ count < 5, Int32.ofNat (count + 1) - 1 = 4 ↔ count + 1 = 5 := by decide
        exact hall count hcount
      rw [foldBytes, hlast, hleft, List.take_succ_cons, List.map_cons, List.foldl_cons, List.length_cons]
      split
      · next hdone =>
        have hnone : hashedBytes - (count + 1) = 0 := by
          have := hfifth.mp hdone
          omega
        simp [hnone]
      · next hmore =>
        have hroom : count + 1 < hashedBytes := Nat.lt_of_le_of_ne hcount fun hdone => hmore (hfifth.mpr hdone)
        rw [ih _ _ hroom, Nat.add_right_comm, Nat.add_assoc count]

/-- What is left of a word under the mask is one of the first 128 numbers, whatever its sign. -/
theorem toNat_and_mask (word : Int32) : (word &&& 127).toInt64.toUInt64.toNat = word.toBitVec.toNat % bucketCount := by
  have hbits : (word &&& 127).toInt64.toUInt64.toNat = (BitVec.signExtend 64 (word.toBitVec &&& 127#32)).toNat := rfl
  have hmsb : (word.toBitVec &&& 127#32).msb = false := by
    rw [BitVec.msb_and, show (127#32).msb = false from rfl, Bool.and_false]
  have hlow : word.toBitVec.toNat &&& 127 = word.toBitVec.toNat % bucketCount := Nat.and_two_pow_sub_one_eq_mod _ 7
  have hlt : word.toBitVec.toNat % bucketCount < 2 ^ 64 := Nat.lt_trans (Nat.mod_lt _ (by decide)) (by decide)
  rw [hbits, BitVec.signExtend_eq_setWidth_of_msb_false hmsb, BitVec.toNat_setWidth, BitVec.toNat_and]
  show (word.toBitVec.toNat &&& 127) % 2 ^ 64 = _
  rw [hlow, Nat.mod_eq_of_lt hlt]

theorem hashIndex_eq (name : String) : hashIndex name = (hash name).val := by
  unfold hashIndex hashWord hash
  cases name.toUTF8.toList with
  | nil => rfl
  | cons first rest =>
      have hfolded : foldBytes ⟨0, -1⟩ rest = _ := foldBytes_eq rest 0 0 (by decide)
      rw [Nat.zero_add] at hfolded
      dsimp only
      rw [hfolded, toNat_and_mask, List.length_map]
      rfl

theorem hashIndex_lt (name : String) : hashIndex name < bucketCount := by
  rw [hashIndex_eq]
  exact (hash name).isLt

/-! ### The table -/

/-- Adds a name behind the others of its bucket, unless it is there. -/
def enter (table : NameTable) (name : String) (id : ParameterId) : Checked NameTable := do
  let entries ← read table.buckets (hashIndex name)
  if entries.all fun entry => entry.1 != name then
    return ⟨← write table.buckets (hashIndex name) (entries ++ [(name, id)])⟩
  else return table

/-- The table of all parameters. -/
def build : Checked NameTable := ParameterId.all.foldlM (fun table id => table.enter id.name id) empty

/-- The parameter of a name. -/
def look (table : NameTable) (name : String) : Checked (Option ParameterId) :=
  let size := name.utf8ByteSize
  if size = 0 ∨ nameMax < size then return none
  else do
    let entries ← read table.buckets (hashIndex name)
    return (entries.find? fun entry => entry.1 == name).map (·.2)

variable (table : NameTable) (name : String)

theorem read_hashIndex : read table.buckets (hashIndex name) = .ok (table.bucket name) := by
  rw [read_of_lt table.buckets (hashIndex_lt name)]
  simp only [bucket, hashIndex_eq, Fin.getElem_fin]

theorem write_hashIndex (entries : List (String × ParameterId)) :
    write table.buckets (hashIndex name) entries = .ok (table.buckets.set (hash name) entries (hash name).isLt) := by
  rw [write_of_lt table.buckets (hashIndex_lt name)]
  simp only [hashIndex_eq]

theorem enter_eq (id : ParameterId) : table.enter name id = .ok (table.insert name id) := by
  have hnew : ((table.bucket name).all fun entry => entry.1 != name) =
      !(table.bucket name).any fun entry => entry.1 == name :=
    List.not_any_eq_all_not.symm
  rw [enter, insert, read_hashIndex, ok_bind, write_hashIndex, hnew]
  cases (table.bucket name).any fun entry => entry.1 == name <;> rfl

theorem build_eq : build = .ok standard := by
  apply foldlM_eq_ok id
  intro table id
  exact table.enter_eq id.name id

theorem look_eq : table.look name = .ok (table.find? name) := by
  rw [look, find?]
  split
  · rfl
  · rw [read_hashIndex]
    rfl

end NameTable

/-- **Exact lookup.** Whatever the text, its hash is the index of a bucket; so the table of all parameters is put
together and searched without a fault. A parameter is found exactly under its name, also where names share a bucket, and
nothing is found under any other text. -/
theorem ParameterId.found_exactly (name : String) :
    NameTable.hashIndex name < NameTable.bucketCount
      ∧ Yields (NameTable.build >>= (·.look name)) fun found? =>
        found? = named? name
          ∧ (∀ id, found? = some id ↔ name = id.name) ∧ (found? = none ↔ name ∉ all.map ParameterId.name) := by
  refine ⟨NameTable.hashIndex_lt name, named? name, ?_, rfl, fun id => named?_eq_some_iff, ?_⟩
  · rw [NameTable.build_eq, ok_bind, NameTable.look_eq]
    rfl
  · constructor
    · intro hnone hname
      obtain ⟨id, -, rfl⟩ := List.mem_map.mp hname
      rw [named?_eq_some_iff.mpr rfl] at hnone
      cases hnone
    · intro hunknown
      refine Option.eq_none_iff_forall_ne_some.mpr fun id hfound => hunknown ?_
      exact List.mem_map.mpr ⟨id, mem_all id, (named?_eq_some_iff.mp hfound).symm⟩

/-- Two names and a text that is none share a bucket. -/
example : NameTable.hashIndex "Z1R1IN" = NameTable.hashIndex "Z1R8IN"
    ∧ NameTable.hashIndex "é1R1IN" ≠ NameTable.hashIndex "Z1R1IN"
    ∧ NameTable.hashIndex "*1R1IN" = NameTable.hashIndex "Z1R1IN" := by
  decide +kernel

end PolyExpression
