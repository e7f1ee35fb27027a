import PolyExpression.Parameter.Id

/-!
Looking parameters up by name. Names are spread over buckets by a hash of at most five bytes after the
first, which is the same for nearly all names; a bucket is searched for the whole name. Texts that are
empty or longer than any name are not looked up at all.
-/

namespace PolyExpression

namespace NameTable

def bucketCount : Nat := 128

/-- The longest name that is looked up, in bytes. -/
def nameMax : Nat := 7

/-- How many bytes after the first the hash reads. -/
def hashedBytes : Nat := 5

/-- A byte as a digit of base 36, for capital letters and digits; other bytes give other integers. -/
def digitOfByte (b : UInt8) : Int32 :=
  let code := Int32.ofNat b.toNat
  if 55 ≤ b then code - 55 else code - 48

/-- The bucket of a text. All steps are in 32-bit integers and wrap around. -/
def hash (name : String) : Fin bucketCount :=
  match name.toUTF8.toList with
  | [] => ⟨0, by decide⟩
  | _ :: rest =>
      let digits := (rest.take hashedBytes).map digitOfByte
      let number := digits.foldl (fun n digit => n * 36 + digit) 0
      let mixed := ((number <<< 3) + (Int32.ofNat digits.length - 1)).abs
      ⟨((mixed * 1413) >>> 7).toBitVec.toNat % bucketCount, Nat.mod_lt _ (by decide)⟩

end NameTable

/-- Buckets of names with the parameters they stand for. -/
structure NameTable where
  buckets : Vector (List (String × ParameterId)) NameTable.bucketCount

namespace NameTable

def empty : NameTable := ⟨Vector.replicate bucketCount []⟩

def bucket (table : NameTable) (name : String) : List (String × ParameterId) := table.buckets[hash name]

/-- Adds a name behind the others of its bucket, unless it is there. -/
def insert (table : NameTable) (name : String) (id : ParameterId) : NameTable :=
  let entries := table.bucket name
  if entries.any fun entry => entry.1 == name then table
  else ⟨table.buckets.set (hash name) (entries ++ [(name, id)])⟩

/-- The parameter of a name. -/
def find? (table : NameTable) (name : String) : Option ParameterId :=
  let size := name.utf8ByteSize
  if size = 0 ∨ nameMax < size then none
  else ((table.bucket name).find? fun entry => entry.1 == name).map (·.2)

/-- The table of all parameters. -/
def standard : NameTable := ParameterId.all.foldl (fun table id => table.insert id.name id) empty

/-- How evenly the names are spread: the size of the largest bucket that holds several names (zero if there
is none), the mean size of those buckets, and the mean size of the buckets in use. -/
structure Statistics where
  maxCollisions : Nat
  meanCollisions : Float
  meanBucketSize : Float

/-- Mean of some sizes; zero if there are none. -/
def mean (sizes : List Nat) : Float :=
  if sizes.isEmpty then 0.0 else countToFloat (sizes.foldl (· + ·) 0) / countToFloat sizes.length

def statistics (table : NameTable) : Statistics :=
  let sizes := (table.buckets.toList.map List.length).filter (0 < ·)
  let collisions := sizes.filter (1 < ·)
  { maxCollisions := collisions.foldl max 0
    meanCollisions := mean collisions
    meanBucketSize := mean sizes }

end NameTable

/-- The parameter of a name, if the text is one of the names. -/
def ParameterId.named? (name : String) : Option ParameterId := NameTable.standard.find? name

end PolyExpression
