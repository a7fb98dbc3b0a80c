import HyperBerry.Cpio.Path

/-!
# The archive format

Archives as the `newc` format has them, restricted to directories and files with one link.  An entry
is given by the parts that its bytes consist of (`Parts`); which parts make an entry is
`Parts.WellFormed`, and which entries may stand before the trailer is `Parts.Acceptable`.
`IsArchive` says that a string of bytes is a concatenation of such entries, a trailer and zeros.
-/

namespace HyperBerry

namespace Cpio

open Memory DeviceTree BootLoader

/-- The value of a string of hexadecimal digits, most significant first. -/
def hexValue (xs : List UInt8) : Option ℕ :=
  xs.foldlM (fun value c => (hexDigit c).map (value * 16 + ·)) 0

/-- Eight digits encode a field. -/
def IsField (xs : List UInt8) (value : ℕ) : Prop := xs.length = 8 ∧ hexValue xs = some value

/-- The number of bytes from `n` to the next multiple of four. -/
def pad (n : ℕ) : ℕ := (4 - n % 4) % 4

/-- The parts of an entry. -/
structure Parts where
  /-- The header fields, eight digits each. -/
  fields : List (List UInt8)
  /-- Their values. -/
  values : List ℕ
  /-- The name, up to its first NUL. -/
  name : List UInt8
  /-- The number of NULs of the name field behind the first one. -/
  nuls : ℕ
  /-- The padding behind the name. -/
  namePadding : List UInt8
  data : List UInt8
  /-- The padding behind the data. -/
  dataPadding : List UInt8
deriving DecidableEq

namespace Parts

/-- The name field. -/
def nameField (p : Parts) : List UInt8 := p.name ++ List.replicate (p.nuls + 1) 0

/-- The bytes of an entry. -/
def bytes (p : Parts) : List UInt8 :=
  ascii "070701" ++ (p.fields.flatten ++
    (p.nameField ++ (p.namePadding ++ (p.data ++ p.dataPadding))))

/-- The normalised name. -/
def path (p : Parts) : List UInt8 := strip p.name

/-- The mode. -/
def mode (p : Parts) : ℕ := p.values.getD 1 0

/-- The number of links. -/
def links (p : Parts) : ℕ := p.values.getD 4 0

/-- Whether the mode is that of a directory. -/
def isDirectory (p : Parts) : Bool := p.mode &&& 0o170000 == 0o040000

/-- Whether the mode is that of a regular file. -/
def isRegular (p : Parts) : Bool := p.mode &&& 0o170000 == 0o100000

/-- The parts make an entry: a header of 13 fields with check field zero, a name field of the given
length with a valid path, the data of the given length, and paddings to multiples of four. -/
structure WellFormed (p : Parts) : Prop where
  fields : List.Forall₂ IsField p.fields p.values
  count : p.values.length = 13
  check : p.values.getD 12 0 = 0
  nameSize : p.values.getD 11 0 = p.nameField.length
  name : 0 ∉ p.name
  path : ValidPath p.path
  namePadding : p.namePadding.length = pad (110 + p.nameField.length)
  fileSize : p.values.getD 6 0 = p.data.length
  dataPadding : p.dataPadding.length = pad p.data.length

/-- An entry that may stand before the trailer: a directory without data, or a regular file with one
link that is not named `.`. -/
structure Acceptable (p : Parts) : Prop where
  path : p.path ≠ trailerName
  directory : p.isDirectory → p.data = []
  file : ¬ p.isDirectory → p.isRegular ∧ p.links = 1 ∧ p.path ≠ [dot]

/-- A trailer. -/
structure Trailer (p : Parts) : Prop where
  path : p.path = trailerName
  data : p.data = []

end Parts

/-- The bytes are the entries `ps`, the trailer `t` and zeros. -/
structure IsArchive (bytes : List UInt8) (ps : List Parts) (t : Parts) : Prop where
  bytes : ∃ n, bytes = ps.flatMap Parts.bytes ++ (t.bytes ++ List.replicate n 0)
  wellFormed : ∀ p ∈ ps, p.WellFormed
  acceptable : ∀ p ∈ ps, p.Acceptable
  /-- No two entries share a path. -/
  distinct : (ps.map Parts.path).Nodup
  trailer_wellFormed : t.WellFormed
  trailer : t.Trailer

/-! ## Lengths -/

/-- The padding makes a multiple of four. -/
lemma add_pad (n : ℕ) : (n + pad n) % 4 = 0 := by
  unfold pad
  omega

/-- The padding depends on the remainder only. -/
lemma pad_add {k : ℕ} (hk : k % 4 = 0) (n : ℕ) : pad (k + n) = pad n := by
  unfold pad
  omega

/-- The padding of the source. -/
lemma padding_eq (n : ℕ) : padding n = pad n := by
  have h₁ : n &&& 3 = n % 4 := Nat.and_two_pow_sub_one_eq_mod n 2
  have h₂ : (4 - n % 4) &&& 3 = (4 - n % 4) % 4 := Nat.and_two_pow_sub_one_eq_mod _ 2
  rw [padding, h₁, h₂, pad]

/-- Fields have eight digits each. -/
lemma length_flatten_fields {fields : List (List UInt8)} {values : List ℕ}
    (h : List.Forall₂ IsField fields values) : fields.flatten.length = 8 * values.length := by
  induction h with
  | nil => rfl
  | cons hf _ ih =>
    rw [List.flatten_cons, List.length_append, List.length_cons, ih, hf.1]
    omega

namespace Parts

variable {p : Parts}

/-- The length of the name field. -/
lemma length_nameField (p : Parts) : p.nameField.length = p.name.length + p.nuls + 1 := by
  rw [nameField, List.length_append, List.length_replicate, Nat.add_assoc]

/-- The offset of the data in an entry. -/
def dataOffset (p : Parts) : ℕ := 110 + p.nameField.length + pad (110 + p.nameField.length)

/-- The length of an entry. -/
def length (p : Parts) : ℕ := p.dataOffset + p.data.length + pad p.data.length

/-- An entry begins a multiple of four bytes before its data. -/
lemma dataOffset_mod (p : Parts) : p.dataOffset % 4 = 0 := add_pad _

/-- An entry is a multiple of four bytes long. -/
lemma length_mod (p : Parts) : p.length % 4 = 0 := by
  have h₁ := p.dataOffset_mod
  have h₂ := add_pad p.data.length
  unfold length
  omega

/-- The number of bytes of an entry. -/
lemma WellFormed.length_bytes (h : p.WellFormed) : p.bytes.length = p.length := by
  have hfields := length_flatten_fields h.fields
  have hmagic : (ascii "070701").length = 6 := rfl
  rw [h.count] at hfields
  simp only [bytes, List.length_append, hmagic, hfields, h.namePadding, h.dataPadding, length,
    dataOffset]
  omega

/-- The path is the end of the name. -/
lemma length_path_le (p : Parts) : p.path.length ≤ p.name.length := length_strip_le p.name

end Parts

end Cpio

end HyperBerry
