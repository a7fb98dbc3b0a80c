import HyperBerry.Cpio.Format

/-!
# The encoder of the tests

A model of `tests/unit/cpio/fixture.h`, which appends entries to a vector of bytes, and the parts of
the entries that it writes.
-/

namespace HyperBerry

namespace Cpio

namespace Fixture

open Memory DeviceTree BootLoader

/-- A digit of `%08x`. -/
def hexChar (digit : ℕ) : UInt8 := UInt8.ofNat (if digit < 10 then 48 + digit else 87 + digit)

/-- `%08x` of a 32-bit value. -/
def hex (value : ℕ) : List UInt8 :=
  [7, 6, 5, 4, 3, 2, 1, 0].map fun i => hexChar (value / 16 ^ i % 16)

/-- `fixture::Field`; the value is passed as a 32-bit one. -/
def field (bytes : List UInt8) (offset value : ℕ) : List UInt8 :=
  bytes.take offset ++ (hex (value % 2 ^ 32) ++ bytes.drop (offset + 8))

/-- Append zeros up to a multiple of four. -/
def padZeros (bytes : List UInt8) : List UInt8 := bytes ++ List.replicate (pad bytes.length) 0

/-- The header that `fixture::Entry` appends: the magic number over 110 zero digits, and four
fields. -/
def header (nameSize fileSize mode : ℕ) : List UInt8 :=
  let digits := ascii "070701" ++ List.replicate 104 48
  field (field (field (field digits 14 mode) 38 1) 54 fileSize) 94 nameSize

/-- `fixture::Entry`. -/
def entry (bytes name data : List UInt8) (mode : ℕ) : List UInt8 :=
  padZeros (padZeros (bytes ++ header (name.length + 1) data.length mode ++ name ++ [0]) ++ data)

/-- `fixture::Finish`. -/
def finish (bytes : List UInt8) : List UInt8 := entry bytes trailerName [] 0

/-- An entry to be written. -/
structure Source where
  name : List UInt8
  data : List UInt8 := []
  mode : ℕ := 0o100644
deriving DecidableEq

/-- The bytes of some entries with a trailer. -/
def encode (sources : List Source) : List UInt8 :=
  finish (sources.foldl (fun bytes s => entry bytes s.name s.data s.mode) [])

/-! ## Digits -/

/-- A digit is read back. -/
lemma hexDigit_hexChar {digit : ℕ} (h : digit < 16) : hexDigit (hexChar digit) = some digit := by
  interval_cases digit <;> rfl

/-- A field is read back. -/
lemma hexValue_hex {value : ℕ} (h : value < 2 ^ 32) : hexValue (hex value) = some value := by
  have hdigit : ∀ i, hexDigit (hexChar (value / 16 ^ i % 16)) = some (value / 16 ^ i % 16) :=
    fun i => hexDigit_hexChar (Nat.mod_lt _ (by norm_num))
  simp only [hexValue, hex, List.map_cons, List.map_nil, List.foldlM_cons, List.foldlM_nil, hdigit,
    Option.map_some, Option.bind_eq_bind, Option.bind_some]
  refine congrArg some ?_
  omega

/-- A field has eight digits. -/
@[simp] lemma length_hex (value : ℕ) : (hex value).length = 8 := rfl

/-- The digits of a 32-bit value are a field. -/
lemma isField_hex (value : ℕ) : IsField (hex (value % 2 ^ 32)) (value % 2 ^ 32) :=
  ⟨rfl, hexValue_hex (Nat.mod_lt _ (by norm_num))⟩

/-! ## Entries -/

/-- The values of the header fields. -/
def Source.values (s : Source) : List ℕ :=
  [0, s.mode, 0, 0, 1, 0, s.data.length, 0, 0, 0, 0, s.name.length + 1, 0]

/-- The parts of an entry. -/
def Source.parts (s : Source) : Parts where
  fields := s.values.map fun value => hex (value % 2 ^ 32)
  values := s.values.map (· % 2 ^ 32)
  name := s.name
  nuls := 0
  namePadding := List.replicate (pad (110 + (s.name.length + 1))) 0
  data := s.data
  dataPadding := List.replicate (pad s.data.length) 0

/-- The trailer. -/
def trailer : Source := ⟨trailerName, [], 0⟩

/-- The header that is written. -/
lemma header_eq (s : Source) :
    header (s.name.length + 1) s.data.length s.mode =
      ascii "070701" ++ s.parts.fields.flatten := by
  rfl

/-- The name field that is written. -/
lemma nameField_parts (s : Source) : s.parts.nameField = s.name ++ [0] := rfl

/-- The length of an entry that is written. -/
lemma length_bytes_parts (s : Source) : s.parts.bytes.length = s.parts.length := by
  have hfields : s.parts.fields.flatten.length = 104 := rfl
  have hmagic : (ascii "070701").length = 6 := rfl
  have hname : s.parts.namePadding.length = pad (110 + (s.name.length + 1)) := List.length_replicate
  have hdata : s.parts.dataPadding.length = pad s.data.length := List.length_replicate
  have hfield : s.parts.nameField.length = s.name.length + 1 := by
    rw [nameField_parts, List.length_append, List.length_singleton]
  simp only [Parts.bytes, Parts.length, Parts.dataOffset, List.length_append, hfields,
    hmagic, hname, hdata, hfield]
  simp only [Source.parts]
  omega

/-- An entry is appended. -/
lemma entry_eq {bytes : List UInt8} (h : bytes.length % 4 = 0) (s : Source) :
    entry bytes s.name s.data s.mode = bytes ++ s.parts.bytes := by
  have hheader : (header (s.name.length + 1) s.data.length s.mode).length = 110 := rfl
  have hlen : (bytes ++ header (s.name.length + 1) s.data.length s.mode ++ s.name ++ [0]).length =
      bytes.length + (110 + (s.name.length + 1)) := by
    simp only [List.length_append, hheader, List.length_singleton]
    omega
  have hpad := add_pad (110 + (s.name.length + 1))
  have hlen' : (padZeros (bytes ++ header (s.name.length + 1) s.data.length s.mode ++
      s.name ++ [0]) ++ s.data).length = bytes.length + (110 + (s.name.length + 1) +
        pad (110 + (s.name.length + 1))) + s.data.length := by
    rw [List.length_append, padZeros, List.length_append, hlen, List.length_replicate, pad_add h]
    omega
  rw [entry, padZeros, hlen', pad_add (by omega), padZeros, hlen, pad_add h, header_eq, Parts.bytes,
    nameField_parts]
  simp only [List.append_assoc]
  rfl

/-- Several entries are appended. -/
lemma foldl_entry (sources : List Source) {bytes : List UInt8} (h : bytes.length % 4 = 0) :
    sources.foldl (fun bytes s => entry bytes s.name s.data s.mode) bytes =
      bytes ++ (sources.map Source.parts).flatMap Parts.bytes := by
  induction sources generalizing bytes with
  | nil => simp
  | cons s sources ih =>
    have hmod := s.parts.length_mod
    rw [List.foldl_cons, entry_eq h, ih (by rw [List.length_append, length_bytes_parts]; omega),
      List.map_cons, List.flatMap_cons, List.append_assoc]

/-- The bytes of some entries with a trailer. -/
lemma encode_eq (sources : List Source) :
    encode sources = (sources.map Source.parts).flatMap Parts.bytes ++ trailer.parts.bytes := by
  have hmod : ((sources.map Source.parts).flatMap Parts.bytes).length % 4 = 0 := by
    induction sources with
    | nil => rfl
    | cons s sources ih =>
      have := s.parts.length_mod
      rw [List.map_cons, List.flatMap_cons, List.length_append, length_bytes_parts]
      omega
  rw [encode, foldl_entry sources rfl, List.nil_append, finish]
  exact entry_eq hmod trailer

/-! ## Archives -/

/-- The normalised name. -/
def Source.path (s : Source) : List UInt8 := strip s.name

/-- Whether an entry is to be a directory. -/
def Source.isDirectory (s : Source) : Bool := s.mode &&& 0o170000 == 0o040000

/-- An entry with a valid path other than that of the trailer: a regular file of less than 4 GiB
that is not named `.`, or a directory without data.  Its name fits in the size field. -/
structure Source.Valid (s : Source) : Prop where
  nul : 0 ∉ s.name
  path : ValidPath s.path
  not_trailer : s.path ≠ trailerName
  nameSize : s.name.length + 1 < 2 ^ 32
  fileSize : s.data.length < 2 ^ 32
  mode : s.mode < 2 ^ 32
  directory : s.isDirectory → s.data = []
  file : ¬ s.isDirectory → s.mode &&& 0o170000 = 0o100000 ∧ s.path ≠ [dot]

/-- The header fields are read back. -/
lemma fields_parts (s : Source) : List.Forall₂ IsField s.parts.fields s.parts.values := by
  have hfields : ∀ values : List ℕ, List.Forall₂ IsField (values.map fun v => hex (v % 2 ^ 32))
      (values.map (· % 2 ^ 32)) := by
    intro values
    induction values with
    | nil => exact .nil
    | cons v values ih => exact .cons (isField_hex v) ih
  exact hfields s.values

/-- An entry whose sizes fit and whose path is valid is well-formed. -/
lemma wellFormed_parts {s : Source} (hnul : 0 ∉ s.name) (hpath : ValidPath s.path)
    (hname : s.name.length + 1 < 2 ^ 32) (hdata : s.data.length < 2 ^ 32) : s.parts.WellFormed where
  fields := fields_parts s
  count := rfl
  check := rfl
  nameSize := by
    rw [nameField_parts, List.length_append, List.length_singleton]
    exact Nat.mod_eq_of_lt hname
  name := hnul
  path := hpath
  namePadding := by
    rw [nameField_parts, List.length_append, List.length_singleton]
    exact List.length_replicate
  fileSize := Nat.mod_eq_of_lt hdata
  dataPadding := List.length_replicate

/-- The trailer is well-formed. -/
lemma wellFormed_trailer : trailer.parts.WellFormed :=
  wellFormed_parts (by decide) (by decide) (by decide) (by decide)

namespace Source.Valid

variable {s : Source} (h : s.Valid)

include h

lemma wellFormed : s.parts.WellFormed := wellFormed_parts h.nul h.path h.nameSize h.fileSize

/-- The mode is read back. -/
lemma mode_parts : s.parts.mode = s.mode := Nat.mod_eq_of_lt h.mode

lemma isDirectory_parts : s.parts.isDirectory = s.isDirectory := by
  rw [Parts.isDirectory, h.mode_parts, Source.isDirectory]

lemma acceptable : s.parts.Acceptable where
  path := h.not_trailer
  directory hd := h.directory (by rwa [← h.isDirectory_parts])
  file hf := by
    rw [h.isDirectory_parts] at hf
    refine ⟨?_, rfl, (h.file hf).2⟩
    rw [Parts.isRegular, h.mode_parts, (h.file hf).1]
    rfl

end Source.Valid

/-- Encoded entries and zeros are an archive. -/
lemma isArchive_encode {sources : List Source} (hvalid : ∀ s ∈ sources, s.Valid)
    (hdistinct : (sources.map Source.path).Nodup) (n : ℕ) :
    IsArchive (encode sources ++ List.replicate n 0) (sources.map Source.parts) trailer.parts where
  bytes := ⟨n, by rw [encode_eq, List.append_assoc]⟩
  wellFormed p hp := by
    obtain ⟨s, hs, rfl⟩ := List.mem_map.mp hp
    exact (hvalid s hs).wellFormed
  acceptable p hp := by
    obtain ⟨s, hs, rfl⟩ := List.mem_map.mp hp
    exact (hvalid s hs).acceptable
  distinct := by
    rw [List.map_map]
    exact hdistinct
  trailer_wellFormed := wellFormed_trailer
  trailer := ⟨by decide, rfl⟩

end Fixture

end Cpio

end HyperBerry
