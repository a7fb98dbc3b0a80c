import HyperBerry.DeviceTree.TreeParser
import HyperBerry.BootLoader.DtbPatcher

/-!
# The archive reader

A model of `lib/cpio/cpio.cpp`.  Pointers are addresses, and a function that reads memory faults
where it reads outside of what is mapped.  `read` takes its cursor and entry by reference: the model
returns them as they are when it returns.  All of its callers pass an empty entry.
-/

namespace HyperBerry

namespace Cpio

open Memory DeviceTree BootLoader

/-- `cpio::Error`. -/
inductive Error
  | none
  | invalidRegion
  | truncated
  | badMagic
  | badField
  | badName
  | unsupportedType
  | duplicatePath
  | missingTrailer
  | badTrailer
deriving DecidableEq

/-- A view of the bytes of a file. -/
structure File where
  data : ℕ := 0
  size : ℕ := 0
deriving DecidableEq

/-- A view of an entry. -/
structure Entry where
  name : ℕ := 0
  file : File := {}
  isDirectory : Bool := false
deriving DecidableEq

/-- The character `.`. -/
abbrev dot : UInt8 := 46

/-- The character `/`. -/
abbrev slash : UInt8 := 47

/-- `TRAILER!!!`, the name of the last entry. -/
def trailerName : List UInt8 := ascii "TRAILER!!!"

/-! ## Strings -/

/-- `StrEq` of two strings in memory. -/
def strEqAt (m : Memory) : ℕ → ℕ → ℕ → Except Halt Bool
  | 0, _, _ => .error .hang
  | fuel + 1, a, b => do
    let x ← load8 m a
    let y ← load8 m b
    if x ≠ 0 ∧ y ≠ 0 then
      if x ≠ y then pure false else strEqAt m fuel (add64 a 1) (add64 b 1)
    else pure (x == y)

/-- `normalize`: skip every leading `./`. -/
def normalize (m : Memory) : ℕ → ℕ → Except Halt ℕ
  | 0, _ => .error .hang
  | fuel + 1, name => do
    let first ← load8 m name
    if first ≠ dot then pure name
    else
      let second ← load8 m (add64 name 1)
      if second = slash then normalize m fuel (add64 name 2) else pure name

/-- The inner loop of `validPath`: the end of the component at `name`. -/
def componentEnd (m : Memory) : ℕ → ℕ → Except Halt ℕ
  | 0, _ => .error .hang
  | fuel + 1, name => do
    let x ← load8 m name
    if x = 0 ∨ x = slash then pure name else componentEnd m fuel (add64 name 1)

/-- Whether the component of the given length is empty, `.` or `..`. -/
def isBadComponent (m : Memory) (start length : ℕ) : Except Halt Bool :=
  if length = 0 then .ok true
  else if length = 1 then do
    let first ← load8 m start
    pure (first == dot)
  else if length = 2 then do
    let first ← load8 m start
    if first ≠ dot then pure false
    else
      let second ← load8 m (add64 start 1)
      pure (second == dot)
  else .ok false

/-- The outer loop of `validPath`. -/
def validComponents (m : Memory) : ℕ → ℕ → Except Halt Bool
  | 0, _ => .error .hang
  | fuel + 1, name => do
    let x ← load8 m name
    if x = 0 then pure true
    else
      let stop ← componentEnd m loopFuel name
      let isBad ← isBadComponent m name (stop - name)
      if isBad then pure false
      else
        let y ← load8 m stop
        if y = 0 then validComponents m fuel stop
        else
          let z ← load8 m (add64 stop 1)
          if z = 0 then pure false else validComponents m fuel (add64 stop 1)

/-- `validPath`. -/
def validPath (m : Memory) (name : ℕ) : Except Halt Bool := do
  let x ← load8 m name
  if x = 0 ∨ x = slash then pure false
  else
    let isDot ← strEq m name [dot]
    if isDot then pure true else validComponents m loopFuel name

/-! ## Entries -/

/-- The value of a hexadecimal digit. -/
def hexDigit (c : UInt8) : Option ℕ :=
  if 48 ≤ c ∧ c ≤ 57 then some (c.toNat - 48)
  else if 97 ≤ c ∧ c ≤ 102 then some (c.toNat - 97 + 10)
  else if 65 ≤ c ∧ c ≤ 70 then some (c.toNat - 65 + 10)
  else none

/-- Read `n` digits of a 32-bit field; `none` at the first character that is no digit. -/
def readField (m : Memory) : ℕ → ℕ → ℕ → Except Halt (Option ℕ)
  | _, 0, value => .ok (some value)
  | a, n + 1, value => do
    let c ← load8 m a
    match hexDigit c with
    | none => pure none
    | some digit => readField m (add64 a 1) n ((value <<< 4 ||| digit) % 2 ^ 32)

/-- Read `n` fields of eight digits. -/
def readFields (m : Memory) : ℕ → ℕ → Except Halt (Option (List ℕ))
  | _, 0 => .ok (some [])
  | a, n + 1 => do
    let field ← readField m a 8 0
    match field with
    | none => pure none
    | some value =>
      let rest ← readFields m (add64 a 8) n
      pure (rest.map (value :: ·))

/-- Whether `n` bytes are zero. -/
def allZero (m : Memory) : ℕ → ℕ → Except Halt Bool
  | _, 0 => .ok true
  | a, n + 1 => do
    let x ← load8 m a
    if x ≠ 0 then pure false else allZero m (add64 a 1) n

/-- The padding from an offset to the next multiple of four. -/
def padding (cursor : ℕ) : ℕ := (4 - (cursor &&& 3)) &&& 3

/-- The end of `read`: what an entry may be. -/
def readType (m : Memory) (fields : List ℕ) (cursor : ℕ) (entry : Entry) :
    Except Halt (Error × ℕ × Entry) := do
  let isTrailer ← strEq m entry.name trailerName
  if isTrailer then
    pure (if entry.file.size ≠ 0 then .badTrailer else .none, cursor, entry)
  else if entry.isDirectory then
    pure (if entry.file.size ≠ 0 then .badField else .none, cursor, entry)
  else if fields.getD 1 0 &&& 0o170000 ≠ 0o100000 ∨ fields.getD 4 0 ≠ 1 then
    pure (.unsupportedType, cursor, entry)
  else
    let isDot ← strEq m entry.name [dot]
    pure (if isDot then .unsupportedType else .none, cursor, entry)

/-- The part of `read` behind the name. -/
def readData (m : Memory) (data size : ℕ) (fields : List ℕ) (name cursor : ℕ) :
    Except Halt (Error × ℕ × Entry) :=
  if padding cursor > size - cursor then .ok (.truncated, cursor, {})
  else
    let begin := cursor + padding cursor
    let fileSize := fields.getD 6 0
    if fileSize > size - begin then .ok (.truncated, begin, {})
    else
      let entry : Entry :=
        ⟨name, ⟨add64 data begin, fileSize⟩, fields.getD 1 0 &&& 0o170000 == 0o040000⟩
      let stop := begin + fileSize
      if padding stop > size - stop then .ok (.truncated, stop, entry)
      else readType m fields (stop + padding stop) entry

/-- The part of `read` behind the header. -/
def readName (m : Memory) (data size : ℕ) (fields : List ℕ) (cursor : ℕ) :
    Except Halt (Error × ℕ × Entry) :=
  let nameSize := fields.getD 11 0
  if nameSize = 0 ∨ nameSize > size - cursor then .ok (.badName, cursor, {})
  else do
    let name := add64 data cursor
    let length ← nulIndex m name nameSize
    if length = nameSize then pure (.badName, cursor, {})
    else
      let isClean ← allZero m (add64 name length) (nameSize - length)
      if !isClean then pure (.badName, cursor, {})
      else
        let name ← normalize m loopFuel name
        let isValid ← validPath m name
        if !isValid then pure (.badName, cursor, {})
        else readData m data size fields name (cursor + nameSize)

/-- `Archive::read`. -/
def read (m : Memory) (data size cursor : ℕ) : Except Halt (Error × ℕ × Entry) :=
  if cursor > size ∨ size - cursor < 110 then .ok (.truncated, cursor, {})
  else do
    let isMagic ← matchBytes m (add64 data cursor) (ascii "070701")
    if !isMagic then pure (.badMagic, cursor, {})
    else
      let fields ← readFields m (add64 data (cursor + 6)) 13
      match fields with
      | none => pure (.badField, cursor, {})
      | some fields =>
        if fields.getD 12 0 ≠ 0 then pure (.badField, cursor, {})
        else readName m data size fields (cursor + 110)

/-! ## Archives -/

/-- The inner loop of `validate`: compare a name with those of the entries before `start`. -/
def checkPrevious (m : Memory) (data size start name : ℕ) : ℕ → ℕ → Except Halt Error
  | 0, _ => .error .hang
  | fuel + 1, previous =>
    if previous < start then do
      let (error, next, other) ← read m data size previous
      if error ≠ .none then pure error
      else
        let isSame ← strEqAt m loopFuel other.name name
        if isSame then pure .duplicatePath else checkPrevious m data size start name fuel next
    else .ok .none

/-- The loop of `validate`; it returns the error and `m_end`. -/
def validateFrom (m : Memory) (data size : ℕ) : ℕ → ℕ → Except Halt (Error × ℕ)
  | 0, _ => .error .hang
  | fuel + 1, cursor =>
    if cursor < size then do
      let (error, next, entry) ← read m data size cursor
      if error ≠ .none then pure (error, 0)
      else
        let isTrailer ← strEq m entry.name trailerName
        if isTrailer then
          let isClean ← allZero m (add64 data next) (size - next)
          pure (if isClean then (.none, cursor) else (.badTrailer, 0))
        else
          let error ← checkPrevious m data size cursor entry.name loopFuel 0
          if error ≠ .none then pure (error, 0) else validateFrom m data size fuel next
    else .ok (.missingTrailer, 0)

/-- `cpio::Archive`. -/
structure Archive where
  data : ℕ := 0
  size : ℕ := 0
  /-- `m_end`. -/
  stop : ℕ := 0
  error : Error := .invalidRegion
deriving DecidableEq

namespace Archive

/-- The constructor. -/
def make (m : Memory) (data size : ℕ) : Except Halt Archive :=
  if data ≠ 0 ∧ size ≤ 2 ^ 64 - 1 - data then do
    let (error, stop) ← validateFrom m data size loopFuel 0
    pure ⟨data, size, stop, error⟩
  else .ok ⟨data, size, 0, .invalidRegion⟩

/-- `Archive::Next`, with the cursor and the entry afterwards. -/
def next (m : Memory) (archive : Archive) (cursor : ℕ) : Except Halt (Bool × ℕ × Entry) :=
  if archive.error ≠ .none ∨ cursor ≥ archive.stop then .ok (false, cursor, {})
  else do
    let (error, cursor, entry) ← read m archive.data archive.size cursor
    pure (error == .none, cursor, entry)

/-- Whether an entry is a file with a path. -/
def isFileAt (m : Memory) (path : ℕ) (entry : Entry) : Except Halt Bool :=
  if entry.isDirectory then .ok false else strEqAt m loopFuel entry.name path

/-- The loop of `Archive::Find`. -/
def findFrom (m : Memory) (archive : Archive) (path : ℕ) : ℕ → ℕ → Except Halt (Bool × File)
  | 0, _ => .error .hang
  | fuel + 1, cursor => do
    let (isEntry, cursor, entry) ← next m archive cursor
    if !isEntry then pure (false, {})
    else
      let isFound ← isFileAt m path entry
      if isFound then pure (true, entry.file) else findFrom m archive path fuel cursor

/-- `Archive::Find`, with the file afterwards. -/
def find (m : Memory) (archive : Archive) (path : ℕ) : Except Halt (Bool × File) :=
  if path = 0 then .ok (false, {})
  else do
    let path ← normalize m loopFuel path
    findFrom m archive path loopFuel 0

/-- What a caller gets that calls `Next` until it returns false. -/
def entriesFrom (m : Memory) (archive : Archive) : ℕ → ℕ → Except Halt (List Entry)
  | 0, _ => .error .hang
  | fuel + 1, cursor => do
    let (isEntry, cursor, entry) ← next m archive cursor
    if !isEntry then pure []
    else
      let rest ← entriesFrom m archive fuel cursor
      pure (entry :: rest)

end Archive

end Cpio

end HyperBerry
