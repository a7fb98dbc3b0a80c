import HyperBerry.Cpio.Format

/-!
# Reading an entry

`read_eq` says what `read` returns where the bytes of an entry begin, and `read_cases` that it
returns an error everywhere else.
-/

namespace HyperBerry

namespace Cpio

open Memory DeviceTree BootLoader

variable {m : Memory} {a data cursor : ℕ} {xs ys bytes : List UInt8}

/-- A string of at least `n` bytes begins with `n` bytes. -/
lemma exists_append_of_le {n : ℕ} (h : n ≤ xs.length) :
    ∃ ys zs : List UInt8, xs = ys ++ zs ∧ ys.length = n :=
  ⟨xs.take n, xs.drop n, (List.take_append_drop n xs).symm, List.length_take_of_le h⟩

/-! ## Loops over bytes -/

/-- Looking for bytes that are not zero. -/
lemma allZero_eq (h : m.HasBytes a xs) (ha : a + xs.length < 2 ^ 64) :
    allZero m a xs.length = .ok (xs.all fun x => x = 0) := by
  induction xs generalizing a with
  | nil => rfl
  | cons x xs ih =>
    rw [List.length_cons] at ha ⊢
    obtain ⟨hx, hxs⟩ := hasBytes_cons.mp h
    rw [allZero, load8_eq_ok.mpr hx, ok_bind]
    by_cases h₀ : x = 0
    · rw [if_neg (by simp [h₀]), add64_of_lt (by omega), ih hxs (by omega)]
      simp [h₀]
    · rw [if_pos h₀]
      simp [pure, Except.pure, h₀]

/-! ## Fields -/

/-- Digits are below sixteen. -/
lemma hexDigit_lt {c : UInt8} {digit : ℕ} (h : hexDigit c = some digit) : digit < 16 := by
  unfold hexDigit at h
  simp only [UInt8.le_iff_toNat_le] at h
  split_ifs at h with h₁ h₂ h₃ <;> cases h
  · have h57 : c.toNat ≤ 57 := h₁.2
    omega
  · have h102 : c.toNat ≤ 102 := h₂.2
    omega
  · have h70 : c.toNat ≤ 70 := h₃.2
    omega

/-- A shift and a digit, as numbers. -/
lemma shift_or_digit {value digit : ℕ} (h : digit < 16) (hvalue : value < 16 ^ 7) :
    (value <<< 4 ||| digit) % 2 ^ 32 = value * 16 + digit := by
  rw [← Nat.shiftLeft_add_eq_or_of_lt (show digit < 2 ^ 4 from h), Nat.shiftLeft_eq]
  omega

/-- Reading the digits of a field. -/
lemma readField_eq {value k : ℕ} (h : m.HasBytes a xs) (ha : a + xs.length < 2 ^ 64)
    (hvalue : value < 16 ^ k) (hk : k + xs.length ≤ 8) :
    readField m a xs.length value =
      .ok (xs.foldlM (fun value c => (hexDigit c).map (value * 16 + ·)) value) := by
  induction xs generalizing a value k with
  | nil => rfl
  | cons x xs ih =>
    rw [List.length_cons] at ha hk ⊢
    obtain ⟨hx, hxs⟩ := hasBytes_cons.mp h
    rw [readField, load8_eq_ok.mpr hx, ok_bind, List.foldlM_cons]
    cases hdigit : hexDigit x with
    | none => rfl
    | some digit =>
      have hlt := hexDigit_lt hdigit
      have hpow : (16 : ℕ) ^ k ≤ 16 ^ 7 := Nat.pow_le_pow_right (by norm_num) (by omega)
      have hnext : value * 16 + digit < 16 ^ (k + 1) := by
        rw [pow_succ]
        omega
      simp only [Option.map_some, Option.bind_eq_bind, Option.bind_some]
      rw [shift_or_digit hlt (by omega), add64_of_lt (by omega), ih hxs (by omega) hnext (by omega)]

/-- Reading a field of eight digits. -/
lemma readField_zero (h : m.HasBytes a xs) (hlen : xs.length = 8) (ha : a + 8 < 2 ^ 64) :
    readField m a 8 0 = .ok (hexValue xs) := by
  rw [← hlen, readField_eq (k := 0) h (by omega) (by norm_num) (by omega)]
  rfl

/-- Reading fields: there is a value for each, or one of them is malformed. -/
lemma readFields_cases {n : ℕ} (h : m.HasBytes a xs) (hlen : xs.length = 8 * n)
    (ha : a + xs.length < 2 ^ 64) :
    (∃ fields values, xs = fields.flatten ∧ List.Forall₂ IsField fields values ∧
      values.length = n ∧ readFields m a n = .ok (some values)) ∨ readFields m a n = .ok none := by
  induction n generalizing a xs with
  | zero =>
    obtain rfl := List.eq_nil_of_length_eq_zero hlen
    exact .inl ⟨[], [], rfl, .nil, rfl, rfl⟩
  | succ n ih =>
    obtain ⟨hfirst, hrest⟩ := h.take_drop 8 (by omega)
    have hlen₈ : (xs.take 8).length = 8 := by
      rw [List.length_take]
      omega
    have hlen' : (xs.drop 8).length = 8 * n := by
      rw [List.length_drop]
      omega
    rw [readFields, readField_zero hfirst hlen₈ (by omega), ok_bind, add64_of_lt (by omega)]
    cases hvalue : hexValue (xs.take 8) with
    | none => exact .inr rfl
    | some value =>
      obtain ⟨fields, values, hflat, hfields, hcount, hread⟩ | hread :=
        ih hrest hlen' (by omega)
      · refine .inl ⟨xs.take 8 :: fields, value :: values, ?_, .cons ⟨hlen₈, hvalue⟩ hfields,
          by rw [List.length_cons, hcount], ?_⟩
        · rw [List.flatten_cons, ← hflat, List.take_append_drop]
        · simp only [hread, ok_bind]
          rfl
      · right
        simp only [hread, ok_bind]
        rfl

/-- Reading well-formed fields. -/
lemma readFields_eq {fields : List (List UInt8)} {values : List ℕ}
    (hfields : List.Forall₂ IsField fields values) (h : m.HasBytes a fields.flatten)
    (ha : a + fields.flatten.length < 2 ^ 64) :
    readFields m a values.length = .ok (some values) := by
  induction hfields generalizing a with
  | nil => rfl
  | cons hf hfields ih =>
    rw [List.flatten_cons, hasBytes_append, hf.1] at h
    rw [List.flatten_cons, List.length_append, hf.1] at ha
    rw [List.length_cons, readFields, readField_zero h.1 hf.1 (by omega), ok_bind, hf.2,
      add64_of_lt (by omega)]
    simp only [ih h.2 (by omega), ok_bind]
    rfl

/-! ## Entries -/

/-- What `read` makes of an entry. -/
def Parts.verdict (p : Parts) : Error :=
  if p.path = trailerName then if p.data = [] then .none else .badTrailer
  else if p.isDirectory then if p.data = [] then .none else .badField
  else if p.isRegular ∧ p.links = 1 ∧ p.path ≠ [dot] then .none else .unsupportedType

/-- The view of an entry at an offset. -/
def Parts.view (p : Parts) (data offset : ℕ) : Entry :=
  ⟨data + offset + 110 + (p.name.length - p.path.length),
    ⟨data + offset + p.dataOffset, p.data.length⟩, p.isDirectory⟩

/-- The end of `read`. -/
lemma readType_eq {p : Parts} {offset : ℕ}
    (hname : m.CString (p.view data offset).name p.path)
    (hend : (p.view data offset).name + p.path.length < 2 ^ 64) :
    readType m p.values cursor (p.view data offset) =
      .ok (p.verdict, cursor, p.view data offset) := by
  have hsize : (p.view data offset).file.size ≠ 0 ↔ p.data ≠ [] := List.length_eq_zero_iff.not
  rw [readType, strEq_eq hname hend (by decide), ok_bind, Parts.verdict]
  by_cases htrailer : p.path = trailerName
  · rw [if_pos (by simp [htrailer]), if_pos htrailer]
    by_cases hdata : p.data = [] <;> simp [hsize, hdata, pure, Except.pure]
  · rw [if_neg (by simp [htrailer]), if_neg htrailer]
    have hdir : (p.view data offset).isDirectory = p.isDirectory := rfl
    by_cases hdirectory : p.isDirectory
    · rw [hdir, if_pos hdirectory, if_pos hdirectory]
      by_cases hdata : p.data = [] <;> simp [hsize, hdata, pure, Except.pure]
    · rw [hdir, if_neg hdirectory, if_neg hdirectory, strEq_eq hname hend (by decide)]
      have hregular : p.values.getD 1 0 &&& 0o170000 ≠ 0o100000 ↔ ¬ p.isRegular := by
        simp [Parts.isRegular, Parts.mode]
      have hlinks : p.values.getD 4 0 ≠ 1 ↔ p.links ≠ 1 := Iff.rfl
      simp only [hregular, hlinks]
      by_cases hreg : p.isRegular <;> by_cases hl : p.links = 1 <;>
        by_cases hdot : p.path = [dot] <;>
        simp [hreg, hl, hdot, ok_bind, pure, Except.pure]

/-- The end of `read`, from the padding behind the name on. -/
lemma readData_eq {p : Parts} {size : ℕ} (hp : p.WellFormed) (hmod : cursor % 4 = 0)
    (hfit : cursor + p.length ≤ size) (hend : data + size < 2 ^ 64)
    (hname : m.CString (p.view data cursor).name p.path) :
    readData m data size p.values (p.view data cursor).name (cursor + 110 + p.nameField.length) =
      .ok (p.verdict, cursor + p.length, p.view data cursor) := by
  have hpad₁ : padding (cursor + 110 + p.nameField.length) = pad (110 + p.nameField.length) := by
    rw [padding_eq, Nat.add_assoc, pad_add hmod]
  have hbegin : cursor + 110 + p.nameField.length + pad (110 + p.nameField.length) =
      cursor + p.dataOffset := by
    unfold Parts.dataOffset
    omega
  have hpad₂ : padding (cursor + p.dataOffset + p.data.length) = pad p.data.length := by
    have := p.dataOffset_mod
    rw [padding_eq, pad_add (by omega)]
  have hlength : p.length = p.dataOffset + p.data.length + pad p.data.length := rfl
  have hdata : add64 data (cursor + p.dataOffset) = data + cursor + p.dataOffset := by
    rw [add64_of_lt (by omega), Nat.add_assoc]
  have hbound : (p.view data cursor).name + p.path.length < 2 ^ 64 := by
    have := p.length_path_le
    have := p.length_nameField
    simp only [Parts.view]
    omega
  rw [readData, hpad₁, if_neg (by omega)]
  simp only [hbegin, hp.fileSize, hpad₂, hdata]
  rw [if_neg (by omega), if_neg (by omega)]
  have htotal : cursor + p.dataOffset + p.data.length + pad p.data.length = cursor + p.length := by
    omega
  rw [htotal]
  exact readType_eq hname hbound

/-- `read` from the name on, at the bytes of an entry. -/
lemma readName_eq {p : Parts} {size : ℕ} (hpos : 0 < data) (hend : data + size < 2 ^ 64)
    (hp : p.WellFormed) (hmod : cursor % 4 = 0) (hfit : cursor + p.length ≤ size)
    (hfield : m.HasBytes (data + (cursor + 110)) p.nameField) :
    readName m data size p.values (cursor + 110) =
      .ok (p.verdict, cursor + p.length, p.view data cursor) := by
  have hnf := p.length_nameField
  have hpath := p.length_path_le
  have hlength : p.length = 110 + p.nameField.length + pad (110 + p.nameField.length) +
    p.data.length + pad p.data.length := rfl
  have hloop : 2 ^ 64 = loopFuel := by unfold loopFuel; rfl
  -- the name is NUL-terminated, with nothing but NULs behind it
  rw [Parts.nameField, hasBytes_append] at hfield
  have hstring : m.CString (data + (cursor + 110)) p.name := by
    refine ⟨hp.name, hasBytes_append.mpr ⟨hfield.1, ?_⟩⟩
    exact hasBytes_cons.mpr ⟨(hasBytes_cons.mp hfield.2).1, hasBytes_nil⟩
  have hview : (p.view data cursor).name =
      data + (cursor + 110) + (p.name.length - p.path.length) := by
    simp only [Parts.view, Nat.add_assoc]
  have hpathString : m.CString (p.view data cursor).name p.path := by
    rw [hview]
    exact cstring_of_suffix hstring (strip_suffix p.name)
  have hclean := allZero_eq hfield.2 (by rw [List.length_replicate]; omega)
  rw [List.length_replicate] at hclean
  have hrest : p.nameField.length - p.name.length = p.nuls + 1 := by omega
  rw [readName]
  simp only [hp.nameSize]
  rw [if_neg (by omega), add64_of_lt (by omega),
    (nulIndex_eq_ok (by omega) (by omega)).mpr ⟨p.name, rfl, hstring⟩, ok_bind, if_neg (by omega),
    add64_of_lt (by omega), hrest, hclean, ok_bind, if_neg (by simp),
    normalize_eq hstring (by omega) (by omega), ok_bind]
  change (validPath m (data + (cursor + 110) + (p.name.length - p.path.length)) >>= _) = _
  rw [← hview, validPath_eq hpathString (by omega) (by omega), ok_bind,
    if_neg (by simp [hp.path])]
  exact readData_eq hp hmod hfit hend hpathString

section Region

variable (hb : m.HasBytes data bytes) (hpos : 0 < data) (hend : data + bytes.length < 2 ^ 64)

include hb hpos hend

omit hpos in
/-- `read` gets past a header of well-formed fields. -/
lemma read_eq_readName {p : Parts} {rest : List UInt8}
    (hfields : List.Forall₂ IsField p.fields p.values) (hcount : p.values.length = 13)
    (hcheck : p.values.getD 12 0 = 0) (hcursor : cursor ≤ bytes.length)
    (hdrop : bytes.drop cursor = p.bytes ++ rest) :
    read m data bytes.length cursor = readName m data bytes.length p.values (cursor + 110) ∧
      m.HasBytes (data + (cursor + 110)) p.nameField ∧
      cursor + 110 + p.nameField.length ≤ bytes.length := by
  have hrest := (hb.take_drop cursor hcursor).2
  have hlen : bytes.length - cursor = p.bytes.length + rest.length := by
    rw [← List.length_drop, hdrop, List.length_append]
  have hflat := length_flatten_fields hfields
  have hsix : (ascii "070701").length = 6 := rfl
  rw [hcount] at hflat
  simp only [Parts.bytes, List.length_append, hsix, hflat] at hlen
  rw [hdrop, Parts.bytes, List.append_assoc, hasBytes_append, List.append_assoc, hasBytes_append,
    List.append_assoc, hsix, hflat] at hrest
  obtain ⟨hmagic, hdigits, hname⟩ := hrest
  have haddr : data + cursor + 6 + 8 * 13 = data + (cursor + 110) := by omega
  rw [haddr] at hname
  refine ⟨?_, (hasBytes_append.mp hname).1, by omega⟩
  rw [read, if_neg (by omega), add64_of_lt (by omega),
    matchBytes_bytes hmagic (by rw [hsix]; omega) rfl, ok_bind, if_neg (by simp),
    add64_of_lt (by omega)]
  have hread := readFields_eq hfields hdigits (by omega)
  rw [hcount, Nat.add_assoc] at hread
  rw [hread, ok_bind]
  simp only [hcheck, ne_eq, not_true_eq_false, if_false]

/-- What `read` returns at the bytes of an entry. -/
lemma read_eq {p : Parts} {rest : List UInt8} (hp : p.WellFormed) (hmod : cursor % 4 = 0)
    (hcursor : cursor ≤ bytes.length) (hdrop : bytes.drop cursor = p.bytes ++ rest) :
    read m data bytes.length cursor =
      .ok (p.verdict, cursor + p.length, p.view data cursor) := by
  have hlen : bytes.length - cursor = p.length + rest.length := by
    rw [← List.length_drop, hdrop, List.length_append, hp.length_bytes]
  obtain ⟨hread, hname, -⟩ :=
    read_eq_readName hb hend hp.fields hp.count hp.check hcursor hdrop
  rw [hread]
  exact readName_eq hpos hend hp hmod (by omega) hname

/-- From the name on, `read` returns an error unless the bytes are those of an entry. -/
lemma readName_cases {fields : List (List UInt8)} {values : List ℕ} {r : List UInt8}
    (hfields : List.Forall₂ IsField fields values) (hcount : values.length = 13)
    (hcheck : values.getD 12 0 = 0) (hmod : cursor % 4 = 0) (hcursor : cursor + 110 ≤ bytes.length)
    (hdrop : bytes.drop (cursor + 110) = r) :
    (∃ (p : Parts) (rest : List UInt8), p.fields = fields ∧ p.values = values ∧ p.WellFormed ∧
      r = p.nameField ++ (p.namePadding ++ (p.data ++ p.dataPadding)) ++ rest) ∨
    ∃ result, readName m data bytes.length values (cursor + 110) = .ok result ∧
      result.1 ≠ .none := by
  have hr := (hb.take_drop (cursor + 110) hcursor).2
  have hlen : bytes.length - (cursor + 110) = r.length := by rw [← hdrop, List.length_drop]
  have hloop : 2 ^ 64 = loopFuel := by unfold loopFuel; rfl
  rw [hdrop] at hr
  obtain ⟨n, hn⟩ : ∃ n, values.getD 11 0 = n := ⟨_, rfl⟩
  rw [readName]
  simp only [hn]
  -- the name field
  by_cases hsize : n = 0 ∨ n > bytes.length - (cursor + 110)
  · exact .inr ⟨_, if_pos hsize, by simp⟩
  rw [if_neg hsize, add64_of_lt (by omega)]
  obtain ⟨nf, r₁, rfl, hnf⟩ := exists_append_of_le (show n ≤ r.length by omega)
  rw [hasBytes_append] at hr
  obtain ⟨i, hi, hnul⟩ := nulIndex_ok hr.1 (by omega)
  rw [hnf] at hi hnul
  rw [hnul, ok_bind]
  by_cases hin : i = n
  · exact .inr ⟨_, if_pos hin, by simp⟩
  rw [if_neg hin, add64_of_lt (by omega)]
  obtain ⟨name, rfl, hstring⟩ := (nulIndex_eq_ok (by omega) (by omega)).mp hnul
  obtain ⟨nameBytes, tail, rfl, hname⟩ :=
    exists_append_of_le (show name.length ≤ nf.length by omega)
  have hnames : nameBytes = name :=
    (hasBytes_append.mp hr.1).1.unique (hasBytes_append.mp hstring.bytes).1 hname
  subst hnames
  have htail := (hasBytes_append.mp hr.1).2
  rw [List.length_append] at hnf
  have hzero := allZero_eq htail (by omega)
  rw [show tail.length = n - nameBytes.length by omega] at hzero
  rw [hzero, ok_bind]
  by_cases hclean : ∀ x ∈ tail, x = 0
  swap
  · exact .inr ⟨_, if_pos (by simpa using hclean), by simp⟩
  rw [if_neg (by simpa using hclean)]
  -- the path
  have hpathString := cstring_of_suffix hstring (strip_suffix nameBytes)
  have hstrip := length_strip_le nameBytes
  rw [normalize_eq hstring (by omega) (by omega), ok_bind,
    validPath_eq hpathString (by omega) (by omega), ok_bind]
  by_cases hvalid : ValidPath (strip nameBytes)
  swap
  · exact .inr ⟨_, if_pos (by simp [hvalid]), by simp⟩
  rw [if_neg (by simp [hvalid]), readData]
  -- the paddings and the data
  have hpad₁ : padding (cursor + 110 + n) = pad (110 + n) := by
    rw [padding_eq, Nat.add_assoc, pad_add hmod]
  rw [hpad₁]
  simp only [List.length_append] at hlen
  by_cases hfit₁ : pad (110 + n) > bytes.length - (cursor + 110 + n)
  · exact .inr ⟨_, if_pos hfit₁, by simp⟩
  rw [if_neg hfit₁]
  obtain ⟨np, r₂, rfl, hnp⟩ := exists_append_of_le (show pad (110 + n) ≤ r₁.length by omega)
  obtain ⟨k, hk⟩ : ∃ k, values.getD 6 0 = k := ⟨_, rfl⟩
  simp only [hk, List.length_append] at hlen ⊢
  by_cases hfit₂ : k > bytes.length - (cursor + 110 + n + pad (110 + n))
  · exact .inr ⟨_, if_pos hfit₂, by simp⟩
  rw [if_neg hfit₂]
  obtain ⟨d, r₃, rfl, hd⟩ := exists_append_of_le (show k ≤ r₂.length by omega)
  have hpad₂ : padding (cursor + 110 + n + pad (110 + n) + k) = pad k := by
    have := add_pad (110 + n)
    rw [padding_eq, pad_add (by omega)]
  rw [hpad₂]
  simp only [List.length_append] at hlen
  by_cases hfit₃ : pad k > bytes.length - (cursor + 110 + n + pad (110 + n) + k)
  · exact .inr ⟨_, if_pos hfit₃, by simp⟩
  obtain ⟨dp, r₄, rfl, hdp⟩ := exists_append_of_le (show pad k ≤ r₃.length by omega)
  have hnuls : tail = List.replicate (tail.length - 1 + 1) 0 := by
    rw [List.eq_replicate_iff]
    exact ⟨by omega, hclean⟩
  left
  refine ⟨⟨fields, values, nameBytes, tail.length - 1, np, d, dp⟩, r₄, rfl, rfl, ?_, ?_⟩
  · have hfield : (Parts.mk fields values nameBytes (tail.length - 1) np d dp).nameField.length =
        n := by
      rw [Parts.nameField, ← hnuls, List.length_append, hnf]
    exact ⟨hfields, hcount, hcheck, hn.trans hfield.symm, hstring.not_mem, hvalid,
      by rw [hfield]; exact hnp, hk.trans hd.symm, by rw [hdp, ← hd]⟩
  · rw [Parts.nameField, ← hnuls]
    simp only [List.append_assoc]

/-- `read` returns an error unless there is an entry. -/
lemma read_cases (hmod : cursor % 4 = 0) (hcursor : cursor ≤ bytes.length) :
    (∃ (p : Parts) (rest : List UInt8), bytes.drop cursor = p.bytes ++ rest ∧ p.WellFormed) ∨
    ∃ result, read m data bytes.length cursor = .ok result ∧ result.1 ≠ .none := by
  have hr := (hb.take_drop cursor hcursor).2
  obtain ⟨r, hdrop⟩ : ∃ r, bytes.drop cursor = r := ⟨_, rfl⟩
  have hlen : bytes.length - cursor = r.length := by rw [← hdrop, List.length_drop]
  rw [hdrop] at hr ⊢
  rw [read]
  by_cases hshort : cursor > bytes.length ∨ bytes.length - cursor < 110
  · exact .inr ⟨_, if_pos hshort, by simp⟩
  rw [if_neg hshort, add64_of_lt (by omega), add64_of_lt (by omega)]
  obtain ⟨magic, r₁, rfl, hmagic⟩ := exists_append_of_le (show 6 ≤ r.length by omega)
  rw [List.length_append] at hlen
  obtain ⟨fs, r₂, rfl, hfs⟩ := exists_append_of_le (show 104 ≤ r₁.length by omega)
  rw [hasBytes_append, hasBytes_append, hmagic, Nat.add_assoc] at hr
  have hsix : (ascii "070701").length = magic.length := by
    rw [hmagic]
    rfl
  rw [matchBytes_bytes hr.1 (by omega) hsix, ok_bind]
  by_cases hmatch : magic = ascii "070701"
  swap
  · exact .inr ⟨_, if_pos (by simp [hmatch]), by simp⟩
  rw [if_neg (by simp [hmatch])]
  obtain ⟨fields, values, rfl, hfields, hcount, hread⟩ | hread :=
    readFields_cases (n := 13) hr.2.1 hfs (by omega)
  swap
  · rw [hread]
    exact .inr ⟨_, rfl, by simp⟩
  rw [hread, ok_bind]
  simp only
  by_cases hcheck : values.getD 12 0 ≠ 0
  · exact .inr ⟨_, if_pos hcheck, by simp⟩
  rw [if_neg hcheck]
  have hdrop' : bytes.drop (cursor + 110) = r₂ := by
    rw [← List.drop_drop, hdrop, ← List.append_assoc, List.drop_left' (by simp [hmagic, hfs])]
  obtain ⟨p, rest, rfl, rfl, hp, hr₂⟩ | h :=
    readName_cases hb hpos hend hfields hcount (not_ne_iff.mp hcheck) hmod (by omega) hdrop'
  · left
    refine ⟨p, rest, ?_, hp⟩
    rw [hmatch, hr₂, Parts.bytes]
    simp only [List.append_assoc]
  · exact .inr h

end Region

end Cpio

end HyperBerry
