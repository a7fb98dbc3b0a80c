import HyperBerry.DeviceTree.Validate

/-!
# What the parsers read behind a token

Where a token lies, the functions of the parsers that read its name, its property header and its
data return, and what they return depends on the token only.
-/

namespace HyperBerry

namespace DeviceTree

open Memory Walk

variable {m : Memory} {B : Blob} {a b v size : ℕ} {t : Token} {name xs ys : List UInt8}

/-! ## Names -/

/-- Comparing bytes with a string: they are the beginning of it or not. -/
lemma matchBytes_eq (h : m.CString a name) (ha : a + name.length < 2 ^ 64) (hxs : 0 ∉ xs) :
    matchBytes m a xs = .ok (decide (xs <+: name)) := by
  induction xs generalizing a name with
  | nil => simp [matchBytes]
  | cons x xs ih =>
    rw [List.mem_cons, not_or] at hxs
    rw [matchBytes, load8_eq_ok.mpr h.head, ok_bind]
    cases name with
    | nil =>
      rw [List.headD_nil, if_pos hxs.1]
      simp
      rfl
    | cons y name =>
      rw [List.headD_cons]
      rw [List.length_cons] at ha
      by_cases hxy : y = x
      · rw [if_neg (not_not.mpr hxy), add64_of_lt (by omega), ih h.tail (by omega) hxs.2]
        simp [hxy]
      · rw [if_pos hxy]
        have hno : ¬ x :: xs <+: y :: name := fun hp => hxy (List.cons_prefix_cons.mp hp).1.symm
        rw [decide_eq_false hno]
        rfl

/-- `stringStartsWith` on a span that holds a string. -/
lemma stringStartsWith_eq (h : m.CString a name) (ha : a + name.length < 2 ^ 64)
    (hsize : name.length < size) (hxs : 0 ∉ xs) :
    stringStartsWith m a size xs = .ok (decide (xs <+: name)) := by
  rw [stringStartsWith]
  split
  case isTrue hlt =>
    have hno : ¬ xs <+: name := fun hp => by
      have := hp.length_le
      omega
    rw [decide_eq_false hno]
  case isFalse => exact matchBytes_eq h ha hxs

/-- `stringEquals` on a span that holds a string. -/
lemma stringEquals_eq (h : m.CString a name) (ha : a + name.length < 2 ^ 64)
    (hsize : name.length < size) (hxs : 0 ∉ xs) :
    stringEquals m a size xs = .ok (decide (name = xs)) := by
  rw [stringEquals]
  split
  case isFalse hle =>
    have hne : name ≠ xs := fun heq => by
      rw [heq] at hsize
      omega
    rw [decide_eq_false hne]
  case isTrue =>
    rw [stringStartsWith_eq h ha hsize hxs, ok_bind]
    by_cases hpre : xs <+: name
    · -- the byte behind the common part tells the two apart
      obtain ⟨rest, rfl⟩ := hpre
      rw [List.length_append] at ha
      have hbytes := h.bytes
      rw [List.append_assoc, hasBytes_append] at hbytes
      have hnul := h.not_mem
      rw [List.mem_append, not_or] at hnul
      have hrest : m.CString (a + xs.length) rest := ⟨hnul.2, hbytes.2⟩
      rw [if_pos (decide_eq_true (List.prefix_append xs rest)), add64_of_lt (by omega),
        load8_eq_ok.mpr hrest.head, ok_bind]
      cases rest with
      | nil => simp; rfl
      | cons y rest =>
        have hy : y ≠ 0 := fun hy => hnul.2 (hy ▸ List.mem_cons_self)
        have hne : xs ++ y :: rest ≠ xs := by simp
        rw [List.headD_cons, beq_eq_false_iff_ne.mpr hy, decide_eq_false hne]
        rfl
    · have hne : name ≠ xs := fun heq => hpre (heq ▸ List.prefix_rfl)
      rw [decide_eq_false hpre, decide_eq_false hne]
      rfl

/-- `stringEqualsAny` on a span that holds a string. -/
lemma stringEqualsAny_eq {l : List (List UInt8)} (h : m.CString a name)
    (ha : a + name.length < 2 ^ 64) (hsize : name.length < size) (hl : ∀ xs ∈ l, 0 ∉ xs) :
    stringEqualsAny m a size l = .ok (decide (name ∈ l)) := by
  induction l with
  | nil => simp [stringEqualsAny]
  | cons xs l ih =>
    rw [stringEqualsAny, stringEquals_eq h ha hsize (hl xs List.mem_cons_self), ok_bind,
      ih fun ys hys => hl ys (List.mem_cons_of_mem xs hys)]
    by_cases heq : name = xs
    · simp [heq]
      rfl
    · simp [heq]

/-! ## Data -/

/-- Comparing bytes. -/
lemma matchBytes_bytes (h : m.HasBytes a xs) (ha : a + xs.length < 2 ^ 64)
    (hlen : ys.length = xs.length) : matchBytes m a ys = .ok (decide (xs = ys)) := by
  induction xs generalizing a ys with
  | nil =>
    obtain rfl := List.eq_nil_of_length_eq_zero hlen
    rfl
  | cons x xs ih =>
    cases ys with
    | nil => cases hlen
    | cons y ys =>
      simp only [List.length_cons] at ha hlen
      obtain ⟨hx, hxs⟩ := hasBytes_cons.mp h
      rw [matchBytes, load8_eq_ok.mpr hx, ok_bind]
      by_cases hxy : x = y
      · rw [if_neg (by simp [hxy]), add64_of_lt (by omega), ih hxs (by omega) (by omega)]
        simp [hxy]
      · rw [if_pos hxy]
        simp [pure, Except.pure, hxy]

/-- Searching bytes for a NUL. -/
lemma nulIndex_bytes (h : m.HasBytes a xs) (ha : a + xs.length < 2 ^ 64) :
    nulIndex m a xs.length = .ok (xs.takeWhile (· ≠ 0)).length := by
  induction xs generalizing a with
  | nil => rfl
  | cons x xs ih =>
    rw [List.length_cons] at ha ⊢
    obtain ⟨hx, hxs⟩ := hasBytes_cons.mp h
    rw [nulIndex, load8_eq_ok.mpr hx, ok_bind]
    by_cases hzero : x = 0
    · rw [if_pos hzero, List.takeWhile_cons_of_neg (by simp [hzero])]
      rfl
    · rw [if_neg hzero, add64_of_lt (by omega), ih hxs (by omega), ok_bind,
        List.takeWhile_cons_of_pos (by simp [hzero])]
      rfl

/-- Reading the first cell of some bytes. -/
lemma loadBe32_take (h : m.HasBytes a xs) (ha : a + xs.length < 2 ^ 64) (hlen : 4 ≤ xs.length) :
    loadBe32 m a = .ok (beNat (xs.take 4)) := by
  obtain ⟨hword, -⟩ := h.take_drop 4 hlen
  have hfour : (xs.take 4).length = 4 := List.length_take_of_le hlen
  have hround := beBytes_beNat (xs.take 4)
  have hlt := beNat_lt (xs.take 4)
  rw [hfour] at hround hlt
  exact (loadBe32_eq_ok (by omega)).mpr ⟨hround.symm ▸ hword, by omega⟩

/-- Combining cells: the bytes of the cells as one number, in 64 bits. -/
lemma combineCells_eq {n combined : ℕ} (h : m.HasBytes a xs) (hlen : xs.length = 4 * n)
    (ha : a + xs.length ≤ 2 ^ 64) (hcombined : combined < 2 ^ 64) :
    combineCells m a n combined = .ok ((combined * 256 ^ xs.length + beNat xs) % 2 ^ 64) := by
  induction n generalizing a xs combined with
  | zero =>
    obtain rfl := List.length_eq_zero_iff.mp (by omega : xs.length = 0)
    have hvalue : combined * 256 ^ ([] : List UInt8).length + beNat [] = combined := by simp [beNat]
    rw [combineCells, hvalue, Nat.mod_eq_of_lt hcombined]
  | succ n ih =>
    -- split off the first cell
    obtain ⟨hcell, hrest⟩ := h.take_drop 4 (by omega)
    have hcell4 : (xs.take 4).length = 4 := by
      rw [List.length_take]
      omega
    have hword : beBytes 4 (beNat (xs.take 4)) = xs.take 4 := by
      have := beBytes_beNat (xs.take 4)
      rwa [hcell4] at this
    have hlt : beNat (xs.take 4) < 2 ^ 32 := by
      have := beNat_lt (xs.take 4)
      rw [hcell4] at this
      omega
    have hload : loadBe32 m a = .ok (beNat (xs.take 4)) := by
      rw [loadBe32_eq_ok (by omega), hword]
      exact ⟨hcell, hlt⟩
    have hor : (combined <<< 32) % 2 ^ 64 ||| beNat (xs.take 4) =
        (combined * 2 ^ 32 + beNat (xs.take 4)) % 2 ^ 64 := by
      have hhigh : (combined <<< 32) % 2 ^ 64 = combined % 2 ^ 32 * 2 ^ 32 := by
        rw [Nat.shiftLeft_eq]
        omega
      rw [hhigh, mul_two_pow_or hlt]
      omega
    have hsplit : beNat xs = beNat (xs.take 4) * 256 ^ (xs.drop 4).length + beNat (xs.drop 4) := by
      rw [← beNat_append, List.take_append_drop]
    have hdrop : (xs.drop 4).length = 4 * n := by
      rw [List.length_drop]
      omega
    cases n with
    | zero =>
      have hnil : xs.drop 4 = [] := List.length_eq_zero_iff.mp (by omega)
      rw [combineCells, hload, ok_bind, hor, combineCells, hsplit, hnil, hlen]
      norm_num [beNat]
    | succ n =>
      rw [combineCells, hload, ok_bind, hor, cellSizeBytes, add64_of_lt (by omega),
        ih hrest hdrop (by rw [hdrop]; omega) (Nat.mod_lt _ (by norm_num))]
      have hpow : 256 ^ xs.length = 2 ^ 32 * 256 ^ (xs.drop 4).length := by
        rw [hlen, hdrop, show 4 * (n + 1 + 1) = 4 + 4 * (n + 1) by ring, pow_add]
        norm_num
      rw [hsplit, hpow, Nat.add_mod, Nat.mod_mul_mod, ← Nat.add_mod]
      congr 2
      ring

/-- A two-cell number. -/
lemma getCombinedCell_two (h : m.HasBytes a xs) (hlen : xs.length = 8) (ha : a + 8 ≤ 2 ^ 64) :
    getCombinedCell m ⟨a, 2⟩ = .ok (beNat xs) := by
  have hlt := beNat_lt xs
  rw [hlen] at hlt
  rw [getCombinedCell, combineCells_eq h hlen (by omega) (by norm_num), Nat.zero_mul, Nat.zero_add,
    Nat.mod_eq_of_lt (by omega)]

/-- The address of an initial RAM disk in four or eight bytes. -/
lemma getInitrdAddress_eq (h : m.HasBytes a xs) (hlen : xs.length = 4 ∨ xs.length = 8)
    (ha : a + xs.length ≤ 2 ^ 64) :
    getInitrdAddress m ⟨a, xs.length / cellSizeBytes⟩ = .ok (beNat xs) := by
  rcases hlen with hlen | hlen
  · have hround : beBytes 4 (beNat xs) = xs := by
      have := beBytes_beNat xs
      rwa [hlen] at this
    have hlt := beNat_lt xs
    rw [hlen] at hlt ha
    have hone : 4 / cellSizeBytes ≠ 2 := by decide
    rw [getInitrdAddress, hlen, if_neg hone, loadBe32_eq_ok ha, hround]
    exact ⟨h, by omega⟩
  · have htwo : 8 / cellSizeBytes = 2 := by decide
    rw [getInitrdAddress, hlen, if_pos htwo]
    exact getCombinedCell_two h hlen (by omega)

/-! ## Tokens -/

/-- The walk of the parsers reads the token that lies there. -/
lemma nextItem_of_tokenAt (hend : B.structEnd < 2 ^ 64) (h : TokenAt B a t b)
    (hb : b ≤ B.structEnd) : nextItem B.mem B.structEnd a = .ok (t.item a, b) := by
  have hle := h.add_four_le
  rw [nextItem]
  cases h with
  | @beginNode name hword hname hlt =>
    rw [hword.loadBe32_eq hend, ok_bind, add64_of_lt (a := a) (by omega)]
    simp only [FDT.ofWord]
    rw [(nulIndex_eq_ok (by omega) (by omega)).mpr ⟨name, rfl, hname⟩, ok_bind,
      add64_of_lt (by omega), if_neg (by omega), fdtAlign_eq]
    · rfl
    · unfold roundUp4 at hb
      omega
  | endNode hword =>
    rw [hword.loadBe32_eq hend, ok_bind, add64_of_lt (a := a) (by omega)]
    rfl
  | @prop nameOff name value hword hlen hoff hname hvalue hdata =>
    rw [hword.loadBe32_eq hend, ok_bind, add64_of_lt (a := a) (by omega)]
    simp only [FDT.ofWord]
    rw [hlen.loadBe32_eq hend, ok_bind, add64_of_lt (b := 4) (by omega),
      hoff.loadBe32_eq hend, ok_bind, add64_of_lt (b := 8) (by omega), fdtAlign_eq]
    · rfl
    · unfold roundUp4 at hb
      omega
  | nop hword =>
    rw [hword.loadBe32_eq hend, ok_bind, add64_of_lt (a := a) (by omega)]
    rfl
  | finish hword =>
    rw [hword.loadBe32_eq hend, ok_bind, add64_of_lt (a := a) (by omega)]
    rfl

/-- A comparison of the name of a property. -/
lemma stringEquals_propName {dtb : ℕ} {f : HeaderField → ℕ} {nameOff : ℕ}
    (hv : ValidHeader m dtb f) (h : (blobOf m dtb f).PropName nameOff name) :
    ∃ span, propName m dtb (blobOf m dtb f).strings nameOff = .ok span ∧
      ∀ xs : List UInt8, 0 ∉ xs → stringEquals m span.1 span.2 xs = .ok (decide (name = xs)) := by
  have hlt := h.lt
  have hstrings := hv.strings_le
  have hfits := hv.fits
  have hsize := hv.lt .sizeStrings
  refine ⟨((blobOf m dtb f).strings + nameOff, f .sizeStrings - nameOff), ?_, fun xs hxs => ?_⟩
  · rw [propName, hv.header_eq, ok_bind, add64_of_lt (by omega)]
    have hsub : sub32 (f .sizeStrings) nameOff = f .sizeStrings - nameOff := by
      simp only [blobOf] at hlt
      unfold sub32
      omega
    rw [hsub]
    rfl
  · refine stringEquals_eq h.string (by omega) ?_ hxs
    simp only [blobOf] at hlt ⊢
    omega

end DeviceTree

end HyperBerry
