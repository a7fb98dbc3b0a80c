import HyperBerry.DeviceTree.Walks

/-!
# Validation on any bytes

`validateHeader` on a blob about which nothing is known.  The memory need not hold more than the
header and the bytes that the header claims, and an access to any other address would end the run
with a fault; so a run that only returns or panics has stayed inside, and has come to an end.
Together with what validation accepts this says exactly when it returns.
-/

namespace HyperBerry

namespace DeviceTree

open Memory Walk

variable {α β : Type} {m : Memory} {a n : ℕ}

/-! ## Runs that return or panic -/

/-- The computation returns or panics: it ends, and reads nothing that is not there. -/
def Stops : Except Halt α → Prop
  | .ok _ => True
  | .error (.panic _) => True
  | .error (.fault _) => False
  | .error .hang => False

/-- A computation that has returned. -/
lemma Stops.of_ok {x : Except Halt α} {y : α} (h : x = .ok y) : Stops x := by
  rw [h]
  trivial

/-- Two computations, one after the other. -/
lemma Stops.bind {x : Except Halt α} {f : α → Except Halt β} (hx : Stops x)
    (hf : ∀ y, x = .ok y → Stops (f y)) : Stops (x >>= f) := by
  cases x with
  | ok y => exact hf y rfl
  | error e =>
    cases e with
    | panic message => trivial
    | fault addr => exact absurd hx id
    | hang => exact absurd hx id

/-- Two computations, one after the other, of which the first logs nothing. -/
lemma Stops.after {ν : Type} {x : Except Halt α} {k : α → Run ν Halt β} (hx : Stops x)
    (hk : ∀ y, x = .ok y → Stops (k y).result) : Stops (Run.after x k).result := by
  cases x with
  | ok y => exact hk y rfl
  | error e =>
    cases e with
    | panic message => trivial
    | fault addr => exact absurd hx id
    | hang => exact absurd hx id

/-! ## Reading bytes that are there -/

/-- A word whose bytes are there. -/
lemma loadBe32_stops (h : ∀ i < 4, (m (a + i)).isSome) (ha : a + 4 ≤ 2 ^ 64) :
    Stops (loadBe32 m a) := by
  obtain ⟨xs, hlen, hxs⟩ := exists_hasBytes h
  have hlt := beNat_lt xs
  have hround := beBytes_beNat xs
  rw [hlen] at hlt hround
  exact .of_ok ((loadBe32_eq_ok ha).mpr ⟨hround.symm ▸ hxs, hlt.trans_le (by norm_num)⟩)

/-- A search for a NUL in bytes that are there. -/
lemma nulIndex_stops (h : ∀ i < n, (m (a + i)).isSome) (ha : a + n ≤ 2 ^ 64) :
    Stops (nulIndex m a n) := by
  induction n generalizing a with
  | zero => trivial
  | succ n ih =>
    obtain ⟨x, hx⟩ := Option.isSome_iff_exists.mp (h 0 (Nat.succ_pos n))
    rw [Nat.add_zero] at hx
    rw [nulIndex, load8_eq_ok.mpr hx, ok_bind]
    split
    case isTrue => trivial
    case isFalse =>
      -- with no byte left the next address is not read
      cases n with
      | zero => trivial
      | succ n =>
        rw [add64_of_lt (by omega)]
        refine (ih (fun i hi => ?_) (by omega)).bind fun _ _ => trivial
        rw [show a + 1 + i = a + (i + 1) by omega]
        exact h (i + 1) (by omega)

/-! ## One pass of the loop -/

variable {B : Blob} {path : List Name}

/-- The bytes of the two blocks are there, and the blocks lie in the address space. -/
structure Blob.Readable (B : Blob) (a : ℕ) : Prop where
  structEnd_lt : B.structEnd < 2 ^ 64
  size_lt : B.structEnd - a < 2 ^ 32
  strings_lt : B.strings + B.stringsSize < 2 ^ 64
  structs : ∀ i, a ≤ i → i < B.structEnd → (B.mem i).isSome
  names : ∀ i, B.strings ≤ i → i < B.strings + B.stringsSize → (B.mem i).isSome

/-- The blocks are there from a later address on, too. -/
lemma Blob.Readable.mono {b : ℕ} (h : B.Readable a) (hb : a ≤ b) : B.Readable b where
  structEnd_lt := h.structEnd_lt
  size_lt := by
    have := h.size_lt
    omega
  strings_lt := h.strings_lt
  structs i hi := h.structs i (hb.trans hi)
  names := h.names

/-- A word of the structure block is there. -/
lemma Blob.Readable.word (h : B.Readable a) {b : ℕ} (hab : a ≤ b) (hb : b + 4 ≤ B.structEnd) :
    Stops (loadBe32 B.mem b) := by
  have hend := h.structEnd_lt
  exact loadBe32_stops (fun i hi => h.structs _ (by omega) (by omega)) (by omega)

/-- The validation of a node name. -/
lemma Blob.Readable.validateNode (h : B.Readable a) (ha : a ≤ B.structEnd) (depth : ℕ) :
    Stops (validateNode B.mem B.structEnd a depth) := by
  have hend := h.structEnd_lt
  refine (nulIndex_stops (fun i hi => h.structs _ (by omega) (by omega)) (by omega)).bind
    fun len _ => ?_
  split_ifs <;> trivial

/-- The validation of a property. -/
lemma Blob.Readable.validateProp (h : B.Readable a) (ha : a ≤ B.structEnd) (depth : ℕ) :
    Stops (validateProp B.mem B.structEnd B.strings B.stringsSize a depth) := by
  have hend := h.structEnd_lt
  have hsize := h.size_lt
  have hstrings := h.strings_lt
  rw [DeviceTree.validateProp]
  split
  case isTrue => trivial
  case isFalse hdiff =>
    have height : 8 ≤ B.structEnd - a := (not_ptrdiffLt ha hend (by omega)).mp hdiff
    refine (h.word le_rfl (by omega)).bind fun len _ => ?_
    rw [add64_of_lt (a := a) (b := 4) (by omega)]
    refine (h.word (by omega) (by omega)).bind fun nameOff _ => ?_
    split
    case isTrue => trivial
    case isFalse hname =>
      rw [add64_of_lt (a := B.strings) (by omega)]
      refine (nulIndex_stops (fun i hi => h.names _ (by omega) (by omega)) (by omega)).bind
        fun i _ => ?_
      split_ifs
      · trivial
      · dsimp only
        split_ifs <;> trivial

/-- One pass of the validation loop. -/
lemma Blob.Readable.validateItem (h : B.Readable a) (ha : a < B.structEnd) (depth : ℕ)
    (ended : Bool) :
    Stops (validateItem B.mem B.structEnd B.strings B.stringsSize ⟨a, depth, ended⟩) := by
  have hend := h.structEnd_lt
  have hsize := h.size_lt
  rw [DeviceTree.validateItem]
  split
  case isTrue => trivial
  case isFalse hdiff =>
    have hfour : 4 ≤ B.structEnd - a := (not_ptrdiffLt ha.le hend (by omega)).mp hdiff
    refine (h.word le_rfl (by omega)).bind fun token _ => ?_
    simp only [add64_of_lt (a := a) (b := 4) (by omega)]
    have hnext : B.Readable (a + 4) := h.mono (by omega)
    split
    case isTrue => trivial
    case isFalse =>
      split
      · exact hnext.validateNode (by omega) depth
      · split_ifs <;> trivial
      · exact hnext.validateProp (by omega) depth
      · trivial
      · split_ifs <;> trivial
      · trivial

/-! ## The whole loop -/

/-- A pass that panics is the last one. -/
lemma validateLoop_stops_of_panic {fuel : ℕ} {s : ValidateState}
    (h : s.cursor < B.structEnd → ∃ message,
      validateItem B.mem B.structEnd B.strings B.stringsSize s = .error (.panic message)) :
    Stops (validateLoop B.mem B.structEnd B.strings B.stringsSize (fuel + 1) s).result := by
  rw [validateLoop]
  split
  case isTrue hlt =>
    obtain ⟨message, hitem⟩ := h hlt
    rw [hitem]
    trivial
  case isFalse => trivial

/-- At an address that has wrapped around, the end of the block is too far ahead. -/
lemma validateItem_wrapped {s : ValidateState} (hend : B.structEnd < 2 ^ 64)
    (hwrap : 2 ^ 64 ≤ B.structEnd + 3) (hcur : s.cursor < 4) :
    validateItem B.mem B.structEnd B.strings B.stringsSize s =
      .error (.panic "[ERROR][DTB] truncated structure block") := by
  rw [validateItem, if_pos]
  refine .inr ?_
  rw [sub64_of_le (by omega) hend]
  omega

/-- After the end token nothing may follow. -/
lemma Blob.Readable.validateItem_ended {b : ℕ} (h : B.Readable a) (hab : a ≤ b)
    (hb : b < B.structEnd) (depth : ℕ) :
    ∃ message, DeviceTree.validateItem B.mem B.structEnd B.strings B.stringsSize ⟨b, depth, true⟩ =
      .error (.panic message) := by
  have hstops := (h.mono hab).validateItem hb depth true
  cases hitem : DeviceTree.validateItem B.mem B.structEnd B.strings B.stringsSize
      ⟨b, depth, true⟩ with
  | ok r => cases (not_ptrdiffLt_of_validateItem hitem).2
  | error e =>
    rw [hitem] at hstops
    cases e with
    | panic message => exact ⟨message, rfl⟩
    | fault addr => exact absurd hstops id
    | hang => exact absurd hstops id

/-- The validation loop comes to an end and stays inside the blocks: each pass goes forward. -/
lemma Blob.Readable.validateLoop {fuel : ℕ} (h : B.Readable a) (hal : 4 ∣ a)
    (hpath : path.length ≤ maxDepth) (hfuel : B.structEnd - a < fuel) :
    Stops (validateLoop B.mem B.structEnd B.strings B.stringsSize fuel
      (stateAt a path false)).result := by
  have hend := h.structEnd_lt
  induction fuel generalizing a path with
  | zero => exact absurd hfuel (Nat.not_lt_zero _)
  | succ fuel ih =>
    rw [DeviceTree.validateLoop]
    split
    case isFalse => trivial
    case isTrue hlt =>
      have hlt : a < B.structEnd := hlt
      refine (h.validateItem hlt _ _).after fun r hr => ?_
      obtain ⟨x, s'⟩ := r
      rw [Run.result_log]
      obtain ⟨fuel, rfl⟩ : ∃ k, fuel = k + 1 := ⟨fuel - 1, by omega⟩
      rcases tokenAt_of_validateItem hend hlt h.size_lt h.strings_lt hpath h.structs hr
          (.inl hal) with
        ⟨hcur, hwrap⟩ | ⟨t, ht, -, hallowed, hs'⟩
      · exact validateLoop_stops_of_panic fun _ => ⟨_, validateItem_wrapped hend hwrap hcur⟩
      have hforward := ht.lt
      by_cases hfin : t = .finish
      · -- the end token has been read
        rw [hs', decide_eq_true hfin]
        exact validateLoop_stops_of_panic fun hb => h.validateItem_ended hforward.le hb _
      · rw [hs', decide_eq_false hfin]
        refine ih (h.mono hforward.le) (ht.four_dvd hal) (length_pathAfter_le hpath hallowed)
          (by omega)

/-! ## The header -/

/-- The header checks only read the header. -/
lemma checkHeader_stops {dtb : ℕ} {f : HeaderField → ℕ}
    (hheader : ∀ field, header m dtb field = .ok (f field)) : Stops (checkHeader m dtb) := by
  rw [checkHeader]
  split
  case isTrue => trivial
  case isFalse =>
    simp only [hheader, ok_bind]
    split_ifs <;> trivial

/-- Header checks that pass have found a valid header. -/
lemma validHeader_of_checkHeader {dtb : ℕ} {f : HeaderField → ℕ} {h : Header}
    (hheader : ∀ field, header m dtb field = .ok (f field)) (hdtb : dtb < 2 ^ 64)
    (hfits : dtb + f .totalSize < 2 ^ 64) (hcheck : checkHeader m dtb = .ok h) :
    ValidHeader m dtb f := by
  have htotal : h.total = f .totalSize := by
    have hcheck' := hcheck
    rw [checkHeader] at hcheck'
    simp only [hheader, ok_bind] at hcheck'
    split_ifs at hcheck'
    cases hcheck'
    rfl
  obtain ⟨g, hv, -⟩ := header_of_checkHeader hcheck hdtb (by
    rw [htotal, add64_of_lt hfits]
    omega)
  have hg : g = f := funext fun field =>
    Except.ok.inj ((hv.header_eq field).symm.trans (hheader field))
  exact hg ▸ hv

/-- The blocks of a blob that is there are there. -/
lemma ValidHeader.readable {dtb : ℕ} {f : HeaderField → ℕ} (hv : ValidHeader m dtb f)
    (hread : ∀ i < f .totalSize, (m (dtb + i)).isSome) :
    (blobOf m dtb f).Readable (dtb + f .structOff) := by
  have hend := hv.structEnd_le
  have hstrings := hv.strings_le
  have hfits := hv.fits
  have hsize := hv.lt .sizeStructs
  have hbyte (i : ℕ) (hlo : dtb ≤ i) (hhi : i < dtb + f .totalSize) : (m i).isSome := by
    have hi := hread (i - dtb) (by omega)
    rwa [Nat.add_sub_cancel' hlo] at hi
  refine ⟨by omega, by simp only [blobOf]; omega, by omega, fun i hlo hhi => ?_,
    fun i hlo hhi => ?_⟩
  · exact hbyte i (by omega) (by omega)
  · simp only [blobOf] at hlo
    exact hbyte i (by omega) (by omega)

/-- Validation on any bytes: it returns or panics, so that it ends and, behind the header, reads
nothing outside the blob; and it returns exactly when the header is valid and the structure block is
a balanced sequence of tokens that is not nested too deep, with the end token at its end. -/
theorem validateHeader_exact (m : Memory) (dtb : ℕ) (f : HeaderField → ℕ)
    (hdtb : dtb < 2 ^ 64) (hal : 4 ∣ dtb) (hheader : ∀ field, header m dtb field = .ok (f field))
    (hoff : 4 ∣ f .structOff) (hfits : dtb + f .totalSize < 2 ^ 64)
    (hread : ∀ i < f .totalSize, (m (dtb + i)).isSome) :
    Stops (validateHeader m dtb).result ∧
      ((validateHeader m dtb).result = .ok () ↔
        ValidHeader m dtb f ∧
        ∃ l, Tokens (blobOf m dtb f) (dtb + f .structOff) l (blobOf m dtb f).structEnd ∧
          Balanced [] l ∧ nesting [] l ≤ maxDepth) := by
  have halign : 4 ∣ dtb + f .structOff := hal.add hoff
  refine ⟨?_, fun h => ?_, fun ⟨hv, l, hl, hbal, hnest⟩ => ?_⟩
  · by_cases hv : ValidHeader m dtb f
    · have hreadable := hv.readable hread
      have hsize := hreadable.size_lt
      have hfuel : (blobOf m dtb f).structEnd - (dtb + f .structOff) < loopFuel := by
        rw [loopFuel]
        omega
      have hpath : ([] : List Name).length ≤ maxDepth := Nat.zero_le _
      have hloop := hreadable.validateLoop halign hpath hfuel
      rw [hv.validateHeader_eq, Run.andThen]
      have hmem : (blobOf m dtb f).mem = m := rfl
      rw [hmem] at hloop
      revert hloop
      generalize (validateLoop m _ _ _ loopFuel _).result = result
      intro hloop
      cases result with
      | error e => cases e <;> exact hloop
      | ok s =>
        dsimp only
        split_ifs <;> trivial
    · rw [validateHeader]
      exact (checkHeader_stops hheader).after fun h hcheck =>
        absurd (validHeader_of_checkHeader hheader hdtb hfits hcheck) hv
  · obtain ⟨g, hv, htokens⟩ := tokens_of_validateHeader hdtb (Run.eq_mk h)
    obtain rfl : g = f := funext fun field =>
      Except.ok.inj ((hv.header_eq field).symm.trans (hheader field))
    obtain ⟨l, hl, hbal, hnest, -⟩ := htokens (hv.readable hread).structs (.inl halign)
    exact ⟨hv, l, hl, hbal, hnest⟩
  · rw [validateHeader_of_tokens hv hl hbal hnest (.inl halign)]

/-- A memory that holds the tree of one device and nothing else. -/
def rootMemory : Memory := fun a => if 0x1000 ≤ a then rootDevice[a - 0x1000]? else none

/-- The tree of one device, a node with two properties, is accepted, and nothing outside the blob is
read. -/
theorem validateHeader_exact_rootDevice :
    Stops (validateHeader rootMemory 0x1000).result ∧
      (validateHeader rootMemory 0x1000).visits.length = 5 ∧
      ∃ l, Tokens (blobOf rootMemory 0x1000 (fieldAt (contentAt 0x1000 rootDevice) 0x1000)) 0x1038 l
          (blobOf rootMemory 0x1000 (fieldAt (contentAt 0x1000 rootDevice) 0x1000)).structEnd ∧
        Balanced [] l ∧ nesting [] l ≤ maxDepth := by
  have hheader (field : HeaderField) : header rootMemory 0x1000 field =
      .ok (fieldAt (contentAt 0x1000 rootDevice) 0x1000 field) := by
    cases field <;> decide +kernel
  have hok : (validateHeader rootMemory 0x1000).result = .ok () := by decide +kernel
  have hread : ∀ i < fieldAt (contentAt 0x1000 rootDevice) 0x1000 .totalSize,
      (rootMemory (0x1000 + i)).isSome := by decide +kernel
  obtain ⟨hstops, hexact⟩ := validateHeader_exact rootMemory 0x1000
    (fieldAt (contentAt 0x1000 rootDevice) 0x1000) (by norm_num) (by norm_num) hheader
    (by decide +kernel) (by decide +kernel) hread
  obtain ⟨-, l, hl, hbal, hnest⟩ := hexact.mp hok
  exact ⟨hstops, by decide +kernel, l, hl, hbal, hnest⟩

end DeviceTree

end HyperBerry
