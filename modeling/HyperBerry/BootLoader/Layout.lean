import HyperBerry.Lib.Word

/-!
# Where the guest files go

A model of `BootLoader::CalculateLayout` in `core/bootLoader/bootLoader.cpp`.
-/

namespace HyperBerry

namespace BootLoader

/-- `GUEST_IPA_BASE`. -/
def guestIpaBase : ℕ := 0x40000000

/-- `GUEST_RAM_SIZE`. -/
def guestRamSize : ℕ := 256 * 1024 * 1024

/-- `KERNEL_LOAD_IPA`. -/
def kernelLoadIpa : ℕ := guestIpaBase + 0x200000

/-- `ALIGN_64K`. -/
def align64K : ℕ := 64 * 1024

/-- `ALIGN_2MB`. -/
def align2MB : ℕ := 2 * 1024 * 1024

/-- The sizes of the guest files, zero for an initial RAM disk that is absent. -/
structure GuestFileSizes where
  kernel : UInt64
  dtb : UInt64
  initrd : UInt64

/-- Where each guest file sits in guest RAM. -/
structure GuestLayout where
  /-- Host physical base of guest RAM, set by `Load`. -/
  ramHostPa : ℕ := 0
  kernelIpa : ℕ := 0
  kernelSize : ℕ := 0
  dtbIpa : ℕ := 0
  dtbSize : ℕ := 0
  /-- Zero when there is no initial RAM disk. -/
  initrdIpa : ℕ := 0
  /-- Zero when there is no initial RAM disk. -/
  initrdSize : ℕ := 0
deriving DecidableEq

/-- Round down to a multiple of a power of two. -/
def alignDown (value alignment : ℕ) : ℕ := value &&& not64 (alignment - 1)

/-- The placement of the initial RAM disk: its address, zero if there is none, and the top of the
memory that is left below it. -/
def placeInitrd (initrdSize kernelEnd top : ℕ) : Option (ℕ × ℕ) :=
  if initrdSize ≠ 0 then
    if initrdSize > top then none
    else
      let initrdIpa := alignDown (top - initrdSize) align2MB
      if initrdIpa < kernelEnd then none else some (initrdIpa, initrdIpa)
  else some (0, top)

/-- Decide where each file goes in guest RAM; the layout is zero on failure. -/
def calculateLayout (files : GuestFileSizes) : GuestLayout × Bool :=
  if files.kernel = 0 ∨ files.dtb = 0 then ({}, false)
  else if kernelLoadIpa + files.kernel.toNat ≥ 2 ^ 64 then ({}, false)
  else
    let kernelEnd := kernelLoadIpa + files.kernel.toNat
    match placeInitrd files.initrd.toNat kernelEnd (guestIpaBase + guestRamSize) with
    | none => ({}, false)
    | some (initrdIpa, top) =>
      if files.dtb.toNat > top then ({}, false)
      else
        let dtbIpa := alignDown (top - files.dtb.toNat) align64K
        if dtbIpa < kernelEnd then ({}, false)
        else
          ({ kernelIpa := kernelLoadIpa, kernelSize := files.kernel.toNat, dtbIpa := dtbIpa,
             dtbSize := files.dtb.toNat, initrdIpa := initrdIpa,
             initrdSize := files.initrd.toNat }, true)

/-- Rounding down does not go up. -/
lemma alignDown_le (value alignment : ℕ) : alignDown value alignment ≤ value := Nat.and_le_left

/-- A placed initial RAM disk lies between the kernel and the top, with the rest of the memory below
it; one that is absent is at zero. -/
lemma placeInitrd_eq_some {initrdSize kernelEnd top initrdIpa top' : ℕ}
    (h : placeInitrd initrdSize kernelEnd top = some (initrdIpa, top')) :
    initrdIpa + initrdSize ≤ top ∧ top' ≤ top ∧ (initrdSize = 0 → initrdIpa = 0) ∧
      (initrdSize ≠ 0 → initrdIpa = top') := by
  rw [placeInitrd] at h
  split at h
  case isFalse hsize =>
    cases h
    exact ⟨by omega, le_rfl, fun _ => rfl, fun hne => absurd hne hsize⟩
  case isTrue hsize =>
    split at h
    case isTrue => cases h
    case isFalse hle =>
      simp only at h
      split at h
      case isTrue => cases h
      case isFalse =>
        cases h
        have hdown := alignDown_le (top - initrdSize) align2MB
        exact ⟨by omega, by omega, fun hzero => absurd hzero hsize, fun _ => rfl⟩

/-- What the calculation has checked when it succeeds. -/
lemma calculateLayout_eq_true {files : GuestFileSizes} {layout : GuestLayout}
    (h : calculateLayout files = (layout, true)) :
    files.kernel ≠ 0 ∧ files.dtb ≠ 0 ∧ ∃ initrdIpa top dtbIpa,
      placeInitrd files.initrd.toNat (kernelLoadIpa + files.kernel.toNat)
        (guestIpaBase + guestRamSize) = some (initrdIpa, top) ∧
      kernelLoadIpa + files.kernel.toNat ≤ dtbIpa ∧ dtbIpa + files.dtb.toNat ≤ top ∧
      layout = { kernelIpa := kernelLoadIpa, kernelSize := files.kernel.toNat, dtbIpa := dtbIpa,
                 dtbSize := files.dtb.toNat, initrdIpa := initrdIpa,
                 initrdSize := files.initrd.toNat } := by
  rw [calculateLayout] at h
  split at h
  case isTrue => cases h
  case isFalse hne =>
    split at h
    case isTrue => cases h
    case isFalse =>
      simp only at h
      split at h
      case h_1 => cases h
      case h_2 initrdIpa top hplace =>
        split at h
        case isTrue => cases h
        case isFalse =>
          split at h
          case isTrue => cases h
          case isFalse =>
            cases h
            have hdown := alignDown_le (top - files.dtb.toNat) align64K
            exact ⟨fun hk => hne (.inl hk), fun hd => hne (.inr hd), initrdIpa, top, _, hplace,
              by omega, by omega, rfl⟩

/-- The initial RAM disk of a layout ends inside guest RAM, and one that is absent is at zero. -/
lemma initrd_of_calculateLayout {files : GuestFileSizes} {layout : GuestLayout}
    (h : calculateLayout files = (layout, true)) :
    layout.initrdIpa + layout.initrdSize ≤ guestIpaBase + guestRamSize ∧
      (layout.initrdSize = 0 → layout.initrdIpa = 0) := by
  obtain ⟨-, -, initrdIpa, top, dtbIpa, hplace, -, -, rfl⟩ := calculateLayout_eq_true h
  obtain ⟨hend, -, hzero, -⟩ := placeInitrd_eq_some hplace
  exact ⟨hend, hzero⟩

/-- The files of a layout lie in guest RAM one after the other: the kernel, the tree, and the
initial RAM disk if there is one. -/
structure GuestLayout.Ordered (layout : GuestLayout) : Prop where
  kernel_pos : 0 < layout.kernelSize
  dtb_pos : 0 < layout.dtbSize
  kernel : guestIpaBase ≤ layout.kernelIpa
  dtb : layout.kernelIpa + layout.kernelSize ≤ layout.dtbIpa
  dtb_end : layout.dtbIpa + layout.dtbSize ≤ guestIpaBase + guestRamSize
  initrd : layout.initrdSize ≠ 0 → layout.dtbIpa + layout.dtbSize ≤ layout.initrdIpa
  initrd_end : layout.initrdIpa + layout.initrdSize ≤ guestIpaBase + guestRamSize

/-- The files of a calculated layout lie in order. -/
lemma ordered_of_calculateLayout {files : GuestFileSizes} {layout : GuestLayout}
    (h : calculateLayout files = (layout, true)) : layout.Ordered := by
  obtain ⟨hkernel, hdtb, initrdIpa, top, dtbIpa, hplace, hdown, hup, rfl⟩ :=
    calculateLayout_eq_true h
  obtain ⟨hend, htop, -, hinitrd⟩ := placeInitrd_eq_some hplace
  exact
    { kernel_pos := Nat.pos_of_ne_zero fun hzero => hkernel (UInt64.toNat_inj.mp hzero)
      dtb_pos := Nat.pos_of_ne_zero fun hzero => hdtb (UInt64.toNat_inj.mp hzero)
      kernel := Nat.le_add_right _ _
      dtb := hdown
      dtb_end := hup.trans htop
      initrd := fun hne => hup.trans (hinitrd hne).ge
      initrd_end := hend }

/-! ## The best placement -/

variable {files : GuestFileSizes} {size top initrdIpa dtbIpa : ℕ}

/-- The top of guest RAM. -/
def ramEnd : ℕ := guestIpaBase + guestRamSize

/-- Addresses for the initial RAM disk and the tree: the kernel, the tree and the initial RAM disk
lie in this order without overlap below the top of guest RAM.  An initial RAM disk that is absent is
at zero. -/
structure Placement (files : GuestFileSizes) (initrdIpa dtbIpa : ℕ) : Prop where
  dtb_aligned : align64K ∣ dtbIpa
  kernel_end : kernelLoadIpa + files.kernel.toNat ≤ dtbIpa
  absent : files.initrd = 0 → initrdIpa = 0 ∧ dtbIpa + files.dtb.toNat ≤ ramEnd
  initrd_aligned : files.initrd ≠ 0 → align2MB ∣ initrdIpa
  dtb_end : files.initrd ≠ 0 → dtbIpa + files.dtb.toNat ≤ initrdIpa
  initrd_end : files.initrd ≠ 0 → initrdIpa + files.initrd.toNat ≤ ramEnd

/-- The layout with the given addresses. -/
def layoutAt (files : GuestFileSizes) (initrdIpa dtbIpa : ℕ) : GuestLayout where
  kernelIpa := kernelLoadIpa
  kernelSize := files.kernel.toNat
  dtbIpa := dtbIpa
  dtbSize := files.dtb.toNat
  initrdIpa := initrdIpa
  initrdSize := files.initrd.toNat

/-- Rounding down gives the greatest aligned address from which a file ends below the top. -/
lemma isGreatest_alignDown {k : ℕ} (hk : k ≤ 64) (htop : top < 2 ^ 64) (hsize : size ≤ top) :
    IsGreatest {a | 2 ^ k ∣ a ∧ a + size ≤ top} (alignDown (top - size) (2 ^ k)) := by
  rw [alignDown, and_not64_two_pow_sub_one (by omega) hk]
  have hle := Nat.div_mul_le_self (top - size) (2 ^ k)
  refine ⟨⟨Nat.dvd_mul_left _ _, by omega⟩, ?_⟩
  rintro a ⟨hdvd, ha⟩
  rw [← Nat.div_mul_cancel hdvd]
  exact Nat.mul_le_mul_right _ (Nat.div_le_div_right (by omega))

/-- A file is placed as high as possible below the top, unless no aligned address is high enough for
the end of the kernel. -/
lemma alignDown_cases {k : ℕ} (size kernelEnd : ℕ) (hk : k ≤ 64) (htop : top < 2 ^ 64) :
    ((size > top ∨ alignDown (top - size) (2 ^ k) < kernelEnd) ∧
        ∀ a, 2 ^ k ∣ a → a + size ≤ top → a < kernelEnd) ∨
      (size ≤ top ∧ kernelEnd ≤ alignDown (top - size) (2 ^ k)) ∧
        IsGreatest {a | 2 ^ k ∣ a ∧ a + size ≤ top} (alignDown (top - size) (2 ^ k)) := by
  by_cases hfits : top < size
  · exact .inl ⟨.inl hfits, fun a _ ha => by omega⟩
  have hgreatest := isGreatest_alignDown hk htop (Nat.le_of_not_lt hfits)
  by_cases hkernel : alignDown (top - size) (2 ^ k) < kernelEnd
  · exact .inl ⟨.inr hkernel, fun a hdvd ha => (hgreatest.2 ⟨hdvd, ha⟩).trans_lt hkernel⟩
  · exact .inr ⟨⟨Nat.le_of_not_lt hfits, Nat.le_of_not_lt hkernel⟩, hgreatest⟩

/-- The initial RAM disk is placed as high as possible, unless there is none. -/
lemma placeInitrd_cases (size kernelEnd : ℕ) (htop : top < 2 ^ 64) :
    (placeInitrd size kernelEnd top = none ∧ size ≠ 0 ∧
        ∀ a, align2MB ∣ a → a + size ≤ top → a < kernelEnd) ∨
      (size = 0 ∧ placeInitrd size kernelEnd top = some (0, top)) ∨
      size ≠ 0 ∧ ∃ a, placeInitrd size kernelEnd top = some (a, a) ∧
        IsGreatest {a | align2MB ∣ a ∧ a + size ≤ top} a := by
  rw [placeInitrd]
  by_cases hzero : size = 0
  · exact .inr (.inl ⟨hzero, if_neg (not_not.mpr hzero)⟩)
  rw [if_pos hzero]
  have hcases := alignDown_cases (k := 21) size kernelEnd (by norm_num) htop
  rw [show 2 ^ 21 = align2MB from rfl] at hcases
  rcases hcases with ⟨hlow | hlow, hno⟩ | ⟨⟨hfits, hkernel⟩, hgreatest⟩
  · exact .inl ⟨if_pos hlow, hzero, hno⟩
  · refine .inl ⟨?_, hzero, hno⟩
    split
    · rfl
    · exact if_pos hlow
  · refine .inr (.inr ⟨hzero, _, ?_, hgreatest⟩)
    rw [if_neg (Nat.not_lt.mpr hfits)]
    exact if_neg (Nat.not_lt.mpr hkernel)

/-- The rest of the calculation, once the initial RAM disk is placed: the tree goes as high as
possible below the given top. -/
lemma calculateLayout_of_placeInitrd {top : ℕ} (hkernel : files.kernel ≠ 0) (hdtb : files.dtb ≠ 0)
    (hend : kernelLoadIpa + files.kernel.toNat < 2 ^ 64) (htop : top < 2 ^ 64)
    (hplace : placeInitrd files.initrd.toNat (kernelLoadIpa + files.kernel.toNat) ramEnd =
      some (initrdIpa, top)) :
    (calculateLayout files = ({}, false) ∧ ∀ a, align64K ∣ a → a + files.dtb.toNat ≤ top →
        a < kernelLoadIpa + files.kernel.toNat) ∨
      ∃ dtbIpa, calculateLayout files = (layoutAt files initrdIpa dtbIpa, true) ∧
        kernelLoadIpa + files.kernel.toNat ≤ dtbIpa ∧
        IsGreatest {a | align64K ∣ a ∧ a + files.dtb.toNat ≤ top} dtbIpa := by
  rw [ramEnd] at hplace
  rw [calculateLayout, if_neg (by simp [hkernel, hdtb]), if_neg (Nat.not_le.mpr hend)]
  simp only [hplace]
  have hcases := alignDown_cases (k := 16) files.dtb.toNat (kernelLoadIpa + files.kernel.toNat)
    (by norm_num) htop
  rw [show 2 ^ 16 = align64K from rfl] at hcases
  rcases hcases with ⟨hlow | hlow, hno⟩ | ⟨⟨hfits, hhigh⟩, hgreatest⟩
  · exact .inl ⟨if_pos hlow, hno⟩
  · exact .inl ⟨by rw [if_pos hlow, ite_self], hno⟩
  · refine .inr ⟨_, ?_, hhigh, hgreatest⟩
    rw [if_neg (Nat.not_lt.mpr hfits), if_neg (Nat.not_lt.mpr hhigh)]
    rfl

/-- A placement with the greatest address of the initial RAM disk, and then the greatest address of
the tree. -/
structure IsBest (files : GuestFileSizes) (initrdIpa dtbIpa : ℕ) : Prop where
  placement : Placement files initrdIpa dtbIpa
  initrd : ∀ i d, Placement files i d → i ≤ initrdIpa
  dtb : ∀ d, Placement files initrdIpa d → d ≤ dtbIpa

/-- The calculation fails with a layout of zeros where there is no placement, and otherwise succeeds
with the greatest placement. -/
lemma calculateLayout_cases (hkernel : files.kernel ≠ 0) (hdtb : files.dtb ≠ 0) :
    (calculateLayout files = ({}, false) ∧
        ∀ initrdIpa dtbIpa, ¬ Placement files initrdIpa dtbIpa) ∨
      ∃ initrdIpa dtbIpa, calculateLayout files = (layoutAt files initrdIpa dtbIpa, true) ∧
        IsBest files initrdIpa dtbIpa := by
  have hramEnd : ramEnd < 2 ^ 64 := by decide
  by_cases hend : kernelLoadIpa + files.kernel.toNat < 2 ^ 64
  swap
  · -- the kernel alone leaves the address space
    refine .inl ⟨?_, fun i d h => ?_⟩
    · rw [calculateLayout, if_neg (by simp [hkernel, hdtb]), if_pos (Nat.le_of_not_lt hend)]
    · have hle := h.kernel_end
      by_cases hzero : files.initrd = 0
      · have hd := (h.absent hzero).2
        omega
      · have hd := h.dtb_end hzero
        have hi := h.initrd_end hzero
        omega
  rcases placeInitrd_cases files.initrd.toNat (kernelLoadIpa + files.kernel.toNat) hramEnd with
    ⟨hplace, hne, hno⟩ | ⟨hzero, hplace⟩ | ⟨hne, i, hplace, hgreatest⟩
  · have hinitrd : files.initrd ≠ 0 := fun h => hne (by rw [h]; rfl)
    refine .inl ⟨?_, fun i d h => ?_⟩
    · rw [calculateLayout, if_neg (by simp [hkernel, hdtb]), if_neg (Nat.not_le.mpr hend)]
      rw [ramEnd] at hplace
      simp only [hplace]
    · have hlow := hno i (h.initrd_aligned hinitrd) (h.initrd_end hinitrd)
      have hd := h.dtb_end hinitrd
      have hle := h.kernel_end
      omega
  · have hinitrd : files.initrd = 0 := UInt64.toNat_inj.mp hzero
    rcases calculateLayout_of_placeInitrd hkernel hdtb hend hramEnd hplace with
      ⟨hfail, hno⟩ | ⟨d, hok, hhigh, hgreatest⟩
    · refine .inl ⟨hfail, fun i d h => ?_⟩
      have hlow := hno d h.dtb_aligned (h.absent hinitrd).2
      exact absurd h.kernel_end (Nat.not_le.mpr hlow)
    · refine .inr ⟨0, d, hok, ⟨hgreatest.1.1, hhigh, fun _ => ⟨rfl, hgreatest.1.2⟩,
        absurd hinitrd, absurd hinitrd, absurd hinitrd⟩, fun i d h => ?_, fun d h => ?_⟩
      · exact (h.absent hinitrd).1.le
      · exact hgreatest.2 ⟨h.dtb_aligned, (h.absent hinitrd).2⟩
  · have hinitrd : files.initrd ≠ 0 := fun h => hne (by rw [h]; rfl)
    have hbest : ∀ j d, Placement files j d → j ≤ i := fun j d h =>
      hgreatest.2 ⟨h.initrd_aligned hinitrd, h.initrd_end hinitrd⟩
    have hi : i + files.initrd.toNat ≤ ramEnd := hgreatest.1.2
    rcases calculateLayout_of_placeInitrd hkernel hdtb hend (by omega) hplace with
      ⟨hfail, hno⟩ | ⟨d, hok, hhigh, hgreatest'⟩
    · -- a placement below a lower disk would be one below the highest
      refine .inl ⟨hfail, fun j d h => ?_⟩
      have hlow := hno d h.dtb_aligned ((h.dtb_end hinitrd).trans (hbest j d h))
      exact absurd h.kernel_end (Nat.not_le.mpr hlow)
    · refine .inr ⟨i, d, hok, ⟨hgreatest'.1.1, hhigh, fun h => absurd h hinitrd,
        fun _ => hgreatest.1.1, fun _ => hgreatest'.1.2, fun _ => hi⟩, hbest, fun d h => ?_⟩
      exact hgreatest'.2 ⟨h.dtb_aligned, h.dtb_end hinitrd⟩

/-- `CalculateLayout` succeeds exactly when the kernel and the tree are not empty and there is a
placement; its addresses are then the greatest, the initial RAM disk first, and all files lie in
guest RAM.  A failure leaves a layout of zeros. -/
theorem calculateLayout_best (files : GuestFileSizes) :
    ((calculateLayout files).2 = true ↔
      files.kernel ≠ 0 ∧ files.dtb ≠ 0 ∧ ∃ initrdIpa dtbIpa, Placement files initrdIpa dtbIpa) ∧
    ((calculateLayout files).2 = true → ∃ initrdIpa dtbIpa,
      (calculateLayout files).1 = layoutAt files initrdIpa dtbIpa ∧
      IsGreatest {i | ∃ d, Placement files i d} initrdIpa ∧
      IsGreatest {d | Placement files initrdIpa d} dtbIpa ∧
      (layoutAt files initrdIpa dtbIpa).Ordered) ∧
    ((calculateLayout files).2 = false → (calculateLayout files).1 = {}) := by
  by_cases hempty : files.kernel = 0 ∨ files.dtb = 0
  · have hfail : calculateLayout files = ({}, false) := by rw [calculateLayout, if_pos hempty]
    rw [hfail]
    refine ⟨iff_of_false Bool.false_ne_true fun h => ?_, fun h => absurd h Bool.false_ne_true,
      fun _ => rfl⟩
    exact hempty.elim h.1 h.2.1
  obtain ⟨hkernel, hdtb⟩ := not_or.mp hempty
  rcases calculateLayout_cases hkernel hdtb with ⟨hfail, hno⟩ | ⟨i, d, hok, hbest⟩
  · rw [hfail]
    refine ⟨iff_of_false Bool.false_ne_true fun h => ?_, fun h => absurd h Bool.false_ne_true,
      fun _ => rfl⟩
    obtain ⟨i, d, h⟩ := h.2.2
    exact hno i d h
  · rw [hok]
    refine ⟨iff_of_true rfl ⟨hkernel, hdtb, i, d, hbest.placement⟩, fun _ => ⟨i, d, rfl, ?_, ?_,
      ordered_of_calculateLayout hok⟩, fun h => absurd h.symm Bool.false_ne_true⟩
    · exact ⟨⟨d, hbest.placement⟩, fun j ⟨d, h⟩ => hbest.initrd j d h⟩
    · exact ⟨hbest.placement, hbest.dtb⟩

end BootLoader

end HyperBerry
