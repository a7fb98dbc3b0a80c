import HyperBerry.BootLoader.Load
import HyperBerry.BootLoader.PatchEffect
import HyperBerry.Cpio.Find

/-!
# The steps of `Load`

What a copy does to memory, what the reader of the guest files returns, and which steps a call of
`Load` has taken when it returns.  All copies and the patch stay inside guest RAM (`fillRam_frame`).
-/

namespace HyperBerry

open Memory DeviceTree

/-! ## Copies -/

section Copy

variable {m m' : Memory} {dest src n a : ℕ} {xs : List UInt8}

/-- One step of a copy. -/
lemma memcpy_succ (h : memcpy m dest src (n + 1) = .ok m') :
    ∃ x, m src = some x ∧ (m dest).isSome ∧
      memcpy (m.store dest [x]) (add64 dest 1) (add64 src 1) n = .ok m' := by
  rw [memcpy] at h
  obtain ⟨x, hx, h⟩ := bind_eq_ok.mp h
  split at h
  case isTrue => cases h
  case isFalse hdest =>
    exact ⟨x, load8_eq_ok.mp hx, by simpa [Option.isSome_iff_ne_none] using hdest, h⟩

/-- A copy changes nothing outside of its destination. -/
lemma memcpy_frame (h : memcpy m dest src n = .ok m') (hdest : dest + n ≤ 2 ^ 64)
    (ha : ¬ (dest ≤ a ∧ a < dest + n)) : m' a = m a := by
  induction n generalizing m dest src with
  | zero =>
    cases h
    rfl
  | succ n ih =>
    obtain ⟨x, -, -, h⟩ := memcpy_succ h
    have hstore : m.store dest [x] a = m a := store_of_not_mem (by
      rw [List.length_singleton]
      omega)
    -- behind the last byte the address may be the first one again
    cases n with
    | zero =>
      cases h
      exact hstore
    | succ n =>
      rw [add64_of_lt (show dest + 1 < 2 ^ 64 by omega)] at h
      exact (ih h (by omega) (by omega)).trans hstore

/-- A copy keeps the bytes that can be read. -/
lemma memcpy_isSome (h : memcpy m dest src n = .ok m') (ha : (m a).isSome) : (m' a).isSome := by
  induction n generalizing m dest src with
  | zero =>
    cases h
    exact ha
  | succ n ih =>
    obtain ⟨x, -, -, h⟩ := memcpy_succ h
    exact ih h (isSome_store ha)

/-- A copy of bytes that it does not overwrite. -/
lemma memcpy_eq_store (h : memcpy m dest src xs.length = .ok m') (hsrc : m.HasBytes src xs)
    (hdest : dest + xs.length ≤ 2 ^ 64) (hend : src + xs.length ≤ 2 ^ 64)
    (hdisjoint : src + xs.length ≤ dest ∨ dest + xs.length ≤ src) : m' = m.store dest xs := by
  induction xs generalizing m dest src with
  | nil =>
    cases h
    exact (HasBytes.store_eq hasBytes_nil).symm
  | cons x xs ih =>
    rw [List.length_cons] at h hdest hend hdisjoint
    obtain ⟨hx, hxs⟩ := hasBytes_cons.mp hsrc
    obtain ⟨y, hy, -, h⟩ := memcpy_succ h
    obtain rfl : x = y := Option.some.inj (hx.symm.trans hy)
    have hsplit : m.store dest ([x] ++ xs) = (m.store dest [x]).store (dest + 1) xs := store_append
    rw [List.singleton_append] at hsplit
    rw [hsplit]
    cases xs with
    | nil =>
      cases h
      exact (HasBytes.store_eq hasBytes_nil).symm
    | cons z xs =>
      rw [List.length_cons] at hdest hend hdisjoint
      rw [add64_of_lt (show dest + 1 < 2 ^ 64 by omega),
        add64_of_lt (show src + 1 < 2 ^ 64 by omega)] at h
      refine ih h (hxs.congr (agreeOn_store ?_)) ?_ ?_ ?_
      all_goals simp only [List.length_cons, List.length_nil]; omega

/-- A copy of bytes that can be read, to bytes that can be written, returns. -/
lemma memcpy_returns (hsrc : ∀ i < n, (m (src + i)).isSome) (hdest : ∀ i < n, (m (dest + i)).isSome)
    (hsrcEnd : src + n ≤ 2 ^ 64) (hdestEnd : dest + n ≤ 2 ^ 64) :
    ∃ m', memcpy m dest src n = .ok m' := by
  induction n generalizing m dest src with
  | zero => exact ⟨m, rfl⟩
  | succ n ih =>
    obtain ⟨x, hx⟩ := Option.isSome_iff_exists.mp (hsrc 0 (Nat.succ_pos n))
    have hd := hdest 0 (Nat.succ_pos n)
    rw [Nat.add_zero] at hx hd
    rw [memcpy, load8_eq_ok.mpr hx, ok_bind, if_neg (by simpa [Option.isSome_iff_ne_none] using hd)]
    cases n with
    | zero => exact ⟨_, rfl⟩
    | succ n =>
      rw [add64_of_lt (show dest + 1 < 2 ^ 64 by omega),
        add64_of_lt (show src + 1 < 2 ^ 64 by omega)]
      refine ih (fun i hi => ?_) (fun i hi => ?_) (by omega) (by omega)
      · rw [Nat.add_assoc, Nat.add_comm 1 i]
        exact isSome_store (hsrc (i + 1) (Nat.succ_lt_succ hi))
      · rw [Nat.add_assoc, Nat.add_comm 1 i]
        exact isSome_store (hdest (i + 1) (Nat.succ_lt_succ hi))

end Copy

/-! ## Sizes of files -/

namespace Cpio

variable {m : Memory} {data size cursor a : ℕ}

/-- A field that is read is a 32-bit word. -/
lemma readField_lt {n value v : ℕ} (h : readField m a n value = .ok (some v))
    (hvalue : value < 2 ^ 32) : v < 2 ^ 32 := by
  induction n generalizing a value with
  | zero =>
    cases h
    exact hvalue
  | succ n ih =>
    rw [readField] at h
    obtain ⟨c, -, h⟩ := bind_eq_ok.mp h
    split at h
    · cases h
    · exact ih h (Nat.mod_lt _ (by norm_num))

/-- Fields that are read are 32-bit words. -/
lemma readFields_lt {n : ℕ} {fields : List ℕ} (h : readFields m a n = .ok (some fields)) (i : ℕ) :
    fields.getD i 0 < 2 ^ 32 := by
  induction n generalizing a fields i with
  | zero =>
    cases h
    rw [List.getD_nil]
    norm_num
  | succ n ih =>
    rw [readFields] at h
    obtain ⟨field, hfield, h⟩ := bind_eq_ok.mp h
    cases field with
    | none => cases h
    | some value =>
      obtain ⟨rest, hrest, h⟩ := bind_eq_ok.mp h
      cases rest with
      | none => cases h
      | some rest =>
        cases h
        cases i with
        | zero => exact readField_lt hfield (by norm_num)
        | succ i => exact ih hrest i

/-- The end of `read` returns the entry it is given. -/
lemma readType_entry {fields : List ℕ} {entry : Entry} {r : Error × ℕ × Entry}
    (h : readType m fields cursor entry = .ok r) : r.2.2 = entry := by
  rw [readType] at h
  obtain ⟨isTrailer, -, h⟩ := bind_eq_ok.mp h
  split at h
  · cases h
    rfl
  split at h
  · cases h
    rfl
  split at h
  · cases h
    rfl
  · obtain ⟨isDot, -, h⟩ := bind_eq_ok.mp h
    cases h
    rfl

/-- The size of a file that is read is a 32-bit word. -/
lemma readData_size_lt {fields : List ℕ} {name : ℕ} {r : Error × ℕ × Entry}
    (h : readData m data size fields name cursor = .ok r) (hfields : fields.getD 6 0 < 2 ^ 32) :
    r.2.2.file.size < 2 ^ 32 := by
  rw [readData] at h
  split at h
  · cases h
    norm_num
  simp only at h
  split at h
  · cases h
    norm_num
  split at h
  · cases h
    exact hfields
  · rw [readType_entry h]
    exact hfields

/-- The size of a file that is read is a 32-bit word. -/
lemma readName_size_lt {fields : List ℕ} {r : Error × ℕ × Entry}
    (h : readName m data size fields cursor = .ok r) (hfields : fields.getD 6 0 < 2 ^ 32) :
    r.2.2.file.size < 2 ^ 32 := by
  rw [readName] at h
  simp only at h
  split at h
  · cases h
    norm_num
  obtain ⟨length, -, h⟩ := bind_eq_ok.mp h
  split at h
  · cases h
    norm_num
  obtain ⟨isClean, -, h⟩ := bind_eq_ok.mp h
  split at h
  · cases h
    norm_num
  obtain ⟨name, -, h⟩ := bind_eq_ok.mp h
  obtain ⟨isValid, -, h⟩ := bind_eq_ok.mp h
  split at h
  · cases h
    norm_num
  · exact readData_size_lt h hfields

/-- The size of a file that is read is a 32-bit word. -/
lemma read_size_lt {r : Error × ℕ × Entry} (h : read m data size cursor = .ok r) :
    r.2.2.file.size < 2 ^ 32 := by
  rw [read] at h
  split at h
  · cases h
    norm_num
  obtain ⟨isMagic, -, h⟩ := bind_eq_ok.mp h
  split at h
  · cases h
    norm_num
  obtain ⟨fields, hfields, h⟩ := bind_eq_ok.mp h
  cases fields with
  | none =>
    cases h
    norm_num
  | some fields =>
    simp only at h
    split at h
    · cases h
      norm_num
    · exact readName_size_lt h (readFields_lt hfields 6)

/-- The size of a file that is found is a 32-bit word, whatever the archive is. -/
lemma find_size_lt {archive : Archive} {path : ℕ} {r : Bool × File}
    (h : archive.find m path = .ok r) : r.2.size < 2 ^ 32 := by
  have hloop : ∀ (fuel path cursor : ℕ), archive.findFrom m path fuel cursor = .ok r →
      r.2.size < 2 ^ 32 := by
    intro fuel
    induction fuel with
    | zero => exact fun path cursor h => absurd h (by simp [Archive.findFrom])
    | succ fuel ih =>
      intro path cursor h
      rw [Archive.findFrom] at h
      obtain ⟨⟨isEntry, cursor', entry⟩, hnext, h⟩ := bind_eq_ok.mp h
      simp only at h
      split at h
      · cases h
        norm_num
      obtain ⟨isFound, -, h⟩ := bind_eq_ok.mp h
      split at h
      · cases h
        rw [Archive.next] at hnext
        split at hnext
        · cases hnext
          norm_num
        · obtain ⟨s, hread, hs⟩ := bind_eq_ok.mp hnext
          cases hs
          exact read_size_lt hread
      · exact ih path cursor' h
  rw [Archive.find] at h
  split at h
  · cases h
    norm_num
  · obtain ⟨path', -, h⟩ := bind_eq_ok.mp h
    exact hloop _ _ _ h

end Cpio

namespace BootLoader

open Cpio (Archive File)

variable {m m' m₀ : Memory} {pmm : Pmm} {archive : Archive} {paths : PathLiterals}
  {files : GuestFiles} {layout : GuestLayout} {r : Loaded} {ipa a : ℕ} {file : File}

/-! ## Guest RAM -/

/-- The bytes of guest RAM. -/
def GuestLayout.ramBytes (layout : GuestLayout) : Set ℕ :=
  Set.Ico layout.ramHostPa (layout.ramHostPa + guestRamSize)

/-- Guest RAM is one block of the largest order. -/
lemma guestRamOrder_eq : guestRamOrder = maxOrder := by decide

/-- A block of the largest order has the size of guest RAM. -/
lemma pageSize_shiftLeft_maxOrder : pageSize <<< maxOrder = guestRamSize := by decide

/-- The files fit into the layout, and guest RAM into the address space. -/
structure GuestLayout.Fits (layout : GuestLayout) (files : GuestFiles) : Prop where
  ordered : layout.Ordered
  kernel : files.kernel.size = layout.kernelSize
  dtb : files.dtb.size = layout.dtbSize
  initrd : files.initrd.size = layout.initrdSize
  ram : layout.ramHostPa + guestRamSize ≤ 2 ^ 64

/-- The host address of a file in guest RAM. -/
lemma ipaToHostPa_eq {size : ℕ} (hram : layout.ramHostPa + guestRamSize ≤ 2 ^ 64)
    (hlo : guestIpaBase ≤ ipa) (hhi : ipa + size ≤ guestIpaBase + guestRamSize) (hpos : 0 < size) :
    layout.ipaToHostPa ipa = layout.ramHostPa + (ipa - guestIpaBase) := by
  unfold guestIpaBase guestRamSize at *
  rw [GuestLayout.ipaToHostPa, guestIpaBase, sub64_of_le hlo (by omega), add64_of_lt (by omega)]

/-- Where the three files lie in host memory. -/
lemma GuestLayout.Fits.hostPa (h : layout.Fits files) :
    layout.ipaToHostPa layout.kernelIpa = layout.ramHostPa + (layout.kernelIpa - guestIpaBase) ∧
    layout.ipaToHostPa layout.dtbIpa = layout.ramHostPa + (layout.dtbIpa - guestIpaBase) ∧
    (layout.initrdSize ≠ 0 →
      layout.ipaToHostPa layout.initrdIpa =
        layout.ramHostPa + (layout.initrdIpa - guestIpaBase)) := by
  obtain ⟨hkpos, hdpos, hkernel, hdtb, hdend, hinitrd, hiend⟩ := h.ordered
  refine ⟨ipaToHostPa_eq h.ram hkernel (hdtb.trans (by omega)) hkpos,
    ipaToHostPa_eq h.ram (by omega) hdend hdpos, fun hne => ?_⟩
  have := hinitrd hne
  exact ipaToHostPa_eq h.ram (by omega) hiend (Nat.pos_of_ne_zero hne)

/-- The stretches of host memory of the three files, in guest RAM and one behind the other. -/
structure GuestLayout.Stretches (layout : GuestLayout) (kernel dtb initrd : ℕ) : Prop where
  ge : layout.ramHostPa ≤ kernel
  kernel_le : kernel + layout.kernelSize ≤ dtb
  dtb_le : dtb + layout.dtbSize ≤ layout.ramHostPa + guestRamSize
  dtb_le_initrd : layout.initrdSize ≠ 0 → dtb + layout.dtbSize ≤ initrd
  initrd_le : layout.initrdSize ≠ 0 → initrd + layout.initrdSize ≤ layout.ramHostPa + guestRamSize

/-- The stretches of a layout. -/
lemma GuestLayout.Fits.stretches (h : layout.Fits files) :
    layout.Stretches (layout.ipaToHostPa layout.kernelIpa) (layout.ipaToHostPa layout.dtbIpa)
      (layout.ipaToHostPa layout.initrdIpa) := by
  obtain ⟨hkpos, hdpos, hkernel, hdtb, hdend, hinitrd, hiend⟩ := h.ordered
  obtain ⟨hk, hd, hi⟩ := h.hostPa
  rw [hk, hd]
  refine ⟨Nat.le_add_right _ _, by omega, by omega, fun hne => ?_, fun hne => ?_⟩
  · have := hinitrd hne
    rw [hi hne]
    omega
  · have := hinitrd hne
    rw [hi hne]
    omega

/-! ## The patch -/

/-- The patch changes nothing outside of the tree. -/
lemma patchTree_frame {isPatched : Bool} (h : patchTree m layout = .ok (isPatched, m'))
    (ha : ¬ (layout.ipaToHostPa layout.dtbIpa ≤ a ∧
      a < layout.ipaToHostPa layout.dtbIpa + layout.dtbSize)) : m' a = m a := by
  obtain ⟨s, -, hs⟩ := bind_eq_ok.mp h
  cases hs
  exact if_neg ha

/-- A buffer that is put back is in its place. -/
lemma window_place {base size : ℕ} {buffer : Memory} (h : ∀ i, size ≤ i → buffer i = none) :
    window (place m base size buffer) base size = buffer := by
  funext i
  by_cases hi : i < size
  · rw [window, if_pos hi, place, if_pos ⟨Nat.le_add_right _ _, Nat.add_lt_add_left hi base⟩,
      Nat.add_sub_cancel_left]
  · rw [window, if_neg hi, h i (Nat.le_of_not_lt hi)]

/-- The buffer of bytes that lie in memory. -/
lemma window_eq {base : ℕ} {xs : List UInt8} (h : m.HasBytes base xs) :
    window m base xs.length = fun i => xs[i]? := by
  funext i
  by_cases hi : i < xs.length
  · rw [window, if_pos hi, h i hi]
  · rw [window, if_neg hi, List.getElem?_eq_none (Nat.le_of_not_lt hi)]

/-! ## Inversion -/

/-- What has happened when the files have been read. -/
lemma readFiles_eq_true (h : readFiles paths archive m = .ok (files, true)) :
    archive.error = .none ∧ archive.find m paths.image = .ok (true, files.kernel) ∧
      archive.find m paths.guestDtb = .ok (true, files.dtb) ∧
      ∃ found, archive.find m paths.initrd = .ok (found, files.initrd) ∧
        (found = true → files.initrd.size ≠ 0) := by
  rw [readFiles] at h
  split at h
  case isTrue => cases h
  case isFalse hnone =>
    obtain ⟨⟨isKernel, kernel⟩, hkernel, h⟩ := bind_eq_ok.mp h
    simp only at h
    split at h
    case isTrue => cases h
    case isFalse hk =>
      obtain ⟨⟨isDtb, dtb⟩, hdtb, h⟩ := bind_eq_ok.mp h
      simp only at h
      split at h
      case isTrue => cases h
      case isFalse hd =>
        obtain ⟨⟨found, initrd⟩, hinitrd, h⟩ := bind_eq_ok.mp h
        simp only [pure, Except.pure, Except.ok.injEq, Prod.mk.injEq] at h
        obtain ⟨rfl, hi⟩ := h
        simp only [Bool.or_eq_true, not_or, Bool.not_eq_true', Bool.not_eq_false] at hk hd
        rw [hk.1] at hkernel
        rw [hd.1] at hdtb
        refine ⟨by simpa using hnone, hkernel, hdtb, found, hinitrd, ?_⟩
        rintro rfl
        simpa using hi

/-- The steps of `fillRam`. -/
lemma fillRam_cases (h : fillRam files layout m₀ pmm = .ok r) :
    ∃ m₁ m₂ m₃, copyToGuest m₀ layout layout.kernelIpa files.kernel = .ok m₁ ∧
      copyToGuest m₁ layout layout.dtbIpa files.dtb = .ok m₂ ∧
      ((patchTree m₂ layout = .ok (false, m₃) ∧
          ∃ s, (pmm.overwrite m₀ m₃).freePages layout.ramHostPa guestRamOrder = some s ∧
            r = ⟨false, {}, m₃, s⟩) ∨
        (patchTree m₂ layout = .ok (true, m₃) ∧ ∃ m₄, r = ⟨true, layout, m₄, pmm.overwrite m₀ m₄⟩ ∧
          (files.initrd.size = 0 → m₄ = m₃) ∧
          (files.initrd.size ≠ 0 →
            copyToGuest m₃ layout layout.initrdIpa files.initrd = .ok m₄))) := by
  rw [fillRam] at h
  obtain ⟨m₁, hkernel, h⟩ := bind_eq_ok.mp h
  obtain ⟨m₂, hdtb, h⟩ := bind_eq_ok.mp h
  obtain ⟨⟨isPatched, m₃⟩, hpatch, h⟩ := bind_eq_ok.mp h
  refine ⟨m₁, m₂, m₃, hkernel, hdtb, ?_⟩
  cases isPatched with
  | false =>
    left
    refine ⟨hpatch, ?_⟩
    rw [if_pos (by rfl), releaseRam] at h
    split at h
    case h_1 => cases h
    case h_2 s hfree =>
      cases h
      exact ⟨s, hfree, rfl⟩
  | true =>
    right
    refine ⟨hpatch, ?_⟩
    rw [if_neg (by simp), keepRam] at h
    split at h
    case isTrue hne =>
      obtain ⟨m₄, hinitrd, h⟩ := bind_eq_ok.mp h
      cases h
      exact ⟨m₄, rfl, fun hzero => absurd hzero hne, fun _ => hinitrd⟩
    case isFalse hzero =>
      cases h
      exact ⟨m₃, rfl, fun _ => rfl, fun hne => absurd hne hzero⟩

/-- The steps of `Load`. -/
lemma load_cases (h : load paths archive m pmm = .ok r) :
    r = ⟨false, {}, m, pmm⟩ ∨ (∃ s, pmm.allocPages guestRamOrder = some (s, 0) ∧
    r = ⟨false, {}, m, s⟩) ∨
    ∃ files layout s ramHostPa, readFiles paths archive m = .ok (files, true) ∧
      calculateLayout files.sizes = (layout, true) ∧
      pmm.allocPages guestRamOrder = some (s, ramHostPa) ∧ ramHostPa ≠ 0 ∧
      fillRam files { layout with ramHostPa := ramHostPa } m s = .ok r := by
  rw [load] at h
  obtain ⟨⟨files, isRead⟩, hread, h⟩ := bind_eq_ok.mp h
  cases isRead with
  | false =>
    cases h
    exact .inl rfl
  | true =>
    rw [if_neg (by simp)] at h
    rcases hlayout : calculateLayout files.sizes with ⟨layout, isPlaced⟩
    simp only [hlayout] at h
    cases isPlaced with
    | false =>
      cases h
      exact .inl rfl
    | true =>
      rw [if_neg (by simp)] at h
      right
      split at h
      case h_1 => cases h
      case h_2 s ramHostPa halloc =>
        split at h
        case isTrue hzero =>
          cases h
          rw [hzero] at halloc
          exact .inl ⟨s, halloc, rfl⟩
        case isFalse hne => exact .inr ⟨files, layout, s, ramHostPa, hread, hlayout, halloc, hne, h⟩

/-- The files that have been read fit into their layout. -/
lemma fits_of_calculateLayout {ramHostPa : ℕ}
    (hread : readFiles paths archive m = .ok (files, true))
    (hlayout : calculateLayout files.sizes = (layout, true))
    (hram : ramHostPa + guestRamSize ≤ 2 ^ 64) :
    ({ layout with ramHostPa := ramHostPa } : GuestLayout).Fits files := by
  obtain ⟨-, hkernel, hdtb, found, hinitrd, -⟩ := readFiles_eq_true hread
  obtain ⟨h₁, h₂, h₃, h₄, h₅, h₆, h₇⟩ := ordered_of_calculateLayout hlayout
  have hsize : ∀ {path found file}, archive.find m path = .ok (found, file) →
      (UInt64.ofNat file.size).toNat = file.size := fun hfind =>
    UInt64.toNat_ofNat_of_lt' ((Cpio.find_size_lt hfind).trans (by norm_num))
  obtain ⟨-, -, initrdIpa, top, dtbIpa, -, -, -, rfl⟩ := calculateLayout_eq_true hlayout
  exact ⟨⟨h₁, h₂, h₃, h₄, h₅, h₆, h₇⟩, (hsize hkernel).symm, (hsize hdtb).symm,
    (hsize hinitrd).symm, hram⟩

/-- The copies of the kernel and the tree and the patch change nothing outside of guest RAM. -/
lemma patchTree_frame_ram {m₁ m₂ m₃ : Memory} {isPatched : Bool} (hfits : layout.Fits files)
    (hcopy₁ : copyToGuest m₀ layout layout.kernelIpa files.kernel = .ok m₁)
    (hcopy₂ : copyToGuest m₁ layout layout.dtbIpa files.dtb = .ok m₂)
    (hpatch : patchTree m₂ layout = .ok (isPatched, m₃)) (ha : a ∉ layout.ramBytes) :
    m₃ a = m₀ a := by
  obtain ⟨hge, hkernel, hdtb, -, -⟩ := hfits.stretches
  have hram := hfits.ram
  have hk := hfits.kernel
  have hd := hfits.dtb
  have hout : ∀ lo hi, layout.ramHostPa ≤ lo → hi ≤ layout.ramHostPa + guestRamSize →
      ¬ (lo ≤ a ∧ a < hi) := fun lo hi hlo hhi hin => ha ⟨hlo.trans hin.1, hin.2.trans_le hhi⟩
  calc m₃ a = m₂ a := patchTree_frame hpatch (hout _ _ (by omega) hdtb)
    _ = m₁ a := memcpy_frame hcopy₂ (by omega) (hout _ _ (by omega) (by omega))
    _ = m₀ a := memcpy_frame hcopy₁ (by omega) (hout _ _ hge (by omega))

/-- Nothing outside of guest RAM changes. -/
lemma fillRam_frame (hfits : layout.Fits files) (h : fillRam files layout m₀ pmm = .ok r)
    (ha : a ∉ layout.ramBytes) : r.mem a = m₀ a := by
  obtain ⟨m₁, m₂, m₃, hcopy₁, hcopy₂, hrest⟩ := fillRam_cases h
  rcases hrest with ⟨hpatch, s, -, rfl⟩ | ⟨hpatch, m₄, rfl, hnone, hsome⟩
  · exact patchTree_frame_ram hfits hcopy₁ hcopy₂ hpatch ha
  · have h₃ := patchTree_frame_ram hfits hcopy₁ hcopy₂ hpatch ha
    by_cases hzero : files.initrd.size = 0
    · rw [hnone hzero]
      exact h₃
    · have hpos : layout.initrdSize ≠ 0 := hfits.initrd ▸ hzero
      have hge := hfits.stretches.dtb_le_initrd hpos
      have hle := hfits.stretches.initrd_le hpos
      have hdtb := hfits.stretches.kernel_le
      have hkernel := hfits.stretches.ge
      have hram := hfits.ram
      have h₄ : m₄ a = m₃ a := memcpy_frame (hsome hzero) (by rw [hfits.initrd]; omega) fun hin =>
        ha ⟨by omega, hin.2.trans_le (by rw [hfits.initrd]; exact hle)⟩
      exact h₄.trans h₃

end BootLoader

end HyperBerry
