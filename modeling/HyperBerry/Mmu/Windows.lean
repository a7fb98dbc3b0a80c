import HyperBerry.Mmu.MmioMap

/-!
# The set of device windows

An `MmioMap` is filled by calls of `AddBlocks` and `AddPages` in any order.  A run of calls keeps
the calls that returned true; the windows of the map are the windows of those calls, each once, and
the addresses that the map covers are those of their ranges, widened to whole granules.
-/

namespace HyperBerry

/-- The granule in which a window is mapped. -/
def MmioWindow.granule (window : MmioWindow) : ℕ := if window.byPage then size4KB else size2MB

namespace MmioMap

/-! ## Calls -/

/-- A call that adds a window. -/
inductive Request
  /-- `AddBlocks`. -/
  | blocks (base size : ℕ)
  /-- `AddPages`. -/
  | pages (ipa pa size : ℕ)
deriving DecidableEq

namespace Request

/-- The start of the requested range. -/
def base : Request → ℕ
  | .blocks base _ => base
  | .pages ipa _ _ => ipa

/-- The size of the requested range. -/
def size : Request → ℕ
  | .blocks _ size => size
  | .pages _ _ size => size

/-- The exponent of the granule of the call. -/
def shift : Request → ℕ
  | .blocks _ _ => 21
  | .pages _ _ _ => 12

/-- The window that the call asks for. -/
def window : Request → MmioWindow
  | .blocks base size =>
    let start := alignDown base size2MB
    ⟨start, start, sub64 (alignUp base size size2MB) start, false⟩
  | .pages ipa pa size => pageWindow ipa pa size

/-- The call on a map. -/
def apply (map : MmioMap) : Request → MmioMap × Bool
  | .blocks base size => map.addBlocks base size
  | .pages ipa pa size => map.addPages ipa pa size

/-- The requested range ends at least 2 MiB below the end of the address space. -/
def InBounds (req : Request) : Prop := req.base + req.size + size2MB ≤ 2 ^ 64

/-- The address lies in the requested range, widened to whole granules. -/
def Widens (req : Request) (addr : ℕ) : Prop :=
  req.base / 2 ^ req.shift * 2 ^ req.shift ≤ addr ∧
    addr < (req.base + req.size + (2 ^ req.shift - 1)) / 2 ^ req.shift * 2 ^ req.shift

instance : DecidablePred InBounds := fun _ => inferInstanceAs (Decidable (_ ≤ _))

instance (req : Request) : DecidablePred req.Widens :=
  fun _ => inferInstanceAs (Decidable (_ ∧ _))

variable {req : Request}

/-- A call adds its window. -/
lemma apply_eq (map : MmioMap) : req.apply map = map.add req.window := by
  cases req <;> rfl

/-- The granule of a call is at most 2 MiB. -/
lemma two_pow_shift_le (req : Request) : 2 ^ req.shift ≤ size2MB := by
  cases req with
  | blocks base size => exact le_rfl
  | pages ipa pa size => exact (by decide : 2 ^ 12 ≤ size2MB)

/-- The granule of the window is that of the call. -/
lemma granule_window (req : Request) : req.window.granule = 2 ^ req.shift := by
  cases req <;> rfl

/-- The window of a call starts at the start of its range, rounded down, and ends at its end,
rounded up. -/
lemma InBounds.window_eq (h : req.InBounds) :
    req.window.base = req.base / 2 ^ req.shift * 2 ^ req.shift ∧
      req.window.base + req.window.size =
        (req.base + req.size + (2 ^ req.shift - 1)) / 2 ^ req.shift * 2 ^ req.shift ∧
      req.window.base + req.window.size < 2 ^ 64 := by
  have hgranule := req.two_pow_shift_le
  have hpos := Nat.two_pow_pos req.shift
  have hbound : req.base + req.size + size2MB ≤ 2 ^ 64 := h
  have hsize : 0 < size2MB := by decide
  have hshift : req.shift ≤ 64 := by
    cases req with
    | blocks base size => exact (by decide : 21 ≤ 64)
    | pages ipa pa size => exact (by decide : 12 ≤ 64)
  have hdown : alignDown req.base (2 ^ req.shift) = req.base / 2 ^ req.shift * 2 ^ req.shift :=
    alignDown_two_pow (by omega) hshift
  have hup : alignUp req.base req.size (2 ^ req.shift) =
      (req.base + req.size + (2 ^ req.shift - 1)) / 2 ^ req.shift * 2 ^ req.shift :=
    alignUp_two_pow hshift (by omega)
  have hbase : req.window.base = alignDown req.base (2 ^ req.shift) := by cases req <;> rfl
  have hwidth : req.window.size =
      sub64 (alignUp req.base req.size (2 ^ req.shift)) (alignDown req.base (2 ^ req.shift)) := by
    cases req <;> rfl
  have hle : req.base / 2 ^ req.shift * 2 ^ req.shift ≤
      (req.base + req.size + (2 ^ req.shift - 1)) / 2 ^ req.shift * 2 ^ req.shift :=
    Nat.mul_le_mul_right _ (Nat.div_le_div_right (by omega))
  have hend := Nat.div_mul_le_self (req.base + req.size + (2 ^ req.shift - 1)) (2 ^ req.shift)
  rw [hbase, hwidth, hdown, hup, sub64_of_le hle (by omega)]
  exact ⟨rfl, by omega, by omega⟩

/-- The base and the size of the window of a call are whole granules. -/
lemma InBounds.granule_dvd (h : req.InBounds) :
    req.window.granule ∣ req.window.base ∧ req.window.granule ∣ req.window.size := by
  obtain ⟨hbase, hend, -⟩ := h.window_eq
  have hdvd : 2 ^ req.shift ∣ req.window.base := hbase ▸ Nat.dvd_mul_left _ _
  have hdvd' : 2 ^ req.shift ∣ req.window.base + req.window.size := hend ▸ Nat.dvd_mul_left _ _
  rw [granule_window]
  exact ⟨hdvd, (Nat.dvd_add_right hdvd).mp hdvd'⟩

/-- The window of a call covers its widened range. -/
lemma InBounds.mem_window_iff (h : req.InBounds) (addr : ℕ) :
    (addr ≥ req.window.base ∧ addr < add64 req.window.base req.window.size) ↔ req.Widens addr := by
  obtain ⟨hbase, hend, hlt⟩ := h.window_eq
  rw [add64_of_lt hlt, hend, hbase]
  rfl

end Request

/-! ## Runs -/

variable {map : MmioMap} {done : List Request} {req : Request}

/-- One call, with the calls that have returned true. -/
def step (s : MmioMap × List Request) (req : Request) : MmioMap × List Request :=
  let r := req.apply s.1
  (r.1, if r.2 then s.2 ++ [req] else s.2)

/-- A run of calls on the empty map: the map, and the calls that returned true. -/
def run (calls : List Request) : MmioMap × List Request := calls.foldl step ({}, [])

/-- What one add can do. -/
lemma add_cases (map : MmioMap) (want : MmioWindow) :
    (want ∈ map.windows ∧ map.add want = (map, true)) ∨
      (want ∉ map.windows ∧ map.windows.length = mmioMaxWindows ∧ map.add want = (map, false)) ∨
      want ∉ map.windows ∧ map.windows.length ≠ mmioMaxWindows ∧
        map.add want = (⟨map.windows ++ [want]⟩, true) := by
  rw [add]
  by_cases hmem : want ∈ map.windows
  · exact .inl ⟨hmem, if_pos hmem⟩
  · rw [if_neg hmem]
    by_cases hfull : map.windows.length = mmioMaxWindows
    · exact .inr (.inl ⟨hmem, hfull, if_pos hfull⟩)
    · exact .inr (.inr ⟨hmem, hfull, if_neg hfull⟩)

/-- The windows of the map are those of the calls that returned true, each once, and there is room
for them. -/
structure IsSetOf (map : MmioMap) (done : List Request) : Prop where
  /-- The array is not overrun. -/
  length_le : map.windows.length ≤ mmioMaxWindows
  /-- No window is held twice. -/
  nodup : map.windows.Nodup
  /-- The windows are the requested ones. -/
  mem_iff : ∀ window, window ∈ map.windows ↔ ∃ req ∈ done, req.window = window

/-- A call keeps the windows a set of those requested. -/
lemma IsSetOf.step (h : IsSetOf map done) (req : Request) :
    IsSetOf (step (map, done) req).1 (step (map, done) req).2 := by
  have hnew (window : MmioWindow) :
      (∃ r ∈ done ++ [req], r.window = window) ↔ window ∈ map.windows ∨ window = req.window := by
    rw [h.mem_iff]
    simp only [List.mem_append, List.mem_singleton, or_and_right, exists_or, exists_eq_left]
    exact or_congr_right eq_comm
  rw [MmioMap.step, Request.apply_eq]
  rcases add_cases map req.window with ⟨hmem, hadd⟩ | ⟨-, -, hadd⟩ | ⟨hmem, hroom, hadd⟩
  · rw [hadd]
    refine ⟨h.length_le, h.nodup, fun window => ?_⟩
    rw [if_pos rfl, hnew]
    exact ⟨.inl, fun hor => hor.elim id fun heq => heq ▸ hmem⟩
  · rw [hadd]
    exact h
  · rw [hadd]
    refine ⟨?_, ?_, fun window => ?_⟩
    · have hle := h.length_le
      rw [List.length_append, List.length_singleton]
      omega
    · exact h.nodup.append (List.nodup_singleton _) (List.disjoint_singleton.mpr hmem)
    · rw [if_pos rfl, hnew, List.mem_append, List.mem_singleton]

/-- Every run keeps the windows a set of those requested, and the calls that returned true are among
the calls. -/
lemma isSetOf_run (calls : List Request) :
    IsSetOf (run calls).1 (run calls).2 ∧ ∀ req ∈ (run calls).2, req ∈ calls := by
  induction calls using List.reverseRecOn with
  | nil => exact ⟨⟨Nat.zero_le _, List.nodup_nil, by simp [run]⟩, by simp [run]⟩
  | append_singleton calls req ih =>
    obtain ⟨hset, hmem⟩ := ih
    rw [run, List.foldl_append, List.foldl_cons, List.foldl_nil, ← run]
    refine ⟨hset.step req, fun r hr => ?_⟩
    rw [MmioMap.step] at hr
    dsimp only at hr
    split at hr
    · rcases List.mem_append.mp hr with hr | hr
      · exact List.mem_append_left _ (hmem r hr)
      · exact List.mem_append_right _ hr
    · exact List.mem_append_left _ (hmem r hr)

/-- The map covers what its calls have widened. -/
lemma IsSetOf.covers_iff (h : IsSetOf map done) (hdone : ∀ req ∈ done, req.InBounds) (addr : ℕ) :
    map.covers addr = true ↔ ∃ req ∈ done, req.Widens addr := by
  rw [covers, List.any_eq_true]
  simp only [decide_eq_true_eq]
  constructor
  · rintro ⟨window, hwindow, hcovers⟩
    obtain ⟨req, hreq, rfl⟩ := (h.mem_iff window).mp hwindow
    exact ⟨req, hreq, ((hdone req hreq).mem_window_iff addr).mp hcovers⟩
  · rintro ⟨req, hreq, hwidens⟩
    exact ⟨req.window, (h.mem_iff _).mpr ⟨req, hreq, rfl⟩,
      ((hdone req hreq).mem_window_iff addr).mpr hwidens⟩

/-- After every run of calls whose ranges end at least 2 MiB below the end of the address space, the
map holds at most eight windows, no two of them the same, in whole granules; it covers exactly the
widened ranges of the calls that returned true; a call returns false only when eight windows are
held and its own is not one of them, and changes nothing then; and a call that has returned true
changes nothing when it is repeated. -/
theorem windows_of_run (calls : List Request) (hcalls : ∀ req ∈ calls, req.InBounds) :
    (run calls).1.windows.length ≤ mmioMaxWindows ∧ (run calls).1.windows.Nodup ∧
      (∀ window ∈ (run calls).1.windows,
        window.granule ∣ window.base ∧ window.granule ∣ window.size) ∧
      (∀ addr, (run calls).1.covers addr = true ↔ ∃ req ∈ (run calls).2, req.Widens addr) ∧
      (∀ req : Request, (req.apply (run calls).1).2 = false →
        (run calls).1.windows.length = mmioMaxWindows ∧ req.window ∉ (run calls).1.windows ∧
          (req.apply (run calls).1).1 = (run calls).1) ∧
      ∀ req ∈ (run calls).2, req.apply (run calls).1 = ((run calls).1, true) := by
  obtain ⟨hset, hmem⟩ := isSetOf_run calls
  have hdone : ∀ req ∈ (run calls).2, req.InBounds := fun req hreq => hcalls req (hmem req hreq)
  refine ⟨hset.length_le, hset.nodup, fun window hwindow => ?_, hset.covers_iff hdone,
    fun req hfalse => ?_, fun req hreq => ?_⟩
  · obtain ⟨req, hreq, rfl⟩ := (hset.mem_iff window).mp hwindow
    exact (hdone req hreq).granule_dvd
  · rw [Request.apply_eq] at hfalse ⊢
    rcases add_cases (run calls).1 req.window with ⟨-, hadd⟩ | ⟨hnot, hfull, hadd⟩ | ⟨-, -, hadd⟩
    · rw [hadd] at hfalse
      cases hfalse
    · exact ⟨hfull, hnot, by rw [hadd]⟩
    · rw [hadd] at hfalse
      cases hfalse
  · rw [Request.apply_eq, add, if_pos ((hset.mem_iff _).mpr ⟨req, hreq, rfl⟩)]

/-- Two regions in one block, and a page that is asked for twice. -/
theorem windows_of_run_devices :
    (run [.blocks 0x107D001000 0x200, .blocks 0x107D002000 0x200, .pages 0x1000 0x2000 8,
        .pages 0x1000 0x2000 8]).1.windows.length = 2 ∧
      (run [.blocks 0x107D001000 0x200, .blocks 0x107D002000 0x200, .pages 0x1000 0x2000 8,
        .pages 0x1000 0x2000 8]).1.covers 0x1fff = true := by
  refine ⟨by decide, ?_⟩
  refine ((windows_of_run _ ?_).2.2.2.1 0x1fff).mpr ?_
  · decide
  · decide

end MmioMap

end HyperBerry
