import HyperBerry.Mmu.Isolation
import HyperBerry.Mmu.TablePages

/-!
# Where the guest MMU writes

The constructor of `GuestMmu` and the calls after it write to the two root pages and to the pages
that `AllocTable` has handed out on the way, and nowhere else (`guestMmu_writes`).
-/

namespace HyperBerry

namespace GuestMmu

open DeviceTree (RamRange RootPages guestPages guestPages_rootPages)

variable {st st₁ st' : Tables} {root : ℕ} {calls : List MapCall} {ipaBase hostPaBase sizeBytes : ℕ}
  {devices : MmioMap}

/-- The calls of the constructor map blocks to blocks. -/
lemma aligned_construct_calls (hram : RamRange ipaBase hostPaBase sizeBytes) (devices : MmioMap) :
    ∀ c ∈ ramCalls ipaBase hostPaBase sizeBytes ++ devices.windows.flatMap windowCalls,
      c.Aligned := by
  intro c hc
  rcases List.mem_append.mp hc with hc | hc
  · obtain ⟨i, -, rfl⟩ := List.mem_map.mp hc
    have hsize : size2MB ∣ 2 ^ 64 := ⟨2 ^ 43, by norm_num [size2MB]⟩
    exact (Nat.dvd_mod_iff hsize).mpr (dvd_add hram.host_dvd (dvd_mul_left _ _))
  · obtain ⟨window, -, hc⟩ := List.mem_flatMap.mp hc
    obtain ⟨i, -, rfl⟩ := List.mem_map.mp hc
    trivial

/-- The constructor has an address for its root. -/
lemma root_ne_zero_of_construct (h : construct root ipaBase hostPaBase sizeBytes devices st =
    some st') : root ≠ 0 := by
  rintro rfl
  simp [construct, allocStage2RootTable] at h

/-- The constructor, and calls after it, as one sequence of calls. -/
lemma construct_runCalls (hram : RamRange ipaBase hostPaBase sizeBytes)
    (hwindows : ∀ window ∈ devices.windows, PageWindow window)
    (hbuild : construct root ipaBase hostPaBase sizeBytes devices st = some st₁)
    (hrun : runCalls root calls st₁ = some st') :
    runCalls root ((ramCalls ipaBase hostPaBase sizeBytes ++ devices.windows.flatMap windowCalls) ++
      calls) (st.clear root kStage2RootSize) = some st' := by
  rw [construct_eq st (root_ne_zero_of_construct hbuild) hram.size_dvd
    ((Nat.le_add_left _ _).trans hram.ipa_le) hwindows] at hbuild
  rw [runCalls, List.foldlM_append]
  exact Option.bind_eq_some_iff.mpr ⟨st₁, hbuild, hrun⟩

/-- The constructor and the calls after it keep the tables wired. -/
lemma wired_construct (hroot : RootPages root st)
    (hbuild : construct root ipaBase hostPaBase sizeBytes devices st = some st₁)
    (hrun : runCalls root calls st₁ = some st') :
    ∃ level, Wired root (st.clear root kStage2RootSize) st' level := by
  refine preserves_wired_runCalls root _ calls ?_ hrun
  exact preserves_construct (preserves_wired_mapBlock root _) (preserves_wired_mapPage root _)
    ⟨_, hroot.freshRoot.wired⟩ hbuild

/-- The constructor of `GuestMmu` and any calls of `MapBlock` and `MapPage` after it write to the
two pages of the root and to the pages that `AllocTable` has handed out meanwhile: everything else
in memory is as it was before, also the pages that are still in supply.  Nothing is assumed about
what is mapped. -/
theorem guestMmu_writes (hroot : RootPages root st)
    (hbuild : construct root ipaBase hostPaBase sizeBytes devices st = some st₁)
    (hrun : runCalls root calls st₁ = some st') :
    st'.supply <:+ st.supply ∧ (∀ a ∉ pageBytes (tablePages root st st'), st'.mem a = st.mem a) ∧
      ∀ p ∈ st'.supply, ∀ i < pageSize, st'.mem (p + i) = st.mem (p + i) := by
  obtain ⟨level, hwired⟩ := wired_construct hroot hbuild hrun
  have hframe : ∀ a ∉ pageBytes (tablePages root st st'), st'.mem a = st.mem a := by
    intro a ha
    rw [hwired.frame a ha]
    refine if_neg fun hin => ha ?_
    by_cases hlow : a < root + pageSize
    · exact ⟨root, .inl rfl, hin.1, hlow⟩
    · refine ⟨root + pageSize, .inr (.inl rfl), not_lt.mp hlow, ?_⟩
      have hlt := hin.2
      unfold kStage2RootSize at hlt
      omega
  refine ⟨hwired.suffix, hframe, fun p hp i hi => hframe _ ?_⟩
  -- a page in supply shares no byte with another page
  rintro ⟨q, hq, hle, hlt⟩
  obtain ⟨hpage, hne, hne'⟩ := hroot.page p (hwired.suffix.subset hp)
  have hdvd : pageSize ∣ q := by
    rcases hq with rfl | rfl | ⟨hmem, -⟩
    · exact hroot.root_dvd
    · exact dvd_add hroot.root_dvd dvd_rfl
    · exact (hroot.page q hmem).1.dvd
  have hqp : q = p := by
    obtain ⟨x, rfl⟩ := hpage.dvd
    obtain ⟨y, rfl⟩ := hdvd
    unfold pageSize at *
    omega
  subst hqp
  rcases hq with hq | hq | ⟨-, hnot⟩
  · exact hne hq
  · exact hne' hq
  · exact hnot hp

/-- A guest with 3 MiB of RAM, which is no multiple of 2 MiB, at a host address that is none either,
and a device page behind it. -/
theorem guestMmu_writes_small :
    ∃ st₁ st', construct 0x10000 0x40000000 0x80001000 0x300000 {} guestPages = some st₁ ∧
      runCalls 0x10000 [.page 0x40001000 0x9000000 true] st₁ = some st' ∧
      ∀ a ∉ pageBytes (tablePages 0x10000 guestPages st'), st'.mem a = 0 := by
  have hsome : ((construct 0x10000 0x40000000 0x80001000 0x300000 {} guestPages).bind
      (runCalls 0x10000 [.page 0x40001000 0x9000000 true])).isSome = true := by
    decide +kernel
  obtain ⟨st', hst'⟩ := Option.isSome_iff_exists.mp hsome
  obtain ⟨st₁, hbuild, hrun⟩ := Option.bind_eq_some_iff.mp hst'
  exact ⟨st₁, st', hbuild, hrun, (guestMmu_writes guestPages_rootPages hbuild hrun).2.1⟩

end GuestMmu

end HyperBerry
