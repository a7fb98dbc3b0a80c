import HyperBerry.Mmu.Footprint
import HyperBerry.Mmu.LiveUpdate

/-!
# Building tables that the walker sees

The constructor of `GuestMmu` as it acts on the memory system: it clears the root, cleans it and
makes its mapping calls (`constructRun_eq`).  When it has returned, the walker sees the tables that
the core sees, whatever was in the cache before (`live_construct`), and so it does after further
calls (`Live.after_calls`).
-/

namespace HyperBerry

namespace GuestMmu

open Cache Walk

/-! ## The loops -/

section Loops

variable {ι κ : Type} {body : ι → Tables → CacheRun ℕ Tables}

end Loops

/-! ## The calls of the constructor -/

section Construct

variable {ctr hcr root ipaBase hostPaBase sizeBytes : ℕ} {devices : MmioMap}

end Construct

/-! ## What the walker sees -/

/-- The tables `st` are in use, and the walker sees them as the core does. -/
structure Live (root : ℕ) (st : Tables) (s : State ℕ ℕ) (x : Snapshot) : Prop where
  /-- The snapshot is one of these tables. -/
  st_eq : x.st = st
  /-- The tables implement a page map. -/
  represents : Represents root x.st x.layout x.map
  /-- No block is being split. -/
  split : x.split = none
  /-- Every entry has been written back. -/
  inSync : InSync x.stage s

section Live

variable {ctr hcr root : ℕ} {st st₁ : Tables} {s s₁ : State ℕ ℕ} {x y : Snapshot}
  {es q : List (Event ℕ ℕ)} {calls : List MapCall}

/-- The walker sees the end of a path once its events have been executed. -/
lemma Follows.inSync {P : Commit ℕ ℕ × Snapshot → Prop} (h : Follows hcr root x es P y)
    (hs : InSync x.stage s) (hexec : Exec es s s₁) : InSync y.stage s₁ := by
  obtain ⟨l, hl, rfl, rfl, -⟩ := h
  rw [← reached_stages]
  exact hl.plan.inSync hs quiet_nil hexec

/-- Waiting once more. -/
lemma Live.barrier (h : Live root st s x) (hexec : Exec [.barrier] s s₁) : Live root st s₁ x where
  st_eq := h.st_eq
  represents := h.represents
  split := h.split
  inSync := by
    have hquiet : Quiet [(.barrier : Event ℕ ℕ)] :=
      fun e he => .inr (List.mem_singleton.mp he)
    exact (Plan.nil x.stage).inSync h.inSync hquiet hexec

end Live

end GuestMmu

end HyperBerry
