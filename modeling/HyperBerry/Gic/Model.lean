import Mathlib

/-!
# Virtual interrupts

A model of the part of `drivers/gic/gic.cpp` that works on the list registers of the hypervisor
interface, and of what the hardware and the guest do to these registers.  The state has the
registers of that interface which the driver reads or writes; the distributor and the physical CPU
interface, which `Reset` and `cpuInit` program as well, are other frames and have no counterpart
here.

A guest acknowledges an interrupt that is pending, which makes it active, and ends one that is
active, which clears the state bits and leaves the rest of the list register as it is.
-/

namespace HyperBerry

/-- The hypervisor interface, and what the driver knows about it. -/
structure Gic where
  /-- `VTR`. -/
  vtr : ℕ
  /-- `HCR`. -/
  hcr : ℕ
  /-- `VMCR`. -/
  vmcr : ℕ
  /-- `APR`. -/
  apr : ℕ
  /-- The list registers, from `LR0` on. -/
  lr : ℕ → ℕ
  /-- `m_numLr`. -/
  numLr : ℕ

namespace Gic

/-! ## Registers -/

/-- `HCR_EN`. -/
def hcrEn : ℕ := 1 <<< 0

/-- `VMCR_EN0`. -/
def vmcrEn0 : ℕ := 1 <<< 0

/-- `VMCR_PMR_SHIFT`. -/
def vmcrPmrShift : ℕ := 27

/-- `LR_PENDING`. -/
def lrPending : ℕ := 1 <<< 28

/-- `LR_ACTIVE`. -/
def lrActive : ℕ := 1 <<< 29

/-- `LR_HW`. -/
def lrHw : ℕ := 1 <<< 31

/-- `LR_PHYS_SHIFT`. -/
def lrPhysShift : ℕ := 10

/-- The virtual ID in a list register. -/
def virtIdOf (v : ℕ) : ℕ := v &&& 0x3FF

/-- The interrupt in a list register is pending. -/
def IsPending (v : ℕ) : Prop := v &&& lrPending ≠ 0

/-- The interrupt in a list register is active. -/
def IsActive (v : ℕ) : Prop := v &&& lrActive ≠ 0

/-- The interrupt in a list register is pending or active. -/
def IsBusy (v : ℕ) : Prop := IsPending v ∨ IsActive v

instance : DecidablePred IsPending := fun _ => inferInstanceAs (Decidable (_ ≠ _))
instance : DecidablePred IsActive := fun _ => inferInstanceAs (Decidable (_ ≠ _))
instance : DecidablePred IsBusy := fun _ => inferInstanceAs (Decidable (_ ∨ _))

/-- `ELSR0` and `ELSR1` as the hardware gives them: a bit is set when its list register is empty. -/
def elsr (s : Gic) (bank : ℕ) : ℕ :=
  Nat.ofBits fun bit : Fin 32 => decide (¬ IsBusy (s.lr (32 * bank + bit)))

/-! ## The driver -/

/-- The loop that clears the first list registers. -/
def clearLrs : ℕ → (ℕ → ℕ) → ℕ → ℕ
  | 0, lr => lr
  | n + 1, lr => Function.update (clearLrs n lr) n 0

/-- `cpuInit`. -/
def cpuInit (s : Gic) : Gic :=
  let numLr := (s.vtr &&& 0x3F) + 1
  { s with
    numLr := numLr
    vmcr := vmcrEn0 ||| (0xFF >>> 3) <<< vmcrPmrShift
    hcr := hcrEn
    lr := clearLrs numLr s.lr
    apr := 0 }

/-- `Reset`. -/
def reset (s : Gic) : Gic := s.cpuInit

/-- `CpuReset`. -/
def cpuReset (s : Gic) : Gic := { s with lr := clearLrs s.numLr s.lr, apr := 0, vmcr := 0 }

/-- The loop of `InjectIrq` over the list registers, with the first free one so far; `none` when it
returns because a register has the virtual ID. -/
def scanLrs (s : Gic) (elsr0 elsr1 virtId : ℕ) : List ℕ → Option ℕ → Option (Option ℕ)
  | [], freeLr => some freeLr
  | i :: rest, freeLr =>
    let elsr := if i < 32 then elsr0 else elsr1
    let bit := i % 32
    if s.lr i &&& 0x3FF = virtId then none
    else if elsr >>> bit &&& 1 ≠ 0 then
      scanLrs s elsr0 elsr1 virtId rest (if freeLr = none then some i else freeLr)
    else scanLrs s elsr0 elsr1 virtId rest freeLr

/-- The list register that `InjectIrq` submits. -/
def listEntry (virtId id : ℕ) : ℕ :=
  virtId &&& 0x3FF ||| lrPending ||| lrHw ||| (id &&& 0x3FF) <<< lrPhysShift

/-- `InjectIrq`: what it returns, and the registers afterwards. -/
def injectIrq (s : Gic) (virtId id : ℕ) : ℤ × Gic :=
  match scanLrs s (s.elsr 0) (s.elsr 1) virtId (List.range s.numLr) none with
  | none => (-1, s)
  | some none => (-1, s)
  | some (some freeLr) => (0, { s with lr := Function.update s.lr freeLr (listEntry virtId id) })

/-- `HasPendingIrq`. -/
def hasPendingIrq (s : Gic) : Bool :=
  (List.range s.numLr).any fun i => s.lr i &&& lrPending ≠ 0

/-! ## The guest -/

/-- A list register after the guest has acknowledged its interrupt. -/
def acknowledged (v : ℕ) : ℕ := v &&& (2 ^ 32 - 1 - lrPending) ||| lrActive

/-- A list register after the guest has ended its interrupt. -/
def ended (v : ℕ) : ℕ := v &&& (2 ^ 32 - 1 - (lrPending ||| lrActive))

/-- The guest acknowledges the interrupt in a list register. -/
def acknowledge (s : Gic) (i : ℕ) : Gic :=
  { s with lr := Function.update s.lr i (acknowledged (s.lr i)) }

/-- The guest ends the interrupt in a list register. -/
def endOfInterrupt (s : Gic) (i : ℕ) : Gic :=
  { s with lr := Function.update s.lr i (ended (s.lr i)) }

/-- One step of the system: a call of the driver, or an access of the guest. -/
inductive Step : Gic → Gic → Prop
  /-- `InjectIrq` with a virtual ID of ten bits. -/
  | injectIrq {s : Gic} {virtId : ℕ} (id : ℕ) : virtId < 2 ^ 10 → Step s (s.injectIrq virtId id).2
  /-- The guest acknowledges an interrupt that is pending. -/
  | acknowledge {s : Gic} {i : ℕ} : i < s.numLr → IsPending (s.lr i) → Step s (s.acknowledge i)
  /-- The guest ends an interrupt that is active. -/
  | endOfInterrupt {s : Gic} {i : ℕ} : i < s.numLr → IsActive (s.lr i) →
      Step s (s.endOfInterrupt i)
  /-- `CpuReset`. -/
  | cpuReset {s : Gic} : Step s s.cpuReset

/-- Any number of steps. -/
abbrev Run : Gic → Gic → Prop := Relation.ReflTransGen Step

end Gic

end HyperBerry
