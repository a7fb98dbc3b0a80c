import HyperBerry.Vmm.Model

/-!
# Runs of a virtual machine

What `Vmm::Run` does on any stream of exits.  `terminal` says which exits end a run and in which
state, `Resumes` what the guest may find when it is entered again.  The world after some passes of
the loop is `worldAt`; a run goes through these worlds up to the first terminal exit
(`loop_eq_of_not_terminal`).
-/

namespace HyperBerry

namespace Vmm

variable {exits : ℕ → Interval} {w : World} {e : Interval}

/-- The state in which an exit ends the run, if it does. -/
def terminal (e : Interval) : Option VmState :=
  match e.exit.reason with
  | .irq | .fiq => none
  | .serror => some .faulted
  | .sync =>
    if getEsrEc e.exit.syndrome = ecHvc64 then
      if getEsrIss e.exit.syndrome = 0 ∧ e.vcpu.registers.x 0 = psciSystemOff then some .shutdown
      else if getEsrIss e.exit.syndrome = 0 ∧ e.vcpu.registers.x 0 = psciSystemReset then
        some .resetRequested
      else none
    else if getEsrEc e.exit.syndrome = ecSmc64 then none
    else some .faulted

/-- What the guest may find on the entry after an exit: the registers it had, apart from `x0` after
a hypercall and from `x0` and the program counter after an SMC. -/
def Resumes (e : Interval) (v : Vcpu) : Prop :=
  match e.exit.reason with
  | .irq | .fiq => v = e.vcpu
  | .serror => False
  | .sync =>
    if getEsrEc e.exit.syndrome = ecHvc64 then
      ∃ r, v = { e.vcpu with registers := setX0 e.vcpu.registers r }
    else if getEsrEc e.exit.syndrome = ecSmc64 then
      ∃ r, v = { e.vcpu with registers :=
        { setX0 e.vcpu.registers r with pc := e.vcpu.registers.pc + 4 } }
    else False

/-- A terminal state is one in which the virtual machine has stopped. -/
lemma terminal_ne {state : VmState} (h : terminal e = some state) :
    state ≠ .running ∧ state ≠ .ready := by
  rw [terminal] at h
  split at h
  · cases h
  · cases h
  · cases h
    exact ⟨by simp, by simp⟩
  · split at h
    · split at h
      · cases h
        exact ⟨by simp, by simp⟩
      · split at h
        · cases h
          exact ⟨by simp, by simp⟩
        · cases h
    · split at h
      · cases h
      · cases h
        exact ⟨by simp, by simp⟩

/-! ## One pass -/

/-- One pass of the loop, up to the decision whether to return. -/
def pass (w : World) (e : Interval) : World :=
  match e.exit.reason with
  | .irq | .fiq => w.enter e
  | .serror => (w.enter e).stop .faulted
  | .sync => handleSync (w.enter e) e.exit

/-- What a hypercall does: it ends the run, or only changes `x0`. -/
lemma hvcHandle_cases (registers : GuestRegisters) (immediate : UInt32) :
    (immediate = 0 ∧ registers.x 0 = psciSystemOff ∧
        hvcHandle registers immediate = (.shutdown, registers)) ∨
      (immediate = 0 ∧ registers.x 0 = psciSystemReset ∧
        hvcHandle registers immediate = (.reset, registers)) ∨
      (¬ (immediate = 0 ∧ registers.x 0 = psciSystemOff) ∧
        ¬ (immediate = 0 ∧ registers.x 0 = psciSystemReset) ∧
        ∃ r, hvcHandle registers immediate = (.resume, setX0 registers r)) := by
  have howner : ∀ f, f = psciSystemOff ∨ f = psciSystemReset → getOwner f = ownerStandard := by
    rintro f (rfl | rfl) <;> decide
  have hversion : psciSystemOff ≠ psciVersion ∧ psciSystemReset ≠ psciVersion := by decide
  have hfeatures : psciSystemOff ≠ psciFeatures ∧ psciSystemReset ≠ psciFeatures := by decide
  rw [hvcHandle]
  split
  case isTrue hbad =>
    refine .inr (.inr ⟨?_, ?_, notSupported, rfl⟩)
    · rintro ⟨h0, hoff⟩
      rcases hbad with h | h
      · exact h h0
      · exact h (howner _ (.inl hoff))
    · rintro ⟨h0, hreset⟩
      rcases hbad with h | h
      · exact h h0
      · exact h (howner _ (.inr hreset))
  case isFalse hok =>
    rw [not_or, not_not, not_not] at hok
    split
    case isTrue h =>
      rw [h]
      exact .inr (.inr ⟨fun h => hversion.1 h.2.symm, fun h => hversion.2 h.2.symm, _, rfl⟩)
    case isFalse =>
      split
      case isTrue h =>
        rw [h]
        exact .inr (.inr ⟨fun h => hfeatures.1 h.2.symm, fun h => hfeatures.2 h.2.symm, _, rfl⟩)
      case isFalse =>
        split
        case isTrue hoff => exact .inl ⟨hok.1, hoff, rfl⟩
        case isFalse hoff =>
          split
          case isTrue hreset => exact .inr (.inl ⟨hok.1, hreset, rfl⟩)
          case isFalse hreset =>
            exact .inr (.inr ⟨fun h => hoff h.2, fun h => hreset h.2, notSupported, rfl⟩)

/-- A pass enters the guest once. -/
lemma pass_log : (pass w e).log = w.log ++ [.enter w.vm.state w.vm.vcpu] := by
  unfold pass handleSync
  cases e.exit.reason with
  | irq | fiq | serror => rfl
  | sync =>
    simp only
    split
    · split <;> rfl
    · split <;> rfl

/-- A pass keeps the exit. -/
lemma pass_lastExit : (pass w e).vm.lastExit = e.exit := by
  unfold pass handleSync
  cases e.exit.reason with
  | irq | fiq | serror => rfl
  | sync =>
    simp only
    split
    · split <;> rfl
    · split <;> rfl

/-- A pass over a hypercall. -/
lemma pass_hvc (hreason : e.exit.reason = .sync) (hec : getEsrEc e.exit.syndrome = ecHvc64)
    (h : w.vm.state = .running) :
    (pass w e).vm.state = (terminal e).getD .running ∧
      (terminal e = none → Resumes e (pass w e).vm.vcpu) := by
  have hpass : pass w e = handleSync (w.enter e) e.exit := by rw [pass, hreason]
  rw [hpass, handleSync, if_pos hec]
  simp only [terminal, Resumes, hreason, if_pos hec]
  rcases hvcHandle_cases e.vcpu.registers (getEsrIss e.exit.syndrome) with
    ⟨h0, hoff, heq⟩ | ⟨h0, hreset, heq⟩ | ⟨hoff, hreset, r, heq⟩
  · rw [if_pos ⟨h0, hoff⟩]
    simp only [World.enter, heq]
    exact ⟨rfl, by simp⟩
  · have hne : ¬ (getEsrIss e.exit.syndrome = 0 ∧ e.vcpu.registers.x 0 = psciSystemOff) := by
      rintro ⟨-, hoff⟩
      exact absurd (hreset.symm.trans hoff) (by decide)
    rw [if_neg hne, if_pos ⟨h0, hreset⟩]
    simp only [World.enter, heq]
    exact ⟨rfl, by simp⟩
  · rw [if_neg hoff, if_neg hreset]
    simp only [World.enter, heq]
    exact ⟨h, fun _ => ⟨r, rfl⟩⟩

/-- A pass leaves the virtual machine in the terminal state, or running with the registers of the
guest. -/
lemma pass_spec (h : w.vm.state = .running) :
    (pass w e).vm.state = (terminal e).getD .running ∧
      (terminal e = none → Resumes e (pass w e).vm.vcpu) := by
  cases hreason : e.exit.reason with
  | irq | fiq =>
    simp only [pass, terminal, Resumes, hreason]
    exact ⟨h, fun _ => rfl⟩
  | serror =>
    simp only [pass, terminal, hreason]
    exact ⟨rfl, by simp⟩
  | sync =>
    by_cases hhvc : getEsrEc e.exit.syndrome = ecHvc64
    · exact pass_hvc hreason hhvc h
    · have hpass : pass w e = handleSync (w.enter e) e.exit := by rw [pass, hreason]
      rw [hpass, handleSync, if_neg hhvc]
      simp only [terminal, Resumes, hreason, if_neg hhvc]
      by_cases hsmc : getEsrEc e.exit.syndrome = ecSmc64
      · simp only [if_pos hsmc]
        exact ⟨h, fun _ => ⟨notSupported, rfl⟩⟩
      · simp only [if_neg hsmc]
        exact ⟨rfl, by simp⟩

/-! ## A run -/

/-- The world after `n` passes of the loop. -/
def worldAt (exits : ℕ → Interval) (w : World) : ℕ → World
  | 0 => w.start
  | n + 1 => pass (worldAt exits w n) (exits n)

/-- The loop returns after a terminal exit and goes on after every other one. -/
lemma loop_succ {fuel k : ℕ} (h : w.vm.state = .running) :
    loop exits (fuel + 1) k w =
      match terminal (exits k) with
      | some state => .returned (.ok state) (pass w (exits k))
      | none => loop exits fuel (k + 1) (pass w (exits k)) := by
  have hstate := (pass_spec (e := exits k) h).1
  rw [loop]
  cases hreason : (exits k).exit.reason with
  | irq | fiq => simp only [terminal, pass, hreason]
  | serror =>
    simp only [terminal, pass, hreason]
    rfl
  | sync =>
    have hpass : handleSync (w.enter (exits k)) (exits k).exit = pass w (exits k) := by
      rw [pass, hreason]
    simp only [hpass, hstate]
    cases hterm : terminal (exits k) with
    | none => simp
    | some state =>
      simp [(terminal_ne hterm).1]

/-- Up to the first terminal exit the virtual machine is running. -/
lemma worldAt_state {n : ℕ} (h : ∀ k < n, terminal (exits k) = none) :
    (worldAt exits w n).vm.state = .running := by
  induction n with
  | zero => rfl
  | succ n ih =>
    rw [worldAt, (pass_spec (ih fun k hk => h k (hk.trans n.lt_succ_self))).1, h n n.lt_succ_self]
    rfl

/-- A run gets to the first terminal exit. -/
lemma loop_eq_of_not_terminal {n : ℕ} (h : ∀ k < n, terminal (exits k) = none) (fuel : ℕ) :
    loop exits (fuel + n) 0 w.start = loop exits fuel n (worldAt exits w n) := by
  induction n generalizing fuel with
  | zero => rfl
  | succ n ih =>
    have hbefore : ∀ k < n, terminal (exits k) = none := fun k hk => h k (hk.trans n.lt_succ_self)
    rw [show fuel + (n + 1) = fuel + 1 + n by omega, ih hbefore, loop_succ (worldAt_state hbefore),
      h n n.lt_succ_self]
    rfl

/-- The guest is entered only while the virtual machine is running, with registers that it may
resume with. -/
lemma worldAt_log {n : ℕ} (h : ∀ k < n, terminal (exits k) = none) :
    (worldAt exits w n).log = w.log ++ .enableStage2 w.vm.vmid ::
      (List.range n).map fun k => .enter .running (worldAt exits w k).vm.vcpu := by
  induction n with
  | zero => rfl
  | succ n ih =>
    have hbefore : ∀ k < n, terminal (exits k) = none := fun k hk => h k (hk.trans n.lt_succ_self)
    rw [worldAt, pass_log, worldAt_state hbefore, ih hbefore, List.range_succ, List.map_append,
      List.append_assoc]
    rfl

/-- A run of a virtual machine that is ready, on any stream of exits.

While no exit is terminal, the call goes on; at the first terminal exit it returns, and the virtual
machine is in the state that is returned, with the terminal exit as the last one.  Stage 2 has been
enabled once, before the first entry; each entry was made in the state `running`, the first one with
the registers at the start and each later one with those that the exit before it allows.  Every
later call returns an error and changes nothing. -/
theorem run_until_terminal (w : World) (hready : w.vm.state = .ready) (exits : ℕ → Interval)
    (n : ℕ) (h : ∀ k < n, terminal (exits k) = none) :
    ∃ entries : ℕ → Vcpu, entries 0 = w.vm.vcpu ∧
      (∀ k < n, Resumes (exits k) (entries (k + 1))) ∧
      (∃ w', run exits n w = .running w' ∧ w'.vm.state = .running ∧
        w'.log = w.log ++ .enableStage2 w.vm.vmid ::
          (List.range n).map fun k => .enter .running (entries k)) ∧
      ∀ state, terminal (exits n) = some state → ∃ w',
        (∀ fuel, n < fuel → run exits fuel w = .returned (.ok state) w') ∧
        w'.vm.state = state ∧ w'.vm.lastExit = (exits n).exit ∧
        w'.log = w.log ++ .enableStage2 w.vm.vmid ::
          (List.range (n + 1)).map (fun k => .enter .running (entries k)) ∧
        ∀ exits' fuel, run exits' fuel w' = .returned (.error .invalidState) w' := by
  have hrun : ∀ fuel, run exits fuel w = loop exits fuel 0 w.start := by
    intro fuel
    rw [run, if_neg (not_not.mpr hready)]
  refine ⟨fun k => (worldAt exits w k).vm.vcpu, rfl, ?_, ?_, ?_⟩
  · intro k hk
    have hbefore : ∀ j < k, terminal (exits j) = none := fun j hj => h j (hj.trans hk)
    exact (pass_spec (worldAt_state hbefore)).2 (h k hk)
  · refine ⟨worldAt exits w n, ?_, worldAt_state h, worldAt_log h⟩
    have hloop := loop_eq_of_not_terminal (w := w) h 0
    rw [Nat.zero_add] at hloop
    rw [hrun, hloop]
    rfl
  · intro state hterm
    have hstate : (pass (worldAt exits w n) (exits n)).vm.state = state := by
      rw [(pass_spec (worldAt_state h)).1, hterm]
      rfl
    refine ⟨pass (worldAt exits w n) (exits n), ?_, hstate, pass_lastExit, ?_, ?_⟩
    · intro fuel hfuel
      obtain ⟨j, rfl⟩ : ∃ j, fuel = j + 1 + n := ⟨fuel - 1 - n, by omega⟩
      rw [hrun, loop_eq_of_not_terminal h, loop_succ (worldAt_state h), hterm]
    · rw [pass_log, worldAt_state h, worldAt_log h, List.range_succ, List.map_append,
        List.append_assoc]
      rfl
    · intro exits' fuel
      have hne : (pass (worldAt exits w n) (exits n)).vm.state ≠ .ready := by
        rw [hstate]
        exact (terminal_ne hterm).2
      rw [run, if_pos hne]

/-- An interval that ends with a hypercall. -/
def hypercall (call : UInt64) : Interval where
  vcpu := { registers := setX0 {} call }
  exit := { syndrome := 0x58000000 }

/-- A guest that asks for the version and then switches itself off. -/
theorem run_until_terminal_version_then_off :
    ∃ w', (∀ fuel, 1 < fuel → run (fun k => if k = 0 then hypercall psciVersion else
          hypercall psciSystemOff) fuel (World.make 0 0x40200000 0x4FFF0000 1) =
        .returned (.ok .shutdown) w') ∧ w'.log.length = 3 := by
  obtain ⟨entries, -, -, -, hend⟩ := run_until_terminal (World.make 0 0x40200000 0x4FFF0000 1) rfl
    (fun k => if k = 0 then hypercall psciVersion else hypercall psciSystemOff) 1
    (by
      intro k hk
      obtain rfl : k = 0 := by omega
      decide +kernel)
  obtain ⟨w', hrun, -, -, hlog, -⟩ := hend .shutdown (by decide +kernel)
  exact ⟨w', hrun, by rw [hlog]; rfl⟩

end Vmm

end HyperBerry
