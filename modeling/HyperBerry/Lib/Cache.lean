import Mathlib

/-!
# Publishing through a write-back cache

A core writes to its cache.  Other observers read memory at the point of coherency, where a write
arrives when the cache writes the location back: on its own at any time, or because the core asked
for it with a clean and then waited at a barrier.

A core that wants observers to see a data structure change step by step prepares what they cannot
see yet, cleans it and waits; then it publishes with a single write, which it cleans and waits for
again.  A `Commit` is one such round, and a `Plan` a sequence of rounds with the memory that each
one leads to. The main result is `At.exec`: whatever the cache writes back and whenever an observer
looks, it finds one of the memories of the plan, and never an earlier one than before.
-/

namespace HyperBerry

namespace Cache

variable {α β : Type*}

/-- What a core asks of the memory system. -/
inductive Event (α β : Type*)
  /-- A write to one location. -/
  | write (a : α) (v : β)
  /-- A request to write locations back. -/
  | clean (t : Set α)
  /-- Wait for the requests. -/
  | barrier
  /-- Drop what observers remember from earlier reads. -/
  | invalidate

/-- The memory system. -/
structure State (α β : Type*) where
  /-- Memory as the core sees it. -/
  cpu : α → β
  /-- Memory at the point of coherency. -/
  poc : α → β
  /-- The locations whose write-back was requested and not waited for. -/
  pending : Set α
  /-- The number of invalidations; observers remember only what they read since the last one. -/
  epoch : ℕ

/-- The locations that some events write to. -/
def written (es : List (Event α β)) : Set α := {a | ∃ v, Event.write a v ∈ es}

/-- After some events a location is the same at the point of coherency as for the core: it was
before, or it is written back, and waited for, after the last write to it. -/
def Settles (a : α) : List (Event α β) → Prop → Prop → Prop
  | [], _, coherent => coherent
  | .write b _ :: es, pending, coherent => Settles a es (pending ∧ a ≠ b) (coherent ∧ a ≠ b)
  | .clean t :: es, pending, coherent => Settles a es (pending ∨ a ∈ t) coherent
  | .barrier :: es, pending, coherent => Settles a es False (coherent ∨ pending)
  | .invalidate :: es, pending, coherent => Settles a es pending coherent

/-- The number of invalidations among some events. -/
def invalidations : List (Event α β) → ℕ
  | [] => 0
  | .write _ _ :: es => invalidations es
  | .clean _ :: es => invalidations es
  | .barrier :: es => invalidations es
  | .invalidate :: es => invalidations es + 1

/-- Cleans and barriers only. -/
def Quiet (es : List (Event α β)) : Prop := ∀ e ∈ es, (∃ t, e = .clean t) ∨ e = .barrier

/-- No events are cleans and barriers. -/
lemma quiet_nil : Quiet ([] : List (Event α β)) := fun _ he => absurd he List.not_mem_nil

/-- Request the write-back of some sets of locations, and wait. -/
def flush (lines : List (Set α)) : List (Event α β) := lines.map .clean ++ [.barrier]

/-! ## Parts of a list of events -/

variable {es es' : List (Event α β)} {a : α} {p p' c c' : Prop}

lemma written_append : written (es ++ es') = written es ∪ written es' := by
  ext a
  simp only [written, List.mem_append, exists_or, Set.mem_union, Set.mem_ofPred_eq]

lemma invalidations_append : invalidations (es ++ es') = invalidations es + invalidations es' := by
  induction es with
  | nil => exact (Nat.zero_add _).symm
  | cons e es ih =>
    cases e with
    | invalidate =>
      rw [List.cons_append, invalidations, invalidations, ih]
      omega
    | write => exact ih
    | clean => exact ih
    | barrier => exact ih

lemma quiet_flush (lines : List (Set α)) : Quiet (flush lines : List (Event α β)) := by
  intro e he
  rcases List.mem_append.mp he with hclean | hbarrier
  · obtain ⟨t, -, rfl⟩ := List.mem_map.mp hclean
    exact .inl ⟨t, rfl⟩
  · exact .inr (List.mem_singleton.mp hbarrier)

lemma Quiet.tail {e : Event α β} (h : Quiet (e :: es)) : Quiet es :=
  fun e' he' => h e' (List.mem_cons_of_mem _ he')

lemma Quiet.written_eq (h : Quiet es) : written es = ∅ := by
  refine Set.eq_empty_iff_forall_notMem.mpr ?_
  rintro a ⟨v, hv⟩
  simpa using h _ hv

lemma Quiet.invalidations_eq (h : Quiet es) : invalidations es = 0 := by
  induction es with
  | nil => rfl
  | cons e es ih =>
    rcases h e List.mem_cons_self with ⟨t, rfl⟩ | rfl
    · exact ih h.tail
    · exact ih h.tail

/-- A quiet list does not write. -/
lemma Quiet.not_mem_written (h : Quiet es) (a : α) : a ∉ written es := by
  rw [h.written_eq]
  exact Set.notMem_empty a

/-- The location that a write is for is written. -/
lemma mem_written_cons (a : α) (v : β) (es : List (Event α β)) : a ∈ written (.write a v :: es) :=
  ⟨v, List.mem_cons_self⟩

/-- What the rest writes, the whole writes. -/
lemma written_subset_cons (e : Event α β) (es : List (Event α β)) :
    written es ⊆ written (e :: es) :=
  fun _ ⟨v, hv⟩ => ⟨v, List.mem_cons_of_mem _ hv⟩

/-- What is pending or coherent before only helps. -/
lemma Settles.mono (hp : p → p') (hc : c → c') (h : Settles a es p c) : Settles a es p' c' := by
  induction es generalizing p p' c c' with
  | nil => exact hc h
  | cons e es ih =>
    cases e with
    | write b v => exact ih (And.imp_left hp) (And.imp_left hc) h
    | clean t => exact ih (Or.imp_left hp) hc h
    | barrier => exact ih id (Or.imp hc hp) h
    | invalidate => exact ih hp hc h

/-- Events that do not write to a location may come first. -/
lemma Settles.prepend (h : Settles a es' False c) (hes : a ∉ written es) :
    Settles a (es ++ es') p c := by
  induction es generalizing p c with
  | nil => exact h.mono False.elim id
  | cons e es ih =>
    have hrest : a ∉ written es := fun ha => hes (written_subset_cons e es ha)
    cases e with
    | write b v =>
      have hne : a ≠ b := by
        rintro rfl
        exact hes (mem_written_cons a v es)
      exact ih (h.mono id fun hc => ⟨hc, hne⟩) hrest
    | clean t => exact ih h hrest
    | barrier => exact ih (h.mono id Or.inl) hrest
    | invalidate => exact ih h hrest

/-- A location that is flushed settles, whatever came before. -/
lemma settles_flush {lines : List (Set α)} :
    Settles a (flush lines ++ es) p c ↔ Settles a es False (c ∨ p ∨ ∃ t ∈ lines, a ∈ t) := by
  induction lines generalizing p with
  | nil => simp [flush, Settles]
  | cons t lines ih =>
    have hcons : (flush (t :: lines) ++ es : List (Event α β)) = .clean t :: (flush lines ++ es) :=
      rfl
    rw [hcons, Settles, ih]
    simp [or_assoc]

/-- A location that is flushed last settles. -/
lemma settles_append_flush {lines : List (Set α)} (ha : ∃ t ∈ lines, a ∈ t) :
    Settles a (es ++ flush lines) p c := by
  induction es generalizing p c with
  | nil =>
    rw [List.nil_append, ← List.append_nil (flush lines), settles_flush]
    exact .inr (.inr ha)
  | cons e es ih => cases e <;> exact ih

/-- The locations of a list of writes. -/
lemma written_writes (ws : List (α × β)) :
    written (ws.map fun w => .write w.1 w.2) = {a | ∃ w ∈ ws, w.1 = a} := by
  ext a
  constructor
  · rintro ⟨v, hv⟩
    obtain ⟨w, hw, heq⟩ := List.mem_map.mp hv
    exact ⟨w, hw, (Event.write.inj heq).1⟩
  · rintro ⟨w, hw, rfl⟩
    exact ⟨w.2, List.mem_map.mpr ⟨w, hw, rfl⟩⟩

/-! ## Commits -/

/-- The locations that observers may look at, and what they hold. -/
structure Stage (α β : Type*) where
  visible : Set α
  mem : α → β
  /-- The number of invalidations before. -/
  epoch : ℕ

/-- Prepare in private, publish with one write, and wait for it. -/
structure Commit (α β : Type*) where
  prep : List (Event α β)
  slot : α
  value : β
  /-- What is cleaned after the write. -/
  lines : List (Set α)

/-- The events of a commit. -/
def Commit.events (r : Commit α β) : List (Event α β) :=
  r.prep ++ .write r.slot r.value :: flush r.lines

/-- The events of a plan. -/
def planEvents (plan : List (Commit α β × Stage α β)) : List (Event α β) :=
  plan.flatMap fun x => x.1.events

/-- The last stage of a plan. -/
def reached (σ : Stage α β) : List (Commit α β × Stage α β) → Stage α β
  | [] => σ
  | x :: plan => reached x.2 plan

lemma reached_append (σ : Stage α β) (plan plan' : List (Commit α β × Stage α β)) :
    reached σ (plan ++ plan') = reached (reached σ plan) plan' := by
  induction plan generalizing σ with
  | nil => rfl
  | cons x plan ih => exact ih x.2

/-! ## Runs -/

section Exec

variable [DecidableEq α] {s s' s'' : State α β}

/-- The run of a core through some events.  Between any two of them the cache may write back any
locations. -/
inductive Exec : List (Event α β) → State α β → State α β → Prop
  | refl (s : State α β) : Exec [] s s
  | evict {es : List (Event α β)} {s s' : State α β} {poc : α → β}
      (hpoc : ∀ a, poc a = s.poc a ∨ poc a = s.cpu a) :
      Exec es { s with poc := poc } s' → Exec es s s'
  | write {es : List (Event α β)} {s s' : State α β} {a : α} {v : β} :
      Exec es { s with cpu := Function.update s.cpu a v, pending := s.pending \ {a} } s' →
      Exec (.write a v :: es) s s'
  | clean {es : List (Event α β)} {s s' : State α β} {t : Set α} :
      Exec es { s with pending := s.pending ∪ t } s' → Exec (.clean t :: es) s s'
  | barrier {es : List (Event α β)} {s s' : State α β}
      (hdone : ∀ a ∈ s.pending, s.poc a = s.cpu a) :
      Exec es { s with pending := ∅ } s' → Exec (.barrier :: es) s s'
  | invalidate {es : List (Event α β)} {s s' : State α β} :
      Exec es { s with epoch := s.epoch + 1 } s' → Exec (.invalidate :: es) s s'

/-- The memory that the core sees after some events. -/
def stores : List (Event α β) → (α → β) → α → β
  | [], mem => mem
  | .write a v :: es, mem => stores es (Function.update mem a v)
  | .clean _ :: es, mem => stores es mem
  | .barrier :: es, mem => stores es mem
  | .invalidate :: es, mem => stores es mem

lemma stores_append (mem : α → β) : stores (es ++ es') mem = stores es' (stores es mem) := by
  induction es generalizing mem with
  | nil => rfl
  | cons e es ih => cases e <;> exact ih _

/-- Events that do not write to a location leave it as it is. -/
lemma stores_of_not_mem (h : a ∉ written es) (mem : α → β) : stores es mem a = mem a := by
  induction es generalizing mem with
  | nil => rfl
  | cons e es ih =>
    have hrest : a ∉ written es := fun ha => h (written_subset_cons e es ha)
    cases e with
    | write b v =>
      have hne : a ≠ b := by
        rintro rfl
        exact h (mem_written_cons a v es)
      rw [stores, ih hrest, Function.update_of_ne hne]
    | clean t => exact ih hrest mem
    | barrier => exact ih hrest mem
    | invalidate => exact ih hrest mem

lemma Quiet.stores_eq (h : Quiet es) (mem : α → β) : stores es mem = mem :=
  funext fun a => stores_of_not_mem (h.not_mem_written a) mem

/-- The core sees its own writes. -/
lemma Exec.cpu_eq (h : Exec es s s') : s'.cpu = stores es s.cpu := by
  induction h with
  | refl => rfl
  | evict _ _ ih => exact ih
  | write _ ih => exact ih
  | clean _ ih => exact ih
  | barrier _ _ ih => exact ih
  | invalidate _ ih => exact ih

/-- The invalidations are counted. -/
lemma Exec.epoch_eq (h : Exec es s s') : s'.epoch = s.epoch + invalidations es := by
  induction h with
  | refl => rfl
  | evict _ _ ih => exact ih
  | write _ ih => exact ih
  | clean _ ih => exact ih
  | barrier _ _ ih => exact ih
  | invalidate _ ih =>
    rw [ih, invalidations]
    exact Nat.add_right_comm _ _ _

/-- A commit leads from one stage to another. -/
structure Commit.Publishes (r : Commit α β) (σ σ' : Stage α β) : Prop where
  /-- Nothing that can be seen is written before. -/
  prep_private : ∀ a ∈ written r.prep, a ∉ σ.visible
  /-- What could be seen can still be seen. -/
  visible_subset : σ.visible ⊆ σ'.visible
  /-- What can be seen then has been written back before. -/
  settles : ∀ a ∈ σ'.visible, Settles a r.prep False (a ∈ σ.visible)
  /-- The write is cleaned. -/
  slot_mem : ∃ t ∈ r.lines, r.slot ∈ t
  /-- The memory afterwards. -/
  mem_eq : σ'.mem = stores r.events σ.mem
  /-- The invalidations come before the write. -/
  epoch_eq : σ'.epoch = σ.epoch + invalidations r.prep

/-- Commits, with the stages that they lead to. -/
inductive Plan : Stage α β → List (Commit α β × Stage α β) → Prop
  | nil (σ : Stage α β) : Plan σ []
  | cons {σ σ' : Stage α β} {r : Commit α β} {plan : List (Commit α β × Stage α β)} :
      r.Publishes σ σ' → Plan σ' plan → Plan σ ((r, σ') :: plan)

/-- The memory at the end of a plan. -/
lemma Plan.mem_reached {σ : Stage α β} {plan : List (Commit α β × Stage α β)} (h : Plan σ plan) :
    (reached σ plan).mem = stores (planEvents plan) σ.mem := by
  induction h with
  | nil => rfl
  | @cons σ σ' r plan hr _ ih =>
    rw [reached, ih, hr.mem_eq, planEvents, planEvents, List.flatMap_cons, stores_append]

/-- The invalidations of a plan. -/
lemma Plan.epoch_reached {σ : Stage α β} {plan : List (Commit α β × Stage α β)} (h : Plan σ plan) :
    (reached σ plan).epoch = σ.epoch + invalidations (planEvents plan) := by
  induction h with
  | nil => rfl
  | @cons σ σ' r plan hr _ ih =>
    have hevents : invalidations r.events = invalidations r.prep := by
      rw [Commit.events, invalidations_append, invalidations, (quiet_flush _).invalidations_eq,
        Nat.add_zero]
    rw [reached, ih, hr.epoch_eq, planEvents, planEvents, List.flatMap_cons,
      invalidations_append, hevents]
    omega

/-- Observers see what the core sees. -/
structure InSync (σ : Stage α β) (s : State α β) : Prop where
  cpu_eq : s.cpu = σ.mem
  poc_eq : ∀ a ∈ σ.visible, s.poc a = s.cpu a
  epoch_eq : σ.epoch = s.epoch

/-- Where the core and the observers are: the observers see the stage `σ`, the commits of `plan` are
the ones they have not seen, and the core has the events `es` before it. -/
inductive At (σ : Stage α β) :
    List (Commit α β × Stage α β) → List (Event α β) → State α β → Prop
  /-- Everything has been seen. -/
  | idle {es : List (Event α β)} {s : State α β}
      (hpoc : ∀ a ∈ σ.visible, s.poc a = σ.mem a) (hcpu : ∀ a ∈ σ.visible, s.cpu a = σ.mem a)
      (hepoch : σ.epoch ≤ s.epoch) (hes : Quiet es) : At σ [] es s
  /-- The next commit has not been written yet. -/
  | waiting {σ' : Stage α β} {r : Commit α β} {plan : List (Commit α β × Stage α β)}
      {pre : List (Event α β)} {s : State α β}
      (hpoc : ∀ a ∈ σ.visible, s.poc a = σ.mem a) (hcpu : ∀ a ∈ σ.visible, s.cpu a = σ.mem a)
      (hepoch : σ.epoch ≤ s.epoch) (hprivate : ∀ a ∈ written pre, a ∉ σ.visible)
      (hsettles : ∀ a ∈ σ'.visible, Settles a pre (a ∈ s.pending) (s.poc a = s.cpu a))
      (hsubset : σ.visible ⊆ σ'.visible) (hslot : ∃ t ∈ r.lines, r.slot ∈ t)
      (hmem : σ'.mem = Function.update (stores pre s.cpu) r.slot r.value)
      (hnext : σ'.epoch = s.epoch + invalidations pre) (hplan : Plan σ' plan) :
      At σ ((r, σ') :: plan) (pre ++ .write r.slot r.value :: (flush r.lines ++ planEvents plan)) s
  /-- The next commit has been written and is not seen. -/
  | unseen {σ' : Stage α β} {r : Commit α β} {plan : List (Commit α β × Stage α β)}
      {rest : List (Event α β)} {s : State α β}
      (hpoc : ∀ a ∈ σ.visible, s.poc a = σ.mem a) (hepoch : σ.epoch ≤ s.epoch) (hrest : Quiet rest)
      (hcoherent : ∀ a ∈ σ'.visible, a ≠ r.slot → s.poc a = s.cpu a)
      (hframe : ∀ a ∈ σ.visible, a ≠ r.slot → s.cpu a = σ.mem a)
      (hsettles : Settles r.slot rest (r.slot ∈ s.pending) False)
      (hcpu : s.cpu = σ'.mem) (hnext : σ'.epoch = s.epoch) (hplan : Plan σ' plan) :
      At σ ((r, σ') :: plan) (rest ++ planEvents plan) s

variable {σ σ' : Stage α β} {plan : List (Commit α β × Stage α β)}

/-- What observers see. -/
lemma At.poc_eq (h : At σ plan es s) (ha : a ∈ σ.visible) : s.poc a = σ.mem a := by
  cases h with
  | idle hpoc => exact hpoc a ha
  | waiting hpoc => exact hpoc a ha
  | unseen hpoc => exact hpoc a ha

/-- The stage is seen, and at most waiting is left of the commit that led to it. -/
lemma Plan.at (h : Plan σ plan) (hs : InSync σ s) (hes : Quiet es) :
    At σ plan (es ++ planEvents plan) s := by
  obtain ⟨hcpu, hpoc, hepoch⟩ := hs
  have hseen : ∀ a ∈ σ.visible, s.poc a = σ.mem a := fun a ha => by rw [hpoc a ha, hcpu]
  cases h with
  | nil =>
    refine .idle hseen (fun a _ => by rw [hcpu]) hepoch.le ?_
    rwa [planEvents, List.flatMap_nil, List.append_nil]
  | @cons _ σ' r plan hr hplan =>
    have hsplit : es ++ planEvents ((r, σ') :: plan) =
        (es ++ r.prep) ++ .write r.slot r.value :: (flush r.lines ++ planEvents plan) := by
      simp [planEvents, Commit.events]
    rw [hsplit]
    refine .waiting hseen (fun a _ => by rw [hcpu]) hepoch.le ?_ ?_ hr.visible_subset
      hr.slot_mem ?_ ?_ hplan
    · intro a ha
      rw [written_append, hes.written_eq, Set.empty_union] at ha
      exact hr.prep_private a ha
    · intro a ha
      exact Settles.prepend ((hr.settles a ha).mono id (hpoc a)) (hes.not_mem_written a)
    · rw [hr.mem_eq, stores_append, hes.stores_eq, hcpu, Commit.events, stores_append, stores,
        (quiet_flush _).stores_eq]
    · rw [hr.epoch_eq, hepoch, invalidations_append, hes.invalidations_eq, Nat.zero_add]

/-- Observers see the stage they saw before, or a later one. -/
def Sees (σ : Stage α β) (plan : List (Commit α β × Stage α β)) (es : List (Event α β))
    (s : State α β) : Prop :=
  ∃ seen plan', plan = seen ++ plan' ∧ At (reached σ seen) plan' es s

lemma At.sees (h : At σ plan es s) : Sees σ plan es s := ⟨[], plan, rfl, h⟩

lemma Sees.trans (h : ∃ seen plan', plan = seen ++ plan' ∧ Sees (reached σ seen) plan' es s) :
    Sees σ plan es s := by
  obtain ⟨seen, plan', rfl, seen', plan'', rfl, hat⟩ := h
  refine ⟨seen ++ seen', plan'', (List.append_assoc ..).symm, ?_⟩
  rwa [reached_append]

/-- The write of a commit has been written back. -/
lemma Plan.sees_of_slot {r : Commit α β} (hplan : Plan σ' plan) (hes : Quiet es)
    (hcoherent : ∀ a ∈ σ'.visible, a ≠ r.slot → s.poc a = s.cpu a) (hcpu : s.cpu = σ'.mem)
    (hepoch : σ'.epoch = s.epoch) (hslot : s.poc r.slot = s.cpu r.slot) :
    Sees σ ((r, σ') :: plan) (es ++ planEvents plan) s := by
  refine ⟨[(r, σ')], plan, rfl, hplan.at ⟨hcpu, fun a ha => ?_, hepoch⟩ hes⟩
  by_cases hne : a = r.slot
  · rw [hne, hslot]
  · exact hcoherent a ha hne

/-! ## Steps -/

/-- The cache writes locations back. -/
lemma At.evict (h : At σ plan es s) {poc : α → β} (hpoc : ∀ a, poc a = s.poc a ∨ poc a = s.cpu a) :
    Sees σ plan es { s with poc := poc } := by
  have hkeep {a : α} {v : β} (h : s.poc a = v) (h' : s.cpu a = v) : poc a = v := by
    rcases hpoc a with hold | hnew
    · rw [hold, h]
    · rw [hnew, h']
  cases h with
  | idle hseen hcpu hepoch hes =>
    refine At.sees (.idle (fun a ha => ?_) hcpu hepoch hes)
    exact hkeep (hseen a ha) (hcpu a ha)
  | waiting hseen hcpu hepoch hprivate hsettles hsubset hslot hmem hnext hplan =>
    refine At.sees (.waiting (fun a ha => ?_) hcpu hepoch hprivate (fun a ha => ?_)
      hsubset hslot hmem hnext hplan)
    · exact hkeep (hseen a ha) (hcpu a ha)
    · exact (hsettles a ha).mono id fun hc => hkeep hc rfl
  | @unseen σ' r plan rest _ hseen hepoch hrest hcoherent hframe hsettles hcpu hnext hplan =>
    have hcoherent' : ∀ a ∈ σ'.visible, a ≠ r.slot → poc a = s.cpu a := fun a ha hne =>
      hkeep (hcoherent a ha hne) rfl
    by_cases hslot : poc r.slot = s.cpu r.slot
    · exact hplan.sees_of_slot hrest hcoherent' hcpu hnext hslot
    · refine At.sees (.unseen (fun a ha => ?_) hepoch hrest hcoherent' hframe hsettles hcpu
        hnext hplan)
      by_cases hne : a = r.slot
      · rw [hne] at ha ⊢
        exact ((hpoc r.slot).resolve_right hslot).trans (hseen r.slot ha)
      · exact hkeep (hseen a ha) (hframe a ha hne)

/-- The core writes. -/
lemma At.write {v : β} (h : At σ plan (.write a v :: es) s) :
    At σ plan es { s with cpu := Function.update s.cpu a v, pending := s.pending \ {a} } := by
  generalize hl : Event.write a v :: es = l at h
  cases h with
  | idle _ _ _ hes =>
    subst hl
    exact absurd (mem_written_cons a v es) (hes.not_mem_written a)
  | @waiting σ' r plan pre _ hseen hcpu hepoch hprivate hsettles hsubset hslot hmem hnext hplan =>
    rcases List.cons_eq_append_iff.mp hl with ⟨rfl, hcons⟩ | ⟨pre', rfl, rfl⟩
    · -- the write that publishes
      obtain ⟨hwrite, rfl⟩ := List.cons.inj hcons
      obtain ⟨rfl, rfl⟩ := Event.write.inj hwrite
      refine .unseen hseen hepoch (quiet_flush _) (fun a ha hne => ?_) (fun a ha hne => ?_)
        ?_ ?_ hnext hplan
      · exact (hsettles a ha).trans (Function.update_of_ne hne ..).symm
      · exact (Function.update_of_ne hne ..).trans (hcpu a ha)
      · rw [← List.append_nil (flush r.lines), settles_flush]
        exact .inr (.inr hslot)
      · exact hmem.symm
    · have hne : ∀ b ∈ σ.visible, b ≠ a := fun b hb heq =>
        hprivate a (mem_written_cons a v pre') (heq ▸ hb)
      refine .waiting hseen (fun b hb => ?_) hepoch (fun b hb => ?_) (fun b hb => ?_)
        hsubset hslot ?_ hnext hplan
      · exact (Function.update_of_ne (hne b hb) ..).trans (hcpu b hb)
      · exact hprivate b (written_subset_cons _ _ hb)
      · refine (hsettles b hb).mono id ?_
        rintro ⟨hc, hba⟩
        exact hc.trans (Function.update_of_ne hba ..).symm
      · exact hmem
  | unseen _ _ hrest _ _ hsettles =>
    rcases List.cons_eq_append_iff.mp hl with ⟨rfl, -⟩ | ⟨rest', rfl, -⟩
    · exact hsettles.elim
    · exact absurd (mem_written_cons a v rest') (hrest.not_mem_written a)

/-- The core does something that is no write, and has to wait for other locations then. -/
lemma At.skip {e : Event α β} {s' : State α β} (h : At σ plan (e :: es) s)
    (hwrite : ∀ a v, e ≠ .write a v) (hcpu' : s'.cpu = s.cpu) (hpoc' : s'.poc = s.poc)
    (hepoch' : s'.epoch = s.epoch + invalidations [e])
    (hstep : ∀ a l c, Settles a (e :: l) (a ∈ s.pending) c →
      Settles a l (a ∈ s'.pending) (c ∨ s.poc a = s.cpu a)) : Sees σ plan es s' := by
  have hle : s.epoch ≤ s'.epoch := hepoch' ▸ Nat.le_add_right _ _
  generalize hl : e :: es = l at h
  cases h with
  | idle hseen hcpu hepoch hes =>
    subst hl
    exact At.sees (.idle (hpoc' ▸ hseen) (hcpu' ▸ hcpu) (hepoch.trans hle) hes.tail)
  | @waiting σ' r plan pre _ hseen hcpu hepoch hprivate hsettles hsubset hslot hmem hnext hplan =>
    rcases List.cons_eq_append_iff.mp hl with ⟨rfl, hcons⟩ | ⟨pre', rfl, rfl⟩
    · exact absurd (List.cons.inj hcons).1.symm (hwrite _ _)
    · refine At.sees (.waiting (hpoc' ▸ hseen) (hcpu' ▸ hcpu) (hepoch.trans hle) (fun a ha => ?_)
        (fun a ha => ?_) hsubset hslot ?_ ?_ hplan)
      · exact hprivate a (written_subset_cons e pre' ha)
      · rw [hpoc', hcpu']
        exact (hstep a pre' _ (hsettles a ha)).mono id (or_self_iff.mp ·)
      · rw [hmem, hcpu']
        cases e with
        | write b v => exact absurd rfl (hwrite b v)
        | clean => rfl
        | barrier => rfl
        | invalidate => rfl
      · rw [hnext, hepoch', ← List.singleton_append, invalidations_append, Nat.add_assoc]
  | @unseen σ' r plan rest _ hseen hepoch hrest hcoherent hframe hsettles hcpu hnext hplan =>
    rcases List.cons_eq_append_iff.mp hl with ⟨rfl, -⟩ | ⟨rest', rfl, rfl⟩
    · exact hsettles.elim
    · have hsettles' := hstep r.slot rest' _ hsettles
      have hquiet : Quiet [e] := fun e' he' => by
        obtain rfl := List.mem_singleton.mp he'
        exact hrest e' List.mem_cons_self
      rw [hquiet.invalidations_eq, Nat.add_zero] at hepoch'
      by_cases hslot : s.poc r.slot = s.cpu r.slot
      · exact hplan.sees_of_slot hrest.tail (by rwa [hpoc', hcpu']) (by rw [hcpu', hcpu])
          (by rw [hnext, hepoch']) (by rwa [hpoc', hcpu'])
      · refine At.sees (.unseen (hpoc' ▸ hseen) (hepoch.trans hle) hrest.tail
          (by rwa [hpoc', hcpu'])
          (by rwa [hcpu']) ?_ (by rw [hcpu', hcpu]) (by rw [hnext, hepoch']) hplan)
        exact hsettles'.mono id fun h => h.resolve_right hslot

/-- **Observers see the plan.**  Whatever the cache writes back on the way, observers see the stages
of the plan in their order. -/
theorem At.exec {p : List (Event α β)} (hexec : Exec p s s') :
    ∀ {σ : Stage α β} {plan : List (Commit α β × Stage α β)}, At σ plan (p ++ es) s →
      Sees σ plan es s' := by
  induction hexec with
  | refl => exact At.sees
  | evict hpoc _ ih =>
    intro σ plan h
    obtain ⟨seen, plan', hplan, hat⟩ := h.evict hpoc
    exact .trans ⟨seen, plan', hplan, ih hat⟩
  | write _ ih => exact fun h => ih h.write
  | @clean l s _ t _ ih =>
    intro σ plan h
    have hsees : Sees σ plan (l ++ es) { s with pending := s.pending ∪ t } :=
      h.skip (by simp) rfl rfl rfl fun a l c hc => Settles.mono id .inl hc
    obtain ⟨seen, plan', hplan, hat⟩ := hsees
    exact .trans ⟨seen, plan', hplan, ih hat⟩
  | @barrier l s _ hdone _ ih =>
    intro σ plan h
    have hsees : Sees σ plan (l ++ es) { s with pending := ∅ } :=
      h.skip (by simp) rfl rfl rfl fun a l c hc =>
        Settles.mono False.elim (Or.imp_right (hdone a)) hc
    obtain ⟨seen, plan', hplan, hat⟩ := hsees
    exact .trans ⟨seen, plan', hplan, ih hat⟩
  | @invalidate l s _ _ ih =>
    intro σ plan h
    have hsees : Sees σ plan (l ++ es) { s with epoch := s.epoch + 1 } :=
      h.skip (by simp) rfl rfl rfl fun a l c hc => Settles.mono id .inl hc
    obtain ⟨seen, plan', hplan, hat⟩ := hsees
    exact .trans ⟨seen, plan', hplan, ih hat⟩

/-- At the end everything has been seen. -/
lemma At.eq_nil (h : At σ plan [] s) : plan = [] := by
  generalize hl : ([] : List (Event α β)) = l at h
  cases h with
  | idle => rfl
  | waiting => simp at hl
  | unseen _ _ _ _ _ hsettles =>
    rw [(List.append_eq_nil_iff.mp hl.symm).1] at hsettles
    exact hsettles.elim

/-- After a whole plan observers see what the core sees. -/
lemma Plan.inSync (h : Plan σ plan) (hs : InSync σ s) (hes : Quiet es)
    (hexec : Exec (es ++ planEvents plan) s s') : InSync (reached σ plan) s' := by
  have hcpu : s'.cpu = (reached σ plan).mem := by
    rw [hexec.cpu_eq, stores_append, hes.stores_eq, hs.cpu_eq, h.mem_reached]
  have hat : At σ plan ((es ++ planEvents plan) ++ []) s := by
    rw [List.append_nil]
    exact h.at hs hes
  obtain ⟨seen, plan', rfl, hend⟩ := At.exec hexec hat
  obtain rfl := hend.eq_nil
  rw [List.append_nil] at hcpu ⊢
  refine ⟨hcpu, fun a ha => by rw [hend.poc_eq ha, hcpu], ?_⟩
  have hepoch := h.epoch_reached
  rw [List.append_nil] at hepoch hexec
  rw [hepoch, hexec.epoch_eq, invalidations_append, hes.invalidations_eq, hs.epoch_eq, Nat.zero_add]

end Exec

end Cache

end HyperBerry
