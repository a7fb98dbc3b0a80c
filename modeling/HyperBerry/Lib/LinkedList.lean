import Mathlib

/-!
# Singly linked lists threaded through memory

A list of nodes is kept as a head pointer together with a map `next` that gives the link stored in
each node.  Addresses are natural numbers and `0` is the null link.  The operations below follow
the usual pointer code: `push` overwrites the link of the new node, `pop` advances the head, and
`remove` walks a pointer to the link that has to be patched.

`IsChain next p l` says that following the links from `p` visits exactly the nodes of `l` and then
reaches null.  Each operation has one specification lemma that says what it does to the chain, and
`IsChain.congr` is the frame rule: a chain only depends on the links of its own nodes.
-/

namespace HyperBerry

namespace LinkedList

/-- Following `next` from the link `p` visits the nodes of the list in order and ends at null. -/
def IsChain (next : ℕ → ℕ) : ℕ → List ℕ → Prop
  | p, [] => p = 0
  | p, a :: l => p = a ∧ a ≠ 0 ∧ IsChain next (next a) l

/-- The head of the list and the link stored in every node. -/
structure Links where
  /-- The first node, or `0`. -/
  head : ℕ
  /-- The link stored in a node. -/
  next : ℕ → ℕ

/-- A place that holds a link: the head of the list, or a node. -/
inductive Slot where
  /-- The head of the list. -/
  | head
  /-- The link stored in the node at the given address. -/
  | node (addr : ℕ)

/-- The link stored at a place. -/
def Links.load (s : Links) : Slot → ℕ
  | .head => s.head
  | .node a => s.next a

/-- Overwrite the link stored at a place. -/
def Links.store (s : Links) (c : Slot) (v : ℕ) : Links :=
  match c with
  | .head => { s with head := v }
  | .node a => { s with next := Function.update s.next a v }

/-- Put a node in front of the list. -/
def Links.push (s : Links) (a : ℕ) : Links where
  head := a
  next := Function.update s.next a s.head

/-- Take the first node off the list; `0` when there is none. -/
def Links.pop (s : Links) : Links × ℕ :=
  if s.head = 0 then (s, 0) else ({ s with head := s.next s.head }, s.head)

/-- Walk from the place `c` to the link that points at `a` and make it skip `a`.  Returns whether
the node was found; `none` when the walk has not reached the end of the list after `fuel` nodes. -/
def Links.removeFrom (s : Links) (a : ℕ) : ℕ → Slot → Option (Links × Bool)
  | 0, _ => none
  | fuel + 1, c =>
    let node := s.load c
    if node = 0 then some (s, false)
    else if node = a then some (s.store c (s.next node), true)
    else s.removeFrom a fuel (.node node)

/-- The nodes met when following the links from `p`; `none` when null is not reached within `fuel`
links. -/
def nodes (next : ℕ → ℕ) : ℕ → ℕ → Option (List ℕ)
  | 0, _ => none
  | fuel + 1, p => if p = 0 then some [] else (nodes next fuel (next p)).map (p :: ·)

/-! ## Chains -/

variable {next next' : ℕ → ℕ} {p a : ℕ} {l : List ℕ}

@[simp] lemma isChain_nil : IsChain next p [] ↔ p = 0 := Iff.rfl

@[simp] lemma isChain_cons : IsChain next p (a :: l) ↔ p = a ∧ a ≠ 0 ∧ IsChain next (next a) l :=
  Iff.rfl

/-- No node of a chain is null. -/
lemma IsChain.ne_zero (h : IsChain next p l) : ∀ x ∈ l, x ≠ 0 := by
  induction l generalizing p with
  | nil => simp
  | cons a l ih =>
    obtain ⟨-, ha, hl⟩ := h
    intro x hx
    rcases List.mem_cons.mp hx with rfl | hx
    · exact ha
    · exact ih hl x hx

/-- A chain only depends on the links of its own nodes. -/
lemma IsChain.congr (h : IsChain next p l) (hn : ∀ x ∈ l, next' x = next x) :
    IsChain next' p l := by
  induction l generalizing p with
  | nil => exact h
  | cons a l ih =>
    obtain ⟨hp, ha, hl⟩ := h
    refine ⟨hp, ha, ?_⟩
    rw [hn a List.mem_cons_self]
    exact ih hl fun x hx => hn x (List.mem_cons_of_mem _ hx)

/-- Enough fuel lists the nodes of a chain. -/
lemma IsChain.nodes_eq (h : IsChain next p l) {fuel : ℕ} (hf : l.length < fuel) :
    nodes next fuel p = some l := by
  induction l generalizing p fuel with
  | nil =>
    obtain ⟨fuel, rfl⟩ : ∃ k, fuel = k + 1 := ⟨fuel - 1, by simp at hf; omega⟩
    simp [nodes, isChain_nil.mp h]
  | cons a l ih =>
    obtain ⟨fuel, rfl⟩ : ∃ k, fuel = k + 1 := ⟨fuel - 1, by simp at hf; omega⟩
    obtain ⟨rfl, ha, hl⟩ := h
    simp only [List.length_cons, Nat.add_lt_add_iff_right] at hf
    simp [nodes, ha, ih hl hf]

/-- A list of distinct non-null 64-bit addresses has fewer than `2 ^ 64` nodes. -/
lemma length_lt_of_nodup (hl : l.Nodup) (h0 : ∀ x ∈ l, x ≠ 0) (hlt : ∀ x ∈ l, x < 2 ^ 64) :
    l.length < 2 ^ 64 := by
  have hnd : (0 :: l).Nodup := List.nodup_cons.mpr ⟨fun h => h0 0 h rfl, hl⟩
  have hsub : (0 :: l) ⊆ List.range (2 ^ 64) := by
    intro x hx
    rcases List.mem_cons.mp hx with rfl | hx
    · exact List.mem_range.mpr (by norm_num)
    · exact List.mem_range.mpr (hlt x hx)
  have hlen := (List.subperm_of_subset hnd hsub).length_le
  rw [List.length_cons, List.length_range] at hlen
  omega

/-! ## Operations -/

variable {s : Links}

/-- Pushing a node that is not on the list puts it in front. -/
lemma Links.push_isChain (h : IsChain s.next s.head l) (ha : a ≠ 0) (hal : a ∉ l) :
    IsChain (s.push a).next (s.push a).head (a :: l) := by
  refine ⟨rfl, ha, ?_⟩
  have hnext : (s.push a).next a = s.head := by simp [Links.push]
  rw [hnext]
  refine h.congr fun x hx => ?_
  have hxa : x ≠ a := fun hxa => hal (hxa ▸ hx)
  simp [Links.push, hxa]

/-- Popping returns the first node and leaves the rest. -/
lemma Links.pop_isChain (h : IsChain s.next s.head (a :: l)) :
    s.pop.2 = a ∧ s.pop.1.next = s.next ∧ IsChain s.pop.1.next s.pop.1.head l := by
  obtain ⟨hh, ha, hl⟩ := h
  have hne : s.head ≠ 0 := hh ▸ ha
  refine ⟨?_, ?_, ?_⟩
  · simp [Links.pop, hh, ha]
  · simp [Links.pop, hne]
  · simpa [Links.pop, hh, ha] using hl

/-- The walk of `removeFrom`, started at a place whose link begins the chain `l`, finds `a` exactly
when it is on the chain and leaves the chain without it.  Only the link at the starting place and
those of the nodes of `l` can change. -/
lemma Links.removeFrom_spec (hl : l.Nodup) {c : Slot} (hc : ∀ x ∈ l, c ≠ .node x)
    (h : IsChain s.next (s.load c) l) {fuel : ℕ} (hf : l.length < fuel) :
    ∃ s', s.removeFrom a fuel c = some (s', decide (a ∈ l)) ∧
      IsChain s'.next (s'.load c) (l.erase a) ∧
      (∀ x, x ∉ l → c ≠ .node x → s'.next x = s.next x) ∧ (c ≠ .head → s'.head = s.head) ∧
      (a ∉ l → s' = s) := by
  induction l generalizing c fuel with
  | nil =>
    obtain ⟨fuel, rfl⟩ : ∃ k, fuel = k + 1 := ⟨fuel - 1, by simp at hf; omega⟩
    refine ⟨s, ?_, h, fun _ _ _ => rfl, fun _ => rfl, fun _ => rfl⟩
    rw [Links.removeFrom]
    simp [isChain_nil.mp h]
  | cons b l ih =>
    obtain ⟨fuel, rfl⟩ : ∃ k, fuel = k + 1 := ⟨fuel - 1, by simp at hf; omega⟩
    obtain ⟨hb, hb0, hbl⟩ := h
    obtain ⟨hbnot, hlnd⟩ := List.nodup_cons.mp hl
    rw [Links.removeFrom]
    simp only [hb, hb0, if_false]
    by_cases hba : b = a
    · -- the link at `c` points at the node: it is patched to skip it
      subst hba
      refine ⟨s.store c (s.next b), by simp, ?_, ?_, ?_, ?_⟩
      · rw [List.erase_cons_head]
        have hload : (s.store c (s.next b)).load c = s.next b := by
          cases c <;> simp [Links.store, Links.load]
        rw [hload]
        refine hbl.congr fun x hx => ?_
        have hcx : c ≠ .node x := hc x (List.mem_cons_of_mem _ hx)
        cases c with
        | head => rfl
        | node y =>
          have hxy : x ≠ y := fun hxy => hcx (by rw [hxy])
          simp [Links.store, hxy]
      · intro x _ hcx
        cases c with
        | head => rfl
        | node y =>
          have hxy : x ≠ y := fun hxy => hcx (by rw [hxy])
          simp [Links.store, hxy]
      · intro hch
        cases c with
        | head => exact absurd rfl hch
        | node y => rfl
      · intro hnot
        exact absurd List.mem_cons_self hnot
    · -- the walk goes on at the link of `b`
      rw [if_neg hba]
      have hcb : ∀ x ∈ l, Slot.node b ≠ .node x := by
        intro x hx hbx
        injection hbx with hbx
        exact hbnot (hbx ▸ hx)
      obtain ⟨s', hrun, hchain, hnext, hhead, hsame⟩ :=
        ih hlnd hcb hbl (by simpa using hf)
      have hmem : (a ∈ b :: l) ↔ a ∈ l := by
        simp only [List.mem_cons]
        exact ⟨fun h => h.resolve_left fun h => hba h.symm, Or.inr⟩
      refine ⟨s', ?_, ?_, ?_, ?_, ?_⟩
      · rw [hrun]
        simp [hmem]
      · rw [List.erase_cons_tail (by simpa using hba)]
        have hload : s'.load c = b := by
          rw [← hb]
          cases c with
          | head => exact hhead (by simp)
          | node y =>
            have hyb : y ≠ b := fun hyb => hc b List.mem_cons_self (by rw [hyb])
            refine hnext y (fun hy => hc y (List.mem_cons_of_mem _ hy) rfl) ?_
            intro hby
            injection hby with hby
            exact hyb hby.symm
        exact ⟨hload, hb0, hchain⟩
      · intro x hx _
        have hxb : Slot.node b ≠ .node x := by
          intro hbx
          injection hbx with hbx
          exact hx (hbx ▸ List.mem_cons_self)
        exact hnext x (fun hxl => hx (List.mem_cons_of_mem _ hxl)) hxb
      · intro _
        exact hhead (by simp)
      · intro hnot
        exact hsame fun hal => hnot (List.mem_cons_of_mem _ hal)

end LinkedList

end HyperBerry
