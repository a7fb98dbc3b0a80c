import HyperBerry.Pmm.Bitmap
import HyperBerry.Lib.Dyadic

/-!
# Free lists as lists of pages

`Lists base s free` relates the linked free lists of a state to one list of pages for each order:
following the links of order `o` visits the addresses of the pages `free o`.  The three list
operations are specified against it.  Lists of different orders share the link memory, so each
specification asks that the pages of the lists are distinct.
-/

namespace HyperBerry

open LinkedList

namespace Pmm

/-- The free list of every order holds the blocks at the given pages. -/
def Lists (base : ℕ) (s : Pmm) (free : ℕ → List ℕ) : Prop :=
  ∀ o ≤ maxOrder, IsChain s.next (s.freeLists o) ((free o).map (pageAddr base))

/-- Distinct pages have distinct addresses. -/
lemma pageAddr_injective (base : ℕ) : Function.Injective (pageAddr base) := by
  intro p q h
  unfold pageAddr pageSize at h
  omega

/-- An address is on a list of page addresses exactly when its page is on the list. -/
lemma mem_map_pageAddr {base p : ℕ} {l : List ℕ} :
    pageAddr base p ∈ l.map (pageAddr base) ↔ p ∈ l :=
  List.mem_map_of_injective (pageAddr_injective base)

@[simp] lemma setLinks_base (s : Pmm) (o : ℕ) (l : Links) : (s.setLinks o l).base = s.base := rfl
@[simp] lemma setLinks_size (s : Pmm) (o : ℕ) (l : Links) : (s.setLinks o l).size = s.size := rfl
@[simp] lemma setLinks_bitmap (s : Pmm) (o : ℕ) (l : Links) :
    (s.setLinks o l).bitmap = s.bitmap := rfl
@[simp] lemma listPush_base (s : Pmm) (a o : ℕ) : (s.listPush a o).base = s.base := rfl
@[simp] lemma listPush_size (s : Pmm) (a o : ℕ) : (s.listPush a o).size = s.size := rfl
@[simp] lemma listPush_bitmap (s : Pmm) (a o : ℕ) : (s.listPush a o).bitmap = s.bitmap := rfl

/-- Putting back an unchanged list changes nothing. -/
lemma setLinks_links (s : Pmm) (o : ℕ) : s.setLinks o (s.links o) = s := by
  simp [setLinks, links]

variable {base : ℕ} {s : Pmm} {free : ℕ → List ℕ} {o p : ℕ}

/-- Replacing one list keeps the others when their links are kept. -/
lemma Lists.setLinks (h : Lists base s free) {l : Links} {ps : List ℕ}
    (hl : IsChain l.next l.head (ps.map (pageAddr base)))
    (hframe : ∀ o' ≤ maxOrder, o' ≠ o → ∀ q ∈ free o',
      l.next (pageAddr base q) = s.next (pageAddr base q)) :
    Lists base (s.setLinks o l) (Function.update free o ps) := by
  intro o' ho'
  by_cases hoo : o' = o
  · subst hoo
    simpa [Pmm.setLinks] using hl
  · have hchain : IsChain l.next (s.freeLists o') ((free o').map (pageAddr base)) := by
      refine (h o' ho').congr fun x hx => ?_
      obtain ⟨q, hq, rfl⟩ := List.mem_map.mp hx
      exact hframe o' ho' hoo q hq
    simpa [Pmm.setLinks, hoo] using hchain

/-- Pushing a block that is on no list. -/
lemma Lists.push (h : Lists base s free) (ho : o ≤ maxOrder) (hp : pageAddr base p ≠ 0)
    (hnot : ∀ o' ≤ maxOrder, p ∉ free o') :
    Lists base (s.listPush (pageAddr base p) o) (Function.update free o (p :: free o)) := by
  refine h.setLinks ?_ ?_
  · rw [List.map_cons]
    exact Links.push_isChain (h o ho) hp (mt mem_map_pageAddr.mp (hnot o ho))
  · intro o' ho' _ q hq
    have hqp : pageAddr base q ≠ pageAddr base p := by
      intro hqp
      exact hnot o' ho' (pageAddr_injective base hqp ▸ hq)
    simp [Links.push, links, hqp]

/-- Pushing the block at address `0` empties the list. -/
lemma Lists.push_zero (h : Lists base s free) (hnot : ∀ o' ≤ maxOrder, ∀ q ∈ free o',
    pageAddr base q ≠ 0) : Lists base (s.listPush 0 o) (Function.update free o []) := by
  refine h.setLinks rfl ?_
  intro o' ho' _ q hq
  simp [Links.push, links, hnot o' ho' q hq]

/-- Popping takes the first block off the list. -/
lemma Lists.pop (h : Lists base s free) (ho : o ≤ maxOrder) {ps : List ℕ}
    (hfree : free o = p :: ps) : (s.listPop o).2 = pageAddr base p ∧
      Lists base (s.listPop o).1 (Function.update free o ps) := by
  have hchain := h o ho
  rw [hfree, List.map_cons] at hchain
  obtain ⟨haddr, hnext, hrest⟩ := Links.pop_isChain (s := s.links o) hchain
  refine ⟨haddr, h.setLinks hrest ?_⟩
  intro _ _ _ q _
  rw [hnext]
  rfl

/-- A walk along a free list ends within the bound on loops. -/
lemma Lists.length_lt (h : Lists base s free) (ho : o ≤ maxOrder) (hnd : (free o).Nodup)
    (hlt : ∀ q ∈ free o, pageAddr base q < 2 ^ 64) :
    ((free o).map (pageAddr base)).length < loopFuel := by
  rw [loopFuel]
  refine length_lt_of_nodup (hnd.map (pageAddr_injective base)) (h o ho).ne_zero fun x hx => ?_
  obtain ⟨q, hq, rfl⟩ := List.mem_map.mp hx
  exact hlt q hq

/-- Unlinking a block that is on the list. -/
lemma Lists.remove_of_mem (h : Lists base s free) (ho : o ≤ maxOrder) (hp : p ∈ free o)
    (hnd : (free o).Nodup) (hdisj : ∀ o' ≤ maxOrder, o' ≠ o → ∀ q ∈ free o', q ∉ free o)
    (hlt : ∀ q ∈ free o, pageAddr base q < 2 ^ 64) :
    ∃ l, s.listRemove (pageAddr base p) o = some (s.setLinks o l, true) ∧
      Lists base (s.setLinks o l) (Function.update free o ((free o).erase p)) := by
  have hchain := h o ho
  have hnd' : ((free o).map (pageAddr base)).Nodup := hnd.map (pageAddr_injective base)
  obtain ⟨l, hrun, hl, hnext, -, -⟩ := Links.removeFrom_spec (a := pageAddr base p)
    (s := s.links o) (c := .head) hnd' (by simp) hchain (h.length_lt ho hnd hlt)
  refine ⟨l, ?_, h.setLinks ?_ ?_⟩
  · simp [listRemove, hrun, mem_map_pageAddr.mpr hp]
  · rw [List.map_erase (pageAddr_injective base)]
    exact hl
  · intro o' ho' hoo q hq
    exact hnext _ (mt mem_map_pageAddr.mp (hdisj o' ho' hoo q hq)) (by simp)

/-- Looking for an address that is not on the list changes nothing. -/
lemma Lists.remove_of_not_mem (h : Lists base s free) (ho : o ≤ maxOrder) {a : ℕ}
    (ha : a ∉ (free o).map (pageAddr base)) (hnd : (free o).Nodup)
    (hlt : ∀ q ∈ free o, pageAddr base q < 2 ^ 64) :
    s.listRemove a o = some (s, false) := by
  have hchain := h o ho
  have hnd' : ((free o).map (pageAddr base)).Nodup := hnd.map (pageAddr_injective base)
  obtain ⟨l, hrun, -, -, -, hsame⟩ := Links.removeFrom_spec (a := a)
    (s := s.links o) (c := .head) hnd' (by simp) hchain (h.length_lt ho hnd hlt)
  have hl : l = s.links o := hsame ha
  subst hl
  simp [listRemove, hrun, ha, setLinks_links]

/-- The free list read off the links. -/
lemma Lists.freeList_eq (h : Lists base s free) (ho : o ≤ maxOrder) (hnd : (free o).Nodup)
    (hlt : ∀ q ∈ free o, pageAddr base q < 2 ^ 64) :
    nodes s.next loopFuel (s.freeLists o) = some ((free o).map (pageAddr base)) :=
  (h o ho).nodes_eq (h.length_lt ho hnd hlt)

end Pmm

end HyperBerry
