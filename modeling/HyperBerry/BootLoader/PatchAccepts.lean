import HyperBerry.BootLoader.PatchEffect
import HyperBerry.DeviceTree.Content

/-!
# The trees that the patcher accepts

`DtbPatcher::Run` keeps the depth, one flag for the root and one for the kind of the depth-1 node.
Here is the language that it accepts in this way: a valid header, and a structure block whose tokens
in front of the first end token tell a single tree, in which there is exactly one property for each
slot, of the right length.
-/

namespace HyperBerry

namespace BootLoader

open Memory DtbPatcher Walk
open DeviceTree hiding inBounds

variable {layout : GuestLayout} {blocks : Blocks} {s s' : Progress} {b e : ℕ}
  {l : List (ℕ × Token)} {path : List Name} {opened : Bool} {found : List Slot}

/-! ## Acceptance as a matter of events -/

/-- The slot of a property, with the length of its data. -/
def slotLength (p : PathProp) : Option (Slot × ℕ) :=
  (slotOf p.path p.name).map fun slot => (slot, p.value.length)

/-- The slots are each met once and with the right length, and none of those that have been filled.
-/
def SlotsOnce (found : List Slot) : List (Slot × ℕ) → Prop
  | [] => ∀ slot, slot ∈ found
  | (slot, length) :: rest =>
    (slot ∉ found ∧ length = slot.length) ∧ SlotsOnce (slot :: found) rest

/-- The patcher goes on over the tokens and returns true at their end. -/
def Accepts (path : List Name) (opened : Bool) (found : List Slot) (l : List (ℕ × Token)) : Prop :=
  (∀ p ∈ l, p.2 ≠ .finish) ∧ SingleRoot path opened (eventsIn l) ∧
    SlotsOnce found ((propsAt path (eventsIn l)).filterMap slotLength)

/-- Nothing is left to accept where the patcher returns true. -/
lemma accepts_nil : Accepts s.path s.hasRoot s.found [] ↔ s.Done := by
  refine ⟨fun ⟨_, hroot, hslots⟩ => ⟨hroot.1, hroot.2, fun slot _ => hslots slot⟩,
    fun ⟨hroot, hpath, hslots⟩ => ⟨by simp, ⟨hroot, hpath⟩, fun slot => hslots slot slot.mem_all⟩⟩

/-- Acceptance, one token on. -/
lemma accepts_cons (layout : GuestLayout) {t : Token} (a : ℕ)
    (hs : s.path ≠ [] → s.hasRoot = true) : Accepts s.path s.hasRoot s.found ((a, t) :: l) ↔
      s.Allows t ∧ Accepts (s.next layout t b).path (s.next layout t b).hasRoot
        (s.next layout t b).found l := by
  rw [Accepts, Accepts, List.forall_mem_cons]
  cases t with
  | beginNode name =>
    have hopened : (s.next layout (.beginNode name) b).hasRoot = true := by
      by_cases hpath : s.path = []
      · simp [Progress.next, hpath]
      · simp [Progress.next, hs hpath]
    rw [hopened]
    constructor
    · rintro ⟨⟨-, hfin⟩, ⟨hal, hroot⟩, hslots⟩
      exact ⟨hal, hfin, hroot, hslots⟩
    · rintro ⟨hal, hfin, hroot, hslots⟩
      exact ⟨⟨by simp, hfin⟩, ⟨hal, hroot⟩, hslots⟩
  | endNode =>
    constructor
    · rintro ⟨⟨-, hfin⟩, ⟨hal, hroot⟩, hslots⟩
      exact ⟨hal, hfin, hroot, hslots⟩
    · rintro ⟨hal, hfin, hroot, hslots⟩
      exact ⟨⟨by simp, hfin⟩, ⟨hal, hroot⟩, hslots⟩
  | nop =>
    constructor
    · rintro ⟨⟨-, hfin⟩, hroot, hslots⟩
      exact ⟨trivial, hfin, hroot, hslots⟩
    · rintro ⟨-, hfin, hroot, hslots⟩
      exact ⟨⟨by simp, hfin⟩, hroot, hslots⟩
  | finish =>
    constructor
    · rintro ⟨⟨hne, -⟩, -⟩
      exact absurd rfl hne
    · rintro ⟨hal, -⟩
      exact absurd hal id
  | prop nameOff name value =>
    have hprops : propsAt s.path (eventsIn ((a, .prop nameOff name value) :: l)) =
        ⟨s.path, name, value⟩ :: propsAt s.path (eventsIn l) := rfl
    have hallows : s.Allows (.prop nameOff name value) ↔ s.path ≠ [] ∧
        ∀ slot ∈ slotOf s.path name, slot ∉ s.found ∧ value.length = slot.length := Iff.rfl
    rw [hprops, hallows, List.filterMap_cons, Progress.next_found]
    -- the property fills a slot, or none
    cases hslot : slotOf s.path name with
    | none =>
      have hnone : slotLength ⟨s.path, name, value⟩ = none := by simp [slotLength, hslot]
      have hsite : siteOf s.path (.prop nameOff name value) = none := hslot
      rw [hnone, hsite]
      constructor
      · rintro ⟨⟨-, hfin⟩, ⟨hal, hroot⟩, hslots⟩
        exact ⟨⟨hal, by simp⟩, hfin, hroot, hslots⟩
      · rintro ⟨⟨hal, -⟩, hfin, hroot, hslots⟩
        exact ⟨⟨by simp, hfin⟩, ⟨hal, hroot⟩, hslots⟩
    | some slot =>
      have hsome : slotLength ⟨s.path, name, value⟩ = some (slot, value.length) := by
        simp [slotLength, hslot]
      have hsite : siteOf s.path (.prop nameOff name value) = some slot := hslot
      rw [hsome, hsite]
      constructor
      · rintro ⟨⟨-, hfin⟩, ⟨hal, hroot⟩, hone, hslots⟩
        exact ⟨⟨hal, by simpa using hone⟩, hfin, hroot, hslots⟩
      · rintro ⟨⟨hal, hone⟩, hfin, hroot, hslots⟩
        exact ⟨⟨by simp, hfin⟩, ⟨hal, hroot⟩, by simpa using hone, hslots⟩

/-- Below a node, the root has been opened. -/
lemma hasRoot_next (layout : GuestLayout) {t : Token} (hs : s.path ≠ [] → s.hasRoot = true)
    (hal : s.Allows t) :
    (s.next layout t b).path ≠ [] → (s.next layout t b).hasRoot = true := by
  intro hpath
  cases t with
  | beginNode name =>
    by_cases hnil : s.path = []
    · simp [Progress.next, hnil]
    · simp [Progress.next, hs hnil]
  | endNode => exact hs hal
  | prop | nop => exact hs hpath
  | finish => exact absurd hal id

/-- The patcher that returns true has met tokens that are accepted. -/
lemma Reaches.accepts (h : Reaches layout blocks s l s') (hs : s.path ≠ [] → s.hasRoot = true)
    (hdone : s'.Done) : Accepts s.path s.hasRoot s.found l := by
  induction h with
  | refl => exact accepts_nil.mpr hdone
  | step ht hal _ ih =>
    exact (accepts_cons layout _ hs).mpr ⟨hal, ih (hasRoot_next layout hs hal) hdone⟩

/-- The patcher goes through tokens that are accepted, although it writes into them. -/
lemma exists_reaches (layout : GuestLayout) (h : Tokens (blocks.blob s.mem) s.cursor l e)
    (hready : s.Ready blocks)
    (hs : s.path ≠ [] → s.hasRoot = true) (haccepts : Accepts s.path s.hasRoot s.found l) :
    ∃ s', Reaches layout blocks s l s' ∧ s'.cursor = e ∧ s'.Done := by
  induction l generalizing s with
  | nil =>
    cases h
    exact ⟨s, .refl s, rfl, accepts_nil.mp haccepts⟩
  | cons p l ih =>
    cases h with
    | @cons _ c _ t _ ht hrest =>
      obtain ⟨hal, hnext⟩ := (accepts_cons layout s.cursor hs).mp haccepts
      have hready' := hready.next layout ht hal
      -- nothing is written at the next token or behind it
      have htokens : Tokens (blocks.blob (s.next layout t c).mem) c l e :=
        tokens_congr hrest ⟨rfl, rfl, rfl, next_names layout hready ht hal⟩
          fun i hlo _ => next_mem_eq layout ht hal (.inr (.inl hlo))
      obtain ⟨s', hreach, hcursor, hdone⟩ := ih htokens hready' (hasRoot_next layout hs hal) hnext
      exact ⟨s', .step ht hal hreach, hcursor, hdone⟩

/-! ## Slots that are met once -/

/-- Each slot is met once, unless it has been filled. -/
lemma slotsOnce_iff {found : List Slot} {slots : List (Slot × ℕ)} :
    SlotsOnce found slots ↔ ∀ slot, slots.filter (fun x => x.1 = slot) =
      if slot ∈ found then [] else [(slot, slot.length)] := by
  induction slots generalizing found with
  | nil => 
    simp [SlotsOnce]
  | cons x slots ih =>
    obtain ⟨slot, length⟩ := x
    rw [SlotsOnce, ih]
    constructor
    · rintro ⟨⟨hnew, rfl⟩, hrest⟩ slot'
      have h := hrest slot'
      by_cases heq : slot = slot'
      · subst heq
        rw [if_pos List.mem_cons_self] at h
        rw [List.filter_cons_of_pos (by simp), h, if_neg hnew]
      · rw [List.filter_cons_of_neg (by simpa using heq), h]
        simp [Ne.symm heq]
    · intro h
      have hself := h slot
      rw [List.filter_cons_of_pos (by simp)] at hself
      split at hself
      case isTrue => cases hself
      case isFalse hnew =>
        obtain ⟨hhead, hnone⟩ := List.cons.inj hself
        refine ⟨⟨hnew, congrArg Prod.snd hhead⟩, fun slot' => ?_⟩
        by_cases heq : slot = slot'
        · subst heq
          rw [hnone, if_pos List.mem_cons_self]
        · have h' := h slot'
          rw [List.filter_cons_of_neg (by simpa using heq)] at h'
          rw [h']
          simp [Ne.symm heq]

/-! ## The slots of a tree -/

/-- The properties of a tree that fill a slot: those directly in a depth-1 node of the right kind,
with the name of the slot. -/
def slotProps (slot : Slot) (content : List Content) : List (Name × Property) :=
  (depthOneProps content).filter fun q => kindOf q.1 = slot.node ∧ q.2.name = slot.name

/-- The properties that fill a slot, among properties with their paths. -/
lemma filter_filterMap_slotLength (slot : Slot) (ps : List PathProp) :
    (ps.filterMap slotLength).filter (fun x => x.1 = slot) =
      ((ps.filter fun p => p.path.length = 2).filter fun p =>
        slotOf p.path p.name = some slot).map fun p => (slot, p.value.length) := by
  induction ps with
  | nil => rfl
  | cons p ps ih =>
    rw [List.filterMap_cons]
    cases hslot : slotOf p.path p.name with
    | none =>
      have hnone : slotLength p = none := by simp [slotLength, hslot]
      rw [hnone, ih, List.filter_cons]
      split
      · rw [List.filter_cons_of_neg (by simp [hslot])]
      · rfl
    | some slot' =>
      have hsome : slotLength p = some (slot', p.value.length) := by simp [slotLength, hslot]
      have hlen := (of_slotOf_eq_some hslot).1
      rw [hsome, List.filter_cons_of_pos (p := fun p : PathProp => decide (p.path.length = 2))
        (by simpa using hlen)]
      by_cases heq : slot' = slot
      · subst heq
        rw [List.filter_cons_of_pos (by simp), List.filter_cons_of_pos (by simp [hslot]), ih,
          List.map_cons]
      · rw [List.filter_cons_of_neg (by simpa using heq),
          List.filter_cons_of_neg (by simpa [hslot] using heq), ih]

/-- The slot of a property of a depth-1 node. -/
lemma slotOf_node {root node name : Name} {slot : Slot} :
    slotOf [root, node] name = some slot ↔ kindOf node = slot.node ∧ name = slot.name := by
  constructor
  · intro h
    obtain ⟨-, hnode, hname⟩ := of_slotOf_eq_some h
    exact ⟨hnode.symm, hname⟩
  · rintro ⟨hnode, rfl⟩
    exact slotOf_eq_some rfl hnode.symm

/-- The slots that the patcher meets in a tree. -/
lemma filter_slotLength (slot : Slot) (content : List Content) :
    ((contentPathProps [[]] content).filterMap slotLength).filter (fun x => x.1 = slot) =
      (slotProps slot content).map fun q => (slot, q.2.value.length) := by
  rw [filter_filterMap_slotLength, filter_length_two, List.filter_map, List.map_map, slotProps]
  congr 1
  refine List.filter_congr fun q _ => ?_
  rw [Function.comp_apply, decide_eq_decide]
  exact slotOf_node

/-- The tokens that are accepted are those of a tree with its slots. -/
lemma accepts_iff : Accepts [] false [] l ↔ (∀ p ∈ l, p.2 ≠ .finish) ∧
    ∃ content, eventsIn l = (Content.node [] content).events ∧
      ∀ slot, ∃ q, slotProps slot content = [q] ∧ q.2.value.length = slot.length := by
  rw [Accepts, singleRoot_iff]
  refine and_congr_right fun _ => ?_
  have hslots (content : List Content) :
      SlotsOnce [] ((propsAt [] (Content.node [] content).events).filterMap slotLength) ↔
        ∀ slot, ∃ q, slotProps slot content = [q] ∧ q.2.value.length = slot.length := by
    have hprops := propsAt_content [] [] (Content.node [] content)
    rw [List.append_nil, propsAt, List.append_nil, Content.pathProps, List.nil_append] at hprops
    rw [hprops, slotsOnce_iff]
    refine forall_congr' fun slot => ?_
    rw [filter_slotLength, if_neg List.not_mem_nil, List.map_eq_singleton_iff]
    refine exists_congr fun q => and_congr_right fun _ => ?_
    rw [Prod.mk.injEq]
    exact and_iff_right rfl
  constructor
  · rintro ⟨⟨content, hevents⟩, honce⟩
    rw [hevents] at honce
    exact ⟨content, hevents, (hslots content).mp honce⟩
  · rintro ⟨content, hevents, honce⟩
    rw [hevents]
    exact ⟨⟨content, rfl⟩, (hslots content).mpr honce⟩

/-! ## The whole run -/

/-- A run that returns true has gone over tokens that are accepted. -/
lemma accepts_of_run {m m' : Memory} {size : ℕ} (hsize : layout.dtbSize = size)
    (hread : ∀ i < size, (m i).isSome) (hrun : run layout m = .ok (true, m')) :
    ∃ f l e, PatchHeader m size f ∧ Tokens ((headerBlocks f).blob m) (f .structOff) l e ∧
      TokenAt ((headerBlocks f).blob m) e .finish (e + 4) ∧ Accepts [] false [] l := by
  rcases readHeader_cases hread with ⟨f, hf, hheader⟩ | ⟨hheader, -⟩
  · have hs := hf.ready hread
    have hfuel : (headerBlocks f).structEnd < (Progress.start f m).cursor + loopFuel := by
      have hlt := hs.structEnd_lt
      rw [loopFuel]
      omega
    rw [run_eq_loop hsize hheader] at hrun
    obtain ⟨l, s', hreach, ⟨⟨b, hfin⟩, hloop⟩ | hloop⟩ :=
      loop_cases layout hs (by rw [loopFuel]; norm_num) hfuel
    · rw [hloop] at hrun
      have hdone : s'.Done := by
        have hpair := Except.ok.inj hrun
        exact of_decide_eq_true (congrArg Prod.fst hpair)
      have heffect := hreach.effect hf hread hfin hdone
      exact ⟨f, l, s'.cursor, hf, heffect.tokens, heffect.finish,
        hreach.accepts (fun hne => absurd rfl hne) hdone⟩
    · rw [hloop] at hrun
      cases hrun
  · rw [run, hsize, hheader] at hrun
    cases hrun

/-- A run over tokens that are accepted returns true. -/
lemma run_of_accepts {m : Memory} {size : ℕ} {f : HeaderField → ℕ} (hsize : layout.dtbSize = size)
    (hread : ∀ i < size, (m i).isSome) (hf : PatchHeader m size f)
    (htokens : Tokens ((headerBlocks f).blob m) (f .structOff) l e)
    (hfin : TokenAt ((headerBlocks f).blob m) e .finish (e + 4))
    (haccepts : Accepts [] false [] l) : ∃ m', run layout m = .ok (true, m') := by
  have hs := hf.ready hread
  have hheader : readHeader m size = .ok (some (headerBlocks f)) := by
    rcases readHeader_cases hread with ⟨f', hf', hheader⟩ | ⟨-, hno⟩
    · rw [hheader, hf'.unique hf]
    · exact absurd hf (hno f)
  obtain ⟨s', hreach, rfl, hdone⟩ := exists_reaches layout (s := Progress.start f m) htokens hs
    (fun hne => absurd rfl hne) haccepts
  have hfin' : TokenAt ((headerBlocks f).blob s'.mem) s'.cursor .finish (s'.cursor + 4) :=
    hfin.congr ⟨rfl, rfl, rfl, hreach.names hs⟩ fun i hlo _ => hreach.mem_eq_of_le hlo
  have hlen := length_le_of_tokens htokens
  have hend : s'.cursor + 4 ≤ (headerBlocks f).structEnd := hfin.add_four_le
  have hlt := hs.structEnd_lt
  have hfuel : l.length < loopFuel := by
    rw [loopFuel]
    omega
  have hloop := loop_of_reaches hreach hs hfin' hfuel
  refine ⟨s'.mem, ?_⟩
  rw [run_eq_loop hsize hheader, hloop, decide_eq_true hdone]

/-- `DtbPatcher::Run` on a buffer of any content returns true exactly when the header is valid and
the structure block, up to its first end token, tells a single tree whose root has an empty name, in
which there is exactly one property for each slot, of the length of the slot. -/
theorem run_accepts_iff (layout : GuestLayout) (bytes : List UInt8) :
    (∃ m', run { layout with dtbSize := bytes.length } (fun i => bytes[i]?) = .ok (true, m')) ↔
      ∃ f l e content, PatchHeader (fun i => bytes[i]?) bytes.length f ∧
        Tokens ((headerBlocks f).blob fun i => bytes[i]?) (f .structOff) l e ∧
        TokenAt ((headerBlocks f).blob fun i => bytes[i]?) e .finish (e + 4) ∧
        (∀ p ∈ l, p.2 ≠ .finish) ∧ eventsIn l = (Content.node [] content).events ∧
        ∀ slot, ∃ q, slotProps slot content = [q] ∧ q.2.value.length = slot.length := by
  have hread : ∀ i < bytes.length, (bytes[i]?).isSome := fun i hi => by simp [hi]
  constructor
  · rintro ⟨m', hrun⟩
    obtain ⟨f, l, e, hf, htokens, hfin, haccepts⟩ := accepts_of_run rfl hread hrun
    obtain ⟨hne, content, hevents, hslots⟩ := accepts_iff.mp haccepts
    exact ⟨f, l, e, content, hf, htokens, hfin, hne, hevents, hslots⟩
  · rintro ⟨f, l, e, content, hf, htokens, hfin, hne, hevents, hslots⟩
    exact run_of_accepts rfl hread hf htokens hfin (accepts_iff.mpr ⟨hne, content, hevents, hslots⟩)

end BootLoader

end HyperBerry
