import HyperBerry.DeviceTree.Decode

/-!
# Devices in a tree

What `FindDevice` computes, said about the tree and not about its bytes.  A `Tree` is a node with
its properties and its subnodes; `events` lists what a structure block tells about it, and a blob
`Serialises` a tree when its tokens tell the same, whatever NOPs lie between them and wherever the
names lie in the strings block.  `Tree.findDevice` goes through the nodes in the order in which they
are completed and decodes the first device; the walk over the blob returns the same.
-/

namespace HyperBerry

namespace DeviceTree

open Memory Walk

/-! ## Trees -/

/-- Names and texts are compared byte by byte. -/
instance lawfulBEq_bytes : LawfulBEq (List UInt8) := inferInstance

/-- A property of a node. -/
structure Property where
  name : Name
  value : List UInt8
deriving DecidableEq

/-- A node with its properties and its subnodes. -/
inductive Tree
  | node (name : Name) (props : List Property) (children : List Tree)

/-- What a token tells about the tree. -/
inductive Event
  /-- A node opens. -/
  | opens (name : Name)
  /-- The innermost open node has a property. -/
  | has (p : Property)
  /-- The innermost open node closes. -/
  | closes
deriving DecidableEq

mutual

/-- The events of a node: its properties come before its subnodes. -/
def Tree.events : Tree → List Event
  | .node name props children => .opens name :: (props.map .has ++ (eventsOf children ++ [.closes]))

/-- The events of some nodes. -/
def eventsOf : List Tree → List Event
  | [] => []
  | t :: ts => t.events ++ eventsOf ts

end

mutual

/-- The number of nodes on the longest path down. -/
def Tree.height : Tree → ℕ
  | .node _ _ children => heightOf children + 1

/-- The height of the tallest of some nodes. -/
def heightOf : List Tree → ℕ
  | [] => 0
  | t :: ts => max t.height (heightOf ts)

end

/-- The properties of a node and of the nodes around it, from the node outwards. -/
abbrev Scope := List (List Property)

mutual

/-- The nodes of a tree in the order in which they are completed, below the given ones. -/
def Tree.completed (around : Scope) : Tree → List Scope
  | .node _ props children => completedOf (props :: around) children ++ [props :: around]

/-- The nodes of some trees in the order in which they are completed. -/
def completedOf (around : Scope) : List Tree → List Scope
  | [] => []
  | t :: ts => t.completed around ++ completedOf around ts

end

/-! ## The properties of a node -/

/-- The value of a property with at least the given number of bytes; the last one counts. -/
def valueOf (name : Name) (size : ℕ) (props : List Property) : Option (List UInt8) :=
  (props.reverse.find? fun p => p.name = name ∧ size ≤ p.value.length).map Property.value

/-- The first cell of a property, or a default. -/
def cellOf (name : Name) (default : ℕ) (props : List Property) : ℕ :=
  ((valueOf name 4 props).map fun value => beNat (value.take 4)).getD default

/-- What `FindDevice` is to know about a node. -/
def levelOf (devices : List (List UInt8)) (props : List Property) : Level where
  addressCells := cellOf kAddressCells 2 props
  sizeCells := cellOf kSizeCells 1 props
  ranges := (valueOf kRanges 0 props).getD []
  matched := ((valueOf kCompatible 1 props).map fun value =>
    decide (IsCompatible devices value)).getD false
  reg := (valueOf kReg 0 props).getD []

/-- The innermost node has a compatible list with one of the devices, and a `reg` that is not empty
and a whole number of entries under the cells of its parent. -/
def IsWholeDevice : List Level → Prop
  | [] => False
  | level :: around => level.matched = true ∧ level.reg ≠ [] ∧ 0 < regCellCount around ∧
      4 * regCellCount around ∣ level.reg.length

instance : (levels : List Level) → Decidable (IsWholeDevice levels)
  | [] => instDecidableFalse
  | _ :: _ => inferInstanceAs (Decidable (_ ∧ _))

/-- The first device in the order of completion, with the nodes around it. -/
def Tree.device (devices : List (List UInt8)) (t : Tree) : Option (List Level) :=
  ((t.completed []).map fun scope => scope.map (levelOf devices)).find? fun levels =>
    IsWholeDevice levels

/-- The first device in the order of completion, with its first eight regions in the address space
of the processor. -/
def Tree.findDevice (devices : List (List UInt8)) (t : Tree) : DeviceNode :=
  deviceNode (t.device devices)

/-- A tree as the parser expects it. -/
structure Tree.Ordinary (t : Tree) : Prop where
  /-- At most sixteen nodes are open at the same time. -/
  height : t.height ≤ maxDepth
  /-- The cell counts are at most four. -/
  cells : ∀ scope ∈ t.completed [], ∀ props ∈ scope,
    cellOf kAddressCells 2 props ≤ 4 ∧ cellOf kSizeCells 1 props ≤ 4
  /-- The values of `reg` and `ranges` are whole cells. -/
  whole : ∀ scope ∈ t.completed [], ∀ props ∈ scope, ∀ p ∈ props,
    p.name = kReg ∨ p.name = kRanges → 4 ∣ p.value.length

/-! ## Serialisations -/

/-- What a token tells; NOPs and the end of the block tell nothing. -/
def Token.event : Token → Option Event
  | .beginNode name => some (.opens name)
  | .endNode => some .closes
  | .prop _ name value => some (.has ⟨name, value⟩)
  | .nop => none
  | .finish => none

/-- What some tokens tell. -/
def eventsIn (l : List (ℕ × Token)) : List Event := l.filterMap fun p => p.2.event

/-- A blob at `dtb` whose structure block, aligned and behind the header, tells about a tree. -/
structure Serialises (m : Memory) (dtb : ℕ) (t : Tree) : Prop where
  exists_tokens : ∃ f l last, ValidHeader m dtb f ∧ fdtHeaderSize ≤ f .structOff ∧
    4 ∣ dtb + f .structOff ∧
    Tokens (blobOf m dtb f) (dtb + f .structOff) (l ++ [(last, .finish)])
      (blobOf m dtb f).structEnd ∧
    (∀ p ∈ l, p.2 ≠ .finish) ∧ eventsIn l = t.events

/-! ## Nodes that are open -/

section Open

variable {devices : List (List UInt8)} {path : List Name} {levels : List Level}
variable {l : List (ℕ × Token)} {last : ℕ} {rest : List Event}

/-- The levels of the open nodes after an event. -/
def levelsAt (devices : List (List UInt8)) : List Level → Event → List Level
  | levels, .opens _ => {} :: levels
  | [], .has _ => []
  | level :: around, .has p => level.set devices p.name p.value :: around
  | levels, .closes => levels.tail

/-- The levels at the end of the first node that closes as a device. -/
def deviceIn (devices : List (List UInt8)) (levels : List Level) : List Event → Option (List Level)
  | [] => none
  | e :: rest =>
    if e = .closes ∧ IsDevice levels then some levels
    else deviceIn devices (levelsAt devices levels e) rest

/-- The device is a matter of the events. -/
lemma deviceLevels_eq : deviceLevels devices levels l = deviceIn devices levels (eventsIn l) := by
  induction l generalizing levels with
  | nil => rfl
  | cons p l ih =>
    obtain ⟨a, t⟩ := p
    rw [deviceLevels, eventsIn, List.filterMap_cons]
    cases t with
    | beginNode name => exact (if_neg (by simp)).trans (ih.trans (if_neg (by simp)).symm)
    | endNode =>
      simp only [Token.event, deviceIn, true_and]
      rw [ih]
      rfl
    | prop nameOff name value =>
      refine (if_neg (by simp)).trans (ih.trans (.trans ?_ (if_neg (by simp)).symm))
      cases levels <;> rfl
    | nop => exact (if_neg (by simp)).trans ih
    | finish => exact (if_neg (by simp)).trans ih

/-- The properties of a node, one after the other. -/
lemma deviceIn_props (level : Level) (props : List Property) :
    deviceIn devices (level :: levels) (props.map .has ++ rest) =
      deviceIn devices
        (props.foldl (fun level p => level.set devices p.name p.value) level :: levels) rest := by
  induction props generalizing level with
  | nil => rfl
  | cons p props ih =>
    rw [List.map_cons, List.cons_append, deviceIn, if_neg (by simp), levelsAt, ih, List.foldl_cons]

/-- The level of a node with the given properties. -/
def foldLevel (devices : List (List UInt8)) (props : List Property) : Level :=
  props.foldl (fun level p => level.set devices p.name p.value) {}

mutual

/-- The events of a node give the first device among its nodes, in the order of completion. -/
theorem deviceIn_events (scope : Scope) (rest : List Event) :
    (t : Tree) → deviceIn devices (scope.map (foldLevel devices)) (t.events ++ rest) =
      (((t.completed scope).map fun scope => scope.map (foldLevel devices)).find? fun levels =>
        IsDevice levels).or (deviceIn devices (scope.map (foldLevel devices)) rest)
  | .node name props children => by
    rw [Tree.events, Tree.completed, List.cons_append, deviceIn, if_neg (by simp), levelsAt,
      List.append_assoc, deviceIn_props, List.append_assoc]
    have hchildren := deviceIn_eventsOf (props :: scope) ([.closes] ++ rest) children
    rw [List.map_cons] at hchildren
    rw [← foldLevel, hchildren, List.map_append, List.find?_append, Option.or_assoc]
    congr 1
    rw [List.singleton_append, deviceIn, List.map_singleton]
    by_cases hdevice : IsDevice (foldLevel devices props :: scope.map (foldLevel devices))
    · rw [if_pos ⟨rfl, hdevice⟩, List.find?_cons_of_pos (by simpa using hdevice)]
      rfl
    · rw [if_neg fun h => hdevice h.2, List.find?_cons_of_neg (by simpa using hdevice)]
      rfl

/-- The events of some nodes. -/
theorem deviceIn_eventsOf (scope : Scope) (rest : List Event) :
    (ts : List Tree) → deviceIn devices (scope.map (foldLevel devices)) (eventsOf ts ++ rest) =
      (((completedOf scope ts).map fun scope => scope.map (foldLevel devices)).find? fun levels =>
        IsDevice levels).or (deviceIn devices (scope.map (foldLevel devices)) rest)
  | [] => by simp [eventsOf, completedOf]
  | t :: ts => by
    rw [eventsOf, completedOf, List.append_assoc, deviceIn_events, deviceIn_eventsOf,
      List.map_append, List.find?_append, Option.or_assoc]

end

/-- The path of the open nodes after an event. -/
def pathAt (path : List Name) : Event → List Name
  | .opens name => path ++ [name]
  | .has _ => path
  | .closes => path.dropLast

/-- The events close what they open. -/
def Closes (path : List Name) : List Event → Prop
  | [] => path = []
  | e :: rest => (e = .closes → path ≠ []) ∧ Closes (pathAt path e) rest

/-- The largest number of open nodes. -/
def deepest (path : List Name) : List Event → ℕ
  | [] => path.length
  | e :: rest => max path.length (deepest (pathAt path e) rest)

/-- The path is never longer than the largest number of open nodes. -/
lemma length_le_deepest (path : List Name) (rest : List Event) :
    path.length ≤ deepest path rest := by
  cases rest with
  | nil => exact le_rfl
  | cons e rest => exact le_max_left _ _

/-- Tokens are balanced when their events close what they open. -/
lemma balanced_of_closes (hl : ∀ p ∈ l, p.2 ≠ .finish) (h : Closes path (eventsIn l)) :
    Balanced path (l ++ [(last, .finish)]) := by
  induction l generalizing path with
  | nil => exact ⟨h, rfl⟩
  | cons p l ih =>
    obtain ⟨a, t⟩ := p
    obtain ⟨hfin, htail⟩ := List.forall_mem_cons.mp hl
    cases t with
    | beginNode name => exact ih htail h.2
    | endNode => exact ⟨h.1 rfl, ih htail h.2⟩
    | prop nameOff name value => exact ih htail h.2
    | nop => exact ih htail h
    | finish => exact absurd rfl hfin

/-- The nesting of tokens is that of their events. -/
lemma nesting_eq_deepest : nesting path (l ++ [(last, .finish)]) = deepest path (eventsIn l) := by
  induction l generalizing path with
  | nil => exact max_self _
  | cons p l ih =>
    obtain ⟨a, t⟩ := p
    rw [List.cons_append, nesting, ih]
    cases t with
    | beginNode name => rfl
    | endNode => rfl
    | prop nameOff name value => rfl
    | nop => exact max_eq_right (length_le_deepest _ _)
    | finish => exact max_eq_right (length_le_deepest _ _)

/-- Properties open and close nothing. -/
lemma closes_props (props : List Property) :
    Closes path (props.map .has ++ rest) ↔ Closes path rest := by
  induction props with
  | nil => rfl
  | cons p props ih =>
    rw [List.map_cons, List.cons_append, Closes, pathAt, ih]
    simp

/-- Properties are no deeper than their node. -/
lemma deepest_props (props : List Property) :
    deepest path (props.map .has ++ rest) = deepest path rest := by
  induction props with
  | nil => rfl
  | cons p props ih =>
    rw [List.map_cons, List.cons_append, deepest, pathAt, ih]
    exact max_eq_right (length_le_deepest _ _)

mutual

/-- The events of a node close what they open. -/
theorem closes_events (path : List Name) (rest : List Event) :
    (t : Tree) → (Closes path (t.events ++ rest) ↔ Closes path rest)
  | .node name props children => by
    rw [Tree.events, List.cons_append, Closes, List.append_assoc, closes_props, List.append_assoc,
      pathAt, closes_eventsOf, List.singleton_append, Closes, pathAt, List.dropLast_concat]
    simp

/-- The events of some nodes close what they open. -/
theorem closes_eventsOf (path : List Name) (rest : List Event) :
    (ts : List Tree) → (Closes path (eventsOf ts ++ rest) ↔ Closes path rest)
  | [] => Iff.rfl
  | t :: ts => by
    rw [eventsOf, List.append_assoc, closes_events, closes_eventsOf]

end

mutual

/-- A node is as deep as it is tall. -/
theorem deepest_events (path : List Name) (rest : List Event) : (t : Tree) →
    deepest path (t.events ++ rest) = max (path.length + t.height) (deepest path rest)
  | .node name props children => by
    have hle := length_le_deepest path rest
    rw [Tree.events, List.cons_append, deepest, List.append_assoc, deepest_props, List.append_assoc,
      pathAt, deepest_eventsOf, List.singleton_append, deepest, pathAt, List.dropLast_concat,
      Tree.height, List.length_append, List.length_singleton]
    omega

/-- Some nodes are as deep as the tallest of them. -/
theorem deepest_eventsOf (path : List Name) (rest : List Event) : (ts : List Tree) →
    deepest path (eventsOf ts ++ rest) = max (path.length + heightOf ts) (deepest path rest)
  | [] => by
    have hle := length_le_deepest path rest
    rw [eventsOf, heightOf, List.nil_append]
    omega
  | t :: ts => by
    rw [eventsOf, heightOf, List.append_assoc, deepest_events, deepest_eventsOf]
    omega

end

/-- Tokens that tell about a tree are balanced. -/
lemma balanced_of_events {t : Tree} (hl : ∀ p ∈ l, p.2 ≠ .finish) (h : eventsIn l = t.events) :
    Balanced [] (l ++ [(last, .finish)]) := by
  refine balanced_of_closes hl ?_
  rw [h, ← List.append_nil t.events, closes_events]
  rfl

/-- Tokens that tell about a tree are nested as deep as the tree is tall. -/
lemma nesting_of_events {t : Tree} (h : eventsIn l = t.events) :
    nesting [] (l ++ [(last, .finish)]) = t.height := by
  rw [nesting_eq_deepest, h, ← List.append_nil t.events, deepest_events]
  simp [deepest]

end Open

/-! ## The level of a node -/

/-- The value of a property, after one more property. -/
lemma valueOf_append (name : Name) (size : ℕ) (props : List Property) (p : Property) :
    valueOf name size (props ++ [p]) =
      if p.name = name ∧ size ≤ p.value.length then some p.value else valueOf name size props := by
  rw [valueOf, valueOf, List.reverse_append, List.reverse_singleton, List.singleton_append,
    List.find?_cons]
  by_cases h : p.name = name ∧ size ≤ p.value.length
  · simp [h]
  · simp [h]

/-- Whole cells stay whole. -/
lemma wholeCells_eq {xs : List UInt8} (h : 4 ∣ xs.length) : wholeCells xs = xs := by
  rw [wholeCells, Nat.div_mul_cancel h, List.take_length]

/-- The names of the bus properties are different. -/
lemma busNames_ne : kSizeCells ≠ kAddressCells ∧ kRanges ≠ kAddressCells ∧ kRanges ≠ kSizeCells ∧
    kReg ≠ kAddressCells ∧ kReg ≠ kSizeCells ∧ kReg ≠ kRanges ∧ kCompatible ≠ kAddressCells ∧
    kCompatible ≠ kSizeCells ∧ kCompatible ≠ kRanges ∧ kCompatible ≠ kReg := by decide

/-- The slot of a node holds the values of its properties. -/
lemma foldLevel_eq (devices : List (List UInt8)) (props : List Property)
    (hwhole : ∀ p ∈ props, p.name = kReg ∨ p.name = kRanges → 4 ∣ p.value.length) :
    foldLevel devices props = levelOf devices props := by
  obtain ⟨h₁, h₂, h₃, h₄, h₅, h₆, h₇, h₈, h₉, h₁₀⟩ := busNames_ne
  induction props using List.reverseRecOn with
  | nil => rfl
  | append_singleton props p ih =>
    have hprops := ih fun q hq => hwhole q (List.mem_append_left _ hq)
    have hp := hwhole p (List.mem_append_right _ List.mem_cons_self)
    rw [foldLevel] at hprops
    rw [foldLevel, List.foldl_append, hprops, List.foldl_cons, List.foldl_nil]
    simp only [levelOf, cellOf, valueOf_append]
    unfold Level.set
    by_cases haddr : p.name = kAddressCells
    · by_cases hlen : 4 ≤ p.value.length
      · simp [haddr, hlen, h₁.symm, h₂.symm, h₄.symm, h₇.symm]
      · simp [haddr, hlen, h₁.symm, h₂.symm, h₄.symm, h₇.symm]
    by_cases hsize : p.name = kSizeCells
    · by_cases hlen : 4 ≤ p.value.length
      · simp [hsize, hlen, h₁, h₃.symm, h₅.symm, h₈.symm]
      · simp [hsize, hlen, h₁, h₃.symm, h₅.symm, h₈.symm]
    by_cases hranges : p.name = kRanges
    · simp [hranges, h₂, h₃, h₆.symm, h₉.symm, wholeCells_eq (hp (.inr hranges))]
    by_cases hreg : p.name = kReg
    · simp [hreg, h₄, h₅, h₆, h₁₀.symm, wholeCells_eq (hp (.inl hreg))]
    by_cases hcompatible : p.name = kCompatible
    · by_cases hlen : p.value = []
      · simp [hcompatible, hlen, h₇, h₈, h₉, h₁₀]
      · have hpos : 1 ≤ p.value.length := List.length_pos_iff.mpr hlen
        simp [hcompatible, hlen, hpos, h₇, h₈, h₉, h₁₀]
    · simp [haddr, hsize, hranges, hreg, hcompatible]

/-! ## No entry is too long -/

/-- A property lies in the structure block. -/
lemma length_le_of_prop_mem {B : Blob} {a b c nameOff : ℕ} {name : Name} {value : List UInt8}
    {l : List (ℕ × Token)} (h : Tokens B a l c) (hmem : (b, .prop nameOff name value) ∈ l) :
    a + 12 + value.length ≤ B.structEnd := by
  induction h with
  | nil => cases hmem
  | cons ht _ ih =>
    rcases List.mem_cons.mp hmem with heq | hmem
    · obtain ⟨rfl, rfl⟩ := Prod.mk.inj heq
      cases ht with
      | prop _ _ _ _ _ hend => exact hend
    · have hlt := ht.lt
      have hle := ih hmem
      omega

/-- The values that the walk keeps are values of the block. -/
lemma length_le_of_deviceLevels {devices : List (List UInt8)} {bound : ℕ}
    {levels found : List Level} {l : List (ℕ × Token)}
    (hl : ∀ a nameOff name value, (a, .prop nameOff name value) ∈ l → value.length ≤ bound)
    (hlevels : ∀ level ∈ levels, level.ranges.length ≤ bound ∧ level.reg.length ≤ bound)
    (h : deviceLevels devices levels l = some found) :
    ∀ level ∈ found, level.ranges.length ≤ bound ∧ level.reg.length ≤ bound := by
  induction l generalizing levels with
  | nil => cases h
  | cons p l ih =>
    obtain ⟨a, t⟩ := p
    rw [deviceLevels] at h
    split at h
    case isTrue =>
      obtain rfl := Option.some.inj h
      exact hlevels
    case isFalse =>
      refine ih (fun b nameOff name value hmem => hl b nameOff name value
        (List.mem_cons_of_mem _ hmem)) (fun level hlevel => ?_) h
      cases t with
      | beginNode name =>
        rcases List.mem_cons.mp hlevel with rfl | hlevel
        · exact ⟨Nat.zero_le _, Nat.zero_le _⟩
        · exact hlevels level hlevel
      | endNode => exact hlevels level (List.mem_of_mem_tail hlevel)
      | prop nameOff name value =>
        cases levels with
        | nil => cases hlevel
        | cons level' around =>
          rcases List.mem_cons.mp hlevel with rfl | hlevel
          · have hvalue := hl a nameOff name value List.mem_cons_self
            have hwhole : (wholeCells value).length ≤ bound :=
              (List.length_take_le' _ _).trans hvalue
            obtain ⟨hranges, hreg⟩ := hlevels level' List.mem_cons_self
            unfold Level.set
            split_ifs <;> exact ⟨by assumption, by assumption⟩
          · exact hlevels level (List.mem_cons_of_mem level' hlevel)
      | nop => exact hlevels level hlevel
      | finish => exact hlevels level hlevel

/-- With small cell counts an entry of `reg` is small. -/
lemma regCellCount_le {around : List Level}
    (h : ∀ level ∈ around, level.addressCells ≤ 4 ∧ level.sizeCells ≤ 4) :
    regCellCount around ≤ 8 := by
  cases around with
  | nil => decide
  | cons parent around =>
    obtain ⟨haddr, hsize⟩ := h parent List.mem_cons_self
    exact Nat.add_le_add haddr hsize

/-- With small cell counts and properties that end well below `2 ^ 32` every address is translated
inside of the ranges. -/
lemma translatable_of_le {around : List Level} (addr : ℕ)
    (hcells : ∀ level ∈ around, level.addressCells ≤ 4 ∧ level.sizeCells ≤ 4)
    (hlen : ∀ level ∈ around, level.ranges.length + 48 < 2 ^ 32) : Translatable around addr := by
  induction around generalizing addr with
  | nil => trivial
  | cons bus around ih =>
    cases around with
    | nil => trivial
    | cons parent around =>
      refine ⟨.inr (.inr (.inr ?_)), ih _ (fun level hlevel => hcells level
        (List.mem_cons_of_mem _ hlevel)) fun level hlevel => hlen level
        (List.mem_cons_of_mem _ hlevel)⟩
      have hbus := hcells bus List.mem_cons_self
      have hparent := hcells parent (List.mem_cons_of_mem _ List.mem_cons_self)
      have hbytes := hlen bus List.mem_cons_self
      unfold rangeCells
      exact ⟨by omega, .inl (by omega)⟩

/-- With small cell counts and properties that end well below `2 ^ 32` a device is decodable. -/
lemma decodable_of_le {levels : List Level}
    (hcells : ∀ level ∈ levels, level.addressCells ≤ 4 ∧ level.sizeCells ≤ 4)
    (hlen : ∀ level ∈ levels, level.ranges.length + 48 < 2 ^ 32 ∧ level.reg.length + 48 < 2 ^ 32) :
    Decodable levels := by
  cases levels with
  | nil => trivial
  | cons level around =>
    have haround : ∀ level ∈ around, level.addressCells ≤ 4 ∧ level.sizeCells ≤ 4 :=
      fun level hlevel => hcells level (List.mem_cons_of_mem _ hlevel)
    have hcount := regCellCount_le haround
    have hbytes := (hlen level List.mem_cons_self).2
    refine ⟨by omega, .inr (by omega),
      fun i _ => translatable_of_le _ haround fun level hlevel => ?_⟩
    exact (hlen level (List.mem_cons_of_mem _ hlevel)).1

/-- With small cell counts the size of an entry does not wrap. -/
lemma isDevice_iff_of_le {levels : List Level}
    (hcells : ∀ level ∈ levels, level.addressCells ≤ 4 ∧ level.sizeCells ≤ 4) :
    IsDevice levels ↔ IsWholeDevice levels := by
  cases levels with
  | nil => rfl
  | cons level around =>
    have hcount := regCellCount_le fun level hlevel => hcells level (List.mem_cons_of_mem _ hlevel)
    have hstride : entryStride around = 4 * regCellCount around := by
      rw [entryStride, Nat.mul_comm]
      unfold regCellCount at hcount
      exact Nat.mod_eq_of_lt (by omega)
    rw [IsDevice, IsWholeDevice, hstride, Nat.dvd_iff_mod_eq_zero]
    simp [Nat.pos_iff_ne_zero]

/-! ## `FindDevice` on a serialised tree -/

/-- The device that the walk meets is the device of the tree. -/
lemma deviceLevels_of_events {devices : List (List UInt8)} {t : Tree} {l : List (ℕ × Token)}
    {last : ℕ} (ht : t.Ordinary) (hl : eventsIn l = t.events) :
    deviceLevels devices [] (l ++ [(last, .finish)]) = t.device devices := by
  have hevents : eventsIn (l ++ [(last, .finish)]) = t.events ++ [] := by
    rw [eventsIn, List.filterMap_append, ← eventsIn, hl]
    rfl
  have hlevels : (t.completed []).map (fun scope => scope.map (foldLevel devices)) =
      (t.completed []).map fun scope => scope.map (levelOf devices) := by
    refine List.map_congr_left fun scope hscope => List.map_congr_left fun props hprops => ?_
    exact foldLevel_eq devices props (ht.whole scope hscope props hprops)
  have hdevice : deviceIn devices _ _ = _ := deviceIn_events [] [] t
  rw [List.map_nil, hlevels] at hdevice
  rw [deviceLevels_eq, hevents, hdevice, deviceIn, Option.or_none, Tree.device]
  refine List.find?_congr fun levels hmem => ?_
  obtain ⟨scope, hscope, rfl⟩ := List.mem_map.mp hmem
  rw [decide_eq_decide]
  refine isDevice_iff_of_le fun level hlevel => ?_
  obtain ⟨props, hprops, rfl⟩ := List.mem_map.mp hlevel
  exact ht.cells scope hscope props hprops

/-- In a blob whose structure block is behind the header, the device of an ordinary tree is
decodable. -/
lemma decodable_of_device {m : Memory} {dtb last : ℕ} {f : HeaderField → ℕ} {t : Tree}
    {l : List (ℕ × Token)} {devices : List (List UInt8)} {levels : List Level} (ht : t.Ordinary)
    (hv : ValidHeader m dtb f) (hbehind : fdtHeaderSize ≤ f .structOff)
    (hl : Tokens (blobOf m dtb f) (dtb + f .structOff) (l ++ [(last, .finish)])
      (blobOf m dtb f).structEnd)
    (hevents : eventsIn l = t.events) (hlevels : t.device devices = some levels) :
    Decodable levels := by
  refine decodable_of_le (fun level hlevel => ?_) fun level hlevel => ?_
  · -- the levels are those of nodes of the tree
    obtain ⟨scope, hscope, rfl⟩ := List.mem_map.mp (List.mem_of_find?_eq_some hlevels)
    obtain ⟨props, hprops, rfl⟩ := List.mem_map.mp hlevel
    exact ht.cells scope hscope props hprops
  · -- the header and the property header take more than 48 bytes of the blob
    have hstruct := hv.structEnd_le
    have htotal := hv.lt .totalSize
    unfold fdtHeaderSize at hbehind
    have hvalues : ∀ a nameOff name value,
        (a, Token.prop nameOff name value) ∈ l ++ [(last, .finish)] →
          value.length ≤ 2 ^ 32 - 52 := by
      intro a nameOff name value hmem
      have hle := length_le_of_prop_mem hl hmem
      omega
    have hbound := length_le_of_deviceLevels hvalues (by simp)
      ((deviceLevels_of_events ht hevents).trans hlevels) level hlevel
    omega

/-- A blob that serialises an ordinary tree is accepted by validation, and `FindDevice` returns the
first device of the tree in the order of completion, decoded and translated, or no device if there
is none. -/
theorem findDevice_eq_tree (m : Memory) (dtb : ℕ) (t : Tree) (ht : t.Ordinary)
    (h : Serialises m dtb t) (devices : List (List UInt8)) :
    (validateHeader m dtb).result = .ok () ∧
      (findDevice m dtb devices).result = .ok (t.findDevice devices) := by
  obtain ⟨f, l, last, hv, hbehind, hal, hl, hfin, hevents⟩ := h.exists_tokens
  have hbal : Balanced [] (l ++ [(last, .finish)]) := balanced_of_events hfin hevents
  have hnest : nesting [] (l ++ [(last, .finish)]) ≤ maxDepth :=
    (nesting_of_events hevents).le.trans ht.height
  refine ⟨?_, ?_⟩
  · rw [validateHeader_of_tokens hv hl hbal hnest (.inl hal)]
  obtain ⟨r, hr, hfound⟩ := findWalk_found devices hv hl hbal hnest (.inl hal)
  have hreturns := returns_findDevice hr hfound fun levels => isDevice_of_deviceLevels
  rw [deviceLevels_of_events ht hevents] at hreturns
  have hdecodable : ∀ levels, t.device devices = some levels → Decodable levels :=
    fun levels hlevels => decodable_of_device ht hv hbehind hl hevents hlevels
  rw [← result_findDeviceRun, hreturns.result hdecodable]
  rfl

/-! ## Laying out tokens -/

/-- The bytes of a token. -/
def Token.bytes : Token → List UInt8
  | .beginNode name => beginNodeBytes name
  | .endNode => endNodeBytes
  | .prop nameOff _ value => propBytes nameOff value
  | .nop => beBytes 4 4
  | .finish => finishBytes

/-- A token that can be laid out in a blob. -/
def Token.Fits (B : Blob) : Token → Prop
  | .beginNode name => 0 ∉ name
  | .prop nameOff name value => value.length < 2 ^ 32 ∧ nameOff < 2 ^ 32 ∧ B.PropName nameOff name
  | _ => True

/-- Tokens laid out from an address on. -/
def place (a : ℕ) : List Token → List (ℕ × Token)
  | [] => []
  | t :: ts => (a, t) :: place (a + t.bytes.length) ts

variable {B : Blob} {a : ℕ} {t : Token}

/-- A token lies where its bytes do. -/
lemma tokenAt_of_bytes (h : B.mem.HasBytes a t.bytes) (ha : 4 ∣ a)
    (hle : a + t.bytes.length ≤ B.structEnd) (hfits : t.Fits B) :
    TokenAt B a t (a + t.bytes.length) := by
  have hword {v b : ℕ} (hv : v < 2 ^ 32) (hb : b + 4 ≤ B.structEnd)
      (hbytes : B.mem.HasBytes b (beBytes 4 v)) : B.Word b v := ⟨hb, hv, hbytes⟩
  have hfour (v : ℕ) : (beBytes 4 v).length = 4 := length_beBytes v
  cases t with
  | beginNode name =>
    have hround := le_roundUp4 (name.length + 1)
    have hlen : (Token.beginNode name).bytes.length = 4 + roundUp4 (name.length + 1) := by
      simp only [Token.bytes, beginNodeBytes, List.length_append, hfour, List.length_replicate]
      omega
    have hnext : roundUp4 (a + 4 + name.length + 1) = a + 4 + roundUp4 (name.length + 1) := by
      rw [Nat.add_assoc, roundUp4_add (ha.add (dvd_refl 4))]
    simp only [Token.bytes, beginNodeBytes, List.append_assoc, hasBytes_append, hfour] at h
    rw [hlen, ← Nat.add_assoc] at hle ⊢
    rw [← hnext]
    refine .beginNode (hword (by norm_num) (by omega) h.1) ⟨hfits, ?_⟩ (by omega)
    -- the padding begins with the NUL
    obtain ⟨n, hn⟩ := Nat.exists_eq_add_of_lt (show name.length <
      roundUp4 (name.length + 1) by omega)
    have hpad : roundUp4 (name.length + 1) - name.length = n + 1 := by omega
    rw [hpad, List.replicate_succ, hasBytes_cons] at h
    exact hasBytes_append.mpr ⟨h.2.1, hasBytes_cons.mpr ⟨h.2.2.1, hasBytes_nil⟩⟩
  | endNode => exact .endNode (hword (by norm_num) hle h)
  | prop nameOff name value =>
    have hround := le_roundUp4 value.length
    have hlen : (Token.prop nameOff name value).bytes.length = 12 + roundUp4 value.length := by
      simp only [Token.bytes, propBytes, List.length_append, hfour, List.length_replicate]
      omega
    have hnext : roundUp4 (a + 12 + value.length) = a + 12 + roundUp4 value.length :=
      roundUp4_add (ha.add (by norm_num))
    simp only [Token.bytes, propBytes, List.append_assoc, hasBytes_append, hfour, Nat.add_assoc,
      Nat.reduceAdd] at h
    obtain ⟨htag, hsize, hoff, hvalue, -⟩ := h
    obtain ⟨hvalue_lt, hoff_lt, hname⟩ := hfits
    rw [hlen, ← Nat.add_assoc] at hle ⊢
    rw [← hnext]
    exact .prop (hword (by norm_num) (by omega) htag) (hword hvalue_lt (by omega) hsize)
      (hword hoff_lt (by omega) hoff) hname hvalue (by omega)
  | nop => exact .nop (hword (by norm_num) hle h)
  | finish => exact .finish (hword (by norm_num) hle h)

/-- Tokens lie where their bytes do. -/
lemma tokens_of_bytes {ts : List Token} (h : B.mem.HasBytes a (ts.flatMap Token.bytes)) (ha : 4 ∣ a)
    (hle : a + (ts.flatMap Token.bytes).length ≤ B.structEnd) (hfits : ∀ t ∈ ts, t.Fits B) :
    Tokens B a (place a ts) (a + (ts.flatMap Token.bytes).length) := by
  induction ts generalizing a with
  | nil => exact .nil a
  | cons t ts ih =>
    rw [List.flatMap_cons, hasBytes_append] at h
    rw [List.flatMap_cons, List.length_append] at hle ⊢
    obtain ⟨hfit, hrest⟩ := List.forall_mem_cons.mp hfits
    have ht := tokenAt_of_bytes h.1 ha (by omega) hfit
    rw [← Nat.add_assoc] at hle ⊢
    exact .cons ht (ih h.2 (ht.four_dvd ha) hle hrest)

/-- Tokens laid out behind others. -/
lemma place_append (ts ts' : List Token) :
    place a (ts ++ ts') = place a ts ++ place (a + (ts.flatMap Token.bytes).length) ts' := by
  induction ts generalizing a with
  | nil => rfl
  | cons t ts ih =>
    rw [List.cons_append, place, ih, place, List.flatMap_cons, List.length_append, Nat.add_assoc,
      List.cons_append]

/-- What is laid out are the tokens. -/
lemma snd_mem_of_mem_place {ts : List Token} {p : ℕ × Token} (h : p ∈ place a ts) : p.2 ∈ ts := by
  induction ts generalizing a with
  | nil => cases h
  | cons t ts ih =>
    rcases List.mem_cons.mp h with rfl | h
    · exact List.mem_cons_self
    · exact List.mem_cons_of_mem _ (ih h)

/-- What the tokens tell does not depend on where they lie. -/
lemma eventsIn_place (ts : List Token) : eventsIn (place a ts) = ts.filterMap Token.event := by
  induction ts generalizing a with
  | nil => rfl
  | cons t ts ih =>
    rw [place, eventsIn, List.filterMap_cons, ← eventsIn, ih, List.filterMap_cons]

/-- The content of a memory with the tokens of a tree at 4 KiB, and the strings behind them. -/
def layOut (ts : List Token) (strings : List UInt8) : ℕ → UInt8 :=
  contentAt 0x1000 (blobBytes 0 ((ts ++ [Token.finish]).flatMap Token.bytes) strings)

/-- The blob in that memory. -/
def layOutBlob (ts : List Token) (strings : List UInt8) : Blob :=
  blobOf (fun a => some (layOut ts strings a)) 0x1000 (fieldAt (layOut ts strings) 0x1000)

/-- A token whose names are strings, that of a property at its offset in the strings block. -/
def Token.NamedIn (strings : List UInt8) : Token → Prop
  | .beginNode name => 0 ∉ name
  | .prop nameOff name value =>
    value.length < 2 ^ 32 ∧ 0 ∉ name ∧ name ++ [0] <+: strings.drop nameOff
  | _ => True

instance (strings : List UInt8) : (t : Token) → Decidable (t.NamedIn strings)
  | .beginNode name => inferInstanceAs (Decidable (0 ∉ name))
  | .prop _ _ _ => inferInstanceAs (Decidable (_ ∧ _ ∧ _))
  | .endNode => .isTrue trivial
  | .nop => .isTrue trivial
  | .finish => .isTrue trivial

section LayOut

variable {ts : List Token} {strings : List UInt8} {es : List Event}

/-- The header fields of the memory. -/
def layOutField (ts : List Token) (strings : List UInt8) : HeaderField → ℕ
  | .magic => fdtMagic
  | .totalSize => 56 + ((ts ++ [Token.finish]).flatMap Token.bytes).length + strings.length
  | .structOff => 56
  | .stringsOff => 56 + ((ts ++ [Token.finish]).flatMap Token.bytes).length
  | .memRsvMapOff => 40
  | .sizeStrings => strings.length
  | .sizeStructs => ((ts ++ [Token.finish]).flatMap Token.bytes).length

/-- A memory holds the bytes that lie in it. -/
lemma hasBytes_contentAt (base : ℕ) (bytes : List UInt8) :
    HasBytes (fun a => some (contentAt base bytes a)) base bytes := by
  intro i hi
  simp [contentAt, hi]

/-- The header, the structure block and the strings block lie one behind the other. -/
lemma hasBytes_layOut (ts : List Token) (strings : List UInt8) :
    (∀ field, HasBytes (fun a => some (layOut ts strings a)) (0x1000 + field.offset)
        (beBytes 4 (layOutField ts strings field))) ∧
      HasBytes (fun a => some (layOut ts strings a)) (0x1000 + 56)
        ((ts ++ [Token.finish]).flatMap Token.bytes) ∧
      HasBytes (fun a => some (layOut ts strings a))
        (0x1000 + (56 + ((ts ++ [Token.finish]).flatMap Token.bytes).length)) strings := by
  have hall : HasBytes (fun a => some (layOut ts strings a)) 0x1000
      (blobBytes 0 ((ts ++ [Token.finish]).flatMap Token.bytes) strings) := hasBytes_contentAt _ _
  have hfour (v : ℕ) : (beBytes 4 v).length = 4 := length_beBytes v
  simp only [blobBytes, List.flatMap_cons, List.flatMap_nil, List.append_nil, List.append_assoc,
    hasBytes_append, List.length_replicate, hfour, Nat.add_assoc,
    Nat.reduceAdd] at hall
  obtain ⟨hmagic, htotal, hstructOff, hstringsOff, hreserved, -, -, -, hsizeStrings,
    hsizeStructs, -, hstructs, hstrings⟩ := hall
  refine ⟨fun field => ?_, hstructs, ?_⟩
  · cases field with
    | magic => exact hmagic
    | totalSize =>
      rw [← Nat.add_assoc] at htotal
      exact htotal
    | structOff => exact hstructOff
    | stringsOff => exact hstringsOff
    | memRsvMapOff => exact hreserved
    | sizeStrings => exact hsizeStrings
    | sizeStructs => exact hsizeStructs
  · rw [← Nat.add_assoc]
    exact hstrings

/-- The header of the memory is valid. -/
lemma validHeader_layOut (h : layOutField ts strings .totalSize < 2 ^ 32) :
    ValidHeader (fun a => some (layOut ts strings a)) 0x1000 (layOutField ts strings) := by
  rw [layOutField] at h
  refine ⟨by norm_num, ?_, (hasBytes_layOut ts strings).1, fun field => ?_, rfl, ?_, ?_, ?_, ?_⟩
  · rw [layOutField]
    omega
  · cases field <;> simp only [layOutField, fdtMagic] <;> omega
  · simp only [layOutField, fdtHeaderSize]
    omega
  · simp only [layOutField, inBounds]
    omega
  · simp only [layOutField, inBounds]
    omega
  · simp only [layOutField, inBounds]
    omega

/-- A token whose names are strings can be laid out. -/
lemma fits_of_namedIn {t : Token} (h : layOutField ts strings .totalSize < 2 ^ 32)
    (ht : t.NamedIn strings) : t.Fits (layOutBlob ts strings) := by
  have hfields := (validHeader_layOut h).eq_fieldAt
  cases t with
  | beginNode name => exact ht
  | prop nameOff name value =>
    obtain ⟨hvalue, hzero, rest, hrest⟩ := ht
    have hlength := congrArg List.length hrest
    rw [List.length_append, List.length_append, List.length_singleton, List.length_drop] at hlength
    rw [layOutField] at h
    rw [Token.Fits, layOutBlob, ← hfields]
    refine ⟨hvalue, by omega, ?_, hzero, ?_⟩
    · show nameOff + name.length < strings.length
      omega
    · have hstrings := (hasBytes_layOut ts strings).2.2
      have hsplit : strings = strings.take nameOff ++ (name ++ [0] ++ rest) := by
        rw [hrest, List.take_append_drop]
      have htake : (strings.take nameOff).length = nameOff := List.length_take_of_le (by omega)
      rw [hsplit, hasBytes_append, hasBytes_append, htake, ← hsplit] at hstrings
      exact hstrings.2.1
  | endNode => trivial
  | nop => trivial
  | finish => trivial

/-- The memory holds the tokens. -/
lemma exists_tokens_layOut (h : layOutField ts strings .totalSize < 2 ^ 32)
    (hnamed : ∀ t ∈ ts, t.NamedIn strings) (hfin : ∀ t ∈ ts, t ≠ .finish)
    (hevents : ts.filterMap Token.event = es) :
    ∃ f l last, ValidHeader (fun a => some (layOut ts strings a)) 0x1000 f ∧
      fdtHeaderSize ≤ f .structOff ∧ 4 ∣ 0x1000 + f .structOff ∧
      Tokens (blobOf (fun a => some (layOut ts strings a)) 0x1000 f) (0x1000 + f .structOff)
        (l ++ [(last, .finish)]) (blobOf (fun a => some (layOut ts strings a)) 0x1000 f).structEnd ∧
      (∀ p ∈ l, p.2 ≠ .finish) ∧ eventsIn l = es := by
  have hv := validHeader_layOut h
  have hblob : layOutBlob ts strings =
      blobOf (fun a => some (layOut ts strings a)) 0x1000 (layOutField ts strings) := by
    rw [layOutBlob, ← hv.eq_fieldAt]
  have htokens := tokens_of_bytes (B := layOutBlob ts strings) (a := 0x1000 + 56)
    (hasBytes_layOut ts strings).2.1 (by norm_num) (by rw [hblob]; exact le_rfl) (by
      intro t ht
      rcases List.mem_append.mp ht with ht | ht
      · exact fits_of_namedIn h (hnamed t ht)
      · rw [List.mem_singleton.mp ht]
        trivial)
  rw [place_append, hblob] at htokens
  refine ⟨_, _, _, hv, by norm_num [layOutField, fdtHeaderSize], by norm_num [layOutField], htokens,
    ?_, ?_⟩
  · intro p hp
    exact hfin p.2 (snd_mem_of_mem_place hp)
  · rw [eventsIn_place, hevents]

/-- The memory holds the tree that its tokens tell about. -/
lemma serialises_layOut {t : Tree} (h : layOutField ts strings .totalSize < 2 ^ 32)
    (hnamed : ∀ t ∈ ts, t.NamedIn strings) (hfin : ∀ t ∈ ts, t ≠ .finish)
    (hevents : ts.filterMap Token.event = t.events) :
    Serialises (fun a => some (layOut ts strings a)) 0x1000 t :=
  ⟨exists_tokens_layOut h hnamed hfin hevents⟩

end LayOut

/-- A console on a bus whose addresses are mapped up. -/
def socTree : Tree :=
  .node [] [] [.node (ascii "soc")
    [⟨kAddressCells, beBytes 4 1⟩, ⟨kSizeCells, beBytes 4 1⟩,
      ⟨kRanges, [0x7e000000, 0, 0xfe000000, 0x1800000].flatMap (beBytes 4)⟩]
    [.node (ascii "serial")
      [⟨kCompatible, ascii "arm,pl011" ++ [0]⟩,
        ⟨kReg, [0x7e201000, 0x200].flatMap (beBytes 4)⟩] []]]

/-- The strings block of the tree. -/
def socStrings : List UInt8 :=
  [kAddressCells, kSizeCells, kRanges, kCompatible, kReg].flatMap (· ++ [0])

/-- The tokens of the tree, with two NOPs. -/
def socTokens : List Token :=
  [.beginNode [], .nop, .beginNode (ascii "soc"), .prop 0 kAddressCells (beBytes 4 1),
    .prop 15 kSizeCells (beBytes 4 1),
    .prop 27 kRanges ([0x7e000000, 0, 0xfe000000, 0x1800000].flatMap (beBytes 4)),
    .beginNode (ascii "serial"), .prop 34 kCompatible (ascii "arm,pl011" ++ [0]), .nop,
    .prop 45 kReg ([0x7e201000, 0x200].flatMap (beBytes 4)), .endNode, .endNode, .endNode]

/-- The content of a memory with the tree. -/
def socContent : ℕ → UInt8 :=
  contentAt 0x1000 (blobBytes 0 ((socTokens ++ [Token.finish]).flatMap Token.bytes) socStrings)

/-- The memory holds the tree. -/
lemma serialises_soc : Serialises (fun a => some (socContent a)) 0x1000 socTree :=
  serialises_layOut (by decide +kernel) (by decide +kernel) (by decide) (by decide +kernel)

/-- The console is found at its address behind the bus. -/
theorem findDevice_eq_tree_soc :
    ∃ node, (findDevice (fun a => some (socContent a)) 0x1000 [ascii "arm,pl011"]).result =
      .ok node ∧ node.regions = [⟨0xfe201000, 0x200⟩] := by
  have hordinary : socTree.Ordinary := by
    refine ⟨by decide +kernel, by decide +kernel, by decide +kernel⟩
  refine ⟨_, (findDevice_eq_tree _ 0x1000 socTree hordinary serialises_soc
    [ascii "arm,pl011"]).2, ?_⟩
  decide +kernel

end DeviceTree

end HyperBerry
