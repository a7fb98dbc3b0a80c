import HyperBerry.DeviceTree.Walks
import HyperBerry.BootLoader.DtbPatcher

/-!
# One step of the patcher

The state of the patcher is a function of the path of the open nodes, of the placeholders that have
been filled, and of the buffer.  One pass of its loop reads the token at the cursor; where that
token is allowed, the patcher goes on with the next state, and otherwise it returns.
-/

namespace HyperBerry

namespace BootLoader

open Memory DeviceTree DtbPatcher

/-! ## Slots -/

/-- The properties that are filled. -/
inductive Slot
  /-- `reg` of a `/memory` node. -/
  | memoryReg
  /-- `linux,initrd-start` of `/chosen`. -/
  | initrdStart
  /-- `linux,initrd-end` of `/chosen`. -/
  | initrdEnd
deriving DecidableEq

namespace Slot

/-- All slots, in the order of the placeholders. -/
def all : List Slot := [.memoryReg, .initrdStart, .initrdEnd]

/-- The kind of node that the property belongs to. -/
def node : Slot → Node
  | .memoryReg => .memory
  | .initrdStart => .chosen
  | .initrdEnd => .chosen

/-- The name of the property. -/
def name : Slot → Name
  | .memoryReg => ascii "reg"
  | .initrdStart => ascii "linux,initrd-start"
  | .initrdEnd => ascii "linux,initrd-end"

/-- The length of its data. -/
def length : Slot → ℕ
  | .memoryReg => 16
  | .initrdStart => 8
  | .initrdEnd => 8

/-- The numbers it is filled with. -/
def values (layout : GuestLayout) : Slot → List ℕ
  | .memoryReg => [guestIpaBase, guestRamSize]
  | .initrdStart => [layout.initrdIpa]
  | .initrdEnd => [add64 layout.initrdIpa layout.initrdSize]

/-- The bytes it is filled with. -/
def bytes (layout : GuestLayout) (slot : Slot) : List UInt8 :=
  (slot.values layout).flatMap (beBytes 8)

/-- The placeholder of a slot, when the given slots have been filled. -/
def placeholder (layout : GuestLayout) (found : List Slot) (slot : Slot) : Placeholder :=
  ⟨slot.node, slot.name, slot.length, slot.values layout, decide (slot ∈ found)⟩

section placeholder

variable (layout : GuestLayout) (found : List Slot) (slot : Slot)

@[simp] lemma node_placeholder : (slot.placeholder layout found).node = slot.node := rfl

@[simp] lemma name_placeholder : (slot.placeholder layout found).name = slot.name := rfl

@[simp] lemma length_placeholder : (slot.placeholder layout found).length = slot.length := rfl

@[simp] lemma values_placeholder :
    (slot.placeholder layout found).values = slot.values layout := rfl

@[simp] lemma found_placeholder :
    (slot.placeholder layout found).found = decide (slot ∈ found) := rfl

end placeholder

lemma mem_all (slot : Slot) : slot ∈ all := by cases slot <;> decide

lemma nodup_all : all.Nodup := by decide

lemma zero_not_mem_name (slot : Slot) : 0 ∉ slot.name := by cases slot <;> decide

/-- A slot has room for its bytes. -/
lemma length_bytes (layout : GuestLayout) (slot : Slot) :
    (slot.bytes layout).length = slot.length := by cases slot <;> rfl

/-- The numbers that go into a property of the right length are all of them. -/
lemma take_values (layout : GuestLayout) (slot : Slot) :
    (slot.values layout).take (slot.length / 8) = slot.values layout := by cases slot <;> rfl

end Slot

/-- What a depth-1 name is to the patcher. -/
def kindOf (name : Name) : Node :=
  if name = ascii "memory" ∨ ascii "memory@" <+: name then .memory
  else if name = ascii "chosen" then .chosen
  else .other

/-- The kind of the depth-1 node around a path. -/
def nodeOf (path : List Name) : Node := (path[1]?).elim .other kindOf

/-- The slot of a property with the given name in a node of the given kind. -/
def slotIn (node : Node) (name : Name) : Option Slot :=
  Slot.all.find? fun slot => slot.node = node ∧ slot.name = name

/-- The slot of a property: its node is at depth 1. -/
def slotOf (path : List Name) (name : Name) : Option Slot :=
  if path.length = 2 then slotIn (nodeOf path) name else none

/-- The slot that a token is. -/
def siteOf (path : List Name) : Token → Option Slot
  | .prop _ name _ => slotOf path name
  | _ => none

/-! ## Strings and writes -/

variable {m : Memory} {a b : ℕ} {name ys : List UInt8}

/-- Comparing a string with a literal. -/
lemma strEq_eq (h : m.CString a name) (ha : a + name.length < 2 ^ 64) (hys : 0 ∉ ys) :
    strEq m a ys = .ok (decide (name = ys)) := by
  induction ys generalizing a name with
  | nil =>
    rw [strEq, load8_eq_ok.mpr h.head, ok_bind]
    cases name with
    | nil => rfl
    | cons x name =>
      have hx : x ≠ 0 := fun hx => h.not_mem (hx ▸ List.mem_cons_self)
      rw [List.headD_cons, beq_eq_false_iff_ne.mpr hx]
      rfl
  | cons y ys ih =>
    rw [List.mem_cons, not_or] at hys
    rw [strEq, load8_eq_ok.mpr h.head, ok_bind]
    cases name with
    | nil =>
      rw [List.headD_nil, if_pos rfl, beq_eq_false_iff_ne.mpr hys.1]
      rfl
    | cons x name =>
      have hx : x ≠ 0 := fun hx => h.not_mem (hx ▸ List.mem_cons_self)
      rw [List.length_cons] at ha
      rw [List.headD_cons, if_neg hx]
      by_cases hxy : x = y
      · rw [if_neg (not_not.mpr hxy), add64_of_lt (by omega), ih h.tail (by omega) hys.2]
        simp [hxy]
      · have hne : x :: name ≠ y :: ys := fun heq => hxy (List.cons.inj heq).1
        rw [if_pos hxy, decide_eq_false hne]
        rfl

/-- The kind of a depth-1 name. -/
lemma nodeKind_eq (h : m.CString a name) (ha : a + name.length < 2 ^ 64) :
    nodeKind m a = .ok (kindOf name) := by
  rw [nodeKind, strEq_eq h ha (by decide), ok_bind, kindOf]
  by_cases hmem : name = ascii "memory"
  · simp [hmem]
    rfl
  · rw [if_neg (by simpa using hmem), strStartsWith, matchBytes_eq h ha (by decide), ok_bind]
    by_cases hat : ascii "memory@" <+: name
    · simp [hat]
      rfl
    · rw [if_neg (by simpa using hat), strEq_eq h ha (by decide), ok_bind,
        if_neg (by tauto : ¬ (name = ascii "memory" ∨ ascii "memory@" <+: name))]
      by_cases hchosen : name = ascii "chosen"
      · simp [hchosen]
        rfl
      · simp [hchosen]
        rfl

/-- Storing numbers where there are bytes. -/
lemma storeValues_eq {vs : List ℕ} (h : ∀ i < 8 * vs.length, (m (a + i)).isSome)
    (ha : a + 8 * vs.length < 2 ^ 64) :
    storeValues m a vs = .ok (m.store a (vs.flatMap (beBytes 8))) := by
  induction vs generalizing m a with
  | nil =>
    rw [storeValues, List.flatMap_nil, HasBytes.store_eq hasBytes_nil]
  | cons v vs ih =>
    rw [List.length_cons] at h ha
    have hall : ((List.range 8).all fun i => (m (a + i)).isSome) = true := by
      rw [List.all_eq_true]
      intro i hi
      exact h i (by have := List.mem_range.mp hi; omega)
    rw [storeValues, storeBe64, if_pos hall, ok_bind, add64_of_lt (by omega), ih, List.flatMap_cons,
      store_append, length_beBytes]
    · intro i hi
      exact isSome_store (by rw [Nat.add_assoc]; exact h _ (by omega))
    · omega

/-- The number of bytes of a slot is eight for each of its numbers. -/
lemma Slot.length_eq (layout : GuestLayout) (slot : Slot) :
    8 * (slot.values layout).length = slot.length := by cases slot <;> rfl

/-- Marking a slot as filled. -/
lemma placeholder_cons_of_ne (layout : GuestLayout) {found : List Slot} {slot s : Slot}
    (h : s ≠ slot) : s.placeholder layout (slot :: found) = s.placeholder layout found := by
  simp [Slot.placeholder, h]

/-- Whether a property is the one of a slot. -/
lemma isPlaceholder_placeholder {layout : GuestLayout} {found : List Slot} {node : Node} {s : Slot}
    (hname : m.CString a name) (ha : a + name.length < 2 ^ 64) :
    isPlaceholder m node a (s.placeholder layout found) =
      .ok (decide (s.node = node ∧ s.name = name)) := by
  rw [isPlaceholder, Slot.node_placeholder, Slot.name_placeholder]
  by_cases hnode : s.node = node
  · rw [if_pos hnode, strEq_eq hname ha s.zero_not_mem_name]
    simp [hnode, eq_comm]
  · rw [if_neg hnode]
    simp [hnode]

/-- `patch` on a list of slots: the first slot with the node and the name is filled, unless it has
been before or the length is wrong. -/
lemma patch_map {layout : GuestLayout} {found slots : List Slot} {node : Node} {value length : ℕ}
    (hname : m.CString a name) (ha : a + name.length < 2 ^ 64)
    (hvalue : ∀ i < length, (m (value + i)).isSome) (hlt : value + length < 2 ^ 64)
    (hnodup : slots.Nodup) :
    patch node a value length m (slots.map (Slot.placeholder layout found)) =
      match slots.find? fun slot => slot.node = node ∧ slot.name = name with
      | none => .ok (some (m, slots.map (Slot.placeholder layout found)))
      | some slot =>
        if slot ∈ found ∨ length ≠ slot.length then .ok none
        else .ok (some (m.store value (slot.bytes layout),
          slots.map (Slot.placeholder layout (slot :: found)))) := by
  induction slots with
  | nil => rfl
  | cons s slots ih =>
    obtain ⟨hs, hnodup⟩ := List.nodup_cons.mp hnodup
    rw [List.map_cons, patch, isPlaceholder_placeholder hname ha, ok_bind, List.find?_cons]
    by_cases hmatch : s.node = node ∧ s.name = name
    · rw [if_pos (decide_eq_true hmatch), decide_eq_true hmatch]
      simp only [Slot.found_placeholder, Slot.length_placeholder, Slot.values_placeholder,
        decide_eq_true_eq]
      by_cases hbad : s ∈ found ∨ length ≠ s.length
      · rw [if_pos hbad, if_pos hbad]
        rfl
      · rw [if_neg hbad, if_neg hbad]
        rw [not_or, not_not] at hbad
        have hlen := s.length_eq layout
        rw [hbad.2, Slot.take_values, storeValues_eq, ok_bind]
        · have hrest : slots.map (Slot.placeholder layout (s :: found)) =
              slots.map (Slot.placeholder layout found) := by
            refine List.map_congr_left fun s' hs' => placeholder_cons_of_ne layout ?_
            rintro rfl
            exact hs hs'
          have hself : s.placeholder layout (s :: found) =
              ⟨s.node, s.name, s.length, s.values layout, true⟩ := by
            simp [Slot.placeholder]
          rw [List.map_cons, hrest, hself]
          rfl
        · intro i hi
          exact hvalue i (by omega)
        · omega
    · rw [if_neg (by simpa using hmatch), decide_eq_false hmatch, ih hnodup]
      cases hfind : slots.find? fun slot => slot.node = node ∧ slot.name = name with
      | none => rfl
      | some slot =>
        have hne : s ≠ slot := by
          rintro rfl
          have := List.find?_some hfind
          exact hmatch (by simpa using this)
        simp only
        split
        case isTrue => rfl
        case isFalse =>
          rw [List.map_cons, placeholder_cons_of_ne layout hne]
          rfl

/-! ## The state of the patcher -/

/-- The blob with the given blocks in a memory. -/
abbrev Blocks.blob (blocks : Blocks) (m : Memory) : Blob :=
  ⟨m, blocks.structEnd, blocks.stringsOff, blocks.stringsSize⟩

/-- How far the patcher has come. -/
structure Progress where
  /-- The open nodes, the root first. -/
  path : List Name
  /-- Whether the root has been opened. -/
  hasRoot : Bool
  /-- The slots that have been filled, the last one first. -/
  found : List Slot
  /-- The buffer. -/
  mem : Memory
  /-- Offset of the next token. -/
  cursor : ℕ

namespace Progress

/-- The members of the patcher. -/
abbrev patcher (layout : GuestLayout) (blocks : Blocks) (s : Progress) : DtbPatcher where
  mem := s.mem
  dtbSize := layout.dtbSize
  blocks := { blocks with cursor := s.cursor }
  depth := s.path.length
  hasRoot := s.hasRoot
  node := nodeOf s.path
  placeholders := Slot.all.map (Slot.placeholder layout s.found)

/-- The patcher goes on after the token. -/
def Allows (s : Progress) : Token → Prop
  | .beginNode name => s.path = [] → s.hasRoot = false ∧ name = []
  | .endNode => s.path ≠ []
  | .prop _ name value =>
    s.path ≠ [] ∧ ∀ slot ∈ slotOf s.path name, slot ∉ s.found ∧ value.length = slot.length
  | .nop => True
  | .finish => False

instance (s : Progress) (t : Token) : Decidable (s.Allows t) :=
  match t with
  | .beginNode _ => inferInstanceAs (Decidable (_ → _))
  | .endNode => inferInstanceAs (Decidable (_ ≠ _))
  | .prop _ _ _ => inferInstanceAs (Decidable (_ ∧ _))
  | .nop => inferInstanceAs (Decidable True)
  | .finish => inferInstanceAs (Decidable False)

/-- The patcher returns true at the end token. -/
def Done (s : Progress) : Prop :=
  s.hasRoot = true ∧ s.path = [] ∧ ∀ slot ∈ Slot.all, slot ∈ s.found

instance (s : Progress) : Decidable s.Done := inferInstanceAs (Decidable (_ ∧ _))

/-- The state after a token, with the next one at `b`. -/
def next (layout : GuestLayout) (s : Progress) (t : Token) (b : ℕ) : Progress where
  path := pathAfter s.path t
  hasRoot := match t with
    | .beginNode _ => if s.path = [] then true else s.hasRoot
    | _ => s.hasRoot
  found := (siteOf s.path t).toList ++ s.found
  mem := (siteOf s.path t).elim s.mem fun slot =>
    s.mem.store (s.cursor + 12) (slot.bytes layout)
  cursor := b

section next

variable (layout : GuestLayout) (s : Progress) (t : Token) (b : ℕ)

@[simp] lemma next_path : (s.next layout t b).path = pathAfter s.path t := rfl

@[simp] lemma next_found : (s.next layout t b).found = (siteOf s.path t).toList ++ s.found := rfl

@[simp] lemma next_cursor : (s.next layout t b).cursor = b := rfl

lemma next_mem : (s.next layout t b).mem = (siteOf s.path t).elim s.mem fun slot =>
    s.mem.store (s.cursor + 12) (slot.bytes layout) := rfl

end next

/-- What the patcher needs of its buffer: the rest of the structure block and the strings block can
be read, and they do not overlap. -/
structure Ready (blocks : Blocks) (s : Progress) : Prop where
  /-- The structure block ends below 4 GiB. -/
  structEnd_lt : blocks.structEnd < 2 ^ 32
  /-- The strings block ends below 4 GiB. -/
  strings_lt : blocks.stringsOff + blocks.stringsSize < 2 ^ 32
  /-- The blocks do not overlap. -/
  disjoint : blocks.structEnd ≤ blocks.stringsOff ∨
    blocks.stringsOff + blocks.stringsSize ≤ s.cursor
  /-- The rest of the structure block can be read. -/
  readable : ∀ i, s.cursor ≤ i → i < blocks.structEnd → (s.mem i).isSome
  /-- The strings block can be read. -/
  names : ∀ i, blocks.stringsOff ≤ i → i < blocks.stringsOff + blocks.stringsSize →
    (s.mem i).isSome
  /-- There have been enough tokens to open the nodes that are open. -/
  depth_le : s.path.length ≤ s.cursor

end Progress

/-- Rounding up offsets. -/
lemma align4_eq {value : ℕ} (h : value + 3 < 2 ^ 64) : align4 value = roundUp4 value := by
  rw [align4, add64_of_lt h]
  exact and_not64_two_pow_sub_one (k := 2) h (by norm_num)

/-- The kind of the depth-1 node when a node opens. -/
lemma nodeOf_append (path : List Name) (name : Name) :
    nodeOf (path ++ [name]) = if path.length = 1 then kindOf name else nodeOf path := by
  rw [nodeOf, nodeOf]
  split
  case isTrue h => rw [← h, List.getElem?_concat_length]; rfl
  case isFalse h =>
    by_cases hlt : 1 < path.length
    · rw [List.getElem?_append_left hlt]
    · rw [List.getElem?_eq_none (by rw [List.length_append, List.length_singleton]; omega),
        List.getElem?_eq_none (by omega)]

/-- The kind of the depth-1 node when a node closes. -/
lemma nodeOf_dropLast (path : List Name) (hpath : path ≠ []) :
    nodeOf path.dropLast = if path.length - 1 = 1 then .other else nodeOf path := by
  have hpos := List.length_pos_of_ne_nil hpath
  rw [nodeOf, nodeOf, List.getElem?_dropLast]
  by_cases hlt : 1 < path.length - 1
  · rw [if_pos hlt, if_neg (by omega)]
  · rw [if_neg hlt]
    split
    case isTrue => rfl
    case isFalse => rw [List.getElem?_eq_none (by omega)]

/-! ## One step -/

section step

variable (layout : GuestLayout) {blocks : Blocks} {s : Progress} {t : Token}

/-- A node that opens. -/
lemma beginNode_of_tokenAt (hs : s.Ready blocks)
    (ht : TokenAt (blocks.blob s.mem) s.cursor (.beginNode name) b) :
    DtbPatcher.beginNode (Progress.patcher layout blocks { s with cursor := s.cursor + 4 }) =
      .ok (if s.Allows (.beginNode name) then
        some ((s.next layout (.beginNode name) b).patcher layout blocks) else none) := by
  obtain ⟨hlt, hstr, hdis, hread, hnames, hdepth⟩ := hs
  cases ht with
  | beginNode hword hname hend =>
    have hend' : s.cursor + 4 + name.length < blocks.structEnd := hend
    have hbound : name.length < blocks.structEnd - (s.cursor + 4) := by omega
    have hnul : nulIndex s.mem (s.cursor + 4) (blocks.structEnd - (s.cursor + 4)) =
        .ok name.length := (nulIndex_eq_ok (by omega) hbound).mpr ⟨name, rfl, hname⟩
    have halign : align4 (s.cursor + 4 + name.length + 1) =
        roundUp4 (s.cursor + 4 + name.length + 1) := align4_eq (by omega)
    have hmod : (s.path.length + 1) % 2 ^ 32 = s.path.length + 1 := Nat.mod_eq_of_lt (by omega)
    rw [DtbPatcher.beginNode]
    simp only [Progress.patcher]
    rw [hnul, ok_bind, if_neg (by omega), halign, hmod]
    by_cases h0 : s.path = []
    · rw [if_pos (by rw [h0]; rfl), load8_eq_ok.mpr hname.head, ok_bind]
      by_cases hroot : s.hasRoot = false ∧ name = []
      · obtain ⟨hroot, rfl⟩ := hroot
        rw [if_neg (by simp [hroot]),
          if_pos (show s.Allows (.beginNode []) from fun _ => ⟨hroot, rfl⟩)]
        simp [Progress.next, pathAfter, siteOf, h0, nodeOf]
        rfl
      · rw [if_neg (show ¬ s.Allows (.beginNode name) from fun h => hroot (h h0)), if_pos]
        · rfl
        · by_contra hcon
          rw [not_or, not_not] at hcon
          refine hroot ⟨by simpa using hcon.1, ?_⟩
          cases name with
          | nil => rfl
          | cons x name => exact absurd (hcon.2 ▸ List.mem_cons_self) hname.not_mem
    · have hpos := List.length_pos_of_ne_nil h0
      rw [if_neg (by omega), if_pos (show s.Allows (.beginNode name) from fun h => absurd h h0)]
      by_cases h1 : s.path.length = 1
      · rw [if_pos h1, nodeKind_eq hname (by omega), ok_bind]
        simp [Progress.next, pathAfter, siteOf, h0, nodeOf_append, h1]
        rfl
      · rw [if_neg h1]
        simp [Progress.next, pathAfter, siteOf, h0, nodeOf_append, h1]
        rfl

/-- The slot of a property, in the words of `patch`. -/
lemma siteOf_prop {nameOff : ℕ} {value : List UInt8} (h2 : s.path.length = 2) :
    siteOf s.path (.prop nameOff name value) =
      Slot.all.find? fun slot => slot.node = nodeOf s.path ∧ slot.name = name := by
  rw [siteOf, slotOf, if_pos h2, slotIn]

/-- A property. -/
lemma property_of_tokenAt {nameOff : ℕ} {value : List UInt8} (hs : s.Ready blocks)
    (ht : TokenAt (blocks.blob s.mem) s.cursor (.prop nameOff name value) b) :
    DtbPatcher.property (Progress.patcher layout blocks { s with cursor := s.cursor + 4 }) =
      .ok (if s.Allows (.prop nameOff name value) then
        some ((s.next layout (.prop nameOff name value) b).patcher layout blocks) else none) := by
  obtain ⟨hlt, hstr, hdis, hread, hnames, hdepth⟩ := hs
  cases ht with
  | prop hword hlen hoff hname hvalue hend =>
    have hend' : s.cursor + 12 + value.length ≤ blocks.structEnd := hend
    have hname' : nameOff + name.length < blocks.stringsSize := hname.lt
    have hstring : s.mem.CString (blocks.stringsOff + nameOff) name := hname.string
    have hlen' : loadBe32 s.mem (s.cursor + 4) = .ok value.length :=
      hlen.loadBe32_eq (hlt.trans (by norm_num))
    have hoff' : loadBe32 s.mem (s.cursor + 4 + 4) = .ok nameOff :=
      hoff.loadBe32_eq (hlt.trans (by norm_num))
    have hnul : nulIndex s.mem (blocks.stringsOff + nameOff) (blocks.stringsSize - nameOff) =
        .ok name.length :=
      (nulIndex_eq_ok (by omega) (by omega)).mpr ⟨name, rfl, hstring⟩
    have halign : align4 (s.cursor + 4 + 8 + value.length) =
        roundUp4 (s.cursor + 12 + value.length) := align4_eq (by omega)
    rw [DtbPatcher.property]
    simp only [Progress.patcher]
    by_cases h0 : s.path = []
    · rw [if_pos (.inl (by rw [h0]; rfl)),
        if_neg (show ¬ s.Allows (.prop nameOff name value) from fun h => h.1 h0)]
    · have hpos := List.length_pos_of_ne_nil h0
      rw [if_neg (by omega), hlen', ok_bind, hoff', ok_bind, if_neg (by omega), hnul, ok_bind,
        if_neg (by omega), halign]
      by_cases h2 : s.path.length = 2
      · have hallows : s.Allows (.prop nameOff name value) ↔
            ∀ slot ∈ siteOf s.path (.prop nameOff name value),
              slot ∉ s.found ∧ value.length = slot.length :=
          ⟨fun h => h.2, fun h => ⟨h0, h⟩⟩
        have hfield : ∀ i < value.length, (s.mem (s.cursor + 4 + 8 + i)).isSome := fun i hi =>
          hread _ (by omega) (by omega)
        rw [if_neg (not_not.mpr h2), patch_map hstring (by omega) hfield (by omega) Slot.nodup_all]
        simp only [hallows, Progress.next, siteOf_prop h2, pathAfter]
        cases Slot.all.find? fun slot => slot.node = nodeOf s.path ∧ slot.name = name with
        | none => simp
        | some slot =>
          by_cases hbad : slot ∈ s.found ∨ value.length ≠ slot.length
          · rw [if_neg (by simpa using not_and_or.mpr (by simpa using hbad))]
            simp only [hbad, if_true]
            rfl
          · rw [not_or, not_not] at hbad
            rw [if_pos (by simpa using hbad)]
            simp [hbad]
      · have hsite : slotOf s.path name = none := by rw [slotOf, if_neg h2]
        rw [if_pos h2, if_pos (show s.Allows (.prop nameOff name value) from
          ⟨h0, by rw [hsite]; simp⟩)]
        simp [Progress.next, pathAfter, siteOf, hsite]
        rfl

/-- What the patcher returns at the end token. -/
lemma finish_patcher (blocks : Blocks) (s : Progress) :
    DtbPatcher.finish (s.patcher layout blocks) = decide s.Done := by
  rw [Bool.eq_iff_iff, decide_eq_true_iff]
  simp [DtbPatcher.finish, Progress.Done, and_assoc]

/-- A word of the rest of the structure block. -/
lemma Progress.Ready.exists_word (hs : s.Ready blocks) (ha : s.cursor ≤ a)
    (hle : a + 4 ≤ blocks.structEnd) : ∃ v, (blocks.blob s.mem).Word a v := by
  obtain ⟨xs, hlen, hxs⟩ := exists_hasBytes (m := s.mem) (a := a) (n := 4) fun i hi =>
    hs.readable (a + i) (by omega) (by omega)
  have hlt := beNat_lt xs
  have hround := beBytes_beNat xs
  rw [hlen] at hlt hround
  exact ⟨beNat xs, hle, hlt.trans_le (by norm_num), hround.symm ▸ hxs⟩

/-- A search for a NUL ends before its bound, with a string, or at the bound. -/
lemma nulIndex_cases {n : ℕ} (h : ∀ i < n, (m (a + i)).isSome) (ha : a + n < 2 ^ 64) :
    (∃ name : Name, name.length < n ∧ m.CString a name) ∨ nulIndex m a n = .ok n := by
  obtain ⟨xs, hlen, hxs⟩ := exists_hasBytes h
  obtain ⟨i, hi, hnul⟩ := nulIndex_ok hxs (by omega)
  rw [hlen] at hi hnul
  rcases hi.lt_or_eq with hlt | rfl
  · obtain ⟨name, rfl, hname⟩ := (nulIndex_eq_ok ha.le hlt).mp hnul
    exact .inl ⟨name, hlt, hname⟩
  · exact .inr hnul

/-- A node without a name. -/
lemma beginNode_of_no_token (hs : s.Ready blocks) (hword : (blocks.blob s.mem).Word s.cursor 1)
    (h : ∀ t b, ¬ TokenAt (blocks.blob s.mem) s.cursor t b) :
    DtbPatcher.beginNode (Progress.patcher layout blocks { s with cursor := s.cursor + 4 }) =
      .ok none := by
  have hle : s.cursor + 4 ≤ blocks.structEnd := hword.le
  have hlt := hs.structEnd_lt
  rcases nulIndex_cases (m := s.mem) (a := s.cursor + 4) (n := blocks.structEnd - (s.cursor + 4))
      (fun i hi => hs.readable _ (by omega) (by omega)) (by omega) with ⟨name, hname, hstr⟩ | hnul
  · exact absurd (.beginNode hword hstr (by show _ < blocks.structEnd; omega)) (h _ _)
  · rw [DtbPatcher.beginNode]
    simp only
    rw [hnul, ok_bind, if_pos (show s.cursor + 4 + (blocks.structEnd - (s.cursor + 4)) =
      blocks.structEnd by omega)]
    rfl

/-- A property without a header, a value or a name. -/
lemma property_of_no_token (hs : s.Ready blocks) (hword : (blocks.blob s.mem).Word s.cursor 3)
    (h : ∀ t b, ¬ TokenAt (blocks.blob s.mem) s.cursor t b) :
    DtbPatcher.property (Progress.patcher layout blocks { s with cursor := s.cursor + 4 }) =
      .ok none := by
  have hend := hs.structEnd_lt
  have hstrings := hs.strings_lt
  rw [DtbPatcher.property]
  simp only
  split
  case isTrue => rfl
  case isFalse hhead =>
    rw [not_or, not_lt] at hhead
    obtain ⟨len, hlen⟩ := hs.exists_word (a := s.cursor + 4) (by omega) (by omega)
    obtain ⟨nameOff, hoff⟩ := hs.exists_word (a := s.cursor + 8) (by omega) (by omega)
    have hlen' : loadBe32 s.mem (s.cursor + 4) = .ok len :=
      hlen.loadBe32_eq (hend.trans (by norm_num))
    have hoff' : loadBe32 s.mem (s.cursor + 4 + 4) = .ok nameOff :=
      hoff.loadBe32_eq (hend.trans (by norm_num))
    rw [hlen', ok_bind, hoff', ok_bind]
    split
    case isTrue => rfl
    case isFalse hdata =>
      rw [not_or, not_lt, not_le] at hdata
      rcases nulIndex_cases (m := s.mem) (a := blocks.stringsOff + nameOff)
          (n := blocks.stringsSize - nameOff) (fun i hi => hs.names _ (by omega) (by omega))
          (by omega) with ⟨name, hname, hstr⟩ | hnul
      · obtain ⟨value, rfl, hvalue⟩ := exists_hasBytes (m := s.mem) (a := s.cursor + 12) (n := len)
          fun i hi => hs.readable _ (by omega) (by omega)
        refine absurd (.prop hword hlen hoff ⟨?_, hstr⟩ hvalue ?_) (h _ _)
        · show nameOff + name.length < blocks.stringsSize
          omega
        · show s.cursor + 12 + value.length ≤ blocks.structEnd
          omega
      · rw [hnul, ok_bind, if_pos (show nameOff + (blocks.stringsSize - nameOff) =
          blocks.stringsSize by omega)]
        rfl

/-- A cursor without a token. -/
lemma step_of_no_token (hs : s.Ready blocks) (hle : s.cursor + 4 ≤ blocks.structEnd)
    (h : ∀ t b, ¬ TokenAt (blocks.blob s.mem) s.cursor t b) :
    DtbPatcher.step (s.patcher layout blocks) = .ok (.inr false) := by
  obtain ⟨v, hword⟩ := hs.exists_word le_rfl hle
  have hload : loadBe32 s.mem s.cursor = .ok v :=
    hword.loadBe32_eq (hs.structEnd_lt.trans (by norm_num))
  rw [DtbPatcher.step]
  simp only [hload, ok_bind]
  cases hv : FDT.ofWord v with
  | none => rfl
  | some tok =>
    rcases ofWord_eq_some hv with ⟨rfl, rfl⟩ | ⟨rfl, rfl⟩ | ⟨rfl, rfl⟩ | ⟨rfl, rfl⟩ | ⟨rfl, rfl⟩
    · have hbegin := beginNode_of_no_token layout hs hword h
      simp only [Progress.patcher] at hbegin ⊢
      rw [hbegin]
      rfl
    · exact absurd (.endNode hword) (h _ _)
    · have hprop := property_of_no_token layout hs hword h
      simp only [Progress.patcher] at hprop ⊢
      rw [hprop]
      rfl
    · exact absurd (.nop hword) (h _ _)
    · exact absurd (.finish hword) (h _ _)

/-- A token that lies at the cursor. -/
lemma step_of_tokenAt (hs : s.Ready blocks) (ht : TokenAt (blocks.blob s.mem) s.cursor t b) :
    DtbPatcher.step (s.patcher layout blocks) = .ok (if t = .finish then .inr (decide s.Done)
      else if s.Allows t then .inl ((s.next layout t b).patcher layout blocks)
      else .inr false) := by
  have hload {v : ℕ} (hword : (blocks.blob s.mem).Word s.cursor v) :
      loadBe32 s.mem s.cursor = .ok v := hword.loadBe32_eq (hs.structEnd_lt.trans (by norm_num))
  rw [DtbPatcher.step]
  cases ht with
  | @beginNode name hword hname hend =>
    have hbegin := beginNode_of_tokenAt layout hs (.beginNode hword hname hend)
    simp only [Progress.patcher, hload hword, ok_bind, FDT.ofWord] at hbegin ⊢
    rw [hbegin, ok_bind, if_neg (show ¬ Token.beginNode name = .finish by simp)]
    by_cases hallows : s.Allows (.beginNode name)
    · rw [if_pos hallows, if_pos hallows]
      rfl
    · rw [if_neg hallows, if_neg hallows]
      rfl
  | @prop nameOff name value hword hlen hoff hname hvalue hend =>
    have hprop := property_of_tokenAt layout hs
      (.prop hword hlen hoff hname hvalue hend)
    simp only [Progress.patcher, hload hword, ok_bind, FDT.ofWord] at hprop ⊢
    rw [hprop, ok_bind, if_neg (show ¬ Token.prop nameOff name value = .finish by simp)]
    by_cases hallows : s.Allows (.prop nameOff name value)
    · rw [if_pos hallows, if_pos hallows]
      rfl
    · rw [if_neg hallows, if_neg hallows]
      rfl
  | endNode hword =>
    simp only [Progress.patcher, hload hword, ok_bind, FDT.ofWord]
    rw [if_neg (show ¬ Token.endNode = .finish by simp)]
    by_cases h0 : s.path = []
    · rw [if_pos (show s.path.length = 0 by rw [h0]; rfl),
        if_neg (show ¬ s.Allows .endNode from fun h => h h0)]
      rfl
    · rw [if_neg (show ¬ s.path.length = 0 by simpa using h0),
        if_pos (show s.Allows .endNode from h0)]
      simp only [Progress.next, pathAfter, siteOf, nodeOf_dropLast _ h0, List.length_dropLast]
      rfl
  | nop hword =>
    simp only [Progress.patcher, hload hword, ok_bind, FDT.ofWord]
    rw [if_neg (show ¬ Token.nop = .finish by simp), if_pos (show s.Allows .nop from trivial)]
    rfl
  | finish hword =>
    have hfinish := finish_patcher layout blocks { s with cursor := s.cursor + 4 }
    simp only [Progress.patcher, hload hword, ok_bind, FDT.ofWord] at hfinish ⊢
    rw [hfinish, if_pos trivial]
    rfl

end step

end BootLoader

end HyperBerry
