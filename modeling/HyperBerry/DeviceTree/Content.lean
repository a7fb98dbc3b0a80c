import HyperBerry.DeviceTree.HostMemory

/-!
# Trees with mixed content

A node whose properties and subnodes stand in any order, as a structure block may hold them.  What
such a node tells is a list of events; a list of events tells a single tree exactly when it opens
one root, closes what it opens, and has properties only in nodes (`singleRoot_iff`).
-/

namespace HyperBerry

namespace DeviceTree

open Memory Walk

/-! ## Trees whose properties and subnodes are mixed -/

/-- What a node holds: its properties and subnodes, in any order. -/
inductive Content
  /-- A property. -/
  | prop (p : Property)
  /-- A subnode. -/
  | node (name : Name) (inner : List Content)

mutual

/-- The events of a part of a node. -/
def Content.events : Content → List Event
  | .prop p => [.has p]
  | .node name inner => .opens name :: (contentEvents inner ++ [.closes])

/-- The events of the parts of a node. -/
def contentEvents : List Content → List Event
  | [] => []
  | c :: cs => c.events ++ contentEvents cs

end

/-- The properties directly in a node. -/
def directProps (inner : List Content) : List Property :=
  inner.filterMap fun
    | .prop p => some p
    | .node _ _ => none

/-- The properties directly in the depth-1 nodes below a root that holds the given content, with the
names of these nodes. -/
def depthOneProps (content : List Content) : List (Name × Property) :=
  content.flatMap fun
    | .prop _ => []
    | .node name inner => (directProps inner).map fun p => (name, p)

/-! ## Properties with their paths -/

mutual

/-- The properties of a part of a node, each with its path. -/
def Content.pathProps (path : List Name) : Content → List PathProp
  | .prop p => [⟨path, p.name, p.value⟩]
  | .node name inner => contentPathProps (path ++ [name]) inner

/-- The properties of the parts of a node. -/
def contentPathProps (path : List Name) : List Content → List PathProp
  | [] => []
  | c :: cs => c.pathProps path ++ contentPathProps path cs

end

mutual

/-- The events of a part of a node tell its properties. -/
theorem propsAt_content (path : List Name) (rest : List Event) :
    (c : Content) → propsAt path (c.events ++ rest) = c.pathProps path ++ propsAt path rest
  | .prop p => rfl
  | .node name inner => by
    rw [Content.events, List.cons_append, propsAt, List.append_assoc, propsAt_contentEvents,
      List.singleton_append, propsAt, List.dropLast_concat, Content.pathProps]

/-- The events of the parts of a node tell their properties. -/
theorem propsAt_contentEvents (path : List Name) (rest : List Event) :
    (cs : List Content) →
      propsAt path (contentEvents cs ++ rest) = contentPathProps path cs ++ propsAt path rest
  | [] => rfl
  | c :: cs => by
    rw [contentEvents, List.append_assoc, propsAt_content, propsAt_contentEvents, contentPathProps,
      List.append_assoc]

end

mutual

/-- The events of a part of a node close what they open. -/
theorem closes_content (path : List Name) (rest : List Event) :
    (c : Content) → (Closes path (c.events ++ rest) ↔ Closes path rest)
  | .prop p => by simp [Content.events, Closes, pathAt]
  | .node name inner => by
    rw [Content.events, List.cons_append, Closes, List.append_assoc, pathAt, closes_contentEvents,
      List.singleton_append, Closes, pathAt, List.dropLast_concat]
    simp

/-- The events of the parts of a node close what they open. -/
theorem closes_contentEvents (path : List Name) (rest : List Event) :
    (cs : List Content) → (Closes path (contentEvents cs ++ rest) ↔ Closes path rest)
  | [] => Iff.rfl
  | c :: cs => by
    rw [contentEvents, List.append_assoc, closes_content, closes_contentEvents]

end

mutual

/-- The properties of a part of a node lie below the node. -/
theorem length_le_pathProps (path : List Name) {p : PathProp} :
    (c : Content) → p ∈ c.pathProps path → path.length ≤ p.path.length
  | .prop q, h => by
    rw [Content.pathProps, List.mem_singleton] at h
    rw [h]
  | .node name inner, h => by
    have hle := length_le_contentPathProps (path ++ [name]) inner h
    rw [List.length_append] at hle
    omega

/-- The properties of the parts of a node lie below the node. -/
theorem length_le_contentPathProps (path : List Name) {p : PathProp} :
    (cs : List Content) → p ∈ contentPathProps path cs → path.length ≤ p.path.length
  | [], h => absurd h List.not_mem_nil
  | c :: cs, h => by
    rcases List.mem_append.mp h with h | h
    · exact length_le_pathProps path c h
    · exact length_le_contentPathProps path cs h

end

/-! ## The depth-1 nodes -/

variable {root : Name} {path : List Name}

/-- The properties below depth 1 have longer paths. -/
lemma filter_length_of_deep (hpath : 2 < path.length) (cs : List Content) :
    (contentPathProps path cs).filter (fun p => p.path.length = 2) = [] := by
  rw [List.filter_eq_nil_iff]
  intro p hp htwo
  have hle := length_le_contentPathProps path cs hp
  have hlength := of_decide_eq_true htwo
  omega

/-- The properties with the path of a depth-1 node are directly in it. -/
lemma filter_length_node (name : Name) (inner : List Content) :
    (contentPathProps [root, name] inner).filter (fun p => p.path.length = 2) =
      (directProps inner).map fun p => ⟨[root, name], p.name, p.value⟩ := by
  induction inner with
  | nil => rfl
  | cons c inner ih =>
    rw [contentPathProps, List.filter_append, ih]
    cases c with
    | node sub more =>
      rw [Content.pathProps, filter_length_of_deep (by simp), List.nil_append]
      rfl
    | prop p => rfl

/-- The properties with paths of length two are those of the depth-1 nodes. -/
lemma filter_length_two (root : Name) (content : List Content) :
    (contentPathProps [root] content).filter (fun p => p.path.length = 2) =
      (depthOneProps content).map fun q => ⟨[root, q.1], q.2.name, q.2.value⟩ := by
  induction content with
  | nil => rfl
  | cons c content ih =>
    rw [contentPathProps, List.filter_append, ih]
    cases c with
    | node name inner =>
      have hcons : depthOneProps (.node name inner :: content) =
          (directProps inner).map (fun p => (name, p)) ++ depthOneProps content :=
        List.flatMap_cons
      rw [hcons, List.map_append, List.map_map, Content.pathProps, List.singleton_append,
        filter_length_node]
      rfl
    | prop p => rfl

/-! ## Lists of events that tell a tree -/

variable {es rest : List Event}

/-- The events open a single root, with an empty name, close what they open, and have properties
only in nodes; `opened` says whether the root has been opened. -/
def SingleRoot (path : List Name) (opened : Bool) : List Event → Prop
  | [] => opened = true ∧ path = []
  | .opens name :: rest =>
    (path = [] → opened = false ∧ name = []) ∧ SingleRoot (path ++ [name]) true rest
  | .has _ :: rest => path ≠ [] ∧ SingleRoot path opened rest
  | .closes :: rest => path ≠ [] ∧ SingleRoot path.dropLast opened rest

mutual

/-- A part of a node stays below the root. -/
theorem singleRoot_content (path : List Name) (hpath : path ≠ []) (rest : List Event) :
    (c : Content) → (SingleRoot path true (c.events ++ rest) ↔ SingleRoot path true rest)
  | .prop p => by simp [Content.events, SingleRoot, hpath]
  | .node name inner => by
    have hne : path ++ [name] ≠ [] := List.concat_ne_nil _ _
    rw [Content.events, List.cons_append, SingleRoot, List.append_assoc,
      singleRoot_contentEvents (path ++ [name]) hne, List.singleton_append, SingleRoot,
      List.dropLast_concat]
    simp [hpath]

/-- The parts of a node stay below the root. -/
theorem singleRoot_contentEvents (path : List Name) (hpath : path ≠ []) (rest : List Event) :
    (cs : List Content) →
      (SingleRoot path true (contentEvents cs ++ rest) ↔ SingleRoot path true rest)
  | [] => Iff.rfl
  | c :: cs => by
    rw [contentEvents, List.append_assoc, singleRoot_content path hpath,
      singleRoot_contentEvents path hpath]

end

/-- Below the root, the events tell the rest of the innermost node first. -/
lemma exists_contentEvents (hpath : path ≠ []) (h : SingleRoot path true es) :
    ∃ cs rest, es = contentEvents cs ++ .closes :: rest ∧ SingleRoot path.dropLast true rest := by
  -- A subnode takes two pieces off the list, so the induction is on its length.
  induction hn : es.length using Nat.strong_induction_on generalizing path es with
  | h n ih =>
    subst hn
    cases es with
    | nil => exact absurd h.2 hpath
    | cons e es =>
      cases e with
      | closes => exact ⟨[], es, rfl, h.2⟩
      | has p =>
        obtain ⟨cs, rest, rfl, hrest⟩ := ih es.length (by simp) hpath h.2 rfl
        exact ⟨.prop p :: cs, rest, rfl, hrest⟩
      | opens name =>
        obtain ⟨inner, rest, rfl, hrest⟩ := ih es.length (by simp) (List.concat_ne_nil _ _) h.2 rfl
        rw [List.dropLast_concat] at hrest
        obtain ⟨cs, rest, rfl, hlast⟩ := ih rest.length (by simp; omega) hpath hrest rfl
        refine ⟨.node name inner :: cs, rest, ?_, hlast⟩
        simp only [contentEvents, Content.events, List.cons_append, List.append_assoc,
          List.nil_append]

/-- The events with a single root are those of a tree. -/
theorem singleRoot_iff :
    SingleRoot [] false es ↔ ∃ content, es = (Content.node [] content).events := by
  constructor
  · intro h
    cases es with
    | nil => cases h.1
    | cons e es =>
      cases e with
      | closes => exact absurd rfl h.1
      | has p => exact absurd rfl h.1
      | opens name =>
        obtain ⟨-, rfl⟩ := h.1 rfl
        obtain ⟨content, rest, rfl, hrest⟩ := exists_contentEvents (by simp) h.2
        refine ⟨content, ?_⟩
        -- nothing can follow the root
        cases rest with
        | nil => rfl
        | cons e rest =>
          cases e with
          | closes => exact absurd rfl hrest.1
          | has p => exact absurd rfl hrest.1
          | opens name => cases (hrest.1 rfl).1
  · rintro ⟨content, rfl⟩
    refine ⟨fun _ => ⟨rfl, rfl⟩, ?_⟩
    rw [List.nil_append, singleRoot_contentEvents [[]] (by simp)]
    exact ⟨by simp, rfl, rfl⟩

end DeviceTree

end HyperBerry
