import HyperBerry.BootLoader.PatchState

/-!
# A run of the patcher

The patcher goes through the tokens of the structure block while it writes into the values of some
of them.  It never writes at or behind its cursor and never into the strings block, so the tokens
that it reads are those of the original buffer (`Reaches.tokens`), and what it has written stays
(`Reaches.hasBytes`).  A second run therefore meets the same tokens with the values filled in
(`Reaches.again`).
-/

namespace HyperBerry

namespace BootLoader

open Memory DtbPatcher Walk
open DeviceTree hiding inBounds

variable {layout : GuestLayout} {blocks : Blocks} {s s' : Progress} {t : Token} {a b : ℕ}
  {l : List (ℕ × Token)} {path : List Name}

/-! ## Tokens and slots -/

/-- The tokens close only what is open, and there is no end token among them. -/
def Nested : List Name → List (ℕ × Token) → Prop
  | _, [] => True
  | path, (_, t) :: l => t ≠ .finish ∧ (t = .endNode → path ≠ []) ∧ Nested (pathAfter path t) l

/-- The slots among some tokens, with the addresses of the tokens. -/
def sitesOf : List Name → List (ℕ × Token) → List (ℕ × Slot)
  | _, [] => []
  | path, (a, t) :: l =>
    (siteOf path t).toList.map (fun slot => (a, slot)) ++ sitesOf (pathAfter path t) l

/-- A token after patching. -/
def fillToken (layout : GuestLayout) (path : List Name) : Token → Token
  | .prop nameOff name value =>
    .prop nameOff name ((slotOf path name).elim value (Slot.bytes layout))
  | t => t

/-- The tokens after patching. -/
def fill (layout : GuestLayout) : List Name → List (ℕ × Token) → List (ℕ × Token)
  | _, [] => []
  | path, (a, t) :: l => (a, fillToken layout path t) :: fill layout (pathAfter path t) l

/-- Patching keeps the paths. -/
@[simp] lemma pathAfter_fillToken (p : List Name) :
    pathAfter p (fillToken layout path t) = pathAfter p t := by
  cases t <;> rfl

/-- A token that is not a slot is not patched. -/
lemma fillToken_of_siteOf_eq_none (h : siteOf path t = none) : fillToken layout path t = t := by
  cases t with
  | prop nameOff name value =>
    have hslot : slotOf path name = none := h
    rw [fillToken, hslot]
    rfl
  | beginNode | endNode | nop | finish => rfl

/-- The property that fills a slot. -/
lemma of_slotOf_eq_some {slot : Slot} {name : Name} (h : slotOf path name = some slot) :
    path.length = 2 ∧ slot.node = nodeOf path ∧ name = slot.name := by
  rw [slotOf] at h
  split at h
  case isTrue hlen =>
    have hfound := List.find?_some h
    rw [decide_eq_true_eq] at hfound
    exact ⟨hlen, hfound.1, hfound.2.symm⟩
  case isFalse => cases h

/-- A slot is a property with its name. -/
lemma exists_prop_of_siteOf {slot : Slot} (h : siteOf path t = some slot) :
    ∃ nameOff value, t = .prop nameOff slot.name value ∧ path.length = 2 ∧
      slot.node = nodeOf path := by
  cases t with
  | prop nameOff name value =>
    obtain ⟨hlen, hnode, hname⟩ := of_slotOf_eq_some h
    exact ⟨nameOff, value, by rw [hname], hlen, hnode⟩
  | beginNode | endNode | nop | finish => cases h

/-- The slot of a property of a depth-1 node. -/
lemma slotOf_eq_some {slot : Slot} (hlen : path.length = 2) (hnode : slot.node = nodeOf path) :
    slotOf path slot.name = some slot := by
  rw [slotOf, if_pos hlen, slotIn, ← hnode]
  cases slot <;> decide

/-! ## One step -/

section step

variable (layout)

/-- What a step writes lies in the value of the token. -/
lemma site_le (ht : TokenAt (blocks.blob s.mem) s.cursor t b) (hal : s.Allows t) {slot : Slot}
    (hslot : siteOf s.path t = some slot) :
    s.cursor + 12 + slot.length ≤ b ∧ s.cursor + 12 + slot.length ≤ blocks.structEnd := by
  obtain ⟨nameOff, value, rfl, -⟩ := exists_prop_of_siteOf hslot
  have hlen : value.length = slot.length := (hal.2 slot hslot).2
  cases ht with
  | prop _ _ _ _ _ hend =>
    rw [← hlen]
    exact ⟨le_roundUp4 _, hend⟩

/-- A step writes between the cursor and the next token, inside the structure block. -/
lemma next_mem_eq (ht : TokenAt (blocks.blob s.mem) s.cursor t b) (hal : s.Allows t) {i : ℕ}
    (hi : i < s.cursor ∨ b ≤ i ∨ blocks.structEnd ≤ i) : (s.next layout t b).mem i = s.mem i := by
  rw [Progress.next_mem]
  cases hslot : siteOf s.path t with
  | none => rfl
  | some slot =>
    obtain ⟨hb, hend⟩ := site_le ht hal hslot
    refine store_of_not_mem ?_
    rw [Slot.length_bytes]
    omega

/-- A step does not touch the strings block. -/
lemma next_names (hs : s.Ready blocks) (ht : TokenAt (blocks.blob s.mem) s.cursor t b)
    (hal : s.Allows t) : AgreeOn s.mem (s.next layout t b).mem blocks.stringsOff
      (blocks.stringsOff + blocks.stringsSize) := by
  intro i hlo hhi
  have hdis := hs.disjoint
  exact next_mem_eq layout ht hal (by omega)

/-- A step keeps the bytes that can be read. -/
lemma next_isSome {i : ℕ} (hi : (s.mem i).isSome) : ((s.next layout t b).mem i).isSome := by
  rw [Progress.next_mem]
  cases siteOf s.path t with
  | none => exact hi
  | some slot => exact isSome_store hi

/-- The patcher can go on after a step. -/
lemma Progress.Ready.next (hs : s.Ready blocks) (ht : TokenAt (blocks.blob s.mem) s.cursor t b)
    (hal : s.Allows t) : (s.next layout t b).Ready blocks := by
  have hlt := ht.lt
  refine ⟨hs.structEnd_lt, hs.strings_lt, ?_, ?_, ?_, ?_⟩
  · show blocks.structEnd ≤ blocks.stringsOff ∨ blocks.stringsOff + blocks.stringsSize ≤ b
    have hdis := hs.disjoint
    omega
  · intro i hi hend
    have hb : b ≤ i := hi
    exact next_isSome layout (hs.readable i (by omega) hend)
  · exact fun i hlo hhi => next_isSome layout (hs.names i hlo hhi)
  · show (pathAfter s.path t).length ≤ b
    have hdepth := hs.depth_le
    cases t with
    | beginNode name =>
      rw [pathAfter, List.length_append, List.length_singleton]
      omega
    | endNode =>
      rw [pathAfter, List.length_dropLast]
      omega
    | prop | nop | finish => exact hdepth.trans hlt.le

/-- After a step the filled token lies where the token was. -/
lemma tokenAt_next (hs : s.Ready blocks) (ht : TokenAt (blocks.blob s.mem) s.cursor t b)
    (hal : s.Allows t) :
    TokenAt (blocks.blob (s.next layout t b).mem) s.cursor (fillToken layout s.path t) b := by
  have hnames := next_names layout hs ht hal
  have hB : (blocks.blob s.mem).SameBlocks (blocks.blob (s.next layout t b).mem) :=
    ⟨rfl, rfl, rfl, hnames⟩
  cases hslot : siteOf s.path t with
  | none =>
    have hmem : (s.next layout t b).mem = s.mem := by rw [Progress.next_mem, hslot]; rfl
    rw [fillToken_of_siteOf_eq_none hslot, hmem]
    exact ht
  | some slot =>
    have hmem : (s.next layout t b).mem = s.mem.store (s.cursor + 12) (slot.bytes layout) := by
      rw [Progress.next_mem, hslot]
      rfl
    obtain ⟨nameOff, value, rfl, -⟩ := exists_prop_of_siteOf hslot
    have hlen : value.length = (slot.bytes layout).length := by
      rw [Slot.length_bytes]
      exact (hal.2 slot hslot).2
    have hfill : fillToken layout s.path (.prop nameOff slot.name value) =
        .prop nameOff slot.name (slot.bytes layout) := by
      have hslot' : slotOf s.path slot.name = some slot := hslot
      rw [fillToken, hslot']
      rfl
    have hhead {i : ℕ} (hi : i ≤ s.cursor + 12) :
        AgreeOn s.mem (s.next layout (.prop nameOff slot.name value) b).mem s.cursor i := by
      rw [hmem]
      exact agreeOn_store (.inl hi)
    rw [hfill]
    cases ht with
    | prop hword hlength hoff hname hvalue hend =>
      rw [hlen] at hend hlength ⊢
      refine .prop (hword.congr hB ?_) (hlength.congr hB ?_) (hoff.congr hB ?_) (hname.congr hB) ?_
        hend
      · exact (hhead (by omega)).mono le_rfl le_rfl
      · exact (hhead (by omega)).mono (by omega) le_rfl
      · exact (hhead (by omega)).mono (by omega) le_rfl
      · exact hmem.symm ▸ hasBytes_store

end step

/-! ## Many steps -/

/-- The patcher gets from one state to another over some tokens. -/
inductive Reaches (layout : GuestLayout) (blocks : Blocks) :
    Progress → List (ℕ × Token) → Progress → Prop
  | refl (s : Progress) : Reaches layout blocks s [] s
  | step {s s' : Progress} {t : Token} {b : ℕ} {l : List (ℕ × Token)} :
      TokenAt (blocks.blob s.mem) s.cursor t b → s.Allows t →
      Reaches layout blocks (s.next layout t b) l s' →
      Reaches layout blocks s ((s.cursor, t) :: l) s'

namespace Reaches

/-- The patcher can go on. -/
lemma ready (h : Reaches layout blocks s l s') (hs : s.Ready blocks) : s'.Ready blocks := by
  induction h with
  | refl => exact hs
  | step ht hal _ ih => exact ih (hs.next layout ht hal)

/-- The bytes that can be read stay so. -/
lemma isSome (h : Reaches layout blocks s l s') {i : ℕ} (hi : (s.mem i).isSome) :
    (s'.mem i).isSome := by
  induction h with
  | refl => exact hi
  | step _ _ _ ih => exact ih (next_isSome layout hi)

/-- The cursor moves forward. -/
lemma cursor_le (h : Reaches layout blocks s l s') : s.cursor ≤ s'.cursor := by
  induction h with
  | refl => exact le_rfl
  | step ht _ _ ih => exact ht.lt.le.trans ih

/-- Nothing is written before the cursor or behind the structure block. -/
lemma mem_eq (h : Reaches layout blocks s l s') {i : ℕ}
    (hi : i < s.cursor ∨ blocks.structEnd ≤ i) : s'.mem i = s.mem i := by
  induction h with
  | refl => rfl
  | step ht hal _ ih =>
    have hlt := ht.lt
    have htail := ih (by rw [Progress.next_cursor]; omega)
    exact htail.trans (next_mem_eq layout ht hal (by omega))

/-- Nothing is written at the cursor or behind it. -/
lemma mem_eq_of_le (h : Reaches layout blocks s l s') {i : ℕ} (hi : s'.cursor ≤ i) :
    s'.mem i = s.mem i := by
  induction h with
  | refl => rfl
  | step ht hal htail ih =>
    have hle := htail.cursor_le
    rw [Progress.next_cursor] at hle
    exact (ih hi).trans (next_mem_eq layout ht hal (.inr (.inl (hle.trans hi))))

/-- Nothing is written into the strings block. -/
lemma names (h : Reaches layout blocks s l s') (hs : s.Ready blocks) :
    AgreeOn s.mem s'.mem blocks.stringsOff (blocks.stringsOff + blocks.stringsSize) := by
  intro i hlo hhi
  have hdis := hs.disjoint
  exact h.mem_eq (by omega)

/-- The tokens are those of the buffer at the start. -/
lemma tokens (h : Reaches layout blocks s l s') (hs : s.Ready blocks) :
    Tokens (blocks.blob s.mem) s.cursor l s'.cursor := by
  induction h with
  | refl s => exact .nil _
  | @step s s' t b l ht hal _ ih =>
    refine .cons ht (tokens_congr (ih (hs.next layout ht hal)) ⟨rfl, rfl, rfl, ?_⟩ ?_)
    · exact fun i hlo hhi => (next_names layout hs ht hal i hlo hhi).symm
    · exact fun i hlo _ => (next_mem_eq layout ht hal (.inr (.inl hlo))).symm

/-- The open nodes at the end. -/
lemma path_eq (h : Reaches layout blocks s l s') : s'.path = pathOf s.path l := by
  induction h with
  | refl => rfl
  | step _ _ _ ih => exact ih

/-- The tokens are nested. -/
lemma nested (h : Reaches layout blocks s l s') : Nested s.path l := by
  induction h with
  | refl => trivial
  | @step s s' t b l _ hal _ ih =>
    refine ⟨?_, ?_, ih⟩
    · rintro rfl
      exact hal
    · rintro rfl
      exact hal

/-- The slots that are filled on the way. -/
lemma found_eq (h : Reaches layout blocks s l s') :
    s'.found = ((sitesOf s.path l).map Prod.snd).reverse ++ s.found := by
  induction h with
  | refl => rfl
  | @step s s' t b l _ _ _ ih =>
    rw [ih, sitesOf, List.map_append, List.reverse_append, List.append_assoc,
      Progress.next_path, Progress.next_found]
    cases siteOf s.path t <;> rfl

/-- No slot is filled twice. -/
lemma nodup (h : Reaches layout blocks s l s') (hs : s.found.Nodup) : s'.found.Nodup := by
  induction h with
  | refl => exact hs
  | @step s s' t b l _ hal _ ih =>
    refine ih ?_
    rw [Progress.next_found]
    cases hslot : siteOf s.path t with
    | none => exact hs
    | some slot =>
      obtain ⟨nameOff, value, rfl, -⟩ := exists_prop_of_siteOf hslot
      exact List.nodup_cons.mpr ⟨(hal.2 slot hslot).1, hs⟩

/-- What has been written stays. -/
lemma hasBytes (h : Reaches layout blocks s l s') {slot : Slot}
    (hmem : (a, slot) ∈ sitesOf s.path l) : s'.mem.HasBytes (a + 12) (slot.bytes layout) := by
  induction h with
  | refl => cases hmem
  | @step s s' t b l ht hal htail ih =>
    rw [sitesOf, List.mem_append] at hmem
    rcases hmem with hhead | hrest
    · obtain ⟨slot', hslot, heq⟩ := List.mem_map.mp hhead
      cases heq
      rw [Option.mem_toList] at hslot
      have hwritten : (s.next layout t b).mem.HasBytes (s.cursor + 12) (slot.bytes layout) := by
        rw [Progress.next_mem, hslot]
        exact hasBytes_store
      refine hwritten.congr fun i hlo hhi => htail.mem_eq (.inl ?_)
      have hb := (site_le ht hal hslot).1
      rw [Slot.length_bytes] at hhi
      exact lt_of_lt_of_le hhi hb
    · exact ih hrest

/-- Only slots are written. -/
lemma mem_eq_of_not_site (h : Reaches layout blocks s l s') {i : ℕ}
    (hi : ∀ a slot, (a, slot) ∈ sitesOf s.path l → ¬ (a + 12 ≤ i ∧ i < a + 12 + slot.length)) :
    s'.mem i = s.mem i := by
  induction h with
  | refl => rfl
  | @step s s' t b l ht hal _ ih =>
    have htail := ih fun a slot hmem => hi a slot (by
      rw [sitesOf]
      exact List.mem_append_right _ hmem)
    rw [htail, Progress.next_mem]
    cases hslot : siteOf s.path t with
    | none => rfl
    | some slot =>
      refine store_of_not_mem ?_
      rw [Slot.length_bytes]
      refine hi s.cursor slot ?_
      rw [sitesOf, hslot]
      exact List.mem_append_left _ (by simp)

/-- A second run meets the same tokens with the values filled in, and changes nothing. -/
lemma again (h : Reaches layout blocks s l s') (hs : s.Ready blocks) :
    Reaches layout blocks { s with mem := s'.mem } (fill layout s.path l) s' := by
  induction h with
  | refl s => exact .refl _
  | @step s s' t b l ht hal htail ih =>
    have hready := hs.next layout ht hal
    -- the token as it is after the step is still there at the end
    have htoken : TokenAt (blocks.blob s'.mem) s.cursor (fillToken layout s.path t) b := by
      refine (tokenAt_next layout hs ht hal).congr ⟨rfl, rfl, rfl, ?_⟩ ?_
      · exact htail.names hready
      · exact fun i _ hi => htail.mem_eq (.inl (lt_of_lt_of_le hi (min_le_left _ _)))
    have hallows : Progress.Allows { s with mem := s'.mem } (fillToken layout s.path t) := by
      cases t with
      | prop nameOff name value =>
        refine ⟨hal.1, fun slot hslot => ⟨(hal.2 slot hslot).1, ?_⟩⟩
        rw [show slotOf s.path name = some slot from hslot]
        exact Slot.length_bytes layout slot
      | beginNode | endNode | nop | finish => exact hal
    have hnext : Progress.next layout { s with mem := s'.mem } (fillToken layout s.path t) b =
        { s.next layout t b with mem := s'.mem } := by
      have hmem : (siteOf s.path t).elim s'.mem (fun slot =>
          s'.mem.store (s.cursor + 12) (slot.bytes layout)) = s'.mem := by
        cases hslot : siteOf s.path t with
        | none => rfl
        | some slot =>
          refine HasBytes.store_eq ((Reaches.step ht hal htail).hasBytes ?_)
          rw [sitesOf, hslot]
          exact List.mem_append_left _ (by simp)
      cases t with
      | prop nameOff name value => exact congrArg (fun m => Progress.mk _ _ _ m _) hmem
      | beginNode | endNode | nop | finish => rfl
    refine .step htoken hallows ?_
    rw [hnext]
    exact ih hready

end Reaches

/-! ## The loop -/

/-- The loop comes to an end: at the end token, or where the patcher cannot go on. -/
lemma loop_cases (layout : GuestLayout) {fuel : ℕ} (hs : s.Ready blocks) (hpos : 0 < fuel)
    (hfuel : blocks.structEnd < s.cursor + fuel) :
    ∃ l s', Reaches layout blocks s l s' ∧
      ((∃ b, TokenAt (blocks.blob s'.mem) s'.cursor .finish b) ∧
          loop fuel (s.patcher layout blocks) = .ok (decide s'.Done, s'.mem) ∨
        loop fuel (s.patcher layout blocks) = .ok (false, s'.mem)) := by
  induction fuel generalizing s with
  | zero => exact absurd hpos (lt_irrefl 0)
  | succ fuel ih =>
    rw [loop]
    by_cases hin : s.cursor + 4 ≤ blocks.structEnd
    · rw [if_pos (show s.cursor ≤ blocks.structEnd ∧ blocks.structEnd - s.cursor ≥ 4 by omega)]
      by_cases htok : ∃ t b, TokenAt (blocks.blob s.mem) s.cursor t b
      · obtain ⟨t, b, ht⟩ := htok
        rw [step_of_tokenAt layout hs ht, ok_bind]
        by_cases hfin : t = .finish
        · subst hfin
          exact ⟨[], s, .refl s, .inl ⟨⟨b, ht⟩, by rw [if_pos rfl]; rfl⟩⟩
        · rw [if_neg hfin]
          by_cases hal : s.Allows t
          · rw [if_pos hal]
            have hlt := ht.lt
            obtain ⟨l, s', hreach, hloop⟩ := ih (hs.next layout ht hal) (by omega)
              (by rw [Progress.next_cursor]; omega)
            exact ⟨_, s', .step ht hal hreach, hloop⟩
          · rw [if_neg hal]
            exact ⟨[], s, .refl s, .inr rfl⟩
      · rw [step_of_no_token layout hs hin fun t b ht => htok ⟨t, b, ht⟩, ok_bind]
        exact ⟨[], s, .refl s, .inr rfl⟩
    · rw [if_neg (show ¬ (s.cursor ≤ blocks.structEnd ∧ blocks.structEnd - s.cursor ≥ 4) by omega)]
      exact ⟨[], s, .refl s, .inr rfl⟩

/-- The loop over tokens up to the end token. -/
lemma loop_of_reaches (h : Reaches layout blocks s l s') (hs : s.Ready blocks)
    (hfin : TokenAt (blocks.blob s'.mem) s'.cursor .finish b) {fuel : ℕ}
    (hfuel : l.length < fuel) :
    loop fuel (s.patcher layout blocks) = .ok (decide s'.Done, s'.mem) := by
  induction h generalizing fuel with
  | refl s =>
    obtain ⟨fuel, rfl⟩ : ∃ n, fuel = n + 1 := ⟨fuel - 1, by omega⟩
    have hin : s.cursor + 4 ≤ blocks.structEnd := hfin.add_four_le
    rw [loop, if_pos (show s.cursor ≤ blocks.structEnd ∧ blocks.structEnd - s.cursor ≥ 4 by omega),
      step_of_tokenAt layout hs hfin, ok_bind, if_pos rfl]
    rfl
  | @step s s' t c l ht hal _ ih =>
    rw [List.length_cons] at hfuel
    obtain ⟨fuel, rfl⟩ : ∃ n, fuel = n + 1 := ⟨fuel - 1, by omega⟩
    have hin : s.cursor + 4 ≤ blocks.structEnd := ht.add_four_le
    have hne : t ≠ .finish := by
      rintro rfl
      exact hal
    rw [loop, if_pos (show s.cursor ≤ blocks.structEnd ∧ blocks.structEnd - s.cursor ≥ 4 by omega),
      step_of_tokenAt layout hs ht, ok_bind, if_neg hne, if_pos hal]
    exact ih (hs.next layout ht hal) hfin (by omega)

/-! ## The header -/

/-- A header that the patcher accepts, for a buffer of the given size. -/
structure PatchHeader (m : Memory) (size : ℕ) (f : HeaderField → ℕ) : Prop where
  /-- The bytes of the fields. -/
  words : ∀ field : HeaderField, m.HasBytes field.offset (beBytes 4 (f field))
  /-- The fields have 32 bits. -/
  lt : ∀ field : HeaderField, f field < 2 ^ 32
  /-- The magic number. -/
  magic : f .magic = fdtMagic
  /-- The header lies in the blob. -/
  header_le : fdtHeaderSize ≤ f .totalSize
  /-- The blob lies in the buffer. -/
  total_le : f .totalSize ≤ size
  /-- The structure block lies in the blob behind the header. -/
  structs : inBounds (f .totalSize) (f .structOff) (f .sizeStructs)
  /-- The structure block is aligned. -/
  aligned : f .structOff % 4 = 0
  /-- The strings block lies in the blob behind the header. -/
  strings : inBounds (f .totalSize) (f .stringsOff) (f .sizeStrings)
  /-- The blocks do not overlap. -/
  disjoint : f .structOff ≥ f .stringsOff + f .sizeStrings ∨
    f .stringsOff ≥ f .structOff + f .sizeStructs

/-- The blocks of a header. -/
abbrev headerBlocks (f : HeaderField → ℕ) : Blocks :=
  ⟨f .structOff, f .structOff + f .sizeStructs, f .stringsOff, f .sizeStrings⟩

variable {m m' : Memory} {size : ℕ} {f f' : HeaderField → ℕ}

/-- Header fields are determined by their bytes. -/
lemma fields_unique (hf : ∀ field : HeaderField,
      m.HasBytes field.offset (beBytes 4 (f field)) ∧ f field < 2 ^ 32)
    (hf' : ∀ field : HeaderField,
      m.HasBytes field.offset (beBytes 4 (f' field)) ∧ f' field < 2 ^ 32) : f = f' := by
  funext field
  obtain ⟨hbytes, hlt⟩ := hf field
  obtain ⟨hbytes', hlt'⟩ := hf' field
  exact beBytes_injective (n := 4) (by omega) (by omega)
    (hbytes.unique hbytes' (by rw [length_beBytes, length_beBytes]))

/-- The header is determined by the buffer. -/
lemma PatchHeader.unique (h : PatchHeader m size f) (h' : PatchHeader m size f') : f = f' :=
  fields_unique (fun field => ⟨h.words field, h.lt field⟩)
    fun field => ⟨h'.words field, h'.lt field⟩

/-- The header in a buffer that agrees on it. -/
lemma PatchHeader.congr (h : PatchHeader m size f) (hm : AgreeOn m m' 0 fdtHeaderSize) :
    PatchHeader m' size f :=
  { h with
    words := fun field => (h.words field).congr (hm.mono (Nat.zero_le _) (by
      rw [length_beBytes]
      exact field.offset_le)) }

/-- A `memcpy` of bytes that are there. -/
lemma readBytes_ok {n : ℕ} (h : ∀ i < n, (m (a + i)).isSome) (ha : a + n < 2 ^ 64) :
    ∃ xs, readBytes m a n = .ok xs := by
  induction n generalizing a with
  | zero => exact ⟨[], rfl⟩
  | succ n ih =>
    obtain ⟨x, hx⟩ := Option.isSome_iff_exists.mp (h 0 (Nat.succ_pos n))
    obtain ⟨xs, hxs⟩ := ih (a := a + 1) (fun i hi => by
      rw [show a + 1 + i = a + (i + 1) by omega]
      exact h (i + 1) (by omega)) (by omega)
    rw [Nat.add_zero] at hx
    rw [readBytes, load8_eq_ok.mpr hx, ok_bind, add64_of_lt (by omega), hxs, ok_bind]
    exact ⟨x :: xs, rfl⟩

/-- The header checks find a header exactly when there is one. -/
lemma readHeader_cases (hread : ∀ i < size, (m i).isSome) :
    (∃ f, PatchHeader m size f ∧ readHeader m size = .ok (some (headerBlocks f))) ∨
      (readHeader m size = .ok none ∧ ∀ f, ¬ PatchHeader m size f) := by
  by_cases hsize : size < fdtHeaderSize
  · refine .inr ⟨by rw [readHeader, if_pos hsize], fun f hf => ?_⟩
    exact absurd (hf.header_le.trans hf.total_le) (not_le.mpr hsize)
  · have hfields : ∀ field : HeaderField, ∃ v, m.HasBytes field.offset (beBytes 4 v) ∧
        v < 2 ^ 32 := by
      intro field
      have hoff := field.offset_le
      obtain ⟨xs, hlen, hxs⟩ := exists_hasBytes (m := m) (a := field.offset) (n := 4) fun i hi =>
        hread _ (by omega)
      have hlt := beNat_lt xs
      have hround := beBytes_beNat xs
      rw [hlen] at hlt hround
      exact ⟨beNat xs, hround.symm ▸ hxs, hlt.trans_le (by norm_num)⟩
    choose f hf using hfields
    have hheader : ∀ field, header m 0 field = .ok (f field) := by
      intro field
      have hoff := field.offset_le
      unfold fdtHeaderSize at hoff
      rw [header, add64_of_lt (by omega), Nat.zero_add, loadBe32_eq_ok (by omega)]
      exact hf field
    obtain ⟨xs, hxs⟩ := readBytes_ok (m := m) (a := 0) (n := fdtHeaderSize)
      (fun i hi => by rw [Nat.zero_add]; exact hread i (by omega)) (by norm_num [fdtHeaderSize])
    have hread : readHeader m size =
        if f .magic ≠ fdtMagic ∨ f .totalSize < fdtHeaderSize ∨ f .totalSize > size then .ok none
        else if ¬ inBounds (f .totalSize) (f .structOff) (f .sizeStructs) ∨ f .structOff % 4 ≠ 0 ∨
            ¬ inBounds (f .totalSize) (f .stringsOff) (f .sizeStrings) then .ok none
        else if f .structOff ≥ f .stringsOff + f .sizeStrings ∨
            f .stringsOff ≥ f .structOff + f .sizeStructs then .ok (some (headerBlocks f))
        else .ok none := by
      rw [readHeader, if_neg hsize]
      simp only [hxs, hheader, ok_bind]
      rfl
    have hunique : ∀ f', PatchHeader m size f' → f' = f := fun f' hf' =>
      fields_unique (fun field => ⟨hf'.words field, hf'.lt field⟩) hf
    rw [hread]
    by_cases h1 : f .magic ≠ fdtMagic ∨ f .totalSize < fdtHeaderSize ∨ f .totalSize > size
    · refine .inr ⟨by rw [if_pos h1], fun f' hf' => ?_⟩
      obtain rfl := hunique f' hf'
      rcases h1 with hmagic | hhead | htotal
      · exact hmagic hf'.magic
      · exact absurd hf'.header_le (not_le.mpr hhead)
      · exact absurd hf'.total_le (not_le.mpr htotal)
    rw [if_neg h1]
    by_cases h2 : ¬ inBounds (f .totalSize) (f .structOff) (f .sizeStructs) ∨
        f .structOff % 4 ≠ 0 ∨ ¬ inBounds (f .totalSize) (f .stringsOff) (f .sizeStrings)
    · refine .inr ⟨by rw [if_pos h2], fun f' hf' => ?_⟩
      obtain rfl := hunique f' hf'
      rcases h2 with hstructs | haligned | hstrings
      · exact hstructs hf'.structs
      · exact haligned hf'.aligned
      · exact hstrings hf'.strings
    rw [if_neg h2]
    by_cases h3 : f .structOff ≥ f .stringsOff + f .sizeStrings ∨
        f .stringsOff ≥ f .structOff + f .sizeStructs
    · rw [if_pos h3]
      simp only [not_or, not_not, not_lt] at h1 h2
      exact .inl ⟨f, ⟨fun field => (hf field).1, fun field => (hf field).2, h1.1, h1.2.1, h1.2.2,
        h2.1, h2.2.1, h2.2.2, h3⟩, rfl⟩
    · refine .inr ⟨by rw [if_neg h3], fun f' hf' => ?_⟩
      obtain rfl := hunique f' hf'
      exact h3 hf'.disjoint

end BootLoader

end HyperBerry
