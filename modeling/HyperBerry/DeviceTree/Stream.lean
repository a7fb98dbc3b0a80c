import HyperBerry.DeviceTree.TreeParser

/-!
# The structure block as a sequence of tokens

What a structure block is, in terms of the bytes in memory and of no walk in particular: `TokenAt`
says which token lies at an address and where the next one starts, and a `Chain` of such tokens is a
stretch of the block.  The nodes that are open after some tokens form a path, the root first; a
chain of tokens is `Balanced` when it closes what it opens and ends with its only end token.
-/

namespace HyperBerry

namespace DeviceTree

open Memory Walk

/-- The name of a node or a property. -/
abbrev Name := List UInt8

/-- A token with what belongs to it. -/
inductive Token
  /-- A node opens. -/
  | beginNode (name : Name)
  /-- A node closes. -/
  | endNode
  /-- A property, with the offset of its name in the strings block. -/
  | prop (nameOff : ℕ) (name : Name) (value : List UInt8)
  /-- Nothing. -/
  | nop
  /-- The end of the structure block. -/
  | finish
deriving DecidableEq

/-- A blob in memory: where its structure block ends, and where its strings block is. -/
structure Blob where
  /-- The memory. -/
  mem : Memory
  /-- The end of the structure block. -/
  structEnd : ℕ
  /-- The start of the strings block. -/
  strings : ℕ
  /-- The size of the strings block. -/
  stringsSize : ℕ

/-- The big-endian word `v` lies at `a` in the structure block. -/
structure Blob.Word (B : Blob) (a v : ℕ) : Prop where
  /-- The word lies in the block. -/
  le : a + 4 ≤ B.structEnd
  /-- It has 32 bits. -/
  lt : v < 2 ^ 32
  /-- Its bytes. -/
  bytes : B.mem.HasBytes a (beBytes 4 v)

/-- The name of a property lies at an offset in the strings block. -/
structure Blob.PropName (B : Blob) (nameOff : ℕ) (name : Name) : Prop where
  /-- The name and its NUL lie in the block. -/
  lt : nameOff + name.length < B.stringsSize
  /-- The bytes of the name. -/
  string : B.mem.CString (B.strings + nameOff) name

/-- A token lies at `a`, and the next one starts at the given address. -/
inductive TokenAt (B : Blob) (a : ℕ) : Token → ℕ → Prop
  | beginNode {name : Name} (hword : B.Word a 1) (hname : B.mem.CString (a + 4) name)
      (hend : a + 4 + name.length < B.structEnd) :
      TokenAt B a (.beginNode name) (roundUp4 (a + 4 + name.length + 1))
  | endNode (hword : B.Word a 2) : TokenAt B a .endNode (a + 4)
  | prop {nameOff : ℕ} {name : Name} {value : List UInt8} (hword : B.Word a 3)
      (hlen : B.Word (a + 4) value.length) (hoff : B.Word (a + 8) nameOff)
      (hname : B.PropName nameOff name) (hvalue : B.mem.HasBytes (a + 12) value)
      (hend : a + 12 + value.length ≤ B.structEnd) :
      TokenAt B a (.prop nameOff name value) (roundUp4 (a + 12 + value.length))
  | nop (hword : B.Word a 4) : TokenAt B a .nop (a + 4)
  | finish (hword : B.Word a 9) : TokenAt B a .finish (a + 4)

/-- A stretch of the structure block. -/
abbrev Tokens (B : Blob) : ℕ → List (ℕ × Token) → ℕ → Prop := Chain (TokenAt B)

variable {B B' : Blob} {a b c v w : ℕ} {t t' : Token} {l l' : List (ℕ × Token)}

/-- Rounding up does not go down. -/
lemma le_roundUp4 (a : ℕ) : a ≤ roundUp4 a := by
  unfold roundUp4
  omega

/-- Rounding up goes up by at most three. -/
lemma roundUp4_le (a : ℕ) : roundUp4 a ≤ a + 3 := by
  unfold roundUp4
  omega

/-- Rounding up gives a multiple of four. -/
lemma four_dvd_roundUp4 (a : ℕ) : 4 ∣ roundUp4 a := Nat.dvd_mul_left _ _

/-- Rounding up from an aligned address. -/
lemma roundUp4_add {n : ℕ} (ha : 4 ∣ a) : roundUp4 (a + n) = a + roundUp4 n := by
  unfold roundUp4
  omega

/-- A token has a place. -/
lemma TokenAt.lt (h : TokenAt B a t b) : a < b := by
  cases h with
  | beginNode =>
    refine lt_of_lt_of_le ?_ (le_roundUp4 _)
    omega
  | prop =>
    refine lt_of_lt_of_le ?_ (le_roundUp4 _)
    omega
  | endNode => exact Nat.lt_add_of_pos_right (by norm_num)
  | nop => exact Nat.lt_add_of_pos_right (by norm_num)
  | finish => exact Nat.lt_add_of_pos_right (by norm_num)

/-- The word of a token lies in the structure block. -/
lemma TokenAt.add_four_le (h : TokenAt B a t b) : a + 4 ≤ B.structEnd := by
  cases h with
  | beginNode hword => exact hword.le
  | endNode hword => exact hword.le
  | prop hword => exact hword.le
  | nop hword => exact hword.le
  | finish hword => exact hword.le

/-- Tokens at aligned addresses are followed by tokens at aligned addresses. -/
lemma TokenAt.four_dvd (h : TokenAt B a t b) (ha : 4 ∣ a) : 4 ∣ b := by
  cases h with
  | beginNode => exact four_dvd_roundUp4 _
  | prop => exact four_dvd_roundUp4 _
  | endNode => exact ha.add dvd_rfl
  | nop => exact ha.add dvd_rfl
  | finish => exact ha.add dvd_rfl

/-! ## Determinism -/

/-- The word at an address is unique. -/
lemma Blob.Word.unique (hv : B.Word a v) (hw : B.Word a w) : v = w :=
  beBytes_injective (n := 4) (by have := hv.lt; omega) (by have := hw.lt; omega)
    (hv.bytes.unique hw.bytes (by rw [length_beBytes, length_beBytes]))

/-- The token at an address is unique. -/
lemma TokenAt.unique (h : TokenAt B a t b) (h' : TokenAt B a t' c) : t = t' ∧ b = c := by
  -- the word tells the kinds of token apart
  cases h with
  | beginNode hword hname hend =>
    cases h' with
    | beginNode hword' hname' hend' =>
      rw [hname.unique hname']
      exact ⟨rfl, rfl⟩
    | endNode hword' | prop hword' | nop hword' | finish hword' =>
      exact absurd (hword.unique hword') (by norm_num)
  | endNode hword =>
    cases h' with
    | endNode => exact ⟨rfl, rfl⟩
    | beginNode hword' | prop hword' | nop hword' | finish hword' =>
      exact absurd (hword.unique hword') (by norm_num)
  | prop hword hlen hoff hname hvalue hend =>
    cases h' with
    | prop hword' hlen' hoff' hname' hvalue' hend' =>
      obtain rfl := hoff.unique hoff'
      obtain rfl := hname.string.unique hname'.string
      obtain rfl := hvalue.unique hvalue' (hlen.unique hlen')
      exact ⟨rfl, rfl⟩
    | beginNode hword' | endNode hword' | nop hword' | finish hword' =>
      exact absurd (hword.unique hword') (by norm_num)
  | nop hword =>
    cases h' with
    | nop => exact ⟨rfl, rfl⟩
    | beginNode hword' | endNode hword' | prop hword' | finish hword' =>
      exact absurd (hword.unique hword') (by norm_num)
  | finish hword =>
    cases h' with
    | finish => exact ⟨rfl, rfl⟩
    | beginNode hword' | endNode hword' | prop hword' | nop hword' =>
      exact absurd (hword.unique hword') (by norm_num)

/-! ## Other memories -/

/-- Two blobs with blocks at the same places, and the same bytes in the strings block. -/
structure Blob.SameBlocks (B B' : Blob) : Prop where
  structEnd : B'.structEnd = B.structEnd
  strings : B'.strings = B.strings
  stringsSize : B'.stringsSize = B.stringsSize
  names : AgreeOn B.mem B'.mem B.strings (B.strings + B.stringsSize)

/-- A word in another memory. -/
lemma Blob.Word.congr (h : B.Word a v) (hB : B.SameBlocks B')
    (hm : AgreeOn B.mem B'.mem a (a + 4)) : B'.Word a v :=
  ⟨hB.structEnd.symm ▸ h.le, h.lt, h.bytes.congr (by rwa [length_beBytes])⟩

/-- The name of a property in another memory. -/
lemma Blob.PropName.congr {nameOff : ℕ} {name : Name} (h : B.PropName nameOff name)
    (hB : B.SameBlocks B') : B'.PropName nameOff name := by
  have hlt := h.lt
  refine ⟨hB.stringsSize.symm ▸ hlt, ?_⟩
  rw [hB.strings]
  exact h.string.congr (hB.names.mono (by omega) (by omega))

/-- A token in a memory that agrees up to where the next token starts. -/
lemma TokenAt.congr (h : TokenAt B a t b) (hB : B.SameBlocks B')
    (hm : AgreeOn B.mem B'.mem a (min b B.structEnd)) : TokenAt B' a t b := by
  have hword {v : ℕ} {i : ℕ} (hv : B.Word (a + i) v) (hi : a + i + 4 ≤ b) : B'.Word (a + i) v :=
    hv.congr hB (hm.mono (Nat.le_add_right a i) (le_min hi hv.le))
  cases h with
  | @beginNode name hword' hname hend =>
    have hb := le_roundUp4 (a + 4 + name.length + 1)
    refine .beginNode (hword (i := 0) hword' (by omega)) (hname.congr (hm.mono (by omega) ?_)) ?_
    · exact le_min hb hend
    · exact hB.structEnd.symm ▸ hend
  | endNode hword' => exact .endNode (hword (i := 0) hword' le_rfl)
  | @prop nameOff name value hword' hlen hoff hname hvalue hend =>
    have hb := le_roundUp4 (a + 12 + value.length)
    refine .prop (hword (i := 0) hword' (by omega)) (hword hlen (by omega))
      (hword hoff (by omega)) (hname.congr hB) (hvalue.congr (hm.mono (by omega) ?_)) ?_
    · exact le_min hb hend
    · exact hB.structEnd.symm ▸ hend
  | nop hword' => exact .nop (hword (i := 0) hword' le_rfl)
  | finish hword' => exact .finish (hword (i := 0) hword' le_rfl)

/-- A stretch of the block in a memory that agrees on it. -/
lemma tokens_congr (h : Tokens B a l b) (hB : B.SameBlocks B')
    (hm : AgreeOn B.mem B'.mem a B.structEnd) : Tokens B' a l b := by
  induction h with
  | nil a => exact .nil a
  | cons ht _ ih =>
    exact .cons (ht.congr hB (hm.mono le_rfl (min_le_right _ _)))
      (ih (hm.mono ht.lt.le le_rfl))

/-! ## Paths -/

/-- The open nodes after one more token, the root first. -/
def pathAfter (path : List Name) : Token → List Name
  | .beginNode name => path ++ [name]
  | .endNode => path.dropLast
  | _ => path

/-- The open nodes after some tokens. -/
def pathOf (path : List Name) (l : List (ℕ × Token)) : List Name :=
  l.foldl (fun path p => pathAfter path p.2) path

/-- The tokens close what they open, from the given path on, and end with their only end token. -/
def Balanced : List Name → List (ℕ × Token) → Prop
  | _, [] => False
  | path, (_, .finish) :: l => path = [] ∧ l = []
  | path, (_, .endNode) :: l => path ≠ [] ∧ Balanced path.dropLast l
  | path, (_, .beginNode name) :: l => Balanced (path ++ [name]) l
  | path, (_, .prop _ _ _) :: l => Balanced path l
  | path, (_, .nop) :: l => Balanced path l

/-- The largest number of nodes that are open at the same time. -/
def nesting (path : List Name) : List (ℕ × Token) → ℕ
  | [] => path.length
  | (_, t) :: l => max path.length (nesting (pathAfter path t) l)

/-- What a walk reads at a token. -/
def Token.item (a : ℕ) : Token → Item
  | .beginNode name => .beginNode (a + 4) name.length
  | .endNode => .endNode
  | .prop nameOff _ value => .prop (a + 12) value.length nameOff
  | .nop => .nop
  | .finish => .finish

/-- The visits of a walk that goes through the tokens with the number of open nodes as its depth. -/
def visitsOf (path : List Name) : List (ℕ × Token) → List Visit
  | [] => []
  | (a, t) :: l => ⟨a, path.length, t.item a⟩ :: visitsOf (pathAfter path t) l

/-- The path is never longer than the nesting. -/
lemma length_le_nesting (path : List Name) (l : List (ℕ × Token)) :
    path.length ≤ nesting path l := by
  cases l with
  | nil => exact le_rfl
  | cons p l => exact le_max_left _ _

/-- A balanced sequence is not empty. -/
lemma Balanced.ne_nil {path : List Name} (h : Balanced path l) : l ≠ [] := by
  rintro rfl
  exact h

/-- A balanced sequence is the end token, or goes on below the next path. -/
lemma Balanced.cons_cases {path : List Name} (h : Balanced path ((a, t) :: l)) :
    (t = .finish ∧ path = [] ∧ l = []) ∨
      (t ≠ .finish ∧ (t = .endNode → path ≠ []) ∧ Balanced (pathAfter path t) l) := by
  cases t with
  | finish => exact .inl ⟨rfl, h⟩
  | endNode => exact .inr ⟨by simp, fun _ => h.1, h.2⟩
  | beginNode name => exact .inr ⟨by simp, by simp, h⟩
  | prop nameOff name value => exact .inr ⟨by simp, by simp, h⟩
  | nop => exact .inr ⟨by simp, by simp, h⟩

/-- A token in front of a balanced sequence. -/
lemma Balanced.cons {path : List Name} (hfin : t ≠ .finish) (hend : t = .endNode → path ≠ [])
    (h : Balanced (pathAfter path t) l) : Balanced path ((a, t) :: l) := by
  cases t with
  | finish => exact absurd rfl hfin
  | endNode => exact ⟨hend rfl, h⟩
  | beginNode name => exact h
  | prop nameOff name value => exact h
  | nop => exact h

/-- Of two balanced sequences one is not a proper beginning of the other. -/
lemma Balanced.eq_of_prefix {path : List Name} (h : Balanced path l) (h' : Balanced path l')
    (hpre : l <+: l') : l = l' := by
  induction l generalizing path l' with
  | nil => exact absurd rfl h.ne_nil
  | cons p l ih =>
    obtain ⟨rest, rfl⟩ := hpre
    obtain ⟨a, t⟩ := p
    rcases h.cons_cases with ⟨rfl, -, rfl⟩ | ⟨hfin, -, hl⟩
    · rcases h'.cons_cases with ⟨-, -, hrest⟩ | ⟨hfin, -⟩
      · have hnil : rest = [] := hrest
        rw [hnil]
        rfl
      · exact absurd rfl hfin
    · rcases h'.cons_cases with ⟨hfin', -⟩ | ⟨-, -, hl'⟩
      · exact absurd hfin' hfin
      · exact congrArg _ (ih hl hl' ⟨rest, rfl⟩)

/-- A structure block has one balanced reading from a given address on. -/
lemma Balanced.unique {path : List Name} (h : Tokens B a l b) (h' : Tokens B a l' c)
    (hl : Balanced path l) (hl' : Balanced path l') : l = l' ∧ b = c := by
  have heq : l = l' := by
    rcases Chain.prefix_or_prefix (R := TokenAt B) (fun _ _ _ _ _ => TokenAt.unique)
      h h' with hpre | hpre
    · exact hl.eq_of_prefix hl' hpre
    · exact (hl'.eq_of_prefix hl hpre).symm
  subst heq
  exact ⟨rfl, Chain.end_unique (R := TokenAt B) (fun _ _ _ _ _ => TokenAt.unique) h h'⟩

/-- A balanced sequence ends inside the structure block. -/
lemma Balanced.end_le {path : List Name} (h : Tokens B a l b) (hl : Balanced path l) :
    b ≤ B.structEnd := by
  induction h generalizing path with
  | nil => exact absurd hl id
  | cons ht hrest ih =>
    rcases hl.cons_cases with ⟨rfl, -, rfl⟩ | ⟨-, -, hl⟩
    · cases ht with
      | finish hword =>
        cases hrest
        exact hword.le
    · exact ih hl

/-- Every token of a stretch ends before the stretch does. -/
lemma tokens_bounded (h : Tokens B a l c) :
    Chain (fun a t b => TokenAt B a t b ∧ b ≤ c) a l c := by
  induction h with
  | nil a => exact .nil a
  | cons ht hrest ih => exact .cons ⟨ht, hrest.le fun _ _ _ => TokenAt.lt⟩ ih

end DeviceTree

end HyperBerry
