import HyperBerry.Cpio.Read
import HyperBerry.Cpio.Fixture

/-!
# Acceptance

`make_spec` says that the reader accepts a region exactly when its bytes are an archive, and that
`Next` then goes through its entries.  The walk of `validate` is followed with the entries before
its cursor as the invariant: they are well-formed, acceptable and have different paths.
-/

namespace HyperBerry

namespace Cpio

open Memory DeviceTree BootLoader

variable {m : Memory} {a data cursor : ℕ} {bytes : List UInt8}

/-! ## Entries and their offsets -/

/-- The offset behind some entries. -/
def offsetOf (ps : List Parts) : ℕ := (ps.map Parts.length).sum

@[simp] lemma offsetOf_nil : offsetOf [] = 0 := rfl

@[simp] lemma offsetOf_cons (p : Parts) (ps : List Parts) :
    offsetOf (p :: ps) = p.length + offsetOf ps := rfl

lemma offsetOf_append (ps qs : List Parts) : offsetOf (ps ++ qs) = offsetOf ps + offsetOf qs := by
  rw [offsetOf, List.map_append, List.sum_append]
  rfl

/-- One more entry. -/
lemma offsetOf_snoc (ps : List Parts) (p : Parts) :
    offsetOf (ps ++ [p]) = offsetOf ps + p.length := by
  rw [offsetOf_append, offsetOf_cons, offsetOf_nil, Nat.add_zero]

/-- Entries end at multiples of four. -/
lemma offsetOf_mod (ps : List Parts) : offsetOf ps % 4 = 0 := by
  induction ps with
  | nil => rfl
  | cons p ps ih =>
    have := p.length_mod
    rw [offsetOf_cons]
    omega

/-- An entry has a header at least. -/
lemma Parts.length_pos (p : Parts) : 0 < p.length := by
  unfold Parts.length Parts.dataOffset
  omega

/-- There are at least as many bytes as entries. -/
lemma length_le_offsetOf (ps : List Parts) : ps.length ≤ offsetOf ps := by
  induction ps with
  | nil => exact le_rfl
  | cons p ps ih =>
    have := p.length_pos
    rw [List.length_cons, offsetOf_cons]
    omega

/-- The bytes of well-formed entries. -/
lemma length_flatMap_bytes {ps : List Parts} (h : ∀ p ∈ ps, p.WellFormed) :
    (ps.flatMap Parts.bytes).length = offsetOf ps := by
  induction ps with
  | nil => rfl
  | cons p ps ih =>
    rw [List.flatMap_cons, List.length_append, (h p List.mem_cons_self).length_bytes,
      ih fun q hq => h q (List.mem_cons_of_mem p hq), offsetOf_cons]

/-- Only trailers and acceptable entries are read without an error. -/
lemma Parts.verdict_eq_none {p : Parts} : p.verdict = .none ↔ p.Trailer ∨ p.Acceptable := by
  constructor
  · intro h
    unfold verdict at h
    split_ifs at h with h₁ h₂ h₃ h₄ h₅
    · exact .inl ⟨h₁, h₂⟩
    · exact .inr ⟨h₁, fun _ => h₄, fun hn => absurd h₃ hn⟩
    · exact .inr ⟨h₁, fun hd => absurd hd h₃, fun _ => h₅⟩
  · rintro (⟨hpath, hdata⟩ | ⟨hpath, hdir, hfile⟩)
    · rw [verdict, if_pos hpath, if_pos hdata]
    · rw [verdict, if_neg hpath]
      by_cases hd : p.isDirectory
      · rw [if_pos hd, if_pos (hdir hd)]
      · rw [if_neg hd, if_pos (hfile hd)]

/-! ## The walk -/

/-- What the walk knows of the entries before its cursor. -/
structure Seen (bytes : List UInt8) (ps : List Parts) (rest : List UInt8) : Prop where
  bytes : bytes = ps.flatMap Parts.bytes ++ rest
  wellFormed : ∀ p ∈ ps, p.WellFormed
  acceptable : ∀ p ∈ ps, p.Acceptable
  distinct : (ps.map Parts.path).Nodup

namespace Seen

variable {ps qs : List Parts} {p : Parts} {rest : List UInt8}

/-- The cursor of the walk is inside of the region. -/
lemma le (h : Seen bytes ps rest) : offsetOf ps ≤ bytes.length := by
  rw [h.bytes, List.length_append, length_flatMap_bytes h.wellFormed]
  exact Nat.le_add_right _ _

/-- What is left at the cursor. -/
lemma drop (h : Seen bytes ps rest) : bytes.drop (offsetOf ps) = rest := by
  rw [h.bytes, List.drop_left' (length_flatMap_bytes h.wellFormed)]

/-- Fewer entries. -/
lemma left (h : Seen bytes (ps ++ qs) rest) : Seen bytes ps (qs.flatMap Parts.bytes ++ rest) where
  bytes := by rw [h.bytes, List.flatMap_append, List.append_assoc]
  wellFormed p hp := h.wellFormed p (List.mem_append_left qs hp)
  acceptable p hp := h.acceptable p (List.mem_append_left qs hp)
  distinct := by
    have hd := h.distinct
    rw [List.map_append] at hd
    exact hd.of_append_left

/-- One more entry. -/
lemma snoc (h : Seen bytes ps (p.bytes ++ rest)) (hp : p.WellFormed) (ha : p.Acceptable)
    (hpath : p.path ∉ ps.map Parts.path) : Seen bytes (ps ++ [p]) rest where
  bytes := by
    rw [h.bytes, List.flatMap_append, List.flatMap_singleton, List.append_assoc]
  wellFormed q hq := by
    rcases List.mem_append.mp hq with hq | hq
    · exact h.wellFormed q hq
    · rwa [List.mem_singleton.mp hq]
  acceptable q hq := by
    rcases List.mem_append.mp hq with hq | hq
    · exact h.acceptable q hq
    · rwa [List.mem_singleton.mp hq]
  distinct := by
    rw [List.map_append, List.map_singleton]
    exact h.distinct.append (List.nodup_singleton _) (by simpa using hpath)

/-- Before the first entry. -/
lemma nil (bytes : List UInt8) : Seen bytes [] bytes :=
  ⟨rfl, fun _ h => absurd h List.not_mem_nil, fun _ h => absurd h List.not_mem_nil, List.nodup_nil⟩

end Seen

/-- The name of an entry that lies in the region. -/
lemma Parts.WellFormed.cstring {p : Parts} {offset : ℕ} (hp : p.WellFormed)
    (h : m.HasBytes (data + offset) p.bytes) : m.CString (p.view data offset).name p.path := by
  have hflat := length_flatten_fields hp.fields
  have hsix : (ascii "070701").length = 6 := rfl
  rw [Parts.bytes, hasBytes_append, hasBytes_append, hasBytes_append, hflat, hp.count, hsix] at h
  have hname := h.2.2.1
  rw [Parts.nameField, hasBytes_append] at hname
  have hstring : m.CString (data + offset + 6 + 8 * 13) p.name :=
    ⟨hp.name, hasBytes_append.mpr
      ⟨hname.1, hasBytes_cons.mpr ⟨(hasBytes_cons.mp hname.2).1, hasBytes_nil⟩⟩⟩
  exact cstring_of_suffix hstring (strip_suffix p.name)

/-- The data of an entry that lies in the region. -/
lemma Parts.WellFormed.data_bytes {p : Parts} {offset : ℕ} (hp : p.WellFormed)
    (h : m.HasBytes (data + offset) p.bytes) :
    m.HasBytes (p.view data offset).file.data p.data := by
  have hflat := length_flatten_fields hp.fields
  have hsix : (ascii "070701").length = 6 := rfl
  rw [Parts.bytes, hasBytes_append, hasBytes_append, hasBytes_append, hasBytes_append,
    hasBytes_append, hflat, hp.count, hsix, hp.namePadding] at h
  have haddr : data + offset + 6 + 8 * 13 + p.nameField.length + pad (110 + p.nameField.length) =
      (p.view data offset).file.data := by
    simp only [Parts.view, Parts.dataOffset]
    omega
  rw [← haddr]
  exact h.2.2.2.2.1

/-- The extent of the name in an entry. -/
lemma Parts.view_name_le (p : Parts) (data offset : ℕ) :
    data + offset ≤ (p.view data offset).name ∧
      (p.view data offset).name + p.path.length + 1 ≤ (p.view data offset).file.data ∧
      (p.view data offset).file.data + (p.view data offset).file.size ≤
        data + (offset + p.length) := by
  have h₁ := p.length_path_le
  have h₂ := p.length_nameField
  simp only [Parts.view, Parts.length, Parts.dataOffset]
  omega

section Region

variable (hb : m.HasBytes data bytes) (hpos : 0 < data) (hend : data + bytes.length < 2 ^ 64)

include hb

/-- The bytes of an entry behind those seen. -/
lemma Seen.hasBytes {ps : List Parts} {p : Parts} {rest : List UInt8}
    (h : Seen bytes ps (p.bytes ++ rest)) : m.HasBytes (data + offsetOf ps) p.bytes := by
  have hdrop := (hb.take_drop (offsetOf ps) h.le).2
  rw [h.drop] at hdrop
  exact (hasBytes_append.mp hdrop).1

include hpos hend

/-- The search for an equal path among the entries `qs`, which are the last of those seen. -/
lemma checkPrevious_eq (ps : List Parts) {qs : List Parts} {rest path : List UInt8} {name fuel : ℕ}
    (h : Seen bytes (ps ++ qs) rest) (hname : m.CString name path)
    (hlt : name + path.length < 2 ^ 64) (hfuel : qs.length < fuel) :
    checkPrevious m data bytes.length (offsetOf (ps ++ qs)) name fuel (offsetOf ps) =
      .ok (if path ∈ qs.map Parts.path then .duplicatePath else .none) := by
  have hloop : 2 ^ 64 = loopFuel := by unfold loopFuel; rfl
  induction qs generalizing ps fuel with
  | nil =>
    cases fuel with
    | zero => exact absurd hfuel (Nat.not_lt_zero _)
    | succ fuel =>
      rw [List.append_nil, checkPrevious, if_neg (lt_irrefl _)]
      rfl
  | cons q qs ih =>
    cases fuel with
    | zero => exact absurd hfuel (Nat.not_lt_zero _)
    | succ fuel =>
      have hq : q.WellFormed := h.wellFormed q (by simp)
      have hqa : q.Acceptable := h.acceptable q (by simp)
      have hleft := h.left
      rw [List.flatMap_cons, List.append_assoc] at hleft
      have hqname := hq.cstring (hleft.hasBytes hb)
      obtain ⟨-, hqend, hqfile⟩ := q.view_name_le data (offsetOf ps)
      have hle := h.le
      rw [offsetOf_append, offsetOf_cons] at hle
      have hcons := List.append_cons ps q qs
      have hpos' := q.length_pos
      rw [List.length_cons] at hfuel
      rw [checkPrevious, if_pos (by rw [offsetOf_append, offsetOf_cons]; omega),
        read_eq hb hpos hend hq (offsetOf_mod ps) hleft.le hleft.drop, ok_bind]
      simp only
      rw [if_neg (by simp [Parts.verdict_eq_none.mpr (.inr hqa)]),
        strEqAt_eq hqname hname (by omega) hlt (by omega), ok_bind]
      by_cases heq : q.path = path
      · rw [if_pos (by simp [heq])]
        simp [heq, pure, Except.pure]
      · rw [if_neg (by simp [heq]), ← offsetOf_snoc, hcons, ih _ (hcons ▸ h) (by omega)]
        simp [Ne.symm heq]

/-- The walk returns no error only where there is an archive. -/
lemma validateFrom_sound {ps : List Parts} {rest : List UInt8} {fuel : ℕ}
    (h : Seen bytes ps rest) (hfuel : rest.length < fuel) :
    ∃ result, validateFrom m data bytes.length fuel (offsetOf ps) = .ok result ∧
      (result.1 = .none → ∃ qs t, IsArchive bytes qs t) := by
  have hloop : 2 ^ 64 = loopFuel := by unfold loopFuel; rfl
  induction fuel generalizing ps rest with
  | zero => exact absurd hfuel (Nat.not_lt_zero _)
  | succ fuel ih =>
    rw [validateFrom]
    by_cases hlt : offsetOf ps < bytes.length
    swap
    · rw [if_neg hlt]
      exact ⟨_, rfl, fun h => absurd h (by simp)⟩
    rw [if_pos hlt]
    obtain ⟨p, rest', hdrop, hp⟩ | ⟨result, hread, herror⟩ :=
      read_cases hb hpos hend (offsetOf_mod ps) h.le
    swap
    · rw [hread, ok_bind]
      simp only
      rw [if_pos herror]
      exact ⟨_, rfl, fun h => absurd h herror⟩
    obtain rfl : rest = p.bytes ++ rest' := h.drop.symm.trans hdrop
    have hname := hp.cstring (h.hasBytes hb)
    obtain ⟨-, hpend, hpfile⟩ := p.view_name_le data (offsetOf ps)
    have hlen : offsetOf ps + p.length + rest'.length = bytes.length := by
      rw [h.bytes, List.length_append, List.length_append, length_flatMap_bytes h.wellFormed,
        hp.length_bytes, Nat.add_assoc]
    rw [read_eq hb hpos hend hp (offsetOf_mod ps) h.le hdrop, ok_bind]
    simp only
    by_cases hverdict : p.verdict = .none
    swap
    · rw [if_pos hverdict]
      exact ⟨_, rfl, fun h => absurd h hverdict⟩
    rw [if_neg (by simp [hverdict]), strEq_eq hname (by omega) (by decide), ok_bind]
    obtain htrailer | haccept := Parts.verdict_eq_none.mp hverdict
    · -- the trailer: only zeros may follow
      have hrest := (hb.take_drop (offsetOf ps) h.le).2
      rw [h.drop, hasBytes_append, hp.length_bytes] at hrest
      have hsub : bytes.length - (offsetOf ps + p.length) = rest'.length := by omega
      have hzero := allZero_eq hrest.2 (by omega)
      rw [if_pos (by simp [htrailer.path]), add64_of_lt (by omega), ← Nat.add_assoc, hsub,
        hzero, ok_bind]
      refine ⟨_, rfl, fun hnone => ⟨ps, p, ?_, h.wellFormed, h.acceptable, h.distinct,
        hp, htrailer⟩⟩
      have hclean : ∀ x ∈ rest', x = 0 := by
        by_contra hne
        rw [if_neg (by simpa using hne)] at hnone
        exact absurd hnone (by simp)
      exact ⟨rest'.length, by rw [← List.eq_replicate_iff.mpr ⟨rfl, hclean⟩]; exact h.bytes⟩
    · -- an entry: its path must be new
      have hps := length_le_offsetOf ps
      have hcheck : checkPrevious m data bytes.length (offsetOf ps) _ loopFuel 0 = _ :=
        checkPrevious_eq hb hpos hend [] h hname (by omega) (by omega)
      rw [if_neg (by simp [haccept.path]), hcheck, ok_bind]
      by_cases hdup : p.path ∈ ps.map Parts.path
      · rw [if_pos hdup, if_pos (by simp)]
        exact ⟨_, rfl, fun h => absurd h (by simp)⟩
      · rw [if_neg hdup, if_neg (by simp)]
        have hpos' := p.length_pos
        rw [List.length_append, hp.length_bytes] at hfuel
        rw [← offsetOf_snoc]
        exact ih (h.snoc hp haccept hdup) (by omega)

/-- The walk accepts archives. -/
lemma validateFrom_complete (ps : List Parts) {qs : List Parts} {t : Parts} {n fuel : ℕ}
    (h : Seen bytes (ps ++ qs) (t.bytes ++ List.replicate n 0)) (ht : t.WellFormed)
    (htrailer : t.Trailer) (hfuel : qs.length < fuel) :
    validateFrom m data bytes.length fuel (offsetOf ps) = .ok (.none, offsetOf (ps ++ qs)) := by
  have hloop : 2 ^ 64 = loopFuel := by unfold loopFuel; rfl
  have htotal : offsetOf (ps ++ qs) + t.length + n = bytes.length := by
    rw [h.bytes, List.length_append, List.length_append, length_flatMap_bytes h.wellFormed,
      ht.length_bytes, List.length_replicate, Nat.add_assoc]
  have htpos := t.length_pos
  induction qs generalizing ps fuel with
  | nil =>
    cases fuel with
    | zero => exact absurd hfuel (Nat.not_lt_zero _)
    | succ fuel =>
      rw [List.append_nil] at h htotal ⊢
      have hname := ht.cstring (h.hasBytes hb)
      obtain ⟨-, hpend, hpfile⟩ := t.view_name_le data (offsetOf ps)
      have hrest := (hb.take_drop (offsetOf ps) h.le).2
      rw [h.drop, hasBytes_append, ht.length_bytes] at hrest
      have hzero := allZero_eq hrest.2 (by rw [List.length_replicate]; omega)
      rw [List.length_replicate] at hzero
      have hsub : bytes.length - (offsetOf ps + t.length) = n := by omega
      rw [validateFrom, if_pos (by omega),
        read_eq hb hpos hend ht (offsetOf_mod ps) h.le h.drop, ok_bind]
      simp only
      rw [if_neg (by simp [Parts.verdict_eq_none.mpr (.inl htrailer)]),
        strEq_eq hname (by omega) (by decide), ok_bind, if_pos (by simp [htrailer.path]),
        add64_of_lt (by omega), ← Nat.add_assoc, hsub, hzero, ok_bind, if_pos (by simp)]
      rfl
  | cons q qs ih =>
    cases fuel with
    | zero => exact absurd hfuel (Nat.not_lt_zero _)
    | succ fuel =>
      have hq : q.WellFormed := h.wellFormed q (by simp)
      have hqa : q.Acceptable := h.acceptable q (by simp)
      have hleft := h.left
      rw [List.flatMap_cons, List.append_assoc] at hleft
      have hqname := hq.cstring (hleft.hasBytes hb)
      obtain ⟨-, hqend, hqfile⟩ := q.view_name_le data (offsetOf ps)
      have hsum : offsetOf (ps ++ q :: qs) = offsetOf ps + (q.length + offsetOf qs) := by
        rw [offsetOf_append, offsetOf_cons]
      have hcons := List.append_cons ps q qs
      have hps := length_le_offsetOf ps
      have hnew : q.path ∉ ps.map Parts.path := by
        have hd := h.distinct
        rw [List.map_append, List.map_cons] at hd
        exact fun hmem => List.disjoint_of_nodup_append hd hmem List.mem_cons_self
      have hcheck : checkPrevious m data bytes.length (offsetOf ps) _ loopFuel 0 = _ :=
        checkPrevious_eq hb hpos hend [] hleft hqname (by omega) (by omega)
      rw [if_neg hnew] at hcheck
      rw [List.length_cons] at hfuel
      rw [validateFrom, if_pos (by omega),
        read_eq hb hpos hend hq (offsetOf_mod ps) hleft.le hleft.drop, ok_bind]
      simp only
      rw [if_neg (by simp [Parts.verdict_eq_none.mpr (.inr hqa)]),
        strEq_eq hqname (by omega) (by decide), ok_bind, if_neg (by simp [hqa.path]),
        hcheck, ok_bind, if_neg (by simp), ← offsetOf_snoc, hcons]
      exact ih _ (hcons ▸ h) (by omega) (hcons ▸ htotal)

end Region

/-! ## Iteration -/

/-- The views of entries, one behind the other from an offset on. -/
def viewsFrom (data : ℕ) : ℕ → List Parts → List Entry
  | _, [] => []
  | offset, p :: ps => p.view data offset :: viewsFrom data (offset + p.length) ps

/-- An entry shows a part of the archive: its path, its data and whether it is a directory. -/
structure IsView (m : Memory) (e : Entry) (p : Parts) : Prop where
  name : m.CString e.name p.path
  data : m.HasBytes e.file.data p.data
  size : e.file.size = p.data.length
  isDirectory : e.isDirectory = p.isDirectory

/-- The ranges of bytes that the views of some entries cover: of each, its name with the NUL and its
data. -/
def spans : List (Entry × Parts) → List (ℕ × ℕ)
  | [] => []
  | (e, p) :: es =>
    (e.name, e.name + p.path.length + 1) :: (e.file.data, e.file.data + e.file.size) :: spans es

/-- The views of entries in a row cover ranges in a row. -/
lemma spans_viewsFrom (data offset : ℕ) (ps : List Parts) :
    (spans ((viewsFrom data offset ps).zip ps)).Pairwise (fun s t => s.2 ≤ t.1) ∧
      ∀ s ∈ spans ((viewsFrom data offset ps).zip ps),
        data + offset ≤ s.1 ∧ s.1 ≤ s.2 ∧ s.2 ≤ data + (offset + offsetOf ps) := by
  induction ps generalizing offset with
  | nil => exact ⟨.nil, fun s hs => absurd hs List.not_mem_nil⟩
  | cons p ps ih =>
    obtain ⟨hpairwise, hbounds⟩ := ih (offset + p.length)
    obtain ⟨h₁, h₂, h₃⟩ := p.view_name_le data offset
    rw [viewsFrom, List.zip_cons_cons, spans, offsetOf_cons]
    refine ⟨?_, ?_⟩
    · refine .cons ?_ (.cons ?_ hpairwise)
      · intro s hs
        rcases List.mem_cons.mp hs with rfl | hs
        · exact h₂
        · have := hbounds s hs
          simp only
          omega
      · intro s hs
        have := hbounds s hs
        simp only
        omega
    · intro s hs
      rcases List.mem_cons.mp hs with rfl | hs
      · simp only
        omega
      rcases List.mem_cons.mp hs with rfl | hs
      · simp only
        omega
      · have := hbounds s hs
        omega

section Iterate

variable (hb : m.HasBytes data bytes) (hpos : 0 < data) (hend : data + bytes.length < 2 ^ 64)

include hb

/-- The views of the entries of an archive show them. -/
lemma isView_viewsFrom (ps : List Parts) {qs : List Parts} {rest : List UInt8}
    (h : Seen bytes (ps ++ qs) rest) :
    List.Forall₂ (IsView m) (viewsFrom data (offsetOf ps) qs) qs := by
  induction qs generalizing ps with
  | nil => exact .nil
  | cons q qs ih =>
    have hq : q.WellFormed := h.wellFormed q (by simp)
    have hleft := h.left
    rw [List.flatMap_cons, List.append_assoc] at hleft
    have hbytes := hleft.hasBytes hb
    have hcons := List.append_cons ps q qs
    refine .cons ⟨hq.cstring hbytes, hq.data_bytes hbytes, rfl, rfl⟩ ?_
    rw [← offsetOf_snoc]
    exact ih _ (hcons ▸ h)

include hpos hend

/-- One call of `Next`. -/
lemma next_eq {ps qs : List Parts} {q : Parts} {rest : List UInt8} {stop : ℕ}
    (h : Seen bytes (ps ++ q :: qs) rest) (hstop : stop = offsetOf (ps ++ q :: qs)) :
    Archive.next m ⟨data, bytes.length, stop, .none⟩ (offsetOf ps) =
      .ok (true, offsetOf (ps ++ [q]), q.view data (offsetOf ps)) := by
  have hq : q.WellFormed := h.wellFormed q (by simp)
  have hqa : q.Acceptable := h.acceptable q (by simp)
  have hleft := h.left
  rw [List.flatMap_cons, List.append_assoc] at hleft
  have hqpos := q.length_pos
  rw [offsetOf_append, offsetOf_cons] at hstop
  rw [Archive.next]
  simp only
  rw [if_neg (by simp; omega), read_eq hb hpos hend hq (offsetOf_mod ps) hleft.le hleft.drop,
    ok_bind, Parts.verdict_eq_none.mpr (.inr hqa), offsetOf_append, offsetOf_cons, offsetOf_nil,
      Nat.add_zero]
  rfl

omit hb hpos hend in
/-- `Next` at the end. -/
lemma next_end {size stop : ℕ} :
    Archive.next m ⟨data, size, stop, .none⟩ stop = .ok (false, stop, {}) :=
  if_pos (.inr le_rfl)

/-- The calls of `Next` go through the entries. -/
lemma entriesFrom_eq (ps : List Parts) {qs : List Parts} {rest : List UInt8} {stop fuel : ℕ}
    (h : Seen bytes (ps ++ qs) rest) (hstop : stop = offsetOf (ps ++ qs))
    (hfuel : qs.length < fuel) :
    Archive.entriesFrom m ⟨data, bytes.length, stop, .none⟩ fuel (offsetOf ps) =
      .ok (viewsFrom data (offsetOf ps) qs) := by
  induction qs generalizing ps fuel with
  | nil =>
    cases fuel with
    | zero => exact absurd hfuel (Nat.not_lt_zero _)
    | succ fuel =>
      rw [List.append_nil] at hstop
      rw [Archive.entriesFrom, hstop, next_end]
      rfl
  | cons q qs ih =>
    cases fuel with
    | zero => exact absurd hfuel (Nat.not_lt_zero _)
    | succ fuel =>
      have hcons := List.append_cons ps q qs
      rw [List.length_cons] at hfuel
      rw [Archive.entriesFrom, next_eq hb hpos hend h hstop, ok_bind]
      simp only
      rw [if_neg (by simp), ih _ (hcons ▸ h) (hcons ▸ hstop) (by omega), ok_bind, viewsFrom,
        ← offsetOf_snoc]
      rfl

end Iterate

/-- An archive is seen as a whole. -/
lemma IsArchive.seen {ps : List Parts} {t : Parts} (h : IsArchive bytes ps t) :
    ∃ n, Seen bytes ps (t.bytes ++ List.replicate n 0) := by
  obtain ⟨n, hn⟩ := h.bytes
  exact ⟨n, hn, h.wellFormed, h.acceptable, h.distinct⟩

/-- What the constructor does with an archive. -/
lemma make_of_isArchive {ps : List Parts} {t : Parts} (hb : m.HasBytes data bytes) (hpos : 0 < data)
    (hend : data + bytes.length < 2 ^ 64) (h : IsArchive bytes ps t) :
    Archive.make m data bytes.length = .ok ⟨data, bytes.length, offsetOf ps, .none⟩ := by
  have hloop : 2 ^ 64 = loopFuel := by unfold loopFuel; rfl
  obtain ⟨n, hseen⟩ := h.seen
  have hle := hseen.le
  have hlen := length_le_offsetOf ps
  have hvalidate : validateFrom m data bytes.length loopFuel 0 = .ok (.none, offsetOf ps) :=
    validateFrom_complete hb hpos hend [] hseen h.trailer_wellFormed h.trailer (by omega)
  rw [Archive.make, if_pos (by omega), hvalidate]
  rfl

/-- What the constructor does with a region that is null, wraps or holds no archive. -/
lemma make_of_not_isArchive (hb : m.HasBytes data bytes) (hdata : data < 2 ^ 64)
    (h : ¬ ((data ≠ 0 ∧ data + bytes.length < 2 ^ 64) ∧ ∃ ps t, IsArchive bytes ps t)) :
    ∃ archive, Archive.make m data bytes.length = .ok archive ∧ archive.error ≠ .none := by
  have hloop : 2 ^ 64 = loopFuel := by unfold loopFuel; rfl
  by_cases hregion : data ≠ 0 ∧ data + bytes.length < 2 ^ 64
  · obtain ⟨result, hresult, hsound⟩ : ∃ result, validateFrom m data bytes.length loopFuel 0 =
        .ok result ∧ (result.1 = .none → ∃ qs t, IsArchive bytes qs t) :=
      validateFrom_sound hb (Nat.pos_of_ne_zero hregion.1) hregion.2 (.nil bytes) (by omega)
    refine ⟨⟨data, bytes.length, result.2, result.1⟩, ?_, fun hnone => h ⟨hregion, hsound hnone⟩⟩
    rw [Archive.make, if_pos (by omega), hresult]
    rfl
  · exact ⟨_, if_neg (by omega), by simp⟩

/-- An archive that the constructor has accepted. -/
lemma isArchive_of_make {archive : Archive} (hb : m.HasBytes data bytes) (hdata : data < 2 ^ 64)
    (hmake : Archive.make m data bytes.length = .ok archive) (hnone : archive.error = .none) :
    0 < data ∧ data + bytes.length < 2 ^ 64 ∧ ∃ ps t, IsArchive bytes ps t ∧
      archive = ⟨data, bytes.length, offsetOf ps, .none⟩ := by
  by_cases h : (data ≠ 0 ∧ data + bytes.length < 2 ^ 64) ∧ ∃ ps t, IsArchive bytes ps t
  · obtain ⟨⟨hne, hend⟩, ps, t, harchive⟩ := h
    have hpos := Nat.pos_of_ne_zero hne
    have hmake' := make_of_isArchive hb hpos hend harchive
    exact ⟨hpos, hend, ps, t, harchive, Except.ok.inj (hmake.symm.trans hmake')⟩
  · obtain ⟨archive', hmake', herror⟩ := make_of_not_isArchive hb hdata h
    cases Except.ok.inj (hmake.symm.trans hmake')
    exact absurd hnone herror

/-- **Acceptance.**  The constructor accepts a region exactly when it is not null, does not wrap,
and its bytes are an archive.  Then the calls of `Next` return the entries of the archive, in order;
their views lie in the region before the trailer, one behind the other. -/
theorem make_spec (hb : m.HasBytes data bytes) (hdata : data < 2 ^ 64) :
    ∃ archive, Archive.make m data bytes.length = .ok archive ∧
      (archive.error = .none ↔
        (data ≠ 0 ∧ data + bytes.length < 2 ^ 64) ∧ ∃ ps t, IsArchive bytes ps t) ∧
      ∀ ps t, archive.error = .none → IsArchive bytes ps t →
        ∃ entries, Archive.entriesFrom m archive loopFuel 0 = .ok entries ∧
          List.Forall₂ (IsView m) entries ps ∧
          (spans (entries.zip ps)).Pairwise (fun s t => s.2 ≤ t.1) ∧
          (∀ s ∈ spans (entries.zip ps), data ≤ s.1 ∧ s.1 ≤ s.2 ∧ s.2 ≤ data + archive.stop) ∧
          archive.stop + t.bytes.length ≤ bytes.length := by
  have hloop : 2 ^ 64 = loopFuel := by unfold loopFuel; rfl
  by_cases harchive : (data ≠ 0 ∧ data + bytes.length < 2 ^ 64) ∧ ∃ ps t, IsArchive bytes ps t
  swap
  · obtain ⟨archive, hmake, herror⟩ := make_of_not_isArchive hb hdata harchive
    exact ⟨archive, hmake, iff_of_false herror harchive, fun ps t hnone => absurd hnone herror⟩
  obtain ⟨⟨hne, hend⟩, ps, t, h⟩ := harchive
  have hpos : 0 < data := Nat.pos_of_ne_zero hne
  refine ⟨_, make_of_isArchive hb hpos hend h,
    iff_of_true rfl ⟨⟨hne, hend⟩, ps, t, h⟩, fun qs u _ hu => ?_⟩
  -- both decompositions end where the constructor has found the trailer
  have hstop : offsetOf ps = offsetOf qs := by
    have hmake := (make_of_isArchive hb hpos hend h).symm.trans (make_of_isArchive hb hpos hend hu)
    exact (Archive.mk.inj (Except.ok.inj hmake)).2.2.1
  obtain ⟨n, hseen⟩ := hu.seen
  have hle := hseen.le
  have hlen := length_le_offsetOf qs
  have hentries : Archive.entriesFrom m ⟨data, bytes.length, offsetOf qs, .none⟩ loopFuel 0 = _ :=
    entriesFrom_eq hb hpos hend [] hseen rfl (by omega)
  have hview := isView_viewsFrom hb [] hseen
  obtain ⟨hpairwise, hbounds⟩ := spans_viewsFrom data 0 qs
  rw [Nat.zero_add, Nat.add_zero] at hbounds
  rw [hstop]
  refine ⟨_, hentries, hview, hpairwise, hbounds, ?_⟩
  rw [hseen.bytes, List.length_append, List.length_append, length_flatMap_bytes hu.wellFormed]
  simp only
  omega

/-- A file and a directory. -/
def sampleSources : List Fixture.Source :=
  [⟨ascii "./a", [1, 2, 3], 0o100644⟩, ⟨ascii "d", [], 0o040755⟩]

/-- An archive of them, with some zeros behind. -/
def sampleBytes : List UInt8 := Fixture.encode sampleSources ++ List.replicate 3 0

/-- A memory with that archive. -/
def sampleMemory : Memory := store (fun _ => none) 0x1000 sampleBytes

/-- The entries of the sample can be encoded. -/
lemma sampleSources_valid : ∀ s ∈ sampleSources, s.Valid := by
  intro s hs
  simp only [sampleSources, List.mem_cons, List.not_mem_nil, or_false] at hs
  obtain rfl | rfl := hs
  · exact ⟨by decide, by decide, by decide, by decide, by decide, by decide, by decide, by decide⟩
  · exact ⟨by decide, by decide, by decide, by decide, by decide, by decide, by decide, by decide⟩

/-- The sample is accepted, and has two entries. -/
theorem make_spec_sample :
    ∃ archive, Archive.make sampleMemory 0x1000 sampleBytes.length = .ok archive ∧
      archive.error = .none ∧
      ∃ entries, Archive.entriesFrom sampleMemory archive loopFuel 0 = .ok entries ∧
        entries.length = 2 := by
  have hbytes : sampleMemory.HasBytes 0x1000 sampleBytes := hasBytes_store
  obtain ⟨archive, hmake, herror, hentries⟩ := make_spec hbytes (by norm_num)
  have hsample := Fixture.isArchive_encode sampleSources_valid (by decide) 3
  have hnone := herror.mpr ⟨⟨by norm_num, by decide +kernel⟩, _, _, hsample⟩
  obtain ⟨entries, hiterate, hview, -⟩ := hentries _ _ hnone hsample
  exact ⟨archive, hmake, hnone, entries, hiterate, hview.length_eq⟩

end Cpio

end HyperBerry
