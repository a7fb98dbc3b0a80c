import HyperBerry.Cpio.Validate

/-!
# Cut and extended archives

An entry can be read off its first bytes, so a string of bytes begins with at most one sequence of
entries and a trailer (`append_unique`).  It follows where an archive may be cut, and what may be
appended to it.
-/

namespace HyperBerry

namespace Cpio

open Memory DeviceTree

/-! ## Entries are determined by their bytes -/

/-- Fields are determined by their digits. -/
lemma fields_unique {fields fields' : List (List UInt8)} {values values' : List ℕ}
    (h : List.Forall₂ IsField fields values) (h' : List.Forall₂ IsField fields' values')
    (hflat : fields.flatten = fields'.flatten) : fields = fields' ∧ values = values' := by
  induction h generalizing fields' values' with
  | nil =>
    cases h' with
    | nil => exact ⟨rfl, rfl⟩
    | @cons xs value _ _ hx _ =>
      have hlen := congrArg List.length hflat
      rw [List.flatten_nil, List.flatten_cons, List.length_append, hx.1, List.length_nil] at hlen
      omega
  | @cons xs value fields values hx _ ih =>
    cases h' with
    | nil =>
      have hlen := congrArg List.length hflat
      rw [List.flatten_nil, List.flatten_cons, List.length_append, hx.1, List.length_nil] at hlen
      omega
    | @cons ys value' fields' values' hy hrest =>
      rw [List.flatten_cons, List.flatten_cons] at hflat
      obtain ⟨rfl, htail⟩ := List.append_inj hflat (hx.1.trans hy.1.symm)
      obtain ⟨rfl, rfl⟩ := ih hrest htail
      exact ⟨rfl, by rw [Option.some.inj (hx.2.symm.trans hy.2)]⟩

/-- A name is determined by its field. -/
lemma name_unique {name name' : List UInt8} {k k' : ℕ} (h : 0 ∉ name) (h' : 0 ∉ name')
    (heq : name ++ List.replicate (k + 1) 0 = name' ++ List.replicate (k' + 1) 0) :
    name = name' ∧ k = k' := by
  induction name generalizing name' with
  | nil =>
    cases name' with
    | nil =>
      have hlen := congrArg List.length heq
      rw [List.nil_append, List.nil_append, List.length_replicate, List.length_replicate] at hlen
      exact ⟨rfl, by omega⟩
    | cons x name' =>
      rw [List.nil_append, List.replicate_succ, List.cons_append, List.cons.injEq] at heq
      exact absurd (heq.1 ▸ List.mem_cons_self) h'
  | cons x name ih =>
    cases name' with
    | nil =>
      rw [List.nil_append, List.replicate_succ (n := k'), List.cons_append, List.cons.injEq] at heq
      exact absurd (heq.1 ▸ List.mem_cons_self) h
    | cons y name' =>
      rw [List.cons_append, List.cons_append, List.cons.injEq] at heq
      obtain ⟨rfl, hk⟩ := ih (fun hx => h (List.mem_cons_of_mem _ hx))
        (fun hx => h' (List.mem_cons_of_mem _ hx)) heq.2
      exact ⟨by rw [heq.1], hk⟩

/-- An entry is determined by the bytes that begin with it. -/
lemma Parts.WellFormed.unique {p p' : Parts} {rest rest' : List UInt8} (h : p.WellFormed)
    (h' : p'.WellFormed) (heq : p.bytes ++ rest = p'.bytes ++ rest') : p = p' ∧ rest = rest' := by
  simp only [Parts.bytes, List.append_assoc] at heq
  obtain ⟨-, heq⟩ := List.append_inj heq rfl
  have hfields := length_flatten_fields h.fields
  have hfields' := length_flatten_fields h'.fields
  rw [h.count] at hfields
  rw [h'.count] at hfields'
  obtain ⟨hflat, heq⟩ := List.append_inj heq (hfields.trans hfields'.symm)
  obtain ⟨hf, hv⟩ := fields_unique h.fields h'.fields hflat
  -- the lengths of the other parts are in the header
  have hname : p.nameField.length = p'.nameField.length := by rw [← h.nameSize, hv, h'.nameSize]
  have hdata : p.data.length = p'.data.length := by rw [← h.fileSize, hv, h'.fileSize]
  obtain ⟨hnameField, heq⟩ := List.append_inj heq hname
  obtain ⟨hnp, heq⟩ := List.append_inj heq (by rw [h.namePadding, h'.namePadding, hname])
  obtain ⟨hd, heq⟩ := List.append_inj heq hdata
  obtain ⟨hdp, hrest⟩ := List.append_inj heq (by rw [h.dataPadding, h'.dataPadding, hdata])
  obtain ⟨hn, hnuls⟩ := name_unique h.name h'.name hnameField
  refine ⟨?_, hrest⟩
  cases p
  cases p'
  simp only at hf hv hn hnuls hnp hd hdp
  rw [hf, hv, hn, hnuls, hnp, hd, hdp]

/-- The entries, the trailer and what follows it are determined by the bytes. -/
lemma append_unique {ps ps' : List Parts} {t t' : Parts} {rest rest' : List UInt8}
    (h : ∀ p ∈ ps, p.WellFormed ∧ p.Acceptable) (h' : ∀ p ∈ ps', p.WellFormed ∧ p.Acceptable)
    (ht : t.WellFormed ∧ t.Trailer) (ht' : t'.WellFormed ∧ t'.Trailer)
    (heq : ps.flatMap Parts.bytes ++ (t.bytes ++ rest) = ps'.flatMap Parts.bytes ++
    (t'.bytes ++ rest')) : ps = ps' ∧ t = t' ∧ rest = rest' := by
  induction ps generalizing ps' with
  | nil =>
    cases ps' with
    | nil =>
      obtain ⟨htt, hrest⟩ := ht.1.unique ht'.1 heq
      exact ⟨rfl, htt, hrest⟩
    | cons p' ps' =>
      -- the trailer has a path that no other entry has
      obtain ⟨hp', ha'⟩ := h' p' List.mem_cons_self
      rw [List.flatMap_nil, List.nil_append, List.flatMap_cons, List.append_assoc] at heq
      obtain ⟨rfl, -⟩ := ht.1.unique hp' heq
      exact absurd ht.2.path ha'.path
  | cons p ps ih =>
    obtain ⟨hp, ha⟩ := h p List.mem_cons_self
    rw [List.flatMap_cons, List.append_assoc] at heq
    cases ps' with
    | nil =>
      rw [List.flatMap_nil, List.nil_append] at heq
      obtain ⟨rfl, -⟩ := hp.unique ht'.1 heq
      exact absurd ht'.2.path ha.path
    | cons p' ps' =>
      rw [List.flatMap_cons, List.append_assoc] at heq
      obtain ⟨rfl, htail⟩ := hp.unique (h' p' List.mem_cons_self).1 heq
      obtain ⟨rfl, htt, hrest⟩ := ih (fun q hq => h q (List.mem_cons_of_mem _ hq))
        (fun q hq => h' q (List.mem_cons_of_mem _ hq)) htail
      exact ⟨rfl, htt, hrest⟩

/-! ## Prefixes and extensions -/

variable {bytes : List UInt8} {ps : List Parts} {t : Parts}

/-- An archive may be cut behind its trailer only. -/
lemma IsArchive.take_iff (h : IsArchive bytes ps t) {n : ℕ} (hn : n ≤ bytes.length) :
    (∃ ps' t', IsArchive (bytes.take n) ps' t') ↔ offsetOf ps + t.length ≤ n := by
  obtain ⟨k, hbytes⟩ := h.bytes
  have hps := length_flatMap_bytes h.wellFormed
  have ht := h.trailer_wellFormed.length_bytes
  constructor
  · rintro ⟨ps', t', h'⟩
    obtain ⟨k', hbytes'⟩ := h'.bytes
    have heq : ps.flatMap Parts.bytes ++ (t.bytes ++ List.replicate k 0) =
        ps'.flatMap Parts.bytes ++ (t'.bytes ++ (List.replicate k' 0 ++ bytes.drop n)) := by
      rw [← hbytes, ← List.append_assoc t'.bytes, ← List.append_assoc, ← hbytes',
        List.take_append_drop]
    obtain ⟨rfl, rfl, -⟩ := append_unique (fun p hp => ⟨h.wellFormed p hp, h.acceptable p hp⟩)
      (fun p hp => ⟨h'.wellFormed p hp, h'.acceptable p hp⟩) ⟨h.trailer_wellFormed, h.trailer⟩
      ⟨h'.trailer_wellFormed, h'.trailer⟩ heq
    have hlen := congrArg List.length hbytes'
    rw [List.length_take, List.length_append, List.length_append, hps, ht] at hlen
    omega
  · intro hle
    refine ⟨ps, t, ⟨n - (offsetOf ps + t.length), ?_⟩, h.wellFormed, h.acceptable, h.distinct,
      h.trailer_wellFormed, h.trailer⟩
    have hlen := congrArg List.length hbytes
    rw [List.length_append, List.length_append, hps, ht, List.length_replicate] at hlen
    rw [hbytes, ← List.append_assoc, List.take_append, List.take_of_length_le, List.take_replicate,
      List.length_append, hps, ht, List.append_assoc, Nat.min_eq_left (by omega)]
    rw [List.length_append, hps, ht]
    exact hle

/-- Only zeros may be appended to an archive. -/
lemma IsArchive.append_iff (h : IsArchive bytes ps t) (extra : List UInt8) :
    (∃ ps' t', IsArchive (bytes ++ extra) ps' t') ↔ ∀ x ∈ extra, x = 0 := by
  obtain ⟨k, hbytes⟩ := h.bytes
  constructor
  · rintro ⟨ps', t', h'⟩ x hx
    obtain ⟨k', hbytes'⟩ := h'.bytes
    rw [hbytes, List.append_assoc, List.append_assoc] at hbytes'
    obtain ⟨-, -, hrest⟩ := append_unique (fun p hp => ⟨h.wellFormed p hp, h.acceptable p hp⟩)
      (fun p hp => ⟨h'.wellFormed p hp, h'.acceptable p hp⟩) ⟨h.trailer_wellFormed, h.trailer⟩
      ⟨h'.trailer_wellFormed, h'.trailer⟩ hbytes'
    have hmem : x ∈ List.replicate k' 0 := hrest ▸ List.mem_append_right _ hx
    exact List.eq_of_mem_replicate hmem
  · intro hzero
    refine ⟨ps, t, ⟨k + extra.length, ?_⟩, h.wellFormed, h.acceptable, h.distinct,
      h.trailer_wellFormed, h.trailer⟩
    rw [hbytes, List.append_assoc, List.append_assoc, List.replicate_add,
      ← List.eq_replicate_iff.mpr ⟨rfl, hzero⟩]

/-! ## The reader -/

variable {m : Memory} {data : ℕ}

/-- The reader accepts a region that is not null and does not wrap exactly if its bytes are an
archive. -/
lemma accepts_iff (hb : m.HasBytes data bytes) (hpos : 0 < data)
    (hend : data + bytes.length < 2 ^ 64) :
    ∃ archive, Archive.make m data bytes.length = .ok archive ∧
      (archive.error = .none ↔ ∃ ps t, IsArchive bytes ps t) := by
  by_cases h : ∃ ps t, IsArchive bytes ps t
  · obtain ⟨ps, t, harchive⟩ := h
    exact ⟨_, make_of_isArchive hb hpos hend harchive, iff_of_true rfl ⟨ps, t, harchive⟩⟩
  · obtain ⟨archive, hmake, herror⟩ := make_of_not_isArchive hb (by omega) fun hand => h hand.2
    exact ⟨archive, hmake, iff_of_false herror h⟩

/-- **Cut and extended archives.**  An accepted archive has a trailer, the entry that `read` finds
at `m_end`. A prefix of the archive is accepted if and only if it reaches behind that entry with its
padding; the archive with further bytes behind it, in any memory, is accepted if and only if these
are zero. -/
theorem truncation {archive : Archive} (hb : m.HasBytes data bytes) (hdata : data < 2 ^ 64)
    (hmake : Archive.make m data bytes.length = .ok archive) (haccepted : archive.error = .none) :
    ∃ stop entry, read m data bytes.length archive.stop = .ok (.none, stop, entry) ∧
      m.CString entry.name trailerName ∧ stop ≤ bytes.length ∧
      (∀ n ≤ bytes.length, ∃ cut, Archive.make m data n = .ok cut ∧
      (cut.error = .none ↔ stop ≤ n)) ∧
      ∀ (extra : List UInt8) (m' : Memory) (data' : ℕ), m'.HasBytes data' (bytes ++ extra) →
        0 < data' → data' + (bytes ++ extra).length < 2 ^ 64 →
        ∃ longer, Archive.make m' data' (bytes ++ extra).length = .ok longer ∧
          (longer.error = .none ↔ ∀ x ∈ extra, x = 0) := by
  obtain ⟨hpos, hend, ps, t, h, rfl⟩ := isArchive_of_make hb hdata hmake haccepted
  obtain ⟨k, hseen⟩ := h.seen
  have ht := h.trailer_wellFormed
  have hread := read_eq hb hpos hend ht (offsetOf_mod ps) hseen.le hseen.drop
  rw [Parts.verdict_eq_none.mpr (.inl h.trailer)] at hread
  have hname := ht.cstring (hseen.hasBytes hb)
  rw [h.trailer.path] at hname
  have hle : offsetOf ps + t.length ≤ bytes.length := by
    rw [hseen.bytes, List.length_append, List.length_append, length_flatMap_bytes h.wellFormed,
      ht.length_bytes]
    omega
  refine ⟨_, _, hread, hname, hle, fun n hn => ?_, fun extra m' data' hb' hpos' hend' => ?_⟩
  · have hlen : (bytes.take n).length = n := List.length_take_of_le hn
    obtain ⟨cut, hcut, hiff⟩ := accepts_iff (hb.take_drop n hn).1 hpos (by rw [hlen]; omega)
    rw [hlen] at hcut
    exact ⟨cut, hcut, hiff.trans (h.take_iff hn)⟩
  · obtain ⟨longer, hlonger, hiff⟩ := accepts_iff hb' hpos' hend'
    exact ⟨longer, hlonger, hiff.trans (h.append_iff extra)⟩

/-- The sample archive. -/
theorem truncation_sample : ∃ stop ≤ sampleBytes.length, ∀ n ≤ sampleBytes.length,
    ∃ cut, Archive.make sampleMemory 0x1000 n = .ok cut ∧ (cut.error = .none ↔ stop ≤ n) := by
  have hbytes : sampleMemory.HasBytes 0x1000 sampleBytes := hasBytes_store
  have hsample := Fixture.isArchive_encode sampleSources_valid (by decide) 3
  have hmake := make_of_isArchive hbytes (by norm_num) (by decide +kernel) hsample
  obtain ⟨stop, -, -, -, hle, hcut, -⟩ := truncation hbytes (by norm_num) hmake rfl
  exact ⟨stop, hle, hcut⟩

end Cpio

end HyperBerry
