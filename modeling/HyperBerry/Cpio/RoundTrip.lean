import HyperBerry.Cpio.Find

/-!
# Encoding and reading back

`round_trip` says that the reader gets back what the encoder of the tests has written.  A name of `2
^ 32 - 1` bytes or more does not fit in the 32-bit size field of the format; the encoder truncates
its size, and the reader refuses the archive (`make_longName`).
-/

namespace HyperBerry

namespace Cpio

open Memory DeviceTree BootLoader Fixture

variable {m : Memory} {data : ℕ}

/-- An entry shows a source: its normalised name, its data and its kind. -/
structure Shows (m : Memory) (e : Entry) (s : Source) : Prop where
  name : m.CString e.name s.path
  data : m.HasBytes e.file.data s.data
  size : e.file.size = s.data.length
  isDirectory : e.isDirectory = s.isDirectory

/-- A view of the parts of a source shows the source. -/
lemma shows_of_isView {entries : List Entry} {sources : List Source}
    (hvalid : ∀ s ∈ sources, s.Valid)
    (h : List.Forall₂ (IsView m) entries (sources.map Source.parts)) :
    List.Forall₂ (Shows m) entries sources := by
  induction sources generalizing entries with
  | nil =>
    cases h
    exact .nil
  | cons s sources ih =>
    obtain ⟨e, es, hs, hes, rfl⟩ := List.forall₂_cons_right_iff.mp h
    refine .cons ⟨hs.name, hs.data, hs.size, ?_⟩
      (ih (fun s' hs' => hvalid s' (List.mem_cons_of_mem s hs')) hes)
    rw [hs.isDirectory, (hvalid s List.mem_cons_self).isDirectory_parts]

/-- The file at a path, among the parts of sources with different paths. -/
lemma fileAt_parts {sources : List Source} {s : Source} (hvalid : ∀ s ∈ sources, s.Valid)
    (hdistinct : (sources.map Source.path).Nodup) (hs : s ∈ sources) (hfile : ¬ s.isDirectory) :
    fileAt s.path (sources.map Source.parts) = some s.parts := by
  induction sources with
  | nil => exact absurd hs List.not_mem_nil
  | cons s' sources ih =>
    rw [List.map_cons, List.nodup_cons] at hdistinct
    rw [List.map_cons, fileAt, List.find?_cons]
    rcases List.mem_cons.mp hs with rfl | hmem
    · have hpath : s.parts.path = s.path := rfl
      rw [(hvalid s hs).isDirectory_parts, hpath]
      simp [hfile]
    · have hne : s'.parts.path ≠ s.path := by
        intro h
        have hpath : s'.path = s.path := h
        exact hdistinct.1 (hpath ▸ List.mem_map_of_mem hmem)
      simp only [beq_eq_false_iff_ne.mpr hne, Bool.and_false]
      exact ih (fun t ht => hvalid t (List.mem_cons_of_mem s' ht)) hdistinct.2 hmem

/-- No file at a path, among the parts of sources. -/
lemma fileAt_parts_none {sources : List Source} {path : List UInt8}
    (hvalid : ∀ s ∈ sources, s.Valid) (hnone : ¬ ∃ s ∈ sources, ¬ s.isDirectory ∧ s.path = path) :
    fileAt path (sources.map Source.parts) = none := by
  rw [fileAt, List.find?_eq_none]
  intro p hp
  obtain ⟨s, hs, rfl⟩ := List.mem_map.mp hp
  intro h
  rw [Bool.and_eq_true, (hvalid s hs).isDirectory_parts, beq_iff_eq] at h
  exact hnone ⟨s, hs, by simpa using h.1, h.2⟩

/-- **Round trip.**  Entries that are encoded by the tests, with any number of zeros behind, are
accepted; the calls of `Next` return them in order, and `Find` returns the file at a path if there
is one. -/
theorem round_trip {sources : List Source} {n : ℕ} (hvalid : ∀ s ∈ sources, s.Valid)
    (hdistinct : (sources.map Source.path).Nodup)
    (hb : m.HasBytes data (encode sources ++ List.replicate n 0)) (hpos : 0 < data)
    (hend : data + (encode sources ++ List.replicate n 0).length < 2 ^ 64) :
    ∃ archive, Archive.make m data (encode sources ++ List.replicate n 0).length = .ok archive ∧
      archive.error = .none ∧
      (∃ entries, Archive.entriesFrom m archive loopFuel 0 = .ok entries ∧
        List.Forall₂ (Shows m) entries sources) ∧
      Archive.find m archive 0 = .ok (false, {}) ∧
      ∀ addr path, 0 < addr → addr + path.length < 2 ^ 64 → m.CString addr path →
        (∀ s ∈ sources, ¬ s.isDirectory → s.path = strip path →
          ∃ file, Archive.find m archive addr = .ok (true, file) ∧ file.size = s.data.length ∧
            m.HasBytes file.data s.data) ∧
        ((¬ ∃ s ∈ sources, ¬ s.isDirectory ∧ s.path = strip path) →
          Archive.find m archive addr = .ok (false, {})) := by
  have hloop : 2 ^ 64 = loopFuel := by unfold loopFuel; rfl
  have harchive := isArchive_encode hvalid hdistinct n
  obtain ⟨k, hseen⟩ := harchive.seen
  have hle := hseen.le
  have hlen := length_le_offsetOf (sources.map Source.parts)
  refine ⟨_, make_of_isArchive hb hpos hend harchive, rfl, ?_, rfl, ?_⟩
  · exact ⟨_, entriesFrom_eq hb hpos hend [] hseen rfl (by omega),
      shows_of_isView hvalid (isView_viewsFrom hb [] hseen)⟩
  · intro addr path hpos' haddr hpath
    obtain ⟨found, file, hfind, hfile⟩ := find_cases hb hpos hend harchive hpath hpos' haddr
    refine ⟨fun s hs hnot heq => ?_, fun hnone => ?_⟩
    · rw [← heq, fileAt_parts hvalid hdistinct hs hnot] at hfile
      obtain ⟨rfl, hview⟩ := hfile
      exact ⟨file, hfind, hview.size_eq, hview.hasBytes⟩
    · rw [fileAt_parts_none hvalid hnone] at hfile
      obtain ⟨rfl, rfl⟩ := hfile
      exact hfind

/-- The sample archive with the string `a` in front of it. -/
def sampleMemoryWithPath : Memory := store sampleMemory 0x800 (ascii "a" ++ [0])

/-- `Find` returns the three bytes of the file `./a` of the sample for the path `a`. -/
theorem round_trip_sample :
    ∃ archive, Archive.make sampleMemoryWithPath 0x1000 sampleBytes.length = .ok archive ∧
      archive.error = .none ∧
      ∃ file, Archive.find sampleMemoryWithPath archive 0x800 = .ok (true, file) ∧
        file.size = 3 := by
  have hbytes : sampleMemoryWithPath.HasBytes 0x1000 (encode sampleSources ++ List.replicate 3 0) :=
    HasBytes.congr (m := sampleMemory) hasBytes_store (agreeOn_store (.inr (by decide)))
  have hpath : sampleMemoryWithPath.CString 0x800 (ascii "a") := ⟨by decide, hasBytes_store⟩
  obtain ⟨archive, hmake, herror, -, -, hfind⟩ := round_trip sampleSources_valid (by decide) hbytes
    (by norm_num) (by decide +kernel)
  obtain ⟨file, hfile, hsize, -⟩ := (hfind 0x800 (ascii "a") (by norm_num) (by decide) hpath).1
    ⟨ascii "./a", [1, 2, 3], 0o100644⟩ (by decide) (by decide) (by decide)
  exact ⟨archive, hmake, herror, file, hfile, hsize⟩

/-! ## Long names -/

/-- A file with a name of `n` letters. -/
def letters (n : ℕ) : Source := ⟨List.replicate n 97, [], 0o100644⟩

/-- Nothing is stripped from letters. -/
lemma path_letters (n : ℕ) : (letters n).path = List.replicate n 97 := by
  cases n with
  | zero => rfl
  | succ n =>
    rw [Source.path, letters, List.replicate_succ]
    exact strip.eq_2 _ fun xs h => absurd (List.cons.inj h).1 (by decide)

/-- Letters are a valid path. -/
lemma validPath_letters {n : ℕ} (h : 2 < n) : ValidPath (letters n).path := by
  have hslash : slash ∉ List.replicate n (97 : UInt8) := fun hmem =>
    absurd (List.eq_of_mem_replicate hmem) (by decide)
  right
  intro c hc
  rw [path_letters, List.splitOn_eq_singleton hslash, List.mem_singleton] at hc
  have hlen : c.length = n := by rw [hc, List.length_replicate]
  refine ⟨?_, ?_, ?_⟩ <;> rintro rfl <;> simp at hlen <;> omega

/-- A name of `2 ^ 32` letters is encoded with the size one, and the archive is refused. -/
theorem make_longName :
    0 ∉ (letters (2 ^ 32)).name ∧ ValidPath (letters (2 ^ 32)).path ∧
      (letters (2 ^ 32)).path ≠ trailerName ∧ (letters (2 ^ 32)).path ≠ [dot] ∧
      ¬ (letters (2 ^ 32)).isDirectory ∧ (letters (2 ^ 32)).data = [] ∧
      0x1000 + (encode [letters (2 ^ 32)]).length < 2 ^ 64 ∧
      ∃ archive, Archive.make (store (fun _ => none) 0x1000 (encode [letters (2 ^ 32)])) 0x1000
        (encode [letters (2 ^ 32)]).length = .ok archive ∧ archive.error = .badName := by
  obtain ⟨n, hn⟩ : ∃ n, n = 2 ^ 32 := ⟨_, rfl⟩
  rw [← hn]
  have hlen : (letters n).path.length = n := by rw [path_letters, List.length_replicate]
  have hne : ∀ xs : List UInt8, xs.length < 100 → (letters n).path ≠ xs := by
    rintro xs hxs rfl
    omega
  have hbytes : (encode [letters n]).length =
      (letters n).parts.length + trailer.parts.length := by
    rw [encode_eq, List.length_append, List.map_singleton, List.flatMap_singleton,
      length_bytes_parts, length_bytes_parts]
  have hlength : (letters n).parts.length ≤ n + 200 := by
    have hname : (letters n).parts.nameField.length = n + 1 := by
      rw [nameField_parts, List.length_append, List.length_singleton, letters,
        List.length_replicate]
    have hdata : (letters n).parts.data.length = 0 := rfl
    unfold Parts.length Parts.dataOffset pad
    omega
  have htrailer : trailer.parts.length = 124 := by decide
  have hend : 0x1000 + (encode [letters n]).length < 2 ^ 64 := by omega
  refine ⟨fun hmem => absurd (List.eq_of_mem_replicate hmem) (by decide),
    validPath_letters (by omega),
    hne _ (by decide), hne _ (by decide), by simp [Source.isDirectory, letters], rfl, hend, ?_⟩
  have hb : (store (fun _ => none) 0x1000 (encode [letters n])).HasBytes 0x1000
      (encode [letters n]) := hasBytes_store
  have hdrop : (encode [letters n]).drop 0 = (letters n).parts.bytes ++ trailer.parts.bytes := by
    rw [List.drop_zero, encode_eq, List.map_singleton, List.flatMap_singleton]
  obtain ⟨hread, hname, hfit⟩ :=
    read_eq_readName hb hend (fields_parts _) rfl rfl (Nat.zero_le _) hdrop
  -- the size field holds one, and the first byte is a letter
  have hsize : (letters n).parts.values.getD 11 0 = 1 := by
    change ((List.replicate n (97 : UInt8)).length + 1) % 2 ^ 32 = 1
    rw [List.length_replicate, hn]
    rfl
  have hfirst : store (fun _ => none) 0x1000 (encode [letters n]) (0x1000 + (0 + 110)) =
      some 97 := by
    have hcons : (letters n).parts.nameField = 97 :: (List.replicate (n - 1) 97 ++ [0]) := by
      have hpred : n = n - 1 + 1 := by omega
      rw [nameField_parts, letters]
      simp only
      rw [hpred, List.replicate_succ]
      rfl
    rw [hcons] at hname
    exact (hasBytes_cons.mp hname).1
  have hnul : nulIndex (store (fun _ => none) 0x1000 (encode [letters n])) (0x1000 + (0 + 110)) 1 =
      .ok 1 := by
    rw [nulIndex, load8_eq_ok.mpr hfirst]
    rfl
  have hname' : readName (store (fun _ => none) 0x1000 (encode [letters n])) 0x1000
      (encode [letters n]).length (letters n).parts.values (0 + 110) =
        .ok (.badName, 0 + 110, {}) := by
    rw [readName]
    simp only [hsize]
    rw [if_neg (by omega), add64_of_lt (by norm_num), hnul, ok_bind, if_pos rfl]
    rfl
  have hvalidate : ∀ fuel, validateFrom (store (fun _ => none) 0x1000 (encode [letters n])) 0x1000
      (encode [letters n]).length (fuel + 1) 0 = .ok (.badName, 0) := by
    intro fuel
    rw [validateFrom, if_pos (by omega), hread, hname']
    rfl
  have hloop : loopFuel = (2 ^ 64 - 1) + 1 := by unfold loopFuel; rfl
  refine ⟨⟨0x1000, (encode [letters n]).length, 0, .badName⟩, ?_, rfl⟩
  rw [Archive.make, if_pos (by omega), hloop, hvalidate]
  rfl

end Cpio

end HyperBerry
