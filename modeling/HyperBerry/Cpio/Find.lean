import HyperBerry.Cpio.Validate

/-!
# Looking for a file

`find_eq` says what `Find` returns for a path in an archive: the first entry that is no directory
and has that path.
-/

namespace HyperBerry

namespace Cpio

open Memory DeviceTree BootLoader

variable {m : Memory} {data : ℕ} {bytes path : List UInt8}

/-- The first file with a path among some entries. -/
def fileAt (path : List UInt8) (ps : List Parts) : Option Parts :=
  ps.find? fun p => !p.isDirectory && p.path == path

/-- The view of the first file with a path, among entries from an offset on. -/
def fileViewFrom (data : ℕ) (path : List UInt8) : ℕ → List Parts → Option File
  | _, [] => none
  | offset, p :: ps =>
    if !p.isDirectory && p.path == path then some (p.view data offset).file
    else fileViewFrom data path (offset + p.length) ps

/-- What `Find` returns for a view. -/
def findResult (file : Option File) : Bool × File := (file.isSome, file.getD {})

/-- A view of the data of an entry that lies in the region. -/
structure IsFileOf (m : Memory) (data size : ℕ) (file : File) (p : Parts) : Prop where
  size_eq : file.size = p.data.length
  hasBytes : m.HasBytes file.data p.data
  ge : data ≤ file.data
  le : file.data + file.size ≤ data + size

section Region

variable (hb : m.HasBytes data bytes) (hpos : 0 < data) (hend : data + bytes.length < 2 ^ 64)

include hb

/-- The view of a file shows it, and lies in the region. -/
lemma fileViewFrom_spec (path : List UInt8) (ps : List Parts) {qs : List Parts} {rest : List UInt8}
    (h : Seen bytes (ps ++ qs) rest) :
    match fileAt path qs with
    | none => fileViewFrom data path (offsetOf ps) qs = none
    | some p => ∃ file, fileViewFrom data path (offsetOf ps) qs = some file ∧
        file.size = p.data.length ∧ m.HasBytes file.data p.data ∧
        data ≤ file.data ∧ file.data + file.size ≤ data + offsetOf (ps ++ qs) := by
  induction qs generalizing ps with
  | nil => rfl
  | cons q qs ih =>
    have hq : q.WellFormed := h.wellFormed q (by simp)
    have hleft := h.left
    rw [List.flatMap_cons, List.append_assoc] at hleft
    have hcons := List.append_cons ps q qs
    rw [fileAt, List.find?_cons, fileViewFrom]
    cases hfound : !q.isDirectory && q.path == path with
    | true =>
      obtain ⟨h₁, h₂, h₃⟩ := q.view_name_le data (offsetOf ps)
      refine ⟨_, rfl, rfl, hq.data_bytes (hleft.hasBytes hb), by omega, ?_⟩
      rw [offsetOf_append, offsetOf_cons]
      omega
    | false =>
      have h' := ih (ps ++ [q]) (hcons ▸ h)
      rw [← offsetOf_snoc, hcons]
      exact h'

include hpos hend

/-- The loop of `Find`. -/
lemma findFrom_eq (ps : List Parts) {qs : List Parts} {rest : List UInt8} {stop fuel addr : ℕ}
    (h : Seen bytes (ps ++ qs) rest) (hstop : stop = offsetOf (ps ++ qs))
    (hpath : m.CString addr path) (haddr : addr + path.length < 2 ^ 64) (hfuel : qs.length < fuel) :
    Archive.findFrom m ⟨data, bytes.length, stop, .none⟩ addr fuel (offsetOf ps) =
      .ok (findResult (fileViewFrom data path (offsetOf ps) qs)) := by
  have hloop : 2 ^ 64 = loopFuel := by unfold loopFuel; rfl
  induction qs generalizing ps fuel with
  | nil =>
    cases fuel with
    | zero => exact absurd hfuel (Nat.not_lt_zero _)
    | succ fuel =>
      rw [List.append_nil] at hstop
      rw [Archive.findFrom, hstop, next_end]
      rfl
  | cons q qs ih =>
    cases fuel with
    | zero => exact absurd hfuel (Nat.not_lt_zero _)
    | succ fuel =>
      have hq : q.WellFormed := h.wellFormed q (by simp)
      have hleft := h.left
      rw [List.flatMap_cons, List.append_assoc] at hleft
      have hqname := hq.cstring (hleft.hasBytes hb)
      obtain ⟨-, hqend, hqfile⟩ := q.view_name_le data (offsetOf ps)
      have hle := h.le
      rw [offsetOf_append, offsetOf_cons] at hle
      have hcons := List.append_cons ps q qs
      have hfile : Archive.isFileAt m addr (q.view data (offsetOf ps)) =
          .ok (!q.isDirectory && q.path == path) := by
        have hdir : (q.view data (offsetOf ps)).isDirectory = q.isDirectory := rfl
        rw [Archive.isFileAt, hdir, strEqAt_eq hqname hpath (by omega) haddr (by omega)]
        cases q.isDirectory
        · simp [beq_eq_decide]
        · rfl
      rw [List.length_cons] at hfuel
      rw [Archive.findFrom, next_eq hb hpos hend h hstop, ok_bind]
      simp only
      rw [if_neg (by simp), hfile, ok_bind, fileViewFrom]
      cases hfound : !q.isDirectory && q.path == path with
      | true => rfl
      | false =>
        rw [if_neg (by simp), if_neg (by simp), ← offsetOf_snoc]
        exact ih _ (hcons ▸ h) (hcons ▸ hstop) (by omega)

/-- What `Find` returns for a path. -/
lemma find_eq {ps : List Parts} {t : Parts} {addr : ℕ} (h : IsArchive bytes ps t)
    (hpath : m.CString addr path) (hpos' : 0 < addr) (haddr : addr + path.length < 2 ^ 64) :
    Archive.find m ⟨data, bytes.length, offsetOf ps, .none⟩ addr =
      .ok (findResult (fileViewFrom data (strip path) 0 ps)) := by
  have hloop : 2 ^ 64 = loopFuel := by unfold loopFuel; rfl
  obtain ⟨n, hseen⟩ := h.seen
  have hle := hseen.le
  have hlen := length_le_offsetOf ps
  have hstrip := length_strip_le path
  rw [Archive.find, if_neg hpos'.ne', normalize_eq hpath haddr (by omega), ok_bind]
  exact findFrom_eq hb hpos hend [] hseen rfl
    (cstring_of_suffix hpath (strip_suffix path)) (by omega) (by omega)

/-- `Find` returns a view of the first file with the path, or an empty one if there is none. -/
lemma find_cases {ps : List Parts} {t : Parts} {addr : ℕ} (h : IsArchive bytes ps t)
    (hpath : m.CString addr path) (hpos' : 0 < addr) (haddr : addr + path.length < 2 ^ 64) :
    ∃ found file, Archive.find m ⟨data, bytes.length, offsetOf ps, .none⟩ addr = .ok (found, file) ∧
      match fileAt (strip path) ps with
      | none => found = false ∧ file = {}
      | some p => found = true ∧ IsFileOf m data bytes.length file p := by
  refine ⟨_, _, find_eq hb hpos hend h hpath hpos' haddr, ?_⟩
  obtain ⟨n, hseen⟩ := h.seen
  have hle := hseen.le
  have hview := fileViewFrom_spec hb (strip path) [] hseen
  rw [offsetOf_nil] at hview
  cases hfile : fileAt (strip path) ps with
  | none =>
    rw [hfile] at hview
    exact ⟨by rw [hview]; rfl, by rw [hview]; rfl⟩
  | some p =>
    rw [hfile] at hview
    obtain ⟨file, hresult, hsize, hdata, hge, hfit⟩ := hview
    rw [hresult]
    exact ⟨rfl, hsize, hdata, hge, hfit.trans (Nat.add_le_add_left hle data)⟩

end Region

end Cpio

end HyperBerry
