import NanoBpm.Seglog.TornTail

/-!
# Segments of lines and frames in any mix (`seglog.rs:117-217`, `:427-448`)

A segment is written batch by batch, each batch as its plaintext lines or as one compressed frame. On disk
that is a sequence of units, a line or a frame each. The reader returns the plaintext of every unit; from a
file cut anywhere it returns the plaintext of the units that lie before the cut as a whole. A record here is
any line of bytes the discriminator cannot mistake for a frame, not only what `serde_json` writes.
-/

namespace NanoBpm

namespace Seglog

/-- A newline-terminated record, without its newline. -/
structure LineRecord where
  body : Bytes
  no_newline : newline ∉ body
  not_magic : body.head? ≠ some frameMagic

namespace LineRecord

def bytes (r : LineRecord) : Bytes := r.body ++ [newline]

/-- The discriminator takes a line for a line. -/
theorem scanHead_append (z : Deflate) (r : LineRecord) (rest : Bytes) :
    scanHead z (r.bytes ++ rest) = .record r.bytes rest := by
  have hs := splitLine_line r.no_newline rest
  have hb : r.bytes ++ rest = r.body ++ newline :: rest := by simp [bytes]
  rw [hb]
  cases hbody : r.body with
  | nil =>
    rw [hbody] at hs
    simp only [List.nil_append] at hs ⊢
    simp only [scanHead, hs, bytes, hbody, List.nil_append]
    rfl
  | cons b bs =>
    have hne : ¬ b = frameMagic := by
      intro h
      apply r.not_magic
      rw [hbody, h]
      rfl
    rw [hbody] at hs
    simp only [List.cons_append] at hs ⊢
    simp only [scanHead, if_neg hne, hs, bytes, hbody, List.cons_append]

/-- A line that is cut before its newline. -/
theorem scanHead_cut (z : Deflate) (r : LineRecord) {n : Nat} (hpos : 0 < n) (hn : n < r.bytes.length) :
    scanHead z (r.bytes.take n) = .torn := by
  have hle : n ≤ r.body.length := by
    simp only [bytes, List.length_append, List.length_singleton] at hn
    omega
  have hcut : r.bytes.take n = r.body.take n := by
    rw [bytes, List.take_append_of_le_length hle]
  have hnl : newline ∉ r.body.take n := fun h => r.no_newline (List.mem_of_mem_take h)
  rw [hcut]
  cases hbody : r.body with
  | nil =>
    rw [hbody] at hle
    simp at hle
    omega
  | cons b bs =>
    have hne : ¬ b = frameMagic := by
      intro h
      apply r.not_magic
      rw [hbody, h]
      rfl
    obtain ⟨m, rfl⟩ : ∃ m, n = m + 1 := ⟨n - 1, by omega⟩
    rw [hbody, List.take_succ_cons] at hnl
    rw [List.take_succ_cons]
    simp only [scanHead, if_neg hne, splitLine_none hnl]

end LineRecord

/-! ## Batches on disk -/

/-- A group-committed batch, and whether the segment's compression is on when it is written. -/
structure Batch where
  compress : Bool
  records : List LineRecord

/-- The serialised batch. -/
def Batch.plain (b : Batch) : Bytes := b.records.flatMap (·.bytes)

/-- What `ActiveSegment::write_all` appends for the batch. -/
def Batch.written (z : Deflate) (b : Batch) : Bytes :=
  if b.compress then (frameCompress z b.plain b.records.length).getD b.plain else b.plain

def fileBytes (z : Deflate) (batches : List Batch) : Bytes := batches.flatMap (·.written z)

/-- A line or a frame as it lies on disk, and the plaintext it stands for. -/
structure DiskUnit where
  disk : Bytes
  plain : Bytes

def LineRecord.unit (r : LineRecord) : DiskUnit := ⟨r.bytes, r.bytes⟩

/-- The units a batch is written as. -/
def Batch.units (z : Deflate) (b : Batch) : List DiskUnit :=
  if b.compress then
    match frameCompress z b.plain b.records.length with
    | some frame => [⟨frame, b.plain⟩]
    | none => b.records.map (·.unit)
  else b.records.map (·.unit)

def fileUnits (z : Deflate) (batches : List Batch) : List DiskUnit := batches.flatMap (·.units z)

/-- The units that end at or before offset `cut`. -/
def wholeBefore : Nat → List DiskUnit → List DiskUnit
  | _, [] => []
  | cut, u :: us => if u.disk.length ≤ cut then u :: wholeBefore (cut - u.disk.length) us else []

/-! ## Decoding units -/

/-- What the reader does with a unit: whole, it is one record; cut, it is torn. -/
structure DiskUnit.Readable (z : Deflate) (u : DiskUnit) : Prop where
  whole : ∀ rest, scanHead z (u.disk ++ rest) = .record u.plain rest
  cut : ∀ n, 0 < n → n < u.disk.length → scanHead z (u.disk.take n) = .torn

theorem LineRecord.readable_unit (z : Deflate) (r : LineRecord) : r.unit.Readable z where
  whole rest := r.scanHead_append z rest
  cut _ hpos hn := r.scanHead_cut z hpos hn

theorem readable_frame {z : Deflate} {buf frame : Bytes} {events : Nat} (h : frameCompress z buf events = some frame) :
    DiskUnit.Readable z ⟨frame, buf⟩ := by
  obtain ⟨rfl, -, hbuf, hcomp⟩ := frameCompress_eq_some h
  constructor
  · exact fun rest => scanHead_frame z buf rest hbuf hcomp
  · intro n hpos hn
    dsimp only at hn
    have hne : (frameBytes buf.length (z.compress buf)).take n ≠ [] := by
      intro hnil
      rcases List.take_eq_nil_iff.1 hnil with h | h
      · omega
      · cases h
    have hproper : (frameBytes buf.length (z.compress buf)).take n ≠ frameBytes buf.length (z.compress buf) := by
      intro heq
      have := congrArg List.length heq
      rw [List.length_take] at this
      omega
    rcases torn_frame_shape hne (List.take_prefix _ _) hproper with ⟨q, hq, hlen⟩ | ⟨part, htake, hpart⟩
    · -- the header is cut
      dsimp only
      rw [hq]
      exact scanHead_cut_header z q (Or.inl hlen)
    · -- the body is cut
      have hs := scanHead_cut_body z buf.length part (z.compress buf) [] hbuf hcomp
      rw [List.append_nil, List.append_nil] at hs
      dsimp only
      rw [htake, hs]
      unfold scanFrame
      rw [if_pos]
      rw [List.length_take]
      omega

theorem readable_units (z : Deflate) (b : Batch) : ∀ u ∈ b.units z, u.Readable z := by
  have hlines : ∀ u ∈ b.records.map (·.unit), u.Readable z := by
    intro u hu
    obtain ⟨r, -, rfl⟩ := List.mem_map.1 hu
    exact r.readable_unit z
  unfold Batch.units
  split
  · split
    · next frame hframe =>
      intro u hu
      rw [List.mem_singleton.1 hu]
      exact readable_frame hframe
    · exact hlines
  · exact hlines

theorem readable_fileUnits (z : Deflate) (batches : List Batch) : ∀ u ∈ fileUnits z batches, u.Readable z := by
  intro u hu
  obtain ⟨b, -, hb⟩ := List.mem_flatMap.1 hu
  exact readable_units z b u hb

/-- A batch is the sequence of its units, on disk and as plaintext. -/
theorem units_spec (z : Deflate) (b : Batch) :
    (b.units z).flatMap (·.disk) = b.written z ∧ (b.units z).flatMap (·.plain) = b.plain := by
  have hlines : (b.records.map (·.unit)).flatMap (·.disk) = b.plain ∧
      (b.records.map (·.unit)).flatMap (·.plain) = b.plain := by
    rw [List.flatMap_map, List.flatMap_map]
    exact ⟨rfl, rfl⟩
  unfold Batch.units Batch.written
  split
  · split
    · next frame hframe => simp [hframe]
    · next hnone => simpa [hnone] using hlines
  · exact hlines

theorem fileUnits_spec (z : Deflate) (batches : List Batch) :
    (fileUnits z batches).flatMap (·.disk) = fileBytes z batches ∧
      (fileUnits z batches).flatMap (·.plain) = batches.flatMap (·.plain) := by
  induction batches with
  | nil => exact ⟨rfl, rfl⟩
  | cons b bs ih =>
    obtain ⟨hdisk, hplain⟩ := units_spec z b
    simp only [fileUnits, fileBytes, List.flatMap_cons, List.flatMap_append] at ih ⊢
    rw [hdisk, hplain, ih.1, ih.2]
    exact ⟨rfl, rfl⟩

/-- The reader on a cut sequence of units. -/
theorem decode_take_units (z : Deflate) (units : List DiskUnit) (h : ∀ u ∈ units, u.Readable z) (cut : Nat) :
    decodeSegmentBytes z ((units.flatMap (·.disk)).take cut) = .ok ((wholeBefore cut units).flatMap (·.plain)) := by
  induction units generalizing cut with
  | nil =>
    rw [List.flatMap_nil, List.take_nil]
    rfl
  | cons u us ih =>
    obtain ⟨hu, hus⟩ := List.forall_mem_cons.1 h
    rw [List.flatMap_cons, wholeBefore]
    split
    · next hle =>
      have htake : (u.disk ++ us.flatMap (·.disk)).take cut =
          u.disk ++ (us.flatMap (·.disk)).take (cut - u.disk.length) := by
        rw [List.take_append, List.take_of_length_le hle]
      rw [htake, decode_record (hu.whole _), ih hus]
      rfl
    · next hlt =>
      have htake : (u.disk ++ us.flatMap (·.disk)).take cut = u.disk.take cut :=
        List.take_append_of_le_length (by omega)
      rw [htake]
      by_cases hzero : cut = 0
      · subst hzero
        rfl
      · exact decode_torn (hu.cut cut (by omega) (by omega))

/-- With nothing cut off, every unit is whole. -/
theorem wholeBefore_length (units : List DiskUnit) {cut : Nat} (h : (units.flatMap (·.disk)).length ≤ cut) :
    wholeBefore cut units = units := by
  induction units generalizing cut with
  | nil => rfl
  | cons u us ih =>
    rw [List.flatMap_cons, List.length_append] at h
    rw [wholeBefore, if_pos (by omega), ih (by omega)]

theorem decode_take_fileBytes (z : Deflate) (batches : List Batch) (cut : Nat) :
    decodeSegmentBytes z ((fileBytes z batches).take cut) =
      .ok ((wholeBefore cut (fileUnits z batches)).flatMap (·.plain)) := by
  rw [← (fileUnits_spec z batches).1]
  exact decode_take_units z _ (readable_fileUnits z batches) cut

/-- An uncut file reads back as its records. -/
theorem decode_fileBytes (z : Deflate) (batches : List Batch) :
    decodeSegmentBytes z (fileBytes z batches) = .ok ((batches.flatMap (·.records)).flatMap (·.bytes)) := by
  obtain ⟨hdisk, hplain⟩ := fileUnits_spec z batches
  have hall := decode_take_fileBytes z batches (fileBytes z batches).length
  rw [List.take_length, wholeBefore_length _ (Nat.le_of_eq (by rw [hdisk])), hplain] at hall
  rw [hall, List.flatMap_assoc]
  rfl

/-- **A segment reads back as written, whole or cut.** For every list of batches, each written as its lines or
as a compressed frame, the reader returns exactly the records; and for the file cut at any offset, without an
error, exactly the records of the lines and frames that lie wholly before the cut. -/
theorem decode_mixed_segment (z : Deflate) (batches : List Batch) :
    decodeSegmentBytes z (fileBytes z batches) = .ok ((batches.flatMap (·.records)).flatMap (·.bytes)) ∧
      ∀ cut, decodeSegmentBytes z ((fileBytes z batches).take cut) =
        .ok ((wholeBefore cut (fileUnits z batches)).flatMap (·.plain)) :=
  ⟨decode_fileBytes z batches, decode_take_fileBytes z batches⟩

end Seglog

end NanoBpm
