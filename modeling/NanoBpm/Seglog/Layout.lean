import NanoBpm.Seglog.Store

/-!
# What the files of a journal hold

`Holds log first activeStart` relates the files to the log of all records ever appended: the sealed
segments tile `[first, activeStart)`, the active segment is the rest, the cold files are stretches of the
log, and the head is right whenever it is the only source of the active segment's position. Appending,
sealing, compacting and pruning keep it, with one proviso: the compaction that removes the last sealed
segment makes the head that only source.
-/

namespace NanoBpm

namespace Seglog

open Tiling

variable {ρ : Type}

/-- Every cold file is a stretch of the log, filed under its two ends. -/
def ColdOk (log : List ρ) (cold : List (ColdFile ρ)) : Prop :=
  ∀ c ∈ cold, Piece log c.start c.stop c.records ∧ c.stop ≤ log.length

structure Files.Holds (f : Files ρ) (log : List ρ) (first activeStart : Nat) : Prop where
  tiles : Tiles log first f.sealed activeStart
  first_le : first ≤ log.length
  active : f.active = log.drop activeStart
  position : f.sealed = [] → f.head.getD 0 = activeStart
  cold : ColdOk log f.cold

/-- The writer's counters and segment list describe the files. -/
structure SegShared.Tracks (w : SegShared) (f : Files ρ) (log : List ρ) (activeStart : Nat) : Prop where
  total : w.totalEvents = log.length
  start : w.activeStart = activeStart
  segments : w.sealed.map (fun s => (s.start, s.stop)) = f.sealed.map fun p => (p.1, p.1 + p.2.length)

namespace Files.Holds

theorem empty : ({} : Files ρ).Holds [] 0 0 where
  tiles := ⟨rfl, Nat.le_refl _⟩
  first_le := Nat.le_refl _
  active := rfl
  position := fun _ => rfl
  cold := fun _ h => nomatch h

theorem activeStart_le {f : Files ρ} {log : List ρ} {first activeStart : Nat} (h : f.Holds log first activeStart) :
    activeStart ≤ log.length := h.tiles.le_length h.first_le

/-! ## Steps -/

theorem append {f : Files ρ} {log : List ρ} {first activeStart : Nat} (h : f.Holds log first activeStart)
    (records : List ρ) : (f.append records).Holds (log ++ records) first activeStart where
  tiles := h.tiles.extend h.first_le records
  first_le := by
    rw [List.length_append]
    exact Nat.le_trans h.first_le (Nat.le_add_right _ _)
  active := by
    rw [List.drop_append_of_le_length h.activeStart_le, ← h.active]
    rfl
  position := h.position
  cold := by
    intro c hc
    obtain ⟨hpiece, hle⟩ := h.cold c hc
    have hlen := hpiece.2
    refine ⟨hpiece.extend (by omega) records, ?_⟩
    rw [List.length_append]
    omega

/-- Whatever becomes of the sidecars and the head, a rename keeps every record in place. -/
theorem rename {f : Files ρ} {log : List ρ} {first activeStart : Nat} (h : f.Holds log first activeStart)
    (hne : activeStart < log.length) (counts : List Nat) (written : Bool) (head : Option Nat)
    (ppHead : Option (List Nat)) :
    ({ f.rename activeStart counts written with head, ppHead }).Holds log first log.length := by
  have hsealed : Tiling.file activeStart f.active f.sealed = f.sealed ++ [(activeStart, log.drop activeStart)] := by
    rw [file_eq_append h.tiles.start_lt, h.active]
  refine ⟨?_, h.first_le, ?_, ?_, h.cold⟩
  · show Tiles log first (Tiling.file activeStart f.active f.sealed) log.length
    rw [hsealed]
    exact h.tiles.close hne
  · show [] = log.drop log.length
    rw [List.drop_length]
  · intro hnil
    rw [show Tiling.file activeStart f.active f.sealed = [] from hnil] at hsealed
    exact absurd hsealed.symm (by simp)

theorem prune {f : Files ρ} {log : List ρ} {first activeStart : Nat} (h : f.Holds log first activeStart)
    (keepFrom : Nat) : (pruneColdArchive f keepFrom).Holds log first activeStart where
  tiles := h.tiles
  first_le := h.first_le
  active := h.active
  position := h.position
  cold := fun c hc => h.cold c ((List.dropWhile_sublist _).mem hc)

end Files.Holds

/-- A seal keeps files and writer in step, whichever of its best-effort writes are lost. -/
theorem tracks_sealSegment {w : SegShared} {f : Files ρ} {log : List ρ} {activeStart : Nat}
    {first : Nat} (writes : SealWrites) (hf : f.Holds log first activeStart) (hw : w.Tracks f log activeStart) :
    ∃ start', (sealSegment writes f w).1.Holds log first start' ∧
      (sealSegment writes f w).2.1.Tracks (sealSegment writes f w).1 log start' ∧
      (sealSegment writes f w).2.2.stop = log.length := by
  unfold sealSegment
  dsimp only
  split
  · exact ⟨activeStart, hf, hw, hw.total⟩
  · rename_i hne
    have hlt : activeStart < log.length := by
      have := hf.activeStart_le
      rw [hw.total, hw.start] at hne
      omega
    refine ⟨log.length, ?_, ⟨hw.total, hw.total, ?_⟩, hw.total⟩
    · rw [hw.start]
      exact hf.rename hlt _ _ _ _
    · show (w.sealed ++ [_]).map _ = (Tiling.file w.activeStart f.active f.sealed).map _
      rw [hw.start, file_eq_append hf.tiles.start_lt, List.map_append, List.map_append, hw.segments, hf.active]
      simp only [List.map_cons, List.map_nil, List.length_drop, hw.total]
      congr 3
      omega

theorem mem_insertCold {c d : ColdFile ρ} {ds : List (ColdFile ρ)} (h : d ∈ insertCold c ds) : d = c ∨ d ∈ ds := by
  induction ds with
  | nil => exact Or.inl (List.mem_singleton.1 h)
  | cons x xs ih =>
    unfold insertCold at h
    split at h
    · rcases List.mem_cons.1 h with rfl | h
      · exact Or.inr List.mem_cons_self
      · exact (ih h).imp_right (List.mem_cons_of_mem _)
    · exact List.mem_cons.1 h

/-- An archive write copies the first sealed segment and touches nothing else. -/
theorem archive_spec {f f' : Files ρ} {log : List ρ} {first activeStart : Nat} {p : Nat × List ρ}
    {rest : List (Nat × List ρ)} (ht : Tiles log first f.sealed activeStart) (hfirst : first ≤ log.length)
    (hcold : ColdOk log f.cold) (hp : f.sealed = p :: rest)
    (ha : archiveColdSegment f p.1 (p.1 + p.2.length) = some f') :
    f' = { f with cold := f'.cold } ∧ ColdOk log f'.cold := by
  unfold archiveColdSegment at ha
  split at ha
  · obtain rfl := Option.some.inj ha
    exact ⟨rfl, hcold⟩
  · have hfind : f.sealed.find? (·.1 == p.1) = some p := by
      rw [hp, List.find?_cons_of_pos (by simp)]
    rw [hfind, Option.map_some] at ha
    obtain rfl := Option.some.inj ha
    refine ⟨rfl, fun c hc => ?_⟩
    rcases mem_insertCold hc with rfl | hc
    · exact ht.piece hfirst p (hp ▸ List.mem_cons_self)
    · exact hcold c hc

/-- The starts of a tiling do not repeat. -/
theorem filter_ne_head {log : List ρ} {p : Nat × List ρ} {rest : List (Nat × List ρ)} {a b : Nat}
    (h : Tiles log a (p :: rest) b) : (p :: rest).filter (·.1 ≠ p.1) = rest := by
  have hge : ∀ {a : Nat} {pieces : List (Nat × List ρ)}, Tiles log a pieces b → ∀ q ∈ pieces, a ≤ q.1 := by
    intro a pieces ht
    induction pieces generalizing a with
    | nil => simp
    | cons q qs ih =>
      rw [List.forall_mem_cons]
      refine ⟨Nat.le_of_eq ht.1.symm, fun x hx => ?_⟩
      exact Nat.le_trans (Nat.le_add_right _ _) (ih ht.2.2.2 x hx)
  obtain ⟨hstart, hne, -, hrest⟩ := h
  have hpos : 0 < p.2.length := List.length_pos_iff.2 hne
  rw [List.filter_cons_of_neg (by simp), List.filter_eq_self]
  intro q hq
  have := hge hrest q hq
  simp only [ne_eq, decide_not, Bool.not_eq_eq_eq_not, Bool.not_true, decide_eq_false_iff_not]
  omega

/-! ## Compaction -/

/-- Removing a segment's files: its sealed file and at most its sidecar go. -/
structure RemovesSealed (remove : Files ρ → Nat → Files ρ) : Prop where
  sealed : ∀ f start, (remove f start).sealed = f.sealed.filter (·.1 ≠ start)
  active : ∀ f start, (remove f start).active = f.active
  head : ∀ f start, (remove f start).head = f.head
  cold : ∀ f start, (remove f start).cold = f.cold
  ppHead : ∀ f start, (remove f start).ppHead = f.ppHead
  ppMeta : ∀ f start (s : Nat), s ≠ start → (remove f start).ppMeta[s]? = f.ppMeta[s]?
  ppMeta_sub : ∀ f start (s : Nat) (v : List Nat), (remove f start).ppMeta[s]? = some v → f.ppMeta[s]? = some v

theorem removesSealed_removeSealed : RemovesSealed (@Files.removeSealed ρ) where
  sealed := fun _ _ => rfl
  active := fun _ _ => rfl
  head := fun _ _ => rfl
  cold := fun _ _ => rfl
  ppHead := fun _ _ => rfl
  ppMeta := fun _ _ _ _ => rfl
  ppMeta_sub := fun _ _ _ _ h => h

/-- `k` deletable segments came off the front, from the files and from the writer's list alike. -/
structure Compacted (deletable : SealedSeg → Bool) (archives : Nat) (log : List ρ) (f : Files ρ)
    (sealed : List SealedSeg) (f' : Files ρ) (sealed' : List SealedSeg) (k : Nat) : Prop where
  bound : k ≤ archives
  segments : sealed' = sealed.drop k
  files : f'.sealed = f.sealed.drop k
  active : f'.active = f.active
  head : f'.head = f.head
  ppHead : f'.ppHead = f.ppHead
  ppMeta : ∀ s : Nat, (∀ p ∈ f.sealed.take k, p.1 ≠ s) → f'.ppMeta[s]? = f.ppMeta[s]?
  ppMeta_sub : ∀ (s : Nat) (v : List Nat), f'.ppMeta[s]? = some v → f.ppMeta[s]? = some v
  removed : sealed.take k = (sealed.takeWhile deletable).take archives
  cold : ColdOk log f'.cold

theorem Compacted.deleted {deletable : SealedSeg → Bool} {archives k : Nat} {log : List ρ} {f f' : Files ρ}
    {sealed sealed' : List SealedSeg} (h : Compacted deletable archives log f sealed f' sealed' k) :
    ∀ seg ∈ sealed.take k, deletable seg = true := by
  intro seg hseg
  rw [h.removed] at hseg
  exact List.all_eq_true.1 List.all_takeWhile seg (List.mem_of_mem_take hseg)

theorem compactLoop_spec {deletable : SealedSeg → Bool} {remove : Files ρ → Nat → Files ρ}
    (hremove : RemovesSealed remove) {log : List ρ} {activeStart : Nat} (archives : Nat) :
    ∀ (f : Files ρ) (sealed : List SealedSeg) (first : Nat), Tiles log first f.sealed activeStart →
      first ≤ log.length → ColdOk log f.cold →
      sealed.map (fun s => (s.start, s.stop)) = f.sealed.map (fun p => (p.1, p.1 + p.2.length)) →
      ∃ k, Compacted deletable archives log f sealed (compactLoop deletable remove archives f sealed).1
        (compactLoop deletable remove archives f sealed).2 k := by
  induction archives with
  | zero =>
    intro f sealed first _ _ hcold _
    exact ⟨0, Nat.le_refl _, rfl, rfl, rfl, rfl, rfl, fun _ _ => rfl, fun _ _ h => h, rfl, hcold⟩
  | succ n ih =>
    intro f sealed first ht hfirst hcold hseg
    have stay : sealed.takeWhile deletable = [] → Compacted deletable (n + 1) log f sealed f sealed 0 := by
      intro hnil
      exact ⟨Nat.zero_le _, rfl, rfl, rfl, rfl, rfl, fun _ _ => rfl, fun _ _ h => h, by rw [hnil]; rfl, hcold⟩
    cases sealed with
    | nil => exact ⟨0, stay rfl⟩
    | cons seg rest =>
      obtain ⟨p, ps, hps, hhead, htail⟩ : ∃ p ps, f.sealed = p :: ps ∧
          (seg.start, seg.stop) = (p.1, p.1 + p.2.length) ∧
          rest.map (fun s => (s.start, s.stop)) = ps.map (fun p => (p.1, p.1 + p.2.length)) := by
        cases hf : f.sealed with
        | nil =>
          rw [hf] at hseg
          exact absurd hseg (by simp)
        | cons p ps =>
          rw [hf, List.map_cons, List.map_cons] at hseg
          obtain ⟨h1, h2⟩ := List.cons.inj hseg
          exact ⟨p, ps, rfl, h1, h2⟩
      obtain ⟨hstart, hstop⟩ := Prod.mk.inj hhead
      unfold compactLoop
      by_cases hdel : deletable seg = true
      · rw [if_pos hdel]
        cases ha : archiveColdSegment f seg.start seg.stop with
        | none =>
          -- the segment's file is there, so it can be read
          have hfind : f.sealed.find? (·.1 == seg.start) = some p := by
            rw [hps, hstart, List.find?_cons_of_pos (by simp)]
          unfold archiveColdSegment at ha
          rw [hfind] at ha
          split at ha <;> cases ha
        | some f' =>
          rw [hstart, hstop] at ha
          obtain ⟨hf', hcold'⟩ := archive_spec ht hfirst hcold hps ha
          -- the rest of the loop runs on the tiling without its first piece
          have hrest : (remove f' seg.start).sealed = ps := by
            rw [hremove.sealed, hf', hstart]
            show f.sealed.filter (·.1 ≠ p.1) = ps
            rw [hps]
            exact filter_ne_head (hps ▸ ht)
          rw [hps] at ht
          have hcoldr : ColdOk log (remove f' seg.start).cold := hremove.cold f' seg.start ▸ hcold'
          obtain ⟨k, hk⟩ := ih (remove f' seg.start) rest (first + p.2.length) (hrest ▸ ht.2.2.2)
            (add_length_le ht.2.2.1 hfirst) hcoldr (hrest ▸ htail)
          refine ⟨k + 1, Nat.succ_le_succ hk.bound, hk.segments, ?_, ?_, ?_, ?_, ?_, ?_, ?_, hk.cold⟩
          · rw [hk.files, hrest, hps]
            rfl
          · rw [hk.active, hremove.active, hf']
          · rw [hk.head, hremove.head, hf']
          · rw [hk.ppHead, hremove.ppHead, hf']
          · intro s hs
            rw [hps, List.take_succ_cons, List.forall_mem_cons] at hs
            rw [hk.ppMeta s (hrest ▸ hs.2), hremove.ppMeta f' seg.start s (hstart ▸ hs.1.symm), hf']
          · intro s v hv
            have := hremove.ppMeta_sub f' seg.start s v (hk.ppMeta_sub s v hv)
            rw [hf'] at this
            exact this
          · rw [List.take_succ_cons, List.takeWhile_cons_of_pos hdel, List.take_succ_cons, hk.removed]
      · rw [if_neg hdel]
        exact ⟨0, stay (List.takeWhile_cons_of_neg hdel)⟩

/-- A compaction keeps the layout, provided that the head is right when no sealed segment stays. -/
theorem Files.Holds.compacted {deletable : SealedSeg → Bool} {archives k : Nat} {f f' : Files ρ} {log : List ρ}
    {first activeStart : Nat} {sealed sealed' : List SealedSeg} (h : f.Holds log first activeStart)
    (hc : Compacted deletable archives log f sealed f' sealed' k)
    (hhead : f.sealed ≠ [] → f.sealed.drop k = [] → f.head = some activeStart) :
    ∃ first', Tiles log first (f.sealed.take k) first' ∧ f'.Holds log first' activeStart := by
  obtain ⟨first', hle, htake, hdrop⟩ := h.tiles.split h.first_le k
  refine ⟨first', htake, hc.files ▸ hdrop, hle, hc.active ▸ h.active, ?_, hc.cold⟩
  rw [hc.files, hc.head]
  intro hnil
  by_cases hemp : f.sealed = []
  · exact h.position hemp
  · rw [hhead hemp hnil]
    rfl

/-! ## What recovery reads -/

namespace Files.Holds

/-- The position recovery computes from the files is the true one. -/
theorem recoveredActiveStart_eq {f : Files ρ} {log : List ρ} {first activeStart : Nat}
    (h : f.Holds log first activeStart) : recoveredActiveStart f = activeStart := by
  unfold recoveredActiveStart
  have hlast := h.tiles.last
  cases hs : f.sealed.getLast? with
  | none => exact h.position (List.getLast?_eq_none_iff.1 hs)
  | some p =>
    rw [hs] at hlast
    exact hlast

theorem recoveredFirstIndex_eq {f : Files ρ} {log : List ρ} {first activeStart : Nat}
    (h : f.Holds log first activeStart) : recoveredFirstIndex f = first := by
  unfold recoveredFirstIndex
  rw [h.recoveredActiveStart_eq]
  have ht := h.tiles
  cases hs : f.sealed with
  | nil =>
    rw [hs] at ht
    exact ht.1.symm
  | cons p ps =>
    rw [hs] at ht
    exact ht.head

/-- The surviving records are the log from the first index on. -/
theorem survivingRecords_eq {f : Files ρ} {log : List ρ} {first activeStart : Nat}
    (h : f.Holds log first activeStart) : survivingRecords f = log.drop first := by
  rw [survivingRecords, h.active]
  exact h.tiles.flatMap_append

theorem total_eq {f : Files ρ} {log : List ρ} {first activeStart : Nat} (h : f.Holds log first activeStart) :
    recoveredActiveStart f + f.active.length = log.length := by
  have := h.activeStart_le
  rw [h.recoveredActiveStart_eq, h.active, List.length_drop]
  omega

end Files.Holds

/-- A validated cold prefix is a prefix of the log, and a well-filed archive is never rejected. -/
theorem coldPrefix_spec {log : List ρ} {cold : List (ColdFile ρ)} (hcold : ColdOk log cold) (expected : Nat) :
    ∃ records stop, coldPrefix expected cold = .ok (records, stop) ∧ records ++ log.drop stop = log.drop expected := by
  induction cold generalizing expected with
  | nil => exact ⟨[], expected, rfl, rfl⟩
  | cons c cs ih =>
    obtain ⟨⟨⟨hpre, hlen⟩, -⟩, hrest⟩ := List.forall_mem_cons.1 hcold
    unfold coldPrefix
    by_cases hs : c.start = expected
    · have hsize : c.records.length = c.stop - c.start := by omega
      obtain ⟨records, stop, hok, heq⟩ := ih hrest c.stop
      refine ⟨c.records ++ records, stop, ?_, ?_⟩
      · rw [if_neg (not_not_intro hs), if_neg (not_not_intro hsize), hok]
      · rw [List.append_assoc, heq, ← hlen, hs]
        exact append_drop (hs ▸ hpre)
    · exact ⟨[], expected, if_pos hs, rfl⟩

/-- When the gate opens, the cold prefix and the hot tail are the whole log. -/
theorem fullColdPrefix_sound {f : Files ρ} {log : List ρ} {firstIndex totalEvents hotLen : Nat} {cold : List ρ}
    (hcold : ColdOk log f.cold) (h : fullColdPrefix f firstIndex totalEvents hotLen = .ok (some cold)) :
    cold ++ log.drop firstIndex = log := by
  obtain ⟨records, stop, hok, heq⟩ := coldPrefix_spec hcold 0
  unfold fullColdPrefix at h
  rw [hok] at h
  dsimp only at h
  split at h
  · rename_i hgate
    cases h
    rw [← hgate.1, heq]
    rfl
  · cases h

end Seglog

end NanoBpm
