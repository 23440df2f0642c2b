/-!
# Consecutive pieces of a log

A log is cut into pieces that are stored separately; each piece is filed under the index of its first
item. `Tiles log a pieces b` says that the pieces are non-empty, follow one another without a gap or an
overlap, begin at `a` and end at `b`. The operations a segmented log performs on its pieces (extend the
log, close the open piece, drop the first one) keep the tiling.
-/

namespace Tiling

variable {α : Type}

/-- The non-empty consecutive pieces of `log` from `a` to `b`, each under the index of its first item. -/
def Tiles (log : List α) : Nat → List (Nat × List α) → Nat → Prop
  | a, [], b => a = b ∧ a ≤ log.length
  | a, (start, items) :: rest, b =>
    start = a ∧ items ≠ [] ∧ items <+: log.drop a ∧ Tiles log (a + items.length) rest b

/-- A stretch of the log filed under its two ends. -/
def Piece (log : List α) (start stop : Nat) (items : List α) : Prop :=
  items <+: log.drop start ∧ start + items.length = stop

theorem Piece.extend {log : List α} {start stop : Nat} {items : List α} (h : Piece log start stop items)
    (hstart : start ≤ log.length) (more : List α) : Piece (log ++ more) start stop items := by
  refine ⟨h.1.trans ?_, h.2⟩
  rw [List.drop_append_of_le_length hstart]
  exact List.prefix_append _ _

theorem append_drop {log items : List α} {a : Nat} (h : items <+: log.drop a) :
    items ++ log.drop (a + items.length) = log.drop a := by
  obtain ⟨rest, hrest⟩ := h
  rw [← List.drop_drop, ← hrest, List.drop_left]

theorem add_length_le {log items : List α} {a : Nat} (h : items <+: log.drop a) (ha : a ≤ log.length) :
    a + items.length ≤ log.length := by
  have := h.length_le
  rw [List.length_drop] at this
  omega

namespace Tiles

theorem le_length {log : List α} {pieces : List (Nat × List α)} {a b : Nat} (h : Tiles log a pieces b)
    (ha : a ≤ log.length) : b ≤ log.length := by
  induction pieces generalizing a with
  | nil => exact h.1 ▸ h.2
  | cons p rest ih => exact ih h.2.2.2 (add_length_le h.2.2.1 ha)

theorem start_le {log : List α} {pieces : List (Nat × List α)} {a b : Nat} (h : Tiles log a pieces b) :
    a ≤ b := by
  induction pieces generalizing a with
  | nil => exact Nat.le_of_eq h.1
  | cons p rest ih => exact Nat.le_trans (Nat.le_add_right _ _) (ih h.2.2.2)

/-- Every piece is filed under an index below the end. -/
theorem start_lt {log : List α} {pieces : List (Nat × List α)} {a b : Nat} (h : Tiles log a pieces b) :
    ∀ p ∈ pieces, p.1 < b := by
  induction pieces generalizing a with
  | nil => simp
  | cons p rest ih =>
    obtain ⟨hstart, hne, -, hrest⟩ := h
    have hpos : 0 < p.2.length := List.length_pos_iff.2 hne
    have hle := hrest.start_le
    rw [List.forall_mem_cons]
    exact ⟨by omega, ih hrest⟩

/-- What the pieces hold, with what stands behind them, is the log from the first piece on. -/
theorem flatMap_append {log : List α} {pieces : List (Nat × List α)} {a b : Nat} (h : Tiles log a pieces b) :
    pieces.flatMap (·.2) ++ log.drop b = log.drop a := by
  induction pieces generalizing a with
  | nil => rw [List.flatMap_nil, List.nil_append, h.1]
  | cons p rest ih =>
    rw [List.flatMap_cons, List.append_assoc, ih h.2.2.2]
    exact append_drop h.2.2.1

/-- The log grows at its end. -/
theorem extend {log : List α} {pieces : List (Nat × List α)} {a b : Nat} (h : Tiles log a pieces b)
    (ha : a ≤ log.length) (more : List α) : Tiles (log ++ more) a pieces b := by
  induction pieces generalizing a with
  | nil => exact ⟨h.1, by simp only [List.length_append]; omega⟩
  | cons p rest ih =>
    obtain ⟨hstart, hne, hpre, hrest⟩ := h
    refine ⟨hstart, hne, hpre.trans ?_, ih hrest (add_length_le hpre ha)⟩
    rw [List.drop_append_of_le_length ha]
    exact List.prefix_append _ _

/-- The open tail becomes the last piece. -/
theorem close {log : List α} {pieces : List (Nat × List α)} {a b : Nat} (h : Tiles log a pieces b)
    (hb : b < log.length) : Tiles log a (pieces ++ [(b, log.drop b)]) log.length := by
  induction pieces generalizing a with
  | nil =>
    obtain ⟨rfl, -⟩ := h
    have hend : a + (log.drop a).length = log.length := by rw [List.length_drop]; omega
    refine ⟨rfl, ?_, List.prefix_rfl, hend, Nat.le_of_eq hend⟩
    intro hnil
    rw [List.drop_eq_nil_iff] at hnil
    omega
  | cons p rest ih => exact ⟨h.1, h.2.1, h.2.2.1, ih h.2.2.2⟩

/-- A tiling can be cut between any two pieces. -/
theorem split {log : List α} {pieces : List (Nat × List α)} {a b : Nat} (h : Tiles log a pieces b)
    (ha : a ≤ log.length) (n : Nat) :
    ∃ m, m ≤ log.length ∧ Tiles log a (pieces.take n) m ∧ Tiles log m (pieces.drop n) b := by
  induction n generalizing a pieces with
  | zero => exact ⟨a, ha, ⟨rfl, ha⟩, h⟩
  | succ n ih =>
    cases pieces with
    | nil => exact ⟨a, ha, ⟨rfl, ha⟩, h⟩
    | cons p rest =>
      obtain ⟨hstart, hne, hpre, hrest⟩ := h
      obtain ⟨m, hm, htake, hdrop⟩ := ih hrest (add_length_le hpre ha)
      exact ⟨m, hm, ⟨hstart, hne, hpre, htake⟩, hdrop⟩

/-- A piece of a tiling is a stretch of the log. -/
theorem piece {log : List α} {pieces : List (Nat × List α)} {a b : Nat} (h : Tiles log a pieces b)
    (ha : a ≤ log.length) : ∀ p ∈ pieces, Piece log p.1 (p.1 + p.2.length) p.2 ∧ p.1 + p.2.length ≤ log.length := by
  induction pieces generalizing a with
  | nil => simp
  | cons p rest ih =>
    obtain ⟨hstart, -, hpre, hrest⟩ := h
    have hend := add_length_le hpre ha
    rw [List.forall_mem_cons, hstart]
    exact ⟨⟨⟨hpre, rfl⟩, hend⟩, ih hrest hend⟩

/-- A tiling that has a piece begins where its first piece is filed. -/
theorem head {log : List α} {p : Nat × List α} {rest : List (Nat × List α)} {a b : Nat}
    (h : Tiles log a (p :: rest) b) : p.1 = a := h.1

/-- Where a tiling begins is determined by its pieces and its end. -/
theorem start_unique {log : List α} {pieces : List (Nat × List α)} {a a' b : Nat} (h : Tiles log a pieces b)
    (h' : Tiles log a' pieces b) : a = a' := by
  cases pieces with
  | nil => exact h.1.trans h'.1.symm
  | cons p rest => exact h.1.symm.trans h'.1

/-- The end of the last piece is the end of the tiling. -/
theorem last {log : List α} {pieces : List (Nat × List α)} {a b : Nat} (h : Tiles log a pieces b) :
    (pieces.getLast?.map fun p => p.1 + p.2.length).getD a = b := by
  induction pieces generalizing a with
  | nil => exact h.1
  | cons p rest ih =>
    obtain ⟨hstart, -, -, hrest⟩ := h
    have hend := ih hrest
    rw [List.getLast?_cons, Option.map_some, Option.getD_some]
    cases hl : rest.getLast? with
    | none =>
      rw [hl] at hend
      rw [Option.getD_none, hstart]
      exact hend
    | some q =>
      rw [hl] at hend
      exact hend

/-- A piece is added at the end. -/
theorem concat {log : List α} {pieces : List (Nat × List α)} {a b : Nat} (h : Tiles log a pieces b)
    {items : List α} (hne : items ≠ []) (hpre : items <+: log.drop b) :
    Tiles log a (pieces ++ [(b, items)]) (b + items.length) := by
  induction pieces generalizing a with
  | nil =>
    obtain ⟨rfl, ha⟩ := h
    exact ⟨rfl, hne, hpre, rfl, add_length_le hpre ha⟩
  | cons p rest ih => exact ⟨h.1, h.2.1, h.2.2.1, ih h.2.2.2⟩

theorem stop_le {log : List α} {pieces : List (Nat × List α)} {a b : Nat} (h : Tiles log a pieces b) :
    ∀ p ∈ pieces, p.1 + p.2.length ≤ b := by
  induction pieces generalizing a with
  | nil => simp
  | cons p rest ih =>
    obtain ⟨hstart, -, -, hrest⟩ := h
    rw [List.forall_mem_cons, hstart]
    exact ⟨hrest.start_le, ih hrest⟩

theorem lt_stop {log : List α} {pieces : List (Nat × List α)} {a b : Nat} (h : Tiles log a pieces b) :
    ∀ p ∈ pieces, a ≤ p.1 ∧ a < p.1 + p.2.length := by
  induction pieces generalizing a with
  | nil => simp
  | cons p rest ih =>
    obtain ⟨hstart, hne, -, hrest⟩ := h
    have hpos : 0 < p.2.length := List.length_pos_iff.2 hne
    rw [List.forall_mem_cons]
    refine ⟨by omega, fun q hq => ?_⟩
    have := ih hrest q hq
    omega

theorem length_flatMap {log : List α} {pieces : List (Nat × List α)} {a b : Nat} (h : Tiles log a pieces b)
    (ha : a ≤ log.length) : a + (pieces.flatMap (·.2)).length = b := by
  have hlen := congrArg List.length h.flatMap_append
  have hle := h.le_length ha
  have hab := h.start_le
  rw [List.length_append, List.length_drop, List.length_drop] at hlen
  omega

/-- Dropping the pieces that end at or before `x` leaves a tiling that begins no later than `x`. -/
theorem filter_lt_stop {log : List α} {pieces : List (Nat × List α)} {a b : Nat} (h : Tiles log a pieces b)
    (ha : a ≤ log.length) (x : Nat) :
    ∃ m, m ≤ max a x ∧ m ≤ log.length ∧ Tiles log m (pieces.filter fun p => x < p.1 + p.2.length) b := by
  induction pieces generalizing a with
  | nil => exact ⟨a, Nat.le_max_left _ _, ha, h⟩
  | cons p rest ih =>
    obtain ⟨hstart, hne, hpre, hrest⟩ := h
    by_cases hp : x < p.1 + p.2.length
    · -- the later pieces end later still
      have hall : ∀ q ∈ p :: rest, decide (x < q.1 + q.2.length) = true := by
        rw [List.forall_mem_cons]
        refine ⟨by simpa using hp, fun q hq => ?_⟩
        have := hrest.lt_stop q hq
        simp only [decide_eq_true_eq]
        omega
      rw [List.filter_eq_self.2 hall]
      exact ⟨a, Nat.le_max_left _ _, ha, hstart, hne, hpre, hrest⟩
    · rw [List.filter_cons_of_neg (by simpa using hp)]
      obtain ⟨m, hm, hle, ht⟩ := ih hrest (add_length_le hpre ha)
      exact ⟨m, by omega, hle, ht⟩

/-- When no piece crosses `x`, the pieces that end at or before `x` tile up to it. -/
theorem filter_stop_le {log : List α} {pieces : List (Nat × List α)} {a b x : Nat} (h : Tiles log a pieces b)
    (ha : a ≤ log.length) (hax : a ≤ x) (hxb : x ≤ b) (hx : ∀ p ∈ pieces, p.1 + p.2.length ≤ x ∨ x ≤ p.1) :
    Tiles log a (pieces.filter fun p => p.1 + p.2.length ≤ x) x := by
  induction pieces generalizing a with
  | nil =>
    have := h.1
    exact ⟨by omega, ha⟩
  | cons p rest ih =>
    obtain ⟨hstart, hne, hpre, hrest⟩ := h
    obtain ⟨hp, hxrest⟩ := List.forall_mem_cons.1 hx
    have hpos : 0 < p.2.length := List.length_pos_iff.2 hne
    by_cases hle : p.1 + p.2.length ≤ x
    · rw [List.filter_cons_of_pos (by simpa using hle)]
      exact ⟨hstart, hne, hpre, ih hrest (add_length_le hpre ha) (by omega) hxrest⟩
    · -- the tiling has reached `x`: everything from here on ends later
      have hnone : rest.filter (fun p => p.1 + p.2.length ≤ x) = [] := by
        rw [List.filter_eq_nil_iff]
        intro q hq
        have := hrest.lt_stop q hq
        simp only [decide_eq_true_eq]
        omega
      rw [List.filter_cons_of_neg (by simpa using hle), hnone]
      exact ⟨by omega, ha⟩

end Tiles

/-- Filing a piece under its index, in order; a piece already filed there is replaced. -/
def file (start : Nat) (items : List α) : List (Nat × List α) → List (Nat × List α)
  | [] => [(start, items)]
  | p :: rest =>
    if p.1 < start then p :: file start items rest
    else if p.1 = start then (start, items) :: rest
    else (start, items) :: p :: rest

theorem file_eq_append {start : Nat} {items : List α} {pieces : List (Nat × List α)}
    (h : ∀ p ∈ pieces, p.1 < start) : file start items pieces = pieces ++ [(start, items)] := by
  induction pieces with
  | nil => rfl
  | cons p rest ih =>
    rw [List.forall_mem_cons] at h
    rw [file, if_pos h.1, ih h.2, List.cons_append]

end Tiling
