import NanoBpm.Raft.LogStoreRuns

/-!
# The counters of the log store (`raft_logstore.rs:495-594`, `:1174-1384`)

`log_bytes` and `ram_bytes` are adjusted by each operation and never recounted, and `enforce_ram_budget` looks for a copy to
drop from its frontier on only. The counters and the frontier stay true along a run exactly as long as every append brings
entries that are new and lie above the frontier: an entry that is there already is counted twice, and one that comes back
below the frontier after a truncation is never demoted again.
-/

namespace NanoBpm.Raft.LogStore

open Seglog (Bytes Deflate storedDeflate)

/-! ## Maps with weights -/

namespace BTreeMap

variable {α : Type} {m : BTreeMap α} {k : Nat} {v : α}

def Sorted (m : BTreeMap α) : Prop := m.Pairwise fun p q => p.1 < q.1

/-- The sum of a measure of the values. -/
def weight (f : α → Nat) (m : BTreeMap α) : Nat := (m.map fun p => f p.2).sum

section
variable (f : α → Nat)

@[simp] theorem weight_nil : weight f ([] : BTreeMap α) = 0 := rfl

@[simp] theorem weight_cons (p : Nat × α) (m : BTreeMap α) : weight f (p :: m) = f p.2 + weight f m := by simp [weight]

@[simp] theorem weight_append (m m' : BTreeMap α) : weight f (m ++ m') = weight f m + weight f m' := by simp [weight]

theorem weight_split (m : BTreeMap α) (k : Nat) : weight f (m.below k) + weight f (m.splitOff k) = weight f m := by
  induction m with
  | nil => rfl
  | cons p m ih =>
    by_cases hp : p.1 < k
    · have hnot : ¬ k ≤ p.1 := by omega
      simp only [below, splitOff, List.filter_cons, hp, hnot, decide_true, decide_false, if_true, Bool.false_eq_true, if_false,
        weight_cons] at ih ⊢
      omega
    · have hle : k ≤ p.1 := by omega
      simp only [below, splitOff, List.filter_cons, hp, hle, decide_true, decide_false, if_true, Bool.false_eq_true, if_false,
        weight_cons] at ih ⊢
      omega

theorem weight_pos (hpos : ∀ p ∈ m, 0 < f p.2) (hne : m ≠ []) : 0 < weight f m := by
  cases m with
  | nil => exact absurd rfl hne
  | cons p m =>
    have := hpos p List.mem_cons_self
    rw [weight_cons]
    omega

end

theorem Sorted.sublist {m' : BTreeMap α} (h : m.Sorted) (hsub : List.Sublist m' m) : m'.Sorted := List.Pairwise.sublist hsub h

/-- What an insertion leaves on either side of its key. -/
theorem Sorted.insert_eq (h : m.Sorted) : m.insert k v = m.below k ++ (k, v) :: m.splitOff (k + 1) := by
  induction m with
  | nil => rfl
  | cons p m ih =>
    obtain ⟨hp, hm⟩ := List.pairwise_cons.mp h
    by_cases hlt : p.1 < k
    · have hbelow : below (p :: m) k = p :: below m k := by simp [below, hlt]
      have habove : splitOff (p :: m) (k + 1) = splitOff m (k + 1) := List.filter_cons_of_neg (by simp; omega)
      rw [hbelow, habove, insert, if_neg (by omega), if_neg (by omega), ih hm]
      rfl
    · have hbelow : below (p :: m) k = [] := by
        simp only [below, List.filter_eq_nil_iff, decide_eq_true_eq]
        intro q hq
        rcases List.mem_cons.mp hq with rfl | hq
        · exact hlt
        · have := hp q hq
          omega
      have hm' : splitOff m (k + 1) = m := by
        simp only [splitOff, List.filter_eq_self, decide_eq_true_eq]
        intro q hq
        have := hp q hq
        omega
      rw [hbelow, insert]
      by_cases heq : k = p.1
      · rw [if_neg (by omega), if_pos heq]
        simp only [splitOff, List.filter_cons, show ¬ k + 1 ≤ p.1 by omega, decide_false, Bool.false_eq_true, if_false,
          List.nil_append]
        exact congrArg _ hm'.symm
      · rw [if_pos (by omega)]
        simp only [splitOff, List.filter_cons, show k + 1 ≤ p.1 by omega, decide_true, if_true, List.nil_append]
        exact congrArg (fun t => (k, v) :: p :: t) hm'.symm

theorem Sorted.mem_insert (h : m.Sorted) {p : Nat × α} : p ∈ m.insert k v ↔ p = (k, v) ∨ p ∈ m ∧ p.1 ≠ k := by
  simp only [h.insert_eq, below, splitOff, List.mem_append, List.mem_cons, List.mem_filter, decide_eq_true_eq]
  constructor
  · rintro (⟨hp, hlt⟩ | rfl | ⟨hp, hlt⟩)
    · exact .inr ⟨hp, by omega⟩
    · exact .inl rfl
    · exact .inr ⟨hp, by omega⟩
  · rintro (rfl | ⟨hp, hne⟩)
    · exact .inr (.inl rfl)
    · rcases Nat.lt_or_gt_of_ne hne with hlt | hlt
      · exact .inl ⟨hp, hlt⟩
      · exact .inr (.inr ⟨hp, hlt⟩)

theorem Sorted.insert (h : m.Sorted) : (m.insert k v).Sorted := by
  rw [h.insert_eq]
  refine List.pairwise_append.mpr ⟨h.sublist List.filter_sublist, List.pairwise_cons.mpr ⟨?_, h.sublist List.filter_sublist⟩, ?_⟩
  · intro q hq
    exact of_decide_eq_true (List.mem_filter.mp hq).2
  · intro p hp q hq
    have hlt : p.1 < k := of_decide_eq_true (List.mem_filter.mp hp).2
    rcases List.mem_cons.mp hq with rfl | hq
    · exact hlt
    · have hle : k + 1 ≤ q.1 := of_decide_eq_true (List.mem_filter.mp hq).2
      omega

/-- An insertion adds the weight of its value and takes what stood under its key. -/
theorem Sorted.weight_insert (f : α → Nat) (h : m.Sorted) :
    weight f (m.insert k v) + weight f (m.filter (·.1 = k)) = weight f m + f v := by
  have hat : (m.splitOff k).below (k + 1) = m.filter (·.1 = k) := by
    simp only [below, splitOff, List.filter_filter]
    refine List.filter_congr fun p _ => ?_
    rw [← Bool.decide_and]
    exact decide_eq_decide.mpr ⟨fun hp => by omega, fun hp => by omega⟩
  have habove : (m.splitOff k).splitOff (k + 1) = m.splitOff (k + 1) := by
    simp only [splitOff, List.filter_filter]
    refine List.filter_congr fun p _ => ?_
    rw [← Bool.decide_and]
    exact decide_eq_decide.mpr ⟨fun hp => by omega, fun hp => by omega⟩
  have hm := weight_split f m k
  have hsplit := weight_split f (m.splitOff k) (k + 1)
  rw [hat, habove] at hsplit
  simp only [h.insert_eq, weight_append, weight_cons]
  omega

end BTreeMap

variable {π : Type}

/-! ## The store with its counters -/

/-- The store and the counter that `append`, `truncate` and `purge` publish. -/
structure Counted (π : Type) where
  store : RaftLogStore π
  logBytes : Nat

/-- What a copy costs, if there is one. -/
def Stored.held (stored : Stored π) : Nat := if stored.entry.isSome then stored.ramLen else 0

/-- The bytes of the records that a map is about. -/
def recordBytes (log : BTreeMap (Stored π)) : Nat := log.weight (·.len)

/-- The bytes of the copies in it. -/
def residentBytes (log : BTreeMap (Stored π)) : Nat := log.weight Stored.held

inductive CountedOp (π : Type) where
  | append (entries : List (Entry π))
  | truncate (logId : LogId)
  | purge (logId : LogId)
  /-- `enforce_ram_budget`. -/
  | demote

namespace Counted

variable (z : Deflate) (c : EntryCodec π) (s : Counted π)

def log : BTreeMap (Stored π) := s.store.inner.log

def ramBytes : Nat := s.store.inner.ramBytes

def ramBudget : Nat := s.store.inner.config.ramBudget

def demoteScanFrom : Nat := s.store.inner.demoteScanFrom

def appendEntry (e : Entry π) : Counted π where
  store := s.store.appendEntry z c e
  logBytes := s.logBytes + (recordOf z c s.store.inner.config.compress e).length

def enforceRamBudget : Counted π := { s with store := { s.store with inner := s.store.inner.enforceRamBudget } }

def append (entries : List (Entry π)) : Counted π := (entries.foldl (fun s e => s.appendEntry z c e) s).enforceRamBudget

def truncate (logId : LogId) : Counted π where
  store := s.store.truncate logId
  logBytes := s.logBytes - recordBytes (s.log.splitOff logId.index)

def purge (logId : LogId) : Counted π where
  store := s.store.purge logId
  logBytes := s.logBytes - recordBytes (s.log.below (logId.index + 1))

def step : CountedOp π → Counted π
  | .append entries => s.append z c entries
  | .truncate logId => s.truncate logId
  | .purge logId => s.purge logId
  | .demote => s.enforceRamBudget

/-! ## What is to hold -/

/-- The counters are the sums, and no copy lies below the frontier. -/
structure InStep : Prop where
  logBytes : s.logBytes = recordBytes s.log
  ramBytes : s.ramBytes = residentBytes s.log
  frontier : ∀ p ∈ s.log, p.1 < s.demoteScanFrom → p.2.entry = none

/-- The index is a map, and every record in it has bytes. -/
structure Indexes : Prop where
  sorted : s.log.Sorted
  len_pos : ∀ p ∈ s.log, 0 < p.2.len

end Counted

/-- No turn of the loop of `enforce_ram_budget` takes more off the counter than is on it. -/
def Inner.Covered (inner : Inner π) (newest : Option Nat) : Nat → Nat → BTreeMap (Stored π) → Nat → Prop
  | 0, _, _, _ => True
  | fuel + 1, cursor, log, ramBytes =>
    inner.config.ramBudget < ramBytes →
      match log.find? fun p => cursor ≤ p.1 && p.2.entry.isSome with
      | none => True
      | some (idx, s) => some idx ≠ newest → s.ramLen ≤ ramBytes ∧
          inner.Covered newest fuel (idx + 1)
            (log.map fun p => if p.1 = idx then (p.1, { p.2 with entry := none }) else p) (ramBytes - s.ramLen)

namespace Counted

variable (z : Deflate) (c : EntryCodec π) (s : Counted π)

/-- No subtraction of `enforce_ram_budget` underflows. -/
def DemoteCovered : Prop :=
  s.store.inner.Covered (s.log.getLast?.map (·.1)) s.log.length s.demoteScanFrom s.log s.ramBytes

/-- No subtraction of an operation underflows. -/
def Covered : CountedOp π → Prop
  | .append entries => (entries.foldl (fun s e => s.appendEntry z c e) s).DemoteCovered
  | .truncate logId =>
    recordBytes (s.log.splitOff logId.index) ≤ s.logBytes ∧ residentBytes (s.log.splitOff logId.index) ≤ s.ramBytes
  | .purge logId =>
    recordBytes (s.log.below (logId.index + 1)) ≤ s.logBytes ∧ residentBytes (s.log.below (logId.index + 1)) ≤ s.ramBytes
  | .demote => s.DemoteCovered

/-- The budget is kept, or no copy but the newest is left; a budget of `0` is none. -/
def Budgeted : Prop :=
  s.ramBudget = 0 ∨ s.ramBytes ≤ s.ramBudget ∨ ∀ p ∈ s.log, p.2.entry.isSome → s.log.getLast?.map (·.1) = some p.1

/-- Along a run, from the state it starts in to the one it ends in. -/
def Kept (s : Counted π) : List (CountedOp π) → Prop
  | [] => s.InStep
  | op :: ops =>
    s.InStep ∧ s.Covered z c op ∧ (∀ entries, op = .append entries → (s.step z c op).Budgeted) ∧ Kept (s.step z c op) ops

/-- The entries are new, and lie above the frontier. -/
structure Fresh (entries : List (Entry π)) : Prop where
  nodup : (entries.map (·.index)).Nodup
  not_mem : ∀ e ∈ entries, ∀ p ∈ s.log, p.1 ≠ e.index
  above : ∀ e ∈ entries, s.demoteScanFrom ≤ e.index

/-- Every append of a run brings entries that are new and lie above the frontier. -/
def Grows (s : Counted π) : List (CountedOp π) → Prop
  | [] => True
  | op :: ops => (∀ entries, op = .append entries → s.Fresh entries) ∧ Grows (s.step z c op) ops

end Counted

/-! ## Demoting -/

section
variable {inner : Inner π} {newest : Option Nat}

/-- Without its copy. -/
def Stored.demoted (stored : Stored π) : Stored π := { stored with entry := none }

@[simp] theorem Stored.held_demoted (stored : Stored π) : stored.demoted.held = 0 := rfl

/-- One turn of the loop: the first copy from the cursor on is dropped. -/
theorem demote_turn {cursor idx : Nat} {stored : Stored π} {log : BTreeMap (Stored π)} (hsorted : log.Sorted)
    (hfind : (log.find? fun p => cursor ≤ p.1 && p.2.entry.isSome) = some (idx, stored)) :
    ∃ pre post, log = pre ++ (idx, stored) :: post ∧ cursor ≤ idx ∧ stored.entry.isSome ∧
      (∀ p ∈ pre, p.1 < idx) ∧ (∀ p ∈ post, idx < p.1) ∧ (∀ p ∈ pre, cursor ≤ p.1 → p.2.entry = none) ∧
      (log.map fun p => if p.1 = idx then (p.1, { p.2 with entry := none }) else p) = pre ++ (idx, stored.demoted) :: post := by
  obtain ⟨hp, pre, post, hlog, hpre⟩ := List.find?_eq_some_iff_append.mp hfind
  obtain ⟨hcursor, hsome⟩ := Bool.and_eq_true_iff.mp hp
  rw [hlog] at hsorted
  obtain ⟨-, hpost, hlt⟩ := List.pairwise_append.mp hsorted
  have hbefore : ∀ p ∈ pre, p.1 < idx := fun p hp => hlt p hp _ List.mem_cons_self
  have hafter : ∀ p ∈ post, idx < p.1 := (List.pairwise_cons.mp hpost).1
  refine ⟨pre, post, hlog, of_decide_eq_true hcursor, hsome, hbefore, hafter, ?_, ?_⟩
  · intro p hp hle
    have hnot := hpre p hp
    rw [decide_eq_true hle, Bool.true_and, Bool.not_eq_true'] at hnot
    exact Option.not_isSome_iff_eq_none.mp (Bool.eq_false_iff.mp hnot)
  · have hsame : ∀ xs : BTreeMap (Stored π), (∀ p ∈ xs, p.1 ≠ idx) →
        (xs.map fun p => if p.1 = idx then (p.1, { p.2 with entry := none }) else p) = xs := by
      intro xs hxs
      exact (List.map_congr_left fun p hp => if_neg (hxs p hp)).trans (List.map_id xs)
    rw [hlog, List.map_append, List.map_cons, hsame pre fun p hp => (hbefore p hp).ne,
      hsame post fun p hp => (hafter p hp).ne', if_pos rfl]
    rfl

/-- The keys and the record lengths, which the budget does not touch. -/
def shape (log : BTreeMap (Stored π)) : List (Nat × Nat) := log.map fun p => (p.1, p.2.len)

theorem recordBytes_eq_of_shape {log log' : BTreeMap (Stored π)} (h : shape log' = shape log) : recordBytes log' = recordBytes log := by
  have hsum : ∀ m : BTreeMap (Stored π), recordBytes m = ((shape m).map (·.2)).sum := by
    intro m
    rw [shape, List.map_map]
    rfl
  rw [hsum, hsum, h]

theorem keys_eq_of_shape {log log' : BTreeMap (Stored π)} (h : shape log' = shape log) : log'.map (·.1) = log.map (·.1) := by
  have hkeys : ∀ m : BTreeMap (Stored π), m.map (·.1) = (shape m).map (·.1) := by
    intro m
    rw [shape, List.map_map]
    rfl
  rw [hkeys, hkeys, h]

theorem sorted_of_shape {log log' : BTreeMap (Stored π)} (h : shape log' = shape log) (hsorted : log.Sorted) : log'.Sorted := by
  have hkeys : ∀ m : BTreeMap (Stored π), m.Sorted ↔ (m.map (·.1)).Pairwise (· < ·) := fun m => List.pairwise_map.symm
  rw [hkeys, keys_eq_of_shape h]
  exact (hkeys log).mp hsorted

theorem len_pos_of_shape {log log' : BTreeMap (Stored π)} (h : shape log' = shape log) (hpos : ∀ p ∈ log, 0 < p.2.len) :
    ∀ p ∈ log', 0 < p.2.len := by
  intro p hp
  have hmem : (p.1, p.2.len) ∈ shape log := h ▸ List.mem_map_of_mem hp
  obtain ⟨q, hq, heq⟩ := List.mem_map.mp hmem
  exact (Prod.mk.inj heq).2 ▸ hpos q hq

theorem newest_of_shape {log log' : BTreeMap (Stored π)} (h : shape log' = shape log) :
    log'.getLast?.map (·.1) = log.getLast?.map (·.1) := by
  rw [← List.getLast?_map, ← List.getLast?_map, keys_eq_of_shape h]

/-- The loop only drops copies, and none below its cursor. -/
theorem demote_frame (fuel : Nat) {cursor ramBytes : Nat} {log : BTreeMap (Stored π)} :
    shape (inner.demote newest fuel cursor log ramBytes).1 = shape log ∧
      cursor ≤ (inner.demote newest fuel cursor log ramBytes).2.2 ∧
      ∀ p ∈ log, p.1 < cursor → p ∈ (inner.demote newest fuel cursor log ramBytes).1 := by
  induction fuel generalizing cursor ramBytes log with
  | zero => exact ⟨rfl, le_rfl, fun _ hp _ => hp⟩
  | succ fuel ih =>
    unfold Inner.demote
    split
    · exact ⟨rfl, le_rfl, fun _ hp _ => hp⟩
    cases hfind : log.find? fun p => cursor ≤ p.1 && p.2.entry.isSome with
    | none => exact ⟨rfl, le_rfl, fun _ hp _ => hp⟩
    | some found =>
      obtain ⟨idx, stored⟩ := found
      have hfound := List.find?_some hfind
      have hcursor : cursor ≤ idx := of_decide_eq_true (Bool.and_eq_true_iff.mp hfound).1
      simp only
      split
      · exact ⟨rfl, le_rfl, fun _ hp _ => hp⟩
      obtain ⟨hshape, hle, hmem⟩ := @ih (idx + 1) (ramBytes - stored.ramLen)
        (log.map fun p => if p.1 = idx then (p.1, { p.2 with entry := none }) else p)
      refine ⟨hshape.trans ?_, (Nat.le_succ_of_le hcursor).trans hle, fun p hp hlt => hmem p ?_ (by omega)⟩
      · rw [shape, List.map_map]
        refine List.map_congr_left fun p _ => ?_
        rw [Function.comp_apply]
        split <;> rfl
      · exact List.mem_map.mpr ⟨p, hp, if_neg (by omega)⟩

/-- With the counter true and no copy below the cursor, the loop runs until the budget is kept or only the newest copy is
left, and it takes off the counter what it drops. Every turn drops one copy, so as many turns as there are copies do. -/
theorem demote_spec (fuel : Nat) {cursor ramBytes : Nat} {log : BTreeMap (Stored π)} (hsorted : log.Sorted)
    (hram : ramBytes = residentBytes log) (hfrontier : ∀ p ∈ log, p.1 < cursor → p.2.entry = none)
    (hfuel : log.countP (·.2.entry.isSome) ≤ fuel) (hnewest : newest = log.getLast?.map (·.1)) :
    let r := inner.demote newest fuel cursor log ramBytes
    r.2.1 = residentBytes r.1 ∧ (∀ p ∈ r.1, p.1 < r.2.2 → p.2.entry = none) ∧
      (r.2.1 ≤ inner.config.ramBudget ∨ ∀ p ∈ r.1, p.2.entry.isSome → newest = some p.1) ∧
      inner.Covered newest fuel cursor log ramBytes := by
  induction fuel generalizing cursor ramBytes log with
  | zero =>
    have hnone : ∀ p ∈ log, p.2.entry = none := by
      intro p hp
      have := List.countP_eq_zero.mp (Nat.le_zero.mp hfuel) p hp
      exact Option.not_isSome_iff_eq_none.mp this
    exact ⟨hram, hfrontier, .inr fun p hp hsome => absurd hsome (by rw [hnone p hp]; exact Bool.false_ne_true), trivial⟩
  | succ fuel ih =>
    unfold Inner.demote Inner.Covered
    by_cases hbudget : ramBytes ≤ inner.config.ramBudget
    · rw [if_pos hbudget]
      exact ⟨hram, hfrontier, .inl hbudget, fun hlt => absurd hbudget (by omega)⟩
    rw [if_neg hbudget]
    cases hfind : log.find? fun p => cursor ≤ p.1 && p.2.entry.isSome with
    | none =>
      refine ⟨hram, hfrontier, .inr fun p hp hsome => ?_, fun _ => trivial⟩
      -- a copy would lie below the cursor or be found
      have hnot := List.find?_eq_none.mp hfind p hp
      by_cases hlt : p.1 < cursor
      · rw [hfrontier p hp hlt] at hsome
        exact absurd hsome Bool.false_ne_true
      · exact absurd (Bool.and_eq_true_iff.mpr ⟨decide_eq_true (by omega), hsome⟩) hnot
    | some found =>
      obtain ⟨idx, stored⟩ := found
      obtain ⟨pre, post, hlog, hcursor, hsome, hbefore, hafter, hpre, hmap⟩ := demote_turn hsorted hfind
      have hheld : stored.held = stored.ramLen := if_pos hsome
      have hprenone : ∀ p ∈ pre, p.2.entry = none := by
        intro p hp
        by_cases hlt : p.1 < cursor
        · exact hfrontier p (by rw [hlog]; exact List.mem_append_left _ hp) hlt
        · exact hpre p hp (by omega)
      have hsum : residentBytes log = residentBytes pre + (stored.ramLen + residentBytes post) := by
        rw [hlog, ← hheld]
        simp only [residentBytes, BTreeMap.weight_append, BTreeMap.weight_cons]
      simp only
      by_cases hlast : some idx = newest
      · rw [if_pos hlast]
        refine ⟨hram, hfrontier, .inr ?_, fun _ hne => absurd hlast hne⟩
        intro p hp hcopy
        have hpost : post = [] := by
          rw [hlog, List.getLast?_append, List.getLast?_cons, Option.or_eq_left_of_isSome (by simp)] at hnewest
          rw [hnewest] at hlast
          cases hp : post.getLast? with
          | none => exact List.getLast?_eq_none_iff.mp hp
          | some q =>
            rw [hp] at hlast
            have hq := hafter q (List.mem_of_getLast? hp)
            simp only [Option.getD_some, Option.map_some, Option.some.injEq] at hlast
            omega
        rw [hlog, hpost] at hp
        rcases List.mem_append.mp hp with hp | hp
        · rw [hprenone p hp] at hcopy
          exact absurd hcopy Bool.false_ne_true
        · rw [List.mem_singleton.mp hp]
          exact hlast.symm
      · rw [if_neg hlast, hmap]
        have hshape : shape (pre ++ (idx, stored.demoted) :: post) = shape log := by
          rw [hlog, shape, shape, List.map_append, List.map_append]
          rfl
        have hrest : ramBytes - stored.ramLen = residentBytes (pre ++ (idx, stored.demoted) :: post) := by
          simp only [residentBytes, BTreeMap.weight_append, BTreeMap.weight_cons, Stored.held_demoted] at hram hsum ⊢
          omega
        have hbelow : ∀ p ∈ pre ++ (idx, stored.demoted) :: post, p.1 < idx + 1 → p.2.entry = none := by
          intro p hp hlt
          rcases List.mem_append.mp hp with hp | hp
          · exact hprenone p hp
          rcases List.mem_cons.mp hp with rfl | hp
          · rfl
          · have := hafter p hp
            omega
        have hcount : (pre ++ (idx, stored.demoted) :: post).countP (·.2.entry.isSome) ≤ fuel := by
          have hgone : stored.demoted.entry.isSome = false := rfl
          simp only [hlog, List.countP_append, List.countP_cons, hsome, if_true] at hfuel
          simp only [List.countP_append, List.countP_cons, hgone, Bool.false_eq_true, if_false]
          omega
        obtain ⟨hram', hfrontier', hdone, hcovered⟩ :=
          ih (sorted_of_shape hshape hsorted) hrest hbelow hcount (hnewest.trans (newest_of_shape hshape).symm)
        exact ⟨hram', hfrontier', hdone, fun _ _ => ⟨by omega, hcovered⟩⟩

end

/-! ## The operations -/

namespace Counted

variable {z : Deflate} {c : EntryCodec π} {s : Counted π} {e : Entry π} {entries : List (Entry π)}

/-- One turn of the loop of `append`. -/
theorem appendEntry_spec (z : Deflate) (c : EntryCodec π) (s : Counted π) (e : Entry π) :
    ∃ stored : Stored π, 0 < stored.len ∧ stored.held = stored.ramLen ∧ stored.entry.isSome ∧
      (s.appendEntry z c e).log = s.log.insert e.index stored ∧
      (s.appendEntry z c e).logBytes = s.logBytes + stored.len ∧
      (s.appendEntry z c e).ramBytes = s.ramBytes + stored.ramLen ∧
      (s.appendEntry z c e).demoteScanFrom = s.demoteScanFrom := by
  have hpos := List.length_pos_iff.mpr (recordOf_ne_nil z c s.store.inner.config.compress e)
  unfold appendEntry log ramBytes demoteScanFrom RaftLogStore.appendEntry RaftLogStore.rolled
  simp only
  split <;> exact ⟨_, hpos, rfl, rfl, rfl, rfl, rfl, rfl⟩

theorem Indexes.appendEntry (h : s.Indexes) (e : Entry π) : (s.appendEntry z c e).Indexes := by
  obtain ⟨stored, hpos, -, -, hlog, -⟩ := appendEntry_spec z c s e
  refine ⟨hlog ▸ h.sorted.insert, fun p hp => ?_⟩
  rw [hlog] at hp
  rcases h.sorted.mem_insert.mp hp with rfl | ⟨hp, -⟩
  · exact hpos
  · exact h.len_pos p hp

theorem InStep.appendEntry (h : s.InStep) (hi : s.Indexes) (hnew : ∀ p ∈ s.log, p.1 ≠ e.index) (habove : s.demoteScanFrom ≤ e.index) :
    (s.appendEntry z c e).InStep := by
  obtain ⟨stored, -, hheld, -, hlog, hlen, hram, hfrom⟩ := appendEntry_spec z c s e
  have hnone : s.log.filter (·.1 = e.index) = [] := by
    refine List.filter_eq_nil_iff.mpr fun p hp => ?_
    rw [decide_eq_true_eq]
    exact hnew p hp
  have hrecords := hi.sorted.weight_insert (k := e.index) (v := stored) (·.len)
  have hresident := hi.sorted.weight_insert (k := e.index) (v := stored) Stored.held
  rw [hnone, BTreeMap.weight_nil] at hrecords hresident
  refine ⟨?_, ?_, ?_⟩
  · rw [hlen, hlog, h.logBytes]
    exact hrecords.symm
  · rw [hram, hlog, h.ramBytes, ← hheld]
    exact hresident.symm
  · rw [hlog, hfrom]
    intro p hp hlt
    rcases hi.sorted.mem_insert.mp hp with rfl | ⟨hp, -⟩
    · exact absurd habove (by omega)
    · exact h.frontier p hp hlt

/-- `log_bytes` is ahead of the records, or a copy lies below the frontier. -/
def Off (s : Counted π) : Prop :=
  recordBytes s.log < s.logBytes ∨ ∃ p ∈ s.log, p.1 < s.demoteScanFrom ∧ p.2.entry.isSome

theorem Off.not_inStep (h : s.Off) : ¬ s.InStep := by
  intro hin
  rcases h with h | ⟨p, hp, hlt, hsome⟩
  · exact absurd hin.logBytes (by omega)
  · rw [hin.frontier p hp hlt] at hsome
    exact Bool.false_ne_true hsome

/-- An entry that is there, or lies below the frontier, sets the store off. -/
theorem InStep.off_appendEntry (h : s.InStep) (hi : s.Indexes)
    (hnot : ¬ ((∀ p ∈ s.log, p.1 ≠ e.index) ∧ s.demoteScanFrom ≤ e.index)) : (s.appendEntry z c e).Off := by
  obtain ⟨stored, -, -, hsome, hlog, hlen, -, hfrom⟩ := appendEntry_spec z c s e
  by_cases habove : s.demoteScanFrom ≤ e.index
  · refine .inl ?_
    have hthere : s.log.filter (·.1 = e.index) ≠ [] := by
      intro hnone
      refine hnot ⟨fun p hp heq => ?_, habove⟩
      exact List.filter_eq_nil_iff.mp hnone p hp (decide_eq_true heq)
    have hpos := BTreeMap.weight_pos (·.len) (fun p hp => hi.len_pos p (List.mem_of_mem_filter hp)) hthere
    have hrecords := hi.sorted.weight_insert (k := e.index) (v := stored) (·.len)
    have hbytes := h.logBytes
    rw [hlen, hlog]
    unfold recordBytes at hbytes ⊢
    omega
  · refine .inr ⟨(e.index, stored), ?_, ?_, hsome⟩
    · rw [hlog]
      exact hi.sorted.mem_insert.mpr (.inl rfl)
    · rw [hfrom]
      exact Nat.lt_of_not_le habove

/-- It stays off. -/
theorem Off.appendEntry (h : s.Off) (hi : s.Indexes) (e : Entry π) : (s.appendEntry z c e).Off := by
  obtain ⟨stored, -, -, hsome, hlog, hlen, -, hfrom⟩ := appendEntry_spec z c s e
  rcases h with h | ⟨p, hp, hlt, hcopy⟩
  · refine .inl ?_
    have hrecords := hi.sorted.weight_insert (k := e.index) (v := stored) (·.len)
    rw [hlen, hlog]
    unfold recordBytes at h ⊢
    omega
  · refine .inr ?_
    rw [hlog, hfrom]
    by_cases heq : p.1 = e.index
    · exact ⟨(e.index, stored), hi.sorted.mem_insert.mpr (.inl rfl), heq ▸ hlt, hsome⟩
    · exact ⟨p, hi.sorted.mem_insert.mpr (.inr ⟨hp, heq⟩), hlt, hcopy⟩

theorem fresh_cons (hi : s.Indexes) : s.Fresh (e :: entries) ↔
    ((∀ p ∈ s.log, p.1 ≠ e.index) ∧ s.demoteScanFrom ≤ e.index) ∧ (s.appendEntry z c e).Fresh entries := by
  obtain ⟨stored, -, -, -, hlog, -, -, hfrom⟩ := appendEntry_spec z c s e
  constructor
  · intro h
    obtain ⟨hne, hnodup⟩ := List.nodup_cons.mp h.nodup
    refine ⟨⟨h.not_mem e List.mem_cons_self, h.above e List.mem_cons_self⟩, hnodup, fun f hf p hp => ?_, fun f hf => ?_⟩
    · rw [hlog] at hp
      rcases hi.sorted.mem_insert.mp hp with rfl | ⟨hp, -⟩
      · exact fun heq => hne (List.mem_map.mpr ⟨f, hf, heq.symm⟩)
      · exact h.not_mem f (List.mem_cons_of_mem _ hf) p hp
    · rw [hfrom]
      exact h.above f (List.mem_cons_of_mem _ hf)
  · rintro ⟨⟨hnew, habove⟩, h⟩
    refine ⟨List.nodup_cons.mpr ⟨fun hmem => ?_, h.nodup⟩, fun f hf p hp => ?_, fun f hf => ?_⟩
    · obtain ⟨f, hf, heq⟩ := List.mem_map.mp hmem
      refine h.not_mem f hf (e.index, stored) ?_ heq.symm
      rw [hlog]
      exact hi.sorted.mem_insert.mpr (.inl rfl)
    · rcases List.mem_cons.mp hf with rfl | hf
      · exact hnew p hp
      · intro heq
        refine h.not_mem f hf p ?_ heq
        rw [hlog]
        exact hi.sorted.mem_insert.mpr (.inr ⟨hp, hnew p hp⟩)
    · rcases List.mem_cons.mp hf with rfl | hf
      · exact habove
      · exact hfrom ▸ h.above f hf

/-- The loop of `append`. -/
theorem Indexes.appendEntries (h : s.Indexes) (entries : List (Entry π)) :
    (entries.foldl (fun s e => s.appendEntry z c e) s).Indexes := by
  induction entries generalizing s with
  | nil => exact h
  | cons e entries ih => exact ih (h.appendEntry e)

theorem InStep.appendEntries (h : s.InStep) (hi : s.Indexes) (hfresh : s.Fresh entries) :
    (entries.foldl (fun s e => s.appendEntry z c e) s).InStep := by
  induction entries generalizing s with
  | nil => exact h
  | cons e entries ih =>
    obtain ⟨⟨hnew, habove⟩, hrest⟩ := (fresh_cons (z := z) (c := c) hi).mp hfresh
    exact ih (h.appendEntry hi hnew habove) (hi.appendEntry e) hrest

theorem Off.appendEntries (h : s.Off) (hi : s.Indexes) (entries : List (Entry π)) :
    (entries.foldl (fun s e => s.appendEntry z c e) s).Off := by
  induction entries generalizing s with
  | nil => exact h
  | cons e entries ih => exact ih (h.appendEntry hi e) (hi.appendEntry e)

theorem InStep.off_appendEntries (h : s.InStep) (hi : s.Indexes) (hfresh : ¬ s.Fresh entries) :
    (entries.foldl (fun s e => s.appendEntry z c e) s).Off := by
  induction entries generalizing s with
  | nil => exact absurd ⟨.nil, nofun, nofun⟩ hfresh
  | cons e entries ih =>
    rw [fresh_cons (z := z) (c := c) hi] at hfresh
    by_cases hnew : (∀ p ∈ s.log, p.1 ≠ e.index) ∧ s.demoteScanFrom ≤ e.index
    · exact ih (h.appendEntry hi hnew.1 hnew.2) (hi.appendEntry e) fun hrest => hfresh ⟨hnew, hrest⟩
    · exact (h.off_appendEntry hi hnew).appendEntries (hi.appendEntry e) entries

/-- The budget drops copies, and none below the frontier. -/
theorem enforceRamBudget_frame (s : Counted π) :
    shape s.enforceRamBudget.log = shape s.log ∧ s.enforceRamBudget.logBytes = s.logBytes ∧
      s.demoteScanFrom ≤ s.enforceRamBudget.demoteScanFrom ∧ ∀ p ∈ s.log, p.1 < s.demoteScanFrom → p ∈ s.enforceRamBudget.log := by
  unfold enforceRamBudget log demoteScanFrom Inner.enforceRamBudget
  split
  · exact ⟨rfl, rfl, le_rfl, fun _ hp _ => hp⟩
  · obtain ⟨hshape, hle, hmem⟩ := demote_frame _
    exact ⟨hshape, rfl, hle, hmem⟩

theorem Indexes.enforceRamBudget (h : s.Indexes) : s.enforceRamBudget.Indexes := by
  obtain ⟨hshape, -, -, -⟩ := enforceRamBudget_frame s
  exact ⟨sorted_of_shape hshape h.sorted, len_pos_of_shape hshape h.len_pos⟩

theorem Off.enforceRamBudget (h : s.Off) : s.enforceRamBudget.Off := by
  obtain ⟨hshape, hbytes, hle, hmem⟩ := enforceRamBudget_frame s
  rcases h with h | ⟨p, hp, hlt, hcopy⟩
  · exact .inl (by rw [recordBytes_eq_of_shape hshape, hbytes]; exact h)
  · exact .inr ⟨p, hmem p hp hlt, Nat.lt_of_lt_of_le hlt hle, hcopy⟩

theorem InStep.enforceRamBudget (h : s.InStep) (hi : s.Indexes) :
    s.enforceRamBudget.InStep ∧ s.enforceRamBudget.Budgeted ∧ s.DemoteCovered := by
  obtain ⟨hshape, hbytes, -, -⟩ := enforceRamBudget_frame s
  have hlog : s.enforceRamBudget.logBytes = recordBytes s.enforceRamBudget.log := by
    rw [hbytes, h.logBytes, recordBytes_eq_of_shape hshape]
  obtain ⟨hram, hfrontier, hdone, hcovered⟩ := @demote_spec π s.store.inner (s.log.getLast?.map (·.1)) s.log.length
    s.demoteScanFrom s.ramBytes s.log hi.sorted h.ramBytes h.frontier List.countP_le_length rfl
  by_cases hwithin : s.ramBudget = 0 ∨ s.ramBytes ≤ s.ramBudget
  · have hsame : s.enforceRamBudget = s := by
      unfold Counted.enforceRamBudget Inner.enforceRamBudget
      exact congrArg (fun inner => { s with store := { s.store with inner } }) (if_pos hwithin)
    rw [hsame]
    exact ⟨h, hwithin.imp_right .inl, hcovered⟩
  · have hnewest := newest_of_shape hshape
    have hdropped : s.enforceRamBudget.store.inner =
        let r := s.store.inner.demote (s.log.getLast?.map (·.1)) s.log.length s.demoteScanFrom s.log s.ramBytes
        { s.store.inner with log := r.1, ramBytes := r.2.1, demoteScanFrom := r.2.2 } := if_neg hwithin
    simp only at hdropped
    refine ⟨⟨hlog, ?_, ?_⟩, .inr ?_, hcovered⟩
    · unfold Counted.ramBytes log
      rw [hdropped]
      exact hram
    · unfold log Counted.demoteScanFrom
      rw [hdropped]
      exact hfrontier
    · rw [hnewest]
      unfold Counted.ramBytes Counted.ramBudget
      rw [log, hdropped]
      exact hdone

theorem residentBytes_eq (log : BTreeMap (Stored π)) :
    ((log.filter (·.2.entry.isSome)).map (·.2.ramLen)).sum = residentBytes log := by
  induction log with
  | nil => rfl
  | cons p log ih =>
    rw [residentBytes, BTreeMap.weight_cons, Stored.held, List.filter_cons]
    split
    · rw [List.map_cons, List.sum_cons, ih]
      rfl
    · rw [ih, Nat.zero_add]
      rfl

/-- An operation that takes entries out, and their bytes off the counters. -/
theorem InStep.removed {s' : Counted π} {gone : BTreeMap (Stored π)} (h : s.InStep) (hi : s.Indexes)
    (hsub : List.Sublist s'.log s.log) (hweight : ∀ f, s'.log.weight f + gone.weight f = s.log.weight f)
    (hbytes : s'.logBytes = s.logBytes - recordBytes gone) (hram : s'.ramBytes = s.ramBytes - residentBytes gone)
    (hfrom : s'.demoteScanFrom = s.demoteScanFrom) :
    s'.InStep ∧ s'.Indexes ∧ recordBytes gone ≤ s.logBytes ∧ residentBytes gone ≤ s.ramBytes := by
  have hrecords := hweight (·.len)
  have hresident := hweight Stored.held
  have hlogBytes := h.logBytes
  have hramBytes := h.ramBytes
  unfold recordBytes at *
  unfold residentBytes at *
  refine ⟨⟨?_, ?_, fun p hp hlt => h.frontier p (hsub.mem hp) (hfrom ▸ hlt)⟩,
    ⟨hi.sorted.sublist hsub, fun p hp => hi.len_pos p (hsub.mem hp)⟩, by omega, by omega⟩
  · unfold recordBytes
    omega
  · unfold residentBytes
    omega

theorem truncate_frame (s : Counted π) (logId : LogId) :
    (s.truncate logId).log = s.log.below logId.index ∧
      (s.truncate logId).ramBytes = s.ramBytes - residentBytes (s.log.splitOff logId.index) ∧
      (s.truncate logId).demoteScanFrom = s.demoteScanFrom := by
  rw [← residentBytes_eq]
  unfold truncate log ramBytes demoteScanFrom RaftLogStore.truncate RaftLogStore.rewriteAfterTruncate
  simp only
  split <;> exact ⟨rfl, rfl, rfl⟩

theorem purge_frame (s : Counted π) (logId : LogId) :
    (s.purge logId).log = s.log.splitOff (logId.index + 1) ∧
      (s.purge logId).ramBytes = s.ramBytes - residentBytes (s.log.below (logId.index + 1)) ∧
      (s.purge logId).demoteScanFrom = s.demoteScanFrom := by
  rw [← residentBytes_eq]
  exact ⟨rfl, rfl, rfl⟩

theorem Indexes.step (h : s.Indexes) (op : CountedOp π) : (s.step z c op).Indexes := by
  cases op with
  | append entries => exact (h.appendEntries entries).enforceRamBudget
  | truncate logId =>
    have hsub : List.Sublist (s.truncate logId).log s.log := (truncate_frame s logId).1 ▸ List.filter_sublist
    exact ⟨h.sorted.sublist hsub, fun p hp => h.len_pos p (hsub.mem hp)⟩
  | purge logId =>
    have hsub : List.Sublist (s.purge logId).log s.log := List.filter_sublist
    exact ⟨h.sorted.sublist hsub, fun p hp => h.len_pos p (hsub.mem hp)⟩
  | demote => exact h.enforceRamBudget

/-- What one operation keeps: all of it, if an append brings entries that are new and lie above the frontier. -/
theorem InStep.step (h : s.InStep) (hi : s.Indexes) {op : CountedOp π} (hfresh : ∀ entries, op = .append entries → s.Fresh entries) :
    (s.step z c op).InStep ∧ s.Covered z c op ∧ ∀ entries, op = .append entries → (s.step z c op).Budgeted := by
  cases op with
  | append entries =>
    have hloop := h.appendEntries (z := z) (c := c) hi (hfresh entries rfl)
    obtain ⟨hin, hbudget, hcovered⟩ := hloop.enforceRamBudget (hi.appendEntries entries)
    exact ⟨hin, hcovered, fun _ _ => hbudget⟩
  | truncate logId =>
    obtain ⟨hlog, hram, hfrom⟩ := truncate_frame s logId
    obtain ⟨hin, -, hcovered⟩ := h.removed hi (hlog ▸ List.filter_sublist) (fun f => hlog ▸ BTreeMap.weight_split f s.log _) rfl
      hram hfrom
    exact ⟨hin, hcovered, nofun⟩
  | purge logId =>
    obtain ⟨hlog, hram, hfrom⟩ := purge_frame s logId
    obtain ⟨hin, -, hcovered⟩ := h.removed hi (hlog ▸ List.filter_sublist)
      (fun f => hlog ▸ (Nat.add_comm _ _).trans (BTreeMap.weight_split f s.log _)) rfl hram hfrom
    exact ⟨hin, hcovered, nofun⟩
  | demote =>
    obtain ⟨hin, -, hcovered⟩ := h.enforceRamBudget hi
    exact ⟨hin, hcovered, nofun⟩

/-- An append of anything else does not. -/
theorem InStep.not_step (h : s.InStep) (hi : s.Indexes) (hfresh : ¬ s.Fresh entries) : ¬ (s.append z c entries).InStep :=
  (h.off_appendEntries hi hfresh).enforceRamBudget.not_inStep

end Counted

open NanoBpm.Raft.LogStore.Counted

/-! ## Runs -/

/-- The store that a directory without a log opens as. -/
def Counted.fresh (config : LogConfig) : Counted π where
  logBytes := 0
  store :=
    { dir := { segs := [(0, [])] }
      inner :=
        { activeFile := 0, segments := [⟨0, none⟩], activeBytes := 0, log := [], ramBytes := 0, demoteScanFrom := 0
          lastPurged := none, committed := none, vote := none, stateDirty := false, config } }

theorem Counted.Indexes.fresh (config : LogConfig) : (Counted.fresh (π := π) config).Indexes := ⟨.nil, nofun⟩

theorem Counted.InStep.fresh (config : LogConfig) : (Counted.fresh (π := π) config).InStep := ⟨rfl, rfl, nofun⟩

/-- From a store whose counters are true, they stay true in every state of a run, nothing below the frontier is resident, no
subtraction underflows and the budget is kept after every append, exactly if every append brings entries that are not in the
log and lie above the frontier. -/
theorem counters_kept_iff (z : Deflate) (c : EntryCodec π) {s : Counted π} (hi : s.Indexes) (h : s.InStep)
    (ops : List (CountedOp π)) : s.Kept z c ops ↔ s.Grows z c ops := by
  induction ops generalizing s with
  | nil => exact ⟨fun _ => trivial, fun _ => h⟩
  | cons op ops ih =>
    constructor
    · rintro ⟨-, -, -, hrest⟩
      have hin : (s.step z c op).InStep := by
        cases ops with
        | nil => exact hrest
        | cons _ _ => exact hrest.1
      refine ⟨fun entries heq => ?_, (ih (hi.step op) hin).mp hrest⟩
      subst heq
      by_contra hfresh
      exact h.not_step hi hfresh hin
    · rintro ⟨hfresh, hrest⟩
      obtain ⟨hin, hcovered, hbudget⟩ := h.step (z := z) (c := c) hi hfresh
      exact ⟨h, hcovered, hbudget, (ih (hi.step op) hin).mpr hrest⟩

/-- A log with a demoted prefix loses its last entry to a new leader, and is compacted. -/
def compactedLog : List (CountedOp Unit) :=
  [.append [entryAt 1 0, entryAt 1 1, entryAt 1 2], .truncate ⟨1, 1, 2⟩, .append [entryAt 2 2, entryAt 2 3], .purge ⟨1, 1, 0⟩]

theorem counters_kept_iff_compacted : (Counted.fresh { ramBudget := 1 }).Kept storedDeflate blankCodec compactedLog := by
  refine (counters_kept_iff storedDeflate blankCodec (.fresh _) (.fresh _) compactedLog).mpr ⟨?_, nofun, ?_, nofun, trivial⟩
  · rintro entries ⟨⟩
    exact ⟨by decide, by decide, by decide⟩
  · rintro entries ⟨⟩
    exact ⟨by decide, by decide +kernel, by decide +kernel⟩

/-- An entry is appended at an index that is there. -/
def repeatedLog : List (CountedOp Unit) := [.append [entryAt 1 0], .append [entryAt 2 0]]

/-- A new leader replaces entries that have been demoted. -/
def replacedLog : List (CountedOp Unit) :=
  [.append [entryAt 1 0, entryAt 1 1, entryAt 1 2], .truncate ⟨1, 1, 1⟩, .append [entryAt 2 1, entryAt 2 2]]

def Counted.run (z : Deflate) (c : EntryCodec π) (s : Counted π) (ops : List (CountedOp π)) : Counted π := ops.foldl (step z c) s

/-- With a budget of one byte. -/
def afterRun (ops : List (CountedOp Unit)) : Counted Unit := (Counted.fresh { ramBudget := 1 }).run storedDeflate blankCodec ops

/-- The entry that is appended again is counted twice. The one that comes back below the frontier stays resident, and two
copies are left. -/
theorem counters_drift :
    recordBytes (afterRun repeatedLog).log < (afterRun repeatedLog).logBytes ∧
    residentBytes (afterRun repeatedLog).log < (afterRun repeatedLog).ramBytes ∧
    ¬ (afterRun replacedLog).Budgeted ∧
    (∃ p ∈ (afterRun replacedLog).log, p.1 < (afterRun replacedLog).demoteScanFrom ∧ p.2.entry.isSome) ∧
    ¬ (Counted.fresh { ramBudget := 1 }).Kept storedDeflate blankCodec repeatedLog ∧
    ¬ (Counted.fresh { ramBudget := 1 }).Kept storedDeflate blankCodec replacedLog := by
  refine ⟨by decide +kernel, by decide +kernel, ?_, by decide +kernel, fun h => ?_, fun h => ?_⟩
  · unfold Counted.Budgeted
    decide +kernel
  · exact absurd h.2.2.2.2.2.2.logBytes (by decide +kernel)
  · have hbudget := h.2.2.2.2.2.2.2.2.1 _ rfl
    unfold Counted.Budgeted at hbudget
    exact absurd hbudget (by decide +kernel)

end NanoBpm.Raft.LogStore
