import NanoBpm.Seglog.Multi

/-!
# Recovery of a multi-partition journal

A node owns some partitions of a cluster and writes them into one shared log. Each partition's engine has
taken in its own events, in log order, and between them deployments that other partitions journaled: that
is a history, and recovery rebuilds one. The sidecars are the only source of the per-partition positions
once a prefix is compacted; `KeepsSidecars` says where they must have reached the disk.
-/

namespace NanoBpm

namespace Seglog

open Tiling

/-! ## Counts -/

theorem eventsOf_append (p : Nat) (xs ys : List Tagged) : eventsOf p (xs ++ ys) = eventsOf p xs ++ eventsOf p ys := by
  simp [eventsOf]

theorem eventsOf_batch_self (p : Nat) (events : List Event) : eventsOf p (events.map (p, ·)) = events := by
  simp [eventsOf, List.filter_map, Function.comp_def]

theorem eventsOf_batch_other {p q : Nat} (h : q ≠ p) (events : List Event) : eventsOf q (events.map (p, ·)) = [] := by
  have hne : (p == q) = false := beq_false_of_ne (Ne.symm h)
  simp [eventsOf, List.filter_map, Function.comp_def, hne]

theorem length_countsOf (n : Nat) (log : List Tagged) : (countsOf n log).length = n := by simp [countsOf]

theorem getElem?_countsOf (n : Nat) (log : List Tagged) (i : Nat) :
    (countsOf n log)[i]? = if i < n then some (eventsOf i log).length else none := by
  unfold countsOf
  rw [List.getElem?_map]
  by_cases h : i < n
  · rw [List.getElem?_range h, if_pos h, Option.map_some]
  · rw [if_neg h, List.getElem?_eq_none (by simpa using Nat.le_of_not_lt h), Option.map_none]

theorem getD_countsOf {n i : Nat} (h : i < n) (log : List Tagged) : (countsOf n log).getD i 0 = (eventsOf i log).length := by
  rw [List.getD_eq_getElem?_getD, getElem?_countsOf, if_pos h, Option.getD_some]

theorem countsOf_nil (n : Nat) : countsOf n [] = List.replicate n 0 := by
  apply List.ext_getElem?
  intro i
  rw [getElem?_countsOf, List.getElem?_replicate]
  rfl

/-- A record's tag moves exactly its own counter. -/
theorem bumpTag_countsOf {n : Nat} (log : List Tagged) (r : Tagged) (h : r.1 < n) :
    bumpTag n (countsOf n log) r.1 = countsOf n (log ++ [r]) := by
  have hclamp : min r.1 (n - 1) = r.1 := by omega
  apply List.ext_getElem?
  intro i
  rw [bumpTag, hclamp, List.getElem?_modify, getElem?_countsOf, getElem?_countsOf, eventsOf_append]
  by_cases hi : i < n
  · by_cases he : r.1 = i
    · subst he
      simp [eventsOf, h]
    · have : (r.1 == i) = false := beq_false_of_ne he
      simp [eventsOf, hi, he, this]
  · simp [hi]

theorem bumpTags_countsOf {n : Nat} (log records : List Tagged) (h : ∀ r ∈ records, r.1 < n) :
    bumpTags n (countsOf n log) records = countsOf n (log ++ records) := by
  induction records generalizing log with
  | nil => simp [bumpTags]
  | cons r rs ih =>
    rw [List.forall_mem_cons] at h
    have := ih (log ++ [r]) h.2
    rw [← bumpTag_countsOf log r h.1, List.append_assoc] at this
    exact this

theorem addPartitionEvents_batch {n : Nat} (log : List Tagged) (p : Nat) (events : List Event) :
    addPartitionEvents (countsOf n log) (batchDeltas n p events.length) =
      countsOf n (log ++ events.map (p, ·)) := by
  apply List.ext_getElem?
  intro i
  rw [addPartitionEvents, List.getElem?_map, List.getElem?_zipIdx, getElem?_countsOf, getElem?_countsOf]
  by_cases hi : i < n
  · have hdelta : (batchDeltas n p events.length).getD i 0 = if i = p then events.length else 0 := by
      rw [List.getD_eq_getElem?_getD, batchDeltas, List.getElem?_map, List.getElem?_range hi]
      rfl
    simp only [hi, if_true, Option.map_some, Nat.zero_add, hdelta]
    rw [eventsOf_append, List.length_append]
    by_cases he : i = p
    · subst he
      rw [if_pos rfl, eventsOf_batch_self]
    · rw [if_neg he, eventsOf_batch_other he]
      rfl
  · simp [hi]

/-! ## Histories -/

/-- What a partition's engine takes in: an event of its own log, or a deployment of another's. -/
inductive Input where
  | own (e : Event)
  | installed (e : Event)

def takeInput (l : Engine.Logged) : Input → Engine.Logged
  | .own e => l.replay e
  | .installed e =>
    { l with
      nextLocal := Engine.observeKey l.partitionId l.nextLocal e.maxKey
      state := if e.isDeployment then apply l.state e else l.state }

def takeInputs (l : Engine.Logged) (h : List Input) : Engine.Logged := h.foldl takeInput l

def ownEvents (h : List Input) : List Event := h.filterMap fun
  | .own e => some e
  | .installed _ => none

theorem takeInputs_append (l : Engine.Logged) (g h : List Input) :
    takeInputs l (g ++ h) = takeInputs (takeInputs l g) h := List.foldl_append

theorem ownEvents_append (g h : List Input) : ownEvents (g ++ h) = ownEvents g ++ ownEvents h :=
  List.filterMap_append

theorem ownEvents_own (events : List Event) : ownEvents (events.map .own) = events := by
  induction events with
  | nil => rfl
  | cons e rest ih => exact congrArg (e :: ·) ih

theorem ownEvents_installed (events : List Event) : ownEvents (events.map .installed) = [] := by
  induction events with
  | nil => rfl
  | cons e rest ih => exact ih

/-- Replay takes in own events. -/
theorem logged_applyReplayedEvents_eq (e : Engine) (events : List Event) :
    (e.applyReplayedEvents events).logged = takeInputs e.logged (events.map .own) := by
  rw [Engine.logged_applyReplayedEvents, takeInputs, List.foldl_map]
  rfl

/-- Installing takes in deployments. -/
theorem logged_installDeployment (e : Engine) (events : List Event) :
    (e.installDeployment events).logged = takeInputs e.logged (events.map .installed) := by
  induction events generalizing e with
  | nil => rfl
  | cons x xs ih => exact ih (e.installDeploymentEvent x)

/-- On deployments the two are the same. -/
theorem takeInputs_installed_eq (l : Engine.Logged) {events : List Event} (h : ∀ e ∈ events, e.isDeployment = true) :
    takeInputs l (events.map .installed) = takeInputs l (events.map .own) := by
  induction events generalizing l with
  | nil => rfl
  | cons x xs ih =>
    rw [List.forall_mem_cons] at h
    have hx : takeInput l (.installed x) = takeInput l (.own x) := by
      simp only [takeInput, h.1, if_true]
      rfl
    show takeInputs (takeInput l (.installed x)) _ = takeInputs (takeInput l (.own x)) _
    rw [hx]
    exact ih _ h.2

theorem normalized_takeInputs {l : Engine.Logged} (hl : l.state.definitions.Normalized) (h : List Input) :
    (takeInputs l h).state.definitions.Normalized := by
  induction h generalizing l with
  | nil => exact hl
  | cons i h ih =>
    refine ih ?_
    cases i with
    | own e => exact normalized_apply hl e
    | installed e =>
      show (if e.isDeployment then apply l.state e else l.state).definitions.Normalized
      split
      · exact normalized_apply hl e
      · exact hl

/-- The inputs a partition `p` may have taken in besides its own events. -/
def InstallsOk (p : Nat) (log : List Tagged) (h : List Input) : Prop :=
  ∀ e, Input.installed e ∈ h → e.isDeployment = true ∧ ∃ tag, tag ≠ p ∧ (tag, e) ∈ log

/-- The engine is the replay of `own`, interleaved only with deployments that other partitions of the
log journaled. -/
def ReplaysFor (p : Nat) (log : List Tagged) (own : List Event) (l : Engine.Logged) : Prop :=
  ∃ h, ownEvents h = own ∧ InstallsOk p log h ∧ l = takeInputs (Engine.withPartition p).logged h

namespace ReplaysFor

theorem start (p : Nat) (log : List Tagged) : ReplaysFor p log [] (Engine.withPartition p).logged :=
  ⟨[], rfl, (fun _ h => nomatch h), rfl⟩

theorem extend {p : Nat} {log : List Tagged} {own : List Event} {l : Engine.Logged} (h : ReplaysFor p log own l)
    (more : List Tagged) : ReplaysFor p (log ++ more) own l := by
  obtain ⟨g, hown, hinst, hl⟩ := h
  refine ⟨g, hown, fun e he => ?_, hl⟩
  obtain ⟨hd, tag, hne, hmem⟩ := hinst e he
  exact ⟨hd, tag, hne, List.mem_append_left _ hmem⟩

theorem own {p : Nat} {log : List Tagged} {own : List Event} {l : Engine.Logged} (h : ReplaysFor p log own l)
    (events : List Event) : ReplaysFor p log (own ++ events) (takeInputs l (events.map .own)) := by
  obtain ⟨g, rfl, hinst, rfl⟩ := h
  refine ⟨g ++ events.map .own, ?_, fun e he => ?_, (takeInputs_append _ _ _).symm⟩
  · rw [ownEvents_append, ownEvents_own]
  · rcases List.mem_append.1 he with he | he
    · exact hinst e he
    · simp at he

theorem install {p : Nat} {log : List Tagged} {own : List Event} {l : Engine.Logged} (h : ReplaysFor p log own l)
    {events : List Event} (hev : ∀ e ∈ events, e.isDeployment = true ∧ ∃ tag, tag ≠ p ∧ (tag, e) ∈ log) :
    ReplaysFor p log own (takeInputs l (events.map .installed)) := by
  obtain ⟨g, rfl, hinst, rfl⟩ := h
  refine ⟨g ++ events.map .installed, ?_, fun e he => ?_, (takeInputs_append _ _ _).symm⟩
  · rw [ownEvents_append, ownEvents_installed, List.append_nil]
  · rcases List.mem_append.1 he with he | he
    · exact hinst e he
    · obtain ⟨x, hx, hxe⟩ := List.mem_map.1 he
      cases hxe
      exact hev e hx

theorem normalized {p : Nat} {log : List Tagged} {own : List Event} {l : Engine.Logged} (h : ReplaysFor p log own l) :
    l.state.definitions.Normalized := by
  obtain ⟨g, -, -, rfl⟩ := h
  exact normalized_takeInputs normalized_empty g

/-- Without deployments of other partitions the history is the replay and nothing else. -/
theorem exact {p : Nat} {log : List Tagged} {own : List Event} {l : Engine.Logged} (h : ReplaysFor p log own l)
    (hlog : ∀ r ∈ log, r.2.isDeployment = true → r.1 = p) : l = (Engine.replayPartition p own).logged := by
  obtain ⟨g, rfl, hinst, rfl⟩ := h
  have hall : ∀ h : List Input, (∀ e, Input.installed e ∉ h) → h = (ownEvents h).map .own := by
    intro h hno
    induction h with
    | nil => rfl
    | cons i h ih =>
      cases i with
      | own e =>
        have hrest : ∀ x, Input.installed x ∉ h := fun x hx => hno x (List.mem_cons_of_mem _ hx)
        exact congrArg (Input.own e :: ·) (ih hrest)
      | installed e => exact absurd List.mem_cons_self (hno e)
  rw [Engine.replayPartition, logged_applyReplayedEvents_eq, ← hall g]
  intro e he
  obtain ⟨hd, tag, hne, hmem⟩ := hinst e he
  exact hne (hlog (tag, e) hmem hd)

end ReplaysFor

/-- What a run keeps true of a partition's engine and of its snapshots: a relation to the partition, the log and
the events of its own the engine has taken in. -/
structure ReplayRel where
  Rel : Nat → List Tagged → List Event → Engine.Logged → Prop
  start : ∀ p log, Rel p log [] (Engine.withPartition p).logged
  extend : ∀ {p log own l}, Rel p log own l → ∀ more, Rel p (log ++ more) own l
  own : ∀ {p log own l}, Rel p log own l → ∀ events, Rel p log (own ++ events) (takeInputs l (events.map .own))
  install : ∀ {p log own l}, Rel p log own l → ∀ {events : List Event},
    (∀ e ∈ events, e.isDeployment = true ∧ ∃ tag, tag ≠ p ∧ (tag, e) ∈ log) →
      Rel p log own (takeInputs l (events.map .installed))
  snapshot : ∀ {p log own} {e : Engine}, Rel p log own e.logged → Rel p log own (Engine.fromSnapshot e.snapshot).logged

/-- The engines are replays. -/
def ReplayRel.replays : ReplayRel where
  Rel := ReplaysFor
  start := ReplaysFor.start
  extend := ReplaysFor.extend
  own := ReplaysFor.own
  install := ReplaysFor.install
  snapshot := fun h => (Engine.logged_fromSnapshot h.normalized).symm ▸ h

/-- Nothing is asked of the engines: what is left are the files and the counts. -/
def ReplayRel.any : ReplayRel where
  Rel := fun _ _ _ _ => True
  start := fun _ _ => trivial
  extend := fun _ _ => trivial
  own := fun _ _ => trivial
  install := fun _ _ _ => trivial
  snapshot := fun _ => trivial

end Seglog

end NanoBpm
