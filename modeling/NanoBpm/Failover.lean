import NanoBpm.Lib.RoundRobin

/-!
# Replica placement and failover (`nano-server-runtime/src/cluster.rs`, `pick_successor` in `src/main.rs`)

| here | there |
| --- | --- |
| `Topology` | `Topology` (`cluster.rs:62`) |
| `Topology.replicasOf` | `Topology::replicas_of` (`cluster.rs:158`), as the release build runs it: 32-bit sums wrap |
| `pickSuccessor` | `pick_successor` (`main.rs:5019`) |
| `Topology.designatedSuccessor` | `designated_successor` (`main.rs:14863`), of a mask of the replicas that answer |

A panic is `none`: a partition has no owner in a cluster without nodes.
-/

namespace NanoBpm

namespace Failover

/-- `Topology`. -/
structure Topology where
  nodeId : Nat
  peers : List String
  numPartitions : Nat
  replicationFactor : Nat
deriving DecidableEq, Repr

/-- `pick_successor`. -/
def pickSuccessor (replicas : List Nat) (reachable : List Bool) (numNodes p : Nat) : Option Nat :=
  match replicas.head?, reachable.head? with
  | some owner, some true => some owner
  | _, _ =>
    let candidates := ((replicas.zip reachable).drop 1).filterMap fun (n, up) => if up then some n else none
    if candidates.isEmpty then none else candidates[p / max numNodes 1 % candidates.length]?

namespace Topology

/-- `num_nodes`: `peers.len() as u32`. -/
def numNodes (t : Topology) : Nat := t.peers.length % 2 ^ 32

/-- `owner_of`. -/
def ownerOf (t : Topology) (partition : Nat) : Option Nat := if t.numNodes = 0 then none else some (partition % t.numNodes)

/-- `is_local`. -/
def isLocal (t : Topology) (partition : Nat) : Option Bool := (t.ownerOf partition).map (· == t.nodeId)

/-- `effective_rf`. -/
def effectiveRf (t : Topology) : Nat := min (max t.replicationFactor 1) (max t.numNodes 1)

/-- `replicas_of`. -/
def replicasOf (t : Topology) (p : Nat) : Option (List Nat) :=
  (t.ownerOf p).map fun owner => (List.range t.effectiveRf).map fun i => (owner + i) % 2 ^ 32 % max t.numNodes 1

/-- `designated_successor`. -/
def designatedSuccessor (t : Topology) (reachable : List Bool) (p : Nat) : Option Nat :=
  (t.replicasOf p).bind fun replicas => pickSuccessor replicas reachable t.numNodes p

/-- The same cluster, seen from node `i`. -/
def seenFrom (t : Topology) (i : Nat) : Topology := { t with nodeId := i }

/-- One node owns the partition, and all nodes list the same replicas: as many as the effective replication factor, each node once,
the owner first. -/
structure Placed (t : Topology) (p : Nat) : Prop where
  owner : ∃! i, i < t.numNodes ∧ (t.seenFrom i).isLocal p = some true
  replicas : ∃ replicas, (∀ i, (t.seenFrom i).replicasOf p = some replicas) ∧ replicas.length = t.effectiveRf ∧ replicas.Nodup ∧
    (∀ i ∈ replicas, i < t.numNodes) ∧ replicas.head? = t.ownerOf p

/-- Of the replicas that answer one succeeds, and the owner if it answers. -/
structure Succeeded (t : Topology) (p : Nat) (replicas : List Nat) (reachable : List Bool) : Prop where
  ofOwner : reachable.head? = some true → t.designatedSuccessor reachable p = t.ownerOf p
  answers : ∀ a, t.designatedSuccessor reachable p = some a → (a, true) ∈ replicas.zip reachable
  exists_of_answers : ∀ a, (a, true) ∈ replicas.zip reachable → (t.designatedSuccessor reachable p).isSome

/-- Node `a` holds a partition of owner `o`, and the mask says that it answers. -/
def Survives (t : Topology) (reachable : List Bool) (o a : Nat) : Prop :=
  ∃ p < t.numPartitions, t.ownerOf p = some o ∧ ∃ replicas, t.replicasOf p = some replicas ∧ (a, true) ∈ replicas.zip reachable

/-- How many partitions of owner `o` go to node `a`. -/
def inherited (t : Topology) (reachable : List Bool) (o a : Nat) : Nat :=
  t.numPartitions.count fun p => t.ownerOf p = some o ∧ t.designatedSuccessor reachable p = some a

/-- The partitions of an owner that is down are spread evenly, to one, over those that answer. -/
def Balanced (t : Topology) : Prop :=
  ∀ (o : Nat) (mask : List Bool) (a b : Nat), t.Survives (false :: mask) o a → t.Survives (false :: mask) o b →
    t.inherited (false :: mask) o a ≤ t.inherited (false :: mask) o b + 1

end Topology

open NanoBpm.Failover.Topology

variable {t : Topology} {replicas : List Nat} {reachable mask : List Bool} {a i n o p : Nat}

/-! ## The successor -/

/-- The replicas after the owner that answer. -/
def survivors (replicas : List Nat) (reachable : List Bool) : List Nat :=
  ((replicas.zip reachable).drop 1).filterMap fun (n, up) => if up then some n else none

theorem mem_survivors : a ∈ survivors replicas reachable ↔ (a, true) ∈ (replicas.zip reachable).drop 1 := by
  simp only [survivors, List.mem_filterMap, Prod.exists]
  constructor
  · rintro ⟨n, up, hmem, heq⟩
    cases up with
    | true => exact Option.some.inj heq ▸ hmem
    | false => exact absurd heq (by simp)
  · exact fun hmem => ⟨a, true, hmem, rfl⟩

theorem zip_fst_sublist (replicas : List Nat) (reachable : List Bool) : ((replicas.zip reachable).map Prod.fst).Sublist replicas := by
  induction replicas generalizing reachable with
  | nil => simp
  | cons n replicas ih =>
    cases reachable with
    | nil => simp
    | cons up reachable => exact (ih reachable).cons_cons n

theorem survivors_sublist (replicas : List Nat) (reachable : List Bool) : (survivors replicas reachable).Sublist replicas := by
  have hsub : (survivors replicas reachable).Sublist (((replicas.zip reachable).drop 1).map Prod.fst) := by
    rw [survivors]
    generalize (replicas.zip reachable).drop 1 = pairs
    induction pairs with
    | nil => exact .slnil
    | cons pair pairs ih =>
      obtain ⟨n, up⟩ := pair
      cases up with
      | true => exact ih.cons_cons n
      | false => exact ih.cons n
  exact hsub.trans (((List.drop_sublist 1 _).map Prod.fst).trans (zip_fst_sublist replicas reachable))

theorem pickSuccessor_owner : pickSuccessor (o :: replicas) (true :: mask) n p = some o := rfl

/-- With the owner down, the survivor whose turn it is succeeds. -/
theorem pickSuccessor_down : pickSuccessor replicas (false :: mask) n p =
    (survivors replicas (false :: mask))[p / max n 1 % (survivors replicas (false :: mask)).length]? := by
  have hpick : pickSuccessor replicas (false :: mask) n p = if (survivors replicas (false :: mask)).isEmpty then none else
      (survivors replicas (false :: mask))[p / max n 1 % (survivors replicas (false :: mask)).length]? := by
    cases replicas <;> rfl
  rw [hpick]
  split
  · rename_i hempty
    simp [List.isEmpty_iff.mp hempty]
  · rfl

theorem mem_survivors_down : a ∈ survivors replicas (false :: mask) ↔ (a, true) ∈ replicas.zip (false :: mask) := by
  rw [mem_survivors]
  cases replicas with
  | nil => simp
  | cons o replicas => simp

theorem pickSuccessor_mem (h : pickSuccessor replicas reachable n p = some a) : (a, true) ∈ replicas.zip reachable := by
  match replicas, reachable with
  | [], reachable => simp [pickSuccessor] at h
  | o :: replicas, [] => simp [pickSuccessor] at h
  | o :: replicas, true :: mask =>
    rw [pickSuccessor_owner] at h
    simp [Option.some.inj h]
  | o :: replicas, false :: mask =>
    rw [pickSuccessor_down] at h
    exact mem_survivors_down.mp (List.mem_of_getElem? h)

theorem pickSuccessor_isSome (h : (a, true) ∈ replicas.zip reachable) : (pickSuccessor replicas reachable n p).isSome := by
  match replicas, reachable with
  | [], reachable => simp at h
  | o :: replicas, [] => simp at h
  | o :: replicas, true :: mask => rfl
  | o :: replicas, false :: mask =>
    have hpos := List.length_pos_of_mem (mem_survivors_down.mpr h)
    rw [pickSuccessor_down, List.getElem?_eq_getElem (Nat.mod_lt _ hpos)]
    rfl

/-! ## The replicas -/

/-- The replicas of a partition whose owner is `o`, as 32-bit sums have them. -/
def window (n rf o : Nat) : List Nat := (List.range rf).map fun i => (o + i) % 2 ^ 32 % n

theorem numNodes_lt (t : Topology) : t.numNodes < 2 ^ 32 := Nat.mod_lt _ (Nat.two_pow_pos 32)

theorem ownerOf_eq (hn : 0 < t.numNodes) (p : Nat) : t.ownerOf p = some (p % t.numNodes) := if_neg hn.ne'

theorem replicasOf_eq (hn : 0 < t.numNodes) (p : Nat) : t.replicasOf p = some (window t.numNodes t.effectiveRf (p % t.numNodes)) := by
  rw [replicasOf, ownerOf_eq hn, Nat.max_eq_left hn]
  rfl

theorem one_le_effectiveRf (t : Topology) : 1 ≤ t.effectiveRf := Nat.le_min.mpr ⟨Nat.le_max_right _ _, Nat.le_max_right _ _⟩

theorem effectiveRf_le (hn : 0 < t.numNodes) : t.effectiveRf ≤ t.numNodes := by
  rw [effectiveRf, Nat.max_eq_left hn]
  exact Nat.min_le_right _ _

theorem head_window {rf : Nat} (hlt : o < n) (hn : n < 2 ^ 32) (hrf : 1 ≤ rf) : (window n rf o).head? = some o := by
  obtain ⟨rf, rfl⟩ : ∃ k, rf = k + 1 := ⟨rf - 1, by omega⟩
  simp only [window, List.range_succ_eq_map, List.map_cons, List.head?_cons, Nat.add_zero]
  rw [Nat.mod_eq_of_lt (hlt.trans hn), Nat.mod_eq_of_lt hlt]

theorem lt_of_mem_window {rf : Nat} (hn : 0 < n) (h : i ∈ window n rf o) : i < n := by
  obtain ⟨k, -, rfl⟩ := List.mem_map.mp h
  exact Nat.mod_lt _ hn

/-- The window names each node once as long as no sum wraps. Where one does, node 0 is in it at the end of the nodes and again where
the sum wraps. -/
theorem nodup_window_iff {rf : Nat} (hlt : o < n) (hn : n < 2 ^ 32) (hrf : rf ≤ n) : (window n rf o).Nodup ↔ o + rf ≤ 2 ^ 32 := by
  constructor
  · intro hnodup
    by_contra hwraps
    have hinj := List.inj_on_of_nodup_map hnodup (List.mem_range.mpr (show n - o < rf by omega))
      (List.mem_range.mpr (show 2 ^ 32 - o < rf by omega))
    have hend : (o + (n - o)) % 2 ^ 32 % n = 0 := by
      rw [Nat.add_sub_cancel' hlt.le, Nat.mod_eq_of_lt hn, Nat.mod_self]
    have hwrap : (o + (2 ^ 32 - o)) % 2 ^ 32 % n = 0 := by
      rw [Nat.add_sub_cancel' (hlt.trans hn).le, Nat.mod_self, Nat.zero_mod]
    have heq := hinj (hend.trans hwrap.symm)
    omega
  · intro hle
    have heq : window n rf o = (List.range rf).map fun i => (o + i) % n := by
      refine List.map_congr_left fun i hi => ?_
      have hi := List.mem_range.mp hi
      rw [Nat.mod_eq_of_lt (show o + i < 2 ^ 32 by omega)]
    rw [heq]
    exact RoundRobin.nodup_window o hrf

theorem seenFrom_isLocal (t : Topology) (i p : Nat) : (t.seenFrom i).isLocal p = some true ↔ t.ownerOf p = some i := by
  change (t.ownerOf p).map (· == i) = some true ↔ _
  simp

theorem placed_iff (t : Topology) (p : Nat) : t.Placed p ↔ 0 < t.numNodes ∧ p % t.numNodes + t.effectiveRf ≤ 2 ^ 32 := by
  constructor
  · rintro ⟨⟨o, ⟨hlt, -⟩, -⟩, replicas, hsame, -, hnodup, -⟩
    have hn : 0 < t.numNodes := Nat.zero_lt_of_lt hlt
    have heq : replicas = window t.numNodes t.effectiveRf (p % t.numNodes) :=
      Option.some.inj ((hsame t.nodeId).symm.trans (replicasOf_eq hn p))
    rw [heq] at hnodup
    exact ⟨hn, (nodup_window_iff (Nat.mod_lt p hn) (numNodes_lt t) (effectiveRf_le hn)).mp hnodup⟩
  · rintro ⟨hn, hle⟩
    have hlt := Nat.mod_lt p hn
    refine ⟨⟨p % t.numNodes, ⟨hlt, (seenFrom_isLocal t _ p).mpr (ownerOf_eq hn p)⟩, ?_⟩, ?_⟩
    · rintro i ⟨-, hi⟩
      have howner := (seenFrom_isLocal t i p).mp hi
      rw [ownerOf_eq hn] at howner
      exact (Option.some.inj howner).symm
    · refine ⟨window t.numNodes t.effectiveRf (p % t.numNodes), fun i => replicasOf_eq (t := t.seenFrom i) hn p, ?_, ?_, ?_, ?_⟩
      · simp [window]
      · exact (nodup_window_iff hlt (numNodes_lt t) (effectiveRf_le hn)).mpr hle
      · exact fun i hi => lt_of_mem_window hn hi
      · rw [ownerOf_eq hn, head_window hlt (numNodes_lt t) (one_le_effectiveRf t)]

/-! ## Failover -/

theorem designatedSuccessor_eq (hn : 0 < t.numNodes) (reachable : List Bool) (p : Nat) :
    t.designatedSuccessor reachable p = pickSuccessor (window t.numNodes t.effectiveRf (p % t.numNodes)) reachable t.numNodes p := by
  rw [designatedSuccessor, replicasOf_eq hn]
  rfl

theorem succeeded (h : t.replicasOf p = some replicas) (reachable : List Bool) : t.Succeeded p replicas reachable := by
  have hn : 0 < t.numNodes := by
    by_contra hzero
    rw [replicasOf, ownerOf, if_pos (Nat.eq_zero_of_not_pos hzero)] at h
    cases h
  rw [replicasOf_eq hn] at h
  obtain rfl := Option.some.inj h
  constructor
  · intro hup
    obtain ⟨mask, rfl⟩ := List.head?_eq_some_iff.mp hup
    have hhead := head_window (Nat.mod_lt p hn) (numNodes_lt t) (one_le_effectiveRf t)
    obtain ⟨others, hothers⟩ := List.head?_eq_some_iff.mp hhead
    rw [designatedSuccessor_eq hn, ownerOf_eq hn, hothers, pickSuccessor_owner]
  · intro a ha
    rw [designatedSuccessor_eq hn] at ha
    exact pickSuccessor_mem ha
  · intro a ha
    rw [designatedSuccessor_eq hn]
    exact pickSuccessor_isSome ha

/-- The partitions of `o` that the survivor in place `j` inherits are those dealt to it. -/
theorem inherited_eq (hn : 0 < t.numNodes) {survivors' : List Nat} {j : Nat}
    (hsurvivors : survivors (window t.numNodes t.effectiveRf o) (false :: mask) = survivors') (hnodup : survivors'.Nodup)
    (hj : j < survivors'.length) : t.inherited (false :: mask) o survivors'[j] =
      t.numPartitions.count fun p => p % t.numNodes = o ∧ p / t.numNodes % survivors'.length = j := by
  have hiff : ∀ p, (t.ownerOf p = some o ∧ t.designatedSuccessor (false :: mask) p = some survivors'[j]) ↔
      (p % t.numNodes = o ∧ p / t.numNodes % survivors'.length = j) := by
    intro p
    rw [ownerOf_eq hn, Option.some.injEq]
    refine and_congr_right fun howner => ?_
    rw [designatedSuccessor_eq hn, howner, pickSuccessor_down, hsurvivors, Nat.max_eq_left hn,
      List.getElem?_eq_getElem (Nat.mod_lt _ (Nat.zero_lt_of_lt hj)), Option.some.injEq, hnodup.getElem_inj_iff]
  simp only [inherited, hiff]

theorem survives_iff_mem (hn : 0 < t.numNodes) (h : t.Survives (false :: mask) o a) :
    (∃ p < t.numPartitions, p % t.numNodes = o) ∧ a ∈ survivors (window t.numNodes t.effectiveRf o) (false :: mask) := by
  obtain ⟨p, hp, howner, replicas, hreplicas, hmem⟩ := h
  rw [ownerOf_eq hn] at howner
  rw [replicasOf_eq hn, Option.some.inj howner] at hreplicas
  obtain rfl := Option.some.inj hreplicas
  exact ⟨⟨p, hp, Option.some.inj howner⟩, mem_survivors_down.mpr hmem⟩

theorem balanced (hplaced : ∀ p < t.numPartitions, t.Placed p) : t.Balanced := by
  intro o mask a b ha hb
  obtain ⟨hn, -⟩ : 0 < t.numNodes ∧ True := by
    obtain ⟨p, hp, -⟩ := ha
    exact ⟨((placed_iff t p).mp (hplaced p hp)).1, trivial⟩
  obtain ⟨⟨p, hp, rfl⟩, ha⟩ := survives_iff_mem hn ha
  obtain ⟨-, hb⟩ := survives_iff_mem hn hb
  have hlt := Nat.mod_lt p hn
  have hle := ((placed_iff t p).mp (hplaced p hp)).2
  have hnodup := ((nodup_window_iff hlt (numNodes_lt t) (effectiveRf_le hn)).mpr hle).sublist
    (survivors_sublist _ (false :: mask))
  generalize hsurvivors : survivors (window t.numNodes t.effectiveRf (p % t.numNodes)) (false :: mask) = survivors' at ha hb hnodup
  obtain ⟨j, hj, rfl⟩ := List.getElem_of_mem ha
  obtain ⟨k, hk, rfl⟩ := List.getElem_of_mem hb
  rw [inherited_eq hn hsurvivors hnodup hj, inherited_eq hn hsurvivors hnodup hk]
  exact RoundRobin.count_dealt_le hn hlt hj hk _

/-- Partitions are placed and fail over as they should as long as the cluster has a node and no 32-bit sum of an owner and the
replication factor wraps. -/
theorem placement_right (t : Topology) :
    ((∀ p < t.numPartitions, t.Placed p) ∧
      (∀ p < t.numPartitions, ∀ replicas, t.replicasOf p = some replicas → ∀ reachable, t.Succeeded p replicas reachable) ∧ t.Balanced) ↔
      ∀ p < t.numPartitions, 0 < t.numNodes ∧ p % t.numNodes + t.effectiveRf ≤ 2 ^ 32 := by
  constructor
  · rintro ⟨hplaced, -, -⟩ p hp
    exact (placed_iff t p).mp (hplaced p hp)
  · intro h
    have hplaced : ∀ p < t.numPartitions, t.Placed p := fun p hp => (placed_iff t p).mpr (h p hp)
    exact ⟨hplaced, fun p _ replicas hreplicas reachable => succeeded hreplicas reachable, balanced hplaced⟩

/-- The last of 2^32 - 1 nodes owns a partition, and the sum for its third replica wraps. -/
theorem replica_named_twice :
    ∃ t : Topology, t.peers.length = 4294967295 ∧ t.replicationFactor = 3 ∧ 4294967294 < t.numPartitions ∧
      t.replicasOf 4294967294 = some [4294967294, 0, 0] ∧ ¬ ∀ p < t.numPartitions, t.Placed p := by
  let t : Topology := ⟨0, List.replicate 4294967295 "http://node", 4294967295, 3⟩
  have hlength : t.peers.length = 4294967295 := List.length_replicate
  have hn : t.numNodes = 4294967295 := by
    rw [numNodes, hlength]
    decide
  have hrf : t.effectiveRf = 3 := by
    rw [effectiveRf, hn]
    decide
  have hreplicas : t.replicasOf 4294967294 = some [4294967294, 0, 0] := by
    rw [replicasOf_eq (by rw [hn]; decide), hn, hrf]
    decide
  refine ⟨t, hlength, rfl, by decide, hreplicas, fun hplaced => ?_⟩
  have hle := ((placed_iff t 4294967294).mp (hplaced 4294967294 (by decide))).2
  rw [hn, hrf] at hle
  exact absurd hle (by decide)

end Failover

end NanoBpm
