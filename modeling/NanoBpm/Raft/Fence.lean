import Mathlib.Data.Prod.Lex
import NanoBpm.Lib.Greatest
import NanoBpm.Model

/-!
# The fence register (`nano-server-raft/src/fence.rs`, `server/src/main.rs:14873-14892`, `:15261-15377`, `:15664-15717`)

Every node keeps, for each partition, a register with an epoch and the node that leads at it. A node that promotes itself
claims an epoch, peers hear of the claim, and a leader that hands the partition over claims the next epoch for the node it
hands it to. Claims travel as messages that may be lost, delayed and delivered twice. The registers are soft state: a node
that restarts begins with none.
-/

namespace NanoBpm.Raft

/-! ## The register -/

/-- `NO_LEADER`. -/
def noLeader : Nat := 2 ^ 64 - 1

/-- A value `(epoch, leader)` of the register, and a claim to it. -/
@[ext]
structure Fence where
  epoch : Nat
  leader : Nat
deriving DecidableEq, Repr

namespace Fence

/-- The register of a partition nobody has claimed. -/
def initial : Fence := ⟨0, noLeader⟩

/-- `wins`: whether a claim wins over the register. -/
def wins (current claim : Fence) : Bool :=
  current.epoch < claim.epoch || (claim.epoch == current.epoch && claim.leader < current.leader)

/-- `next_epoch`: `none` is the refusal to wrap at the end of the epoch space. -/
def nextEpoch (current : Fence) (me : Nat) : Option Nat :=
  if current.leader = me then some current.epoch
  else if current.epoch + 1 < 2 ^ 64 then some (current.epoch + 1) else none

/-- At the register's own epoch the claim names no higher node. -/
def InOrder (current claim : Fence) : Prop := current.epoch = claim.epoch → claim.leader ≤ current.leader

instance (current claim : Fence) : Decidable (current.InOrder claim) := inferInstanceAs (Decidable (_ → _))

/-- The order of `wins`: by epoch, and at one epoch the lower node is above. -/
def rank (r : Fence) : ℕ ×ₗ ℕᵒᵈ := toLex (r.epoch, OrderDual.toDual r.leader)

theorem rank_injective : Function.Injective rank := by
  intro a b h
  cases a
  cases b
  simpa [rank] using h

instance : LinearOrder Fence := LinearOrder.lift' rank rank_injective

theorem lt_iff {a b : Fence} : a < b ↔ a.epoch < b.epoch ∨ (a.epoch = b.epoch ∧ b.leader < a.leader) := Prod.Lex.lt_iff

theorem wins_iff {current claim : Fence} : current.wins claim = true ↔ current < claim := by
  rw [lt_iff]
  simp only [wins, Bool.or_eq_true, Bool.and_eq_true, decide_eq_true_eq, beq_iff_eq]
  rw [eq_comm]

/-- What a node claims for itself is what it holds already, or wins over it. -/
theorem le_nextEpoch {current : Fence} {me next : Nat} (h : current.nextEpoch me = some next) : current ≤ ⟨next, me⟩ := by
  unfold nextEpoch at h
  split at h
  · next hme =>
    cases h
    subst hme
    exact le_refl current
  · split at h
    · cases h
      exact (lt_iff.mpr (.inl (Nat.lt_succ_self _))).le
    · cases h

end Fence

/-! ## A node -/

/-- A node and its registers (`promotion_epoch`), by partition. -/
structure Server where
  node : Nat
  promotionEpoch : Std.ExtTreeMap Nat Fence := ∅

/-- What `handle_promotion` goes on to do. -/
inductive Reaction where
  /-- The claim is this node's own. -/
  | done
  /-- The group is rebuilt as a receiver of the new leader's. -/
  | rejoin
  /-- The sender lost at this node's own epoch and is added as a learner. -/
  | addLearner
  | ignore
deriving DecidableEq, Repr

namespace Server

def register (s : Server) (partition : Nat) : Fence := (s.promotionEpoch[partition]?).getD Fence.initial

def set (s : Server) (partition : Nat) (r : Fence) : Server :=
  { s with promotionEpoch := s.promotionEpoch.insert partition r }

/-- `next_promotion_epoch`: the claimed epoch. -/
def nextPromotionEpoch (s : Server) (partition : Nat) : Option (Nat × Server) :=
  ((s.register partition).nextEpoch s.node).map fun next => (next, s.set partition ⟨next, s.node⟩)

/-- `handle_promotion`. -/
def handlePromotion (s : Server) (partition : Nat) (claim : Fence) : Reaction × Server :=
  let current := s.register partition
  if current.wins claim then
    (if claim.leader = s.node then .done else .rejoin, s.set partition claim)
  else
    let iLeadHere := current.epoch == claim.epoch && current.leader == s.node
    (if iLeadHere && claim.leader != s.node then .addLearner else .ignore, s)

/-- `current_app_epoch`. -/
def currentAppEpoch (s : Server) (partition : Nat) : Nat :=
  ((s.promotionEpoch[partition]?.filter (·.leader == s.node)).map (·.epoch)).getD 0

/-- The update of a register at the end of a hand-off, the same on both sides. -/
def adoptHandoff (s : Server) (partition : Nat) (claim : Fence) : Server :=
  let current := ((s.promotionEpoch[partition]?).map (·.epoch)).getD 0
  if current ≤ claim.epoch then s.set partition claim else s

/-- The end of `perform_handoff`, once the vote is transferred: the new epoch, which wraps. -/
def performHandoff (s : Server) (partition requester incumbentEpoch : Nat) : Nat × Server :=
  let newEpoch := (incumbentEpoch + 1) % 2 ^ 64
  (newEpoch, s.adoptHandoff partition ⟨newEpoch, requester⟩)

/-- `handle_handoff_complete`. -/
def handleHandoffComplete (s : Server) (partition : Nat) (claim : Fence) : Server := s.adoptHandoff partition claim

/-- Whether the node counts itself the leader: its register names it (`answer_promotion_solicit`, `current_app_epoch`). -/
def leads (s : Server) (partition : Nat) : Bool := s.promotionEpoch[partition]?.any (·.leader == s.node)

@[simp] theorem node_set (s : Server) (partition : Nat) (r : Fence) : (s.set partition r).node = s.node := rfl

theorem register_set (s : Server) (partition p : Nat) (r : Fence) :
    (s.set partition r).register p = if p = partition then r else s.register p := by
  by_cases hp : p = partition
  · simp [register, set, hp]
  · have hne : partition ≠ p := fun h => hp h.symm
    simp [register, set, Std.ExtTreeMap.getElem?_insert, hp, hne]

/-- A node that leads is the one its register names. -/
theorem leader_of_leads {s : Server} {partition : Nat} (h : s.leads partition = true) :
    (s.register partition).leader = s.node := by
  unfold leads at h
  cases hr : s.promotionEpoch[partition]? with
  | none => simp [hr] at h
  | some r => simpa [register, hr] using h

theorem epoch_register (s : Server) (partition : Nat) :
    (s.register partition).epoch = ((s.promotionEpoch[partition]?).map (·.epoch)).getD 0 := by
  unfold register
  cases s.promotionEpoch[partition]? <;> rfl

/-- The register of one partition takes the greater of itself and a claim. -/
structure Takes (s s' : Server) (partition : Nat) (claim : Fence) : Prop where
  node : s'.node = s.node
  register : s'.register partition = max (s.register partition) claim
  others : ∀ p, p ≠ partition → s'.register p = s.register p

theorem takes_set {s : Server} {partition : Nat} {claim : Fence} (h : s.register partition ≤ claim) :
    s.Takes (s.set partition claim) partition claim where
  node := rfl
  register := by rw [register_set, if_pos rfl, max_eq_right h]
  others p hp := by rw [register_set, if_neg hp]

theorem takes_self {s : Server} {partition : Nat} {claim : Fence} (h : claim ≤ s.register partition) :
    s.Takes s partition claim where
  node := rfl
  register := (max_eq_left h).symm
  others _ _ := rfl

theorem takes_nextPromotionEpoch {s s' : Server} {partition next : Nat}
    (h : s.nextPromotionEpoch partition = some (next, s')) : s.Takes s' partition ⟨next, s.node⟩ := by
  simp only [nextPromotionEpoch, Option.map_eq_some_iff, Prod.mk.injEq] at h
  obtain ⟨epoch, hepoch, rfl, rfl⟩ := h
  exact takes_set (Fence.le_nextEpoch hepoch)

theorem takes_handlePromotion (s : Server) (partition : Nat) (claim : Fence) :
    s.Takes (s.handlePromotion partition claim).2 partition claim := by
  unfold handlePromotion
  dsimp only
  split
  · next hwins => exact takes_set (Fence.wins_iff.mp hwins).le
  · next hwins => exact takes_self (not_lt.mp (mt Fence.wins_iff.mpr hwins))

/-- The hand-off compares epochs only: it takes the greater of the two exactly when the claim is in order. -/
theorem takes_adoptHandoff_iff {s : Server} {partition : Nat} {claim : Fence} :
    s.Takes (s.adoptHandoff partition claim) partition claim ↔ (s.register partition).InOrder claim := by
  unfold adoptHandoff
  rw [← s.epoch_register partition]
  dsimp only
  by_cases hle : (s.register partition).epoch ≤ claim.epoch
  · have horder : s.register partition ≤ claim ↔ (s.register partition).InOrder claim := by
      rw [← not_lt, Fence.lt_iff]
      unfold Fence.InOrder
      omega
    rw [if_pos hle, ← horder]
    refine ⟨fun h => ?_, takes_set⟩
    have hmax := h.register
    rw [register_set, if_pos rfl] at hmax
    exact max_eq_right_iff.mp hmax.symm
  · have hlt : claim < s.register partition := Fence.lt_iff.mpr (.inl (by omega))
    rw [if_neg hle]
    refine ⟨fun _ heq => ?_, fun _ => takes_self hlt.le⟩
    omega

end Server

/-! ## The cluster -/

/-- `ClientFrame::Promote` and `ClientFrame::HandoffComplete`. -/
inductive Message where
  | promote (partition : Nat) (claim : Fence)
  | handoffComplete (partition : Nat) (claim : Fence)
deriving DecidableEq, Repr

/-- A hand-off under way at the incumbent, with the epoch it was accepted at. -/
structure Handoff where
  incumbent : Nat
  partition : Nat
  requester : Nat
  incumbentEpoch : Nat
deriving DecidableEq, Repr

/-- The claim a hand-off makes for its requester. -/
def Handoff.claim (h : Handoff) : Fence := ⟨(h.incumbentEpoch + 1) % 2 ^ 64, h.requester⟩

/-- The nodes, every message ever sent with its addressee, the hand-offs under way, and for each node and partition the
claims that have reached the register since the node started. -/
structure Cluster where
  servers : Nat → Server := fun node => { node }
  sent : List (Nat × Message) := []
  handoffs : List Handoff := []
  heard : Nat → Nat → List Fence := fun _ _ => []

inductive Action where
  /-- The recovery tick promotes a node, which announces it to the peers it reaches. -/
  | promote (node partition : Nat) (peers : List Nat)
  /-- `answer_promotion_solicit`, for one of the partitions the node leads. -/
  | announce (node partition peer : Nat)
  /-- A message arrives; one that never does is lost, one that does twice is duplicated. -/
  | deliver (index : Nat)
  /-- `handle_handoff_request` accepts. -/
  | acceptHandoff (node partition requester : Nat)
  /-- The vote is transferred. A hand-off that is aborted is never finished. -/
  | finishHandoff (index : Nat)
  | restart (node : Nat)
deriving DecidableEq, Repr

namespace Cluster

/-- A claim has reached the register of a node, which is now `s`. -/
def received (c : Cluster) (node partition : Nat) (claim : Fence) (s : Server) : Cluster :=
  { c with
    servers := Function.update c.servers node s
    heard := fun n p => if n = node ∧ p = partition then c.heard n p ++ [claim] else c.heard n p }

def send (c : Cluster) (messages : List (Nat × Message)) : Cluster := { c with sent := c.sent ++ messages }

def step (c : Cluster) : Action → Cluster
  | .promote node partition peers =>
    match (c.servers node).nextPromotionEpoch partition with
    | none => c
    | some (next, s) =>
      (c.received node partition ⟨next, node⟩ s).send (peers.map fun peer => (peer, .promote partition ⟨next, node⟩))
  | .announce node partition peer =>
    let s := c.servers node
    if s.leads partition then c.send [(peer, .promote partition (s.register partition))] else c
  | .deliver index =>
    match c.sent[index]? with
    | none => c
    | some (node, .promote partition claim) =>
      c.received node partition claim ((c.servers node).handlePromotion partition claim).2
    | some (node, .handoffComplete partition claim) =>
      c.received node partition claim ((c.servers node).handleHandoffComplete partition claim)
  | .acceptHandoff node partition requester =>
    { c with handoffs := c.handoffs ++ [⟨node, partition, requester, (c.servers node).currentAppEpoch partition⟩] }
  | .finishHandoff index =>
    match c.handoffs[index]? with
    | none => c
    | some h =>
      let (newEpoch, s) := (c.servers h.incumbent).performHandoff h.partition h.requester h.incumbentEpoch
      { (c.received h.incumbent h.partition ⟨newEpoch, h.requester⟩ s).send
          [(h.requester, .handoffComplete h.partition ⟨newEpoch, h.requester⟩)] with
        handoffs := c.handoffs.eraseIdx index }
  | .restart node =>
    { c with
      servers := Function.update c.servers node { node }
      handoffs := c.handoffs.filter (·.incumbent != node)
      heard := fun n p => if n = node then [] else c.heard n p }

def run (c : Cluster) (actions : List Action) : Cluster := actions.foldl step c

@[simp] theorem run_nil (c : Cluster) : c.run [] = c := rfl

@[simp] theorem run_cons (c : Cluster) (a : Action) (actions : List Action) :
    c.run (a :: actions) = (c.step a).run actions := rfl

theorem run_append (c : Cluster) (before after : List Action) : c.run (before ++ after) = (c.run before).run after :=
  List.foldl_append

abbrev register (c : Cluster) (node partition : Nat) : Fence := (c.servers node).register partition

/-- The hand-off that an action brings to a register: the node, the partition and the claim. -/
def handoffClaim (c : Cluster) : Action → Option (Nat × Nat × Fence)
  | .deliver index =>
    match c.sent[index]? with
    | some (node, .handoffComplete partition claim) => some (node, partition, claim)
    | _ => none
  | .finishHandoff index => (c.handoffs[index]?).map fun h => (h.incumbent, h.partition, h.claim)
  | _ => none

/-- A hand-off that reaches a register is in order there. -/
def InOrder (c : Cluster) (a : Action) : Prop :=
  ∀ handoff ∈ c.handoffClaim a, (c.register handoff.1 handoff.2.1).InOrder handoff.2.2

instance (c : Cluster) (a : Action) : Decidable (c.InOrder a) :=
  inferInstanceAs (Decidable (∀ handoff ∈ c.handoffClaim a, _))

/-- Every hand-off of the run is. -/
def Ordered : Cluster → List Action → Prop
  | _, [] => True
  | c, a :: actions => c.InOrder a ∧ Ordered (c.step a) actions

instance decidableOrdered : ∀ c actions, Decidable (Ordered c actions)
  | _, [] => isTrue trivial
  | c, a :: actions => @instDecidableAnd _ _ _ (decidableOrdered (c.step a) actions)

theorem ordered_append {c : Cluster} {before after : List Action} :
    Ordered c (before ++ after) ↔ Ordered c before ∧ Ordered (c.run before) after := by
  induction before generalizing c with
  | nil => simp [Ordered]
  | cons a before ih => simp [Ordered, ih, and_assoc]

/-! ## One step -/

/-- What an action with its hand-off in order does to the registers: nothing, or one of them takes the greater of itself and
a claim it heard, or those of a node begin anew. -/
inductive Change (c : Cluster) (a : Action) (c' : Cluster) : Prop where
  | none (hservers : c'.servers = c.servers) (hheard : c'.heard = c.heard)
  | claim (node partition : Nat) (claim : Fence) (s : Server) (htakes : (c.servers node).Takes s partition claim)
      (hservers : c'.servers = (c.received node partition claim s).servers)
      (hheard : c'.heard = (c.received node partition claim s).heard)
  | restart (node : Nat) (ha : a = .restart node) (hservers : c'.servers = Function.update c.servers node { node })
      (hheard : c'.heard = fun n p => if n = node then [] else c.heard n p)

theorem change_step {c : Cluster} {a : Action} (hnode : ∀ n, (c.servers n).node = n) (h : c.InOrder a) :
    c.Change a (c.step a) := by
  cases a with
  | promote node partition peers =>
    cases hnext : (c.servers node).nextPromotionEpoch partition with
    | none =>
      have hstep : c.step (.promote node partition peers) = c := by simp [step, hnext]
      exact .none (by rw [hstep]) (by rw [hstep])
    | some claimed =>
      obtain ⟨next, s⟩ := claimed
      have htakes := Server.takes_nextPromotionEpoch hnext
      rw [hnode node] at htakes
      exact .claim node partition _ s htakes (by simp [step, hnext, send]) (by simp [step, hnext, send])
  | announce node partition peer =>
    by_cases hleads : (c.servers node).leads partition = true
    · exact .none (by simp [step, hleads, send]) (by simp [step, hleads, send])
    · exact .none (by simp [step, hleads]) (by simp [step, hleads])
  | deliver index =>
    cases hsent : c.sent[index]? with
    | none => exact .none (by simp [step, hsent]) (by simp [step, hsent])
    | some message =>
      obtain ⟨node, message⟩ := message
      cases message with
      | promote partition claim =>
        exact .claim node partition claim _ (Server.takes_handlePromotion _ _ _) (by simp [step, hsent]) (by simp [step, hsent])
      | handoffComplete partition claim =>
        have horder : (c.register node partition).InOrder claim := h (node, partition, claim) (by simp [handoffClaim, hsent])
        exact .claim node partition claim _ (Server.takes_adoptHandoff_iff.mpr horder) (by simp [step, hsent]; rfl)
          (by simp [step, hsent]; rfl)
  | acceptHandoff => exact .none rfl rfl
  | finishHandoff index =>
    cases hhandoff : c.handoffs[index]? with
    | none => exact .none (by simp [step, hhandoff]) (by simp [step, hhandoff])
    | some handoff =>
      have horder : (c.register handoff.incumbent handoff.partition).InOrder handoff.claim :=
        h (handoff.incumbent, handoff.partition, handoff.claim) (by simp [handoffClaim, hhandoff])
      refine .claim handoff.incumbent handoff.partition handoff.claim _ (Server.takes_adoptHandoff_iff.mpr horder) ?_ ?_
      · simp [step, hhandoff, send, Server.performHandoff, Handoff.claim]
      · simp [step, hhandoff, send, Server.performHandoff, Handoff.claim, received]
  | restart node => exact .restart node rfl rfl rfl

/-- Each node goes by its own name, and its registers hold the greatest of what they heard. -/
structure Settled (c : Cluster) : Prop where
  node : ∀ n, (c.servers n).node = n
  register : ∀ n p, c.register n p = Greatest.hold Fence.initial (c.heard n p)

theorem settled_empty : Settled {} := ⟨fun _ => rfl, fun _ _ => rfl⟩

theorem settled_step {c : Cluster} {a : Action} (hc : c.Settled) (h : c.InOrder a) : (c.step a).Settled := by
  cases change_step hc.node h with
  | none hservers hheard => exact ⟨by simpa [hservers] using hc.node, by simpa [Cluster.register, hservers, hheard] using hc.register⟩
  | claim node partition claim s htakes hservers hheard =>
    constructor
    · intro n
      rw [hservers]
      by_cases hn : n = node
      · simp [received, hn, htakes.node, hc.node]
      · simp [received, hn, hc.node]
    · intro n p
      simp only [Cluster.register, hservers, hheard, received]
      by_cases hn : n = node
      · subst hn
        by_cases hp : p = partition
        · subst hp
          simp [htakes.register, hc.register]
        · simp [hp, htakes.others p hp, hc.register]
      · simp [hn, hc.register]
  | restart node ha hservers hheard =>
    constructor
    · intro n
      rw [hservers]
      by_cases hn : n = node
      · simp [hn]
      · simp [hn, hc.node]
    · intro n p
      simp only [Cluster.register, hservers, hheard]
      by_cases hn : n = node
      · subst hn
        simp [Server.register]
      · simp [hn, hc.register]

/-- A register that does not begin anew only grows. -/
theorem register_le_step {c : Cluster} {a : Action} (hc : c.Settled) (h : c.InOrder a) {n : Nat} (hn : a ≠ .restart n)
    (p : Nat) : c.register n p ≤ (c.step a).register n p := by
  cases change_step hc.node h with
  | none hservers => simp [Cluster.register, hservers]
  | claim node partition claim s htakes hservers =>
    simp only [Cluster.register, hservers, received]
    by_cases hnode : n = node
    · subst hnode
      by_cases hp : p = partition
      · subst hp
        simp [htakes.register]
      · simp [htakes.others p hp]
    · simp [hnode]
  | restart node ha hservers =>
    have hne : n ≠ node := fun heq => hn (heq ▸ ha)
    simp [Cluster.register, hservers, hne]

/-! ## Runs -/

theorem settled_run {c : Cluster} {actions : List Action} (hc : c.Settled) (h : Ordered c actions) : (c.run actions).Settled := by
  induction actions generalizing c with
  | nil => exact hc
  | cons a actions ih => exact ih (settled_step hc h.1) h.2

theorem register_le_run {c : Cluster} {actions : List Action} (hc : c.Settled) (h : Ordered c actions) {n : Nat}
    (hn : Action.restart n ∉ actions) (p : Nat) : c.register n p ≤ (c.run actions).register n p := by
  induction actions generalizing c with
  | nil => exact le_refl _
  | cons a actions ih =>
    have hkept : a ≠ .restart n := fun ha => hn (by simp [ha])
    have hfirst := register_le_step hc h.1 hkept p
    exact hfirst.trans (ih (settled_step hc h.1) h.2 fun hmem => hn (by simp [hmem]))

/-- In every run whose hand-offs are in order, the register of a node only moves up between two restarts of the node, nodes
that heard the same claims hold the same register, a node whose register names another does not count itself the leader, and
where all registers agree at most one node does. The last two hold by what `leads` is: the node in the register is the node
itself. -/
theorem fence_registers_agree (before after : List Action) (h : Ordered {} (before ++ after)) :
    let earlier := run {} before
    let later := run {} (before ++ after)
    (∀ n p, Action.restart n ∉ after →
      later.register n p = earlier.register n p ∨ (earlier.register n p).wins (later.register n p) = true) ∧
    (∀ n m p, (∀ claim, claim ∈ later.heard n p ↔ claim ∈ later.heard m p) → later.register n p = later.register m p) ∧
    (∀ n p, (later.register n p).leader ≠ n → (later.servers n).leads p = false) ∧
    (∀ p, (∀ n m, later.register n p = later.register m p) →
      ∀ n m, (later.servers n).leads p = true → (later.servers m).leads p = true → n = m) := by
  intro earlier later
  have hsettled : later.Settled := settled_run settled_empty h
  obtain ⟨hbefore, hafter⟩ := ordered_append.mp h
  refine ⟨fun n p hn => ?_, fun n m p hsame => ?_, fun n p hleader => ?_, fun p hequal n m hlead hlead' => ?_⟩
  · have hle := register_le_run (settled_run settled_empty hbefore) hafter hn p
    rw [← run_append] at hle
    exact (eq_or_lt_of_le hle).imp Eq.symm Fence.wins_iff.mpr
  · rw [hsettled.register, hsettled.register]
    exact Greatest.hold_congr hsame
  · refine Bool.eq_false_iff.mpr fun hleads => hleader ?_
    exact (Server.leader_of_leads hleads).trans (hsettled.node n)
  · have hn := (Server.leader_of_leads hlead).trans (hsettled.node n)
    have hm := (Server.leader_of_leads hlead').trans (hsettled.node m)
    exact hn.symm.trans ((congrArg Fence.leader (hequal n m)).trans hm)

/-- Node 2 leads at epoch 1, and hands over to node 3, which asked for it. -/
def handover : List Action :=
  [.promote 2 0 [0, 3], .deliver 0, .deliver 1, .acceptHandoff 2 0 3, .finishHandoff 0, .deliver 2]

theorem fence_registers_agree_handover :
    Ordered {} (handover ++ [.deliver 1, .deliver 2]) ∧
      (run {} (handover ++ [.deliver 1, .deliver 2])).register 3 0 =
        (run {} (handover ++ [.deliver 1, .deliver 2])).register 2 0 := by
  have hordered : Ordered {} (handover ++ [.deliver 1, .deliver 2]) := by decide +kernel
  refine ⟨hordered, (fence_registers_agree handover [.deliver 1, .deliver 2] hordered).2.1 3 2 0 fun claim => ?_⟩
  have h3 : (run {} (handover ++ [.deliver 1, .deliver 2])).heard 3 0 = [⟨1, 2⟩, ⟨2, 3⟩, ⟨1, 2⟩, ⟨2, 3⟩] := by
    decide +kernel
  have h2 : (run {} (handover ++ [.deliver 1, .deliver 2])).heard 2 0 = [⟨1, 2⟩, ⟨2, 3⟩] := by decide +kernel
  rw [h3, h2]
  simp only [List.mem_cons, List.not_mem_nil, or_false]
  tauto

/-- While node 2 hands over to node 3, node 0 no longer reaches it and promotes itself; node 3 hears of that first. -/
def race : List Action :=
  [.promote 2 0 [0, 3], .deliver 0, .deliver 1, .acceptHandoff 2 0 3, .promote 0 0 [2, 3], .deliver 3, .finishHandoff 0]

/-- The hand-off takes the register of node 3 down from node 0 to node 3 at the same epoch; node 2 ends up with node 0,
though both nodes have heard the same three claims. -/
theorem handoff_moves_register_down :
    let heardFirst := run {} race
    let later := run {} (race ++ [.deliver 4, .deliver 2])
    heardFirst.register 3 0 = ⟨2, 0⟩ ∧ later.register 3 0 = ⟨2, 3⟩ ∧ later.register 2 0 = ⟨2, 0⟩ ∧
      (heardFirst.register 3 0).wins (later.register 3 0) = false ∧
      later.heard 3 0 = [⟨1, 2⟩, ⟨2, 0⟩, ⟨2, 3⟩] ∧ later.heard 2 0 = [⟨1, 2⟩, ⟨2, 3⟩, ⟨2, 0⟩] := by
  decide +kernel

end Cluster

end NanoBpm.Raft
