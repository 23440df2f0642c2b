import Mathlib.Data.List.Perm.Basic
import NanoBpm.Planner.Command
import NanoBpm.Raft.Batcher

/-!
# Runs of the propose batcher (`raft.rs:1533-1665`, `:1011-1108`)

`Placed` says where a submission is: in one entry that has been proposed, in the batch that is being filled, or in its lane,
and that each lane keeps its order. `Owed` follows the entries through `openraft` and the answers back. The turns of the task
are bounded by what has been submitted, and it can only rest when everything is proposed and answered.
-/

namespace NanoBpm.Raft.Propose

open LogStore (LogId Entry)

variable {σ : Type} {journal : Journal σ}

/-! ## Entries and lanes -/

def Submission.intake (s : Submission) : Bool := isCreationIntake s.item.command

/-- The size the batcher counts. -/
def batchBytes (subs : List Submission) : Nat := (subs.map (·.bytes)).sum

/-- An entry is not empty and within the cap on its commands, and a command was only added to what was below the byte cap. -/
structure Fits (maxBytes : Nat) (entry : List Submission) : Prop where
  ne_nil : entry ≠ []
  length_le : entry.length ≤ maxProposeBatch
  below : ∀ pre s post, entry = pre ++ s :: post → pre ≠ [] → batchBytes pre < maxBytes

theorem Fits.singleton (maxBytes : Nat) (s : Submission) : Fits maxBytes [s] := by
  refine ⟨List.cons_ne_nil _ _, by rw [List.length_singleton]; decide, fun pre t post heq hne => ?_⟩
  cases pre with
  | nil => exact absurd rfl hne
  | cons p pre =>
    have hlen := congrArg List.length heq
    simp only [List.length_append, List.length_cons, List.length_nil] at hlen
    omega

theorem Fits.snoc {maxBytes : Nat} {subs : List Submission} (h : Fits maxBytes subs) (hlen : subs.length < maxProposeBatch)
    (hbytes : batchBytes subs < maxBytes) (s : Submission) : Fits maxBytes (subs ++ [s]) := by
  refine ⟨by simp, by rw [List.length_append]; exact hlen, fun pre t post heq hne => ?_⟩
  rcases List.eq_nil_or_concat post with rfl | ⟨post, u, rfl⟩
  · rw [(List.append_inj' heq rfl).1] at hbytes
    exact hbytes
  · have hinit : subs ++ [s] = (pre ++ t :: post) ++ [u] := by
      rw [heq, List.concat_eq_append, List.append_assoc]
      rfl
    exact h.below pre t post (List.append_inj' hinit rfl).1 hne

namespace Partition

variable (maxBytes : Nat) (w : Partition σ)

/-- The batch that is being filled, and its count of bytes. -/
def filling : Option (List Submission × Nat) :=
  match w.phase with
  | .fillHi subs batchBytes | .fillLo subs batchBytes => some (subs, batchBytes)
  | _ => none

def batch : List Submission := (w.filling.map (·.1)).getD []

def lane (intake : Bool) : List Submission := if intake then w.lo else w.hi

/-- The submissions of the last entry that are still to be answered. -/
def pending : List Submission :=
  match w.phase with
  | .writing subs _ => subs
  | .answering todo => todo.map (·.1)
  | _ => []

/-- Every submission is in one place, and in order within its lane. -/
structure Placed : Prop where
  numbered : w.submitted.map (·.resp) = List.range w.submitted.length
  lanes : ∀ intake, w.submitted.filter (·.intake = intake) =
    (w.proposed.flatten ++ w.batch).filter (·.intake = intake) ++ w.lane intake
  fits : ∀ entry ∈ w.proposed, Fits maxBytes entry
  filled : ∀ subs bytes, w.filling = some (subs, bytes) → Fits maxBytes subs ∧ bytes = batchBytes subs

variable {maxBytes} {w} {w' : Partition σ}

theorem Placed.intake_of_lane (h : w.Placed maxBytes) {intake : Bool} {s : Submission} (hs : s ∈ w.lane intake) :
    s.intake = intake := by
  have hmem : s ∈ w.submitted.filter (·.intake = intake) := by
    rw [h.lanes]
    exact List.mem_append_right _ hs
  exact of_decide_eq_true (List.mem_filter.mp hmem).2

/-- The head of a lane joins the batch. -/
theorem Placed.take (h : w.Placed maxBytes) {l : Bool} {s : Submission} {rest : List Submission}
    (hlane : w.lane l = s :: rest) (hrest : w'.lane l = rest) (hother : w'.lane (!l) = w.lane (!l))
    (hsubmitted : w'.submitted = w.submitted) (hproposed : w'.proposed = w.proposed) (hbatch : w'.batch = w.batch ++ [s])
    (hfilled : ∀ subs bytes, w'.filling = some (subs, bytes) → Fits maxBytes subs ∧ bytes = batchBytes subs) :
    w'.Placed maxBytes := by
  have hs : s.intake = l := h.intake_of_lane (hlane ▸ List.mem_cons_self)
  refine ⟨hsubmitted ▸ h.numbered, fun i => ?_, hproposed ▸ h.fits, hfilled⟩
  rw [hsubmitted, hproposed, hbatch, h.lanes i, ← List.append_assoc, List.filter_append (w.proposed.flatten ++ w.batch),
    List.append_assoc]
  congr 1
  by_cases hi : i = l
  · subst hi
    rw [hlane, hrest, List.filter_singleton, hs]
    simp
  · have hnot : i = !l := by
      cases i <;> cases l <;> simp_all
    rw [hnot, hother, List.filter_singleton, hs]
    simp

/-- Nothing that `Placed` reads has changed. -/
theorem Placed.frame (h : w.Placed maxBytes) (hsubmitted : w'.submitted = w.submitted) (hproposed : w'.proposed = w.proposed)
    (hhi : w'.hi = w.hi) (hlo : w'.lo = w.lo) (hfilling : w'.filling = w.filling) : w'.Placed maxBytes := by
  have hlane : w'.lane = w.lane := by
    funext intake
    unfold lane
    rw [hhi, hlo]
  have hbatch : w'.batch = w.batch := by
    unfold batch
    rw [hfilling]
  refine ⟨hsubmitted ▸ h.numbered, fun intake => ?_, hproposed ▸ h.fits, hfilling ▸ h.filled⟩
  rw [hsubmitted, hproposed, hbatch, hlane]
  exact h.lanes intake

theorem Placed.submit (h : w.Placed maxBytes) {item : ReplicatedCommand} (hstep : w.step journal maxBytes (.submit item) = some w') :
    w'.Placed maxBytes := by
  obtain ⟨s, hs⟩ : ∃ s : Submission, s = ⟨item, w.submitted.length⟩ := ⟨_, rfl⟩
  have hnumbered : (w.submitted ++ [s]).map (·.resp) = List.range (w.submitted ++ [s]).length := by
    rw [List.map_append, List.length_append, List.length_singleton, List.range_succ, h.numbered, hs]
    rfl
  have hlanes : ∀ intake, (w.submitted ++ [s]).filter (·.intake = intake) =
      (w.proposed.flatten ++ w.batch).filter (·.intake = intake) ++ (w.lane intake ++ if s.intake = intake then [s] else []) := by
    intro intake
    rw [List.filter_append, h.lanes, List.append_assoc, List.filter_singleton]
    congr 2
    by_cases hin : s.intake = intake <;> simp [hin]
  have hintake : s.intake = isCreationIntake item.command := by rw [hs]; rfl
  simp only [step, Option.some.injEq] at hstep
  rw [← hs] at hstep
  cases hin : isCreationIntake item.command with
  | true =>
    rw [hin, if_pos rfl] at hstep
    obtain rfl := hstep
    refine ⟨hnumbered, fun intake => (hlanes intake).trans ?_, h.fits, h.filled⟩
    rw [hintake, hin]
    cases intake
    · exact congrArg _ (List.append_nil _)
    · rfl
  | false =>
    rw [hin, if_neg Bool.false_ne_true] at hstep
    obtain rfl := hstep
    refine ⟨hnumbered, fun intake => (hlanes intake).trans ?_, h.fits, h.filled⟩
    rw [hintake, hin]
    cases intake
    · rfl
    · exact congrArg _ (List.append_nil _)

theorem Placed.select (h : w.Placed maxBytes) (hstep : w.step journal maxBytes .select = some w') : w'.Placed maxBytes := by
  have hfilled : ∀ (s : Submission) (subs : List Submission) (bytes : Nat), some ([s], s.bytes) = some (subs, bytes) →
      Fits maxBytes subs ∧ bytes = batchBytes subs := by
    rintro s subs bytes ⟨⟩
    exact ⟨.singleton maxBytes s, by simp [batchBytes]⟩
  simp only [step] at hstep
  split at hstep
  · next s hi hphase hhi =>
    obtain rfl := Option.some.inj hstep
    have hbatch : w.batch = [] := by
      unfold batch filling
      rw [hphase]
      rfl
    refine h.take (l := false) hhi rfl rfl rfl rfl ?_ (hfilled s)
    rw [hbatch]
    rfl
  · next s lo hphase hhi hlo =>
    obtain rfl := Option.some.inj hstep
    have hbatch : w.batch = [] := by
      unfold batch filling
      rw [hphase]
      rfl
    refine h.take (l := true) hlo rfl rfl rfl rfl ?_ (hfilled s)
    rw [hbatch]
    rfl
  · cases hstep

theorem Placed.drainHi (h : w.Placed maxBytes) (hstep : w.step journal maxBytes .drainHi = some w') : w'.Placed maxBytes := by
  simp only [step] at hstep
  split at hstep
  · next subs bytes hphase =>
    have hfilling : w.filling = some (subs, bytes) := by
      unfold filling
      rw [hphase]
    have hend : ∀ u, some { w with phase := .fillLo subs bytes } = some u → u.Placed maxBytes := by
      rintro u ⟨⟩
      exact h.frame rfl rfl rfl rfl hfilling.symm
    split at hstep
    · next hcaps =>
      split at hstep
      · next s hi hhi =>
        obtain rfl := Option.some.inj hstep
        obtain ⟨hfits, hbytes⟩ := h.filled subs bytes hfilling
        refine h.take (l := false) hhi rfl rfl rfl rfl ?_ ?_
        · unfold batch
          rw [hfilling]
          rfl
        · rintro _ _ ⟨⟩
          refine ⟨hfits.snoc hcaps.1 (hbytes ▸ hcaps.2) s, ?_⟩
          rw [hbytes]
          simp [batchBytes]
      · exact hend w' hstep
    · exact hend w' hstep
  · cases hstep

theorem Placed.drainLo (h : w.Placed maxBytes) (hstep : w.step journal maxBytes .drainLo = some w') : w'.Placed maxBytes := by
  simp only [step] at hstep
  split at hstep
  · next subs bytes hphase =>
    have hfilling : w.filling = some (subs, bytes) := by
      unfold filling
      rw [hphase]
    obtain ⟨hfits, hbytes⟩ := h.filled subs bytes hfilling
    have hbatch : w.batch = subs := by
      unfold batch
      rw [hfilling]
      rfl
    have hpropose : ∀ u, some { w with proposed := w.proposed ++ [subs], phase := .writing subs false } = some u →
        u.Placed maxBytes := by
      rintro u ⟨⟩
      refine ⟨h.numbered, fun intake => ?_, ?_, nofun⟩
      · rw [h.lanes, hbatch]
        rw [List.flatten_append, List.flatten_singleton]
        exact congrArg (fun t => t.filter (·.intake = intake) ++ w.lane intake) (List.append_nil _).symm
      · intro entry hentry
        rcases List.mem_append.mp hentry with hentry | hentry
        · exact h.fits entry hentry
        · exact List.mem_singleton.mp hentry ▸ hfits
    split at hstep
    · next hcaps =>
      split at hstep
      · next s lo hlo =>
        obtain rfl := Option.some.inj hstep
        refine h.take (l := true) hlo rfl rfl rfl rfl ?_ ?_
        · rw [hbatch]
          rfl
        · rintro _ _ ⟨⟩
          refine ⟨hfits.snoc hcaps.1 (hbytes ▸ hcaps.2) s, ?_⟩
          rw [hbytes]
          simp [batchBytes]
      · exact hpropose w' hstep
    · exact hpropose w' hstep
  · cases hstep

theorem Placed.step (h : w.Placed maxBytes) {a : Action σ} (hstep : w.step journal maxBytes a = some w') : w'.Placed maxBytes := by
  have hwriting : ∀ {subs acc} {u : Partition σ}, w.phase = .writing subs acc → u.filling = none → u.filling = w.filling := by
    intro subs acc u hphase hnone
    rw [hnone]
    unfold filling
    rw [hphase]
  cases a with
  | submit item => exact h.submit hstep
  | select => exact h.select hstep
  | drainHi => exact h.drainHi hstep
  | drainLo => exact h.drainLo hstep
  | accept logId =>
    simp only [Partition.step] at hstep
    split at hstep
    · next subs hphase =>
      obtain rfl := Option.some.inj hstep
      exact h.frame rfl rfl rfl rfl (hwriting hphase rfl)
    · cases hstep
  | other entry =>
    obtain rfl := Option.some.inj hstep
    exact h.frame rfl rfl rfl rfl rfl
  | lose kept =>
    obtain rfl := Option.some.inj hstep
    exact h.frame rfl rfl rfl rfl rfl
  | apply count =>
    obtain rfl := Option.some.inj hstep
    exact h.frame rfl rfl rfl rfl rfl
  | job f =>
    obtain rfl := Option.some.inj hstep
    exact h.frame rfl rfl rfl rfl rfl
  | written =>
    simp only [Partition.step] at hstep
    split at hstep
    · next subs acc hphase =>
      obtain ⟨res, -, rfl⟩ := Option.map_eq_some_iff.mp hstep
      exact h.frame rfl rfl rfl rfl (hwriting hphase rfl)
    · cases hstep
  | failed msg =>
    simp only [Partition.step] at hstep
    split at hstep
    · next subs acc hphase =>
      obtain rfl := Option.some.inj hstep
      exact h.frame rfl rfl rfl rfl (hwriting hphase rfl)
    · cases hstep
  | answer =>
    simp only [Partition.step] at hstep
    split at hstep
    · next hphase =>
      obtain rfl := Option.some.inj hstep
      refine h.frame rfl rfl rfl rfl ?_
      unfold filling
      rw [hphase]
    · next s a todo hphase =>
      obtain rfl := Option.some.inj hstep
      refine h.frame rfl rfl rfl rfl ?_
      unfold filling
      rw [hphase]
    · cases hstep

end Partition

/-! ## What `apply` answers -/

variable (journal) in
/-- The item of the command at a place of a batch: what it yields on the engine that the commands before it leave. -/
def outcomeAt (engine : σ) (batch : List ReplicatedCommand) (pos : Nat) : Option ReplicatedItem :=
  batch[pos]?.map fun c => (applyCommand journal (applyBatch journal engine (batch.take pos)).2 c).1

/-- One item a command, each in the place of its command. -/
theorem getElem?_applyBatch (engine : σ) (batch : List ReplicatedCommand) (pos : Nat) :
    (applyBatch journal engine batch).1[pos]? = outcomeAt journal engine batch pos := by
  induction batch generalizing engine pos with
  | nil => rfl
  | cons c batch ih =>
    cases pos with
    | zero => rfl
    | succ pos => exact ih (applyCommand journal engine c).2 pos

theorem length_applyBatch (engine : σ) (batch : List ReplicatedCommand) :
    (applyBatch journal engine batch).1.length = batch.length := by
  induction batch generalizing engine with
  | nil => rfl
  | cons c batch ih => exact congrArg (· + 1) (ih _)

theorem items_applyEntry {sm : StateMachine σ} {entry : Entry EntryPayload} {batch : List ReplicatedCommand}
    (h : entry.payload = .normal batch) : (applyEntry journal sm entry).1.items = (applyBatch journal sm.engine batch).1 := by
  unfold applyEntry
  rw [h]

/-- The entry of a ticket, as it has been applied, accounts for the response. -/
def Accounts (journal : Journal σ) (r : Applied σ) (t : Nat) (res : ReplicatedResponse) : Prop :=
  r.ticket = some t ∧ ∀ batch, r.payload = .normal batch → res.items = (applyBatch journal r.before batch).1

theorem accounts_history (sm : StateMachine σ) (entries : List (Option Nat × Entry EntryPayload)) {t : Nat} {res : ReplicatedResponse}
    (h : (t, res) ∈ (entries.zip (apply journal sm (entries.map (·.2))).1).filterMap fun (entry, response) =>
      entry.1.map (·, response)) :
    ∃ r ∈ history journal sm entries, Accounts journal r t res := by
  induction entries generalizing sm with
  | nil => cases h
  | cons e entries ih =>
    obtain ⟨ticket, entry⟩ := e
    obtain ⟨⟨x, response⟩, hx, heq⟩ := List.mem_filterMap.mp h
    rcases List.mem_cons.mp hx with hx | hx
    · obtain ⟨rfl, rfl⟩ := Prod.mk.inj hx
      obtain ⟨t', ht', heq⟩ := Option.map_eq_some_iff.mp heq
      obtain ⟨rfl, rfl⟩ := Prod.mk.inj heq
      exact ⟨_, List.mem_cons_self, ht', fun batch hbatch => items_applyEntry hbatch⟩
    · obtain ⟨r, hr, hacc⟩ := ih (applyEntry journal sm entry).2 (List.mem_filterMap.mpr ⟨_, hx, heq⟩)
      exact ⟨r, List.mem_cons_of_mem _ hr, hacc⟩

theorem tickets_history (sm : StateMachine σ) (entries : List (Option Nat × Entry EntryPayload)) :
    (history journal sm entries).filterMap (·.ticket) = entries.filterMap (·.1) := by
  induction entries generalizing sm with
  | nil => rfl
  | cons e entries ih =>
    obtain ⟨ticket, entry⟩ := e
    rw [history, List.filterMap_cons, List.filterMap_cons, ih]

theorem mem_history {sm : StateMachine σ} {entries : List (Option Nat × Entry EntryPayload)} {r : Applied σ}
    (h : r ∈ history journal sm entries) : ∃ entry, (r.ticket, entry) ∈ entries ∧ r.payload = entry.payload := by
  induction entries generalizing sm with
  | nil => cases h
  | cons e entries ih =>
    obtain ⟨ticket, entry⟩ := e
    rcases List.mem_cons.mp h with rfl | h
    · exact ⟨entry, List.mem_cons_self, rfl⟩
    · obtain ⟨entry', hmem, hpayload⟩ := ih h
      exact ⟨entry', List.mem_cons_of_mem _ hmem, hpayload⟩

theorem map_fst_pairUp (subs : List Submission) (out : List ReplicatedItem) : (pairUp subs out).map (·.1) = subs := by
  unfold pairUp
  split
  · next hlen =>
    rw [List.map_fst_zip]
    rw [List.length_map]
    exact hlen.ge
  · rw [List.map_map]
    exact List.map_id subs

namespace Partition

variable {maxBytes : Nat} {w w' : Partition σ}

/-! ## Answers -/

/-- The item is the outcome of the submission's own command: its batch has been applied, the command in its place. -/
def Outcome (journal : Journal σ) (w : Partition σ) (s : Submission) (item : ReplicatedItem) : Prop :=
  ∃ t subs pos, w.proposed[t]? = some subs ∧ subs[pos]? = some s ∧
    ∃ r ∈ w.applied, r.ticket = some t ∧ r.payload = .normal (subs.map (·.item)) ∧
      outcomeAt journal r.before (subs.map (·.item)) pos = some item

/-- The tickets of the entries that have been accepted and not lost. -/
def tickets (w : Partition σ) : List Nat := w.applied.filterMap (·.ticket) ++ w.log.filterMap (·.1)

/-- The answers that are about to be sent. -/
def todo (w : Partition σ) : List (Submission × Answer) :=
  match w.phase with
  | .answering todo => todo
  | _ => []

/-- The batch of a ticket is in the entry. -/
def Carries (w : Partition σ) (t : Nat) (payload : EntryPayload) : Prop :=
  ∃ subs, w.proposed[t]? = some subs ∧ payload = .normal (subs.map (·.item))

/-- The entries on their way through `openraft`, and the answers on their way back. -/
structure Owed (journal : Journal σ) (w : Partition σ) : Prop where
  current : ∀ subs acc, w.phase = .writing subs acc → w.proposed.getLast? = some subs
  sent : w.answers.map (·.1) ++ w.pending.map (·.resp) = w.proposed.flatten.map (·.resp)
  nodup : w.tickets.Nodup
  known : ∀ t ∈ w.tickets, t < w.proposed.length
  fresh : ∀ subs, w.phase = .writing subs false → w.proposed.length - 1 ∉ w.tickets
  logged : ∀ t entry, (some t, entry) ∈ w.log → w.Carries t entry.payload
  ran : ∀ r ∈ w.applied, ∀ t, r.ticket = some t → w.Carries t r.payload
  responded : ∀ t res, (t, res) ∈ w.done → ∃ r ∈ w.applied, Accounts journal r t res
  owed : ∀ s item, (s, .ok item) ∈ w.todo → Outcome journal w s item
  own : ∀ i item, (i, .ok item) ∈ w.answers → ∃ s, s.resp = i ∧ Outcome journal w s item

theorem getElem?_of_grows {α : Type} {xs ys : List α} {i : Nat} {a : α} (h : xs <+: ys) (hi : xs[i]? = some a) : ys[i]? = some a := by
  obtain ⟨rest, rfl⟩ := h
  obtain ⟨hlt, -⟩ := List.getElem?_eq_some_iff.mp hi
  rw [List.getElem?_append_left hlt, hi]

theorem Outcome.mono {s : Submission} {item : ReplicatedItem} (h : Outcome journal w s item)
    (hproposed : w.proposed <+: w'.proposed) (happlied : w.applied ⊆ w'.applied) : Outcome journal w' s item := by
  obtain ⟨t, subs, pos, ht, hpos, r, hr, hrest⟩ := h
  exact ⟨t, subs, pos, getElem?_of_grows hproposed ht, hpos, r, happlied hr, hrest⟩

theorem Carries.mono {t : Nat} {payload : EntryPayload} (h : w.Carries t payload) (hproposed : w.proposed <+: w'.proposed) :
    w'.Carries t payload := by
  obtain ⟨subs, ht, hpayload⟩ := h
  exact ⟨subs, getElem?_of_grows hproposed ht, hpayload⟩

/-- Nothing is proposed, accepted or applied. -/
theorem Owed.frame (h : w.Owed journal) (hproposed : w'.proposed = w.proposed) (happlied : w'.applied = w.applied)
    (hdone : w'.done = w.done) (hlog : ∀ t entry, (some t, entry) ∈ w'.log → (some t, entry) ∈ w.log)
    (htickets : List.Sublist (w'.log.filterMap (·.1)) (w.log.filterMap (·.1)))
    (hphase : ∀ subs acc, w'.phase = .writing subs acc → w.phase = .writing subs acc)
    (hsent : w'.answers.map (·.1) ++ w'.pending.map (·.resp) = w.answers.map (·.1) ++ w.pending.map (·.resp))
    (htodo : ∀ s item, (s, .ok item) ∈ w'.todo → Outcome journal w s item)
    (hown : ∀ i item, (i, .ok item) ∈ w'.answers → (i, .ok item) ∈ w.answers ∨ ∃ s, s.resp = i ∧ (s, .ok item) ∈ w.todo) :
    w'.Owed journal := by
  have hsub : List.Sublist w'.tickets w.tickets := by
    unfold tickets
    rw [happlied]
    exact htickets.append_left _
  have hmono : ∀ s item, Outcome journal w s item → Outcome journal w' s item := fun s item ho =>
    ho.mono (hproposed ▸ List.prefix_rfl) (happlied ▸ List.Subset.refl _)
  have hcarries : ∀ t payload, w.Carries t payload → w'.Carries t payload := fun t payload hc =>
    hc.mono (hproposed ▸ List.prefix_rfl)
  refine ⟨fun subs acc hw => ?_, ?_, hsub.nodup h.nodup, fun t ht => ?_, fun subs hw ht => ?_, fun t entry he => ?_,
    fun r hr t ht => ?_, fun t res hres => ?_, fun s item hs => hmono s item (htodo s item hs), fun i item hi => ?_⟩
  · rw [hproposed]
    exact h.current subs acc (hphase subs acc hw)
  · rw [hsent, hproposed]
    exact h.sent
  · rw [hproposed]
    exact h.known t (hsub.mem ht)
  · rw [hproposed] at ht
    exact h.fresh subs (hphase subs false hw) (hsub.mem ht)
  · exact hcarries t entry.payload (h.logged t entry (hlog t entry he))
  · rw [happlied] at hr
    exact hcarries t r.payload (h.ran r hr t ht)
  · rw [hdone] at hres
    rw [happlied]
    exact h.responded t res hres
  · rcases hown i item hi with hi | ⟨s, hs, htodo⟩
    · obtain ⟨s, hs, ho⟩ := h.own i item hi
      exact ⟨s, hs, hmono s item ho⟩
    · exact ⟨s, hs, hmono s item (h.owed s item htodo)⟩

/-- The batch goes to `client_write`, under a new ticket. -/
theorem Owed.propose (h : w.Owed journal) {subs : List Submission} (hpending : w.pending = []) :
    Owed journal { w with proposed := w.proposed ++ [subs], phase := .writing subs false } := by
  have hgrows : w.proposed <+: w.proposed ++ [subs] := List.prefix_append _ _
  refine ⟨?_, ?_, h.nodup, fun t ht => ?_, fun subs' _ ht => ?_, fun t entry he => (h.logged t entry he).mono hgrows,
    fun r hr t ht => (h.ran r hr t ht).mono hgrows, h.responded, fun _ _ hs => absurd hs List.not_mem_nil, fun i item hi => ?_⟩
  · rintro _ _ ⟨⟩
    exact List.getLast?_concat
  · have hsent := h.sent
    rw [hpending, List.map_nil, List.append_nil] at hsent
    simp only [List.flatten_append, List.flatten_singleton, List.map_append, ← hsent]
    rfl
  · have := h.known t ht
    simp only [List.length_append, List.length_singleton]
    omega
  · have := h.known _ ht
    simp only [List.length_append, List.length_singleton] at this
    omega
  · obtain ⟨s, hs, ho⟩ := h.own i item hi
    exact ⟨s, hs, ho.mono hgrows (List.Subset.refl _)⟩

/-- `openraft` accepts the entry. -/
theorem Owed.accept (h : w.Owed journal) {subs : List Submission} (hphase : w.phase = .writing subs false) (logId : LogId) :
    Owed journal { w with
      log := w.log ++ [(some (w.proposed.length - 1), ⟨logId, .normal (subs.map (·.item))⟩)], phase := .writing subs true } := by
  have hlast := h.current subs false hphase
  have hplace : w.proposed[w.proposed.length - 1]? = some subs := by rw [← List.getLast?_eq_getElem?, hlast]
  have htickets : tickets { w with
      log := w.log ++ [(some (w.proposed.length - 1), ⟨logId, .normal (subs.map (·.item))⟩)], phase := .writing subs true } =
      w.tickets ++ [w.proposed.length - 1] := by
    unfold tickets
    rw [List.filterMap_append, List.append_assoc]
    rfl
  refine ⟨?_, ?_, ?_, fun t ht => ?_, fun _ hw => absurd (Phase.writing.inj hw).2 (by decide), fun t entry he => ?_, h.ran,
    h.responded, fun _ _ hs => absurd hs List.not_mem_nil, h.own⟩
  · rintro _ _ ⟨⟩
    exact hlast
  · have hsent := h.sent
    unfold pending at hsent
    rw [hphase] at hsent
    exact hsent
  · rw [htickets]
    exact List.nodup_append.mpr ⟨h.nodup, List.nodup_singleton _, fun t ht t' ht' heq =>
      h.fresh subs hphase (List.mem_singleton.mp ht' ▸ heq ▸ ht)⟩
  · rw [htickets] at ht
    rcases List.mem_append.mp ht with ht | ht
    · exact h.known t ht
    · rw [List.mem_singleton.mp ht]
      exact (List.getElem?_eq_some_iff.mp hplace).1
  · rcases List.mem_append.mp he with he | he
    · exact h.logged t entry he
    · obtain ⟨ht, rfl⟩ := Prod.mk.inj (List.mem_singleton.mp he)
      obtain rfl := Option.some.inj ht
      exact ⟨subs, hplace, rfl⟩

/-- `apply` on the next entries. -/
theorem Owed.apply (h : w.Owed journal) {count : Nat} (hstep : w.step journal maxBytes (.apply count) = some w') :
    w'.Owed journal := by
  obtain rfl := Option.some.inj hstep
  have happlied : w.applied ⊆ w.applied ++ history journal w.machine (w.log.take count) := List.subset_append_left _ _
  have htickets : tickets { w with
      log := w.log.drop count
      machine := (Propose.apply journal w.machine ((w.log.take count).map (·.2))).2
      applied := w.applied ++ history journal w.machine (w.log.take count)
      done := w.done ++ ((w.log.take count).zip (Propose.apply journal w.machine ((w.log.take count).map (·.2))).1).filterMap
        fun (entry, response) => entry.1.map (·, response) } = w.tickets := by
    unfold tickets
    simp only
    rw [List.filterMap_append, tickets_history, List.append_assoc, ← List.filterMap_append, List.take_append_drop]
  refine ⟨h.current, h.sent, htickets.symm ▸ h.nodup, fun t ht => h.known t (htickets ▸ ht), fun subs hw ht =>
    h.fresh subs hw (htickets ▸ ht), fun t entry he => h.logged t entry (List.mem_of_mem_drop he), fun r hr t ht => ?_,
    fun t res hres => ?_, fun s item hs => (h.owed s item hs).mono List.prefix_rfl happlied, fun i item hi => ?_⟩
  · rcases List.mem_append.mp hr with hr | hr
    · exact h.ran r hr t ht
    · obtain ⟨entry, hentry, hpayload⟩ := mem_history hr
      rw [ht] at hentry
      rw [hpayload]
      exact h.logged t entry (List.mem_of_mem_take hentry)
  · rcases List.mem_append.mp hres with hres | hres
    · obtain ⟨r, hr, hacc⟩ := h.responded t res hres
      exact ⟨r, happlied hr, hacc⟩
    · obtain ⟨r, hr, hacc⟩ := accounts_history w.machine (w.log.take count) hres
      exact ⟨r, List.mem_append_right _ hr, hacc⟩
  · obtain ⟨s, hs, ho⟩ := h.own i item hi
    exact ⟨s, hs, ho.mono List.prefix_rfl happlied⟩

/-- The response to the entry: its items are the outcomes of the commands of its batch, in their places. -/
theorem Owed.outcome (h : w.Owed journal) {subs : List Submission} {acc : Bool} (hphase : w.phase = .writing subs acc)
    {res : ReplicatedResponse} (hres : w.done.lookup (w.proposed.length - 1) = some res) {s : Submission} {item : ReplicatedItem}
    (hs : (s, .ok item) ∈ pairUp subs res.items) : Outcome journal w s item := by
  have hplace : w.proposed[w.proposed.length - 1]? = some subs := by
    rw [← List.getLast?_eq_getElem?]
    exact h.current subs acc hphase
  obtain ⟨before, after, hdone, -⟩ := List.lookup_eq_some_iff.mp hres
  obtain ⟨r, hr, hticket, hitems⟩ := h.responded _ res (hdone ▸ List.mem_append_right _ List.mem_cons_self)
  obtain ⟨subs', hsubs', hpayload⟩ := h.ran r hr _ hticket
  obtain rfl := Option.some.inj (hplace.symm.trans hsubs')
  have hlen : res.items.length = subs.length := by rw [hitems _ hpayload, length_applyBatch, List.length_map]
  unfold pairUp at hs
  rw [if_pos hlen] at hs
  obtain ⟨pos, hpos⟩ := List.mem_iff_getElem?.mp hs
  obtain ⟨hsub, hitem⟩ := List.getElem?_zip_eq_some.mp hpos
  refine ⟨_, subs, pos, hplace, hsub, r, hr, hticket, hpayload, ?_⟩
  rw [← getElem?_applyBatch, ← hitems _ hpayload]
  rw [List.getElem?_map] at hitem
  obtain ⟨item', hitem', heq⟩ := Option.map_eq_some_iff.mp hitem
  rw [hitem', Except.ok.inj heq]

theorem Owed.step (h : w.Owed journal) {a : Action σ} (hstep : w.step journal maxBytes a = some w') : w'.Owed journal := by
  -- the turns of the filling loops, and what only moves submissions
  have hsame : ∀ u : Partition σ, u.proposed = w.proposed → u.applied = w.applied → u.done = w.done → u.log = w.log →
      u.answers = w.answers → u.pending = w.pending → u.todo = w.todo →
      (∀ subs acc, u.phase = .writing subs acc → w.phase = .writing subs acc) → u.Owed journal := by
    intro u hproposed happlied hdone hlog hanswers hpending htodo hphase
    refine h.frame hproposed happlied hdone (fun t entry he => hlog ▸ he) (hlog ▸ List.Sublist.refl _) hphase
      (by rw [hanswers, hpending]) (fun s item hs => h.owed s item (htodo ▸ hs)) (fun i item hi => .inl (hanswers ▸ hi))
  cases a with
  | submit item =>
    obtain rfl := Option.some.inj hstep
    split <;> exact hsame _ rfl rfl rfl rfl rfl rfl rfl fun _ _ hw => hw
  | select =>
    simp only [Partition.step] at hstep
    split at hstep
    · next hphase _ =>
      obtain rfl := Option.some.inj hstep
      exact hsame _ rfl rfl rfl rfl rfl (by unfold pending; rw [hphase]) (by unfold todo; rw [hphase]) nofun
    · next hphase _ _ =>
      obtain rfl := Option.some.inj hstep
      exact hsame _ rfl rfl rfl rfl rfl (by unfold pending; rw [hphase]) (by unfold todo; rw [hphase]) nofun
    · cases hstep
  | drainHi =>
    simp only [Partition.step] at hstep
    split at hstep
    · next subs bytes hphase =>
      have hpending : w.pending = [] := by
        unfold pending
        rw [hphase]
      have htodo : w.todo = [] := by
        unfold todo
        rw [hphase]
      split at hstep
      · split at hstep <;> obtain rfl := Option.some.inj hstep <;>
          exact hsame _ rfl rfl rfl rfl rfl hpending.symm htodo.symm nofun
      · obtain rfl := Option.some.inj hstep
        exact hsame _ rfl rfl rfl rfl rfl hpending.symm htodo.symm nofun
    · cases hstep
  | drainLo =>
    simp only [Partition.step] at hstep
    split at hstep
    · next subs bytes hphase =>
      have hpending : w.pending = [] := by
        unfold pending
        rw [hphase]
      have htodo : w.todo = [] := by
        unfold todo
        rw [hphase]
      split at hstep
      · split at hstep <;> obtain rfl := Option.some.inj hstep
        · exact hsame _ rfl rfl rfl rfl rfl hpending.symm htodo.symm nofun
        · exact h.propose hpending
      · obtain rfl := Option.some.inj hstep
        exact h.propose hpending
    · cases hstep
  | accept logId =>
    simp only [Partition.step] at hstep
    split at hstep
    · next subs hphase =>
      obtain rfl := Option.some.inj hstep
      exact h.accept hphase logId
    · cases hstep
  | other entry =>
    obtain rfl := Option.some.inj hstep
    have htickets : (w.log ++ [(none, entry)]).filterMap Prod.fst = w.log.filterMap Prod.fst := by
      rw [List.filterMap_append]
      exact List.append_nil _
    refine h.frame rfl rfl rfl (fun t entry he => ?_) (htickets ▸ List.Sublist.refl _) (fun _ _ hw => hw) rfl h.owed
      (fun _ _ hi => .inl hi)
    rcases List.mem_append.mp he with he | he
    · exact he
    · cases (Prod.mk.inj (List.mem_singleton.mp he)).1
  | lose kept =>
    obtain rfl := Option.some.inj hstep
    have hsub : List.Sublist ((w.log.take kept).filterMap (·.1)) (w.log.filterMap (·.1)) := (List.take_sublist _ _).filterMap _
    exact h.frame rfl rfl rfl (fun _ _ he => List.mem_of_mem_take he) hsub (fun _ _ hw => hw) rfl h.owed (fun _ _ hi => .inl hi)
  | apply count => exact h.apply hstep
  | job f =>
    obtain rfl := Option.some.inj hstep
    exact hsame _ rfl rfl rfl rfl rfl rfl rfl fun _ _ hw => hw
  | written =>
    simp only [Partition.step] at hstep
    split at hstep
    · next subs acc hphase =>
      obtain ⟨res, hres, rfl⟩ := Option.map_eq_some_iff.mp hstep
      have hpending : w.pending = subs := by
        unfold pending
        rw [hphase]
      refine h.frame rfl rfl rfl (fun _ _ he => he) (List.Sublist.refl _) nofun ?_
        (fun s item hs => h.outcome hphase hres hs) (fun _ _ hi => .inl hi)
      rw [hpending]
      exact congrArg (w.answers.map (·.1) ++ ·) (congrArg (List.map (·.resp)) (map_fst_pairUp subs res.items))
    · cases hstep
  | failed msg =>
    simp only [Partition.step] at hstep
    split at hstep
    · next subs acc hphase =>
      obtain rfl := Option.some.inj hstep
      have hpending : w.pending = subs := by
        unfold pending
        rw [hphase]
      refine h.frame rfl rfl rfl (fun _ _ he => he) (List.Sublist.refl _) nofun ?_ (fun s item hs => ?_) (fun _ _ hi => .inl hi)
      · rw [hpending]
        refine congrArg (w.answers.map (·.1) ++ ·) (congrArg (List.map Submission.resp) ?_)
        exact (List.map_map ..).trans (List.map_id subs)
      · obtain ⟨_, _, heq⟩ := List.mem_map.mp hs
        cases (Prod.mk.inj heq).2
    · cases hstep
  | answer =>
    simp only [Partition.step] at hstep
    split at hstep
    · next hphase =>
      obtain rfl := Option.some.inj hstep
      exact hsame _ rfl rfl rfl rfl rfl (by unfold pending; rw [hphase]; rfl) (by unfold todo; rw [hphase]) nofun
    · next s a rest hphase =>
      obtain rfl := Option.some.inj hstep
      have htodo : w.todo = (s, a) :: rest := by
        unfold todo
        rw [hphase]
      have hpending : w.pending = s :: rest.map (·.1) := by
        unfold pending
        rw [hphase]
        rfl
      refine h.frame rfl rfl rfl (fun _ _ he => he) (List.Sublist.refl _) nofun ?_
        (fun s' item hs => h.owed s' item (htodo ▸ List.mem_cons_of_mem _ hs)) (fun i item hi => ?_)
      · rw [hpending, List.map_append, List.append_assoc]
        rfl
      · rcases List.mem_append.mp hi with hi | hi
        · exact .inl hi
        · obtain ⟨rfl, rfl⟩ := Prod.mk.inj (List.mem_singleton.mp hi)
          exact .inr ⟨s, rfl, htodo ▸ List.mem_cons_self⟩
    · cases hstep

/-! ## The turns of the task -/

end Partition

/-- A turn of the batcher's task. -/
def Action.isTurn : Action σ → Bool
  | .select | .drainHi | .drainLo | .written | .failed _ | .answer => true
  | _ => false

def Action.isSubmit : Action σ → Bool
  | .submit _ => true
  | _ => false

namespace Partition

variable {maxBytes : Nat} {w w' : Partition σ}

/-- The turns that are left for what is queued and under way. -/
def work (w : Partition σ) : Nat :=
  6 * (w.hi.length + w.lo.length) +
    match w.phase with
    | .idle => 0
    | .fillHi subs _ => subs.length + 4
    | .fillLo subs _ => subs.length + 3
    | .writing subs _ => subs.length + 2
    | .answering todo => todo.length + 1

/-- The task is at rest, and nothing is queued. -/
def Quiet (w : Partition σ) : Prop := w.phase = .idle ∧ w.hi = [] ∧ w.lo = []

/-- A turn takes one off the work, and a submission brings six turns at most. -/
theorem work_step {a : Action σ} (hstep : w.step journal maxBytes a = some w') :
    w'.work + (if a.isTurn then 1 else 0) ≤ w.work + 6 * if a.isSubmit then 1 else 0 := by
  cases a with
  | submit item =>
    obtain rfl := Option.some.inj hstep
    simp only [Action.isTurn, Action.isSubmit, Bool.false_eq_true, if_false, if_true, work]
    split <;> simp only [List.length_append, List.length_singleton] <;> omega
  | select =>
    simp only [step] at hstep
    split at hstep
    · next s hi hphase hhi =>
      obtain rfl := Option.some.inj hstep
      simp only [Action.isTurn, Action.isSubmit, Bool.false_eq_true, if_false, if_true, work, hphase, hhi, List.length_cons,
        List.length_nil]
      omega
    · next s lo hphase hhi hlo =>
      obtain rfl := Option.some.inj hstep
      simp only [Action.isTurn, Action.isSubmit, Bool.false_eq_true, if_false, if_true, work, hphase, hhi, hlo, List.length_cons,
        List.length_nil]
      omega
    · cases hstep
  | drainHi =>
    simp only [step] at hstep
    split at hstep
    · next subs bytes hphase =>
      have hwork : w.work = 6 * (w.hi.length + w.lo.length) + (subs.length + 4) := by
        unfold work
        rw [hphase]
      split at hstep
      · split at hstep
        · next s hi hhi =>
          obtain rfl := Option.some.inj hstep
          rw [hwork, hhi]
          simp only [Action.isTurn, Action.isSubmit, Bool.false_eq_true, if_false, if_true, work, List.length_cons,
            List.length_append, List.length_nil]
          omega
        · obtain rfl := Option.some.inj hstep
          rw [hwork]
          exact le_rfl
      · obtain rfl := Option.some.inj hstep
        rw [hwork]
        exact le_rfl
    · cases hstep
  | drainLo =>
    simp only [step] at hstep
    split at hstep
    · next subs bytes hphase =>
      have hwork : w.work = 6 * (w.hi.length + w.lo.length) + (subs.length + 3) := by
        unfold work
        rw [hphase]
      split at hstep
      · split at hstep
        · next s lo hlo =>
          obtain rfl := Option.some.inj hstep
          rw [hwork, hlo]
          simp only [Action.isTurn, Action.isSubmit, Bool.false_eq_true, if_false, if_true, work, List.length_cons,
            List.length_append, List.length_nil]
          omega
        · obtain rfl := Option.some.inj hstep
          rw [hwork]
          exact le_rfl
      · obtain rfl := Option.some.inj hstep
        rw [hwork]
        exact le_rfl
    · cases hstep
  | accept logId =>
    simp only [step] at hstep
    split at hstep
    · next subs hphase =>
      obtain rfl := Option.some.inj hstep
      unfold work
      rw [hphase]
      exact le_rfl
    · cases hstep
  | other entry =>
    obtain rfl := Option.some.inj hstep
    exact le_rfl
  | lose kept =>
    obtain rfl := Option.some.inj hstep
    exact le_rfl
  | apply count =>
    obtain rfl := Option.some.inj hstep
    exact le_rfl
  | job f =>
    obtain rfl := Option.some.inj hstep
    exact le_rfl
  | written =>
    simp only [step] at hstep
    split at hstep
    · next subs acc hphase =>
      obtain ⟨res, -, rfl⟩ := Option.map_eq_some_iff.mp hstep
      have hlen : (pairUp subs res.items).length = subs.length := by
        rw [← List.length_map, map_fst_pairUp]
      simp only [Action.isTurn, Action.isSubmit, Bool.false_eq_true, if_false, if_true, work, hphase, hlen]
      omega
    · cases hstep
  | failed msg =>
    simp only [step] at hstep
    split at hstep
    · next subs acc hphase =>
      obtain rfl := Option.some.inj hstep
      simp only [Action.isTurn, Action.isSubmit, Bool.false_eq_true, if_false, if_true, work, hphase, List.length_map]
      omega
    · cases hstep
  | answer =>
    simp only [step] at hstep
    split at hstep
    · next hphase =>
      obtain rfl := Option.some.inj hstep
      simp only [Action.isTurn, Action.isSubmit, Bool.false_eq_true, if_false, if_true, work, hphase, List.length_nil]
      omega
    · next s a todo hphase =>
      obtain rfl := Option.some.inj hstep
      simp only [Action.isTurn, Action.isSubmit, Bool.false_eq_true, if_false, if_true, work, hphase, List.length_cons]
      omega
    · cases hstep

/-- The task has a turn to take unless it is at rest; in `client_write` that is the error `openraft` may return. -/
theorem exists_turn (h : ¬ w.Quiet) : ∃ a : Action σ, a.isTurn ∧ (w.step journal maxBytes a).isSome := by
  cases hphase : w.phase with
  | idle =>
    refine ⟨.select, rfl, ?_⟩
    simp only [step, hphase]
    cases hhi : w.hi with
    | cons s hi => rfl
    | nil =>
      cases hlo : w.lo with
      | cons s lo => rfl
      | nil => exact absurd ⟨hphase, hhi, hlo⟩ h
  | fillHi subs bytes =>
    refine ⟨.drainHi, rfl, ?_⟩
    simp only [step, hphase]
    split
    · split <;> rfl
    · rfl
  | fillLo subs bytes =>
    refine ⟨.drainLo, rfl, ?_⟩
    simp only [step, hphase]
    split
    · split <;> rfl
    · rfl
  | writing subs acc =>
    refine ⟨.failed "", rfl, ?_⟩
    simp only [step, hphase]
    rfl
  | answering todo =>
    refine ⟨.answer, rfl, ?_⟩
    simp only [step, hphase]
    cases todo <;> rfl

/-! ## Runs -/

/-- The batcher as it is spawned. -/
def spawn (machine : StateMachine σ) : Partition σ := { machine }

theorem Placed.spawn (maxBytes : Nat) (machine : StateMachine σ) : (spawn machine).Placed maxBytes :=
  ⟨rfl, fun intake => by cases intake <;> rfl, nofun, nofun⟩

theorem Owed.spawn (machine : StateMachine σ) : (spawn machine).Owed journal where
  current _ _ h := Phase.noConfusion h
  sent := rfl
  nodup := List.nodup_nil
  known _ h := absurd h List.not_mem_nil
  fresh _ h := Phase.noConfusion h
  logged _ _ h := absurd h List.not_mem_nil
  ran _ h := absurd h List.not_mem_nil
  responded _ _ h := absurd h List.not_mem_nil
  owed _ _ h := absurd h List.not_mem_nil
  own _ _ h := absurd h List.not_mem_nil

theorem run_spec {actions : List (Action σ)} (hplaced : w.Placed maxBytes) (howed : w.Owed journal)
    (hrun : w.run journal maxBytes actions = some w') :
    w'.Placed maxBytes ∧ w'.Owed journal ∧
      w'.work + actions.countP (·.isTurn) ≤ w.work + 6 * actions.countP (·.isSubmit) := by
  induction actions generalizing w with
  | nil =>
    obtain rfl := Option.some.inj hrun
    exact ⟨hplaced, howed, le_rfl⟩
  | cons a actions ih =>
    obtain ⟨u, hstep, hrest⟩ := Option.bind_eq_some_iff.mp hrun
    obtain ⟨hplaced', howed', hwork⟩ := ih (hplaced.step hstep) (howed.step hstep) hrest
    have hfirst := work_step hstep
    refine ⟨hplaced', howed', ?_⟩
    rw [List.countP_cons, List.countP_cons]
    omega

/-- The two lanes are everything. -/
theorem Placed.perm (h : w.Placed maxBytes) : (w.proposed.flatten ++ w.batch ++ (w.lo ++ w.hi)).Perm w.submitted := by
  have hsplit : ∀ xs : List Submission, (xs.filter (·.intake = true) ++ xs.filter (·.intake = false)).Perm xs := by
    intro xs
    have hnot : xs.filter (·.intake = false) = xs.filter fun s => !decide (s.intake = true) :=
      List.filter_congr fun s _ => by cases s.intake <;> rfl
    rw [hnot]
    exact List.filter_append_perm _ xs
  have hall := hsplit w.submitted
  rw [h.lanes, h.lanes] at hall
  refine List.Perm.trans ((hsplit (w.proposed.flatten ++ w.batch)).symm.append_right _) (List.Perm.trans ?_ hall)
  rw [List.append_assoc, List.append_assoc]
  exact (List.perm_append_comm_assoc _ w.lo w.hi).append_left _

theorem Placed.nodup (h : w.Placed maxBytes) : (w.submitted.map (·.resp)).Nodup := h.numbered ▸ List.nodup_range

/-- At rest, everything is proposed. -/
theorem Placed.perm_of_quiet (h : w.Placed maxBytes) (hquiet : w.Quiet) : w.proposed.flatten.Perm w.submitted := by
  obtain ⟨hphase, hhi, hlo⟩ := hquiet
  have hbatch : w.batch = [] := by
    unfold batch filling
    rw [hphase]
    rfl
  have hperm := h.perm
  rw [hbatch, hhi, hlo, List.append_nil, List.append_nil, List.append_nil] at hperm
  exact hperm

theorem Owed.sent_of_quiet (h : w.Owed journal) (hquiet : w.Quiet) : w.answers.map (·.1) = w.proposed.flatten.map (·.resp) := by
  have hpending : w.pending = [] := by
    unfold pending
    rw [hquiet.1]
  have hsent := h.sent
  rw [hpending, List.map_nil, List.append_nil] at hsent
  exact hsent

/-- Numbers in proposed entries come up once. -/
theorem Placed.nodup_proposed (h : w.Placed maxBytes) : (w.proposed.flatten.map (·.resp)).Nodup := by
  have hnodup := (h.perm.map (·.resp)).nodup_iff.mpr h.nodup
  rw [List.append_assoc, List.map_append] at hnodup
  exact hnodup.of_append_left

/-- What an answer carries is the outcome of the command it is the answer to. -/
theorem Owed.outcome_of_answer (h : w.Owed journal) (hplaced : w.Placed maxBytes) {s : Submission} (hs : s ∈ w.submitted)
    {item : ReplicatedItem} (hitem : (s.resp, .ok item) ∈ w.answers) : Outcome journal w s item := by
  obtain ⟨s', hresp, ho⟩ := h.own s.resp item hitem
  obtain ⟨t, subs, pos, ht, hpos, -⟩ := id ho
  have hs' : s' ∈ w.proposed.flatten := List.mem_flatten.mpr ⟨subs, List.mem_of_getElem? ht, List.mem_of_getElem? hpos⟩
  have hmem : s' ∈ w.submitted := hplaced.perm.subset (List.mem_append_left _ (List.mem_append_left _ hs'))
  obtain rfl := List.inj_on_of_nodup_map hplaced.nodup hmem hs hresp
  exact ho

end Partition

open NanoBpm.Raft.Propose.Partition

/-- In every run, however the submissions on the two lanes, the turns of the task, the steps of `openraft` and the other jobs
interleave: every submission is in one place, which is an entry, the batch being filled or its lane; each lane keeps its order
across the entries; every entry keeps to the caps; an answer is sent once for every submission of an entry that has been
answered, in the order of the entries, and carries an error or the outcome of the submission's own command where its entry was
applied. The task takes six turns a submission at most, and always has one to take until everything is proposed and answered. -/
theorem batched (journal : Journal σ) (maxBytes : Nat) (machine : StateMachine σ) {actions : List (Action σ)} {w : Partition σ}
    (hrun : (Partition.spawn machine).run journal maxBytes actions = some w) :
    (w.proposed.flatten ++ w.batch ++ (w.lo ++ w.hi)).Perm w.submitted ∧ (w.submitted.map (·.resp)).Nodup ∧
    (∀ intake, (w.proposed.flatten ++ w.batch).filter (·.intake = intake) ++ w.lane intake =
      w.submitted.filter (·.intake = intake)) ∧
    (∀ entry ∈ w.proposed, Fits maxBytes entry) ∧
    w.answers.map (·.1) ++ w.pending.map (·.resp) = w.proposed.flatten.map (·.resp) ∧ (w.answers.map (·.1)).Nodup ∧
    (∀ s ∈ w.submitted, ∀ item, (s.resp, .ok item) ∈ w.answers → Partition.Outcome journal w s item) ∧
    (w.applied.filterMap (·.ticket)).Nodup ∧
    actions.countP (·.isTurn) ≤ 6 * actions.countP (·.isSubmit) ∧
    (¬ w.Quiet → ∃ a : Action σ, a.isTurn ∧ (w.step journal maxBytes a).isSome) ∧
    (w.Quiet → w.proposed.flatten.Perm w.submitted ∧ w.answers.map (·.1) = w.proposed.flatten.map (·.resp)) := by
  obtain ⟨hplaced, howed, hwork⟩ := run_spec (.spawn maxBytes machine) (.spawn machine) hrun
  refine ⟨hplaced.perm, hplaced.nodup, fun intake => (hplaced.lanes intake).symm, hplaced.fits, howed.sent, ?_,
    fun s hs item hi => howed.outcome_of_answer hplaced hs hi, ?_, ?_, exists_turn,
    fun hquiet => ⟨hplaced.perm_of_quiet hquiet, howed.sent_of_quiet hquiet⟩⟩
  · have hnodup := hplaced.nodup_proposed
    rw [← howed.sent] at hnodup
    exact hnodup.of_append_left
  · exact howed.nodup.of_append_left
  · have hspawn : (Partition.spawn machine).work = 0 := rfl
    omega

/-- The journal of an engine; `Display` is blank. -/
def engineJournal (fuel : Nat) : Journal Engine where
  applyCommandAt e command now := @Engine.applyCommandAt Feel.refusing fuel e command now
  toString _ := ""

/-- A creation is queued before a completion. The completion goes first, and another leader's entry comes between. -/
def twoLanes : List (Action Engine) :=
  [.submit ⟨.createInstance "absent" ∅ [] none none none, 1⟩, .submit ⟨.completeJob 7 none ∅ none none, 2⟩, .select, .drainHi,
    .drainLo, .drainLo, .other ⟨⟨1, 1, 0⟩, .blank⟩, .accept ⟨1, 1, 1⟩, .apply 2, .written, .answer, .answer, .answer]

theorem batched_two_lanes : ∃ w, (Partition.spawn { engine := {} }).run (engineJournal 8) defaultMaxEntryBytes twoLanes = some w ∧
    w.answers = [(1, .ok ⟨[], some (404, "No job with key 7.")⟩),
      (0, .ok ⟨[], some (400, "No deployed process with id 'absent'.")⟩)] ∧
    w.proposed.flatten.Perm w.submitted := by
  refine ⟨_, rfl, rfl, ?_⟩
  have hrun := @batched Engine (engineJournal 8) defaultMaxEntryBytes { engine := {} } twoLanes _ rfl
  exact (hrun.2.2.2.2.2.2.2.2.2.2 ⟨rfl, rfl, rfl⟩).1

end NanoBpm.Raft.Propose
