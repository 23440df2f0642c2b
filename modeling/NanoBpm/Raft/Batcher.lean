import NanoBpm.Command
import NanoBpm.Raft.LogStore

/-!
# The propose batcher of a partition (`raft.rs:95-99`, `:257-308`, `:1004-1108`, `:1482-1665`, `command.rs:719-789`)

Commands are queued on two lanes, and one task coalesces what is queued into entries of the Raft log: first the lane of the
work that is under way, then the intake of new work, as far as two caps allow. `apply` answers an entry with one item a
command, and the task hands the items back by position.

A run interleaves the turns of the task with submissions, with `openraft`, which accepts the task's entries and others, loses
some and applies the rest in order, and with the other jobs of the engine's actor (the eviction that `apply` spawns is one).
-/

namespace NanoBpm

/-! ## The size of a command (`model.rs:71`, `agent.rs:85-105`, `:297`, `:537`, `:564`, `:724`, `command.rs:726`) -/

mutual

def Value.approxBytes : Value → Nat
  | .null | .bool _ | .int _ | .double _ => 8
  | .str s => 16 + s.utf8ByteSize
  | .list items => 16 + Value.approxBytesAll items
  | .map entries => 16 + Value.approxBytesEntries entries

def Value.approxBytesAll : List Value → Nat
  | [] => 0
  | v :: items => v.approxBytes + Value.approxBytesAll items

def Value.approxBytesEntries : List (String × Value) → Nat
  | [] => 0
  | (k, v) :: entries => (k.utf8ByteSize + v.approxBytes) + Value.approxBytesEntries entries

end

def Vars.approxBytes (vars : Vars) : Nat := (vars.toList.map fun (k, v) => k.utf8ByteSize + v.approxBytes).sum

def optStrBytes (s : Option String) : Nat := (s.map String.utf8ByteSize).getD 0

def AgentHistoryContent.approxBytes (content : AgentHistoryContent) : Nat :=
  optStrBytes content.text + optStrBytes content.documentReference + optStrBytes content.object

def promptBytes (prompt : Option (List AgentHistoryContent)) : Nat :=
  (prompt.map fun blocks => (blocks.map AgentHistoryContent.approxBytes).sum).getD 0

def AgentDefinition.approxBytes (definition : AgentDefinition) : Nat :=
  optStrBytes definition.model + optStrBytes definition.provider + promptBytes definition.systemPrompt

def AgentTool.approxBytes (tool : AgentTool) : Nat :=
  tool.name.utf8ByteSize + optStrBytes tool.description + optStrBytes tool.elementId

def AgentHistoryToolCall.approxBytes (call : AgentHistoryToolCall) : Nat :=
  call.toolCallId.utf8ByteSize + call.toolName.utf8ByteSize + optStrBytes call.elementId + optStrBytes call.arguments

def AgentHistoryTurn.approxBytes (turn : AgentHistoryTurn) : Nat :=
  let content := (turn.content.map AgentHistoryContent.approxBytes).sum
  let toolCalls := (turn.toolCalls.map AgentHistoryToolCall.approxBytes).sum
  let tools := (turn.tools.map AgentTool.approxBytes).sum
  content + toolCalls + tools + promptBytes turn.systemPrompt + optStrBytes turn.historyItemId + optStrBytes turn.model +
    optStrBytes turn.provider

def Command.approxBytes (command : Command) : Nat :=
  let base := 64
  let payload :=
    match command with
    | .createInstance _ vars .. | .completeJob _ _ vars .. | .completeUserTask _ vars | .setVariables _ vars _
    | .correlateMessage _ _ vars | .broadcastSignal _ vars | .correlateMessageSubscription _ _ _ _ _ _ vars
    | .dispatchStartInstance _ _ vars .. => vars.approxBytes
    | .modifyInstance _ activateInstructions terminateInstructions =>
      let activate := (activateInstructions.map fun a => a.elementId.utf8ByteSize + a.vars.approxBytes).sum
      activate + terminateInstructions.length * 8
    | .activateAdHocActivities _ activateElements _ =>
      (activateElements.map fun a => a.elementId.utf8ByteSize + a.vars.approxBytes).sum
    | .createAgentInstance _ _ _ definition _ history =>
      definition.approxBytes + (history.map AgentHistoryTurn.approxBytes).sum
    | .updateAgentInstance _ _ _ _ _ _ _ _ tools history =>
      let tools := ((tools.getD []).map AgentTool.approxBytes).sum
      tools + (history.map AgentHistoryTurn.approxBytes).sum
    | _ => 0
  base + payload

namespace Raft.Propose

open LogStore (LogId Entry)

/-! ## What is replicated, and the answers -/

structure ReplicatedCommand where
  command : Command
  now : Nat

structure ReplicatedItem where
  events : List Event
  error : Option (Nat × String)

structure ReplicatedResponse where
  items : List ReplicatedItem := []

/-- `openraft`'s `EntryPayload`, with a batch of commands as the normal payload. -/
inductive EntryPayload where
  | blank
  | normal (batch : List ReplicatedCommand)
  | membership

/-- What runs the commands: the journal with its engine, and the texts of the engine's errors. -/
structure Journal (σ : Type) where
  applyCommandAt : σ → Command → Nat → Except EngineError (List Event) × σ
  toString : EngineError → String

variable {σ : Type} (journal : Journal σ)

/-- The status and the message the client sees. -/
def engineErrorStatus : EngineError → Nat × String
  | .processNotFound processId => (400, s!"No deployed process with id '{processId}'.")
  | .jobNotFound jobKey => (404, s!"No job with key {jobKey}.")
  | .jobNotActive jobKey => (409, s!"Job {jobKey} is not active.")
  | .jobNotActivated jobKey => (409, s!"Job {jobKey} has not been activated.")
  | e@(.jobLeaseMismatch _) => (409, journal.toString e)
  | e@(.jobUpdateInvalid ..) => (400, journal.toString e)
  | e@(.agentInstanceNotFound _) | e@(.agentInstanceElementInstanceInactive _) | e@(.agentInstanceJobNotActive ..)
  | e@(.agentInstanceJobLeaseMismatch ..) => (404, journal.toString e)
  | e@(.agentInstanceAlreadyExists ..) | e@(.agentInstanceActiveWriter ..) | e@(.agentInstanceConflict ..) =>
    (409, journal.toString e)
  | e@(.agentHistoryInvalid _) | e@(.agentInstanceElementNotEligible _) | e@(.agentInstanceMissingAgentDefinition _)
  | e@(.agentInstanceJobRequiredForHistory _) | e@(.agentInstanceJobElementMismatch ..)
  | e@(.agentInstanceOwnershipMismatch _) | e@(.agentInstanceStatusNotSettable ..)
  | e@(.agentInstanceAlreadyCompleted _) | e@(.agentInstanceLimitExceeded ..) => (400, journal.toString e)
  | other => (500, journal.toString other)

/-! ## `apply` -/

/-- The partition's state machine: the engine behind the journal, and what `apply` notes. -/
structure StateMachine (σ : Type) where
  engine : σ
  lastApplied : Option LogId := none
  /-- The entry that set the membership. -/
  lastMembership : Option LogId := none

/-- A command of a batch on the actor. -/
def applyCommand (engine : σ) (c : ReplicatedCommand) : ReplicatedItem × σ :=
  match journal.applyCommandAt engine c.command c.now with
  | (.ok events, engine) => (⟨events, none⟩, engine)
  | (.error e, engine) => (⟨[], some (engineErrorStatus journal e)⟩, engine)

/-- The batch, in one hop. -/
def applyBatch : σ → List ReplicatedCommand → List ReplicatedItem × σ
  | engine, [] => ([], engine)
  | engine, c :: batch =>
    let (item, engine) := applyCommand journal engine c
    let (items, engine) := applyBatch engine batch
    (item :: items, engine)

def applyEntry (sm : StateMachine σ) (entry : Entry EntryPayload) : ReplicatedResponse × StateMachine σ :=
  match entry.payload with
  | .blank => ({}, { sm with lastApplied := some entry.logId })
  | .normal batch =>
    let (items, engine) := applyBatch journal sm.engine batch
    ({ items }, { sm with engine, lastApplied := some entry.logId })
  | .membership => ({}, { sm with lastApplied := some entry.logId, lastMembership := some entry.logId })

def apply : StateMachine σ → List (Entry EntryPayload) → List ReplicatedResponse × StateMachine σ
  | sm, [] => ([], sm)
  | sm, entry :: entries =>
    let (response, sm) := applyEntry journal sm entry
    let (responses, sm) := apply sm entries
    (response :: responses, sm)

/-! ## The batcher -/

/-- `MAX_PROPOSE_BATCH`. -/
def maxProposeBatch : Nat := 1024

/-- The default of `max_entry_bytes`. -/
def defaultMaxEntryBytes : Nat := 1024 * 1024

def isCreationIntake : Command → Bool
  | .createInstance .. | .activateJobs .. | .dispatchStartInstance .. => true
  | _ => false

abbrev Answer := Except String ReplicatedItem

/-- A queued command, and the one-shot it is answered through, by its number. -/
structure Submission where
  item : ReplicatedCommand
  resp : Nat

def Submission.bytes (s : Submission) : Nat := s.item.command.approxBytes

/-- Where the task is in its loop. -/
inductive Phase where
  /-- At the `select!`. -/
  | idle
  /-- In the loop over the high lane. -/
  | fillHi (subs : List Submission) (batchBytes : Nat)
  /-- In the loop over the low lane. -/
  | fillLo (subs : List Submission) (batchBytes : Nat)
  /-- In `client_write`, and whether the entry has been accepted. -/
  | writing (subs : List Submission) (accepted : Bool)
  /-- In the loop that answers. -/
  | answering (todo : List (Submission × Answer))

/-- An entry as it is applied. -/
structure Applied (σ : Type) where
  ticket : Option Nat
  /-- The engine that the entry finds. -/
  before : σ
  payload : EntryPayload

/-- The batcher, its queues, and `openraft` with the state machine. A proposal's ticket is its place in `proposed`. -/
structure Partition (σ : Type) where
  hi : List Submission := []
  lo : List Submission := []
  phase : Phase := .idle
  /-- The submissions, in the order of their arrival. -/
  submitted : List Submission := []
  /-- The batches proposed. -/
  proposed : List (List Submission) := []
  /-- The entries accepted and not yet applied; those of others have no ticket. -/
  log : List (Option Nat × Entry EntryPayload) := []
  machine : StateMachine σ
  /-- What has been applied. -/
  applied : List (Applied σ) := []
  /-- The responses for the entries of the batcher. -/
  done : List (Nat × ReplicatedResponse) := []
  /-- What has been sent through the one-shots, by their numbers. -/
  answers : List (Nat × Answer) := []

inductive Action (σ : Type) where
  /-- `submit` queues a command on its lane. -/
  | submit (item : ReplicatedCommand)
  /-- `select!`, biased to the high lane. -/
  | select
  /-- One turn of the first loop. -/
  | drainHi
  /-- One turn of the second loop; its end proposes the batch. -/
  | drainLo
  /-- `openraft` appends the entry under way to the log. -/
  | accept (logId : LogId)
  /-- An entry of someone else is appended. -/
  | other (entry : Entry EntryPayload)
  /-- A new leader drops all but the first `kept` entries of the log. -/
  | lose (kept : Nat)
  /-- `apply` on the next `count` entries. -/
  | apply (count : Nat)
  /-- Some other job of the actor. -/
  | job (f : σ → σ)
  /-- `client_write` returns the response. -/
  | written
  /-- It returns an error. -/
  | failed (msg : String)
  /-- One turn of the loop that answers. -/
  | answer

/-- The entries as they are applied, each with the engine it finds. -/
def history : StateMachine σ → List (Option Nat × Entry EntryPayload) → List (Applied σ)
  | _, [] => []
  | sm, (ticket, entry) :: entries =>
    ⟨ticket, sm.engine, entry.payload⟩ :: history (applyEntry journal sm entry).2 entries

/-- The answers to a batch for the response to its entry. -/
def pairUp (subs : List Submission) (out : List ReplicatedItem) : List (Submission × Answer) :=
  if out.length = subs.length then subs.zip (out.map .ok)
  else subs.map (·, .error s!"raft batch response arity mismatch ({out.length} != {subs.length})")

namespace Partition

variable (maxBytes : Nat) (w : Partition σ)

def step : Action σ → Option (Partition σ)
  | .submit item =>
    let s : Submission := ⟨item, w.submitted.length⟩
    let w := { w with submitted := w.submitted ++ [s] }
    some (if isCreationIntake item.command then { w with lo := w.lo ++ [s] } else { w with hi := w.hi ++ [s] })
  | .select =>
    match w.phase, w.hi, w.lo with
    | .idle, first :: hi, _ => some { w with hi, phase := .fillHi [first] first.bytes }
    | .idle, [], first :: lo => some { w with lo, phase := .fillHi [first] first.bytes }
    | _, _, _ => none
  | .drainHi =>
    match w.phase with
    | .fillHi subs batchBytes =>
      if subs.length < maxProposeBatch ∧ batchBytes < maxBytes then
        match w.hi with
        | s :: hi => some { w with hi, phase := .fillHi (subs ++ [s]) (batchBytes + s.bytes) }
        | [] => some { w with phase := .fillLo subs batchBytes }
      else some { w with phase := .fillLo subs batchBytes }
    | _ => none
  | .drainLo =>
    match w.phase with
    | .fillLo subs batchBytes =>
      let propose := { w with proposed := w.proposed ++ [subs], phase := .writing subs false }
      if subs.length < maxProposeBatch ∧ batchBytes < maxBytes then
        match w.lo with
        | s :: lo => some { w with lo, phase := .fillLo (subs ++ [s]) (batchBytes + s.bytes) }
        | [] => some propose
      else some propose
    | _ => none
  | .accept logId =>
    match w.phase with
    | .writing subs false =>
      let entry : Entry EntryPayload := ⟨logId, .normal (subs.map (·.item))⟩
      some { w with log := w.log ++ [(some (w.proposed.length - 1), entry)], phase := .writing subs true }
    | _ => none
  | .other entry => some { w with log := w.log ++ [(none, entry)] }
  | .lose kept => some { w with log := w.log.take kept }
  | .apply count =>
    let entries := w.log.take count
    let (responses, machine) := apply journal w.machine (entries.map (·.2))
    some { w with
      log := w.log.drop count
      machine
      applied := w.applied ++ history journal w.machine entries
      done := w.done ++ (entries.zip responses).filterMap fun (entry, response) => entry.1.map (·, response) }
  | .job f => some { w with machine := { w.machine with engine := f w.machine.engine } }
  | .written =>
    match w.phase with
    | .writing subs _ =>
      (w.done.lookup (w.proposed.length - 1)).map fun res => { w with phase := .answering (pairUp subs res.items) }
    | _ => none
  | .failed msg =>
    match w.phase with
    | .writing subs _ => some { w with phase := .answering (subs.map (·, .error msg)) }
    | _ => none
  | .answer =>
    match w.phase with
    | .answering [] => some { w with phase := .idle }
    | .answering ((s, a) :: todo) => some { w with answers := w.answers ++ [(s.resp, a)], phase := .answering todo }
    | _ => none

def run (actions : List (Action σ)) : Option (Partition σ) := actions.foldlM (step journal maxBytes) w

end Partition

end Raft.Propose

end NanoBpm
