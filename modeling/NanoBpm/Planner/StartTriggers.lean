import NanoBpm.Planner.Continuations

/-!
# Start triggers of the deployed processes

A deployment arms the timer starts of a process and subscribes to its start messages. The start timers are kept under
keys of their own and the start messages under their names, so that nothing ties an entry to the version that declared
it: a new version leaves the timers of the version before it armed, and a start message that it no longer declares stays
subscribed, while two processes that start on one message share an entry. As long as no deployment does any of these,
the tables hold exactly what the latest versions declare.
-/

namespace NanoBpm

section Deployments

variable [Feel]

/-- The message of a message start, with the name it is subscribed under. -/
def Element.startMessage (el : Element) : Option (String × ElementId) :=
  match el.kind with
  | .messageStartEvent messageName => some (resolveEventName ∅ messageName, el.id)
  | _ => none

omit [Feel] in
/-- A timer start, and whether it is a cycle. -/
def Element.startTimer (el : Element) : Option (ElementId × Bool) :=
  match el.kind with
  | .timerStartEvent _ repeating => some (el.id, repeating)
  | _ => none

namespace ProcessDefinition

/-- The start messages a definition declares, and their start events. -/
def startMessages (p : ProcessDefinition) : List (String × ElementId) := p.typedStarts.filterMap (·.startMessage)

/-- The timer starts a definition declares. -/
def startTimers (p : ProcessDefinition) : List (ElementId × Bool) := p.typedStarts.filterMap (·.startTimer)

def startNames (p : ProcessDefinition) : List String := p.startMessages.map (·.1)

/-- A version that leaves nothing behind: the version before it has no timer starts and no start message that this one
drops, and this one declares every start message once and none that another process declares. -/
def replaces (latest : StrMap ProcessDefinition) (p : ProcessDefinition) : Bool :=
  (latest[p.id]?.all fun old => old.startTimers.isEmpty && old.startNames.all p.startNames.contains) &&
    decide p.startNames.Nodup &&
    latest.vals.all fun other => other.id == p.id || other.startNames.all (!p.startNames.contains ·)

end ProcessDefinition

/-- Every version of a deployment does, one process after the other. -/
def replacesAll (latest : StrMap ProcessDefinition) : List ProcessDefinition → Bool
  | [] => true
  | p :: ps =>
    if latest[p.id]?.any (·.same p) then replacesAll latest ps
    else p.replaces latest && replacesAll (latest.insert p.id p) ps

namespace DeployedProcess

/-- The message starts among some elements of a deployed version. -/
def messagesOf (d : DeployedProcess) (els : List Element) : List MessageStartSubscription :=
  (els.filterMap (·.startMessage)).map fun (messageName, startElementId) =>
    ⟨d.key, d.definition.id, messageName, startElementId⟩

/-- The timer starts among some elements of a deployed version. -/
def timersOf (d : DeployedProcess) (els : List Element) : List (Key × String × ElementId × Bool) :=
  (els.filterMap (·.startTimer)).map fun start => (d.key, d.definition.id, start)

/-- The message starts of a deployed version. -/
def messageStarts (d : DeployedProcess) : List MessageStartSubscription := d.messagesOf d.definition.typedStarts

/-- The timer starts of a deployed version. -/
def timerStarts (d : DeployedProcess) : List (Key × String × ElementId × Bool) := d.timersOf d.definition.typedStarts

end DeployedProcess

/-- What a start timer was armed for. -/
def StartTimer.start (t : StartTimer) : Key × String × ElementId × Bool :=
  (t.processDefinitionKey, t.processId, t.startElementId, t.repeating)

omit [Feel] in
/-- The start timer has fired. -/
def StartTimerFired (log : List Event) (timerKey : Key) : Prop :=
  ∃ nextDueAt, Event.processStartTimerFired timerKey nextDueAt ∈ log

omit [Feel] in
theorem startTimerFired_append {log : List Event} {event : Event} (h : event.origin ≠ .rearm) (timerKey : Key) :
    StartTimerFired (log ++ [event]) timerKey ↔ StartTimerFired log timerKey := by
  simp only [StartTimerFired, List.mem_append, List.mem_singleton]
  constructor
  · rintro ⟨nextDueAt, hlog | rfl⟩
    · exact ⟨nextDueAt, hlog⟩
    · exact absurd rfl h
  · rintro ⟨nextDueAt, hlog⟩
    exact ⟨nextDueAt, .inl hlog⟩

namespace State

/-- The start triggers are exactly those that the latest versions declare, and the timers among them are due, but for those
that are no cycle and have fired: such a timer keeps its entry, without a due time. -/
structure StartsExact (log : List Event) (s : State) : Prop where
  timers : (s.startTimers.vals.map StartTimer.start).Perm (s.processes.vals.flatMap (·.timerStarts))
  messages : ∀ (messageName : String) (m : MessageStartSubscription),
    s.messageStartSubscriptions[messageName]? = some m ↔
      m.messageName = messageName ∧ ∃ d ∈ s.processes.vals, m ∈ d.messageStarts
  armed : ∀ (timerKey : Key) (t : StartTimer), s.startTimers[timerKey]? = some t →
    (t.dueAt = none ↔ t.repeating = false ∧ StartTimerFired log timerKey)

/-- The definitions of the latest versions. -/
def latest (s : State) : StrMap ProcessDefinition := s.processes.map fun _ d => d.definition

end State

/-- The start timers have keys that were minted, and are due unless they fired once and for all. -/
structure StartsTimed (minted : Key → Prop) (log : List Event) (s : State) : Prop where
  armed : ∀ (timerKey : Key) (t : StartTimer), s.startTimers[timerKey]? = some t →
    (t.dueAt = none ↔ t.repeating = false ∧ StartTimerFired log timerKey)
  keys : ∀ (timerKey : Key) (t : StartTimer), s.startTimers[timerKey]? = some t → minted timerKey
  fired : ∀ timerKey : Key, StartTimerFired log timerKey → minted timerKey

omit [Feel] in
theorem StartsTimed.mono {minted minted' : Key → Prop} {log : List Event} {s : State} (h : StartsTimed minted log s)
    (hle : ∀ key, minted key → minted' key) : StartsTimed minted' log s :=
  ⟨h.armed, fun timerKey t ht => hle timerKey (h.keys timerKey t ht), fun timerKey hfired => hle timerKey (h.fired timerKey hfired)⟩

omit [Feel] in
/-- An event that leaves the start timers alone. -/
theorem StartsTimed.append {minted : Key → Prop} {log : List Event} {s s' : State} (h : StartsTimed minted log s) {event : Event}
    (horigin : event.origin ≠ .rearm) (htimers : s'.startTimers = s.startTimers) : StartsTimed minted (log ++ [event]) s' where
  armed timerKey t ht := by
    rw [startTimerFired_append horigin]
    exact h.armed timerKey t (htimers ▸ ht)
  keys timerKey t ht := h.keys timerKey t (htimers ▸ ht)
  fired timerKey hfired := h.fired timerKey ((startTimerFired_append horigin timerKey).mp hfired)

/-- What the deployments of a run keep. -/
structure StartTriggers (minted : Key → Prop) (log : List Event) (s : State) : Prop extends s.StartsExact log where
  keyed : ∀ (processId : String) (d : DeployedProcess), s.processes[processId]? = some d → d.definition.id = processId
  keys : ∀ (timerKey : Key) (t : StartTimer), s.startTimers[timerKey]? = some t → minted timerKey
  fired : ∀ timerKey : Key, StartTimerFired log timerKey → minted timerKey

omit [Feel] in
theorem processes_apply_of_origin (s : State) {event : Event} (h : event.origin ≠ .deployment) :
    (apply s event).processes = s.processes := by
  by_cases hdeploys : event.isDeployment = true
  · cases event <;> first | rfl | exact absurd rfl h | cases hdeploys
    simp only [apply, applyResource]
    split <;> rfl
  · exact congrArg Definitions.processes (definitions_apply s event (by simpa using hdeploys))

namespace StartTriggers

variable {minted : Key → Prop} {log : List Event} {s : State}

theorem timed (h : StartTriggers minted log s) : StartsTimed minted log s := ⟨h.armed, h.keys, h.fired⟩

/-- Only a deployment changes what is declared and what is armed, and only a start timer that fires when one is due. -/
theorem apply_event (h : StartTriggers minted log s) {event : Event} (horigin : event.origin ≠ .deployment)
    (hrearm : event.origin ≠ .rearm) : StartTriggers minted (log ++ [event]) (apply s event) := by
  have hprocesses := processes_apply_of_origin s horigin
  have hmessages : (apply s event).messageStartSubscriptions = s.messageStartSubscriptions := by
    rw [messageStartSubscriptions_apply]
    cases event <;> first | rfl | exact absurd rfl horigin
  have htimers : (apply s event).startTimers = s.startTimers := by
    rw [startTimers_apply]
    cases event <;> first | rfl | exact absurd rfl horigin | exact absurd rfl hrearm
  obtain ⟨harmed, hminted, hfired⟩ := h.timed.append hrearm htimers
  refine ⟨⟨?_, ?_, harmed⟩, ?_, hminted, hfired⟩
  · rw [hprocesses, htimers]
    exact h.timers
  · rw [hprocesses, hmessages]
    exact h.messages
  · rw [hprocesses]
    exact h.keyed

/-- A timer that fires is due again if it is a cycle. -/
theorem apply_fired (h : StartTriggers minted log s) {timerKey : Key} {t : StartTimer} (ht : s.startTimers[timerKey]? = some t)
    {nextDueAt : Option Nat} (hnext : nextDueAt = none ↔ t.repeating = false) :
    StartTriggers minted (log ++ [.processStartTimerFired timerKey nextDueAt])
      (apply s (.processStartTimerFired timerKey nextDueAt)) := by
  have hfired : ∀ key, StartTimerFired (log ++ [.processStartTimerFired timerKey nextDueAt]) key ↔
      StartTimerFired log key ∨ key = timerKey := by
    intro key
    simp only [StartTimerFired, List.mem_append, List.mem_singleton, Event.processStartTimerFired.injEq, exists_or,
      exists_and_left, exists_eq, and_true]
  refine ⟨⟨?_, h.messages, ?_⟩, h.keyed, ?_, ?_⟩
  · exact List.Perm.trans (Std.ExtTreeMap.perm_map_vals_modify fun _ => rfl) h.timers
  · intro key t' ht'
    rw [startTimers_apply, Event.onStartTimers, Std.ExtTreeMap.getElem?_modify] at ht'
    rw [hfired]
    split at ht'
    · next hkey =>
      obtain rfl := Std.LawfulEqCmp.eq_of_compare hkey
      rw [ht] at ht'
      cases ht'
      simp [hnext]
    · next hkey =>
      rw [h.armed key t' ht', or_iff_left]
      rintro rfl
      exact hkey Std.ReflCmp.compare_self
  · intro key t' ht'
    rw [startTimers_apply] at ht'
    obtain ⟨t'', ht'', -⟩ := Std.ExtTreeMap.of_getElem?_modify ht'
    exact h.keys key t'' ht''
  · intro key hkey
    rcases (hfired key).mp hkey with hkey | rfl
    · exact h.fired key hkey
    · exact h.keys key t ht

theorem mono {minted' : Key → Prop} (h : StartTriggers minted log s) (hle : ∀ key, minted key → minted' key) :
    StartTriggers minted' log s :=
  let hmono := h.timed.mono hle
  ⟨h.toStartsExact, h.keyed, hmono.keys, hmono.fired⟩

end StartTriggers

/-! ## One deployed version -/

/-- While the starts of a new version are armed: those of the other processes, those armed so far, and what the version
before it subscribed to under other names. -/
structure Arming (minted : Key → Prop) (table : StrMap DeployedProcess) (d : DeployedProcess)
    (others : List DeployedProcess) (old : List MessageStartSubscription) (done : List Element) (log : List Event) (s : State) :
    Prop where
  timers : (s.startTimers.vals.map StartTimer.start).Perm (others.flatMap (·.timerStarts) ++ d.timersOf done)
  messages : ∀ (messageName : String) (m : MessageStartSubscription),
    s.messageStartSubscriptions[messageName]? = some m ↔ m.messageName = messageName ∧
      ((∃ o ∈ others, m ∈ o.messageStarts) ∨ m ∈ d.messagesOf done ∨
        (m ∈ old ∧ ∀ m' ∈ d.messagesOf done, m'.messageName ≠ messageName))
  timed : StartsTimed minted log s
  processes : s.processes = table

namespace Arming

variable {table : StrMap DeployedProcess} {d : DeployedProcess} {others : List DeployedProcess} {old : List MessageStartSubscription}
  {done : List Element} {past log : List Event} {s : PlanState}

/-- A message start replaces what was subscribed under its name. -/
theorem apply_message {minted : Key → Prop} {s : State} (h : Arming minted table d others old done log s) {el : Element}
    {messageName : String} (hmessage : el.startMessage = some (messageName, el.id)) (htimer : el.startTimer = none)
    (hnew : ∀ m ∈ d.messagesOf done, m.messageName ≠ messageName)
    (hothers : ∀ o ∈ others, ∀ m ∈ o.messageStarts, m.messageName ≠ messageName) :
    Arming minted table d others old (done ++ [el])
      (log ++ [.messageStartSubscriptionCreated d.key d.definition.id messageName el.id])
      (apply s (.messageStartSubscriptionCreated d.key d.definition.id messageName el.id)) := by
  have hmessages : d.messagesOf (done ++ [el]) =
      d.messagesOf done ++ [⟨d.key, d.definition.id, messageName, el.id⟩] := by
    simp [DeployedProcess.messagesOf, hmessage]
  have htimers : d.timersOf (done ++ [el]) = d.timersOf done := by simp [DeployedProcess.timersOf, htimer]
  refine ⟨?_, fun name m => ?_, ?_, ?_⟩
  · rw [startTimers_apply, htimers]
    exact h.timers
  · rw [messageStartSubscriptions_apply, Event.onMessageStarts, Std.ExtTreeMap.getElem?_insert, hmessages]
    by_cases hname : messageName = name
    · subst hname
      simp only [Std.LawfulEqCmp.compare_eq_iff_eq, if_true, Option.some.injEq, List.mem_append, List.mem_singleton]
      constructor
      · rintro rfl
        exact ⟨rfl, .inr (.inl (.inr rfl))⟩
      · rintro ⟨hm, ⟨o, ho, hmem⟩ | (hmem | rfl) | ⟨-, hnone⟩⟩
        · exact absurd hm (hothers o ho m hmem)
        · exact absurd hm (hnew m hmem)
        · rfl
        · exact absurd rfl (hnone _ (.inr rfl))
    · simp only [Std.LawfulEqCmp.compare_eq_iff_eq, hname, if_false, h.messages name m, List.mem_append,
        List.mem_singleton]
      refine and_congr_right fun hm => or_congr_right ?_
      have hne : m ≠ ⟨d.key, d.definition.id, messageName, el.id⟩ := by
        rintro rfl
        exact hname hm
      simp [hne, or_imp, forall_and, hname]
  · exact h.timed.append (by simp [Event.origin]) (startTimers_apply ..)
  · exact h.processes

/-- A timer start is armed under a key of its own. -/
theorem apply_timer {minted : Key → Prop} {s : State} (h : Arming minted table d others old done log s) {el : Element}
    {repeating : Bool} (hmessage : el.startMessage = none) (htimer : el.startTimer = some (el.id, repeating)) {timerKey : Key}
    (hfresh : s.startTimers[timerKey]? = none) (hunfired : ¬ StartTimerFired log timerKey) (hminted : minted timerKey)
    {dueAt intervalMillis : Nat} :
    Arming minted table d others old (done ++ [el])
      (log ++ [.processStartTimerArmed timerKey d.key d.definition.id el.id dueAt intervalMillis repeating])
      (apply s (.processStartTimerArmed timerKey d.key d.definition.id el.id dueAt intervalMillis repeating)) := by
  have hmessages : d.messagesOf (done ++ [el]) = d.messagesOf done := by simp [DeployedProcess.messagesOf, hmessage]
  have htimers : d.timersOf (done ++ [el]) = d.timersOf done ++ [(d.key, d.definition.id, el.id, repeating)] := by
    simp [DeployedProcess.timersOf, htimer]
  have hget : ∀ {key t}, (apply s (.processStartTimerArmed timerKey d.key d.definition.id el.id dueAt intervalMillis
      repeating)).startTimers[key]? = some t →
      (timerKey = key ∧ t = ⟨timerKey, d.key, d.definition.id, el.id, some dueAt, intervalMillis, repeating⟩) ∨
        s.startTimers[key]? = some t := by
    intro key t ht
    rw [startTimers_apply, Event.onStartTimers, Std.ExtTreeMap.getElem?_insert] at ht
    split at ht
    · next hkey => exact .inl ⟨Std.LawfulEqCmp.eq_of_compare hkey, (Option.some.inj ht).symm⟩
    · exact .inr ht
  refine ⟨?_, ?_, ⟨fun key t ht => ?_, fun key t ht => ?_, fun key hfired => ?_⟩, h.processes⟩
  · rw [startTimers_apply, Event.onStartTimers, htimers]
    have hvals := Std.ExtTreeMap.perm_vals_insert s.startTimers timerKey
      ⟨timerKey, d.key, d.definition.id, el.id, some dueAt, intervalMillis, repeating⟩
    rw [Std.ExtTreeMap.erase_of_getElem?_eq_none hfresh] at hvals
    refine (hvals.map StartTimer.start).trans ?_
    rw [List.map_cons, ← List.append_assoc]
    exact (h.timers.cons _).trans (List.perm_append_singleton _ _).symm
  · rw [messageStartSubscriptions_apply, hmessages]
    exact h.messages
  · rw [startTimerFired_append (by simp [Event.origin])]
    rcases hget ht with ⟨rfl, rfl⟩ | ht
    · simp [hunfired]
    · exact h.timed.armed key t ht
  · rcases hget ht with ⟨rfl, rfl⟩ | ht
    · exact hminted
    · exact h.timed.keys key t ht
  · exact h.timed.fired key ((startTimerFired_append (by simp [Event.origin]) key).mp hfired)

/-- Other elements are not armed. -/
theorem skip {minted : Key → Prop} {s : State} (h : Arming minted table d others old done log s) {el : Element}
    (hmessage : el.startMessage = none) (htimer : el.startTimer = none) :
    Arming minted table d others old (done ++ [el]) log s := by
  have hmessages : d.messagesOf (done ++ [el]) = d.messagesOf done := by simp [DeployedProcess.messagesOf, hmessage]
  have htimers : d.timersOf (done ++ [el]) = d.timersOf done := by simp [DeployedProcess.timersOf, htimer]
  exact ⟨htimers ▸ h.timers, hmessages ▸ h.messages, h.timed, h.processes⟩

theorem mono {minted minted' : Key → Prop} {s : State} (h : Arming minted table d others old done log s)
    (hle : ∀ key, minted key → minted' key) : Arming minted' table d others old done log s :=
  ⟨h.timers, h.messages, h.timed.mono hle, h.processes⟩

/-- A start is armed. -/
theorem armStart (h : Arming s.engine.Minted table d others old done (past ++ s.log) s.engine.state) (el : Element)
    (hroom : ((NanoBpm.armStart d.key d.definition.id el).run s).2.engine.nextLocal ≤ localMask)
    (hname : ∀ start, el.startMessage = some start → (∀ m ∈ d.messagesOf done, m.messageName ≠ start.1) ∧
      ∀ o ∈ others, ∀ m ∈ o.messageStarts, m.messageName ≠ start.1) :
    Arming ((NanoBpm.armStart d.key d.definition.id el).run s).2.engine.Minted table d others old (done ++ [el])
      (past ++ ((NanoBpm.armStart d.key d.definition.id el).run s).2.log)
      ((NanoBpm.armStart d.key d.definition.id el).run s).2.engine.state := by
  unfold NanoBpm.armStart at hroom ⊢
  split at hroom
  · next messageName hkind =>
    have hmessage : el.startMessage = some (resolveEventName ∅ messageName, el.id) := by
      simp [Element.startMessage, hkind]
    obtain ⟨hnew, hothers⟩ := hname _ hmessage
    dsimp only at hnew hothers
    show Arming (s.applyEvent _).engine.Minted table d others old _ (past ++ (s.applyEvent _).log) (s.applyEvent _).engine.state
    rw [minted_applyEvent, PlanState.state_applyEvent, PlanState.log_applyEvent, ← List.append_assoc]
    exact h.apply_message hmessage (by simp [Element.startTimer, hkind]) hnew hothers
  · next intervalMillis repeating hkind =>
    have hless : s.engine.nextLocal < localMask := by
      rw [Plan.run_bind] at hroom
      exact Nat.lt_of_lt_of_le (Nat.lt_succ_self _) ((Plan.nextLocal_le_run _ s.mint.2).trans hroom)
    show Arming (s.mint.2.applyEvent _).engine.Minted table d others old _ (past ++ (s.mint.2.applyEvent _).log)
      (s.mint.2.applyEvent _).engine.state
    rw [minted_applyEvent, PlanState.state_applyEvent, PlanState.log_applyEvent, ← List.append_assoc]
    refine (h.mono fun _ => minted_mint).apply_timer (by simp [Element.startMessage, hkind]) (by simp [Element.startTimer, hkind]) ?_
      (fun hfired => not_minted_next hless (h.timed.fired _ hfired)) ⟨s.engine.nextLocal, Nat.lt_succ_self _, rfl⟩
    exact Option.eq_none_iff_forall_ne_some.mpr fun t ht => not_minted_next hless (h.timed.keys _ t ht)
  · next hmessage htimer =>
    refine h.skip ?_ ?_
    · unfold Element.startMessage
      split
      · next messageName hkind => exact absurd hkind (hmessage messageName)
      · rfl
    · unfold Element.startTimer
      split
      · next intervalMillis repeating hkind => exact absurd hkind (htimer intervalMillis repeating)
      · rfl

/-- All starts of the version are armed. -/
theorem forM_armStart (todo : List Element) (h : Arming s.engine.Minted table d others old done (past ++ s.log) s.engine.state)
    (hroom : ((todo.forM (NanoBpm.armStart d.key d.definition.id)).run s).2.engine.nextLocal ≤ localMask)
    (hnodup : ((done ++ todo).filterMap (·.startMessage)).map (·.1) |>.Nodup)
    (hothers : ∀ o ∈ others, ∀ m ∈ o.messageStarts, ∀ start ∈ todo.filterMap (·.startMessage), m.messageName ≠ start.1) :
    Arming ((todo.forM (NanoBpm.armStart d.key d.definition.id)).run s).2.engine.Minted table d others old (done ++ todo)
      (past ++ ((todo.forM (NanoBpm.armStart d.key d.definition.id)).run s).2.log)
      ((todo.forM (NanoBpm.armStart d.key d.definition.id)).run s).2.engine.state := by
  induction todo generalizing done s with
  | nil =>
    rw [List.append_nil]
    exact h
  | cons el todo ih =>
    have hrun : ((el :: todo).forM (NanoBpm.armStart d.key d.definition.id)).run s =
        (todo.forM (NanoBpm.armStart d.key d.definition.id)).run ((NanoBpm.armStart d.key d.definition.id el).run s).2 :=
      Plan.run_bind _ _ s
    rw [hrun] at hroom ⊢
    have hfirst := h.armStart el (Nat.le_trans (Plan.nextLocal_le_run _ _) hroom) fun start hstart => ⟨?_, ?_⟩
    · rw [List.append_cons] at hnodup ⊢
      refine ih hfirst hroom hnodup fun o ho m hm start hstart => hothers o ho m hm start ?_
      rw [List.filterMap_cons]
      split
      · exact hstart
      · exact List.mem_cons_of_mem _ hstart
    · intro m hm heq
      obtain ⟨other, hother, rfl⟩ := List.mem_map.mp hm
      rw [List.filterMap_append, List.filterMap_cons, hstart, List.map_append, List.map_cons] at hnodup
      exact (List.disjoint_of_nodup_append hnodup) (List.mem_map_of_mem hother) (by simp [← heq])
    · intro o ho m hm
      refine hothers o ho m hm start ?_
      rw [List.filterMap_cons, hstart]
      exact List.mem_cons_self

end Arming

/-- The versions a new version of `processId` does not replace. -/
def State.othersOf (s : State) (processId : String) : List DeployedProcess := (s.processes.erase processId).vals

/-- What the version before subscribed to. -/
def State.oldStarts (s : State) (processId : String) : List MessageStartSubscription :=
  (s.processes[processId]?.map (·.messageStarts)).getD []

/-- The declared starts, by whether the process is the given one. -/
theorem mem_vals_iff_old_or_other {s : State} (processId : String) {m : MessageStartSubscription} :
    (∃ d ∈ s.processes.vals, m ∈ d.messageStarts) ↔
      (∃ o ∈ s.othersOf processId, m ∈ o.messageStarts) ∨ m ∈ s.oldStarts processId := by
  unfold State.othersOf State.oldStarts
  cases hold : s.processes[processId]? with
  | none => simp [Std.ExtTreeMap.erase_of_getElem?_eq_none hold]
  | some o =>
    have hperm := Std.ExtTreeMap.perm_vals_of_getElem? hold
    simp only [hperm.mem_iff, List.mem_cons, exists_eq_or_imp, Option.map_some, Option.getD_some]
    exact or_comm

/-- What a clean version finds. -/
theorem replaces_latest {s : State} {process : ProcessDefinition}
    (hkeyed : ∀ (processId : String) (d : DeployedProcess), s.processes[processId]? = some d → d.definition.id = processId)
    (h : process.replaces s.latest = true) :
    (∀ o, s.processes[process.id]? = some o → o.definition.startTimers = [] ∧
      ∀ name ∈ o.definition.startNames, name ∈ process.startNames) ∧
    process.startNames.Nodup ∧
    ∀ o ∈ s.othersOf process.id, ∀ name ∈ o.definition.startNames, name ∉ process.startNames := by
  simp only [ProcessDefinition.replaces, Bool.and_eq_true, decide_eq_true_eq, List.all_eq_true, Bool.or_eq_true,
    beq_iff_eq, Bool.not_eq_true'] at h
  obtain ⟨⟨hold, hnodup⟩, hothers⟩ := h
  refine ⟨fun o ho => ?_, hnodup, fun o ho name hname hmem => ?_⟩
  · have hlatest : s.latest[process.id]? = some o.definition := by simp [State.latest, ho]
    simpa [hlatest] using hold
  · obtain ⟨processId, ho⟩ := Std.ExtTreeMap.mem_vals.mp ho
    rw [Std.ExtTreeMap.getElem?_erase] at ho
    split at ho
    · cases ho
    · next hne =>
      have hother := hothers o.definition (Std.ExtTreeMap.mem_vals.mpr ⟨processId, by simp [State.latest, ho]⟩)
      rcases hother with hid | hdisjoint
      · exact hne (by simp [← hid, hkeyed processId o ho])
      · simpa [hmem] using hdisjoint name hname

/-- The new version is the latest one, and none of its starts is armed yet. -/
theorem StartTriggers.arming {minted : Key → Prop} {log : List Event} {s : State} (h : StartTriggers minted log s)
    {process : ProcessDefinition} (hclean : process.replaces s.latest = true)
    (hnormal : process.normalizeLegacyAgentTasks = process) (deploymentKey key : Key) {version : Int}
    (hversion : isLatest version (s.processes[process.id]?.map (·.version)) = true) :
    Arming minted (s.processes.insert process.id ⟨key, version, process⟩) ⟨key, version, process⟩
      (s.othersOf process.id) (s.oldStarts process.id) [] (log ++ [.processDeployed deploymentKey key version process])
      (apply s (.processDeployed deploymentKey key version process)) := by
  obtain ⟨hold, -, -⟩ := replaces_latest h.keyed hclean
  refine ⟨?_, fun messageName m => ?_, ?_, ?_⟩
  · rw [startTimers_apply]
    refine h.timers.trans ?_
    simp only [DeployedProcess.timersOf, List.filterMap_nil, List.map_nil, List.append_nil, State.othersOf]
    cases ho : s.processes[process.id]? with
    | none => rw [Std.ExtTreeMap.erase_of_getElem?_eq_none ho]
    | some o =>
      have hnone : o.timerStarts = [] := by
        have hempty : o.definition.typedStarts.filterMap (·.startTimer) = [] := (hold o ho).1
        simp [DeployedProcess.timerStarts, DeployedProcess.timersOf, hempty]
      refine ((Std.ExtTreeMap.perm_vals_of_getElem? ho).flatMap_right _).trans ?_
      rw [List.flatMap_cons, hnone, List.nil_append]
  · rw [messageStartSubscriptions_apply]
    refine (h.messages messageName m).trans (and_congr_right fun _ => ?_)
    rw [mem_vals_iff_old_or_other process.id]
    simp [DeployedProcess.messagesOf]
  · exact h.timed.append (by simp [Event.origin]) (startTimers_apply ..)
  · simp only [apply, applyProcess, hversion, if_true, hnormal]

/-- When all its starts are armed, nothing of the version before it is left. -/
theorem Arming.startTriggers {minted : Key → Prop} {log : List Event} {s₀ s : State} (d : DeployedProcess)
    (h : Arming minted (s₀.processes.insert d.definition.id d) d (s₀.othersOf d.definition.id)
      (s₀.oldStarts d.definition.id) d.definition.typedStarts log s)
    (hkeyed : ∀ (processId : String) (o : DeployedProcess), s₀.processes[processId]? = some o → o.definition.id = processId)
    (hold : ∀ o, s₀.processes[d.definition.id]? = some o → ∀ name ∈ o.definition.startNames, name ∈ d.definition.startNames) :
    StartTriggers minted log s := by
  have hvals := Std.ExtTreeMap.perm_vals_insert s₀.processes d.definition.id d
  refine ⟨⟨?_, fun messageName m => ?_, h.timed.armed⟩, ?_, h.timed.keys, h.timed.fired⟩
  · rw [h.processes]
    refine h.timers.trans (.trans ?_ (hvals.flatMap_right _).symm)
    rw [List.flatMap_cons]
    exact List.perm_append_comm
  · rw [h.messages, h.processes]
    simp only [hvals.mem_iff, List.mem_cons, exists_eq_or_imp]
    refine and_congr_right fun hname => ?_
    constructor
    · rintro (hother | hnew | ⟨hm, hnone⟩)
      · exact .inr hother
      · exact .inl hnew
      · -- the name is one of the new version's, and what is subscribed under it is of the new version
        exfalso
        unfold State.oldStarts at hm
        cases ho : s₀.processes[d.definition.id]? with
        | none => simp [ho] at hm
        | some o =>
          simp only [ho, Option.map_some, Option.getD_some, DeployedProcess.messageStarts, DeployedProcess.messagesOf,
            List.mem_map] at hm
          obtain ⟨start, hstart, rfl⟩ := hm
          obtain ⟨start', hstart', heq⟩ := List.mem_map.mp (hold o ho start.1 (List.mem_map_of_mem hstart))
          refine hnone ⟨d.key, d.definition.id, start'.1, start'.2⟩ (List.mem_map_of_mem hstart') ?_
          exact heq.trans hname
    · rintro (hnew | hother)
      · exact .inr (.inl hnew)
      · exact .inl hother
  · rw [h.processes]
    intro processId o ho
    rw [Std.ExtTreeMap.getElem?_insert] at ho
    split at ho
    · next heq =>
      cases ho
      exact Std.LawfulEqCmp.eq_of_compare heq
    · exact hkeyed processId o ho

/-! ## A deployment -/

/-- One turn of the loop of `deploy`. -/
def deployVersion (deploymentKey : Key) (process : ProcessDefinition) : Plan Unit := do
  let e ← Plan.self
  if !(e.state.processes[process.id]?.any (·.definition.same process)) then
    let version := e.state.nextVersion process.id
    let processDefinitionKey ← Plan.mintKey
    Plan.emit (.processDeployed deploymentKey processDefinitionKey version process)
    process.typedStarts.forM (armStart processDefinitionKey process.id)

omit [Feel] in
theorem latest_insert (s : State) (processId : String) (d : DeployedProcess) :
    (s.processes.insert processId d).map (fun _ d => d.definition) = s.latest.insert processId d.definition := by
  refine Std.ExtTreeMap.ext_getElem? fun k => ?_
  simp only [State.latest, Std.ExtTreeMap.getElem?_map, Std.ExtTreeMap.getElem?_insert]
  split <;> rfl

/-- A clean version, or the latest one once more. -/
theorem startTriggers_deployVersion {past : List Event} {s : PlanState}
    (h : StartTriggers s.engine.Minted (past ++ s.log) s.engine.state)
    {deploymentKey : Key} {process : ProcessDefinition} (hnormal : process.normalizeLegacyAgentTasks = process)
    (hclean : s.engine.state.latest[process.id]?.any (·.same process) = false →
      process.replaces s.engine.state.latest = true)
    (hroom : ((deployVersion deploymentKey process).run s).2.engine.nextLocal ≤ localMask) :
    StartTriggers ((deployVersion deploymentKey process).run s).2.engine.Minted
        (past ++ ((deployVersion deploymentKey process).run s).2.log)
        ((deployVersion deploymentKey process).run s).2.engine.state ∧
      ((deployVersion deploymentKey process).run s).2.engine.state.latest =
        if s.engine.state.latest[process.id]?.any (·.same process) then s.engine.state.latest
        else s.engine.state.latest.insert process.id process := by
  have hsame : s.engine.state.latest[process.id]?.any (·.same process) =
      s.engine.state.processes[process.id]?.any (·.definition.same process) := by
    simp [State.latest, Option.any_map]
  have hrun : (deployVersion deploymentKey process).run s = (if
      !(s.engine.state.processes[process.id]?.any (·.definition.same process)) then
        (do
          let version := s.engine.state.nextVersion process.id
          let processDefinitionKey ← Plan.mintKey
          Plan.emit (.processDeployed deploymentKey processDefinitionKey version process)
          process.typedStarts.forM (armStart processDefinitionKey process.id) : Plan Unit)
      else Pure.pure ()).run s := rfl
  rw [hrun] at hroom ⊢
  rw [hsame] at hclean ⊢
  cases hdeployed : s.engine.state.processes[process.id]?.any (·.definition.same process) with
  | true =>
    simp only [Bool.not_true, Bool.false_eq_true, if_false, if_true]
    exact ⟨h, rfl⟩
  | false =>
    have hclean := hclean hdeployed
    simp only [hdeployed, Bool.not_false, if_true, Bool.false_eq_true, if_false] at hroom ⊢
    let key := s.mint.1
    let version := s.engine.state.nextVersion process.id
    have hversion : isLatest version (s.engine.state.processes[process.id]?.map (·.version)) = true := by
      simp only [version, State.nextVersion, isLatest]
      cases s.engine.state.processes[process.id]? with
      | none => rfl
      | some o => exact decide_eq_true (Int.le_of_lt (Int.lt_succ o.version))
    obtain ⟨hold, hnodup, hothers⟩ := replaces_latest h.keyed hclean
    have harming := (h.mono fun _ => minted_mint).arming hclean hnormal deploymentKey key hversion
    let deployed := s.mint.2.applyEvent (.processDeployed deploymentKey key version process)
    have hstart : Arming deployed.engine.Minted (s.engine.state.processes.insert process.id ⟨key, version, process⟩)
        ⟨key, version, process⟩ (s.engine.state.othersOf process.id) (s.engine.state.oldStarts process.id) []
        (past ++ deployed.log) deployed.engine.state := by
      show Arming (PlanState.applyEvent _ _).engine.Minted _ _ _ _ _ (past ++ (PlanState.applyEvent _ _).log)
        (PlanState.applyEvent _ _).engine.state
      rw [minted_applyEvent, PlanState.state_applyEvent, PlanState.log_applyEvent, ← List.append_assoc]
      exact harming
    have hend := hstart.forM_armStart process.typedStarts hroom hnodup ?_
    · rw [List.nil_append] at hend
      refine ⟨Arming.startTriggers ⟨key, version, process⟩ hend h.keyed fun o ho =>
        (hold o ho).2, ?_⟩
      unfold State.latest
      rw [show (Plan.run _ s).2.engine.state.processes = _ from hend.processes]
      exact latest_insert s.engine.state process.id ⟨key, version, process⟩
    · intro o ho m hm start hstart heq
      obtain ⟨start', hstart', rfl⟩ := List.mem_map.mp hm
      refine hothers o ho start'.1 (List.mem_map_of_mem hstart') ?_
      rw [show start'.1 = start.1 from heq]
      exact List.mem_map_of_mem hstart

/-- The loop of `deploy`. -/
theorem StartTriggers.forM_deployVersion {deploymentKey : Key} {processes : List ProcessDefinition} {past : List Event}
    {s : PlanState} (h : StartTriggers s.engine.Minted (past ++ s.log) s.engine.state)
    (hnormal : ∀ process ∈ processes, process.normalizeLegacyAgentTasks = process)
    (hclean : replacesAll s.engine.state.latest processes = true)
    (hroom : ((processes.forM (deployVersion deploymentKey)).run s).2.engine.nextLocal ≤ localMask) :
    StartTriggers ((processes.forM (deployVersion deploymentKey)).run s).2.engine.Minted
      (past ++ ((processes.forM (deployVersion deploymentKey)).run s).2.log)
      ((processes.forM (deployVersion deploymentKey)).run s).2.engine.state := by
  induction processes generalizing s with
  | nil => exact h
  | cons process processes ih =>
    have hrun : ((process :: processes).forM (deployVersion deploymentKey)).run s =
        (processes.forM (deployVersion deploymentKey)).run ((deployVersion deploymentKey process).run s).2 :=
      Plan.run_bind _ _ s
    rw [hrun] at hroom ⊢
    unfold replacesAll at hclean
    obtain ⟨hfirst, hlatest⟩ := startTriggers_deployVersion h (hnormal process (by simp))
      (fun hnew => by simp_all) (Nat.le_trans (Plan.nextLocal_le_run _ _) hroom)
    refine ih hfirst (fun other hother => hnormal other (by simp [hother])) ?_ hroom
    rw [hlatest]
    split
    · next hsame => simpa [hsame] using hclean
    · next hnew => simp_all

/-- `deploy`, of versions that leave nothing behind. -/
theorem StartTriggers.deployProcesses {processes : List ProcessDefinition} {past : List Event} {s : PlanState}
    (h : StartTriggers s.engine.Minted (past ++ s.log) s.engine.state)
    (hnormal : ∀ process ∈ processes, process.normalizeLegacyAgentTasks = process)
    (hclean : replacesAll s.engine.state.latest processes = true)
    (hroom : ((deployProcesses processes).run s).2.engine.nextLocal ≤ localMask) :
    StartTriggers ((NanoBpm.deployProcesses processes).run s).2.engine.Minted
      (past ++ ((NanoBpm.deployProcesses processes).run s).2.log)
      ((NanoBpm.deployProcesses processes).run s).2.engine.state := by
  let created := s.mint.2.applyEvent (.deploymentCreated s.mint.1)
  have hrun : (NanoBpm.deployProcesses processes).run s = (processes.forM (deployVersion s.mint.1)).run created := rfl
  have hcreated : StartTriggers created.engine.Minted (past ++ created.log) created.engine.state := by
    show StartTriggers (PlanState.applyEvent _ _).engine.Minted (past ++ (PlanState.applyEvent _ _).log)
      (PlanState.applyEvent _ _).engine.state
    rw [minted_applyEvent, PlanState.state_applyEvent, PlanState.log_applyEvent, ← List.append_assoc]
    exact (h.mono fun _ => minted_mint).apply_event (by simp [Event.origin]) (by simp [Event.origin])
  rw [hrun] at hroom ⊢
  refine hcreated.forM_deployVersion hnormal ?_ hroom
  have hlatest : created.engine.state.latest = s.engine.state.latest := by
    show (PlanState.applyEvent _ _).engine.state.latest = _
    rw [PlanState.state_applyEvent]
    rfl
  rwa [hlatest]

/-! ## Messages that start instances -/

omit [Feel] in
/-- The process of which an event starts an instance, here or on another partition. -/
def Event.started : Event → Option String
  | .processInstanceCreated _ processId _ _ _ _ _ _ none _ | .startInstanceDispatched processId .. => some processId
  | _ => none

omit [Feel] in
theorem started_of_origin {event : Event} (hstart : event.origin ≠ .start) (hdispatch : event.origin ≠ .dispatch) :
    event.started = none := by
  unfold Event.started
  split
  · exact absurd rfl hstart
  · exact absurd rfl hdispatch
  · rfl

omit [Feel] in
/-- The processes of which a log starts instances. -/
def startedProcesses (log : List Event) : List String := log.filterMap (·.started)

omit [Feel] in
theorem startedProcesses_startOrDispatchInstance (processId : String) (startEvent : ElementId) (vars : Vars)
    (s : PlanState) :
    startedProcesses ((startOrDispatchInstance processId startEvent vars [] none).run s).2.log =
      startedProcesses s.log ++ [processId] := by
  have hstart : ∀ s : PlanState, startedProcesses ((startInstance processId startEvent vars [] none 0).run s).2.log =
      startedProcesses s.log ++ [processId] := by
    intro s
    show startedProcesses (s.mint.2.applyEvent _).log = _
    rw [PlanState.log_applyEvent, startedProcesses, List.filterMap_append]
    rfl
  unfold startOrDispatchInstance
  rw [Plan.run_bind]
  show startedProcesses (Plan.run _ s).2.log = _
  split
  · exact hstart s
  · rw [Plan.run_bind]
    dsimp only
    split
    · exact hstart s.advanceDispatch.2
    · show startedProcesses (s.advanceDispatch.2.applyEvent _).log = _
      rw [PlanState.log_applyEvent, startedProcesses, List.filterMap_append]
      rfl

omit [Feel] in
theorem startedProcesses_forM (starts : List (String × ElementId)) (vars : Vars) (s : PlanState) :
    startedProcesses ((starts.forM fun (processId, startElementId) =>
        startOrDispatchInstance processId startElementId vars [] none).run s).2.log =
      startedProcesses s.log ++ starts.map (·.1) := by
  induction starts generalizing s with
  | nil => simp [List.forM]; rfl
  | cons start starts ih =>
    have hrun : ((start :: starts).forM fun (processId, startElementId) =>
        startOrDispatchInstance processId startElementId vars [] none).run s =
        (starts.forM fun (processId, startElementId) =>
          startOrDispatchInstance processId startElementId vars [] none).run
            ((startOrDispatchInstance start.1 start.2 vars [] none).run s).2 := Plan.run_bind _ _ s
    rw [hrun, ih, startedProcesses_startOrDispatchInstance]
    simp

omit [Feel] in
/-- A message that no open subscription waits for starts what is subscribed under its name. -/
theorem startedProcesses_correlateMessage {s : PlanState} {messageName correlationKey : String} {vars : Vars}
    (hkeyed : ∀ (name : String) (m : MessageStartSubscription),
      s.engine.state.messageStartSubscriptions[name]? = some m → m.messageName = name)
    (hnone : ∀ sub ∈ s.engine.state.messageSubscriptions.vals,
      (sub.state == .opened && sub.messageName == messageName && sub.correlationKey == correlationKey) = false) :
    startedProcesses ((correlateMessage messageName correlationKey vars).run s).2.log =
      startedProcesses s.log ++ s.engine.state.messageStartSubscriptions[messageName]?.toList.map (·.processId) := by
  let published := s.mint.2.applyEvent (.messagePublished s.mint.1 messageName correlationKey)
  have hstate : published.engine.state = s.engine.state := PlanState.state_applyEvent _ _
  have hlog : startedProcesses published.log = startedProcesses s.log := by
    show startedProcesses (PlanState.applyEvent _ _).log = _
    rw [PlanState.log_applyEvent, startedProcesses, List.filterMap_append]
    exact List.append_nil _
  have hmatched : published.engine.state.messageSubscriptions.vals.filter (fun sub =>
      sub.state == .opened && sub.messageName == messageName && sub.correlationKey == correlationKey) = [] := by
    rw [hstate]
    exact List.filter_eq_nil_iff.mpr fun sub hsub => by simp [hnone sub hsub]
  rw [run_correlateMessage, hmatched]
  show startedProcesses (Plan.run (List.forM (List.insertionSort _ ((published.engine.state.messageStartSubscriptions.vals.filter
    (·.messageName == messageName)).map fun s => (s.processId, s.startElementId))) _) published).2.log = _
  rw [hstate, Std.ExtTreeMap.filter_vals_eq_toList MessageStartSubscription.messageName hkeyed,
    startedProcesses_forM, hlog]
  cases s.engine.state.messageStartSubscriptions[messageName]? <;> rfl

/-- Of every process that declares the message there is one instance started, of the others none. -/
theorem StartTriggers.count_started {minted : Key → Prop} {log : List Event} {s : State} (h : StartTriggers minted log s)
    (messageName processId : String) :
    (s.messageStartSubscriptions[messageName]?.toList.map (·.processId)).count processId =
      if s.latest[processId]?.any (·.startNames.contains messageName) then 1 else 0 := by
  split
  · next hdeclared =>
    simp only [Option.any_eq_true, State.latest, Std.ExtTreeMap.getElem?_map, Option.map_eq_some_iff] at hdeclared
    obtain ⟨_, ⟨d, hd, rfl⟩, hname⟩ := hdeclared
    obtain ⟨start, hstart, rfl⟩ := List.mem_map.mp (List.contains_iff_mem.mp hname)
    have hget := (h.messages start.1 ⟨d.key, d.definition.id, start.1, start.2⟩).mpr
      ⟨rfl, d, Std.ExtTreeMap.mem_vals.mpr ⟨processId, hd⟩, List.mem_map_of_mem hstart⟩
    simp [hget, h.keyed processId d hd]
  · next hnot =>
    refine List.count_eq_zero.mpr fun hmem => hnot ?_
    obtain ⟨m, hm, rfl⟩ := List.mem_map.mp hmem
    obtain ⟨rfl, d, hd, hmem⟩ := (h.messages messageName m).mp (Option.mem_toList.mp hm)
    obtain ⟨start, hstart, rfl⟩ := List.mem_map.mp hmem
    obtain ⟨processId, hd⟩ := Std.ExtTreeMap.mem_vals.mp hd
    have hid := h.keyed processId d hd
    simp only [Option.any_eq_true, State.latest, Std.ExtTreeMap.getElem?_map, Option.map_eq_some_iff]
    exact ⟨d.definition, ⟨d, hid ▸ hd, rfl⟩, List.contains_iff_mem.mpr (List.mem_map_of_mem hstart)⟩

/-! ## Timers that fire -/

/-- Plans that deploy nothing and fire no start timer. -/
theorem StartTriggers.of_within {α : Type} {minted : Key → Prop} (os : List Origin) {p : Plan α}
    (hp : p.Within (fun _ => True) os) (hdeployment : .deployment ∉ os) (hrearm : .rearm ∉ os) {past : List Event} {s : PlanState}
    (h : StartTriggers minted (past ++ s.log) s.engine.state) :
    StartTriggers minted (past ++ (p.run s).2.log) (p.run s).2.engine.state := by
  refine Plan.keeps_run (I := StartTriggers minted) (fun log s event hevent h => h.apply_event ?_ ?_) past
    (hp.log s fun _ _ _ => trivial) h
  · intro horigin
    exact hdeployment (by simpa [horigin] using hevent.origin)
  · intro horigin
    exact hrearm (by simpa [horigin] using hevent.origin)

/-- A start timer fires. -/
theorem StartTriggers.fireStartTimer {minted : Key → Prop} {timerKey : Key} {past : List Event} {s : PlanState}
    (h : StartTriggers minted (past ++ s.log) s.engine.state) :
    StartTriggers minted (past ++ ((NanoBpm.fireStartTimer timerKey).run s).2.log)
      ((NanoBpm.fireStartTimer timerKey).run s).2.engine.state := by
  unfold NanoBpm.fireStartTimer
  rw [Plan.run_bind]
  simp only [show Plan.self.run s = (s.engine, s) from rfl]
  split
  · exact h
  · next t ht =>
    split
    · exact h
    · next dueAt hdue =>
      rw [Plan.run_bind]
      refine StartTriggers.of_within [.dispatch, .start] within_startOrDispatchInstance (by simp) (by simp) ?_
      show StartTriggers minted (past ++ (PlanState.applyEvent s _).log) (PlanState.applyEvent s _).engine.state
      rw [PlanState.state_applyEvent, PlanState.log_applyEvent, ← List.append_assoc]
      refine h.apply_fired ht ?_
      cases t.repeating <;> simp

/-- All start timers that are due fire, one after the other. -/
theorem StartTriggers.forM_fireStartTimer {minted : Key → Prop} (due : List Key) {past : List Event} {s : PlanState}
    (h : StartTriggers minted (past ++ s.log) s.engine.state) :
    StartTriggers minted (past ++ ((due.forM NanoBpm.fireStartTimer).run s).2.log)
      ((due.forM NanoBpm.fireStartTimer).run s).2.engine.state := by
  induction due generalizing s with
  | nil => exact h
  | cons timerKey due ih =>
    have hrun : ((timerKey :: due).forM NanoBpm.fireStartTimer).run s =
        (due.forM NanoBpm.fireStartTimer).run ((NanoBpm.fireStartTimer timerKey).run s).2 := Plan.run_bind _ _ s
    rw [hrun]
    exact ih h.fireStartTimer

theorem StartTriggers.triggerTimers {minted : Key → Prop} {now : Nat} {past : List Event} {s : PlanState}
    (h : StartTriggers minted (past ++ s.log) s.engine.state) :
    StartTriggers minted (past ++ ((NanoBpm.triggerTimers now).run s).2.log) ((NanoBpm.triggerTimers now).run s).2.engine.state := by
  obtain ⟨due, starts, hrun⟩ : ∃ due starts : List Key, (NanoBpm.triggerTimers now).run s =
      (starts.forM NanoBpm.fireStartTimer).run ((due.forM triggerTimer).run s).2 := by
    unfold NanoBpm.triggerTimers
    rw [Plan.run_bind, show Plan.self.run s = (s.engine, s) from rfl, Plan.run_bind, Plan.run_bind]
    exact ⟨_, _, rfl⟩
  have htriggered : StartTriggers minted (past ++ ((due.forM triggerTimer).run s).2.log)
      ((due.forM triggerTimer).run s).2.engine.state :=
    StartTriggers.of_within [.timer] (Plan.emits_forM fun _ _ => within_triggerTimer) (by simp) (by simp) h
  rw [hrun]
  exact htriggered.forM_fireStartTimer starts

namespace Engine

/-- A deployment of versions that leave nothing behind. -/
def deploysCleanly (e : Engine) : HostCall → Bool
  | .applyCommandAt (.deployProcess process) _ => replacesAll e.state.latest [process.normalizeLegacyAgentTasks]
  | .applyCommandAt (.deployResources processes) _ =>
    replacesAll e.state.latest (processes.map (·.normalizeLegacyAgentTasks))
  | _ => true

theorem logInvariant_startTriggers :
    LogInvariant fun log e => e.nextLocal ≤ localMask → StartTriggers e.Minted log e.state := by
  refine .of_minted (I := StartTriggers) fun {log s s' events} hstretch _ h => ?_
  rw [hstretch.state]
  refine Plan.keeps_applyAll (I := StartTriggers s'.engine.Minted) (P := fun event => event.origin ≠ .deployment ∧ event.origin ≠ .rearm)
    (fun _ s event hevent h => h.apply_event hevent.1 hevent.2) log ?_ (h.mono fun _ => hstretch.minted)
  intro event hevent
  have hallowed := (hstretch.allowed event hevent).origin
  exact ⟨fun horigin => by simp [horigin] at hallowed, fun horigin => by simp [horigin] at hallowed⟩

/-- The plan of a deployment, of versions that leave nothing behind. -/
theorem startTriggers_deploy (processes : List ProcessDefinition) {past : List Event} {s s' : PlanState}
    (h : StartTriggers s.engine.Minted (past ++ s.log) s.engine.state)
    (hclean : replacesAll s.engine.state.latest (processes.map (·.normalizeLegacyAgentTasks)) = true)
    (hs : deploy processes s = (.ok (), s')) (hroom : s'.engine.nextLocal ≤ localMask) :
    StartTriggers s'.engine.Minted (past ++ s'.log) s'.engine.state := by
  obtain ⟨-, -, hrun⟩ | ⟨err, -, hrun⟩ := Cmd.check_bind_cases (fun _ => checkStartEvents (processes.map (·.normalizeLegacyAgentTasks)))
    (fun _ => Cmd.plan (deployProcesses (processes.map (·.normalizeLegacyAgentTasks)))) s
  · obtain rfl := congrArg Prod.snd (hrun.symm.trans hs)
    refine h.deployProcesses (fun process hprocess => ?_) hclean hroom
    obtain ⟨original, -, rfl⟩ := List.mem_map.mp hprocess
    exact original.normalizeLegacyAgentTasks_idem
  · cases hrun.symm.trans hs

theorem startTriggers_planCommandAt {log : List Event} {e : Engine} {command : Command} {now : Nat} {s : PlanState}
    (h : e.nextLocal ≤ localMask → StartTriggers e.Minted log e.state)
    (hclean : e.deploysCleanly (.applyCommandAt command now) = true) (hs : e.planCommandAt command now = (.ok (), s))
    (hroom : s.engine.nextLocal ≤ localMask) : StartTriggers s.engine.Minted (log ++ s.log) s.engine.state := by
  have hrun : (planCommand command { engine := e.beginCommand now }).2 = s := congrArg Prod.snd hs
  obtain ⟨hnext, hminted⟩ := minted_planCommandAt hs
  have hbefore : StartTriggers e.Minted (log ++ []) e.state := by
    simpa using h (Nat.le_trans hnext hroom)
  have hlater := hbefore.mono hminted
  by_cases hdeployment : .deployment ∈ command.origins
  · cases command <;> simp [Command.origins] at hdeployment
    case deployProcess process =>
      exact startTriggers_deploy [process] (s := { engine := e.beginCommand now }) hbefore hclean hs hroom
    case deployResources processes =>
      exact startTriggers_deploy processes (s := { engine := e.beginCommand now }) hbefore hclean hs hroom
  · rw [← hrun]
    rw [← hrun] at hlater
    by_cases hrearm : .rearm ∈ command.origins
    · cases command <;> simp [Command.origins] at hrearm
      case triggerTimers upTo =>
        exact hlater.triggerTimers (s := { engine := e.beginCommand now })
    · obtain ⟨p, hp⟩ := runsPlan_planCommand command { engine := e.beginCommand now }
      have hevents := within_planCommand command (F := fun _ => True) (fun _ _ => trivial) { engine := e.beginCommand now }
        fun _ _ _ => trivial
      rw [hp] at hevents hlater ⊢
      refine Plan.keeps_run (I := StartTriggers _) (fun log s event hevent h => h.apply_event ?_ ?_) log hevents hlater
      · intro horigin
        exact hdeployment (by simpa [horigin] using hevent.origin)
      · intro horigin
        exact hrearm (by simpa [horigin] using hevent.origin)

/-- What settles a command starts no instance but those its plan did. -/
theorem startedProcesses_settle (fuel : Nat) (s : PlanState) :
    startedProcesses ((settle fuel).run s).2.log = startedProcesses s.log := by
  obtain ⟨events, hevents⟩ := Plan.inStretches_settle fuel s
  rw [hevents.log, startedProcesses, List.filterMap_append]
  have hnone : events.filterMap (·.started) = [] := by
    refine List.filterMap_eq_nil_iff.mpr fun event hevent => ?_
    have horigin := hevents.origin hevent
    exact started_of_origin (fun h => by simp [h] at horigin) (fun h => by simp [h] at horigin)
  rw [hnone, List.append_nil]
  rfl

/-- A message that no open subscription waits for starts one instance of every process that declares it. -/
theorem startedProcesses_applyCommandAt {log : List Event} {e : Engine} (h : StartTriggers e.Minted log e.state) (fuel : Nat)
    {messageName correlationKey : String} {vars : Vars} {now : Nat}
    (hnone : ∀ sub ∈ e.state.messageSubscriptions.vals,
      (sub.state == .opened && sub.messageName == messageName && sub.correlationKey == correlationKey) = false)
    (processId : String) :
    (startedProcesses (returned (e.applyCommandAt fuel (.correlateMessage messageName correlationKey vars) now).1)).count
      processId = if e.state.latest[processId]?.any (·.startNames.contains messageName) then 1 else 0 := by
  show (startedProcesses ((settle fuel).run
    ((correlateMessage messageName correlationKey vars).run { engine := e.beginCommand now }).2).2.log).count processId = _
  rw [startedProcesses_settle, startedProcesses_correlateMessage (fun name m hm => ((h.messages name m).mp hm).1) hnone]
  exact h.count_started messageName processId

/-- In every run whose deployments leave nothing behind, and that stays within the key space of the partition, the start
triggers are those that the latest versions declare, every start timer that is a cycle or has not fired is due, and a
message that no open subscription waits for starts exactly one instance of every process whose latest version declares
it. -/
theorem start_triggers_are_those_of_latest_versions (fuel partitionId : Nat) (calls : List HostCall)
    (hroom : (runCalls fuel (withPartition partitionId) calls).2.nextLocal ≤ localMask)
    (hcalls : AlongCalls fuel (fun _ e c => e.deploysCleanly c = true) [] (withPartition partitionId) calls) :
    let e := (runCalls fuel (withPartition partitionId) calls).2
    e.state.StartsExact (runCalls fuel (withPartition partitionId) calls).1 ∧
      ∀ (fuel' : Nat) (messageName correlationKey : String) (vars : Vars) (now : Nat),
      (∀ sub ∈ e.state.messageSubscriptions.vals,
        (sub.state == .opened && sub.messageName == messageName && sub.correlationKey == correlationKey) = false) →
      ∀ processId : String, (startedProcesses (returned
          (e.applyCommandAt fuel' (.correlateMessage messageName correlationKey vars) now).1)).count processId =
        if e.state.latest[processId]?.any (·.startNames.contains messageName) then 1 else 0 := by
  have hunfired : ∀ timerKey, ¬ StartTimerFired [] timerKey := by
    rintro timerKey ⟨nextDueAt, hfired⟩
    exact List.not_mem_nil hfired
  have hstart : StartTriggers (withPartition partitionId).Minted [] (withPartition partitionId).state := by
    refine ⟨⟨by rfl, fun messageName m => ?_, fun timerKey t ht => ?_⟩, fun processId d hd => ?_, fun timerKey t ht => ?_,
      fun timerKey hfired => absurd hfired (hunfired timerKey)⟩
    · constructor
      · intro hm
        exact absurd (hm.symm.trans Std.ExtTreeMap.getElem?_empty) (by simp)
      · rintro ⟨-, d, hd, -⟩
        exact absurd hd List.not_mem_nil
    · exact absurd (ht.symm.trans Std.ExtTreeMap.getElem?_empty) (by simp)
    · exact absurd (hd.symm.trans Std.ExtTreeMap.getElem?_empty) (by simp)
    · exact absurd (ht.symm.trans Std.ExtTreeMap.getElem?_empty) (by simp)
  have hend := logInvariant_startTriggers.calls (fun h hcond hs => startTriggers_planCommandAt h hcond hs) fuel (by rfl)
    (fun _ => hstart) hcalls hroom
  rw [List.nil_append] at hend
  exact ⟨hend.toStartsExact, fun fuel' messageName correlationKey vars now hnone processId =>
    startedProcesses_applyCommandAt hend fuel' hnone processId⟩

end Engine

end Deployments

namespace Engine

/-- A process with the given starts beside its plain one. -/
def startedBy (id : String) (starts : List Element) : ProcessDefinition where
  id
  startEvent := "start"
  elements := starts.foldl (fun els el => els.insert el.id el) (({} : StrMap Element)
    |>.insert "start" { id := "start", kind := .startEvent, outgoing := [{ target := "done" }] }
    |>.insert "done" { id := "done", kind := .endEvent })

def onMessage (id : ElementId) (messageName : String) : Element where
  id
  kind := .messageStartEvent messageName
  outgoing := [{ target := "done" }]

def onTimer (id : ElementId) : Element where
  id
  kind := .timerStartEvent 60 true
  outgoing := [{ target := "done" }]

def deployments (processes : List ProcessDefinition) : List HostCall :=
  processes.map fun process => .applyCommandAt (.deployProcess process) 0

/-- Two processes, of which the first is deployed again with one start message more, before the timer of the second fires
once. -/
def cleanDeployments : List HostCall :=
  deployments [startedBy "order" [onMessage "placed" "placed"], startedBy "report" [onTimer "daily"],
    startedBy "order" [onMessage "placed" "placed", onMessage "changed" "changed"]] ++ [.applyCommandAt (.triggerTimers 60) 60]

/-- The second version of the order process is the one that its message starts. -/
theorem start_triggers_after_clean_deployments :
    @State.StartsExact Feel.refusing (@runCalls Feel.refusing 40 (withPartition 0) cleanDeployments).1
        (@runCalls Feel.refusing 40 (withPartition 0) cleanDeployments).2.state ∧
      (startedProcesses (returned (@applyCommandAt Feel.refusing 40
        (@runCalls Feel.refusing 40 (withPartition 0) cleanDeployments).2
        (.correlateMessage "changed" "" ∅) 0).1)).count "order" = 1 := by
  obtain ⟨hexact, hstarts⟩ := @start_triggers_are_those_of_latest_versions Feel.refusing 40 0 cleanDeployments
    (by decide +kernel) (by decide +kernel)
  refine ⟨hexact, (hstarts 40 "changed" "" ∅ 0 (by decide +kernel) "order").trans ?_⟩
  decide +kernel

/-- A new version with a timer start: two timers are armed, of which the latest version declares one. -/
theorem redeployment_leaves_timer_armed :
    let run := @runCalls Feel.refusing 40 (withPartition 0)
      (deployments [startedBy "report" [onTimer "daily"], startedBy "report" [onTimer "nightly"]])
    run.2.state.startTimers.vals.map (·.startElementId) = ["daily", "nightly"] ∧
      (run.2.state.processes.vals.flatMap (·.timerStarts)).map (·.2.2.1) = ["nightly"] ∧
      ¬@State.StartsExact Feel.refusing run.1 run.2.state := by
  refine ⟨by decide +kernel, by decide +kernel, fun hexact => ?_⟩
  have htimers := @State.StartsExact.timers Feel.refusing _ _ hexact
  exact absurd htimers.length_eq (by decide +kernel)

end Engine

end NanoBpm
