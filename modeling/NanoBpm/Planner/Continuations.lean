import NanoBpm.Planner.Runs
import NanoBpm.Waits
import NanoBpm.Lib.Values

/-!
# Continuations of a correlated message

A message that finds its subscription on the instance's own partition advances the token at once; one that finds it on
the message's partition sends a continuation to the instance. Continuations may be delivered more than once and in any
order. The record of a catch event or an interrupting boundary settles with the first one, so that later ones find
nothing to advance; the record of a non-interrupting boundary stays as it is, and nothing remembers which messages it
has seen.
-/

namespace NanoBpm

/-- The subscription and the message of an event that advances a token. -/
def Event.advancing : Event → Option (Key × Key)
  | .messageCorrelated subscriptionKey messageKey .. => some (subscriptionKey, messageKey)
  | _ => none

/-- The subscription an event creates. -/
def Event.createdSubscription : Event → Option Key
  | .messageSubscriptionCreated subscriptionKey .. | .messageSubscriptionOpening subscriptionKey .. =>
    some subscriptionKey
  | _ => none

def Event.onAdvances (sub msg : Key) (n : Nat) (event : Event) : Nat :=
  if event.createdSubscription = some sub then 0 else if event.advancing = some (sub, msg) then n + 1 else n

/-- How often the message has advanced the token of the subscription since the subscription was created. -/
def advances (sub msg : Key) (log : List Event) : Nat := log.foldl (Event.onAdvances sub msg) 0

@[simp] theorem advances_append_singleton (sub msg : Key) (log : List Event) (event : Event) :
    advances sub msg (log ++ [event]) = event.onAdvances sub msg (advances sub msg log) := by
  simp [advances]

/-- At no point of the log has a message advanced a token twice. -/
def NeverTwice (log : List Event) : Prop := ∀ sub msg n, advances sub msg (log.take n) ≤ 1

theorem NeverTwice.append_singleton {log : List Event} {event : Event} (h : NeverTwice log)
    (hend : ∀ sub msg, advances sub msg (log ++ [event]) ≤ 1) : NeverTwice (log ++ [event]) := by
  intro sub msg n
  by_cases hn : n ≤ log.length
  · rw [List.take_append_of_le_length hn]
    exact h sub msg n
  · rw [List.take_of_length_le (by simp; omega)]
    exact hend sub msg

/-! ## The invariant -/

/-- The token of the subscription cannot be advanced by the message again: the record has settled, or it is that of a
non-interrupting boundary, and what is matched locally are messages that are not minted yet. -/
def Spent (minted : Key → Prop) (subs : KeyMap MessageSubscription) (sub msg : Key) : Prop :=
  ∀ m, subs[sub]? = some m → m.state = .correlated ∨ m.state = .canceled ∨
    (m.kind.isNonInterrupting = true ∧ (m.state = .opening ∨ (m.state = .opened ∧ minted msg)))

structure AtMostOnce (minted : Key → Prop) (log : List Event) (s : State) : Prop where
  keyed : ∀ (k : Key) (m : MessageSubscription), s.messageSubscriptions[k]? = some m → m.key = k
  once : ∀ sub msg, advances sub msg log = 0 ∨
    (advances sub msg log = 1 ∧ Spent minted s.messageSubscriptions sub msg)
  never : NeverTwice log

/-- The record of a subscription that an event does not create. -/
theorem getElem?_onMessageSubscriptions {subs : KeyMap MessageSubscription} {event : Event} {sub : Key}
    (h : event.createdSubscription ≠ some sub) {m : MessageSubscription}
    (hm : (event.onMessageSubscriptions subs)[sub]? = some m) :
    ∃ m', subs[sub]? = some m' ∧ m.key = m'.key ∧ m.kind = m'.kind ∧
      (m.state = m'.state ∨ m.state = .canceled ∨ m.state = .correlated) := by
  cases event
  case messageSubscriptionCreated key _ _ _ _ _ _ | messageSubscriptionOpening key _ _ _ _ _ _ =>
    simp only [Event.createdSubscription, ne_eq, Option.some.injEq] at h
    simp only [Event.onMessageSubscriptions, Std.ExtTreeMap.getElem?_insert, Std.LawfulEqCmp.compare_eq_iff_eq, h,
      if_false] at hm
    exact ⟨m, hm, rfl, rfl, .inl rfl⟩
  case messageCorrelated | remoteMessageCorrelation =>
    obtain ⟨m', hm', ⟨rfl, -⟩ | rfl⟩ := Std.ExtTreeMap.of_getElem?_modify hm
    · refine ⟨m', hm', ?_⟩
      split <;> simp
    · exact ⟨_, hm', rfl, rfl, .inl rfl⟩
  case messageSubscriptionCanceled | messageSubscriptionClosing =>
    obtain ⟨m', hm', ⟨rfl, -⟩ | rfl⟩ := Std.ExtTreeMap.of_getElem?_modify hm
    · exact ⟨m', hm', rfl, rfl, .inr (.inl rfl)⟩
    · exact ⟨_, hm', rfl, rfl, .inl rfl⟩
  case processInstanceMigrated =>
    simp only [Event.onMessageSubscriptions, Std.ExtTreeMap.getElem?_map, Option.map_eq_some_iff] at hm
    obtain ⟨m', hm', rfl⟩ := hm
    refine ⟨m', hm', ?_⟩
    split <;> simp
  all_goals exact ⟨m, hm, rfl, rfl, .inl rfl⟩

/-- A record that an event creates. -/
theorem key_of_createdSubscription {subs : KeyMap MessageSubscription} {event : Event} {sub : Key}
    (h : event.createdSubscription = some sub) {m : MessageSubscription}
    (hm : (event.onMessageSubscriptions subs)[sub]? = some m) : m.key = sub := by
  cases event <;> simp only [Event.createdSubscription, reduceCtorEq, Option.some.injEq] at h
  all_goals
    subst h
    simp only [Event.onMessageSubscriptions, Std.ExtTreeMap.getElem?_insert_self, Option.some.injEq] at hm
    rw [← hm]

/-- A record that was spent is spent after any event that does not create it anew. -/
theorem Spent.apply {minted : Key → Prop} {s : State} {sub msg : Key} {event : Event}
    (h : Spent minted s.messageSubscriptions sub msg) (hcreated : event.createdSubscription ≠ some sub) :
    Spent minted (apply s event).messageSubscriptions sub msg := by
  intro m hm
  rw [messageSubscriptions_apply] at hm
  obtain ⟨m', hm', -, hkind, hstate⟩ := getElem?_onMessageSubscriptions hcreated hm
  rw [hkind]
  rcases hstate with hstate | hstate | hstate
  · rw [hstate]
    exact h m' hm'
  · exact .inr (.inl hstate)
  · exact .inl hstate

namespace AtMostOnce

variable {minted : Key → Prop} {log : List Event} {s : State}

theorem keyed_apply (h : AtMostOnce minted log s) (event : Event) {k : Key} {m : MessageSubscription}
    (hm : (apply s event).messageSubscriptions[k]? = some m) : m.key = k := by
  rw [messageSubscriptions_apply] at hm
  by_cases hcreated : event.createdSubscription = some k
  · exact key_of_createdSubscription hcreated hm
  · obtain ⟨m', hm', hkey, -⟩ := getElem?_onMessageSubscriptions hcreated hm
    exact hkey.trans (h.keyed k m' hm')

/-- What is to be shown after an event. -/
theorem of_once (h : AtMostOnce minted log s) {event : Event}
    (honce : ∀ sub msg, advances sub msg (log ++ [event]) = 0 ∨
      (advances sub msg (log ++ [event]) = 1 ∧ Spent minted (apply s event).messageSubscriptions sub msg)) :
    AtMostOnce minted (log ++ [event]) (apply s event) := by
  refine ⟨fun k m => h.keyed_apply event, honce, h.never.append_singleton fun sub msg => ?_⟩
  rcases honce sub msg with hzero | ⟨hone, -⟩ <;> omega

/-- An event that advances no token. -/
theorem apply_event (h : AtMostOnce minted log s) {event : Event} (hnone : event.advancing = none) :
    AtMostOnce minted (log ++ [event]) (apply s event) := by
  refine h.of_once fun sub msg => ?_
  rw [advances_append_singleton, Event.onAdvances, hnone]
  by_cases hcreated : event.createdSubscription = some sub
  · simp [hcreated]
  · simp only [hcreated, if_false, reduceCtorEq]
    exact (h.once sub msg).imp_right fun hone => ⟨hone.1, hone.2.apply hcreated⟩

/-- A token is advanced for the first time. A record that stays open after it is matched with minted messages only. -/
theorem apply_messageCorrelated (h : AtMostOnce minted log s) {sub msg instanceKey eik : Key} {elementId : ElementId}
    (hfirst : advances sub msg log = 0)
    (hopened : ∀ m, s.messageSubscriptions[sub]? = some m → m.state = .opened → minted msg) :
    AtMostOnce minted (log ++ [.messageCorrelated sub msg instanceKey eik elementId])
      (apply s (.messageCorrelated sub msg instanceKey eik elementId)) := by
  refine h.of_once fun sub' msg' => ?_
  rw [advances_append_singleton]
  simp only [Event.onAdvances, Event.createdSubscription, Event.advancing, Option.some.injEq, Prod.mk.injEq,
    reduceCtorEq, if_false]
  by_cases hsame : sub = sub' ∧ msg = msg'
  · obtain ⟨rfl, rfl⟩ := hsame
    refine .inr ⟨by simp [hfirst], ?_⟩
    intro m hm
    rw [messageSubscriptions_apply, Event.onMessageSubscriptions, Std.ExtTreeMap.getElem?_modify] at hm
    simp only [Std.LawfulEqCmp.compare_eq_iff_eq, if_true, Option.map_eq_some_iff] at hm
    obtain ⟨m', hm', rfl⟩ := hm
    by_cases hkind : m'.kind.isNonInterrupting = true
    · simp only [hkind, if_true]
      cases hstate : m'.state with
      | opened => exact .inr (.inr ⟨trivial, .inr ⟨rfl, hopened m' hm' hstate⟩⟩)
      | opening => exact .inr (.inr ⟨trivial, .inl rfl⟩)
      | correlated => exact .inl rfl
      | canceled => exact .inr (.inl rfl)
    · simp [hkind]
  · simp only [hsame, if_false]
    exact (h.once sub' msg').imp_right fun hone => ⟨hone.1, hone.2.apply (by simp [Event.createdSubscription])⟩

theorem mono {minted' : Key → Prop} (h : AtMostOnce minted log s) (hle : ∀ key, minted key → minted' key) :
    AtMostOnce minted' log s := by
  refine ⟨h.keyed, fun sub msg => (h.once sub msg).imp_right fun hone => ⟨hone.1, fun m hm => ?_⟩, h.never⟩
  rcases hone.2 m hm with hstate | hstate | ⟨hkind, hstate⟩
  · exact .inl hstate
  · exact .inr (.inl hstate)
  · exact .inr (.inr ⟨hkind, hstate.imp_right fun hopened => ⟨hopened.1, hle msg hopened.2⟩⟩)

end AtMostOnce

/-! ## The commands of the protocol -/

theorem advancing_of_origin {event : Event} (h : event.origin ≠ .message) : event.advancing = none := by
  cases event <;> first | rfl | exact absurd rfl h

/-- Plans that correlate nothing. -/
theorem AtMostOnce.of_within {α : Type} {minted : Key → Prop} (os : List Origin) {p : Plan α}
    (hp : p.Within (fun _ => True) os) (hos : .message ∉ os) {past : List Event} {s : PlanState}
    (h : AtMostOnce minted (past ++ s.log) s.engine.state) :
    AtMostOnce minted (past ++ (p.run s).2.log) (p.run s).2.engine.state := by
  refine Plan.keeps_run (I := AtMostOnce minted) (fun log s event hevent h => h.apply_event ?_) past
    (hp.log s fun _ _ _ => trivial) h
  refine advancing_of_origin fun horigin => hos ?_
  simpa [horigin] using hevent.origin

/-- The message has not advanced the token of the subscription, or there is no open record to match. -/
def Unmatched (msg : Key) (log : List Event) (s : State) (sub : Key) : Prop :=
  advances sub msg log = 0 ∨ ∀ m, s.messageSubscriptions[sub]? = some m → m.state ≠ .opened

theorem Unmatched.apply_event {msg sub : Key} {log : List Event} {s : State} (h : Unmatched msg log s sub) {event : Event}
    (hcreated : event.createdSubscription = none) (hadvancing : event.advancing ≠ some (sub, msg)) :
    Unmatched msg (log ++ [event]) (apply s event) sub := by
  rcases h with h | h
  · exact .inl (by simp [Event.onAdvances, hcreated, hadvancing, h])
  · refine .inr fun m hm => ?_
    rw [messageSubscriptions_apply] at hm
    obtain ⟨m', hm', -, -, hstate⟩ := getElem?_onMessageSubscriptions (by simp [hcreated]) hm
    rcases hstate with hstate | hstate | hstate
    · rw [hstate]
      exact h m' hm'
    · simp [hstate]
    · simp [hstate]

/-- What holds while the matched subscriptions of a message are worked off: each token is advanced at most once, and
those of the subscriptions that are left have not been. -/
structure Correlating (minted : Key → Prop) (msg : Key) (todo : List Key) (log : List Event) (s : State) : Prop where
  atMostOnce : AtMostOnce minted log s
  unmatched : ∀ sub ∈ todo, Unmatched msg log s sub

namespace Correlating

variable {minted : Key → Prop} {msg : Key} {todo : List Key} {past : List Event} {s : PlanState}

theorem apply_event {log : List Event} {s : State} (h : Correlating minted msg todo log s) {event : Event}
    (hcreated : event.createdSubscription = none) (hnone : event.advancing = none) :
    Correlating minted msg todo (log ++ [event]) (apply s event) :=
  ⟨h.atMostOnce.apply_event hnone, fun sub hsub => (h.unmatched sub hsub).apply_event hcreated (by simp [hnone])⟩

/-- Plans that neither correlate nor create. -/
theorem of_within {α : Type} {p : Plan α} (hp : p.Within (fun _ => False) [])
    (h : Correlating minted msg todo (past ++ s.log) s.engine.state) :
    Correlating minted msg todo (past ++ (p.run s).2.log) (p.run s).2.engine.state := by
  refine Plan.keeps_run (I := Correlating minted msg todo) (fun log s event hevent h => ?_) past
    (hp.log_of_not_mints s).1 h
  refine h.apply_event ?_ (advancing_of_origin ?_)
  · have hcreated := Option.eq_none_iff_forall_ne_some.mpr hevent.minted
    cases event <;> first | rfl | cases hcreated
  · have horigin : event.origin = .routine := by simpa using hevent.origin
    simp [horigin]

/-- A token is advanced. -/
theorem advanceCorrelatedToken {sub instanceKey eik : Key} {elementId : ElementId} {kind : MessageSubscriptionKind}
    {payload : Vars} (h : Correlating minted msg todo (past ++ s.log) s.engine.state)
    (hfirst : advances sub msg (past ++ s.log) = 0) (hsub : sub ∉ todo)
    (hopened : ∀ m, s.engine.state.messageSubscriptions[sub]? = some m → m.state = .opened → minted msg) :
    Correlating minted msg todo
      (past ++ ((Plan.advanceCorrelatedToken sub msg instanceKey eik elementId kind payload).run s).2.log)
      ((Plan.advanceCorrelatedToken sub msg instanceKey eik elementId kind payload).run s).2.engine.state := by
  have hrest : (Plan.mergePayload instanceKey eik payload >>= fun _ =>
      Plan.releaseToken instanceKey eik elementId kind).Within (fun _ => False) [] :=
    .bind Plan.calm_mergePayload fun _ => Plan.calm_releaseToken
  refine of_within (s := s.applyEvent (.messageCorrelated sub msg instanceKey eik elementId)) hrest ?_
  rw [PlanState.log_applyEvent, PlanState.state_applyEvent, ← List.append_assoc]
  refine ⟨h.atMostOnce.apply_messageCorrelated hfirst hopened, fun other hother => ?_⟩
  refine (h.unmatched other hother).apply_event rfl ?_
  simp only [Event.advancing, ne_eq, Option.some.injEq, Prod.mk.injEq, and_true]
  rintro rfl
  exact hsub hother

/-- One matched subscription. -/
theorem correlateSubscription {sub : Key} {vars : Vars} (h : Correlating minted msg (sub :: todo) (past ++ s.log) s.engine.state)
    (hsub : sub ∉ todo) (hmsg : minted msg) :
    Correlating minted msg todo (past ++ ((correlateSubscription msg vars sub).run s).2.log)
      ((correlateSubscription msg vars sub).run s).2.engine.state := by
  have hrest : Correlating minted msg todo (past ++ s.log) s.engine.state :=
    ⟨h.atMostOnce, fun other hother => h.unmatched other (by simp [hother])⟩
  unfold NanoBpm.correlateSubscription
  rw [Plan.run_bind]
  show Correlating _ _ _ (past ++ (Plan.run _ s).2.log) (Plan.run _ s).2.engine.state
  split
  · exact hrest
  · next m hm =>
    obtain ⟨hget, hstate⟩ := Option.filter_eq_some_iff.mp hm
    have hfirst : advances sub msg (past ++ s.log) = 0 :=
      (h.unmatched sub (by simp)).resolve_right fun hclosed => hclosed m hget (by simpa using hstate)
    split
    · split
      · rw [Plan.run_bind]
        exact hrest.advanceCorrelatedToken hfirst hsub fun _ _ _ => hmsg
      · exact hrest
    · rw [Plan.run_bind]
      show Correlating _ _ _ (past ++ (s.applyEvent _).log) (s.applyEvent _).engine.state
      rw [PlanState.log_applyEvent, PlanState.state_applyEvent, ← List.append_assoc]
      exact hrest.apply_event rfl rfl

/-- All of them. -/
theorem mapM_correlateSubscription (vars : Vars) (acc : List Bool) (hmsg : minted msg) (hnodup : todo.Nodup)
    (h : Correlating minted msg todo (past ++ s.log) s.engine.state) :
    Correlating minted msg [] (past ++ ((List.mapM.loop (NanoBpm.correlateSubscription msg vars) todo acc).run s).2.log)
      ((List.mapM.loop (NanoBpm.correlateSubscription msg vars) todo acc).run s).2.engine.state := by
  induction todo generalizing acc s with
  | nil => exact h
  | cons sub todo ih =>
    obtain ⟨hsub, hnodup⟩ := List.nodup_cons.mp hnodup
    rw [List.mapM.loop, Plan.run_bind]
    exact ih _ hnodup (h.correlateSubscription hsub hmsg)

end Correlating

/-- The keys of the subscriptions a message matches are distinct. -/
theorem nodup_sortKeys_vals {subs : KeyMap MessageSubscription}
    (h : ∀ (k : Key) (m : MessageSubscription), subs[k]? = some m → m.key = k) (p : MessageSubscription → Bool) :
    (sortKeys ((subs.vals.filter p).map (·.key))).Nodup := by
  have hall := Std.ExtTreeMap.nodup_map_vals h
  have hsome : ((subs.vals.filter p).map (·.key)).Nodup := hall.sublist (List.filter_sublist.map _)
  exact (List.perm_insertionSort _ _).nodup_iff.mpr hsome

/-- A message that is published now has advanced nothing that is still open. -/
theorem AtMostOnce.unmatched {e : Engine} {log : List Event} (h : AtMostOnce e.Minted log e.state)
    (hroom : e.nextLocal < localMask) (sub : Key) :
    Unmatched (Engine.mintedKey e.partitionId e.nextLocal) log e.state sub := by
  rcases h.once sub (Engine.mintedKey e.partitionId e.nextLocal) with hzero | ⟨-, hspent⟩
  · exact .inl hzero
  · refine .inr fun m hm hopened => ?_
    rcases hspent m hm with hstate | hstate | ⟨-, hstate | ⟨-, n, hn, hkey⟩⟩
    · simp [hopened] at hstate
    · simp [hopened] at hstate
    · simp [hopened] at hstate
    · exact not_minted_next hroom ⟨n, hn, hkey⟩

/-- The publish, and then the rest over what it has left. -/
theorem run_correlateMessage (messageName correlationKey : String) (vars : Vars) (s : PlanState) :
    let published := s.mint.2.applyEvent (.messagePublished s.mint.1 messageName correlationKey)
    (correlateMessage messageName correlationKey vars).run s = (do
      let correlated ← (sortKeys ((published.engine.state.messageSubscriptions.vals.filter fun sub =>
        sub.state == .opened && sub.messageName == messageName && sub.correlationKey == correlationKey).map
          (·.key))).mapM (correlateSubscription s.mint.1 vars)
      if !correlated.any id then
        let started := ((← Plan.self).state.messageStartSubscriptions.vals.filter (·.messageName == messageName)).map
          fun s => (s.processId, s.startElementId)
        (started.insertionSort (pairLe · ·)).forM fun (processId, startElementId) =>
          startOrDispatchInstance processId startElementId vars [] none : Plan Unit).run published := by
  unfold correlateMessage
  rw [Plan.run_bind, Plan.run_bind, Plan.run_bind]
  rfl

/-- `CorrelateMessage`, whatever the keys that count as minted. -/
theorem atMostOnce_correlateMessage {messageName correlationKey : String} {vars : Vars} {minted : Key → Prop}
    {past : List Event} {s : PlanState} (h : AtMostOnce s.engine.Minted (past ++ s.log) s.engine.state)
    (hroom : s.engine.nextLocal < localMask) (hminted : ∀ key, s.engine.Minted key → minted key)
    (hmsg : minted (Engine.mintedKey s.engine.partitionId s.engine.nextLocal)) :
    AtMostOnce minted (past ++ ((correlateMessage messageName correlationKey vars).run s).2.log)
      ((correlateMessage messageName correlationKey vars).run s).2.engine.state := by
  let msg := Engine.mintedKey s.engine.partitionId s.engine.nextLocal
  let published := s.mint.2.applyEvent (.messagePublished msg messageName correlationKey)
  have hpublished : ∀ todo, Correlating minted msg todo (past ++ published.log) published.engine.state := by
    intro todo
    have hstart : Correlating minted msg todo (past ++ s.log) s.engine.state :=
      ⟨h.mono hminted, fun sub _ => h.unmatched hroom sub⟩
    show Correlating minted msg todo (past ++ (PlanState.applyEvent _ _).log) (PlanState.applyEvent _ _).engine.state
    rw [PlanState.log_applyEvent, PlanState.state_applyEvent, ← List.append_assoc]
    exact hstart.apply_event rfl rfl
  have hnodup := nodup_sortKeys_vals (hpublished []).atMostOnce.keyed fun sub =>
    sub.state == .opened && sub.messageName == messageName && sub.correlationKey == correlationKey
  have hloop := (hpublished _).mapM_correlateSubscription vars [] hmsg hnodup
  rw [run_correlateMessage, Plan.run_bind]
  refine AtMostOnce.of_within [.dispatch, .start] ?_ (by simp) hloop.atMostOnce
  split
  · exact .bind Plan.emits_self fun _ => Plan.emits_forM fun _ _ => within_startOrDispatchInstance
  · exact Plan.emits_pure

theorem nextLocal_lt_correlateMessage {messageName correlationKey : String} {vars : Vars} {s : PlanState} :
    s.engine.nextLocal < ((correlateMessage messageName correlationKey vars).run s).2.engine.nextLocal := by
  unfold correlateMessage
  rw [Plan.run_bind]
  exact Plan.nextLocal_le_run _ s.mint.2

/-- `CorrelateMessageSubscription`, unless it redelivers. -/
theorem atMostOnce_correlateMessageSubscription {subscriptionKey messageKey instanceKey elementInstanceKey : Key}
    {elementId : ElementId} {kind : MessageSubscriptionKind} {vars : Vars} {minted : Key → Prop} {past : List Event}
    {s : PlanState} (h : AtMostOnce minted (past ++ s.log) s.engine.state)
    (hfirst : ∀ m, s.engine.state.messageSubscriptions[subscriptionKey]? = some m → m.state = .opening →
      m.kind.isNonInterrupting = true → advances subscriptionKey messageKey (past ++ s.log) = 0) :
    let p := correlateMessageSubscription subscriptionKey messageKey instanceKey elementInstanceKey elementId kind vars
    AtMostOnce minted (past ++ (p.run s).2.log) (p.run s).2.engine.state := by
  show AtMostOnce minted (past ++ (Plan.run _ s).2.log) (Plan.run _ s).2.engine.state
  unfold correlateMessageSubscription
  rw [Plan.run_bind]
  show AtMostOnce minted (past ++ (Plan.run _ s).2.log) (Plan.run _ s).2.engine.state
  dsimp only
  split
  · next hguard =>
    simp only [Bool.and_eq_true, Option.any_eq_true, beq_iff_eq] at hguard
    obtain ⟨⟨m, hm, hopening⟩, -⟩ := hguard
    have hzero : advances subscriptionKey messageKey (past ++ s.log) = 0 := by
      rcases h.once subscriptionKey messageKey with hzero | ⟨-, hspent⟩
      · exact hzero
      · rcases hspent m hm with hstate | hstate | ⟨hkind, -⟩
        · simp [hopening] at hstate
        · simp [hopening] at hstate
        · exact hfirst m hm hopening hkind
    have hstart : Correlating minted messageKey [] (past ++ s.log) s.engine.state := ⟨h, by simp⟩
    refine (hstart.advanceCorrelatedToken hzero (by simp) fun m' hm' hopened => ?_).atMostOnce
    rw [Option.some.inj (hm'.symm.trans hm), hopening] at hopened
    simp at hopened
  · exact h

/-! ## Runs -/

namespace Engine

/-- A continuation brings a message to a non-interrupting boundary that has seen it. -/
def redelivers (log : List Event) (e : Engine) : HostCall → Bool
  | .applyCommandAt (.correlateMessageSubscription subscriptionKey messageKey ..) _ =>
    (e.state.messageSubscriptions[subscriptionKey]?.any fun m => m.state == .opening && m.kind.isNonInterrupting) &&
      advances subscriptionKey messageKey log != 0
  | _ => false

theorem logInvariant_atMostOnce :
    LogInvariant fun log e => e.nextLocal ≤ localMask → AtMostOnce e.Minted log e.state := by
  refine .of_minted fun {log s s' events} hstretch _ h => ?_
  rw [hstretch.state]
  refine Plan.keeps_applyAll (fun log s event hevent h => h.apply_event (advancing_of_origin hevent)) log ?_
    (h.mono fun _ => hstretch.minted)
  intro event hevent horigin
  simpa [horigin] using (hstretch.allowed event hevent).origin

variable [Feel]

/-- The plan of a command that is no part of the protocol. -/
theorem AtMostOnce.of_origins {minted : Key → Prop} {past : List Event} {s : PlanState} {command : Command}
    (h : AtMostOnce minted (past ++ s.log) s.engine.state) (horigins : .message ∉ command.origins) :
    AtMostOnce minted (past ++ (planCommand command s).2.log) (planCommand command s).2.engine.state := by
  obtain ⟨p, hp⟩ := runsPlan_planCommand command s
  have hevents := within_planCommand command (F := fun _ => True) (fun _ _ => trivial) s fun _ _ _ => trivial
  rw [hp] at hevents ⊢
  refine Plan.keeps_run (fun log s event hevent h => h.apply_event (advancing_of_origin ?_)) past hevents h
  intro horigin
  exact horigins (by simpa [horigin] using hevent.origin)

/-- The plan of a command, unless it redelivers. -/
theorem atMostOnce_planCommandAt {log : List Event} {e : Engine} {command : Command} {now : Nat} {s : PlanState}
    (h : e.nextLocal ≤ localMask → AtMostOnce e.Minted log e.state)
    (hfirst : redelivers log e (.applyCommandAt command now) = false) (hs : e.planCommandAt command now = (.ok (), s))
    (hroom : s.engine.nextLocal ≤ localMask) : AtMostOnce s.engine.Minted (log ++ s.log) s.engine.state := by
  have hrun : (planCommand command { engine := e.beginCommand now }).2 = s := congrArg Prod.snd hs
  obtain ⟨p, hp⟩ := runsPlan_planCommand command { engine := e.beginCommand now }
  obtain ⟨hnext, hminted⟩ := minted_planCommandAt hs
  have hbefore : AtMostOnce s.engine.Minted (log ++ []) e.state := by
    simpa using (h (Nat.le_trans hnext hroom)).mono hminted
  by_cases horigins : .message ∈ command.origins
  · cases command <;> simp [Command.origins] at horigins
    case correlateMessage messageName correlationKey vars =>
      have hplan : ((correlateMessage messageName correlationKey vars).run { engine := e.beginCommand now }).2 = s := hrun
      have hpartition : s.engine.partitionId = e.partitionId := by
        rw [← hplan, Plan.partitionId_run]
        rfl
      have hless : e.nextLocal < s.engine.nextLocal := by
        rw [← hplan]
        exact nextLocal_lt_correlateMessage (s := { engine := e.beginCommand now })
      have hbefore : AtMostOnce e.Minted (log ++ []) e.state := by
        rw [List.append_nil]
        exact h (Nat.le_trans (Nat.le_of_lt hless) hroom)
      have hmsg : s.engine.Minted (Engine.mintedKey e.partitionId e.nextLocal) := ⟨e.nextLocal, hless, by rw [hpartition]⟩
      rw [← hplan] at hminted hmsg ⊢
      exact atMostOnce_correlateMessage (s := { engine := e.beginCommand now }) hbefore (Nat.lt_of_lt_of_le hless hroom) hminted hmsg
    case correlateMessageSubscription subscriptionKey messageKey instanceKey elementInstanceKey elementId kind vars =>
      rw [← hrun]
      rw [← hrun] at hbefore
      refine atMostOnce_correlateMessageSubscription (s := { engine := e.beginCommand now }) hbefore ?_
      intro m hm hopening hkind
      have hm : e.state.messageSubscriptions[subscriptionKey]? = some m := hm
      simpa [redelivers, hm, hopening, hkind] using hfirst
  · rw [← hrun]
    rw [← hrun] at hbefore
    exact AtMostOnce.of_origins (s := { engine := e.beginCommand now }) hbefore horigins

/-- In every run that stays within the key space of the partition and redelivers no message to a non-interrupting
boundary, no message advances the token of a subscription twice, whatever the continuations and in whatever order. -/
theorem message_advances_token_at_most_once (fuel partitionId : Nat) (calls : List HostCall)
    (hroom : (runCalls fuel (withPartition partitionId) calls).2.nextLocal ≤ localMask)
    (hcalls : AlongCalls fuel (fun log e c => redelivers log e c = false) [] (withPartition partitionId) calls)
    (sub msg : Key) (n : Nat) :
    advances sub msg ((runCalls fuel (withPartition partitionId) calls).1.take n) ≤ 1 := by
  have hstart : AtMostOnce (withPartition partitionId).Minted [] (withPartition partitionId).state := by
    refine ⟨fun k m hm => ?_, fun sub msg => .inl rfl, fun sub msg n => by simp [advances]⟩
    exact absurd (hm.symm.trans Std.ExtTreeMap.getElem?_empty) (by simp)
  have hend := logInvariant_atMostOnce.calls (fun h hcond hs => atMostOnce_planCommandAt h hcond hs) fuel (by rfl)
    (fun _ => hstart) hcalls hroom
  exact hend.never sub msg n

end Engine

namespace Engine

/-- A task with a message boundary. Of two partitions the empty correlation key belongs to the second, so that the
boundary's record on the first is that of a remote subscription. -/
def boundaryProcess (interrupting : Bool) : ProcessDefinition where
  id := "order"
  startEvent := "start"
  elements := ({} : StrMap Element)
    |>.insert "start" { id := "start", kind := .startEvent, outgoing := [{ target := "pack" }] }
    |>.insert "pack" { id := "pack", kind := .serviceTask "pack" none none [] [], outgoing := [{ target := "done" }] }
    |>.insert "note" { id := "note", kind := .messageBoundaryEvent "pack" "note" "" interrupting, outgoing := [] }
    |>.insert "done" { id := "done", kind := .endEvent }

/-- The continuation of the first message of the other partition. -/
def continuation (kind : MessageSubscriptionKind) : HostCall :=
  .applyCommandAt (.correlateMessageSubscription 7 (composeKey 1 1) 3 5 "pack" kind ∅) 0

/-- An instance, and then one continuation, delivered twice. -/
def deliveredTwice (interrupting : Bool) : List HostCall :=
  [.setNumPartitions 2, .applyCommandAt (.deployProcess (boundaryProcess interrupting)) 0,
    .applyCommandAt (.createInstance "order" ∅ [] none none none) 0, continuation (boundaryKind interrupting "note"),
    continuation (boundaryKind interrupting "note")]

/-- The boundary interrupts: the second delivery finds nothing to advance. -/
theorem message_advances_interrupting_boundary_once :
    advances 7 (composeKey 1 1) (@runCalls Feel.refusing 40 (withPartition 0) (deliveredTwice true)).1 = 1 ∧
      advances 7 (composeKey 1 1)
        ((@runCalls Feel.refusing 40 (withPartition 0) (deliveredTwice true)).1.take 100) ≤ 1 :=
  ⟨by decide +kernel, @message_advances_token_at_most_once Feel.refusing 40 0 (deliveredTwice true) (by decide +kernel)
    (by decide +kernel) 7 (composeKey 1 1) 100⟩

/-- The boundary does not interrupt: one message advances its token twice. -/
theorem message_advances_boundary_token_twice :
    advances 7 (composeKey 1 1) (@runCalls Feel.refusing 40 (withPartition 0) (deliveredTwice false)).1 = 2 := by
  decide +kernel

end Engine

end NanoBpm
