import NanoBpm.ReadModel.Project
import NanoBpm.Planner.Sound
import NanoBpm.Lib.KeepFirst
import NanoBpm.Lib.Rekey
import Mathlib.Data.List.Induction
import Mathlib.Data.List.Infix
import Std.Data.String.ToNat

/-!
# Decision history

A row of `decision_instances` is named by the key of the deployed decision and the place of the
evaluated decision, not by the evaluation. The table is therefore the one that keeps what came first
under each of these names, and it holds every evaluation exactly while no two evaluations of one
decision are in it together.
-/

namespace NanoBpm.ReadModel

/-! ## Evaluations -/

/-- What a `DecisionEvaluated` event says. -/
structure Evaluation where
  decisionKey : Key
  instanceKey : Key
  elementInstanceKey : Key
  evaluatedDecisions : List EvaluatedDecision
  evaluatedAt : Nat

def evaluationOf : Event → Option Evaluation
  | .decisionEvaluated instanceKey elementInstanceKey _ decisionKey _ _ evaluatedDecisions evaluatedAt =>
    some { decisionKey, instanceKey, elementInstanceKey, evaluatedDecisions, evaluatedAt }
  | _ => none

def deletedKey : Event → Option Key
  | .decisionInstanceDeleted _ decisionEvaluationKey => some decisionEvaluationKey
  | _ => none

/-- The evaluations that no later deletion names. -/
def surviving : List Event → List Evaluation
  | [] => []
  | e :: rest =>
    match evaluationOf e with
    | some ev =>
      if rest.any (deletedKey · == some ev.decisionKey) then surviving rest else ev :: surviving rest
    | none => surviving rest

/-- One evaluated decision of one evaluation, as the event has it. -/
structure EvaluationRecord where
  evaluationKey : Key
  idx : Nat
  instanceKey : Key
  elementInstanceKey : Key
  evaluatedAt : Nat
  decision : EvaluatedDecision

def Evaluation.records (ev : Evaluation) : List EvaluationRecord :=
  ev.evaluatedDecisions.zipIdx.map fun (decision, i) =>
    { evaluationKey := ev.decisionKey, idx := i + 1, instanceKey := ev.instanceKey,
      elementInstanceKey := ev.elementInstanceKey, evaluatedAt := ev.evaluatedAt, decision }

/-- The columns of a row that come from the event. -/
def DecisionInstanceRow.record (r : DecisionInstanceRow) : EvaluationRecord where
  evaluationKey := r.decisionEvaluationKey
  idx := r.idx
  instanceKey := r.instanceKey
  elementInstanceKey := r.elementInstanceKey
  evaluatedAt := r.evaluationDateMs
  decision :=
    { decisionId := r.decisionId, decisionName := r.decisionName, decisionType := r.decisionType,
      decisionOutput := r.result, evaluatedInputs := r.inputs, matchedRules := r.rules }

/-! ## The projection of a log -/

/-- A log projected in order, each event at the time its batch is exported. -/
def projectLog (t : Tables) (log : List (Nat × Event)) : Except String Tables :=
  log.foldlM (fun t (now, e) => (·.1) <$> project t now e) t

/-- The table holds one row for each evaluated decision of each surviving evaluation. -/
def HoldsEvaluations (t : Tables) (log : List Event) : Prop :=
  (t.decisionInstances.vals.map (·.record)).Perm ((surviving log).flatMap (·.records))

/-- What a deletion of `key` would take out of the table is what one surviving evaluation put in. -/
def DeletesOne (t : Tables) (log : List Event) (key : Key) : Prop :=
  let deleted := (t.decisionInstances.vals.filter (·.decisionEvaluationKey == key)).map (·.record)
  deleted = [] ∨ ∃ ev ∈ surviving log, deleted.Perm ev.records

/-- Decision history is complete at every moment of the projection. -/
def DecisionHistory (log : List (Nat × Event)) : Prop :=
  ∀ done t, done <+: log → projectLog {} done = .ok t →
    HoldsEvaluations t (done.map (·.2)) ∧ ∀ key, DeletesOne t (done.map (·.2)) key

/-- At no moment are two evaluations of one deployed decision on record that both evaluated something. -/
def OneEvaluationEach (log : List Event) : Prop :=
  ∀ done, done <+: log →
    (((surviving done).filter (!·.evaluatedDecisions.isEmpty)).map (·.decisionKey)).Nodup

/-! ## Row names -/

theorem takeWhile_digits (k : Nat) (rest : List Char) :
    (Nat.toDigits 10 k ++ '-' :: rest).takeWhile (· ≠ '-') = Nat.toDigits 10 k := by
  rw [List.takeWhile_append_of_pos]
  · simp
  · intro c hc
    have hdigit := Nat.isDigit_of_mem_toDigits (by omega) (by omega) hc
    simp only [decide_not, Bool.not_eq_eq_eq_not, Bool.not_true, decide_eq_false_iff_not]
    rintro rfl
    exact absurd hdigit (by decide)

theorem toDigits_inj {m n : Nat} (h : Nat.toDigits 10 m = Nat.toDigits 10 n) : m = n :=
  Nat.repr_injective (String.toList_inj.mp (by rw [Nat.toList_repr, Nat.toList_repr, h]))

/-- Two numbers joined by a dash are known from the text. -/
theorem evalInstanceKey_inj {k k' : Key} {i i' : Nat} (h : evalInstanceKey k i = evalInstanceKey k' i') :
    k = k' ∧ i = i' := by
  have hdash : (toString "-").toList = ['-'] := rfl
  have hlist : Nat.toDigits 10 k ++ '-' :: Nat.toDigits 10 i = Nat.toDigits 10 k' ++ '-' :: Nat.toDigits 10 i' := by
    have := congrArg String.toList h
    simpa [evalInstanceKey, Nat.toString_eq_repr, Nat.toList_repr, hdash] using this
  have hk := congrArg (List.takeWhile (· ≠ '-')) hlist
  rw [takeWhile_digits, takeWhile_digits] at hk
  rw [hk] at hlist
  exact ⟨toDigits_inj hk, toDigits_inj (List.cons.inj (List.append_cancel_left hlist)).2⟩

/-- The name of the row of a record. -/
def EvaluationRecord.name (x : EvaluationRecord) : String := evalInstanceKey x.evaluationKey x.idx

theorem EvaluationRecord.key_eq_of_name_eq {x y : EvaluationRecord} (h : x.name = y.name) :
    x.evaluationKey = y.evaluationKey :=
  (evalInstanceKey_inj h).1

theorem Evaluation.key_of_mem_records {ev : Evaluation} {x : EvaluationRecord} (hx : x ∈ ev.records) :
    x.evaluationKey = ev.decisionKey := by
  obtain ⟨_, -, rfl⟩ := List.mem_map.mp hx
  rfl

theorem Evaluation.records_eq_nil_iff {ev : Evaluation} : ev.records = [] ↔ ev.evaluatedDecisions = [] := by
  simp [records]

/-- The records of one evaluation have names of their own. -/
theorem Evaluation.nodup_names (ev : Evaluation) : (ev.records.map (·.name)).Nodup := by
  rw [records, List.map_map, List.Nodup, List.pairwise_map]
  have hplaces : (ev.evaluatedDecisions.zipIdx.map (·.2)).Nodup := by
    rw [List.zipIdx_map_snd]
    exact List.nodup_range'
  refine (List.pairwise_map.mp hplaces).imp fun {a b} hne hname => hne ?_
  have hidx : a.2 + 1 = b.2 + 1 := (evalInstanceKey_inj hname).2
  omega

/-- Two evaluations that evaluated something share a name exactly when they are of one decision. -/
theorem disjoint_names_iff {ev ev' : Evaluation} (h : ev.evaluatedDecisions ≠ []) (h' : ev'.evaluatedDecisions ≠ []) :
    (ev.records.map (·.name)).Disjoint (ev'.records.map (·.name)) ↔ ev.decisionKey ≠ ev'.decisionKey := by
  constructor
  · intro hdisjoint hkey
    obtain ⟨d, ds, hd⟩ := List.exists_cons_of_ne_nil h
    obtain ⟨d', ds', hd'⟩ := List.exists_cons_of_ne_nil h'
    refine hdisjoint (a := evalInstanceKey ev.decisionKey 1) ?_ ?_
    · simp [Evaluation.records, hd, EvaluationRecord.name]
    · simp [Evaluation.records, hd', EvaluationRecord.name, hkey]
  · intro hkey name hname hname'
    obtain ⟨x, hx, rfl⟩ := List.mem_map.mp hname
    obtain ⟨y, hy, heq⟩ := List.mem_map.mp hname'
    refine hkey ?_
    rw [← Evaluation.key_of_mem_records hx, ← Evaluation.key_of_mem_records hy]
    exact (EvaluationRecord.key_eq_of_name_eq heq).symm

/-- The names of a list of evaluations are distinct exactly when those that evaluated something are of
different decisions. -/
theorem nodup_names_iff (evs : List Evaluation) :
    ((evs.flatMap (·.records)).map (·.name)).Nodup ↔
      ((evs.filter (!·.evaluatedDecisions.isEmpty)).map (·.decisionKey)).Nodup := by
  have hkeys : ((evs.filter (!·.evaluatedDecisions.isEmpty)).map (·.decisionKey)).Nodup ↔
      evs.Pairwise fun a b => (!a.evaluatedDecisions.isEmpty) = true → (!b.evaluatedDecisions.isEmpty) = true →
        a.decisionKey ≠ b.decisionKey := by
    rw [List.Nodup, List.pairwise_map, List.pairwise_filter]
  rw [List.map_flatMap, List.nodup_flatMap, hkeys]
  have hempty : ∀ {ev ev' : Evaluation}, ev.evaluatedDecisions = [] →
      (ev.records.map (·.name)).Disjoint (ev'.records.map (·.name)) := by
    intro ev ev' h
    simp [Evaluation.records_eq_nil_iff.mpr h]
  refine ⟨fun ⟨_, h⟩ => h.imp fun {a b} hab ha hb => ?_,
    fun h => ⟨fun ev _ => ev.nodup_names, h.imp fun {a b} hab => ?_⟩⟩
  · exact (disjoint_names_iff (by simpa using ha) (by simpa using hb)).mp hab
  · by_cases ha : a.evaluatedDecisions = []
    · exact hempty ha
    by_cases hb : b.evaluatedDecisions = []
    · exact fun name ha' hb' => hempty hb hb' ha'
    · exact (disjoint_names_iff ha hb).mpr (hab (by simpa using ha) (by simpa using hb))

/-! ## The table after one event -/

theorem decisionInstances_resolveMigration {i : Key} {processId : String} {key : Key} {version : Int}
    {target : ElementId} {t t' : Tables} (h : resolveMigration i processId key version t target = .ok t') :
    t'.decisionInstances = t.decisionInstances := by
  unfold resolveMigration at h
  split at h
  · cases h
  · cases h
    rfl

theorem decisionInstances_projectMigrated {t t' : Tables} {i : Key} {processId : String} {key : Key}
    {mappings : List (ElementId × ElementId)} (h : projectMigrated t i processId key mappings = .ok t') :
    t'.decisionInstances = t.decisionInstances := by
  obtain ⟨_, resolved, -, rfl, hkeep⟩ := projectMigrated_keeps Tables.decisionInstances
    (fun _ _ => rfl) (fun _ _ _ _ => decisionInstances_resolveMigration) h
  exact hkeep

/-- Only an evaluation and a deletion touch the table. -/
theorem decisionInstances_project {t t' : Tables} {now : Nat} {e : Event} {d : Int}
    (h : project t now e = .ok (t', d)) :
    t'.decisionInstances =
      match e with
      | .decisionEvaluated i eik _ key _ _ evaluated evaluatedAt =>
        (decisionRows t i eik key evaluatedAt evaluated).foldl insertDecisionRow t.decisionInstances
      | .decisionInstanceDeleted _ key => t.decisionInstances.filter fun _ r => !(r.decisionEvaluationKey == key)
      | _ => t.decisionInstances := by
  cases e
  case processDeployed =>
    obtain ⟨t₁, h₁, hend⟩ := Except.bind_eq_ok.mp h
    cases hend
    unfold projectProcessDeployed at h₁
    split at h₁
    · cases h₁
    · cases h₁
      rfl
  case processInstanceMigrated =>
    obtain ⟨t₁, h₁, hend⟩ := Except.bind_eq_ok.mp h
    cases hend
    exact decisionInstances_projectMigrated h₁
  case processInstanceCreated =>
    simp only [project, Except.ok.injEq, projectCreated] at h
    split at h <;> cases h <;> rfl
  case messageSubscriptionCreated =>
    simp only [project, Except.ok.injEq, projectMessageSubscription] at h
    split at h <;> cases h <;> rfl
  case messageCorrelated =>
    simp only [project, Except.ok.injEq, projectCorrelated] at h
    repeat' split at h
    all_goals cases h; rfl
  case remoteMessageCorrelation =>
    simp only [project, Except.ok.injEq, projectCorrelated] at h
    repeat' split at h
    all_goals cases h; rfl
  all_goals
    cases h
    rfl

/-! ## The table as the evaluations that came first -/

/-- One more event: a deletion takes out the evaluations of its decision, an evaluation is added. -/
theorem surviving_concat (log : List Event) (e : Event) :
    surviving (log ++ [e]) =
      (surviving log).filter (fun ev => !(deletedKey e == some ev.decisionKey)) ++ (evaluationOf e).toList := by
  induction log with
  | nil =>
    rw [List.nil_append]
    unfold surviving
    cases evaluationOf e <;> simp [surviving]
  | cons x log ih =>
    rw [List.cons_append]
    unfold surviving
    cases hx : evaluationOf x with
    | none => simpa using ih
    | some ev =>
      simp only [List.any_append, List.any_cons, List.any_nil, Bool.or_false, Bool.or_eq_true]
      by_cases hlater : log.any (deletedKey · == some ev.decisionKey)
      · simp [hlater, ih]
      · by_cases hnow : deletedKey e == some ev.decisionKey <;> simp [hlater, hnow, ih]

/-- The rows of the table, each as the record of its event, under their names. -/
def recorded (rows : StrMap DecisionInstanceRow) : StrMap EvaluationRecord := rows.map fun _ r => r.record

theorem vals_recorded (rows : StrMap DecisionInstanceRow) : (recorded rows).vals = rows.vals.map (·.record) :=
  Std.ExtTreeMap.vals_map rows _

/-- Inserting rows under their names offers their records. -/
theorem recorded_insertRows (xs : List DecisionInstanceRow) (hname : ∀ r ∈ xs, r.evalInstanceKey = r.record.name)
    (rows : StrMap DecisionInstanceRow) :
    recorded (xs.foldl insertDecisionRow rows) =
      KeepFirst.offerAll EvaluationRecord.name (xs.map (·.record)) (recorded rows) := by
  induction xs generalizing rows with
  | nil => rfl
  | cons x xs ih =>
    have hstep : recorded (insertDecisionRow rows x) = (recorded rows).insertIfNew x.record.name x.record := by
      refine Std.ExtTreeMap.ext_getElem? fun k => ?_
      simp only [recorded, insertDecisionRow, Std.ExtTreeMap.getElem?_map, KeepFirst.getElem?_insertIfNew_eq,
        hname x List.mem_cons_self]
      cases rows[k]? <;> by_cases hk : x.record.name = k <;> simp [hk]
    rw [List.foldl_cons, ih (fun r hr => hname r (List.mem_cons_of_mem _ hr)), hstep]
    rfl

theorem record_decisionRows (t : Tables) (ev : Evaluation) :
    (decisionRows t ev.instanceKey ev.elementInstanceKey ev.decisionKey ev.evaluatedAt ev.evaluatedDecisions).map
      (·.record) = ev.records := by
  rw [decisionRows, Evaluation.records, List.map_map]
  rfl

theorem name_of_mem_decisionRows {t : Tables} {i eik key : Key} {evaluatedAt : Nat} {evaluated : List EvaluatedDecision}
    {r : DecisionInstanceRow} (hr : r ∈ decisionRows t i eik key evaluatedAt evaluated) :
    r.evalInstanceKey = r.record.name := by
  obtain ⟨_, -, rfl⟩ := List.mem_map.mp hr
  rfl

/-- Taking the evaluations of one decision out takes their records out. -/
theorem filter_flatMap_records (evs : List Evaluation) (key : Key) :
    (evs.flatMap (·.records)).filter (fun x => !(x.evaluationKey == key)) =
      (evs.filter fun ev => !(some key == some ev.decisionKey)).flatMap (·.records) := by
  induction evs with
  | nil => rfl
  | cons ev evs ih =>
    rw [List.flatMap_cons, List.filter_append, ih]
    by_cases hkey : ev.decisionKey = key
    · have hnone : ev.records.filter (fun x => !(x.evaluationKey == key)) = [] :=
        List.filter_eq_nil_iff.mpr fun x hx => by simp [Evaluation.key_of_mem_records hx, hkey]
      simp [hnone, hkey]
    · have hall : ev.records.filter (fun x => !(x.evaluationKey == key)) = ev.records :=
        List.filter_eq_self.mpr fun x hx => by simp [Evaluation.key_of_mem_records hx, hkey]
      simp [hall, Ne.symm hkey]

/-- The table is what the surviving evaluations leave when the first one under a name stays. -/
def KeepsFirst (t : Tables) (log : List Event) : Prop :=
  recorded t.decisionInstances = KeepFirst.offerAll EvaluationRecord.name ((surviving log).flatMap (·.records)) ∅

/-- What one event does to that. -/
theorem KeepsFirst.step {t t' : Tables} {now : Nat} {e : Event} {d : Int} {log : List Event} (hk : KeepsFirst t log)
    (h : project t now e = .ok (t', d)) : KeepsFirst t' (log ++ [e]) := by
  have htable := decisionInstances_project h
  unfold KeepsFirst at hk ⊢
  rw [surviving_concat, List.flatMap_append, KeepFirst.offerAll_append]
  cases e
  case decisionEvaluated i eik elementId key decisionId output evaluated evaluatedAt =>
    have hrecords := record_decisionRows t ⟨key, i, eik, evaluated, evaluatedAt⟩
    simp only at htable hrecords
    rw [htable, recorded_insertRows _ fun r hr => name_of_mem_decisionRows hr, hk, hrecords]
    simp [evaluationOf, deletedKey]
  case decisionInstanceDeleted i key =>
    simp only at htable
    have hfilter : recorded t'.decisionInstances =
        (recorded t.decisionInstances).filter fun _ x => !(x.evaluationKey == key) := by
      refine Std.ExtTreeMap.ext_getElem? fun k => ?_
      simp only [htable, recorded, Std.ExtTreeMap.getElem?_map, Std.ExtTreeMap.getElem?_filter']
      cases t.decisionInstances[k]? <;> simp [Option.filter, DecisionInstanceRow.record]
      split <;> simp_all
    have hslot : ∀ x y : EvaluationRecord, x.name = y.name → (!(x.evaluationKey == key)) = !(y.evaluationKey == key) :=
      fun x y hxy => by rw [EvaluationRecord.key_eq_of_name_eq hxy]
    rw [hfilter, hk, KeepFirst.filter_offerAll _ hslot, filter_flatMap_records]
    simp [evaluationOf, deletedKey, KeepFirst.offerAll]
  all_goals
    simp only at htable
    rw [htable, hk]
    simp [evaluationOf, deletedKey, KeepFirst.offerAll]

theorem projectLog_concat {t t' : Tables} {log : List (Nat × Event)} {now : Nat} {e : Event} :
    projectLog t (log ++ [(now, e)]) = .ok t' ↔
      ∃ t₁ d, projectLog t log = .ok t₁ ∧ project t₁ now e = .ok (t', d) := by
  simp only [projectLog, List.foldlM_append, Except.bind_eq_ok, List.foldlM_cons, List.foldlM_nil,
    Except.map_eq_ok, Prod.exists]
  constructor
  · rintro ⟨t₁, h₁, t₂, ⟨t₃, d, h₃, rfl⟩, hend⟩
    cases hend
    exact ⟨t₁, d, h₁, h₃⟩
  · rintro ⟨t₁, d, h₁, h₂⟩
    exact ⟨t₁, h₁, t', ⟨t', d, h₂, rfl⟩, rfl⟩

/-- **Every log leaves the table that keeps what came first.** -/
theorem keepsFirst_projectLog {log : List (Nat × Event)} {t : Tables} (h : projectLog {} log = .ok t) :
    KeepsFirst t (log.map (·.2)) := by
  induction log using List.reverseRecOn generalizing t with
  | nil =>
    cases h
    exact Std.ExtTreeMap.ext_getElem? fun k => by simp [recorded, surviving, KeepFirst.offerAll]
  | append_singleton log x ih =>
    obtain ⟨t₁, d, h₁, h₂⟩ := projectLog_concat.mp h
    simpa using (ih h₁).step h₂

theorem KeepsFirst.holdsEvaluations_iff {t : Tables} {log : List Event} (hk : KeepsFirst t log) :
    HoldsEvaluations t log ↔
      (((surviving log).filter (!·.evaluatedDecisions.isEmpty)).map (·.decisionKey)).Nodup := by
  rw [HoldsEvaluations, ← vals_recorded, hk, KeepFirst.vals_offerAll_perm_iff, nodup_names_iff]

/-- Of evaluations of different decisions, one at most evaluated the decision of a key. -/
theorem filter_records_eq {evs : List Evaluation}
    (hkeys : ((evs.filter (!·.evaluatedDecisions.isEmpty)).map (·.decisionKey)).Nodup) (key : Key) :
    (evs.flatMap (·.records)).filter (·.evaluationKey == key) = [] ∨
      ∃ ev ∈ evs, (evs.flatMap (·.records)).filter (·.evaluationKey == key) = ev.records := by
  induction evs with
  | nil => exact .inl rfl
  | cons ev evs ih =>
    have hrest : ((evs.filter (!·.evaluatedDecisions.isEmpty)).map (·.decisionKey)).Nodup :=
      hkeys.sublist (((List.sublist_cons_self ev evs).filter _).map _)
    have hskip : ev.records.filter (·.evaluationKey == key) = [] →
        ((ev :: evs).flatMap (·.records)).filter (·.evaluationKey == key) = [] ∨
          ∃ ev' ∈ ev :: evs, ((ev :: evs).flatMap (·.records)).filter (·.evaluationKey == key) = ev'.records := by
      intro hnone
      rw [List.flatMap_cons, List.filter_append, hnone, List.nil_append]
      exact (ih hrest).imp id fun ⟨ev', hev', heq⟩ => ⟨ev', List.mem_cons_of_mem _ hev', heq⟩
    by_cases hempty : ev.evaluatedDecisions = []
    · exact hskip (by rw [Evaluation.records_eq_nil_iff.mpr hempty]; rfl)
    by_cases hkey : ev.decisionKey = key
    · refine .inr ⟨ev, List.mem_cons_self, ?_⟩
      have hall : ev.records.filter (·.evaluationKey == key) = ev.records :=
        List.filter_eq_self.mpr fun x hx => by simp [Evaluation.key_of_mem_records hx, hkey]
      have hothers : (evs.flatMap (·.records)).filter (·.evaluationKey == key) = [] := by
        refine List.filter_eq_nil_iff.mpr fun x hx => ?_
        obtain ⟨ev', hev', hx⟩ := List.mem_flatMap.mp hx
        have hsome : ev'.evaluatedDecisions ≠ [] := fun h => by
          rw [Evaluation.records_eq_nil_iff.mpr h] at hx
          cases hx
        rw [List.filter_cons_of_pos (by simpa using hempty), List.map_cons, List.nodup_cons] at hkeys
        have hother : ev'.decisionKey ≠ ev.decisionKey := fun h =>
          hkeys.1 (List.mem_map.mpr ⟨ev', List.mem_filter.mpr ⟨hev', by simpa using hsome⟩, h⟩)
        simp [Evaluation.key_of_mem_records hx, ← hkey, hother]
      rw [List.flatMap_cons, List.filter_append, hall, hothers, List.append_nil]
    · exact hskip (List.filter_eq_nil_iff.mpr fun x hx => by simp [Evaluation.key_of_mem_records hx, hkey])

/-- Where the table holds the evaluations, a deletion takes out one of them. -/
theorem DeletesOne.of_holdsEvaluations {t : Tables} {log : List Event} (hholds : HoldsEvaluations t log)
    (hkeys : (((surviving log).filter (!·.evaluatedDecisions.isEmpty)).map (·.decisionKey)).Nodup) (key : Key) :
    DeletesOne t log key := by
  have hdeleted : ((t.decisionInstances.vals.filter (·.decisionEvaluationKey == key)).map (·.record)).Perm
      (((surviving log).flatMap (·.records)).filter (·.evaluationKey == key)) := by
    refine List.Perm.trans (.of_eq ?_) (hholds.filter (·.evaluationKey == key))
    rw [List.filter_map]
    rfl
  rcases filter_records_eq hkeys key with hnone | ⟨ev, hev, heq⟩
  · exact .inl (List.perm_nil.mp (hnone ▸ hdeleted))
  · exact .inr ⟨ev, hev, heq ▸ hdeleted⟩

/-- What is projected of a log that is projected whole. -/
theorem projectLog_of_prefix {log done : List (Nat × Event)} {t : Tables} (h : projectLog {} log = .ok t)
    (hdone : done <+: log) : ∃ t', projectLog {} done = .ok t' := by
  obtain ⟨rest, rfl⟩ := hdone
  rw [projectLog, List.foldlM_append] at h
  obtain ⟨t', ht', -⟩ := Except.bind_eq_ok.mp h
  exact ⟨t', ht'⟩

/-- **Decision history is complete exactly while no two evaluations of one deployed decision are on
record together.** -/
theorem decisionHistory_iff {log : List (Nat × Event)} {t : Tables} (h : projectLog {} log = .ok t) :
    DecisionHistory log ↔ OneEvaluationEach (log.map (·.2)) := by
  constructor
  · intro hhistory done hdone
    obtain ⟨stamped, rfl, hstamped⟩ : ∃ stamped, done = stamped.map (·.2) ∧ stamped <+: log := by
      refine ⟨log.take done.length, ?_, List.take_prefix _ _⟩
      rw [List.map_take]
      exact List.prefix_iff_eq_take.mp hdone
    obtain ⟨t', ht'⟩ := projectLog_of_prefix h hstamped
    exact (keepsFirst_projectLog ht').holdsEvaluations_iff.mp (hhistory stamped t' hstamped ht').1
  · intro hone done t' hdone ht'
    have hkeys := hone _ (hdone.map (·.2))
    have hholds := (keepsFirst_projectLog ht').holdsEvaluations_iff.mpr hkeys
    exact ⟨hholds, .of_holdsEvaluations hholds hkeys⟩

/-! ## A decision that two instances evaluate -/

/-- A decision whose result is a text. -/
def gradeGraph : DecisionRequirementsGraph :=
  { id := "grading", name := "Grading",
    decisions := [{ id := "grade", name := "Grade", logic := .literalExpression "\"A\"" }] }

/-- The evaluator on that decision. -/
@[reducible] def gradeFeel : Feel :=
  { Feel.refusing with
    evaluateDecision := fun _ decisionId _ =>
      ⟨.str "A", [⟨decisionId, "Grade", .literalExpression, .str "A", [], []⟩], none⟩ }

def gradeProcess : ProcessDefinition :=
  { id := "grading", startEvent := "start",
    elements := .ofList
      [("start", { id := "start", kind := .startEvent, outgoing := [{ target := "rule" }] }),
       ("rule", { id := "rule", kind := .businessRuleTask "grade" (some "grade"), outgoing := [{ target := "end" }] }),
       ("end", { id := "end", kind := .endEvent })] compare }

/-- The log of a run that deploys both and makes `calls`, projected at one time. -/
def gradeLog (calls : List Engine.HostCall) : List (Nat × Event) :=
  (@Engine.runCalls gradeFeel 100 Engine.new
    (.applyCommandAt (.deployDecisionRequirements [gradeGraph]) 0 :: .applyCommandAt (.deployProcess gradeProcess) 0 ::
      calls)).1.map (0, ·)

def startGrading : Engine.HostCall :=
  .applyCommandAt (.createInstance "grading" ∅ [] none none none) 1

/-- The first evaluation is deleted before the second instance starts. -/
def deletedBetween : List Engine.HostCall :=
  [startGrading, .applyCommandAt (.deleteDecisionInstance 6 3) 2, startGrading]

/-- Both evaluations were on record, one after the other. -/
theorem decisionHistory_of_deleted_first :
    ((gradeLog deletedBetween).filterMap fun entry => evaluationOf entry.2).map (·.decisionKey) = [3, 3] ∧
      DecisionHistory (gradeLog deletedBetween) := by
  have hok : (projectLog {} (gradeLog deletedBetween)).isOk = true := by decide +kernel
  obtain ⟨t, ht⟩ : ∃ t, projectLog {} (gradeLog deletedBetween) = .ok t := by
    cases h : projectLog {} (gradeLog deletedBetween) with
    | error err =>
      rw [h] at hok
      cases hok
    | ok t => exact ⟨t, rfl⟩
  refine ⟨by decide +kernel, (decisionHistory_iff ht).mpr fun done hdone => ?_⟩
  have hall : ((gradeLog deletedBetween).map (·.2)).inits.all (fun done => decide
      (((surviving done).filter (!·.evaluatedDecisions.isEmpty)).map (·.decisionKey)).Nodup) = true := by
    decide +kernel
  exact of_decide_eq_true (List.all_eq_true.mp hall done ((List.mem_inits _ _).mpr hdone))

/-- Nothing is deleted: the second evaluation is nowhere in the table. -/
theorem decisionHistory_lost :
    ∃ t, projectLog {} (gradeLog [startGrading, startGrading]) = .ok t ∧
      ¬ DecisionHistory (gradeLog [startGrading, startGrading]) := by
  have hrows : (projectLog {} (gradeLog [startGrading, startGrading])).toOption.map
      (fun t => t.decisionInstances.vals.length) = some 1 := by
    decide +kernel
  have hexpected :
      ((surviving ((gradeLog [startGrading, startGrading]).map (·.2))).flatMap (·.records)).length = 2 := by
    decide +kernel
  cases ht : projectLog {} (gradeLog [startGrading, startGrading]) with
  | error err =>
    rw [ht] at hrows
    cases hrows
  | ok t =>
    rw [ht] at hrows
    have hone : t.decisionInstances.vals.length = 1 := Option.some.inj hrows
    refine ⟨t, rfl, fun hhistory => ?_⟩
    have hlen := ((hhistory (gradeLog [startGrading, startGrading]) t List.prefix_rfl ht).1).length_eq
    rw [List.length_map, hone, hexpected] at hlen
    cases hlen

end NanoBpm.ReadModel
