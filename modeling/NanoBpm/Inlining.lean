import NanoBpm.Model
import NanoBpm.Lib.Index
import Mathlib.Data.Finset.Card
import Mathlib.Data.List.Perm.Basic

/-!
# Inlining called processes (`model.rs:1551-1761`)

| here | there |
| --- | --- |
| `remapKindIds` | `remap_kind_ids` (`model.rs:1688`) |
| `splice` | `splice_call_activities` (`model.rs:1595`), with a bound on its depth |
| `inlineCallActivities` | `inline_call_activities` (`model.rs:1568`) |
| `Visits` | the processes that calls reach, each with the prefix of its ids |

A map is visited in an order of its own at every call: `order`. The bound on the depth is never met, since no process is twice on a call
path.
-/

namespace NanoBpm

namespace Inlining

/-- `remap_kind_ids`. -/
def remapKindIds (kind : ElementKind) (pfx : ElementId → ElementId) : ElementKind :=
  match kind with
  | .subProcess startEvent => .subProcess (pfx startEvent)
  | .errorBoundaryEvent attachedTo errorCode => .errorBoundaryEvent (pfx attachedTo) errorCode
  | .timerBoundaryEvent attachedTo durationMillis interrupting repeating =>
    .timerBoundaryEvent (pfx attachedTo) durationMillis interrupting repeating
  | .messageBoundaryEvent attachedTo messageName correlationKey interrupting =>
    .messageBoundaryEvent (pfx attachedTo) messageName correlationKey interrupting
  | .signalBoundaryEvent attachedTo signalName interrupting => .signalBoundaryEvent (pfx attachedTo) signalName interrupting
  | .conditionalBoundaryEvent attachedTo condition interrupting => .conditionalBoundaryEvent (pfx attachedTo) condition interrupting
  | .compensationBoundaryEvent attachedTo handler => .compensationBoundaryEvent (pfx attachedTo) (pfx handler)
  | .escalationBoundaryEvent attachedTo escalationCode interrupting =>
    .escalationBoundaryEvent (pfx attachedTo) escalationCode interrupting
  | other => other

/-- The copy of an element at a prefix, before its kind is looked at. -/
def copyOf (pfx : String) (parentOverride : Option ElementId) (el : Element) (kind : ElementKind) : Element :=
  { el with
    id := pfx ++ el.id
    kind := kind
    outgoing := el.outgoing.map fun f => { f with target := pfx ++ f.target }
    parent :=
      match el.parent with
      | some p => some (pfx ++ p)
      | none => parentOverride }

variable (library : StrMap ProcessDefinition) (order : String → List Element → List Element)

/-- `splice_call_activities`, to a depth of calls; the error of the bound is `none`. -/
def splice : Nat → StrMap Element → String → Option ElementId → List String → StrMap Element → Except (Option String) (StrMap Element)
  | 0, _, _, _, _, _ => .error none
  | depth + 1, src, pfx, parentOverride, stack, out =>
    (order pfx src.vals).foldlM (fun out el =>
      match el.kind with
      | .callActivity calledProcessId _ _ =>
        match library[calledProcessId]? with
        | none => .error (some ("call activity '" ++ el.id ++ "' references unknown process '" ++ calledProcessId ++ "'"))
        | some called =>
          if stack.contains calledProcessId then .error (some ("call activity cycle detected at process '" ++ calledProcessId ++ "'"))
          else
            let newId := pfx ++ el.id
            let innerPrefix := newId ++ "$"
            let out := out.insert newId (copyOf pfx parentOverride el (.subProcess (innerPrefix ++ called.startEvent)))
            splice depth called.elements innerPrefix (some newId) (stack ++ [calledProcessId]) out
      | kind => .ok (out.insert (pfx ++ el.id) (copyOf pfx parentOverride el (remapKindIds kind (pfx ++ ·))))) out

/-- `inline_call_activities`. -/
def inlineCallActivities (d : ProcessDefinition) : Except (Option String) ProcessDefinition := do
  let elements ← splice library order (library.size + 1) d.elements "" none [d.id] ∅
  return { d with elements := elements }

/-! ## What inlining is to do -/

/-- The ids an element kind refers to. -/
def references : ElementKind → List ElementId
  | .subProcess startEvent => [startEvent]
  | .errorBoundaryEvent attachedTo _ | .timerBoundaryEvent attachedTo .. | .messageBoundaryEvent attachedTo .. |
    .signalBoundaryEvent attachedTo .. | .conditionalBoundaryEvent attachedTo .. | .escalationBoundaryEvent attachedTo .. => [attachedTo]
  | .compensationBoundaryEvent attachedTo handler => [attachedTo, handler]
  | _ => []

/-- An element kind without the ids it refers to. -/
def blank : ElementKind → ElementKind
  | .subProcess _ => .subProcess ""
  | .errorBoundaryEvent _ errorCode => .errorBoundaryEvent "" errorCode
  | .timerBoundaryEvent _ durationMillis interrupting repeating => .timerBoundaryEvent "" durationMillis interrupting repeating
  | .messageBoundaryEvent _ messageName correlationKey interrupting => .messageBoundaryEvent "" messageName correlationKey interrupting
  | .signalBoundaryEvent _ signalName interrupting => .signalBoundaryEvent "" signalName interrupting
  | .conditionalBoundaryEvent _ condition interrupting => .conditionalBoundaryEvent "" condition interrupting
  | .compensationBoundaryEvent _ _ => .compensationBoundaryEvent "" ""
  | .escalationBoundaryEvent _ escalationCode interrupting => .escalationBoundaryEvent "" escalationCode interrupting
  | kind => kind

/-- A process at a place in the expansion: the prefix of its ids, the sub-process it is in, and the processes on its call path. -/
structure Visit where
  pfx : String
  parent : Option ElementId
  stack : List String
  process : ProcessDefinition

/-- The definition itself. -/
def Visit.root (d : ProcessDefinition) : Visit := ⟨"", none, [d.id], d⟩

/-- The element calls a process of the library that is not on the call path. -/
def Visit.Calls (v : Visit) (el : Element) (v₁ : Visit) : Prop :=
  ∃ calledProcessId propagateParent propagateChild called, el.kind = .callActivity calledProcessId propagateParent propagateChild ∧
    library[calledProcessId]? = some called ∧ calledProcessId ∉ v.stack ∧
    v₁ = ⟨v.pfx ++ el.id ++ "$", some (v.pfx ++ el.id), v.stack ++ [calledProcessId], called⟩

/-- The calls under the keys of the path lead from one process to another. -/
inductive Visits : Visit → List ElementId → Visit → Prop
  | here (v : Visit) : Visits v [] v
  | call {v v₁ v' : Visit} {key : ElementId} {el : Element} {path : List ElementId} : v.process.elements[key]? = some el →
      v.Calls library el v₁ → Visits v₁ path v' → Visits v (key :: path) v'

/-- The element names a process that is missing, or one on the call path. -/
def Visit.Misses (v : Visit) (el : Element) : Prop :=
  ∃ calledProcessId propagateParent propagateChild, el.kind = .callActivity calledProcessId propagateParent propagateChild ∧
    (library[calledProcessId]? = none ∨ calledProcessId ∈ v.stack)

/-- The element under the key, where the path leads. -/
def Source (v : Visit) (path : List ElementId) (v' : Visit) (key : ElementId) (el : Element) : Prop :=
  Visits library v path v' ∧ v'.process.elements[key]? = some el

/-- A call that is reached misses. -/
def BadCall (v : Visit) : Prop := ∃ path v' key el, Source library v path v' key el ∧ v'.Misses library el

/-- The copy of an element: its ids prefixed, and a call a sub-process that holds the called process. -/
structure IsCopy (v : Visit) (el e : Element) : Prop where
  id : e.id = v.pfx ++ el.id
  flows : e.outgoing = el.outgoing.map fun f => { f with target := v.pfx ++ f.target }
  parent : e.parent = (el.parent.map (v.pfx ++ ·)).or v.parent
  called : ∀ calledProcessId propagateParent propagateChild, el.kind = .callActivity calledProcessId propagateParent propagateChild →
    ∃ called, library[calledProcessId]? = some called ∧ e.kind = .subProcess (v.pfx ++ el.id ++ "$" ++ called.startEvent)
  references : (∀ calledProcessId propagateParent propagateChild, el.kind ≠ .callActivity calledProcessId propagateParent propagateChild) →
    references e.kind = (references el.kind).map (v.pfx ++ ·) ∧ blank e.kind = blank el.kind
  rest : { e with id := el.id, kind := el.kind, outgoing := el.outgoing, parent := el.parent } = el

/-- The ids an element refers to. -/
def elementReferences (e : Element) : List ElementId := references e.kind ++ e.parent.toList ++ e.outgoing.map (·.target)

/-- An ad-hoc tool catalog with its ids prefixed. -/
def prefixedCatalog (pfx : String) (a : AdHocSubProcessDef) : AdHocSubProcessDef :=
  { a with
    containerId := pfx ++ a.containerId
    tools := a.tools.map fun t =>
      { t with
        elementId := pfx ++ t.elementId
        kind :=
          match t.kind with
          | .subProcess startEvent => .subProcess (pfx ++ startEvent)
          | kind => kind }
    innerFlows := a.innerFlows.map fun f => { f with source := pfx ++ f.source, target := pfx ++ f.target } }

/-- `r` is the definition with every call inlined. -/
structure Inlined (d r : ProcessDefinition) : Prop where
  header : { r with elements := d.elements, adhoc := d.adhoc } = d
  copied : ∀ path v key el, Source library (.root d) path v key el → ∃ e, r.elements[v.pfx ++ el.id]? = some e ∧ IsCopy library v el e
  only : ∀ (id : ElementId) (e : Element), r.elements[id]? = some e → ∃ path v key el, Source library (.root d) path v key el ∧ id = v.pfx ++ el.id ∧ IsCopy library v el e
  catalogs : ∀ path v, Visits library (.root d) path v → ∀ a ∈ v.process.adhoc, prefixedCatalog v.pfx a ∈ r.adhoc
  ownCatalogs : ∀ a ∈ r.adhoc, ∃ path v a', Visits library (.root d) path v ∧ a' ∈ v.process.adhoc ∧ a = prefixedCatalog v.pfx a'
  resolved : r.elements[r.startEvent]?.isSome ∧ (∀ a ∈ r.adhoc, r.elements[a.containerId]?.isSome) ∧
    ∀ (id : ElementId) (e : Element), r.elements[id]? = some e → ∀ ref ∈ elementReferences e, r.elements[ref]?.isSome
  distinct : ∀ path v key el path' v' key' el', Source library (.root d) path v key el → Source library (.root d) path' v' key' el' →
    v.pfx ++ el.id = v'.pfx ++ el'.id → path = path' ∧ key = key'

/-- An id that an element which is reached gets. -/
def Named (v : Visit) (id : ElementId) : Prop := ∃ path v' key el, Source library v path v' key el ∧ v'.pfx ++ el.id = id

/-- Prefixed with the ids of its calls, no two elements that are reached get one id; no process that is reached has a tool catalog that
the definition does not have itself; and what they refer to is there. -/
structure Fit (d : ProcessDefinition) : Prop where
  distinct : ∀ path v key el path' v' key' el', Source library (.root d) path v key el → Source library (.root d) path' v' key' el' →
    v.pfx ++ el.id = v'.pfx ++ el'.id → path = path' ∧ key = key'
  catalogs : ∀ path v, Visits library (.root d) path v → ∀ a ∈ v.process.adhoc, prefixedCatalog v.pfx a ∈ d.adhoc
  started : ∀ path v, Visits library (.root d) path v → Named library (.root d) (v.pfx ++ v.process.startEvent)
  resolved : ∀ path v key el, Source library (.root d) path v key el → ∀ ref ∈ elementReferences el, Named library (.root d) (v.pfx ++ ref)
  containers : ∀ a ∈ d.adhoc, Named library (.root d) a.containerId

/-! ## Copies -/

variable {library order}

/-- What is written for an element. -/
def copyFor (library : StrMap ProcessDefinition) (v : Visit) (el : Element) : Element :=
  copyOf v.pfx v.parent el <|
    match el.kind with
    | .callActivity calledProcessId _ _ =>
      .subProcess (v.pfx ++ el.id ++ "$" ++ ((library[calledProcessId]?).map (·.startEvent)).getD "")
    | kind => remapKindIds kind (v.pfx ++ ·)

theorem references_remapKindIds (kind : ElementKind) (pfx : ElementId → ElementId) :
    references (remapKindIds kind pfx) = (references kind).map pfx := by
  cases kind <;> rfl

theorem blank_remapKindIds (kind : ElementKind) (pfx : ElementId → ElementId) : blank (remapKindIds kind pfx) = blank kind := by
  cases kind <;> rfl

theorem isCopy_copyFor {v : Visit} {el : Element} (h : ¬ v.Misses library el) : IsCopy library v el (copyFor library v el) := by
  refine ⟨rfl, rfl, ?_, ?_, ?_, rfl⟩
  · cases hparent : el.parent <;> simp [copyFor, copyOf, hparent]
  · intro calledProcessId propagateParent propagateChild hkind
    cases hcalled : library[calledProcessId]? with
    | none => exact absurd ⟨_, _, _, hkind, .inl hcalled⟩ h
    | some called => exact ⟨called, rfl, by simp [copyFor, copyOf, hkind, hcalled]⟩
  · intro hkind
    have hcopy : (copyFor library v el).kind = remapKindIds el.kind (v.pfx ++ ·) := by simp only [copyFor, copyOf]
    rw [hcopy]
    exact ⟨references_remapKindIds _ _, blank_remapKindIds _ _⟩

theorem Visit.Calls.unique {v v₁ v₂ : Visit} {el : Element} (h₁ : v.Calls library el v₁) (h₂ : v.Calls library el v₂) : v₁ = v₂ := by
  obtain ⟨_, _, _, _, hkind, hcalled, -, rfl⟩ := h₁
  obtain ⟨_, _, _, _, hkind', hcalled', -, rfl⟩ := h₂
  rw [hkind] at hkind'
  cases hkind'
  rw [hcalled] at hcalled'
  cases hcalled'
  rfl

/-! ## What is written -/

/-- What a visit writes, in its own process and in those it calls. -/
def Written (library : StrMap ProcessDefinition) (v : Visit) (id : ElementId) (e : Element) : Prop :=
  ∃ path v' key el, Source library v path v' key el ∧ id = v'.pfx ++ el.id ∧ e = copyFor library v' el

/-- What is written for one element of a visit. -/
def WrittenFor (library : StrMap ProcessDefinition) (v : Visit) (el : Element) (id : ElementId) (e : Element) : Prop :=
  (id = v.pfx ++ el.id ∧ e = copyFor library v el) ∨ ∃ v₁, v.Calls library el v₁ ∧ Written library v₁ id e

theorem written_iff {v : Visit} {id : ElementId} {e : Element} :
    Written library v id e ↔ ∃ el ∈ v.process.elements.vals, WrittenFor library v el id e := by
  constructor
  · rintro ⟨path, v', key, el, ⟨hvisits, hel⟩, hid, he⟩
    cases hvisits with
    | here => exact ⟨el, Std.ExtTreeMap.mem_vals.mpr ⟨key, hel⟩, .inl ⟨hid, he⟩⟩
    | call hcaller hcalls hrest =>
      exact ⟨_, Std.ExtTreeMap.mem_vals.mpr ⟨_, hcaller⟩, .inr ⟨_, hcalls, _, v', key, el, ⟨hrest, hel⟩, hid, he⟩⟩
  · rintro ⟨el, hmem, ⟨hid, he⟩ | ⟨v₁, hcalls, path, v', key, el', ⟨hvisits, hel⟩, hid, he⟩⟩
    · obtain ⟨key, hkey⟩ := Std.ExtTreeMap.mem_vals.mp hmem
      exact ⟨[], v, key, el, ⟨.here v, hkey⟩, hid, he⟩
    · obtain ⟨caller, hcaller⟩ := Std.ExtTreeMap.mem_vals.mp hmem
      exact ⟨caller :: path, v', key, el', ⟨.call hcaller hcalls hvisits, hel⟩, hid, he⟩

/-- An element misses, or a process that it calls has a bad call. -/
def BadFor (library : StrMap ProcessDefinition) (v : Visit) (el : Element) : Prop :=
  v.Misses library el ∨ ∃ v₁, v.Calls library el v₁ ∧ BadCall library v₁

theorem badCall_iff {v : Visit} : BadCall library v ↔ ∃ el ∈ v.process.elements.vals, BadFor library v el := by
  constructor
  · rintro ⟨path, v', key, el, ⟨hvisits, hel⟩, hmisses⟩
    cases hvisits with
    | here => exact ⟨el, Std.ExtTreeMap.mem_vals.mpr ⟨key, hel⟩, .inl hmisses⟩
    | call hcaller hcalls hrest =>
      exact ⟨_, Std.ExtTreeMap.mem_vals.mpr ⟨_, hcaller⟩, .inr ⟨_, hcalls, _, v', key, el, ⟨hrest, hel⟩, hmisses⟩⟩
  · rintro ⟨el, hmem, hmisses | ⟨v₁, hcalls, path, v', key, el', ⟨hvisits, hel⟩, hmisses⟩⟩
    · obtain ⟨key, hkey⟩ := Std.ExtTreeMap.mem_vals.mp hmem
      exact ⟨[], v, key, el, ⟨.here v, hkey⟩, hmisses⟩
    · obtain ⟨caller, hcaller⟩ := Std.ExtTreeMap.mem_vals.mp hmem
      exact ⟨caller :: path, v', key, el', ⟨.call hcaller hcalls hvisits, hel⟩, hmisses⟩

/-! ## The splice -/

/-- `m` is `out` with entries of `S` written into it: under each id of `S` there is one of them. -/
structure Fills (S : ElementId → Element → Prop) (out m : StrMap Element) : Prop where
  only : ∀ (id : ElementId) (e : Element), m[id]? = some e → out[id]? = some e ∨ S id e
  kept : ∀ (id : ElementId), out[id]?.isSome → m[id]?.isSome
  filled : ∀ (id : ElementId) (e : Element), S id e → m[id]?.isSome

theorem Fills.trans {S T : ElementId → Element → Prop} {out m n : StrMap Element} (h : Fills S out m) (h' : Fills T m n) :
    Fills (fun id e => S id e ∨ T id e) out n := by
  refine ⟨fun id e hn => ?_, fun id hout => h'.kept id (h.kept id hout), fun id e hwritten => ?_⟩
  · rcases h'.only id e hn with hm | hT
    · exact (h.only id e hm).imp_right .inl
    · exact .inr (.inr hT)
  · rcases hwritten with hS | hT
    · exact h'.kept id (h.filled id e hS)
    · exact h'.filled id e hT

theorem Fills.congr {S T : ElementId → Element → Prop} {out m : StrMap Element} (h : Fills S out m) (hST : ∀ id e, S id e ↔ T id e) :
    Fills T out m :=
  ⟨fun id e hm => (h.only id e hm).imp_right (hST id e).mp, h.kept, fun id e hT => h.filled id e ((hST id e).mpr hT)⟩

theorem fills_insert (out : StrMap Element) (id : ElementId) (e : Element) :
    Fills (fun id' e' => id' = id ∧ e' = e) out (out.insert id e) := by
  refine ⟨fun id' e' h => ?_, fun id' h => ?_, fun id' e' h => ?_⟩
  · rw [Std.ExtTreeMap.getElem?_insert] at h
    split at h
    · next heq => exact .inr ⟨(Std.LawfulEqCmp.eq_of_compare heq).symm, (Option.some.inj h).symm⟩
    · exact .inl h
  · rw [Std.ExtTreeMap.getElem?_insert]
    split
    · rfl
    · exact h
  · rw [h.1, Std.ExtTreeMap.getElem?_insert_self]
    rfl

/-- The loop over the elements: it fails as soon as one of them does, and else writes for each. -/
theorem foldlM_fills {step : StrMap Element → Element → Except (Option String) (StrMap Element)} {bad : Element → Prop}
    {S : Element → ElementId → Element → Prop} {els : List Element}
    (hbad : ∀ el ∈ els, bad el → ∀ out, ∃ message, step out el = .error (some message))
    (hgood : ∀ el ∈ els, ¬ bad el → ∀ out, ∃ m, step out el = .ok m ∧ Fills (S el) out m) (out : StrMap Element) :
    ((∃ el ∈ els, bad el) → ∃ message, els.foldlM step out = .error (some message)) ∧
      ((∀ el ∈ els, ¬ bad el) → ∃ m, els.foldlM step out = .ok m ∧ Fills (fun id e => ∃ el ∈ els, S el id e) out m) := by
  induction els generalizing out with
  | nil =>
    refine ⟨fun ⟨el, hel, _⟩ => absurd hel List.not_mem_nil, fun _ => ⟨out, rfl, fun _ _ h => .inl h, fun _ h => h, ?_⟩⟩
    exact fun id e ⟨el, hel, _⟩ => absurd hel List.not_mem_nil
  | cons el els ih =>
    have ih := ih (fun el' hel' => hbad el' (List.mem_cons_of_mem _ hel')) fun el' hel' => hgood el' (List.mem_cons_of_mem _ hel')
    by_cases hel : bad el
    · refine ⟨fun _ => ?_, fun hnone => absurd hel (hnone el List.mem_cons_self)⟩
      obtain ⟨message, hmessage⟩ := hbad el List.mem_cons_self hel out
      exact ⟨message, by rw [List.foldlM_cons, hmessage]; rfl⟩
    · obtain ⟨m, hm, hfills⟩ := hgood el List.mem_cons_self hel out
      have hcons : (el :: els).foldlM step out = els.foldlM step m := by
        rw [List.foldlM_cons, hm]
        rfl
      rw [hcons]
      refine ⟨fun ⟨el', hel', hbad'⟩ => ?_, fun hnone => ?_⟩
      · rcases List.mem_cons.mp hel' with rfl | hel'
        · exact absurd hbad' hel
        · exact (ih m).1 ⟨el', hel', hbad'⟩
      · obtain ⟨n, hn, hrest⟩ := (ih m).2 fun el' hel' => hnone el' (List.mem_cons_of_mem _ hel')
        refine ⟨n, hn, (hfills.trans hrest).congr fun id e => ?_⟩
        simp

/-- How many processes of the library are not on the call path. -/
def remaining (library : StrMap ProcessDefinition) (stack : List String) : Nat := (library.keys.filter (· ∉ stack)).length

theorem remaining_lt {stack : List String} {calledProcessId : String} {called : ProcessDefinition}
    (hcalled : library[calledProcessId]? = some called) (hstack : calledProcessId ∉ stack) :
    remaining library (stack ++ [calledProcessId]) < remaining library stack := by
  have hmem : calledProcessId ∈ library.keys := Std.ExtTreeMap.mem_keys.mpr (Std.ExtTreeMap.mem_iff_isSome_getElem?.mpr (by rw [hcalled]; rfl))
  unfold remaining
  rw [← List.countP_eq_length_filter, ← List.countP_eq_length_filter]
  generalize library.keys = keys at hmem
  induction keys with
  | nil => exact absurd hmem List.not_mem_nil
  | cons key keys ih =>
    have hle : keys.countP (fun k => decide (k ∉ stack ++ [calledProcessId])) ≤ keys.countP fun k => decide (k ∉ stack) :=
      List.countP_mono_left fun k _ hk => by
        simp only [List.mem_append, not_or, decide_eq_true_eq] at hk ⊢
        exact hk.1
    rw [List.countP_cons, List.countP_cons]
    by_cases hkey : key = calledProcessId
    · subst hkey
      rw [if_neg (by simp), if_pos (by simpa using hstack)]
      omega
    · have hlt := ih ((List.mem_cons.mp hmem).resolve_left (Ne.symm hkey))
      have hsame : decide (key ∉ stack ++ [calledProcessId]) = decide (key ∉ stack) := by simp [hkey]
      rw [hsame]
      omega

/-- `splice` at a visit. -/
def spliceAt (library : StrMap ProcessDefinition) (order : String → List Element → List Element) (depth : Nat) (v : Visit)
    (out : StrMap Element) : Except (Option String) (StrMap Element) :=
  splice library order depth v.process.elements v.pfx v.parent v.stack out

/-- The body of the loop. -/
def spliceElement (library : StrMap ProcessDefinition) (order : String → List Element → List Element) (depth : Nat) (v : Visit)
    (out : StrMap Element) (el : Element) : Except (Option String) (StrMap Element) :=
  match el.kind with
  | .callActivity calledProcessId _ _ =>
    match library[calledProcessId]? with
    | none => .error (some ("call activity '" ++ el.id ++ "' references unknown process '" ++ calledProcessId ++ "'"))
    | some called =>
      if v.stack.contains calledProcessId then .error (some ("call activity cycle detected at process '" ++ calledProcessId ++ "'"))
      else spliceAt library order depth ⟨v.pfx ++ el.id ++ "$", some (v.pfx ++ el.id), v.stack ++ [calledProcessId], called⟩
        (out.insert (v.pfx ++ el.id) (copyOf v.pfx v.parent el (.subProcess (v.pfx ++ el.id ++ "$" ++ called.startEvent))))
  | kind => .ok (out.insert (v.pfx ++ el.id) (copyOf v.pfx v.parent el (remapKindIds kind (v.pfx ++ ·))))

theorem spliceAt_succ (depth : Nat) (v : Visit) (out : StrMap Element) : spliceAt library order (depth + 1) v out =
    (order v.pfx v.process.elements.vals).foldlM (spliceElement library order depth v) out := rfl

variable (horder : ∀ pfx els, (order pfx els).Perm els)
include horder

/-- With a bound above the number of processes that are not on the call path, the splice of a visit fails where there is a bad call, and
else writes what there is to write. -/
theorem spliceAt_spec {depth : Nat} {v : Visit} (hdepth : remaining library v.stack < depth) (out : StrMap Element) :
    (BadCall library v → ∃ message, spliceAt library order depth v out = .error (some message)) ∧
      (¬ BadCall library v → ∃ m, spliceAt library order depth v out = .ok m ∧ Fills (Written library v) out m) := by
  induction depth generalizing v out with
  | zero => exact absurd hdepth (Nat.not_lt_zero _)
  | succ depth ih =>
    have hcalls : ∀ el v₁, v.Calls library el v₁ → ∀ out, spliceElement library order depth v out el =
        spliceAt library order depth v₁ (out.insert (v.pfx ++ el.id) (copyFor library v el)) ∧ remaining library v₁.stack < depth := by
      rintro el v₁ ⟨calledProcessId, propagateParent, propagateChild, called, hkind, hcalled, hstack, rfl⟩ out
      refine ⟨?_, (remaining_lt hcalled hstack).trans_le (Nat.lt_succ_iff.mp hdepth)⟩
      simp [spliceElement, copyFor, hkind, hcalled, hstack]
    have hbad : ∀ el ∈ order v.pfx v.process.elements.vals, BadFor library v el → ∀ out,
        ∃ message, spliceElement library order depth v out el = .error (some message) := by
      rintro el - (⟨calledProcessId, propagateParent, propagateChild, hkind, hmisses⟩ | ⟨v₁, hv₁, hbad⟩) out
      · rcases hmisses with hmissing | hcycle
        · exact ⟨_, by simp only [spliceElement, hkind, hmissing]; rfl⟩
        · cases hcalled : library[calledProcessId]? with
          | none => exact ⟨_, by simp only [spliceElement, hkind, hcalled]; rfl⟩
          | some called =>
            refine ⟨"call activity cycle detected at process '" ++ calledProcessId ++ "'", ?_⟩
            simp only [spliceElement, hkind, hcalled]
            rw [if_pos (by simpa using hcycle)]
      · obtain ⟨heq, hless⟩ := hcalls el v₁ hv₁ out
        rw [heq]
        exact (ih hless _).1 hbad
    have hgood : ∀ el ∈ order v.pfx v.process.elements.vals, ¬ BadFor library v el → ∀ out,
        ∃ m, spliceElement library order depth v out el = .ok m ∧ Fills (WrittenFor library v el) out m := by
      intro el _ hel out
      by_cases hcall : ∃ v₁, v.Calls library el v₁
      · obtain ⟨v₁, hv₁⟩ := hcall
        obtain ⟨heq, hless⟩ := hcalls el v₁ hv₁ out
        obtain ⟨m, hm, hfills⟩ := (ih hless (out.insert (v.pfx ++ el.id) (copyFor library v el))).2 fun hbad => hel (.inr ⟨v₁, hv₁, hbad⟩)
        refine ⟨m, heq.trans hm, ((fills_insert out _ _).trans hfills).congr fun id e => or_congr_right ⟨fun h => ⟨v₁, hv₁, h⟩, ?_⟩⟩
        rintro ⟨v₂, hv₂, hwritten⟩
        exact hv₁.unique hv₂ ▸ hwritten
      · have hkind : ∀ calledProcessId propagateParent propagateChild,
            el.kind ≠ .callActivity calledProcessId propagateParent propagateChild := by
          intro calledProcessId propagateParent propagateChild hkind
          cases hcalled : library[calledProcessId]? with
          | none => exact hel (.inl ⟨_, _, _, hkind, .inl hcalled⟩)
          | some called =>
            by_cases hstack : calledProcessId ∈ v.stack
            · exact hel (.inl ⟨_, _, _, hkind, .inr hstack⟩)
            · exact hcall ⟨_, _, _, _, called, hkind, hcalled, hstack, rfl⟩
        have hcopy : spliceElement library order depth v out el = .ok (out.insert (v.pfx ++ el.id) (copyFor library v el)) := by
          simp only [spliceElement, copyFor]
        refine ⟨_, hcopy, (fills_insert out _ _).congr fun id e => (or_iff_left fun ⟨v₁, hv₁, _⟩ => hcall ⟨v₁, hv₁⟩).symm⟩
    have hmem : ∀ el, el ∈ order v.pfx v.process.elements.vals ↔ el ∈ v.process.elements.vals := fun el => (horder _ _).mem_iff
    obtain ⟨hfails, hwrites⟩ := foldlM_fills hbad hgood out
    rw [spliceAt_succ]
    refine ⟨fun hbadCall => hfails ?_, fun hnone => ?_⟩
    · obtain ⟨el, hel, hbadFor⟩ := badCall_iff.mp hbadCall
      exact ⟨el, (hmem el).mpr hel, hbadFor⟩
    · obtain ⟨m, hm, hfills⟩ := hwrites fun el hel hbadFor => hnone (badCall_iff.mpr ⟨el, (hmem el).mp hel, hbadFor⟩)
      refine ⟨m, hm, hfills.congr fun id e => ?_⟩
      simp only [hmem]
      exact written_iff.symm

theorem inline_spec (d : ProcessDefinition) :
    (BadCall library (.root d) → ∃ message, inlineCallActivities library order d = .error (some message)) ∧
      (¬ BadCall library (.root d) → ∃ m, inlineCallActivities library order d = .ok { d with elements := m } ∧
        Fills (Written library (.root d)) ∅ m) := by
  have hdepth : remaining library (Visit.root d).stack < library.size + 1 := by
    rw [← Std.ExtTreeMap.length_keys]
    exact Nat.lt_succ_of_le (List.length_filter_le _ _)
  have hsplice : inlineCallActivities library order d =
      (spliceAt library order (library.size + 1) (.root d) ∅).map fun m => { d with elements := m } := by
    unfold inlineCallActivities
    change _ = (splice library order (library.size + 1) d.elements "" none [d.id] ∅).map _
    cases splice library order (library.size + 1) d.elements "" none [d.id] ∅ <;> rfl
  rw [hsplice]
  constructor
  · intro hbad
    obtain ⟨message, hmessage⟩ := (spliceAt_spec horder hdepth ∅).1 hbad
    exact ⟨message, by rw [hmessage]; rfl⟩
  · intro hnone
    obtain ⟨m, hm, hfills⟩ := (spliceAt_spec horder hdepth ∅).2 hnone
    exact ⟨m, by rw [hm]; rfl, hfills⟩

omit horder

/-! ## The result -/

variable {d : ProcessDefinition} {v v' v₁ v₂ : Visit} {path : List ElementId} {el e : Element} {ref : ElementId}

theorem Visits.unique (h₁ : Visits library v path v₁) (h₂ : Visits library v path v₂) : v₁ = v₂ := by
  induction h₁ with
  | here => cases h₂; rfl
  | call hel hcalls _ ih =>
    cases h₂ with
    | call hel' hcalls' hrest' =>
      rw [hel] at hel'
      cases hel'
      exact ih (hcalls.unique hcalls' ▸ hrest')

/-- A process that is reached is where the path began, or is called from one that is reached. -/
theorem Visits.last (h : Visits library v path v') : v' = v ∨ ∃ path u key el, Source library v path u key el ∧ u.Calls library el v' := by
  induction h with
  | here => exact .inl rfl
  | @call v v₁ v' key el path hel hcalls hrest ih =>
    rcases ih with rfl | ⟨path, u, key', el', ⟨hvisits, hel'⟩, hcalls'⟩
    · exact .inr ⟨[], v, key, el, ⟨.here v, hel⟩, hcalls⟩
    · exact .inr ⟨key :: path, u, key', el', ⟨.call hel hcalls hvisits, hel'⟩, hcalls'⟩

theorem Visits.snoc (h : Visits library v path v') {key : ElementId} (hel : v'.process.elements[key]? = some el)
    (hcalls : v'.Calls library el v₁) : Visits library v (path ++ [key]) v₁ := by
  induction h with
  | here => exact .call hel hcalls (.here _)
  | call hel' hcalls' _ ih => exact .call hel' hcalls' (ih hel hcalls)

/-- What a copy refers to: what the element refers to, the sub-process it is in, and the start of the process it calls. -/
theorem mem_references_copyFor (hgood : ¬ v.Misses library el) (h : ref ∈ elementReferences (copyFor library v el)) :
    (∃ ref' ∈ elementReferences el, ref = v.pfx ++ ref') ∨ v.parent = some ref ∨
      ∃ v₁, v.Calls library el v₁ ∧ ref = v₁.pfx ++ v₁.process.startEvent := by
  simp only [elementReferences, List.mem_append] at h ⊢
  rcases h with (hkind | hparent) | hflow
  · by_cases hcall : ∃ calledProcessId propagateParent propagateChild, el.kind = .callActivity calledProcessId propagateParent propagateChild
    · obtain ⟨calledProcessId, propagateParent, propagateChild, hcall⟩ := hcall
      cases hcalled : library[calledProcessId]? with
      | none => exact absurd ⟨_, _, _, hcall, .inl hcalled⟩ hgood
      | some called =>
        have hstack : calledProcessId ∉ v.stack := fun hmem => hgood ⟨_, _, _, hcall, .inr hmem⟩
        refine .inr (.inr ⟨_, ⟨_, _, _, called, hcall, hcalled, hstack, rfl⟩, ?_⟩)
        simpa [copyFor, copyOf, hcall, hcalled, references] using hkind
    · have hcopy := (isCopy_copyFor hgood).references fun c a b heq => hcall ⟨c, a, b, heq⟩
      rw [hcopy.1] at hkind
      obtain ⟨ref', hmem, rfl⟩ := List.mem_map.mp hkind
      exact .inl ⟨ref', .inl (.inl hmem), rfl⟩
  · rw [(isCopy_copyFor hgood).parent] at hparent
    cases hp : el.parent with
    | none =>
      rw [hp] at hparent
      exact .inr (.inl (by simpa using hparent))
    | some p =>
      rw [hp] at hparent
      exact .inl ⟨p, .inl (.inr (by simp)), by simpa using hparent⟩
  · obtain ⟨f, hf, rfl⟩ := List.mem_map.mp hflow
    rw [(isCopy_copyFor hgood).flows] at hf
    obtain ⟨g, hg, rfl⟩ := List.mem_map.mp hf
    exact .inl ⟨g.target, .inr (List.mem_map_of_mem hg), rfl⟩

theorem IsCopy.mem_references (h : IsCopy library v el e) (href : ref ∈ elementReferences el) : v.pfx ++ ref ∈ elementReferences e := by
  simp only [elementReferences, List.mem_append] at href ⊢
  rcases href with (hkind | hparent) | hflow
  · have hcall : ∀ calledProcessId propagateParent propagateChild,
        el.kind ≠ .callActivity calledProcessId propagateParent propagateChild := by
      intro calledProcessId propagateParent propagateChild heq
      rw [heq] at hkind
      exact absurd hkind List.not_mem_nil
    rw [(h.references hcall).1]
    exact .inl (.inl (List.mem_map_of_mem hkind))
  · rw [h.parent, Option.mem_toList.mp hparent]
    exact .inl (.inr (by simp))
  · obtain ⟨f, hf, rfl⟩ := List.mem_map.mp hflow
    rw [h.flows]
    exact .inr (by simpa using ⟨f, hf, rfl⟩)

theorem prefixedCatalog_nil (a : AdHocSubProcessDef) : prefixedCatalog "" a = a := by
  have htools : (a.tools.map fun t =>
      { t with
        elementId := "" ++ t.elementId
        kind :=
          match t.kind with
          | .subProcess startEvent => .subProcess ("" ++ startEvent)
          | kind => kind }) = a.tools := by
    conv_rhs => rw [← List.map_id a.tools]
    refine List.map_congr_left fun t _ => ?_
    obtain ⟨elementId, name, kind, io⟩ := t
    cases kind <;> simp
  rw [prefixedCatalog, htools]
  simp

/-- The sub-process that a process is in is the copy of its call. -/
theorem Visits.parent_named (h : Visits library (.root d) path v) (hparent : v.parent = some ref) : Named library (.root d) ref := by
  rcases h.last with rfl | ⟨path', u, key, el, hsource, _, _, _, _, _, _, _, rfl⟩
  · cases hparent
  · exact ⟨path', u, key, el, hsource, Option.some.inj hparent⟩

/-- The process that an element which is reached calls is reached. -/
theorem Source.visits {key : ElementId} (h : Source library v path v' key el) (hcalls : v'.Calls library el v₁) :
    Visits library v (path ++ [key]) v₁ := h.1.snoc h.2 hcalls

variable {m : StrMap Element}

theorem isSome_iff_named (hfills : Fills (Written library (.root d)) ∅ m) (id : ElementId) : m[id]?.isSome ↔ Named library (.root d) id := by
  constructor
  · intro h
    obtain ⟨e, he⟩ := Option.isSome_iff_exists.mp h
    rcases hfills.only id e he with hout | ⟨path, v, key, el, hsource, hid, -⟩
    · simp at hout
    · exact ⟨path, v, key, el, hsource, hid.symm⟩
  · rintro ⟨path, v, key, el, hsource, rfl⟩
    exact hfills.filled _ _ ⟨path, v, key, el, hsource, rfl, rfl⟩

theorem inlined_of_fit (hgood : ¬ BadCall library (.root d)) (hfills : Fills (Written library (.root d)) ∅ m) (hfit : Fit library d) :
    Inlined library d { d with elements := m } := by
  have hnoMiss : ∀ path v key el, Source library (.root d) path v key el → ¬ v.Misses library el :=
    fun path v key el hsource hmisses => hgood ⟨path, v, key, el, hsource, hmisses⟩
  have hwritten : ∀ (id : ElementId) (e : Element), m[id]? = some e → Written library (.root d) id e := fun id e he =>
    (hfills.only id e he).resolve_left (by simp)
  refine ⟨rfl, ?_, ?_, hfit.catalogs, ?_, ⟨?_, ?_, ?_⟩, hfit.distinct⟩
  · intro path v key el hsource
    obtain ⟨e, he⟩ := Option.isSome_iff_exists.mp ((isSome_iff_named hfills _).mpr ⟨path, v, key, el, hsource, rfl⟩)
    obtain ⟨path', v', key', el', hsource', hid, rfl⟩ := hwritten _ e he
    obtain ⟨rfl, rfl⟩ := hfit.distinct _ _ _ _ _ _ _ _ hsource hsource' hid
    obtain rfl := hsource.1.unique hsource'.1
    obtain rfl := Option.some.inj (hsource.2.symm.trans hsource'.2)
    exact ⟨_, he, isCopy_copyFor (hnoMiss _ _ _ _ hsource)⟩
  · intro id e he
    obtain ⟨path, v, key, el, hsource, hid, rfl⟩ := hwritten id e he
    exact ⟨path, v, key, el, hsource, hid, isCopy_copyFor (hnoMiss _ _ _ _ hsource)⟩
  · exact fun a ha => ⟨[], .root d, a, .here _, ha, (prefixedCatalog_nil a).symm⟩
  · have hstart := hfit.started [] (.root d) (.here _)
    exact (isSome_iff_named hfills _).mpr (by simpa [Visit.root] using hstart)
  · exact fun a ha => (isSome_iff_named hfills _).mpr (hfit.containers a ha)
  · intro id e he ref href
    obtain ⟨path, v, key, el, hsource, -, rfl⟩ := hwritten id e he
    refine (isSome_iff_named hfills _).mpr ?_
    rcases mem_references_copyFor (hnoMiss _ _ _ _ hsource) href with ⟨ref', hmem, rfl⟩ | hparent | ⟨v₁, hcalls, rfl⟩
    · exact hfit.resolved path v key el hsource ref' hmem
    · exact hsource.1.parent_named hparent
    · exact hfit.started _ v₁ (hsource.visits hcalls)

theorem fit_of_inlined (hfills : Fills (Written library (.root d)) ∅ m) (h : Inlined library d { d with elements := m }) :
    Fit library d := by
  obtain ⟨hstart, hcontainers, hrefs⟩ := h.resolved
  refine ⟨h.distinct, h.catalogs, ?_, ?_, fun a ha => (isSome_iff_named hfills _).mp (hcontainers a ha)⟩
  · intro path v hvisits
    rcases hvisits.last with rfl | ⟨path', u, key, el, hsource, calledProcessId, propagateParent, propagateChild, called, hkind, hcalled, -, rfl⟩
    · exact (isSome_iff_named hfills _).mp (by simpa [Visit.root] using hstart)
    · obtain ⟨e, he, hcopy⟩ := h.copied _ _ _ _ hsource
      obtain ⟨called', hcalled', hstartEvent⟩ := hcopy.called _ _ _ hkind
      rw [hcalled] at hcalled'
      cases hcalled'
      refine (isSome_iff_named hfills _).mp (hrefs _ e he _ ?_)
      rw [elementReferences, hstartEvent]
      exact List.mem_append_left _ (List.mem_append_left _ (List.mem_singleton_self _))
  · intro path v key el hsource ref href
    obtain ⟨e, he, hcopy⟩ := h.copied _ _ _ _ hsource
    exact (isSome_iff_named hfills _).mp (hrefs _ e he _ (hcopy.mem_references href))

/-- Inlining returns, with an error exactly where a call that is reached names a process that is missing or already on its call path; and
what it returns else is the definition with all calls inlined exactly where the definition and the library fit. -/
theorem inlining_right (library : StrMap ProcessDefinition) (order : String → List Element → List Element)
    (horder : ∀ pfx els, (order pfx els).Perm els) (d : ProcessDefinition) :
    ((∃ message, inlineCallActivities library order d = .error (some message)) ↔ BadCall library (.root d)) ∧
      ((∃ r, inlineCallActivities library order d = .ok r) ↔ ¬ BadCall library (.root d)) ∧
      ∀ r, inlineCallActivities library order d = .ok r → (Inlined library d r ↔ Fit library d) := by
  obtain ⟨hfails, hwrites⟩ := @inline_spec library order horder d
  refine ⟨⟨?_, hfails⟩, ⟨?_, fun hgood => ?_⟩, ?_⟩
  · rintro ⟨message, hmessage⟩
    by_contra hgood
    obtain ⟨m, hm, -⟩ := hwrites hgood
    rw [hmessage] at hm
    cases hm
  · rintro ⟨r, hr⟩ hbad
    obtain ⟨message, hmessage⟩ := hfails hbad
    rw [hr] at hmessage
    cases hmessage
  · obtain ⟨m, hm, -⟩ := hwrites hgood
    exact ⟨_, hm⟩
  · intro r hr
    have hgood : ¬ BadCall library (.root d) := by
      intro hbad
      obtain ⟨message, hmessage⟩ := hfails hbad
      rw [hr] at hmessage
      cases hmessage
    obtain ⟨m, hm, hfills⟩ := hwrites hgood
    rw [hr] at hm
    obtain rfl := Except.ok.inj hm
    exact ⟨fit_of_inlined hfills, inlined_of_fit hgood hfills⟩

/-- A process that calls itself. -/
def echo : ProcessDefinition where
  id := "echo"
  elements := (∅ : StrMap Element).insert "call" { id := "call", kind := .callActivity "echo" true true }
  startEvent := "call"

theorem echo_fails :
    ∃ message, inlineCallActivities ((∅ : StrMap ProcessDefinition).insert "echo" echo) (fun _ els => els) echo = .error (some message) :=
  ((inlining_right _ _ (fun _ els => .refl els) echo).1).mpr
    ⟨[], .root echo, "call", _, ⟨.here _, Std.ExtTreeMap.getElem?_insert_self⟩, "echo", true, true, rfl, .inr (by decide)⟩

/-- A process with an ad-hoc sub-process. -/
def desk : ProcessDefinition where
  id := "desk"
  elements := (∅ : StrMap Element).insert "box" { id := "box", kind := .serviceTask "agent" none none [] [] }
  startEvent := "box"
  adhoc := [{ containerId := "box", tools := [{ elementId := "look", name := "Look", kind := .serviceTask "look" }] }]

/-- A process that calls it. -/
def office : ProcessDefinition where
  id := "office"
  elements := (∅ : StrMap Element).insert "call" { id := "call", kind := .callActivity "desk" true true }
  startEvent := "call"

/-- The copy of the ad-hoc sub-process has no tool catalog. -/
theorem catalog_lost :
    ∃ r, inlineCallActivities ((∅ : StrMap ProcessDefinition).insert "desk" desk) (fun _ els => els) office = .ok r ∧
      r.elements["call$box"]?.isSome ∧ r.adhoc = [] ∧
      ¬ Inlined ((∅ : StrMap ProcessDefinition).insert "desk" desk) office r := by
  refine ⟨_, rfl, by decide +kernel, rfl, fun h => ?_⟩
  have hvisits : Visits ((∅ : StrMap ProcessDefinition).insert "desk" desk) (.root office) ["call"]
      ⟨"" ++ "call" ++ "$", some ("" ++ "call"), ["office"] ++ ["desk"], desk⟩ :=
    .call Std.ExtTreeMap.getElem?_insert_self ⟨"desk", true, true, desk, rfl, Std.ExtTreeMap.getElem?_insert_self, by decide, rfl⟩ (.here _)
  exact absurd (h.catalogs _ _ hvisits _ List.mem_cons_self) List.not_mem_nil


end Inlining

end NanoBpm
