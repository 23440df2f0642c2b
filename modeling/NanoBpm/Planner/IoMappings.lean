import NanoBpm.Planner.Resolve
import NanoBpm.Cells
import NanoBpm.Lib.Reorder

/-!
# What input and output mappings leave in a scope (`engine/resolve.rs:156`, `:736-780`)

| here | there |
| --- | --- |
| `ioPath` | the split of a target at its dots in `assign_io_target`: empty parts do not count |
| `Vars.atPath` | what a scope has at a path: a path leads through contexts only |
| `assigned` | the loop of `eval_io_mappings_in`, once every source has a value |

A mapping starts from what an earlier one has left at the head of its path, or else from the scope. Merged into the scope, either is
the same write at the path.
-/

namespace NanoBpm

variable {vars updates result : Vars} {node value : Value} {p q : List String} {k top : String}

/-! ## Reading and writing at a path -/

/-- The entries of a context; any other value has none. -/
def Value.entries : Value → List (String × Value)
  | .map entries => entries
  | _ => []

def Value.entry (v : Value) (name : String) : Option Value := (v.entries.find? (·.1 == name)).map (·.2)

@[simp] theorem Value.entries_map (entries : List (String × Value)) : (Value.map entries).entries = entries := rfl

@[simp] theorem Value.entry_map_entries (v : Value) (name : String) : (Value.map v.entries).entry name = v.entry name := rfl

/-- What a value has at a path through contexts. -/
def Value.atPath : Value → List String → Option Value
  | v, [] => some v
  | v, name :: path => (v.entry name).bind fun inner => inner.atPath path

/-- What is at a path of a scope. -/
def Vars.atPath (vars : Vars) : List String → Option Value
  | [] => none
  | top :: path => (vars[top]?).bind fun root => root.atPath path

theorem Value.entry_insertEntry (name key : String) (value : Value) (entries : List (String × Value)) :
    (Value.map (setIoPath.insertEntry key value entries)).entry name = if name = key then some value else (Value.map entries).entry name := by
  change ((setIoPath.insertEntry key value entries).find? (·.1 == name)).map (·.2) = if name = key then some value else
    (entries.find? (·.1 == name)).map (·.2)
  induction entries with
  | nil =>
    by_cases h : name = key
    · simp [setIoPath.insertEntry, h]
    · simp [setIoPath.insertEntry, h, Ne.symm h]
  | cons e entries ih =>
    obtain ⟨l, w⟩ := e
    unfold setIoPath.insertEntry
    split
    · by_cases h : name = key
      · simp [h]
      · simp [h, Ne.symm h]
    · split
      · next heq =>
        subst heq
        by_cases h : name = key
        · simp [h]
        · simp [h, Ne.symm h]
      · next hne =>
        rw [List.find?_cons, List.find?_cons]
        by_cases h : l = name
        · subst h
          simp [Ne.symm hne]
        · have hfalse : (l == name) = false := beq_eq_false_iff_ne.mpr h
          simp only [hfalse]
          exact ih

/-- Entries under different names are inserted in either order. -/
theorem insertEntry_comm {j k : String} (hne : j ≠ k) (v w : Value) (entries : List (String × Value)) :
    setIoPath.insertEntry j v (setIoPath.insertEntry k w entries) = setIoPath.insertEntry k w (setIoPath.insertEntry j v entries) := by
  induction entries with
  | nil => grind [setIoPath.insertEntry]
  | cons e entries ih => grind [setIoPath.insertEntry]

theorem insertEntry_insertEntry (k : String) (v w : Value) (entries : List (String × Value)) :
    setIoPath.insertEntry k v (setIoPath.insertEntry k w entries) = setIoPath.insertEntry k v entries := by
  induction entries with
  | nil => grind [setIoPath.insertEntry]
  | cons e entries ih => grind [setIoPath.insertEntry]

theorem setIoPath_cons (node : Value) (name : String) (path : List String) (value : Value) :
    setIoPath node (name :: path) value =
      .map (setIoPath.insertEntry name (setIoPath ((node.entry name).getD (.map [])) path value) node.entries) := by
  cases node <;> rfl

theorem Value.atPath_setIoPath_self (node value : Value) (p : List String) : (setIoPath node p value).atPath p = some value := by
  induction p generalizing node with
  | nil => rfl
  | cons name path ih =>
    rw [setIoPath_cons, Value.atPath, Value.entry_insertEntry, if_pos rfl]
    exact ih _

/-- Neither path leads through the other. -/
def Apart (p q : List String) : Prop := ¬ p <+: q ∧ ¬ q <+: p

theorem Apart.symm (h : Apart p q) : Apart q p := ⟨h.2, h.1⟩

theorem apart_cons (j k : String) (p q : List String) : Apart (j :: p) (k :: q) ↔ j = k → Apart p q := by
  simp only [Apart, List.cons_prefix_cons]
  grind

theorem not_apart_nil (p : List String) : ¬ Apart [] p := fun h => h.1 List.nil_prefix

/-- A write at one path leaves the paths apart from it as they are. -/
theorem Value.atPath_setIoPath_apart (node value : Value) (h : Apart p q) : (setIoPath node p value).atPath q = node.atPath q := by
  induction p generalizing node q with
  | nil => exact absurd h (not_apart_nil q)
  | cons name path ih =>
    cases q with
    | nil => exact absurd h.symm (not_apart_nil _)
    | cons k q =>
      rw [setIoPath_cons, Value.atPath, Value.atPath, Value.entry_insertEntry]
      split
      · next heq =>
        have hrest : Apart path q := (apart_cons _ _ _ _).mp h heq.symm
        subst heq
        rw [Option.bind_some, ih _ hrest]
        cases hentry : node.entry k with
        | some inner => rfl
        | none =>
          cases q with
          | nil => exact absurd hrest.symm (not_apart_nil _)
          | cons j q => rfl
      · cases node <;> rfl

theorem setIoPath_comm (node v w : Value) (h : Apart p q) :
    setIoPath (setIoPath node p v) q w = setIoPath (setIoPath node q w) p v := by
  induction p generalizing node q with
  | nil => exact absurd h (not_apart_nil q)
  | cons j p ih =>
    cases q with
    | nil => exact absurd h.symm (not_apart_nil _)
    | cons k q =>
      rw [setIoPath_cons _ j, setIoPath_cons _ k, setIoPath_cons _ k, setIoPath_cons _ j, Value.entry_insertEntry,
        Value.entry_insertEntry]
      by_cases hjk : j = k
      · subst hjk
        simp only [Value.entries_map, if_true, Option.getD_some, insertEntry_insertEntry]
        rw [ih _ ((apart_cons _ _ _ _).mp h rfl)]
      · rw [if_neg hjk, if_neg (Ne.symm hjk)]
        simp only [Value.entry_map_entries, Value.entries_map]
        rw [insertEntry_comm hjk]

/-! ## One mapping -/

/-- The names of a target. -/
def ioPath (target : String) : List String := (splitOnChar '.' target).filter (! ·.isEmpty)

/-- What `assign_io_target` does at a path. -/
def assignAt (result vars : Vars) (path : List String) (value : Value) : Vars :=
  match path with
  | [] => result
  | top :: rest => result.insert top (setIoPath ((result[top]?.or vars[top]?).getD (.map [])) rest value)

/-- Neither target writes through the other: their paths are apart, or one has no names and writes nothing. -/
def Separate (p q : List String) : Prop := p = [] ∨ q = [] ∨ Apart p q

theorem Separate.symm (h : Separate p q) : Separate q p := by
  rcases h with rfl | rfl | h
  · exact .inr (.inl rfl)
  · exact .inl rfl
  · exact .inr (.inr h.symm)

theorem assignIoTarget_eq (result vars : Vars) (target : String) (value : Value) :
    assignIoTarget result vars target value = assignAt result vars (ioPath target) value := by
  unfold assignIoTarget
  unfold ioPath
  generalize List.filter _ (splitOnChar '.' target) = path
  obtain _ | ⟨top, _ | ⟨next, rest⟩⟩ := path
  · rfl
  · rfl
  · cases h : result[top]? <;> simp [assignAt, h]

theorem Vars.atPath_extend (vars updates : Vars) (top : String) (path : List String) :
    (vars.extend updates).atPath (top :: path) = (updates[top]?.or vars[top]?).bind fun root => root.atPath path := by
  rw [Vars.atPath, Vars.getElem?_extend]

theorem atPath_assignAt_self (result vars : Vars) (value : Value) (h : p ≠ []) :
    (vars.extend (assignAt result vars p value)).atPath p = some value := by
  cases p with
  | nil => exact absurd rfl h
  | cons top rest =>
    rw [Vars.atPath_extend, assignAt, Std.ExtTreeMap.getElem?_insert_self]
    exact Value.atPath_setIoPath_self _ value rest

theorem atPath_assignAt_separate (result vars : Vars) (value : Value) (h : Separate p q) :
    (vars.extend (assignAt result vars p value)).atPath q = (vars.extend result).atPath q := by
  rcases h with rfl | rfl | h
  · rfl
  · rfl
  · cases p with
    | nil => exact absurd h (not_apart_nil q)
    | cons top rest =>
      cases q with
      | nil => rfl
      | cons k q =>
        rw [Vars.atPath_extend, Vars.atPath_extend, assignAt, Std.ExtTreeMap.getElem?_insert]
        split
        · next heq =>
          obtain rfl := Std.LawfulEqCmp.eq_of_compare heq
          have hrest : Apart rest q := (apart_cons _ _ _ _).mp h rfl
          rw [Option.some_or, Option.bind_some, Value.atPath_setIoPath_apart _ _ hrest]
          cases hroot : result[top]?.or vars[top]? with
          | some root => rfl
          | none =>
            cases q with
            | nil => exact absurd hrest.symm (not_apart_nil _)
            | cons j q => rfl
        · rfl

theorem assignAt_comm (result vars : Vars) (v w : Value) (h : Separate p q) :
    assignAt (assignAt result vars p v) vars q w = assignAt (assignAt result vars q w) vars p v := by
  rcases h with rfl | rfl | h
  · rfl
  · rfl
  · cases p with
    | nil => exact absurd h (not_apart_nil q)
    | cons j p =>
      cases q with
      | nil => exact absurd h.symm (not_apart_nil _)
      | cons k q =>
        simp only [assignAt, Std.ExtTreeMap.getElem?_insert]
        by_cases hjk : j = k
        · subst hjk
          have hset := setIoPath_comm ((result[j]?.or vars[j]?).getD (.map [])) v w ((apart_cons _ _ _ _).mp h rfl)
          refine Std.ExtTreeMap.ext_getElem? fun name => ?_
          simp only [Std.ExtTreeMap.getElem?_insert, Std.ReflCmp.compare_self, if_true, Option.some_or, Option.getD_some, hset]
          split <;> rfl
        · have hkj : ¬ compare k j = .eq := fun heq => hjk (Std.LawfulEqCmp.eq_of_compare heq).symm
          have hne : ¬ compare j k = .eq := fun heq => hjk (Std.LawfulEqCmp.eq_of_compare heq)
          rw [if_neg hkj, if_neg hne]
          refine Std.ExtTreeMap.ext_getElem? fun name => ?_
          simp only [Std.ExtTreeMap.getElem?_insert]
          split
          · next heq =>
            obtain rfl := Std.LawfulEqCmp.eq_of_compare heq
            rw [if_neg hne]
          · rfl

/-! ## All mappings -/

variable [Feel]

def sourceValue (vars : Vars) (m : Mapping) : Value := (evalIoMappingSource m.source vars).toOption.getD .null

/-- What the mappings come to, one after the other, from `result` on. -/
def assigned (vars result : Vars) (mappings : List Mapping) : Vars :=
  mappings.foldl (fun result m => assignAt result vars (ioPath m.target) (sourceValue vars m)) result

/-- The targets of the mappings are separate. -/
def Mapping.Separate (m m' : Mapping) : Prop := NanoBpm.Separate (ioPath m.target) (ioPath m'.target)

theorem evalIoMappingsIn_eq {mappings : List Mapping} (h : ∀ m ∈ mappings, ∃ value, evalIoMappingSource m.source vars = .ok value) :
    evalIoMappingsIn vars mappings = .ok (assigned vars ∅ mappings) := by
  unfold evalIoMappingsIn assigned
  generalize (∅ : Vars) = result
  induction mappings generalizing result with
  | nil => rfl
  | cons m mappings ih =>
    obtain ⟨value, hvalue⟩ := h m List.mem_cons_self
    have hsource : sourceValue vars m = value := by
      rw [sourceValue, hvalue]
      rfl
    rw [List.foldlM_cons, hvalue, List.foldl_cons, hsource, ← assignIoTarget_eq]
    exact ih (fun m' hm' => h m' (List.mem_cons_of_mem _ hm')) _

theorem assigned_cons (vars result : Vars) (m : Mapping) (mappings : List Mapping) : assigned vars result (m :: mappings) =
    assigned vars (assignAt result vars (ioPath m.target) (sourceValue vars m)) mappings := rfl

theorem atPath_assigned_separate (vars result : Vars) (mappings : List Mapping) (h : ∀ m ∈ mappings, Separate (ioPath m.target) q) :
    (vars.extend (assigned vars result mappings)).atPath q = (vars.extend result).atPath q := by
  induction mappings generalizing result with
  | nil => rfl
  | cons m mappings ih =>
    rw [assigned_cons, ih _ fun m' hm' => h m' (List.mem_cons_of_mem _ hm')]
    exact atPath_assignAt_separate result vars _ (h m List.mem_cons_self)

theorem atPath_assigned (vars : Vars) (before : List Mapping) (m : Mapping) (after : List Mapping) (hpath : ioPath m.target ≠ [])
    (h : ∀ m' ∈ after, m'.Separate m) :
    (vars.extend (assigned vars ∅ (before ++ m :: after))).atPath (ioPath m.target) = some (sourceValue vars m) := by
  rw [assigned, List.foldl_append, List.foldl_cons]
  exact (atPath_assigned_separate vars _ after h).trans (atPath_assignAt_self _ vars _ hpath)

theorem assigned_reordered {mappings mappings' : List Mapping} (h : Reordered Mapping.Separate mappings mappings') :
    assigned vars ∅ mappings' = assigned vars ∅ mappings :=
  (h.foldl_eq (fun result m m' hsep => assignAt_comm result vars (sourceValue vars m) (sourceValue vars m') hsep) ∅).symm

/-- Merged into the scope, the result of mappings whose sources all have a value holds it at the path of each target that no later
target writes through, holds what the scope held at each path separate from all targets, and is the same for every order of mappings
whose targets are separate. -/
theorem ioMappings_merged (vars : Vars) (mappings : List Mapping)
    (h : ∀ m ∈ mappings, ∃ value, evalIoMappingSource m.source vars = .ok value) :
    ∃ result, evalIoMappingsIn vars mappings = .ok result ∧
      (∀ before m after value, mappings = before ++ m :: after → ioPath m.target ≠ [] → evalIoMappingSource m.source vars = .ok value →
        (∀ m' ∈ after, m'.Separate m) → (vars.extend result).atPath (ioPath m.target) = some value) ∧
      (∀ path, (∀ m ∈ mappings, Separate (ioPath m.target) path) → (vars.extend result).atPath path = vars.atPath path) ∧
      (∀ mappings', Reordered Mapping.Separate mappings mappings' → evalIoMappingsIn vars mappings' = .ok result) ∧
      (mappings.Pairwise Mapping.Separate → ∀ mappings', mappings.Perm mappings' → evalIoMappingsIn vars mappings' = .ok result) := by
  have hreordered : ∀ mappings', Reordered Mapping.Separate mappings mappings' →
      evalIoMappingsIn vars mappings' = .ok (assigned vars ∅ mappings) := by
    intro mappings' hmappings'
    rw [evalIoMappingsIn_eq fun m hm => h m (hmappings'.perm.mem_iff.mpr hm), assigned_reordered hmappings']
  refine ⟨assigned vars ∅ mappings, evalIoMappingsIn_eq h, ?_, ?_, hreordered, ?_⟩
  · rintro before m after value rfl hpath hvalue hafter
    rw [atPath_assigned vars before m after hpath hafter, sourceValue, hvalue]
    rfl
  · intro path hpath
    rw [atPath_assigned_separate vars ∅ mappings hpath]
    congr 1
  · exact fun hpair mappings' hperm => hreordered mappings' (.of_perm (fun m m' hm => hm.symm) hperm hpair)

omit [Feel] in
/-- A total and a note written into an order that has an id. -/
theorem order_total_merged :
    let _ := Feel.refusing
    let vars : Vars := (∅ : Vars).insert "order" (.map [("id", .int 7)])
    ∃ result, evalIoMappingsIn vars [⟨"12", "order.total"⟩, ⟨"late", "order.note"⟩] = .ok result ∧
      (vars.extend result).atPath ["order", "total"] = some (.str "12") ∧ (vars.extend result).atPath ["order", "id"] = some (.int 7) := by
  intro _ vars
  have htotal : ioPath "order.total" = ["order", "total"] := by decide +kernel
  have hnote : ioPath "order.note" = ["order", "note"] := by decide +kernel
  have hsource : evalIoMappingSource "12" vars = .ok (.str "12") := rfl
  obtain ⟨result, hresult, hwritten, hkept, -⟩ := ioMappings_merged vars [⟨"12", "order.total"⟩, ⟨"late", "order.note"⟩]
    (by simpa using ⟨⟨_, hsource⟩, ⟨.str "late", rfl⟩⟩)
  refine ⟨result, hresult, ?_, ?_⟩
  · rw [← htotal]
    refine hwritten [] ⟨"12", "order.total"⟩ [⟨"late", "order.note"⟩] _ rfl (by simp [htotal]) hsource ?_
    simp [Mapping.Separate, Separate, Apart, htotal, hnote]
  · rw [hkept ["order", "id"] (by simp [Separate, Apart, htotal, hnote]), Vars.atPath, Std.ExtTreeMap.getElem?_insert_self]
    rfl

end NanoBpm
